import NovaBootloader.Clock

/-!
# What `clock_init` hands over

A wait looks at the values of a trace one by one, a bounded number of times, and stops right after
the first one that shows what it waits for. Started from the reset state, `clock_init` is determined
by where on the trace each of its waits ends. `clock_fallback_hsi` writes `RCC_CFGR` before it stops
the PLL, so a failure after the PLL was switched on leaves its multiplier behind, and only a dead
oscillator hands over the state that the comment promises for every failure.
-/

namespace BoundedPoll

/-- The position after the first value from `start` on that shows `p`, within `n` values. -/
def firstShown (p : ℕ → Bool) : ℕ → ℕ → Option ℕ
  | _, 0 => none
  | start, n + 1 => if p start then some (start + 1) else firstShown p (start + 1) n

variable {p : ℕ → Bool}

theorem firstShown_eq_none_iff (start n : ℕ) :
    firstShown p start n = none ↔ ∀ k < n, p (start + k) = false := by
  induction n generalizing start with
  | zero => simp [firstShown]
  | succ n ih =>
    rw [firstShown, Nat.forall_lt_succ_left, Nat.add_zero start]
    by_cases hp : p start = true
    · rw [if_pos hp]
      exact iff_of_false (Option.some_ne_none _) fun h => by simp [h.1] at hp
    · have hstart : p start = false := by simpa using hp
      rw [if_neg hp, ih, and_iff_right hstart]
      simp only [Nat.add_assoc, Nat.add_comm 1]

theorem firstShown_spec {start n j : ℕ} (h : firstShown p start n = some j) :
    start < j ∧ j ≤ start + n ∧ p (j - 1) = true := by
  induction n generalizing start with
  | zero => exact absurd h.symm (Option.some_ne_none j)
  | succ n ih =>
    rw [firstShown] at h
    by_cases hp : p start = true
    · rw [if_pos hp] at h
      cases h
      exact ⟨Nat.lt_succ_self start, by omega, hp⟩
    · rw [if_neg hp] at h
      obtain ⟨hlo, hhi, hshown⟩ := ih h
      exact ⟨by omega, by omega, hshown⟩

theorem firstShown_of_shown {start n : ℕ} (hn : 0 < n) (h : p start = true) :
    firstShown p start n = some (start + 1) := by
  obtain ⟨n, rfl⟩ := Nat.exists_eq_succ_of_ne_zero hn.ne'
  rw [firstShown, if_pos h]

end BoundedPoll

namespace NovaBootloader
open BoundedPoll

def RccFlags.onPll (f : RccFlags) : Bool := f.sws == 2

def crStarted (cfg : BuildConfig) : UInt32 := if cfg.hseFailTest then 0x83 else 0x10083

def cfgrPll (cfg : BuildConfig) : UInt32 :=
  if cfg.use120MHz then rccCfgrPllsrcHse ||| rccCfgrPllmull15 ||| rccCfgrPpre1Div4
  else rccCfgrPllsrcHse ||| rccCfgrPllmull9 ||| rccCfgrPpre1Div2

def acrStarted (cfg : BuildConfig) : UInt32 := if cfg.use120MHz then 0x33 else 0x32

theorem crStarted_off (cfg : BuildConfig) : crStarted cfg &&& rccCrPllon = 0 := by
  rcases cfg with ⟨_ | _, _ | _⟩ <;> decide

theorem crStarted_on (cfg : BuildConfig) :
    (crStarted cfg ||| rccCrPllon) &&& rccCrPllon = rccCrPllon := by
  rcases cfg with ⟨_ | _, _ | _⟩ <;> decide

theorem crStarted_on_ne_zero (cfg : BuildConfig) :
    ¬ (crStarted cfg ||| rccCrPllon) &&& rccCrPllon = 0 := by
  rw [crStarted_on]
  decide

section Waits

/-- What a bounded wait leaves behind, by where on the trace it ends. -/
def Rcc.waited (r : Rcc) (n : ℕ) : Option ℕ → Rcc × Bool
  | some k => ({ r with reads := k }, true)
  | none => ({ r with reads := r.reads + n }, false)

/-- A bounded wait in terms of the trace alone. -/
theorem rccWait_eq {reg : Rcc → UInt32} {mask want : UInt32} {p : RccFlags → Bool} {r : Rcc}
    (hreg : ∀ k, reg { r with reads := k } &&& mask = want ↔ p (r.polls k) = true) (n : ℕ) :
    rccWait reg mask want n r = r.waited n (firstShown (fun k => p (r.polls k)) r.reads n) := by
  have hwait : ∀ n k, rccWait reg mask want n { r with reads := k } =
      { r with reads := k }.waited n (firstShown (fun j => p (r.polls j)) k n) := by
    intro n
    induction n with
    | zero => exact fun k => rfl
    | succ n ih =>
      intro k
      rw [rccWait, firstShown]
      by_cases hp : p (r.polls k) = true
      · rw [if_pos ((hreg k).mpr hp), if_pos hp]
        rfl
      · rw [if_neg (mt (hreg k).mp hp), if_neg hp, ih]
        cases firstShown (fun j => p (r.polls j)) (k + 1) n with
        | some j => rfl
        | none =>
          simp only [Rcc.waited, Nat.add_right_comm, Nat.add_assoc]
  exact hwait n r.reads

/-- The values of `RCC_CR` that `clock_init` polls its flags over. -/
def polledCr : List UInt32 := [0x83, 0x10083, 0x1000083, 0x1010083]

theorem readCr_flags : ∀ c ∈ polledCr, ∀ hse pll : Bool,
    let cr := (c ||| if hse then rccCrHserdy else 0) ||| if pll then rccCrPllrdy else 0
    (cr &&& rccCrHserdy = rccCrHserdy ↔ hse = true) ∧
      (cr &&& rccCrHserdy = 0 ↔ (!hse) = true) ∧
      (cr &&& rccCrPllrdy = rccCrPllrdy ↔ pll = true) := by
  intro c hc hse pll
  have hcases : c = 0x83 ∨ c = 0x10083 ∨ c = 0x1000083 ∨ c = 0x1010083 := by
    simpa [polledCr] using hc
  rcases hcases with rfl | rfl | rfl | rfl <;> cases hse <;> cases pll <;> decide

variable {r : Rcc}

theorem rccWait_hserdy (hcr : r.cr ∈ polledCr) (n : ℕ) :
    rccWait Rcc.readCr rccCrHserdy rccCrHserdy n r =
      r.waited n (firstShown (fun k => (r.polls k).hserdy) r.reads n) :=
  rccWait_eq (fun _ => (readCr_flags r.cr hcr _ _).1) n

theorem rccWait_hserdy_low (hcr : r.cr ∈ polledCr) (n : ℕ) :
    rccWait Rcc.readCr rccCrHserdy 0 n r =
      r.waited n (firstShown (fun k => !(r.polls k).hserdy) r.reads n) :=
  rccWait_eq (p := fun f => !f.hserdy) (fun _ => (readCr_flags r.cr hcr _ _).2.1) n

theorem rccWait_pllrdy (hcr : r.cr ∈ polledCr) (n : ℕ) :
    rccWait Rcc.readCr rccCrPllrdy rccCrPllrdy n r =
      r.waited n (firstShown (fun k => (r.polls k).pllrdy) r.reads n) :=
  rccWait_eq (fun _ => (readCr_flags r.cr hcr _ _).2.2) n

theorem readCfgr_onPll (cfg : BuildConfig) (sws : BitVec 2) :
    ((cfgrPll cfg ||| rccCfgrSwPll) ||| UInt32.ofNat (sws.toNat <<< 2)) &&& rccCfgrSws =
      rccCfgrSwsPll ↔ (sws == 2) = true := by
  have h : ∀ n < 4, ((cfgrPll cfg ||| rccCfgrSwPll) ||| UInt32.ofNat (n <<< 2)) &&& rccCfgrSws =
      rccCfgrSwsPll ↔ n = 2 := by
    rcases cfg with ⟨_ | _, _ | _⟩ <;> decide
  rw [h sws.toNat sws.isLt, beq_iff_eq, ← BitVec.toNat_inj]
  rfl

theorem rccWait_onPll (cfg : BuildConfig) (hcfgr : r.cfgr = cfgrPll cfg ||| rccCfgrSwPll) (n : ℕ) :
    rccWait Rcc.readCfgr rccCfgrSws rccCfgrSwsPll n r =
      r.waited n (firstShown (fun k => (r.polls k).onPll) r.reads n) := by
  refine rccWait_eq (p := RccFlags.onPll) (fun k => ?_) n
  have h := readCfgr_onPll cfg (r.polls k).sws
  rw [← hcfgr] at h
  exact h

end Waits

section Trace

variable (cfg : BuildConfig) (polls : ℕ → RccFlags)

/-- The poll that the wait for `HSERDY` begins with: a test build first waits for it to fall. -/
def hseFrom : ℕ :=
  if cfg.hseFailTest then
    (firstShown (fun k => !(polls k).hserdy) 0 rccTimeout).getD rccTimeout
  else 0

def hseShown : Option ℕ := firstShown (fun k => (polls k).hserdy) (hseFrom cfg polls) rccTimeout

def pllShown (start : ℕ) : Option ℕ := firstShown (fun k => (polls k).pllrdy) start rccTimeout

def switchShown (start : ℕ) : Option ℕ := firstShown (fun k => (polls k).onPll) start rccTimeout

theorem hseStart_reset (acr : UInt32) : hseStart cfg { Rcc.reset polls with acr := acr } =
    ⟨crStarted cfg, 0, acr, polls, hseFrom cfg polls⟩ := by
  have hoff : ((0x83 : UInt32) &&& ~~~rccCrHseon) &&& ~~~(rccCrHserdy ||| rccCrPllrdy) = 0x83 := by
    decide
  have hon : ((0x83 : UInt32) ||| rccCrHseon) &&& ~~~(rccCrHserdy ||| rccCrPllrdy) = 0x10083 := by
    decide
  unfold hseStart crStarted hseFrom
  simp only [Rcc.reset, Rcc.writeCr, hoff, hon]
  split
  · rw [rccWait_hserdy_low (by decide : (0x83 : UInt32) ∈ polledCr)]
    dsimp only
    cases firstShown (fun k => !(polls k).hserdy) 0 rccTimeout with
    | some k => rfl
    | none => simp only [Rcc.waited, Option.getD_none, Nat.zero_add]
  · rfl

theorem clockFallbackHsi_of_off (acr : UInt32) (reads : ℕ) :
    clockFallbackHsi ⟨crStarted cfg, 0, acr, polls, reads⟩ = ⟨0x83, 0, 0x30, polls, reads⟩ := by
  have hcr : (crStarted cfg &&& ~~~(rccCrPllon ||| rccCrHseon)) &&&
      ~~~(rccCrHserdy ||| rccCrPllrdy) = 0x83 := by
    rcases cfg with ⟨_ | _, _ | _⟩ <;> decide
  simp only [clockFallbackHsi, Rcc.writeCfgr, Rcc.writeCr, crStarted_off, if_true, hcr,
    UInt32.zero_and]

theorem clockFallbackHsi_of_on {cfgr : UInt32}
    (hcfgr : cfgr = cfgrPll cfg ∨ cfgr = cfgrPll cfg ||| rccCfgrSwPll) (acr : UInt32) (reads : ℕ) :
    clockFallbackHsi ⟨crStarted cfg ||| rccCrPllon, cfgr, acr, polls, reads⟩ =
      ⟨0x83, cfgrPll cfg &&& rccCfgrPllmull, 0x30, polls, reads⟩ := by
  have hcr : ((crStarted cfg ||| rccCrPllon) &&& ~~~(rccCrPllon ||| rccCrHseon)) &&&
      ~~~(rccCrHserdy ||| rccCrPllrdy) = 0x83 := by
    rcases cfg with ⟨_ | _, _ | _⟩ <;> decide
  have hmul : cfgr &&& rccCfgrPllmull = cfgrPll cfg &&& rccCfgrPllmull := by
    rcases hcfgr with rfl | rfl
    · rfl
    · rcases cfg with ⟨_ | _, _ | _⟩ <;> decide
  simp only [clockFallbackHsi, Rcc.writeCfgr, Rcc.writeCr, crStarted_on_ne_zero, if_false, hcr,
    hmul, UInt32.zero_and, UInt32.zero_or]

theorem configurePll_eq (acr : UInt32) (reads : ℕ) :
    let r := (⟨crStarted cfg, 0, acr, polls, reads⟩ : Rcc).writeCfgr (cfgrPll cfg)
    r.writeCr (r.cr ||| rccCrPllon) =
      ⟨crStarted cfg ||| rccCrPllon, cfgrPll cfg, acr, polls, reads⟩ := by
  have hcfgr : cfgrPll cfg &&& ~~~rccCfgrSws = cfgrPll cfg := by
    rcases cfg with ⟨_ | _, _ | _⟩ <;> decide
  have hcr : (crStarted cfg ||| rccCrPllon) &&& ~~~(rccCrHserdy ||| rccCrPllrdy) =
      crStarted cfg ||| rccCrPllon := by
    rcases cfg with ⟨_ | _, _ | _⟩ <;> decide
  simp only [Rcc.writeCfgr, Rcc.writeCr, crStarted_off, if_true, hcfgr, hcr]

theorem switchToPll_eq (acr : UInt32) (reads : ℕ) :
    (⟨crStarted cfg ||| rccCrPllon, cfgrPll cfg, acr, polls, reads⟩ : Rcc).writeCfgr
      (cfgrPll cfg ||| rccCfgrSwPll) =
      ⟨crStarted cfg ||| rccCrPllon, cfgrPll cfg ||| rccCfgrSwPll, acr, polls, reads⟩ := by
  have hcfgr : (((cfgrPll cfg ||| rccCfgrSwPll) &&& ~~~rccCfgrSws) &&& ~~~rccCfgrPllmull) |||
      (cfgrPll cfg &&& rccCfgrPllmull) = cfgrPll cfg ||| rccCfgrSwPll := by
    rcases cfg with ⟨_ | _, _ | _⟩ <;> decide
  simp only [Rcc.writeCfgr, crStarted_on_ne_zero, if_false, hcfgr]

/-- `clock_init` as a whole, by where its waits end on the trace. -/
theorem clockInit_reset : clockInit cfg (Rcc.reset polls) =
    match hseShown cfg polls with
    | none => (⟨0x83, 0, 0x30, polls, hseFrom cfg polls + rccTimeout⟩, 0)
    | some i =>
      match pllShown polls i with
      | none => (⟨0x83, cfgrPll cfg &&& rccCfgrPllmull, 0x30, polls, i + rccTimeout⟩, 0)
      | some j =>
        match switchShown polls j with
        | none => (⟨0x83, cfgrPll cfg &&& rccCfgrPllmull, 0x30, polls, j + rccTimeout⟩, 0)
        | some k => (⟨crStarted cfg ||| rccCrPllon, cfgrPll cfg ||| rccCfgrSwPll, acrStarted cfg,
            polls, k⟩, 1) := by
  have hstarted : crStarted cfg ∈ polledCr := by
    rcases cfg with ⟨_ | _, _ | _⟩ <;> decide
  have hon : crStarted cfg ||| rccCrPllon ∈ polledCr := by
    rcases cfg with ⟨_ | _, _ | _⟩ <;> decide
  have hacr : (if cfg.use120MHz then (0x33 : UInt32) else 0x32) = acrStarted cfg := rfl
  have hpll : (if cfg.use120MHz then rccCfgrPllsrcHse ||| rccCfgrPllmull15 ||| rccCfgrPpre1Div4
      else rccCfgrPllsrcHse ||| rccCfgrPllmull9 ||| rccCfgrPpre1Div2) = cfgrPll cfg := rfl
  have hhse := rccWait_hserdy
    (r := ⟨crStarted cfg, 0, acrStarted cfg, polls, hseFrom cfg polls⟩) hstarted rccTimeout
  simp only [clockInit, hacr, hpll, hseStart_reset, hhse]
  unfold hseShown
  cases firstShown (fun k => (polls k).hserdy) (hseFrom cfg polls) rccTimeout with
  | none => exact congrArg (·, (0 : ℤ)) (clockFallbackHsi_of_off cfg polls _ _)
  | some i =>
    have hconfig := configurePll_eq cfg polls (acrStarted cfg) i
    have hpllrdy := rccWait_pllrdy
      (r := ⟨crStarted cfg ||| rccCrPllon, cfgrPll cfg, acrStarted cfg, polls, i⟩) hon rccTimeout
    dsimp only at hconfig
    simp only [Rcc.waited, Bool.not_true, Bool.false_eq_true, if_false, hconfig, hpllrdy]
    unfold pllShown
    cases firstShown (fun k => (polls k).pllrdy) i rccTimeout with
    | none => exact congrArg (·, (0 : ℤ)) (clockFallbackHsi_of_on cfg polls (Or.inl rfl) _ _)
    | some j =>
      have honPll := rccWait_onPll (r := ⟨crStarted cfg ||| rccCrPllon,
        cfgrPll cfg ||| rccCfgrSwPll, acrStarted cfg, polls, j⟩) cfg rfl
        rccTimeout
      simp only [Rcc.waited, Bool.not_true, Bool.false_eq_true, if_false, switchToPll_eq, honPll]
      unfold switchShown
      cases firstShown (fun k => (polls k).onPll) j rccTimeout with
      | none => exact congrArg (·, (0 : ℤ)) (clockFallbackHsi_of_on cfg polls (Or.inr rfl) _ _)
      | some k => rfl

theorem hseFrom_le : hseFrom cfg polls ≤ rccTimeout := by
  unfold hseFrom
  split
  · cases h : firstShown (fun k => !(polls k).hserdy) 0 rccTimeout with
    | none => exact le_rfl
    | some k =>
      have hle := (firstShown_spec h).2.1
      rwa [Nat.zero_add] at hle
  · exact Nat.zero_le _

/-- If the oscillator starts, the PLL locks and is switched to in time. -/
def PllComesUp : Prop :=
  ∀ i ∈ hseShown cfg polls, ∃ j ∈ pllShown polls i, (switchShown polls j).isSome = true

variable {cfg polls} in
theorem clockInit_of_unlocked {i : ℕ} (hhse : hseShown cfg polls = some i)
    (hpll : pllShown polls i = none) : clockInit cfg (Rcc.reset polls) =
      (⟨0x83, cfgrPll cfg &&& rccCfgrPllmull, 0x30, polls, i + rccTimeout⟩, 0) := by
  rw [clockInit_reset, hhse]
  simp only [hpll]

end Trace

/-- What the comments promise of the registers and the value `clock_init` returns. -/
structure HandsOver (r : Rcc × ℤ) : Prop where
  bounded : r.1.reads ≤ 4 * rccTimeout
  returns : r.2 = 0 ∨ r.2 = 1
  running : r.2 = 1 → r.1.cr &&& rccCrPllon = rccCrPllon ∧
    ∃ k, r.1.reads = k + 1 ∧
      ({ r.1 with reads := k } : Rcc).readCfgr &&& rccCfgrSws = rccCfgrSwsPll
  fallback : r.2 = 0 → r.1.cfgr = 0 ∧ r.1.cr &&& (rccCrHseon ||| rccCrPllon) = 0 ∧ r.1.acr = 0x30

theorem not_handsOver_of_multiplier (cfg : BuildConfig) (polls : ℕ → RccFlags) (reads : ℕ) :
    ¬ HandsOver (⟨0x83, cfgrPll cfg &&& rccCfgrPllmull, 0x30, polls, reads⟩, 0) := by
  intro h
  have hmul : cfgrPll cfg &&& rccCfgrPllmull ≠ 0 := by
    rcases cfg with ⟨_ | _, _ | _⟩ <;> decide
  exact hmul (h.fallback rfl).1

theorem handsOver_of_dead_oscillator {polls : ℕ → RccFlags} {reads : ℕ}
    (hreads : reads ≤ 4 * rccTimeout) : HandsOver (⟨0x83, 0, 0x30, polls, reads⟩, 0) :=
  have hclear : (0x83 : UInt32) &&& (rccCrHseon ||| rccCrPllon) = 0 := by decide
  ⟨hreads, Or.inl rfl, fun h => absurd h Int.zero_ne_one, fun _ => ⟨rfl, hclear, rfl⟩⟩

theorem handsOver_of_running {cfg : BuildConfig} {polls : ℕ → RccFlags} {k : ℕ}
    (hreads : k + 1 ≤ 4 * rccTimeout) (hswitch : (polls k).onPll = true) :
    HandsOver (⟨crStarted cfg ||| rccCrPllon, cfgrPll cfg ||| rccCfgrSwPll, acrStarted cfg, polls,
      k + 1⟩, 1) := by
  refine ⟨hreads, Or.inr rfl, fun _ => ⟨crStarted_on cfg, k, rfl, ?_⟩,
    fun h => absurd h Int.one_ne_zero⟩
  exact (readCfgr_onPll cfg (polls k).sws).mpr hswitch

/-- `clock_init` hands over what is promised exactly if a started oscillator is followed by the PLL
and the switch in time: of the three waits, only the first may time out. -/
theorem clock_handover_iff (cfg : BuildConfig) (polls : ℕ → RccFlags) :
    HandsOver (clockInit cfg (Rcc.reset polls)) ↔ PllComesUp cfg polls := by
  have hfrom := hseFrom_le cfg polls
  rw [clockInit_reset]
  unfold PllComesUp
  cases hhse : hseShown cfg polls with
  | none => exact iff_of_true (handsOver_of_dead_oscillator (by omega)) fun i hi => nomatch hi
  | some i =>
    have hi := (firstShown_spec hhse).2.1
    simp only [Option.mem_def, Option.some.injEq, forall_eq']
    cases hpll : pllShown polls i with
    | none =>
      exact iff_of_false (not_handsOver_of_multiplier cfg polls _) fun ⟨j, hj, _⟩ => nomatch hj
    | some j =>
      have hj := (firstShown_spec hpll).2.1
      simp only [Option.some.injEq, exists_eq_left']
      cases hswitch : switchShown polls j with
      | none =>
        exact iff_of_false (not_handsOver_of_multiplier cfg polls _) Bool.false_ne_true
      | some k =>
        obtain ⟨hlo, hhi, hshown⟩ := firstShown_spec hswitch
        obtain ⟨k, rfl⟩ : ∃ m, k = m + 1 := ⟨k - 1, by omega⟩
        exact iff_of_true (handsOver_of_running (by omega) hshown) rfl

/-- The oscillator starts and the PLL never locks: its multiplier stays in `RCC_CFGR`. -/
theorem multiplier_left_behind : ¬ HandsOver (clockInit ⟨false, false⟩
    (Rcc.reset fun _ => ⟨true, false, 0⟩)) := by
  have hfrom : hseFrom ⟨false, false⟩ (fun _ => ⟨true, false, 0⟩) = 0 := if_neg Bool.false_ne_true
  have hhse : hseShown ⟨false, false⟩ (fun _ => ⟨true, false, 0⟩) = some 1 := by
    unfold hseShown
    rw [hfrom]
    exact firstShown_of_shown (by decide) rfl
  have hpll : pllShown (fun _ => ⟨true, false, 0⟩) 1 = none := by
    unfold pllShown
    rw [firstShown_eq_none_iff]
    exact fun _ _ => rfl
  rw [clockInit_of_unlocked hhse hpll]
  exact not_handsOver_of_multiplier _ _ _

end NovaBootloader
