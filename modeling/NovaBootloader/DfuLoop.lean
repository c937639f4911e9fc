import NovaBootloader.IdleController

/-!
# `main.c`: the main loop of DFU mode

One iteration polls USB once and then looks at the DFU state: in dfuMANIFEST-WAIT-RESET it counts
down to a system reset. The counter belongs to the loop and the state to the DFU function, so the
state can be left while the counter is running, and entered again. An onlooker counts how long the
current stay has lasted and how many stays there have been.
-/

namespace NovaBootloader

/-- The variables of the loop. `resetting` is set by `system_reset`, from where the core only waits
for the reset to happen. -/
structure DfuLoop where
  machine : Machine
  resetCountdown : ℕ
  resetting : Bool

namespace DfuLoop

abbrev state (l : DfuLoop) : DfuState := l.machine.core.dfu.state

def step (l : DfuLoop) (e : UsbEvent) : DfuLoop :=
  if l.resetting then l
  else
    let l := { l with machine := l.machine.step e }
    if l.state = .manifestWaitReset then
      if l.resetCountdown = 0 then { l with resetCountdown := 50 }
      else
        let l := { l with resetCountdown := l.resetCountdown - 1 }
        if l.resetCountdown = 1 then { l with resetting := true } else l
    else l

/-- The loop at its first iteration, over a flash controller in any state. -/
def start (h : FlashHw) : DfuLoop := ⟨Machine.startOn h, 0, false⟩

def Resets (l : DfuLoop) (e : UsbEvent) : Prop := l.resetting = false ∧ (l.step e).resetting = true

instance (l : DfuLoop) (e : UsbEvent) : Decidable (l.Resets e) :=
  inferInstanceAs (Decidable (_ ∧ _))

/-- What the onlooker counts: the iterations in a row that have seen dfuMANIFEST-WAIT-RESET, and the
stays in that state. -/
structure Watch where
  waited : ℕ
  stays : ℕ
deriving DecidableEq

def observe (w : Watch) (l : DfuLoop) (e : UsbEvent) : Watch :=
  if l.resetting then w
  else if (l.step e).state = .manifestWaitReset then
    ⟨w.waited + 1, if w.waited = 0 then w.stays + 1 else w.stays⟩
  else ⟨0, w.stays⟩

abbrev watched : DfuLoop × Watch → UsbEvent → DfuLoop × Watch := StepSystem.observed step observe

section Step

variable {l : DfuLoop} {e : UsbEvent}

theorem step_of_resetting (h : l.resetting = true) : l.step e = l := if_pos h

theorem step_machine (h : l.resetting = false) : (l.step e).machine = l.machine.step e := by
  unfold step
  rw [h, if_neg Bool.false_ne_true]
  dsimp only
  split_ifs <;> rfl

theorem step_of_not_waiting (h : l.resetting = false)
    (hs : (l.machine.step e).core.dfu.state ≠ .manifestWaitReset) :
    l.step e = { l with machine := l.machine.step e } := by
  unfold step
  rw [h, if_neg Bool.false_ne_true]
  exact if_neg hs

theorem step_of_waiting (h : l.resetting = false)
    (hs : (l.machine.step e).core.dfu.state = .manifestWaitReset) :
    l.step e = { machine := l.machine.step e
                 resetCountdown := if l.resetCountdown = 0 then 50 else l.resetCountdown - 1
                 resetting := l.resetCountdown = 2 } := by
  unfold step
  rw [h, if_neg Bool.false_ne_true]
  dsimp only
  rw [if_pos hs]
  by_cases hzero : l.resetCountdown = 0
  · rw [if_pos hzero, if_pos hzero, hzero]
    rfl
  · rw [if_neg hzero, if_neg hzero]
    by_cases htwo : l.resetCountdown = 2
    · rw [htwo]
      rfl
    · rw [if_neg (by omega)]
      simp [htwo]

end Step

/-- dfuMANIFEST-WAIT-RESET is entered only by a GETSTATUS in dfuMANIFEST-SYNC. -/
theorem enters_waitReset {c : Core} {e : UsbEvent} (hs : c.dfu.state ≠ .manifestWaitReset)
    (hs' : (coreStep c e).dfu.state = .manifestWaitReset) :
    c.dfu.state = .manifestSync ∧ ∃ p ∈ e.setup?, p.IsDfu dfuGetstatus := by
  rcases e with _ | _ | ⟨_ | (p | d), tx⟩
  · exact absurd hs' hs
  · cases hs'
  · exact absurd hs' hs
  · rw [coreStep] at hs'
    have heff := request_effect p c
    generalize (Machine.request p c).1 = c' at heff hs'
    cases heff with
    | none => exact absurd hs' hs
    | attempt =>
      rcases executePending_state c with h | h <;> (rw [h] at hs'; cases hs')
    | manifest hp hsync => exact ⟨hsync, p, rfl, hp⟩
    | upload hp hidle state hstate =>
      rcases hstate with rfl | rfl <;> cases hs'
    | _ => cases hs'
  · rw [coreStep] at hs'
    split_ifs at hs'
    · rw [dataStage_state] at hs'
      exact absurd hs' hs
    · exact absurd hs' hs

/-- dfuMANIFEST-SYNC is entered only by a DNLOAD of length zero in dfuDNLOAD-IDLE. -/
theorem enters_manifestSync {c : Core} {e : UsbEvent} (hs : c.dfu.state ≠ .manifestSync)
    (hs' : (coreStep c e).dfu.state = .manifestSync) : c.dfu.state = .dnloadIdle ∧
      ∃ p ∈ e.setup?, p.IsDfu dfuDnload ∧ p.wLength.toNat = 0 := by
  rcases e with _ | _ | ⟨_ | (p | d), tx⟩
  · exact absurd hs' hs
  · cases hs'
  · exact absurd hs' hs
  · rw [coreStep] at hs'
    have heff := request_effect p c
    generalize (Machine.request p c).1 = c' at heff hs'
    cases heff with
    | none => exact absurd hs' hs
    | attempt =>
      rcases executePending_state c with h | h <;> (rw [h] at hs'; cases hs')
    | finish hp hlen hidle => exact ⟨hidle, p, rfl, hp, hlen⟩
    | upload hp hidle state hstate =>
      rcases hstate with rfl | rfl <;> cases hs'
    | _ => cases hs'
  · rw [coreStep] at hs'
    split_ifs at hs'
    · rw [dataStage_state] at hs'
      exact absurd hs' hs
    · exact absurd hs' hs

/-- The loop resets only at the fiftieth iteration of a stay in dfuMANIFEST-WAIT-RESET, and there is
one way into that state. -/
structure GracePeriod (p : DfuLoop × Watch) (e : UsbEvent) : Prop where
  grace : p.1.Resets e → (watched p e).2.waited = 50
  waitReset : p.1.state ≠ .manifestWaitReset → (p.1.step e).state = .manifestWaitReset →
    p.1.state = .manifestSync ∧ ∃ q ∈ e.setup?, q.IsDfu dfuGetstatus
  manifestSync : p.1.state ≠ .manifestSync → (p.1.step e).state = .manifestSync →
    p.1.state = .dnloadIdle ∧ ∃ q ∈ e.setup?, q.IsDfu dfuDnload ∧ q.wLength.toNat = 0

/-- If the counter is about to run out, the stay in dfuMANIFEST-WAIT-RESET is the first one. -/
def FirstStay (p : DfuLoop × Watch) (e : UsbEvent) : Prop :=
  p.1.resetting = false → p.1.resetCountdown = 2 →
    (p.1.machine.step e).core.dfu.state = .manifestWaitReset → 0 < p.2.waited ∧ p.2.stays = 1

/-- How the counter and the onlooker's two numbers agree while the loop runs: in the first stay the
counter has missed nothing, in a later one it has already been running. -/
structure Counting (countdown waited stays : ℕ) : Prop where
  fresh : stays = 0 → countdown = 0 ∧ waited = 0
  running : 0 < stays → 2 ≤ countdown ∧ countdown ≤ 50
  first : stays = 1 → 0 < waited → countdown + waited = 51
  later : 2 ≤ stays → 0 < waited → countdown + waited ≤ 50

namespace Counting

variable {countdown waited stays : ℕ}

theorem leave (h : Counting countdown waited stays) : Counting countdown 0 stays :=
  ⟨fun hs => ⟨(h.fresh hs).1, rfl⟩, h.running, fun _ hw => absurd hw (Nat.lt_irrefl 0),
    fun _ hw => absurd hw (Nat.lt_irrefl 0)⟩

theorem wait (h : Counting countdown waited stays) (hne : countdown ≠ 2) :
    Counting (if countdown = 0 then 50 else countdown - 1) (waited + 1)
      (if waited = 0 then stays + 1 else stays) := by
  obtain ⟨hfresh, hrunning, hfirst, hlater⟩ := h
  by_cases hw : waited = 0
  · rw [if_pos hw]
    refine ⟨fun _ => by omega, fun _ => ?_, fun _ _ => ?_, fun _ _ => ?_⟩ <;> split_ifs <;> omega
  · rw [if_neg hw]
    refine ⟨fun _ => by omega, fun _ => ?_, fun _ _ => ?_, fun _ _ => ?_⟩ <;> split_ifs <;> omega

/-- The counter runs out in the fiftieth iteration of a stay only if that is the first. -/
theorem last_iff (h : Counting 2 waited stays) : waited + 1 = 50 ↔ 0 < waited ∧ stays = 1 := by
  obtain ⟨hfresh, hrunning, hfirst, hlater⟩ := h
  omega

end Counting

structure Watched (p : DfuLoop × Watch) : Prop where
  quiet : p.1.machine.Quiet
  counting : p.1.resetting = false → Counting p.1.resetCountdown p.2.waited p.2.stays

theorem start_watched (h : FlashHw) : Watched (start h, ⟨0, 0⟩) :=
  ⟨Machine.startOn_quiet h, fun _ => ⟨fun _ => ⟨rfl, rfl⟩, fun h => absurd h (Nat.lt_irrefl 0),
    fun h => absurd h Nat.zero_ne_one, fun h => absurd h (Nat.not_succ_le_zero 1)⟩⟩

section Watching

variable {l : DfuLoop} (w : Watch) {e : UsbEvent}

theorem watched_of_resetting (h : l.resetting = true) : watched (l, w) e = (l, w) := by
  unfold watched StepSystem.observed observe
  simp only [step_of_resetting h, h, if_true]

theorem watched_of_waiting (h : l.resetting = false)
    (hs : (l.machine.step e).core.dfu.state = .manifestWaitReset) : watched (l, w) e =
      (⟨l.machine.step e, if l.resetCountdown = 0 then 50 else l.resetCountdown - 1,
        l.resetCountdown = 2⟩, ⟨w.waited + 1, if w.waited = 0 then w.stays + 1 else w.stays⟩) := by
  unfold watched StepSystem.observed observe
  simp only [step_of_waiting h hs, h, state, hs, Bool.false_eq_true, if_false, if_true]

theorem watched_of_not_waiting (h : l.resetting = false)
    (hs : (l.machine.step e).core.dfu.state ≠ .manifestWaitReset) :
    watched (l, w) e = ({ l with machine := l.machine.step e }, ⟨0, w.stays⟩) := by
  unfold watched StepSystem.observed observe
  simp only [step_of_not_waiting h hs, h, state, hs, Bool.false_eq_true, if_false]

end Watching

theorem Watched.step {p : DfuLoop × Watch} (h : Watched p) (e : UsbEvent) : Watched (watched p e) := by
  obtain ⟨l, w⟩ := p
  cases hr : l.resetting with
  | true =>
    rw [watched_of_resetting w hr]
    exact h
  | false =>
    have hquiet := Machine.step_quiet h.quiet e
    have hcount := h.counting hr
    by_cases hs : (l.machine.step e).core.dfu.state = .manifestWaitReset
    · rw [watched_of_waiting w hr hs]
      exact ⟨hquiet, fun hrun => hcount.wait (by simpa using hrun)⟩
    · rw [watched_of_not_waiting w hr hs]
      exact ⟨hquiet, fun _ => hcount.leave⟩

theorem gracePeriod_iff {p : DfuLoop × Watch} (h : Watched p) (e : UsbEvent) :
    GracePeriod p e ↔ FirstStay p e := by
  obtain ⟨l, w⟩ := p
  have hcore : (l.machine.step e).core = coreStep l.machine.core e := Machine.step_core h.quiet e
  constructor
  · intro hg hr htwo hs
    have hcount := h.counting hr
    rw [htwo] at hcount
    have hwait := watched_of_waiting w hr hs
    have hresets : (l.step e).resetting = true := by
      rw [step_of_waiting hr hs]
      exact decide_eq_true htwo
    have hgrace := hg.grace ⟨hr, hresets⟩
    rw [hwait] at hgrace
    exact hcount.last_iff.mp hgrace
  · intro hfirst
    refine ⟨?_, fun hs hs' => ?_, fun hs hs' => ?_⟩
    · rintro ⟨hr, hr'⟩
      by_cases hs : (l.machine.step e).core.dfu.state = .manifestWaitReset
      · have hwait := watched_of_waiting w hr hs
        have htwo : l.resetCountdown = 2 := by
          rw [step_of_waiting hr hs] at hr'
          exact of_decide_eq_true hr'
        have hcount := h.counting hr
        rw [htwo] at hcount
        rw [hwait]
        exact hcount.last_iff.mpr (hfirst hr htwo hs)
      · rw [step_of_not_waiting hr hs, hr] at hr'
        cases hr'
    · cases hr : l.resetting with
      | true =>
        rw [step_of_resetting hr] at hs'
        exact absurd hs' hs
      | false =>
        rw [state, step_machine hr, hcore] at hs'
        exact enters_waitReset hs hs'
    · cases hr : l.resetting with
      | true =>
        rw [step_of_resetting hr] at hs'
        exact absurd hs' hs
      | false =>
        rw [state, step_machine hr, hcore] at hs'
        exact enters_manifestSync hs hs'

/-- The grace period is kept along the runs in which every reset comes out of the first stay. -/
theorem grace_period_iff (h : FlashHw) (es : List UsbEvent) :
    StepSystem.Along watched GracePeriod (start h, ⟨0, 0⟩) es ↔
      StepSystem.Along watched FirstStay (start h, ⟨0, 0⟩) es :=
  StepSystem.along_iff_of_invariant Watched (fun _ e hp _ => hp.step e)
    (fun _ e hp => gracePeriod_iff hp e) (start_watched h) es

def abortedManifestation : List UsbEvent :=
  [.setup (.dnload 2 1), .out (.ofBytes [0x55]), .setup .getstatus, .setup .getstatus,
    .setup (.dnload 0 0), .setup .getstatus] ++ List.replicate 47 .idle ++ [.setup .abort]

def secondManifestation : List UsbEvent :=
  [.setup (.dnload 2 1), .out (.ofBytes [0x55]), .setup .getstatus, .setup .getstatus,
    .setup (.dnload 0 0), .setup .getstatus]

theorem second_wait_cut_short : ¬ StepSystem.Along watched GracePeriod
    (start (FlashHw.powerOn (fun _ => 0xFF) fun _ => Fault.none), ⟨0, 0⟩)
    (abortedManifestation ++ secondManifestation ++ [.idle]) := by
  intro h
  obtain ⟨-, hlast, -⟩ := (StepSystem.along_append _ _ _).mp h
  have hwaited := hlast.grace (by decide +kernel)
  revert hwaited
  decide +kernel

end DfuLoop

end NovaBootloader
