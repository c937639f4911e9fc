import NovaBootloader.FlashController

/-!
# `flash_if.c`: address validation, page erase and programming

The functions follow the source statement by statement on the controller's registers. The lemmas
after them say what each call does as a whole: what it logs, what it leaves in memory and when it
reports success.
-/

namespace NovaBootloader
open ByteMemory FlashHw

/-- The hardware ends the operation in progress; the source polls `BSY` until it has. -/
def flashWait (h : FlashHw) : FlashHw := { h with sr := { h.sr with bsy := false } }

def flashUnlock (h : FlashHw) : FlashHw :=
  if h.cr.lock then (h.writeKeyr flashKey1).writeKeyr flashKey2 else h

def flashLock (h : FlashHw) : FlashHw := h.modifyCr fun cr => { cr with lock := true }

def flashIsAddressValid (address : UInt32) : Bool :=
  if bootloaderStart ≤ address ∧ address ≤ bootloaderEnd then false
  else if address < appFlashStart ∨ appFlashEnd < address then false
  else true

def flashErasePage (address : UInt32) (h : FlashHw) : FlashHw × Int :=
  let h := h.record (.eraseCall address)
  if !flashIsAddressValid address then (h, -1)
  else
    let address := address &&& ~~~(flashPageSize - 1)
    let h := flashWait (flashUnlock h)
    let h := h.clearErrors
    let h := h.modifyCr fun cr => { cr with per := true }
    let h := { h with ar := address }
    let h := h.start
    let h := flashWait h
    let h := h.modifyCr fun cr => { cr with per := false }
    let h := flashLock h
    (h, if h.failed then -1 else 0)

def flashWriteLoop (data : ℕ → UInt8) (len : ℕ) : ℕ → ℕ → ℕ → FlashHw → FlashHw × Int
  | 0, _, _, h => (flashLock (h.modifyCr fun cr => { cr with pg := false }), 0)
  | n + 1, i, dst, h =>
    let lo := data i
    let hi := if i + 1 < len then data (i + 1) else 0xFF
    let h := flashWait (h.storeHalfword dst lo hi)
    if h.failed then (flashLock (h.modifyCr fun cr => { cr with pg := false }), -1)
    else flashWriteLoop data len n (i + 2) (dst + 2) h

def flashWrite (address : UInt32) (data : ℕ → UInt8) (len : ℕ) (h : FlashHw) : FlashHw × Int :=
  let h := h.record (.writeCall address (toList data len))
  if len = 0 then (h, 0)
  else if !flashIsAddressValid address then (h, -1)
  else if !flashIsAddressValid (address + UInt32.ofNat len - 1) then (h, -1)
  else
    let h := flashWait (flashUnlock h)
    let h := h.clearErrors
    let h := h.modifyCr fun cr => { cr with pg := true }
    flashWriteLoop data len ((len + 1) / 2) 0 address.toNat h

@[simp] theorem toNat_appFlashStart : appFlashStart.toNat = 0x08003000 := rfl

@[simp] theorem toNat_appFlashEnd : appFlashEnd.toNat = 0x0803F7FF := rfl

@[simp] theorem toNat_flashPageSize : flashPageSize.toNat = 2048 := rfl

theorem flashIsAddressValid_iff (a : UInt32) : flashIsAddressValid a = true ↔
    appFlashStart.toNat ≤ a.toNat ∧ a.toNat ≤ appFlashEnd.toNat := by
  have h₁ : bootloaderStart.toNat = 0x08000000 := rfl
  have h₂ : bootloaderEnd.toNat = 0x08002FFF := rfl
  simp only [flashIsAddressValid, UInt32.le_iff_toNat_le, UInt32.lt_iff_toNat_lt, h₁, h₂,
    toNat_appFlashStart, toNat_appFlashEnd]
  split_ifs <;> simp <;> omega

theorem toNat_alignPage (a : UInt32) : (a &&& ~~~(flashPageSize - 1)).toNat = pageBase a := by
  rw [UInt32.toNat_and]
  exact and_highMask a.toNat_lt (by decide : ∀ i < 32, (0xFFFFF800 : ℕ).testBit i = decide (11 ≤ i))

/-- Unlocking changes only the lock, whatever the key register held before. -/
theorem flashUnlock_eq (h : FlashHw) : ∃ keyed,
    flashUnlock h = { h with cr := { h.cr with lock := false }, keyed := keyed } := by
  unfold flashUnlock
  by_cases hl : h.cr.lock = true
  · rw [if_pos hl]
    exact ⟨false, rfl⟩
  · rw [if_neg hl]
    refine ⟨h.keyed, ?_⟩
    cases h with
    | mk mem cr sr ar keyed faults ops log => cases cr; simp_all

theorem flashErasePage_of_invalid {a : UInt32} (h : FlashHw) (ha : flashIsAddressValid a = false) :
    flashErasePage a h = (h.record (.eraseCall a), -1) := by
  simp only [flashErasePage, ha, Bool.not_false, if_true]

/-- A page erase as a whole: one page of the array, the log, and the return code. -/
theorem flashErasePage_of_valid {a : UInt32} (h : FlashHw) (ha : flashIsAddressValid a = true) :
    (flashErasePage a h).1.log = h.log ++ [.eraseCall a, .pageErase (pageBase a)] ∧
    (flashErasePage a h).1.mem = (if (h.faults h.ops).raised then h.mem
      else overwrite h.mem (pageBase a) flashPageSize.toNat fun _ => 0xFF) ∧
    (flashErasePage a h).1.faults = h.faults ∧
    ((flashErasePage a h).2 = 0 ↔ (h.faults h.ops).raised = false) := by
  have hbase : pageBase (a &&& ~~~(flashPageSize - 1)) = pageBase a := by
    have := toNat_alignPage a
    simp only [pageBase, toNat_flashPageSize] at this ⊢
    omega
  obtain ⟨keyed, hu⟩ := flashUnlock_eq (h.record (.eraseCall a))
  unfold flashErasePage
  simp only [ha, Bool.not_true, Bool.false_eq_true, if_false, hu]
  simp only [flashWait, clearErrors, modifyCr, start, Bool.false_eq_true, if_false, Bool.or_self,
    Bool.not_true, hbase, flashLock, begin, record, failed]
  refine ⟨?_, trivial, trivial, ?_⟩
  · simp
  · simp [Fault.raised]

/-- The controller inside the half-word loop: unlocked, programming enabled, no error so far. -/
structure Programming (h : FlashHw) : Prop where
  unlocked : h.cr.lock = false
  enabled : h.cr.pg = true
  clean : h.failed = false

/-- How many of `n` half-words are programmed before the first fault. -/
def programmed (faults : ℕ → Fault) : ℕ → ℕ → ℕ
  | _, 0 => 0
  | k, n + 1 => if (faults k).raised then 0 else programmed faults (k + 1) n + 1

theorem programmed_le (faults : ℕ → Fault) (k n : ℕ) : programmed faults k n ≤ n := by
  induction n generalizing k with
  | zero => exact le_rfl
  | succ n ih =>
    rw [programmed]
    split
    · omega
    · exact Nat.succ_le_succ (ih (k + 1))

/-- The first `m` half-words are programmed exactly if none of them faults. -/
theorem le_programmed_iff (faults : ℕ → Fault) (k : ℕ) {n m : ℕ} (hm : m ≤ n) :
    m ≤ programmed faults k n ↔ ∀ j < m, (faults (k + j)).raised = false := by
  induction n generalizing k m with
  | zero => simp [Nat.le_zero.mp hm, programmed]
  | succ n ih =>
    cases m with
    | zero => simp
    | succ m =>
      rw [programmed, Nat.forall_lt_succ_left, Nat.add_zero k]
      by_cases hk : (faults k).raised = true
      · rw [if_pos hk]
        exact iff_of_false (by omega) fun h => by simp [h.1] at hk
      · have hclean : (faults k).raised = false := by simpa using hk
        rw [if_neg hk, Nat.add_le_add_iff_right, ih (k + 1) (by omega), and_iff_right hclean]
        simp only [Nat.add_assoc, Nat.add_comm 1]

theorem programmed_eq_iff (faults : ℕ → Fault) (k n : ℕ) :
    programmed faults k n = n ↔ ∀ j < n, (faults (k + j)).raised = false := by
  rw [← le_programmed_iff faults k le_rfl]
  exact ⟨fun h => h.ge, fun h => le_antisymm (programmed_le faults k n) h⟩

theorem storeHalfword_programming {h : FlashHw} (hp : Programming h) (dst : ℕ) (lo hi : UInt8) :
    let h' := flashWait (h.storeHalfword dst lo hi)
    h'.log = h.log ++ [.store dst lo hi] ∧ h'.faults = h.faults ∧ h'.ops = h.ops + 1 ∧
      h'.failed = (h.faults h.ops).raised ∧ h'.cr = h.cr ∧
      h'.mem = if (h.faults h.ops).raised then h.mem
        else overwrite h.mem dst 2 fun i => if i = 0 then lo else hi := by
  obtain ⟨hl, he, hc⟩ := hp
  simp only [failed, Bool.or_eq_false_iff] at hc
  simp only [flashWait, storeHalfword, record, hl, he, Bool.not_true, Bool.or_self,
    Bool.false_eq_true, if_false, begin, failed, hc.1, hc.2, Bool.false_or, Fault.raised]
  exact ⟨trivial, trivial, trivial, trivial, trivial, rfl⟩

/-- The byte `flash_write` takes from index `i`: the erased value past the end of the data. -/
def padded (data : ℕ → UInt8) (len i : ℕ) : UInt8 := if i < len then data i else 0xFF

def halfwordStores (data : ℕ → UInt8) (len i dst count : ℕ) : List FlashEvent :=
  (List.range count).map fun k =>
    .store (dst + 2 * k) (data (i + 2 * k)) (padded data len (i + 2 * k + 1))

theorem halfwordStores_succ (data : ℕ → UInt8) (len i dst count : ℕ) :
    halfwordStores data len i dst (count + 1) =
      .store dst (data i) (padded data len (i + 1)) ::
        halfwordStores data len (i + 2) (dst + 2) count := by
  unfold halfwordStores
  rw [List.range_succ_eq_map, List.map_cons, List.map_map]
  simp only [Nat.mul_zero, Nat.add_zero]
  congr 2
  funext k
  have hdst : dst + 2 + 2 * k = dst + 2 * (k + 1) := by omega
  have hidx : i + 2 + 2 * k = i + 2 * (k + 1) := by omega
  simp only [Function.comp_apply, hdst, hidx, Nat.succ_eq_add_one]

theorem overwrite_padded_succ (mem : ℕ → UInt8) (data : ℕ → UInt8) {len i : ℕ} (hi : i < len)
    (dst m : ℕ) :
    overwrite
        (overwrite mem dst 2 fun j => if j = 0 then data i else padded data len (i + 1))
        (dst + 2) (2 * m) (fun j => padded data len (i + 2 + j)) =
      overwrite mem dst (2 * (m + 1)) fun j => padded data len (i + j) := by
  have hword : overwrite mem dst 2 (fun j => if j = 0 then data i
      else padded data len (i + 1)) = overwrite mem dst 2 fun j => padded data len (i + j) := by
    apply overwrite_congr
    intro j hj
    rcases Nat.lt_or_ge j 1 with h0 | h1
    · simp [show j = 0 by omega, padded, hi]
    · simp [show j = 1 by omega]
  have htail : (fun j => padded data len (i + 2 + j)) =
      fun j => (fun j => padded data len (i + j)) (2 + j) := by
    funext j
    simp only [Nat.add_assoc]
  rw [hword, htail, overwrite_overwrite]
  congr 1
  omega

/-- The half-word loop as a whole. It stores up to and including the first half-word that faults,
and the array keeps the half-words before it. -/
theorem flashWriteLoop_spec (data : ℕ → UInt8) (len n i dst : ℕ) (h : FlashHw)
    (hp : Programming h) (hn : n = (len - i + 1) / 2) :
    (flashWriteLoop data len n i dst h).1.log = h.log ++
      halfwordStores data len i dst (min n (programmed h.faults h.ops n + 1)) ∧
    (flashWriteLoop data len n i dst h).1.mem =
      overwrite h.mem dst (2 * programmed h.faults h.ops n) (fun j => padded data len (i + j)) ∧
    (flashWriteLoop data len n i dst h).1.faults = h.faults ∧
    ((flashWriteLoop data len n i dst h).2 = 0 ↔ programmed h.faults h.ops n = n) := by
  induction n generalizing i dst h with
  | zero => simp [flashWriteLoop, programmed, halfwordStores, flashLock, modifyCr, hp.unlocked]
  | succ n ih =>
    have hi : i < len := by omega
    have hhi : (if i + 1 < len then data (i + 1) else 0xFF) = padded data len (i + 1) := rfl
    obtain ⟨hlog, hfaults, hops, hfailed, hcr, hmem⟩ :=
      storeHalfword_programming hp dst (data i) (padded data len (i + 1))
    rw [flashWriteLoop, hhi]
    generalize flashWait (h.storeHalfword dst (data i) (padded data len (i + 1))) = h' at *
    simp only [hfailed]
    by_cases hraised : (h.faults h.ops).raised = true
    · have hprog : programmed h.faults h.ops (n + 1) = 0 := by rw [programmed, if_pos hraised]
      rw [if_pos hraised] at hmem
      simp [hraised, hprog, flashLock, modifyCr, hcr, hp.unlocked, hlog, hmem, hfaults,
        halfwordStores]
    · have hp' : Programming h' := by
        refine ⟨hcr ▸ hp.unlocked, hcr ▸ hp.enabled, ?_⟩
        rw [hfailed]
        simpa using hraised
      have hprog : programmed h.faults h.ops (n + 1) = programmed h.faults (h.ops + 1) n + 1 := by
        rw [programmed, if_neg hraised]
      have hih := ih (i + 2) (dst + 2) h' hp' (by omega)
      rw [hfaults, hops] at hih
      obtain ⟨hl, hm, hf, hr⟩ := hih
      rw [if_neg hraised] at hmem
      rw [if_neg hraised, hprog]
      refine ⟨?_, ?_, hf, ?_⟩
      · rw [hl, hlog, Nat.add_min_add_right, halfwordStores_succ, List.append_assoc,
          List.singleton_append]
      · rw [hm, hmem, overwrite_padded_succ _ _ hi]
      · rw [hr]
        omega

def InRegion (a n : ℕ) : Prop := appFlashStart.toNat ≤ a ∧ a + n ≤ appFlashEnd.toNat + 1

instance (a n : ℕ) : Decidable (InRegion a n) := inferInstanceAs (Decidable (_ ∧ _))

/-- Checking the first and the last byte is checking the whole interval: the wrapping sum in
`flash_write` cannot come back into the region. -/
theorem inRegion_iff (a : UInt32) {len : ℕ} (hpos : 0 < len) (hlen : len < 2 ^ 31) :
    InRegion a.toNat len ↔ flashIsAddressValid a = true ∧
      flashIsAddressValid (a + UInt32.ofNat len - 1) = true := by
  have ha := a.toNat_lt
  have hlast : (a + UInt32.ofNat len - 1).toNat = (a.toNat + len - 1) % 2 ^ 32 := by
    rw [UInt32.toNat_sub, UInt32.toNat_add, UInt32.toNat_ofNat']
    simp only [UInt32.toNat_one]
    omega
  rw [flashIsAddressValid_iff, flashIsAddressValid_iff, hlast]
  simp only [InRegion, toNat_appFlashStart, toNat_appFlashEnd]
  omega

theorem flashWrite_of_not_inRegion {a : UInt32} {len : ℕ} (data : ℕ → UInt8) (h : FlashHw)
    (hpos : 0 < len) (hlen : len < 2 ^ 31) (hr : ¬ InRegion a.toNat len) :
    flashWrite a data len h = (h.record (.writeCall a (toList data len)), -1) := by
  rw [inRegion_iff a hpos hlen, not_and_or, Bool.not_eq_true, Bool.not_eq_true] at hr
  unfold flashWrite
  rw [if_neg (by omega)]
  rcases hr with hfirst | hlast
  · rw [hfirst]
    rfl
  · rw [hlast]
    cases flashIsAddressValid a <;> rfl

/-- A write into the region as a whole. -/
theorem flashWrite_of_inRegion {a : UInt32} {len : ℕ} (data : ℕ → UInt8) (h : FlashHw)
    (hpos : 0 < len) (hlen : len < 2 ^ 31) (hr : InRegion a.toNat len) :
    (flashWrite a data len h).1.log = h.log ++ .writeCall a (toList data len) ::
      halfwordStores data len 0 a.toNat
        (min ((len + 1) / 2) (programmed h.faults h.ops ((len + 1) / 2) + 1)) ∧
    (flashWrite a data len h).1.mem =
      overwrite h.mem a.toNat (2 * programmed h.faults h.ops ((len + 1) / 2)) (padded data len) ∧
    (flashWrite a data len h).1.faults = h.faults ∧
    ((flashWrite a data len h).2 = 0 ↔ ∀ k < (len + 1) / 2, (h.faults (h.ops + k)).raised = false) := by
  obtain ⟨hfirst, hlast⟩ := (inRegion_iff a hpos hlen).mp hr
  obtain ⟨keyed, hu⟩ := flashUnlock_eq (h.record (.writeCall a (toList data len)))
  have hdef : flashWrite a data len h = flashWriteLoop data len ((len + 1) / 2) 0 a.toNat
      (((flashWait (flashUnlock (h.record (.writeCall a (toList data len))))).clearErrors).modifyCr
        fun cr => { cr with pg := true }) := by
    unfold flashWrite
    rw [if_neg (by omega), hfirst, hlast]
    rfl
  rw [hdef, hu]
  obtain ⟨hl, hm, hf, hrc⟩ := flashWriteLoop_spec data len ((len + 1) / 2) 0 a.toNat
    { mem := h.mem, cr := { h.cr with pg := true, lock := false }, sr := ⟨false, false, false, false⟩,
      ar := h.ar, keyed := keyed, faults := h.faults, ops := h.ops,
      log := h.log ++ [.writeCall a (toList data len)] } ⟨rfl, rfl, rfl⟩ (by omega)
  rw [programmed_eq_iff] at hrc
  refine ⟨hl.trans (by simp), hm.trans ?_, hf, hrc⟩
  congr 1
  funext j
  rw [Nat.zero_add]

theorem flashWrite_readback {a : UInt32} {len : ℕ} (data : ℕ → UInt8) (h : FlashHw) (hpos : 0 < len)
    (hlen : len < 2 ^ 31) (hrc : (flashWrite a data len h).2 = 0) : InRegion a.toNat len ∧
      toList (fun i => (flashWrite a data len h).1.mem (a.toNat + i)) len = toList data len := by
  by_cases hr : InRegion a.toNat len
  swap
  · rw [flashWrite_of_not_inRegion data h hpos hlen hr] at hrc
    exact absurd hrc (by decide : (-1 : ℤ) ≠ 0)
  obtain ⟨-, hmem, -, hiff⟩ := flashWrite_of_inRegion data h hpos hlen hr
  have hall : programmed h.faults h.ops ((len + 1) / 2) = (len + 1) / 2 :=
    (programmed_eq_iff _ _ _).mpr (hiff.mp hrc)
  refine ⟨hr, ?_⟩
  apply toList_congr
  intro i hi
  rw [hmem, hall, overwrite_of_mem (by omega) (by omega), Nat.add_sub_cancel_left]
  exact if_pos hi

end NovaBootloader
