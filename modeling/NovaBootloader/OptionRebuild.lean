import NovaBootloader.IdleController

/-!
# What `flash_disable_write_protection` leaves in the option bytes

The function is a sequence of accesses to the controller and to the option block, and power can be
lost after any of them. Only two kinds of access change the block: the erase, and the program of one
half-word. The block is a map written key by key, each key once, with writes that may fail, so what
a key holds at the end depends on its own write alone. Whatever fails, read protection is never
lifted; but the read-back at the end looks at bytes that an erased block shows as well.
-/

namespace PartialWrites

variable {κ α : Type*} [DecidableEq κ] (takes : ℕ → Bool)

/-- The map `m` after the writes of a list, the first of which is the `n`-th of all. -/
def attempt : ℕ → List (κ × α) → (κ → α) → (κ → α)
  | _, [], m => m
  | n, (key, value) :: writes, m =>
    attempt (n + 1) writes (if takes n then Function.update m key value else m)

@[simp] theorem attempt_nil (n : ℕ) (m : κ → α) : attempt takes n [] m = m := rfl

variable {takes} {writes : List (κ × α)} {key : κ}

theorem attempt_of_not_mem (h : key ∉ writes.map Prod.fst) (n : ℕ) (m : κ → α) :
    attempt takes n writes m key = m key := by
  induction writes generalizing n m with
  | nil => rfl
  | cons write writes ih =>
    obtain ⟨hne, hrest⟩ := not_or.mp (mt List.mem_cons.mpr h)
    obtain ⟨key', value⟩ := write
    rw [attempt, ih hrest]
    split_ifs
    · exact Function.update_of_ne hne _ _
    · rfl

theorem attempt_of_getElem? (hkeys : (writes.map Prod.fst).Nodup) {i : ℕ} {value : α}
    (hi : writes[i]? = some (key, value)) (n : ℕ) (m : κ → α) :
    attempt takes n writes m key = if takes (n + i) then value else m key := by
  induction writes generalizing i n m with
  | nil => exact absurd hi (by simp)
  | cons write writes ih =>
    obtain ⟨key', value'⟩ := write
    rw [List.map_cons, List.nodup_cons] at hkeys
    rw [attempt]
    cases i with
    | zero =>
      obtain ⟨rfl, rfl⟩ : key' = key ∧ value' = value := by simpa using hi
      rw [attempt_of_not_mem hkeys.1, Nat.add_zero]
      split_ifs
      · exact Function.update_self _ _ _
      · rfl
    | succ i =>
      have hi' : writes[i]? = some (key, value) := by simpa using hi
      have hmem : key ∈ writes.map Prod.fst :=
        List.mem_map_of_mem (f := Prod.fst) (List.mem_of_getElem? hi')
      have hne : key ≠ key' := fun h => hkeys.1 (h ▸ hmem)
      have hkeep : (if takes n then Function.update m key' value' else m) key = m key := by
        split_ifs
        · exact Function.update_of_ne hne _ _
        · rfl
      rw [ih hkeys.2 hi', hkeep, Nat.add_assoc, Nat.add_comm 1 i]

end PartialWrites

namespace NovaBootloader
open FlashHw PartialWrites

inductive OptionAccess where
  | unlock
  | wait
  | optkeyr (key : UInt32)
  | clearErrors
  | opter (on : Bool)
  | start
  | optpg (on : Bool)
  | program (ob : OptionByte) (value : UInt16)
  | lock

def OptionAccess.apply (w : OptionHw) : OptionAccess → OptionHw
  | unlock => w.onFlash flashUnlock
  | wait => w.wait
  | optkeyr key => w.writeOptkeyr key
  | clearErrors => w.onFlash FlashHw.clearErrors
  | opter on => w.modifyCr fun cr => { cr with opter := on }
  | start => w.start
  | optpg on => w.modifyCr fun cr => { cr with optpg := on }
  | program ob value => w.program ob value
  | lock => w.onFlash flashLock

/-- The values the function programs after the erase, in order. -/
def rebuiltBytes (bytes : OptionBytes) : List (OptionByte × UInt16) :=
  (if obValue (bytes .rdp) = obRdpUnlock then [(.rdp, obRdpUnlock)] else []) ++
    [(.user, obValue (bytes .user)), (.data0, obValue (bytes .data0)),
      (.data1, obValue (bytes .data1)), (.wrp0, obWrpNone), (.wrp1, obWrpNone),
      (.wrp2, obWrpNone), (.wrp3, obWrpNone)]

/-- The accesses up to the first half-word. -/
def eraseAccesses : List OptionAccess :=
  [.unlock, .wait, .optkeyr flashKey1, .optkeyr flashKey2, .clearErrors, .opter true, .start, .wait,
    .opter false, .optpg true]

def programAccesses (writes : List (OptionByte × UInt16)) : List OptionAccess :=
  writes.flatMap fun r => [.program r.1 r.2, .wait]

/-- The accesses of `flash_disable_write_protection` to a block that reads `bytes`, in order. -/
def protectionAccesses (bytes : OptionBytes) : List OptionAccess :=
  if wrpIsClear bytes then []
  else eraseAccesses ++ programAccesses (rebuiltBytes bytes) ++ [.optpg false, .lock]

namespace OptionHw

abbrev access : OptionHw → List OptionAccess → OptionHw := StepSystem.run OptionAccess.apply

theorem access_protectionAccesses (w : OptionHw) :
    w.access (protectionAccesses w.bytes) = (flashDisableWriteProtection w).1 := by
  unfold protectionAccesses flashDisableWriteProtection
  by_cases hclear : wrpIsClear w.bytes = true
  · rw [if_pos hclear, if_pos hclear]
    rfl
  rw [if_neg hclear, if_neg hclear]
  unfold rebuiltBytes rebuildOptionBytes
  dsimp only
  by_cases hrdp : obValue (w.bytes .rdp) = obRdpUnlock
  · rw [if_pos hrdp, if_pos hrdp]
    rfl
  · rw [if_neg hrdp, if_neg hrdp]
    rfl

end OptionHw

theorem obValue_obStored (value : UInt16) : obValue (obStored value) = obValue value := by
  have hmask : ∀ i < 16, (255#16).getLsbD i = decide (i < 8) := by decide
  unfold obStored obValue
  apply UInt16.toBitVec_inj.mp
  apply BitVec.eq_of_getLsbD_eq
  intro i hi
  by_cases h8 : i < 8
  · simp [hmask i hi, h8]
  · simp [hmask i hi, h8]

section Unlocking

variable {w : OptionHw}

@[simp] theorem OptionHw.writeOptkeyr_bytes (w : OptionHw) (key : UInt32) :
    (w.writeOptkeyr key).bytes = w.bytes := by
  unfold OptionHw.writeOptkeyr
  split_ifs <;> rfl

@[simp] theorem OptionHw.commit_bytes (w : OptionHw) (bytes : OptionBytes) :
    (w.commit bytes).bytes = if w.takes w.writes then bytes else w.bytes := rfl

/-- No access writes the unlock code to RDP unless it programs it. -/
theorem OptionAccess.apply_rdp {a : OptionAccess} (ha : ∀ value, a ≠ .program .rdp value)
    (hw : obValue (w.bytes .rdp) ≠ obRdpUnlock) :
    obValue ((a.apply w).bytes .rdp) ≠ obRdpUnlock := by
  have herased : obValue 0xFFFF ≠ obRdpUnlock := by decide
  cases a with
  | start =>
    change obValue (w.start.bytes .rdp) ≠ obRdpUnlock
    unfold OptionHw.start
    split_ifs
    · exact hw
    · rw [OptionHw.commit_bytes]
      split_ifs
      · exact herased
      · exact hw
  | program ob value =>
    have hob : OptionByte.rdp ≠ ob := fun h => ha value (h ▸ rfl)
    change obValue ((w.program ob value).bytes .rdp) ≠ obRdpUnlock
    unfold OptionHw.program
    split_ifs
    · exact hw
    · rw [OptionHw.commit_bytes]
      split_ifs
      · rw [Function.update_of_ne hob]
        exact hw
      · exact hw
  | optkeyr key =>
    change obValue ((w.writeOptkeyr key).bytes .rdp) ≠ obRdpUnlock
    rw [OptionHw.writeOptkeyr_bytes]
    exact hw
  | _ => exact hw

theorem not_mem_protectionAccesses {bytes : OptionBytes} (hrdp : obValue (bytes .rdp) ≠ obRdpUnlock)
    (value : UInt16) : OptionAccess.program .rdp value ∉ protectionAccesses bytes := by
  unfold protectionAccesses rebuiltBytes eraseAccesses programAccesses
  rw [if_neg hrdp]
  split_ifs <;> simp

/-- No prefix of the accesses lifts read protection. -/
theorem OptionHw.access_take_rdp (hrdp : obValue (w.bytes .rdp) ≠ obRdpUnlock) (k : ℕ) :
    obValue ((w.access ((protectionAccesses w.bytes).take k)).bytes .rdp) ≠ obRdpUnlock := by
  apply StepSystem.run_invariant_of_mem fun w : OptionHw => obValue (w.bytes .rdp) ≠ obRdpUnlock
  · intro w' a ha
    refine OptionAccess.apply_rdp fun value h => ?_
    exact not_mem_protectionAccesses hrdp value (h ▸ List.mem_of_mem_take ha)
  · exact hrdp

end Unlocking

section Rebuild

variable {w : OptionHw}

namespace OptionHw

/-- The controller takes half-words for the option block. -/
structure Programmable (w : OptionHw) : Prop where
  unlocked : w.flash.cr.lock = false
  optpg : w.flash.cr.optpg = true
  optwre : w.optwre = true

theorem access_eraseAccesses (w : OptionHw) : (w.access eraseAccesses).Programmable ∧
    (w.access eraseAccesses).takes = w.takes ∧
    (w.access eraseAccesses).writes = w.writes + 1 ∧
    (w.access eraseAccesses).bytes = if w.takes w.writes then fun _ => 0xFFFF else w.bytes := by
  obtain ⟨keyed, hu⟩ := flashUnlock_eq w.flash
  have hunlock : w.onFlash flashUnlock = { w with flash :=
      { w.flash with cr := { w.flash.cr with lock := false }, keyed := keyed } } :=
    congrArg (fun h => { w with flash := h }) hu
  have hstart : w.access eraseAccesses = (w.onFlash flashUnlock).access eraseAccesses.tail := rfl
  rw [hstart, hunlock]
  exact ⟨⟨rfl, rfl, rfl⟩, rfl, rfl, rfl⟩

theorem program_of_programmable (h : w.Programmable) (ob : OptionByte) (value : UInt16) :
    w.program ob value = w.commit (Function.update w.bytes ob (obStored value)) := by
  unfold program
  rw [h.unlocked, h.optpg, h.optwre]
  rfl

theorem access_programAccesses (h : w.Programmable) (writes : List (OptionByte × UInt16)) :
    (w.access (programAccesses writes)).bytes =
      attempt w.takes w.writes (writes.map fun r => (r.1, obStored r.2)) w.bytes := by
  induction writes generalizing w with
  | nil => rfl
  | cons r writes ih =>
    have hnext : ((w.program r.1 r.2).wait).Programmable := by
      rw [program_of_programmable h]
      exact ⟨h.unlocked, h.optpg, h.optwre⟩
    change (OptionHw.access (w.program r.1 r.2).wait (programAccesses writes)).bytes = _
    rw [ih hnext, program_of_programmable h]
    rfl

end OptionHw

theorem flashDisableWriteProtection_bytes (h : wrpIsClear w.bytes = false) :
    (flashDisableWriteProtection w).1.bytes =
      attempt w.takes (w.writes + 1) ((rebuiltBytes w.bytes).map fun r => (r.1, obStored r.2))
        (if w.takes w.writes then fun _ => 0xFFFF else w.bytes) := by
  obtain ⟨hready, htakes, hwrites, hbytes⟩ := w.access_eraseAccesses
  have hprogram := OptionHw.access_programAccesses hready (rebuiltBytes w.bytes)
  rw [htakes, hwrites, hbytes] at hprogram
  rw [← OptionHw.access_protectionAccesses]
  unfold protectionAccesses
  rw [if_neg (ne_true_of_eq_false h), OptionHw.access, StepSystem.run_append, StepSystem.run_append,
    ← hprogram]
  -- ending the mode and locking do not touch the block
  rfl

theorem rebuiltBytes_nodup (bytes : OptionBytes) : ((rebuiltBytes bytes).map Prod.fst).Nodup := by
  unfold rebuiltBytes
  split_ifs <;> simp

/-- Which of the operations programs `ob`; the erase comes before all of them. -/
def OptionHw.programOp (w : OptionHw) (ob : OptionByte) : ℕ :=
  w.writes + 1 + ((rebuiltBytes w.bytes).map Prod.fst).idxOf ob

theorem rebuilt_value (h : wrpIsClear w.bytes = false) {ob : OptionByte} {value : UInt16}
    (hmem : (ob, value) ∈ rebuiltBytes w.bytes) :
    obValue ((flashDisableWriteProtection w).1.bytes ob) =
      if w.takes (w.programOp ob) then obValue value
      else if w.takes w.writes then 0xFF else obValue (w.bytes ob) := by
  obtain ⟨i, hi⟩ := List.mem_iff_getElem?.mp hmem
  have hkeys : (((rebuiltBytes w.bytes).map fun r => (r.1, obStored r.2)).map Prod.fst) =
      (rebuiltBytes w.bytes).map Prod.fst := by
    rw [List.map_map]
    rfl
  have hnodup := rebuiltBytes_nodup w.bytes
  have hop : w.writes + 1 + i = w.programOp ob := by
    obtain ⟨hlt, hget⟩ := List.getElem?_eq_some_iff.mp hi
    have hidx := hnodup.idxOf_getElem i (by rwa [List.length_map])
    rw [List.getElem_map, hget] at hidx
    unfold OptionHw.programOp
    rw [hidx]
  have hkey : ((rebuiltBytes w.bytes).map fun r => (r.1, obStored r.2))[i]? =
      some (ob, obStored value) := by
    rw [List.getElem?_map, hi]
    rfl
  rw [flashDisableWriteProtection_bytes h, attempt_of_getElem? (hkeys ▸ hnodup) hkey, hop]
  split_ifs
  · exact obValue_obStored value
  · exact (by decide : obValue 0xFFFF = 0xFF)
  · rfl

/-- RDP is left erased where it was not the unlock code. -/
theorem rebuilt_rdp (h : wrpIsClear w.bytes = false)
    (hrdp : obValue (w.bytes .rdp) ≠ obRdpUnlock) :
    obValue ((flashDisableWriteProtection w).1.bytes .rdp) ≠ obRdpUnlock := by
  have herased : obValue 0xFFFF ≠ obRdpUnlock := by decide
  have hnot : OptionByte.rdp ∉ ((rebuiltBytes w.bytes).map fun r => (r.1, obStored r.2)).map
      Prod.fst := by
    unfold rebuiltBytes
    rw [if_neg hrdp]
    simp
  rw [flashDisableWriteProtection_bytes h, attempt_of_not_mem hnot]
  split_ifs
  · exact herased
  · exact hrdp

/-- `after` differs from `before` in write protection at most: RDP is as locked as it was, and the
user bytes are the same. -/
structure OptionBytes.Preserved (before after : OptionBytes) : Prop where
  rdp : obValue (after .rdp) = obRdpUnlock ↔ obValue (before .rdp) = obRdpUnlock
  user : obValue (after .user) = obValue (before .user)
  data0 : obValue (after .data0) = obValue (before .data0)
  data1 : obValue (after .data1) = obValue (before .data1)

/-- Where the erase takes effect, so does the program of every half-word with a value other than
the erased one. -/
def OptionHw.RebuildSticks (w : OptionHw) : Prop :=
  w.takes w.writes = true → ∀ r ∈ rebuiltBytes w.bytes, r.2 ≠ 0xFF → w.takes (w.programOp r.1) = true

instance (w : OptionHw) : Decidable w.RebuildSticks := inferInstanceAs (Decidable (_ → _))

/-- A byte that is put back as it was found keeps its value if the rebuild sticks. -/
theorem rebuilt_kept (h : wrpIsClear w.bytes = false) (hsticks : w.RebuildSticks) {ob : OptionByte}
    (hmem : (ob, obValue (w.bytes ob)) ∈ rebuiltBytes w.bytes) :
    obValue ((flashDisableWriteProtection w).1.bytes ob) = obValue (w.bytes ob) := by
  have hidem : obValue (obValue (w.bytes ob)) = obValue (w.bytes ob) := by
    unfold obValue
    rw [UInt16.and_assoc, UInt16.and_self]
  rw [rebuilt_value h hmem]
  split_ifs with hprogram herase
  · exact hidem
  · by_contra hne
    exact hprogram (hsticks herase _ hmem (Ne.symm hne))
  · rfl

theorem user_mem_rebuiltBytes (bytes : OptionBytes) :
    (.user, obValue (bytes .user)) ∈ rebuiltBytes bytes ∧
      (.data0, obValue (bytes .data0)) ∈ rebuiltBytes bytes ∧
      (.data1, obValue (bytes .data1)) ∈ rebuiltBytes bytes := by
  unfold rebuiltBytes
  simp

theorem rdp_mem_rebuiltBytes {bytes : OptionBytes} (hrdp : obValue (bytes .rdp) = obRdpUnlock) :
    (.rdp, obRdpUnlock) ∈ rebuiltBytes bytes := by
  unfold rebuiltBytes
  rw [if_pos hrdp]
  simp

theorem preserved_of_rebuildSticks (h : wrpIsClear w.bytes = false) (hsticks : w.RebuildSticks) :
    w.bytes.Preserved (flashDisableWriteProtection w).1.bytes := by
  obtain ⟨huser, hdata0, hdata1⟩ := user_mem_rebuiltBytes w.bytes
  refine ⟨?_, rebuilt_kept h hsticks huser, rebuilt_kept h hsticks hdata0,
    rebuilt_kept h hsticks hdata1⟩
  by_cases hrdp : obValue (w.bytes .rdp) = obRdpUnlock
  · have hmem := rdp_mem_rebuiltBytes hrdp
    rw [← hrdp] at hmem
    rw [rebuilt_kept h hsticks hmem]
  · exact iff_of_false (rebuilt_rdp h hrdp) hrdp

/-- Once the block has been erased, no failure sets write protection again. -/
theorem wrpIsClear_of_erased (h : wrpIsClear w.bytes = false) (herase : w.takes w.writes = true) :
    wrpIsClear (flashDisableWriteProtection w).1.bytes = true := by
  have hnone : obValue obWrpNone = 0xFF := by decide
  have hwrp {ob : OptionByte} (hmem : (ob, obWrpNone) ∈ rebuiltBytes w.bytes) :
      obValue ((flashDisableWriteProtection w).1.bytes ob) = 0xFF := by
    rw [rebuilt_value h hmem, if_pos herase, hnone, ite_self]
  have hmem : (.wrp0, obWrpNone) ∈ rebuiltBytes w.bytes ∧
      (.wrp1, obWrpNone) ∈ rebuiltBytes w.bytes ∧ (.wrp2, obWrpNone) ∈ rebuiltBytes w.bytes ∧
      (.wrp3, obWrpNone) ∈ rebuiltBytes w.bytes := by
    unfold rebuiltBytes
    simp
  obtain ⟨h0, h1, h2, h3⟩ := hmem
  exact decide_eq_true ⟨hwrp h0, hwrp h1, hwrp h2, hwrp h3⟩

theorem flashDisableWriteProtection_result (h : wrpIsClear w.bytes = false) :
    (flashDisableWriteProtection w).2 = 1 ↔
      wrpIsClear (flashDisableWriteProtection w).1.bytes = true := by
  unfold flashDisableWriteProtection
  rw [if_neg (ne_true_of_eq_false h)]
  dsimp only
  split_ifs with hclear
  · exact iff_of_true rfl hclear
  · exact iff_of_false zero_ne_one hclear

/-- At no access is read protection lifted. Where every operation takes effect, write protection is
all that changes, and a block without write protection is not accessed at all. -/
theorem only_write_protection_changes (w : OptionHw) :
    w.access (protectionAccesses w.bytes) = (flashDisableWriteProtection w).1 ∧
    (∀ k, obValue ((w.access ((protectionAccesses w.bytes).take k)).bytes .rdp) = obRdpUnlock →
      obValue (w.bytes .rdp) = obRdpUnlock) ∧
    (wrpIsClear w.bytes = false → (∀ k, w.takes (w.writes + k) = true) →
      w.bytes.Preserved (flashDisableWriteProtection w).1.bytes ∧
      wrpIsClear (flashDisableWriteProtection w).1.bytes = true ∧
      (flashDisableWriteProtection w).2 = 1) ∧
    (wrpIsClear w.bytes = true →
      protectionAccesses w.bytes = [] ∧ flashDisableWriteProtection w = (w, 0)) := by
  refine ⟨w.access_protectionAccesses, fun k hk => ?_, fun h hall => ?_, fun h => ?_⟩
  · by_contra hrdp
    exact OptionHw.access_take_rdp hrdp k hk
  · have hsticks : w.RebuildSticks := by
      intro _ r _ _
      unfold OptionHw.programOp
      rw [Nat.add_assoc]
      exact hall _
    have hclear := wrpIsClear_of_erased h (hall 0)
    exact ⟨preserved_of_rebuildSticks h hsticks, hclear,
      (flashDisableWriteProtection_result h).mpr hclear⟩
  · exact ⟨if_pos h, flashDisableWriteProtection_of_clear h⟩

/-- A result of 1 means that the whole configuration is as it should be exactly if nothing that had
to be programmed back after the erase has failed. -/
theorem success_means_preserved_iff (h : wrpIsClear w.bytes = false) :
    ((flashDisableWriteProtection w).2 = 1 →
      wrpIsClear (flashDisableWriteProtection w).1.bytes = true ∧
      w.bytes.Preserved (flashDisableWriteProtection w).1.bytes) ↔ w.RebuildSticks := by
  constructor
  · intro hsuccess herase r hmem hvalue
    by_contra htakes
    have hclear := wrpIsClear_of_erased h herase
    obtain ⟨-, hkept⟩ := hsuccess ((flashDisableWriteProtection_result h).mpr hclear)
    -- the byte reads erased, and that is not the value it should have kept
    have herased : obValue ((flashDisableWriteProtection w).1.bytes r.1) = 0xFF := by
      rw [rebuilt_value h hmem, if_neg htakes, if_pos herase]
    obtain ⟨ob, value⟩ := r
    dsimp only at hvalue herased
    unfold rebuiltBytes at hmem
    simp only [List.mem_append, List.mem_cons, List.not_mem_nil, or_false, List.mem_ite_nil_right,
      Prod.mk.injEq] at hmem
    rcases hmem with ⟨hrdp, rfl, rfl⟩ | ⟨rfl, rfl⟩ | ⟨rfl, rfl⟩ | ⟨rfl, rfl⟩ | hwrp
    · have hset := hkept.rdp.mpr hrdp
      rw [herased] at hset
      exact absurd hset (by decide)
    · exact hvalue (hkept.user.symm.trans herased)
    · exact hvalue (hkept.data0.symm.trans herased)
    · exact hvalue (hkept.data1.symm.trans herased)
    · have hnone : value = obWrpNone := by tauto
      exact hvalue hnone
  · intro hsticks hone
    exact ⟨(flashDisableWriteProtection_result h).mp hone, preserved_of_rebuildSticks h hsticks⟩

end Rebuild

def protectedPage (takes : ℕ → Bool) : OptionHw :=
  OptionHw.powerOn (fun _ => 0xFF) (Function.update
    (Function.update (fun _ => 0x00FF) .rdp 0x5AA5) .wrp0 0x01FE) (fun _ => Fault.none) takes

theorem protected_page_only_lifted : wrpIsClear (protectedPage fun _ => true).bytes = false ∧
    (flashDisableWriteProtection (protectedPage fun _ => true)).2 = 1 := by
  obtain ⟨-, -, hall, -⟩ := only_write_protection_changes (protectedPage fun _ => true)
  exact ⟨by decide, (hall (by decide) fun _ => rfl).2.2⟩

theorem protected_page_preserved_iff :
    ((flashDisableWriteProtection (protectedPage fun _ => true)).2 = 1 →
      wrpIsClear (flashDisableWriteProtection (protectedPage fun _ => true)).1.bytes = true ∧
      (protectedPage fun _ => true).bytes.Preserved
        (flashDisableWriteProtection (protectedPage fun _ => true)).1.bytes) ↔
      (protectedPage fun _ => true).RebuildSticks :=
  success_means_preserved_iff (by decide)

/-- The unlock code does not get back into RDP, and the function reports success. -/
theorem read_protection_switched_on :
    ¬ ((flashDisableWriteProtection (protectedPage fun k => k ≠ 1)).2 = 1 →
      wrpIsClear (flashDisableWriteProtection (protectedPage fun k => k ≠ 1)).1.bytes = true ∧
      (protectedPage fun k => k ≠ 1).bytes.Preserved
        (flashDisableWriteProtection (protectedPage fun k => k ≠ 1)).1.bytes) := by
  intro h
  obtain ⟨-, hkept⟩ := h (by decide +kernel)
  exact absurd (hkept.rdp.mpr (by decide)) (by decide +kernel)

end NovaBootloader
