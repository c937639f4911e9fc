import NovaBootloader.Protection
import NovaBootloader.Twins

/-!
# The flash as its log tells it

The log says what the hardware was asked for. Replaying it, each operation with the fault the
hardware reports for it, gives the flash: nothing else changes it. A power cut leaves a beginning of
the log, so what holds of every beginning holds however far an operation has come.
-/

namespace NovaBootloader
open ByteMemory FlashHw

/-- The flash array, and how many operations the hardware has begun. -/
structure FlashArray where
  mem : ℕ → UInt8
  ops : ℕ

def FlashHw.array (h : FlashHw) : FlashArray := ⟨h.mem, h.ops⟩

namespace FlashArray

/-- One operation on `n` bytes from `a` on; with a fault it changes nothing. -/
def operate (faults : ℕ → Fault) (x : FlashArray) (a n : ℕ) (data : ℕ → UInt8) : FlashArray :=
  ⟨if (faults x.ops).raised then x.mem else overwrite x.mem a n data, x.ops + 1⟩

def apply (faults : ℕ → Fault) (x : FlashArray) : FlashEvent → FlashArray
  | .pageErase page => x.operate faults page flashPageSize.toNat fun _ => 0xFF
  | .store dst lo hi => x.operate faults dst 2 fun i => if i = 0 then lo else hi
  | _ => x

def replay (faults : ℕ → Fault) (x : FlashArray) (log : List FlashEvent) : FlashArray :=
  log.foldl (apply faults) x

@[simp] theorem replay_nil (faults : ℕ → Fault) (x : FlashArray) : x.replay faults [] = x := rfl

@[simp] theorem replay_cons (faults : ℕ → Fault) (x : FlashArray) (ev : FlashEvent)
    (log : List FlashEvent) : x.replay faults (ev :: log) = (x.apply faults ev).replay faults log :=
  rfl

theorem replay_append (faults : ℕ → Fault) (x : FlashArray) (log log' : List FlashEvent) :
    x.replay faults (log ++ log') = (x.replay faults log).replay faults log' :=
  List.foldl_append

variable {faults : ℕ → Fault}

theorem operate_of_not_mem (x : FlashArray) {a n y : ℕ} (data : ℕ → UInt8)
    (h : ¬ (a ≤ y ∧ y < a + n)) : (x.operate faults a n data).mem y = x.mem y := by
  unfold operate
  dsimp only
  split_ifs
  · rfl
  · exact overwrite_of_not_mem h

theorem apply_of_not_touches (x : FlashArray) {ev : FlashEvent} {y : ℕ} (h : ¬ ev.Touches y) :
    (x.apply faults ev).mem y = x.mem y := by
  cases ev with
  | eraseCall a => rfl
  | writeCall a bytes => rfl
  | pageErase page => exact x.operate_of_not_mem _ h
  | store dst lo hi =>
    apply x.operate_of_not_mem
    rintro ⟨hlo, hhi⟩
    exact h ((by omega : y = dst ∨ y = dst + 1))

theorem replay_of_not_touches (x : FlashArray) {log : List FlashEvent} {y : ℕ}
    (h : ∀ ev ∈ log, ¬ ev.Touches y) : (x.replay faults log).mem y = x.mem y := by
  induction log generalizing x with
  | nil => rfl
  | cons ev log ih =>
    rw [replay_cons, ih _ fun ev' hev => h ev' (List.mem_cons_of_mem _ hev)]
    exact x.apply_of_not_touches (h ev List.mem_cons_self)

theorem replay_take_invariant {P : (ℕ → UInt8) → Prop} {log : List FlashEvent}
    (hlog : ∀ ev ∈ log, ∀ x : FlashArray, P x.mem → P (x.apply faults ev).mem) {x : FlashArray}
    (hx : P x.mem) (k : ℕ) : P (x.replay faults (log.take k)).mem := by
  induction log generalizing x k with
  | nil =>
    rw [List.take_nil]
    exact hx
  | cons ev log ih =>
    cases k with
    | zero => exact hx
    | succ k =>
      rw [List.take_succ_cons, replay_cons]
      exact ih (fun ev' h => hlog ev' (List.mem_cons_of_mem _ h))
        (hlog ev List.mem_cons_self x hx) k

/-- The half-word stores of a write, up to its first fault. -/
theorem replay_halfwordStores (data : ℕ → UInt8) {len i : ℕ} (dst n : ℕ) (x : FlashArray)
    (hn : n = (len - i + 1) / 2) :
    x.replay faults (halfwordStores data len i dst (min n (programmed faults x.ops n + 1))) =
      ⟨overwrite x.mem dst (2 * programmed faults x.ops n) fun j => padded data len (i + j),
        x.ops + min n (programmed faults x.ops n + 1)⟩ := by
  induction n generalizing i dst x with
  | zero =>
    rw [programmed, Nat.mul_zero, overwrite_zero, Nat.zero_min, Nat.add_zero]
    rfl
  | succ n ih =>
    have hi : i < len := by omega
    rw [programmed]
    by_cases hraised : (faults x.ops).raised = true
    · rw [if_pos hraised, Nat.zero_add, Nat.mul_zero, overwrite_zero,
        Nat.min_eq_right (Nat.le_add_left 1 n), halfwordStores_succ, replay_cons, apply, operate,
        if_pos hraised]
      rfl
    · rw [if_neg hraised, Nat.add_min_add_right, halfwordStores_succ, replay_cons, apply, operate,
        if_neg hraised]
      have hrest := ih (dst + 2) ⟨overwrite x.mem dst 2 fun j =>
        if j = 0 then data i else padded data len (i + 1), x.ops + 1⟩
        (by omega : _ = (len - (i + 2) + 1) / 2)
      dsimp only at hrest
      rw [hrest, overwrite_padded_succ x.mem data hi]
      congr 1
      omega

end FlashArray

open FlashArray

theorem flashErasePage_array (a : UInt32) (h : FlashHw) :
    (flashErasePage a h).1.array = h.array.replay h.faults (eraseLog a) ∧
      (flashErasePage a h).1.faults = h.faults := by
  have hops := flashErasePage_ops a h
  unfold eraseLog
  cases ha : flashIsAddressValid a with
  | false =>
    rw [flashErasePage_of_invalid h ha]
    exact ⟨rfl, rfl⟩
  | true =>
    obtain ⟨-, hmem, hfaults, -⟩ := flashErasePage_of_valid h ha
    rw [ha, if_pos rfl] at hops
    refine ⟨?_, hfaults⟩
    rw [FlashHw.array, hmem, hops]
    rfl

theorem flashWrite_array (a : UInt32) (data : ℕ → UInt8) {len : ℕ} (h : FlashHw) (hpos : 0 < len)
    (hlen : len < 2 ^ 31) :
    (flashWrite a data len h).1.array = h.array.replay h.faults (writeLog a data len h) ∧
      (flashWrite a data len h).1.faults = h.faults := by
  have hops := flashWrite_ops (a := a) data h hpos hlen
  unfold writeLog
  by_cases hr : InRegion a.toNat len
  · obtain ⟨-, hmem, hfaults, -⟩ := flashWrite_of_inRegion data h hpos hlen hr
    rw [if_pos hr] at hops
    refine ⟨?_, hfaults⟩
    rw [if_pos hr, FlashHw.array, hmem, hops, replay_cons]
    refine Eq.trans ?_ (replay_halfwordStores data a.toNat ((len + 1) / 2) h.array
      (by omega : (len + 1) / 2 = (len - 0 + 1) / 2)).symm
    simp only [Nat.zero_add]
    rfl
  · rw [if_neg hr, flashWrite_of_not_inRegion data h hpos hlen hr]
    exact ⟨rfl, rfl⟩

/-- An attempt leaves the flash alone, erases one page, or writes the buffer. -/
theorem executePending_flash {c : Core} (hlen : c.dfu.bufferLen ≤ dfuXferSize) :
    (executePending c).flash = c.flash ∧ attemptLog c = [] ∨
      (∃ a, (executePending c).flash = (flashErasePage a c.flash).1 ∧ attemptLog c = eraseLog a) ∨
      0 < c.dfu.bufferLen ∧
        (executePending c).flash =
          (flashWrite c.dfu.address c.dfu.buffer c.dfu.bufferLen c.flash).1 ∧
        attemptLog c = writeLog c.dfu.address c.dfu.buffer c.dfu.bufferLen c.flash := by
  have hlt : c.dfu.bufferLen < 2 ^ 31 := lt_of_le_of_lt hlen (by decide)
  have hlog := executePending_log hlen
  have heff := executePending_effect c
  generalize executePending c = c' at heff hlog
  have hnone (hflash : c'.flash = c.flash) : attemptLog c = [] := by
    rw [hflash] at hlog
    exact List.self_eq_append_right.mp hlog
  have herase (hflash : c'.flash = (flashErasePage c.dfu.cmdArg c.flash).1) :
      attemptLog c = eraseLog c.dfu.cmdArg := by
    rw [hflash, flashErasePage_log] at hlog
    exact (List.append_cancel_left hlog).symm
  have hwrite (hpos : 0 < c.dfu.bufferLen)
      (hflash : c'.flash = (flashWrite c.dfu.address c.dfu.buffer c.dfu.bufferLen c.flash).1) :
      attemptLog c = writeLog c.dfu.address c.dfu.buffer c.dfu.bufferLen c.flash := by
    rw [hflash, flashWrite_log _ _ _ hpos hlt] at hlog
    exact (List.append_cancel_left hlog).symm
  cases heff with
  | setAddress => exact Or.inl ⟨rfl, hnone rfl⟩
  | erase => exact Or.inr (Or.inl ⟨_, rfl, herase rfl⟩)
  | eraseFailed => exact Or.inr (Or.inl ⟨_, rfl, herase rfl⟩)
  | refuse => exact Or.inl ⟨rfl, hnone rfl⟩
  | write hcmd hpos => exact Or.inr (Or.inr ⟨hpos, rfl, hwrite hpos rfl⟩)
  | writeFailed hcmd hpos => exact Or.inr (Or.inr ⟨hpos, rfl, hwrite hpos rfl⟩)
  | empty => exact Or.inl ⟨rfl, hnone rfl⟩

theorem executePending_array {c : Core} (hlen : c.dfu.bufferLen ≤ dfuXferSize) :
    (executePending c).flash.array = c.flash.array.replay c.flash.faults (attemptLog c) ∧
      (executePending c).flash.faults = c.flash.faults := by
  have hlt : c.dfu.bufferLen < 2 ^ 31 := lt_of_le_of_lt hlen (by decide)
  rcases executePending_flash hlen with ⟨hflash, hlog⟩ | ⟨a, hflash, hlog⟩ | ⟨hpos, hflash, hlog⟩
  · rw [hflash, hlog]
    exact ⟨rfl, rfl⟩
  · rw [hflash, hlog]
    exact flashErasePage_array a c.flash
  · rw [hflash, hlog]
    exact flashWrite_array _ _ _ hpos hlt

theorem coreStep_array {c : Core} (hc : c.dfu.Consistent) (e : UsbEvent) :
    (coreStep c e).flash.array = c.flash.array.replay c.flash.faults (eventLog c e) ∧
      (coreStep c e).flash.faults = c.flash.faults := by
  unfold eventLog
  split_ifs with h
  · rw [coreStep_of_executes h]
    exact executePending_array hc.bufferLen_le
  · rw [coreStep_flash h]
    exact ⟨rfl, rfl⟩

namespace Machine

def StableUnder (faults : ℕ → Fault) (s : Machine) : Prop :=
  s.Stable ∧ s.core.flash.faults = faults

theorem StableUnder.step {faults : ℕ → Fault} {s : Machine} (h : s.StableUnder faults)
    (e : UsbEvent) : (s.step e).StableUnder faults := by
  refine ⟨h.1.step e, ?_⟩
  rw [step_core h.1.quiet, (coreStep_array h.1.consistent e).2]
  exact h.2

theorem run_array (mem : ℕ → UInt8) (faults : ℕ → Fault) (es : List UsbEvent) :
    ((start mem faults).run es).core.flash.array =
      (FlashArray.mk mem 0).replay faults ((start mem faults).run es).core.flash.log := by
  refine StepSystem.log_replay (fun s : Machine => s.core.flash.log)
    (fun s : Machine => s.core.flash.array) (FlashArray.apply faults) ⟨mem, 0⟩
    (StableUnder faults) (fun s e => eventLog s.core e) (fun _ e h => h.step e)
    (fun _ e h => h.1.step_log e) (fun s e h => ?_) ⟨start_stable mem faults, rfl⟩ rfl es
  rw [step_core h.1.quiet, (coreStep_array h.1.consistent e).1, h.2]
  rfl

/-- In every run, under any hardware errors, the flash is what its log makes of it. However far the
log has come, also in the middle of an operation of the bootloader, no byte below the application
region and none above the first byte of the settings page is other than it was at the start. -/
theorem flash_is_replay (mem : ℕ → UInt8) (faults : ℕ → Fault) (es : List UsbEvent) :
    let h := ((start mem faults).run es).core.flash
    h.array = (FlashArray.mk mem 0).replay faults h.log ∧
      ∀ k x, x < 0x08003000 ∨ 0x0803F800 < x →
        ((FlashArray.mk mem 0).replay faults (h.log.take k)).mem x = mem x := by
  intro h
  refine ⟨run_array mem faults es, fun k x hx => replay_of_not_touches _ fun ev hev htouch => ?_⟩
  have hlog := (run_log_forall_iff (fun ev => ∀ x, ev.Touches x →
    0x08003000 ≤ x ∧ x ≤ 0x0803F800) mem faults es).mpr ?_
  · have hin := hlog ev (List.mem_of_mem_take hev) x htouch
    omega
  · refine StepSystem.along_of_run_invariant Stable (fun _ e h => h.step e)
      (fun s e _ ev hev x hx => ?_) (start_stable mem faults) es
    unfold eventLog at hev
    split_ifs at hev
    · exact attemptLog_touches hev hx
    · exact absurd hev List.not_mem_nil

end Machine

end NovaBootloader
