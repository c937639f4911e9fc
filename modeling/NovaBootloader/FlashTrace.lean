import NovaBootloader.Transition

/-!
# What a run asks of the flash

Every entry of the flash log is added by an attempt, a GETSTATUS in dfuDNBUSY, and `attemptLog` says
which ones. A property of all entries of the log is then a property of all attempts of the run.
-/

namespace NovaBootloader
open ByteMemory FlashHw

def eraseLog (a : UInt32) : List FlashEvent :=
  .eraseCall a :: if flashIsAddressValid a then [.pageErase (pageBase a)] else []

def writeLog (a : UInt32) (data : ℕ → UInt8) (len : ℕ) (h : FlashHw) : List FlashEvent :=
  .writeCall a (toList data len) :: if InRegion a.toNat len then
    halfwordStores data len 0 a.toNat
      (min ((len + 1) / 2) (programmed h.faults h.ops ((len + 1) / 2) + 1)) else []

theorem flashErasePage_log (a : UInt32) (h : FlashHw) :
    (flashErasePage a h).1.log = h.log ++ eraseLog a := by
  unfold eraseLog
  cases ha : flashIsAddressValid a with
  | false =>
    rw [flashErasePage_of_invalid h ha]
    rfl
  | true => exact (flashErasePage_of_valid h ha).1

theorem flashWrite_log (a : UInt32) (data : ℕ → UInt8) {len : ℕ} (h : FlashHw) (hpos : 0 < len)
    (hlen : len < 2 ^ 31) : (flashWrite a data len h).1.log = h.log ++ writeLog a data len h := by
  unfold writeLog
  by_cases hr : InRegion a.toNat len
  · rw [if_pos hr]
    exact (flashWrite_of_inRegion data h hpos hlen hr).1
  · rw [if_neg hr, flashWrite_of_not_inRegion data h hpos hlen hr]
    rfl

theorem mem_halfwordStores {data : ℕ → UInt8} {len i dst count : ℕ} {ev : FlashEvent}
    (h : ev ∈ halfwordStores data len i dst count) :
    ∃ k < count, ev = .store (dst + 2 * k) (data (i + 2 * k)) (padded data len (i + 2 * k + 1)) := by
  obtain ⟨k, hk, rfl⟩ := List.mem_map.mp h
  exact ⟨k, List.mem_range.mp hk, rfl⟩

theorem store_mem_halfwordStores {data : ℕ → UInt8} {len i dst count k : ℕ} (hk : k < count) :
    .store (dst + 2 * k) (data (i + 2 * k)) (padded data len (i + 2 * k + 1)) ∈
      halfwordStores data len i dst count :=
  List.mem_map.mpr ⟨k, List.mem_range.mpr hk, rfl⟩

/-- What the branch of `handle_dfu_getstatus` in dfuDNBUSY asks of the flash. -/
def attemptLog (c : Core) : List FlashEvent :=
  if c.dfu.cmdPending ≠ 0 then
    if c.dfu.cmdPending = dfuseCmdErasePage ∧ c.dfu.cmdHasArg then eraseLog c.dfu.cmdArg else []
  else if 0 < c.dfu.bufferLen then
    writeLog c.dfu.address c.dfu.buffer c.dfu.bufferLen c.flash
  else []

theorem writeCall_mem_attemptLog {c : Core} {a : UInt32} {bytes : List UInt8} :
    .writeCall a bytes ∈ attemptLog c ↔ c.dfu.cmdPending = 0 ∧ 0 < c.dfu.bufferLen ∧
      a = c.dfu.address ∧ bytes = toList c.dfu.buffer c.dfu.bufferLen := by
  have herase (b : UInt32) : .writeCall a bytes ∉ eraseLog b := by
    unfold eraseLog
    split_ifs <;> simp
  have hwrite : .writeCall a bytes ∈ writeLog c.dfu.address c.dfu.buffer c.dfu.bufferLen c.flash ↔
      a = c.dfu.address ∧ bytes = toList c.dfu.buffer c.dfu.bufferLen := by
    unfold writeLog
    split_ifs <;> simp [halfwordStores]
  unfold attemptLog
  by_cases hc : c.dfu.cmdPending = 0
  · rw [if_neg (not_not.mpr hc)]
    by_cases hlen : 0 < c.dfu.bufferLen
    · rw [if_pos hlen, hwrite]
      tauto
    · rw [if_neg hlen]
      exact iff_of_false List.not_mem_nil fun h => hlen h.2.1
  · rw [if_pos hc]
    refine iff_of_false ?_ fun h => hc h.1
    split_ifs
    · exact herase _
    · exact List.not_mem_nil

theorem eraseCall_mem_attemptLog {c : Core} {a : UInt32} : .eraseCall a ∈ attemptLog c ↔
    c.dfu.cmdPending = dfuseCmdErasePage ∧ c.dfu.cmdHasArg = true ∧ a = c.dfu.cmdArg := by
  have herase : .eraseCall a ∈ eraseLog c.dfu.cmdArg ↔ a = c.dfu.cmdArg := by
    unfold eraseLog
    split_ifs <;> simp
  unfold attemptLog
  by_cases hc : c.dfu.cmdPending ≠ 0
  · rw [if_pos hc]
    by_cases harg : c.dfu.cmdPending = dfuseCmdErasePage ∧ c.dfu.cmdHasArg = true
    · rw [if_pos harg, herase]
      tauto
    · rw [if_neg harg]
      exact iff_of_false List.not_mem_nil fun h => harg ⟨h.1, h.2.1⟩
  · rw [if_neg hc]
    refine iff_of_false ?_ fun h => hc (by rw [h.1]; decide)
    unfold writeLog
    split_ifs <;> simp [halfwordStores]

theorem executePending_log {c : Core} (hlen : c.dfu.bufferLen ≤ dfuXferSize) :
    (executePending c).flash.log = c.flash.log ++ attemptLog c := by
  have hne : dfuseCmdErasePage ≠ 0 := by decide
  have hlt : c.dfu.bufferLen < 2 ^ 31 := lt_of_le_of_lt hlen (by decide)
  have heff := executePending_effect c
  generalize executePending c = c' at heff
  unfold attemptLog
  cases heff with
  | setAddress hcmd harg =>
    have herase : ¬ (c.dfu.cmdPending = dfuseCmdErasePage ∧ c.dfu.cmdHasArg = true) := by
      rw [hcmd]
      exact fun h => absurd h.1 (by decide)
    rw [if_pos (by rw [hcmd]; decide), if_neg herase, List.append_nil]
  | erase hcmd harg hok =>
    rw [if_pos (hcmd ▸ hne), if_pos ⟨hcmd, harg⟩, ← flashErasePage_log]
  | eraseFailed hcmd harg hfail =>
    rw [if_pos (hcmd ▸ hne), if_pos ⟨hcmd, harg⟩, ← flashErasePage_log]
  | refuse hcmd status hset herase hother =>
    rw [if_pos hcmd, if_neg fun h => Bool.false_ne_true ((herase h.1).1.symm.trans h.2),
      List.append_nil]
  | write hcmd hpos hok =>
    rw [if_neg (not_not.mpr hcmd), if_pos hpos, ← flashWrite_log _ _ _ hpos hlt]
  | writeFailed hcmd hpos hfail =>
    rw [if_neg (not_not.mpr hcmd), if_pos hpos, ← flashWrite_log _ _ _ hpos hlt]
  | empty hcmd hzero =>
    rw [if_neg (not_not.mpr hcmd), if_neg (by omega), List.append_nil]

def eventLog (c : Core) (e : UsbEvent) : List FlashEvent :=
  if Executes c e then attemptLog c else []

theorem coreStep_log {c : Core} (hc : c.dfu.Consistent) (e : UsbEvent) :
    (coreStep c e).flash.log = c.flash.log ++ eventLog c e := by
  unfold eventLog
  split_ifs with h
  · rw [coreStep_of_executes h, executePending_log hc.bufferLen_le]
  · rw [coreStep_flash h, List.append_nil]

namespace Machine

theorem Stable.step_log {s : Machine} (h : s.Stable) (e : UsbEvent) :
    (s.step e).core.flash.log = s.core.flash.log ++ eventLog s.core e := by
  rw [step_core h.quiet, coreStep_log h.consistent]

def asked (s : Machine) (e : UsbEvent) : List FlashEvent :=
  (s.step e).core.flash.log.drop s.core.flash.log.length

theorem Stable.asked_eq {s : Machine} (h : s.Stable) (e : UsbEvent) :
    s.asked e = eventLog s.core e := by
  rw [asked, h.step_log, List.drop_left]

theorem Stable.mem_asked {s : Machine} (h : s.Stable) {e : UsbEvent} {ev : FlashEvent} :
    ev ∈ s.asked e ↔ Executes s.core e ∧ ev ∈ attemptLog s.core := by
  rw [h.asked_eq, eventLog]
  split_ifs with hexec
  · exact (and_iff_right hexec).symm
  · exact iff_of_false List.not_mem_nil fun h => hexec h.1

/-- The whole log of a run has a property exactly when what every event asks for has it. -/
theorem run_log_forall_iff (Q : FlashEvent → Prop) (mem : ℕ → UInt8) (faults : ℕ → Fault)
    (es : List UsbEvent) : (∀ ev ∈ (run (start mem faults) es).core.flash.log, Q ev) ↔
      StepSystem.Along step (fun s e => ∀ ev ∈ eventLog s.core e, Q ev) (start mem faults) es := by
  have h := StepSystem.log_forall_iff (fun s : Machine => s.core.flash.log) Stable Q
    (fun s e => eventLog s.core e) (fun _ e hs => hs.step e) (fun _ e hs => hs.step_log e)
    (start_stable mem faults) es
  exact h.trans (and_iff_right fun ev hev => absurd hev List.not_mem_nil)

end Machine

end NovaBootloader
