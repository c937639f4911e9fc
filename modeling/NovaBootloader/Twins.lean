import NovaBootloader.FlashTrace

/-!
# Cores that cannot be told apart

Two cores are twins if they agree on everything a request or a packet can still bring to light: the
block, its length and the buffer only while a download is under way and only as far as the buffer is
filled, the operand of a command only if there is one, and of the flash controller the contents and
the hardware errors to come. Every event keeps twins twins.
-/

namespace NovaBootloader
open ByteMemory FlashHw

/-- The same contents, and the same outcome of every operation from now on. -/
structure FlashHw.Twins (h h' : FlashHw) : Prop where
  mem : h'.mem = h.mem
  faults : ∀ k, h'.faults (h'.ops + k) = h.faults (h.ops + k)

theorem programmed_congr {f f' : ℕ → Fault} {i i' : ℕ} (h : ∀ k, f' (i' + k) = f (i + k)) (n : ℕ) :
    programmed f' i' n = programmed f i n := by
  induction n generalizing i i' with
  | zero => rfl
  | succ n ih =>
    have hfirst : f' i' = f i := h 0
    have hrest : programmed f' (i' + 1) n = programmed f (i + 1) n := by
      apply ih
      intro k
      rw [Nat.add_assoc, Nat.add_assoc, h]
    rw [programmed, programmed, hfirst, hrest]

theorem flashErasePage_ops (a : UInt32) (h : FlashHw) : (flashErasePage a h).1.ops =
    h.ops + if flashIsAddressValid a then 1 else 0 := by
  cases ha : flashIsAddressValid a with
  | false =>
    rw [flashErasePage_of_invalid h ha]
    rfl
  | true =>
    obtain ⟨keyed, hu⟩ := flashUnlock_eq (h.record (.eraseCall a))
    unfold flashErasePage
    simp only [ha, Bool.not_true, Bool.false_eq_true, if_false, if_true, hu]
    simp only [flashWait, clearErrors, modifyCr, FlashHw.start, Bool.false_eq_true, if_false,
      Bool.or_self, Bool.not_true, flashLock, begin, FlashHw.record]

theorem flashWriteLoop_ops (data : ℕ → UInt8) (len n i dst : ℕ) {h : FlashHw} (hp : Programming h) :
    (flashWriteLoop data len n i dst h).1.ops =
      h.ops + min n (programmed h.faults h.ops n + 1) := by
  induction n generalizing i dst h with
  | zero => simp [flashWriteLoop, flashLock, modifyCr, hp.unlocked]
  | succ n ih =>
    obtain ⟨-, hfaults, hops, hfailed, hcr, -⟩ := storeHalfword_programming hp dst (data i)
      (if i + 1 < len then data (i + 1) else 0xFF)
    rw [flashWriteLoop, programmed]
    generalize flashWait (h.storeHalfword dst (data i)
      (if i + 1 < len then data (i + 1) else 0xFF)) = h₁ at *
    by_cases hraised : (h.faults h.ops).raised = true
    · rw [if_pos hraised, if_pos (hfailed.trans hraised)]
      simp [flashLock, modifyCr, hcr, hp.unlocked, hops]
    · have hfailed' : ¬ h₁.failed = true := by rwa [hfailed]
      rw [if_neg hraised, if_neg hfailed',
        ih (i + 2) (dst + 2) ⟨hcr ▸ hp.unlocked, hcr ▸ hp.enabled, by simpa using hfailed'⟩,
        hfaults, hops]
      omega

theorem flashWrite_ops {a : UInt32} {len : ℕ} (data : ℕ → UInt8) (h : FlashHw) (hpos : 0 < len)
    (hlen : len < 2 ^ 31) : (flashWrite a data len h).1.ops = h.ops +
      if InRegion a.toNat len then
        min ((len + 1) / 2) (programmed h.faults h.ops ((len + 1) / 2) + 1)
      else 0 := by
  by_cases hr : InRegion a.toNat len
  · obtain ⟨hfirst, hlast⟩ := (inRegion_iff a hpos hlen).mp hr
    obtain ⟨keyed, hu⟩ := flashUnlock_eq (h.record (.writeCall a (toList data len)))
    unfold flashWrite
    dsimp only
    rw [if_pos hr, if_neg (by omega), hfirst, hlast, hu]
    exact flashWriteLoop_ops data len ((len + 1) / 2) 0 a.toNat
      (h := { mem := h.mem, cr := { h.cr with pg := true, lock := false },
              sr := ⟨false, false, false, false⟩, ar := h.ar, keyed := keyed, faults := h.faults,
              ops := h.ops, log := h.log ++ [.writeCall a (toList data len)] })
      ⟨rfl, rfl, rfl⟩
  · rw [if_neg hr, flashWrite_of_not_inRegion data h hpos hlen hr]
    rfl

namespace FlashHw.Twins

variable {h h' : FlashHw}

theorem advance (ht : h.Twins h') {k k' : FlashHw} {n : ℕ} (hmem : k'.mem = k.mem)
    (hf : k.faults = h.faults) (hf' : k'.faults = h'.faults) (ho : k.ops = h.ops + n)
    (ho' : k'.ops = h'.ops + n) : k.Twins k' := by
  refine ⟨hmem, fun i => ?_⟩
  rw [hf, hf', ho, ho', Nat.add_assoc, Nat.add_assoc, ht.faults]

theorem raised (ht : h.Twins h') : (h'.faults h'.ops).raised = (h.faults h.ops).raised :=
  congrArg Fault.raised (ht.faults 0)

theorem erase (ht : h.Twins h') (a : UInt32) :
    ((flashErasePage a h').2 = 0 ↔ (flashErasePage a h).2 = 0) ∧
      (flashErasePage a h).1.Twins (flashErasePage a h').1 := by
  cases ha : flashIsAddressValid a with
  | false =>
    rw [flashErasePage_of_invalid h ha, flashErasePage_of_invalid h' ha]
    exact ⟨Iff.rfl, ht.mem, ht.faults⟩
  | true =>
    have hops := flashErasePage_ops a h
    have hops' := flashErasePage_ops a h'
    obtain ⟨-, hm, hf, hr⟩ := flashErasePage_of_valid h ha
    obtain ⟨-, hm', hf', hr'⟩ := flashErasePage_of_valid h' ha
    refine ⟨?_, ht.advance ?_ hf hf' hops hops'⟩
    · rw [hr, hr', ht.raised]
    · rw [hm, hm', ht.raised, ht.mem]

theorem write (ht : h.Twins h') (a : UInt32) {data data' : ℕ → UInt8} {len : ℕ}
    (hdata : ∀ i < len, data' i = data i) (hpos : 0 < len) (hlen : len < 2 ^ 31) :
    ((flashWrite a data' len h').2 = 0 ↔ (flashWrite a data len h).2 = 0) ∧
      (flashWrite a data len h).1.Twins (flashWrite a data' len h').1 := by
  have hops := flashWrite_ops (a := a) data h hpos hlen
  have hops' := flashWrite_ops (a := a) data' h' hpos hlen
  rw [programmed_congr ht.faults] at hops'
  by_cases hr : InRegion a.toNat len
  · obtain ⟨-, hm, hf, hrc⟩ := flashWrite_of_inRegion data h hpos hlen hr
    obtain ⟨-, hm', hf', hrc'⟩ := flashWrite_of_inRegion data' h' hpos hlen hr
    refine ⟨?_, ht.advance ?_ hf hf' hops hops'⟩
    · rw [hrc, hrc']
      simp only [ht.faults]
    · rw [hm, hm', programmed_congr ht.faults, ht.mem]
      apply overwrite_congr
      intro i _
      unfold padded
      split_ifs with hi
      · exact hdata i hi
      · rfl
  · rw [flashWrite_of_not_inRegion data h hpos hlen hr,
      flashWrite_of_not_inRegion data' h' hpos hlen hr]
    exact ⟨Iff.rfl, ht.mem, ht.faults⟩

theorem writeLog_eq (ht : h.Twins h') (a : UInt32) {data data' : ℕ → UInt8} {len : ℕ}
    (hdata : ∀ i < len, data' i = data i) : writeLog a data' len h' = writeLog a data len h := by
  unfold writeLog
  rw [toList_congr hdata, programmed_congr ht.faults]
  congr 1
  split_ifs
  · unfold halfwordStores
    apply List.map_congr_left
    intro k hk
    have hlt : k < (len + 1) / 2 := lt_of_lt_of_le (List.mem_range.mp hk) (Nat.min_le_left _ _)
    congr 1
    · exact hdata _ (by omega)
    · unfold padded
      split_ifs with hi
      · exact hdata _ hi
      · rfl
  · rfl

end FlashHw.Twins

/-- The DFU variables that are not dead agree. -/
structure Dfu.Twins (d d' : Dfu) : Prop where
  state : d'.state = d.state
  status : d'.status = d.status
  address : d'.address = d.address
  addressPtr : d'.addressPtr = d.addressPtr
  cmdPending : d'.cmdPending = d.cmdPending
  cmdHasArg : d'.cmdHasArg = d.cmdHasArg
  cmdArg : d.cmdHasArg = true → d'.cmdArg = d.cmdArg
  blockNum : d.Downloading → d'.blockNum = d.blockNum
  xferLen : d.Downloading → d'.xferLen = d.xferLen
  bufferLen : d.Downloading → d'.bufferLen = d.bufferLen
  buffer : d.Downloading → ∀ i < d.bufferLen, d'.buffer i = d.buffer i

structure Core.Twins (c c' : Core) : Prop where
  dfu : c.dfu.Twins c'.dfu
  flash : c.flash.Twins c'.flash

namespace Dfu.Twins

variable {d d' : Dfu}

/-- Outside a download the block and the buffer are dead. -/
theorem of_not_downloading (hd : ¬ d.Downloading) (hstate : d'.state = d.state)
    (hstatus : d'.status = d.status) (haddress : d'.address = d.address)
    (hptr : d'.addressPtr = d.addressPtr) (hcmd : d'.cmdPending = d.cmdPending)
    (harg : d'.cmdHasArg = d.cmdHasArg) (hword : d.cmdHasArg = true → d'.cmdArg = d.cmdArg) :
    d.Twins d' :=
  ⟨hstate, hstatus, haddress, hptr, hcmd, harg, hword, fun h => absurd h hd, fun h => absurd h hd,
    fun h => absurd h hd, fun h => absurd h hd⟩

theorem leave (h : d.Twins d') {state : DfuState} (status : DfuStatus)
    (hs : ¬ (state = .dnloadSync ∨ state = .dnbusy)) :
    Dfu.Twins { d with state := state, status := status }
      { d' with state := state, status := status } :=
  of_not_downloading hs rfl rfl h.address h.addressPtr h.cmdPending h.cmdHasArg h.cmdArg

theorem leave_state (h : d.Twins d') (state : DfuState)
    (hs : ¬ (state = .dnloadSync ∨ state = .dnbusy)) :
    Dfu.Twins { d with state := state } { d' with state := state } :=
  of_not_downloading hs rfl h.status h.address h.addressPtr h.cmdPending h.cmdHasArg h.cmdArg

theorem stay (h : d.Twins d') (hd : d.Downloading) (state : DfuState) :
    Dfu.Twins { d with state := state } { d' with state := state } :=
  ⟨rfl, h.status, h.address, h.addressPtr, h.cmdPending, h.cmdHasArg, h.cmdArg,
    fun _ => h.blockNum hd, fun _ => h.xferLen hd, fun _ => h.bufferLen hd, fun _ => h.buffer hd⟩

theorem accept (h : d.Twins d') (block len : ℕ) : (d.accept block len).Twins (d'.accept block len) := by
  have hblock : d'.blockAddress block = d.blockAddress block := by
    unfold Dfu.blockAddress
    rw [h.addressPtr]
  refine ⟨rfl, h.status, ?_, h.addressPtr, h.cmdPending, h.cmdHasArg, h.cmdArg, fun _ => rfl,
    fun _ => rfl, fun _ => rfl, fun _ i hi => absurd hi (Nat.not_lt_zero i)⟩
  unfold Dfu.accept
  dsimp only
  rw [hblock, h.address]

theorem abort (d d' : Dfu) : (handleDfuAbort d).1.Twins (handleDfuAbort d').1 :=
  of_not_downloading (by simp [Dfu.Downloading, handleDfuAbort]) rfl rfl rfl rfl rfl rfl
    fun h => absurd h Bool.false_ne_true

theorem usbReset (d d' : Dfu) : d.usbReset.Twins d'.usbReset :=
  of_not_downloading (by simp [Dfu.Downloading, Dfu.usbReset]) rfl rfl rfl rfl rfl rfl
    fun h => absurd h Bool.false_ne_true

theorem appendData (h : d.Twins d') (hd : d.Downloading) (data : ℕ → UInt8) (count : ℕ) :
    (appendData data count d).Twins (appendData data count d') := by
  unfold NovaBootloader.appendData
  rw [h.bufferLen hd]
  split_ifs
  · refine ⟨h.state, h.status, h.address, h.addressPtr, h.cmdPending, h.cmdHasArg, h.cmdArg,
      fun _ => h.blockNum hd, fun _ => h.xferLen hd, fun _ => rfl, fun _ i hi => ?_⟩
    have hi : i < d.bufferLen + count := hi
    dsimp only
    by_cases hnew : d.bufferLen ≤ i
    · rw [overwrite_of_mem hnew hi, overwrite_of_mem hnew hi]
    · rw [overwrite_of_not_mem (by omega), overwrite_of_not_mem (by omega)]
      exact h.buffer hd i (by omega)
  · exact h

theorem decodeCommand (h : d.Twins d') (hd : d.Downloading) (hpos : 1 ≤ d.bufferLen) :
    (decodeCommand d).Twins (decodeCommand d') := by
  have hlen := h.bufferLen hd
  have hbyte (i : ℕ) (hi : i < d.bufferLen) : d'.buffer i = d.buffer i := h.buffer hd i hi
  refine ⟨h.state, h.status, h.address, h.addressPtr, hbyte 0 hpos, ?_, fun harg => ?_,
    fun _ => h.blockNum hd, fun _ => h.xferLen hd, fun _ => rfl,
    fun _ i hi => absurd hi (Nat.not_lt_zero i)⟩
  · unfold NovaBootloader.decodeCommand
    dsimp only
    rw [hlen]
  · have hfive : 5 ≤ d.bufferLen := of_decide_eq_true harg
    unfold NovaBootloader.decodeCommand
    simp only [hlen, hfive, decide_true, if_true, hbyte 1 (by omega), hbyte 2 (by omega),
      hbyte 3 (by omega), hbyte 4 (by omega)]

theorem dataStage (h : d.Twins d') (hd : d.Downloading) (data : ℕ → UInt8) (count : ℕ) :
    (dataStage data count d').2 = (dataStage data count d).2 ∧
      (dataStage data count d).1.Twins (dataStage data count d').1 := by
  have ha := h.appendData hd data count
  have hda : (NovaBootloader.appendData data count d).Downloading := by
    unfold NovaBootloader.appendData
    split_ifs <;> exact hd
  unfold NovaBootloader.dataStage
  dsimp only
  generalize NovaBootloader.appendData data count d = k at ha hda
  generalize NovaBootloader.appendData data count d' = k' at ha
  rw [ha.xferLen hda, ha.bufferLen hda, ha.blockNum hda]
  split_ifs with hfull hdecode
  · exact ⟨rfl, ha.decodeCommand hda hdecode.2⟩
  · exact ⟨rfl, ha⟩
  · exact ⟨rfl, ha⟩

end Dfu.Twins

namespace Core.Twins

variable {c c' : Core}

theorem executeCommand (h : c.Twins c') :
    (executeCommand c).Twins (executeCommand c') := by
  obtain ⟨hd, hf⟩ := h
  have hfail (status : DfuStatus) : Dfu.Twins (Dfu.fail { c.dfu with cmdPending := 0 } status)
      (Dfu.fail { c'.dfu with cmdPending := 0 } status) :=
    .of_not_downloading (by simp [Dfu.Downloading, Dfu.fail]) rfl rfl hd.address hd.addressPtr rfl
      hd.cmdHasArg hd.cmdArg
  have hsame : (!c'.dfu.cmdHasArg) = true ↔ (!c.dfu.cmdHasArg) = true := by rw [hd.cmdHasArg]
  have hword (harg : ¬ (!c.dfu.cmdHasArg) = true) : c'.dfu.cmdArg = c.dfu.cmdArg := by
    apply hd.cmdArg
    simpa using harg
  unfold NovaBootloader.executeCommand
  dsimp only
  rw [hd.cmdPending]
  by_cases hset : c.dfu.cmdPending = dfuseCmdSetAddress
  · rw [if_pos hset, if_pos hset]
    by_cases hbare : (!c.dfu.cmdHasArg) = true
    · rw [if_pos hbare, if_pos (hsame.mpr hbare)]
      exact ⟨hfail _, hf⟩
    · rw [if_neg hbare, if_neg (hbare ∘ hsame.mp)]
      exact ⟨.of_not_downloading (by simp [Dfu.Downloading]) rfl hd.status hd.address
        (hword hbare) rfl hd.cmdHasArg hd.cmdArg, hf⟩
  rw [if_neg hset, if_neg hset]
  by_cases herase : c.dfu.cmdPending = dfuseCmdErasePage
  swap
  · rw [if_neg herase, if_neg herase]
    exact ⟨hfail _, hf⟩
  rw [if_pos herase, if_pos herase]
  by_cases hbare : (!c.dfu.cmdHasArg) = true
  · rw [if_pos hbare, if_pos (hsame.mpr hbare)]
    exact ⟨hfail _, hf⟩
  have hcall : flashErasePage c'.dfu.cmdArg c'.flash = flashErasePage c.dfu.cmdArg c'.flash := by
    rw [hword hbare]
  obtain ⟨hrc, hpage⟩ := hf.erase c.dfu.cmdArg
  rw [if_neg hbare, if_neg (hbare ∘ hsame.mp), hcall]
  by_cases hzero : (flashErasePage c.dfu.cmdArg c.flash).2 = 0
  · rw [if_neg (not_not.mpr hzero), if_neg (not_not.mpr (hrc.mpr hzero))]
    exact ⟨.of_not_downloading (by simp [Dfu.Downloading]) rfl hd.status hd.address hd.addressPtr
      rfl hd.cmdHasArg hd.cmdArg, hpage⟩
  · rw [if_pos hzero, if_pos fun h => hzero (hrc.mp h)]
    exact ⟨hfail _, hpage⟩

theorem writeBuffer (h : c.Twins c') (hs : c.dfu.Downloading) (hpos : 0 < c.dfu.bufferLen)
    (hlen : c.dfu.bufferLen ≤ dfuXferSize) : (writeBuffer c).Twins (writeBuffer c') := by
  obtain ⟨hd, hf⟩ := h
  obtain ⟨hrc, hmem⟩ := hf.write c.dfu.address (hd.buffer hs) hpos
    (lt_of_le_of_lt hlen (by decide))
  unfold NovaBootloader.writeBuffer
  dsimp only
  rw [hd.address, hd.bufferLen hs]
  by_cases hzero : (flashWrite c.dfu.address c.dfu.buffer c.dfu.bufferLen c.flash).2 = 0
  · rw [if_neg (not_not.mpr hzero), if_neg (not_not.mpr (hrc.mpr hzero))]
    exact ⟨.of_not_downloading (by simp [Dfu.Downloading]) rfl hd.status rfl hd.addressPtr
      hd.cmdPending hd.cmdHasArg hd.cmdArg, hmem⟩
  · rw [if_pos hzero, if_pos fun h => hzero (hrc.mp h)]
    exact ⟨hd.leave .errWrite (by decide), hmem⟩

theorem executePending (h : c.Twins c') (hs : c.dfu.Downloading)
    (hlen : c.dfu.bufferLen ≤ dfuXferSize) : (executePending c).Twins (executePending c') := by
  unfold NovaBootloader.executePending
  rw [h.dfu.cmdPending, h.dfu.bufferLen hs]
  split_ifs with hcmd hpos
  · exact h.executeCommand
  · exact h.writeBuffer hs hpos hlen
  · exact ⟨h.dfu.leave_state _ (by decide), h.flash⟩

theorem attemptLog_eq (h : c.Twins c') (hs : c.dfu.Downloading) :
    attemptLog c' = attemptLog c := by
  unfold attemptLog
  rw [h.dfu.cmdPending, h.dfu.cmdHasArg, h.dfu.bufferLen hs, h.dfu.address,
    h.flash.writeLog_eq c.dfu.address (h.dfu.buffer hs)]
  split_ifs with hcmd herase
  · rw [h.dfu.cmdArg herase.2]
  · rfl
  · rfl
  · rfl

theorem getstatus (h : c.Twins c') (hlen : c.dfu.bufferLen ≤ dfuXferSize) :
    (handleDfuGetstatus c').2 = (handleDfuGetstatus c).2 ∧
      (handleDfuGetstatus c).1.Twins (handleDfuGetstatus c').1 := by
  have htrans : (getstatusTransition c').2 = (getstatusTransition c).2 ∧
      (getstatusTransition c).1.Twins (getstatusTransition c').1 := by
    unfold getstatusTransition
    rw [h.dfu.state]
    split_ifs with hsync hbusy hman
    · exact ⟨rfl, h.dfu.stay (Or.inl hsync) _, h.flash⟩
    · exact ⟨rfl, h.executePending (Or.inr hbusy) hlen⟩
    · exact ⟨rfl, h.dfu.leave_state _ (by decide), h.flash⟩
    · exact ⟨rfl, h⟩
  unfold handleDfuGetstatus
  dsimp only
  rw [htrans.1, htrans.2.dfu.status, htrans.2.dfu.state]
  exact ⟨rfl, htrans.2⟩

end Core.Twins

namespace Dfu.Twins

variable {d d' : Dfu}

theorem dnload (h : d.Twins d') (block len : ℕ) :
    (handleDfuDnload block len d').2 = (handleDfuDnload block len d).2 ∧
      (handleDfuDnload block len d).1.Twins (handleDfuDnload block len d').1 := by
  unfold handleDfuDnload
  rw [h.state]
  by_cases hzero : len = 0
  · rw [if_pos hzero, if_pos hzero]
    split_ifs
    · exact ⟨rfl, h.leave_state _ (by decide)⟩
    · exact ⟨rfl, h⟩
  rw [if_neg hzero, if_neg hzero]
  by_cases hbig : dfuXferSize < len
  · rw [if_pos hbig, if_pos hbig]
    exact ⟨rfl, h.leave .errUnknown (by decide)⟩
  rw [if_neg hbig, if_neg hbig]
  by_cases hone : block = 1
  · rw [if_pos hone, if_pos hone]
    exact ⟨rfl, h⟩
  rw [if_neg hone, if_neg hone]
  by_cases hacc : d.state = .idle ∨ d.state = .dnloadIdle
  · rw [if_pos hacc, if_pos hacc]
    exact ⟨rfl, h.accept block len⟩
  · rw [if_neg hacc, if_neg hacc]
    exact ⟨rfl, h⟩

theorem upload (h : d.Twins d') (block len : ℕ) :
    (handleDfuUpload block len d').2 = (handleDfuUpload block len d).2 ∧
      (handleDfuUpload block len d).1.Twins (handleDfuUpload block len d').1 := by
  have haddr : d'.addressPtr + UInt32.ofNat (block - 2) * UInt32.ofNat dfuXferSize =
      d.addressPtr + UInt32.ofNat (block - 2) * UInt32.ofNat dfuXferSize := by rw [h.addressPtr]
  unfold handleDfuUpload
  rw [h.state]
  dsimp only
  rw [haddr]
  split_ifs
  · exact ⟨rfl, h⟩
  · exact ⟨rfl, h⟩
  · exact ⟨rfl, h.leave_state .idle (by decide)⟩
  · exact ⟨rfl, h.leave_state .uploadIdle (by decide)⟩
  · exact ⟨rfl, h.leave_state .uploadIdle (by decide)⟩

theorem clrstatus (h : d.Twins d') : (handleDfuClrstatus d).1.Twins (handleDfuClrstatus d').1 := by
  unfold handleDfuClrstatus
  rw [h.state]
  dsimp only
  split_ifs
  · exact h.leave .ok (by decide)
  · exact h

end Dfu.Twins

namespace Core.Twins

variable {c c' : Core}

theorem request (h : c.Twins c') (hlen : c.dfu.bufferLen ≤ dfuXferSize) (p : SetupPacket) :
    (Machine.request p c').2 = (Machine.request p c).2 ∧
      (Machine.request p c).1.Twins (Machine.request p c').1 := by
  unfold Machine.request
  split_ifs
  · exact ⟨rfl, h⟩
  · unfold dfuRequest
    dsimp only
    split_ifs
    · exact h.getstatus hlen
    · refine ⟨?_, h⟩
      unfold handleDfuGetstate
      rw [h.dfu.state]
    · obtain ⟨hcall, hd⟩ := h.dfu.dnload p.wValue.toNat p.wLength.toNat
      exact ⟨hcall, hd, h.flash⟩
    · obtain ⟨hcall, hd⟩ := h.dfu.upload p.wValue.toNat p.wLength.toNat
      exact ⟨hcall, hd, h.flash⟩
    · exact ⟨rfl, h.dfu.clrstatus, h.flash⟩
    · exact ⟨rfl, .abort _ _, h.flash⟩
    · exact ⟨rfl, h⟩
  · exact ⟨rfl, h⟩

theorem coreStep (h : c.Twins c') (hlen : c.dfu.bufferLen ≤ dfuXferSize) (e : UsbEvent) :
    (coreStep c e).Twins (coreStep c' e) := by
  rcases e with _ | _ | ⟨_ | (p | d), tx⟩
  · exact h
  · exact ⟨.usbReset _ _, h.flash⟩
  · exact h
  · exact (h.request hlen p).2
  · unfold NovaBootloader.coreStep
    dsimp only
    rw [h.dfu.state]
    split_ifs with hdata
    · exact ⟨(h.dfu.dataStage (Or.inl hdata.1) _ _).2, h.flash⟩
    · exact h

theorem eventLog_eq (h : c.Twins c') (e : UsbEvent) : eventLog c' e = eventLog c e := by
  have hexec : Executes c' e ↔ Executes c e := by
    unfold Executes Attempts
    rw [h.dfu.state]
  unfold eventLog
  by_cases hx : Executes c e
  · rw [if_pos hx, if_pos (hexec.mpr hx), h.attemptLog_eq hx.downloading]
  · rw [if_neg hx, if_neg fun h => hx (hexec.mp h)]

end Core.Twins

end NovaBootloader
