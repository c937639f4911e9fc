import NovaBootloader.ErrorLatch
import NovaBootloader.Forgetting
import NovaBootloader.UploadWalk

/-!
# What a host can learn about the flash

The flash is exchanged for one that agrees with it on the application region. Every request does the
same as before and leaves flash that agrees there again, so no host can tell the two devices apart;
and a host that uploads the region tells apart any two that differ in it.
-/

namespace NovaBootloader
open ByteMemory FlashHw

/-- The same controller, with contents that agree on the application region. -/
structure FlashHw.SameApp (h h' : FlashHw) : Prop where
  mem : ∀ x, InRegion x 1 → h'.mem x = h.mem x
  faults : h'.faults = h.faults
  ops : h'.ops = h.ops
  log : h'.log = h.log

namespace FlashHw.SameApp

variable {h h' : FlashHw}

theorem bytes (ha : h.SameApp h') {a n : ℕ} (hr : InRegion a n) {i : ℕ} (hi : i < n) :
    h'.mem (a + i) = h.mem (a + i) := by
  obtain ⟨hlo, hhi⟩ := hr
  exact ha.mem _ ⟨by omega, by omega⟩

theorem overwrite (ha : h.SameApp h') (a n : ℕ) (data : ℕ → UInt8) {x : ℕ} (hx : InRegion x 1) :
    overwrite h'.mem a n data x = overwrite h.mem a n data x := by
  by_cases hmem : a ≤ x ∧ x < a + n
  · rw [overwrite_of_mem hmem.1 hmem.2, overwrite_of_mem hmem.1 hmem.2]
  · rw [overwrite_of_not_mem (by omega), overwrite_of_not_mem (by omega)]
    exact ha.mem x hx

theorem erase (ha : h.SameApp h') (a : UInt32) :
    ((flashErasePage a h').2 = 0 ↔ (flashErasePage a h).2 = 0) ∧
      (flashErasePage a h).1.SameApp (flashErasePage a h').1 := by
  have hlog := flashErasePage_log a h
  have hlog' := flashErasePage_log a h'
  have hops := flashErasePage_ops a h
  have hops' := flashErasePage_ops a h'
  rw [ha.log, ← hlog] at hlog'
  rw [ha.ops, ← hops] at hops'
  cases hv : flashIsAddressValid a with
  | false =>
    rw [flashErasePage_of_invalid h hv, flashErasePage_of_invalid h' hv] at *
    exact ⟨Iff.rfl, ha.mem, ha.faults, hops', hlog'⟩
  | true =>
    obtain ⟨-, hm, hf, hr⟩ := flashErasePage_of_valid h hv
    obtain ⟨-, hm', hf', hr'⟩ := flashErasePage_of_valid h' hv
    rw [ha.faults, ha.ops] at hm' hr'
    refine ⟨hr'.trans hr.symm, fun x hx => ?_, hf'.trans (ha.faults.trans hf.symm), hops', hlog'⟩
    rw [hm, hm']
    split_ifs
    · exact ha.mem x hx
    · exact ha.overwrite _ _ _ hx

theorem write (ha : h.SameApp h') (a : UInt32) (data : ℕ → UInt8) {len : ℕ} (hpos : 0 < len)
    (hlen : len < 2 ^ 31) :
    ((flashWrite a data len h').2 = 0 ↔ (flashWrite a data len h).2 = 0) ∧
      (flashWrite a data len h).1.SameApp (flashWrite a data len h').1 := by
  have hlog := flashWrite_log a data h hpos hlen
  have hlog' := flashWrite_log a data h' hpos hlen
  have hops := flashWrite_ops (a := a) data h hpos hlen
  have hops' := flashWrite_ops (a := a) data h' hpos hlen
  have hnew : writeLog a data len h' = writeLog a data len h := by
    unfold writeLog
    rw [ha.faults, ha.ops]
  rw [ha.log, hnew, ← hlog] at hlog'
  rw [ha.faults, ha.ops, ← hops] at hops'
  by_cases hr : InRegion a.toNat len
  · obtain ⟨-, hm, hf, hrc⟩ := flashWrite_of_inRegion data h hpos hlen hr
    obtain ⟨-, hm', hf', hrc'⟩ := flashWrite_of_inRegion data h' hpos hlen hr
    rw [ha.faults, ha.ops] at hm' hrc'
    refine ⟨hrc'.trans hrc.symm, fun x hx => ?_, hf'.trans (ha.faults.trans hf.symm), hops', hlog'⟩
    rw [hm, hm']
    exact ha.overwrite _ _ _ hx
  · rw [flashWrite_of_not_inRegion data h hpos hlen hr,
      flashWrite_of_not_inRegion data h' hpos hlen hr] at *
    exact ⟨Iff.rfl, ha.mem, ha.faults, hops', hlog'⟩

end FlashHw.SameApp

structure Core.SameApp (c c' : Core) : Prop where
  dfu : c'.dfu = c.dfu
  flash : c.flash.SameApp c'.flash

namespace Core.SameApp

variable {c c' : Core}

theorem executeCommand (h : c.SameApp c') : (executeCommand c).SameApp (executeCommand c') := by
  obtain ⟨d, f⟩ := c
  obtain ⟨d', f'⟩ := c'
  obtain ⟨hdfu, hflash⟩ := h
  obtain rfl : d' = d := hdfu
  obtain ⟨hrc, hpage⟩ : ((flashErasePage d'.cmdArg f').2 = 0 ↔ (flashErasePage d'.cmdArg f).2 = 0) ∧
    (flashErasePage d'.cmdArg f).1.SameApp (flashErasePage d'.cmdArg f').1 := hflash.erase d'.cmdArg
  unfold NovaBootloader.executeCommand
  dsimp only
  simp only [ne_eq, hrc]
  split_ifs
  · exact ⟨rfl, hflash⟩
  · exact ⟨rfl, hflash⟩
  · exact ⟨rfl, hflash⟩
  · exact ⟨rfl, hpage⟩
  · exact ⟨rfl, hpage⟩
  · exact ⟨rfl, hflash⟩

theorem writeBuffer (h : c.SameApp c') (hpos : 0 < c.dfu.bufferLen)
    (hlen : c.dfu.bufferLen ≤ dfuXferSize) : (writeBuffer c).SameApp (writeBuffer c') := by
  obtain ⟨d, f⟩ := c
  obtain ⟨d', f'⟩ := c'
  obtain ⟨hdfu, hflash⟩ := h
  obtain rfl : d' = d := hdfu
  obtain ⟨hrc, hmem⟩ : ((flashWrite d'.address d'.buffer d'.bufferLen f').2 = 0 ↔
      (flashWrite d'.address d'.buffer d'.bufferLen f).2 = 0) ∧
    (flashWrite d'.address d'.buffer d'.bufferLen f).1.SameApp
      (flashWrite d'.address d'.buffer d'.bufferLen f').1 :=
    hflash.write d'.address d'.buffer hpos (lt_of_le_of_lt hlen (by decide))
  unfold NovaBootloader.writeBuffer
  dsimp only
  simp only [ne_eq, hrc]
  split_ifs
  · exact ⟨rfl, hmem⟩
  · exact ⟨rfl, hmem⟩

theorem executePending (h : c.SameApp c') (hlen : c.dfu.bufferLen ≤ dfuXferSize) :
    (executePending c).SameApp (executePending c') := by
  unfold NovaBootloader.executePending
  rw [h.dfu]
  split_ifs with hcmd hpos
  · exact h.executeCommand
  · exact h.writeBuffer hpos hlen
  · exact ⟨rfl, h.flash⟩

theorem getstatus (h : c.SameApp c') (hlen : c.dfu.bufferLen ≤ dfuXferSize) :
    (handleDfuGetstatus c').2 = (handleDfuGetstatus c).2 ∧
      (handleDfuGetstatus c).1.SameApp (handleDfuGetstatus c').1 := by
  have htrans : (getstatusTransition c').2 = (getstatusTransition c).2 ∧
      (getstatusTransition c).1.SameApp (getstatusTransition c').1 := by
    unfold getstatusTransition
    rw [h.dfu]
    split_ifs
    · exact ⟨rfl, rfl, h.flash⟩
    · exact ⟨rfl, h.executePending hlen⟩
    · exact ⟨rfl, rfl, h.flash⟩
    · exact ⟨rfl, h⟩
  unfold handleDfuGetstatus
  dsimp only
  rw [htrans.1, htrans.2.dfu]
  exact ⟨rfl, htrans.2⟩

theorem request (h : c.SameApp c') (hlen : c.dfu.bufferLen ≤ dfuXferSize) (p : SetupPacket) :
    (Machine.request p c').2 = (Machine.request p c).2 ∧
      (Machine.request p c).1.SameApp (Machine.request p c').1 := by
  unfold Machine.request
  split_ifs
  · exact ⟨rfl, h⟩
  · unfold dfuRequest
    dsimp only
    rw [h.dfu]
    split_ifs
    · exact h.getstatus hlen
    · exact ⟨rfl, h⟩
    · exact ⟨rfl, rfl, h.flash⟩
    · exact ⟨rfl, rfl, h.flash⟩
    · exact ⟨rfl, rfl, h.flash⟩
    · exact ⟨rfl, rfl, h.flash⟩
    · exact ⟨rfl, h⟩
  · exact ⟨rfl, h⟩

end Core.SameApp

theorem pmaWriteLoop_congr {data data' : ℕ → UInt8} {len : ℕ} (h : ∀ i < len, data i = data' i)
    (n i dst : ℕ) (pma : Pma) (hn : n ≤ (len - i + 1) / 2) :
    pmaWriteLoop data len n i dst pma = pmaWriteLoop data' len n i dst pma := by
  induction n generalizing i dst pma with
  | zero => rfl
  | succ n ih =>
    have hword : packWord data len i = packWord data' len i := by
      unfold packWord
      split_ifs with hi
      · rw [h i (by omega), h (i + 1) hi]
      · rw [h i (by omega)]
    rw [pmaWriteLoop, pmaWriteLoop, hword, ih _ _ _ (by omega)]

theorem pmaWrite_congr {data data' : ℕ → UInt8} {len : ℕ} (h : ∀ i < len, data i = data' i)
    (offset : ℕ) (pma : Pma) : pmaWrite offset data len pma = pmaWrite offset data' len pma :=
  pmaWriteLoop_congr h _ 0 _ _ le_rfl

namespace Machine

def withCore (s : Machine) (c : Core) : Machine := { s with core := c }

section Engine

variable {s : Machine} {c : Core}

theorem txByte_withCore (h : s.core.SameApp c) {p : TxPtr} {n : ℕ}
    (hin : p.object.Contains p.offset n) {i : ℕ} (hi : i < n) :
    (s.withCore c).txByte p i = s.txByte p i := by
  unfold txByte withCore
  cases hobject : p.object with
  | flash =>
    rw [hobject] at hin
    exact h.flash.bytes hin hi
  | _ => rfl

theorem ep0TxChunk_withCore (h : s.core.SameApp c)
    (hin : s.ep0TxPtr.object.Contains s.ep0TxPtr.offset s.ep0TxRemaining) :
    (s.withCore c).ep0TxChunk = s.ep0TxChunk.withCore c := by
  have hle : (if ep0MaxSize < s.ep0TxRemaining then ep0MaxSize else s.ep0TxRemaining) ≤
      s.ep0TxRemaining := by split_ifs <;> omega
  have hpma : (s.withCore c).ep0TxChunk.pma = s.ep0TxChunk.pma :=
    congrArg (fun pma : Pma => pma.write (btableOffset + 2) _)
      (pmaWrite_congr (fun i hi => txByte_withCore h hin (hi.trans_le hle)) ep0TxOffset s.pma)
  have hframe : (s.withCore c).ep0TxChunk =
      { s.ep0TxChunk.withCore c with pma := (s.withCore c).ep0TxChunk.pma } := rfl
  rw [hframe, hpma]
  rfl

theorem ep0Send_withCore (h : s.core.SameApp c) {data : TxPtr} {len : ℕ}
    (hin : data.object.Contains data.offset len) :
    (s.withCore c).ep0Send data len = (s.ep0Send data len).withCore c := by
  have hclip : (if s.ep0ReqLen < len then s.ep0ReqLen else len) ≤ len := by split_ifs <;> omega
  exact congrArg (fun t : Machine => { t with ep0r := t.ep0r.setRxStatus EpStat.valid })
    (@ep0TxChunk_withCore { s with
      ep0TxPtr := data
      ep0TxRemaining := if s.ep0ReqLen < len then s.ep0ReqLen else len
      ep0TxNeedZlp := 0 < (if s.ep0ReqLen < len then s.ep0ReqLen else len) ∧
        (if s.ep0ReqLen < len then s.ep0ReqLen else len) < s.ep0ReqLen ∧
        (if s.ep0ReqLen < len then s.ep0ReqLen else len) % ep0MaxSize = 0 } c h (hin.take hclip))

theorem runCall_withCore (h : s.core.SameApp c) {call : Ep0Call} (hcall : call.Inside) :
    (s.withCore c).runCall call = (s.runCall call).withCore c := by
  cases call with
  | reply bytes =>
    exact @ep0Send_withCore { s with
      ep0Reply := overwrite s.ep0Reply 0 bytes.length (ofList bytes) } c h _ _
      ((Nat.zero_add _).trans_le hcall)
  | send data len => exact ep0Send_withCore h hcall
  | sendZlp => rfl
  | stall => rfl
  | enableRx => rfl

theorem handleEp0In_withCore (h : s.core.SameApp c)
    (hin : s.ep0TxPtr.object.Contains s.ep0TxPtr.offset s.ep0TxRemaining) :
    (s.withCore c).handleEp0In = s.handleEp0In.withCore c := by
  by_cases hrem : 0 < s.ep0TxRemaining
  · have hrem' : 0 < (s.withCore c).ep0TxRemaining := hrem
    rw [handleEp0In_of_remaining hrem, handleEp0In_of_remaining hrem']
    exact @ep0TxChunk_withCore { s with ep0r := s.ep0r.clearCtrTx } c h hin
  have hrem' : ¬ 0 < (s.withCore c).ep0TxRemaining := hrem
  by_cases hzlp : s.ep0TxNeedZlp = true
  · have hzlp' : (s.withCore c).ep0TxNeedZlp = true := hzlp
    rw [handleEp0In_of_needZlp hrem hzlp, handleEp0In_of_needZlp hrem' hzlp']
    rfl
  · have hmid : ¬ s.MidTransfer := not_or.mpr ⟨hrem, hzlp⟩
    have hmid' : ¬ (s.withCore c).MidTransfer := hmid
    rw [handleEp0In_of_not_midTransfer hmid, handleEp0In_of_not_midTransfer hmid']
    rfl

end Engine

/-- Two machines in the same state over the same application. -/
structure SameApp (s s' : Machine) : Prop where
  core : s.core.SameApp s'.core
  rest : s' = s.withCore s'.core

namespace SameApp

variable {s s' : Machine}

theorem latchIn (h : s.SameApp s') (tx : Bool) : (s.latchIn tx).SameApp (s'.latchIn tx) := by
  obtain ⟨hcore, hrest⟩ := h
  rw [hrest]
  cases tx with
  | false => exact ⟨hcore, rfl⟩
  | true => exact ⟨hcore, rfl⟩

theorem receive (h : s.SameApp s') (hlen : s.core.dfu.bufferLen ≤ dfuXferSize) (rx : RxPacket) :
    (s.receive rx).SameApp (s'.receive rx) := by
  obtain ⟨hcore, hrest⟩ := h
  generalize s'.core = c at hcore hrest
  subst hrest
  cases rx with
  | setup p =>
    obtain ⟨hcall, hafter⟩ := hcore.request hlen p
    rw [receive_setup, receive_setup]
    change SameApp _ (Machine.runCall (request p c).2 _)
    rw [hcall]
    have hrun := @runCall_withCore { { s.latchRx (.setup p) with
      istr := ⟨false, true, 0⟩ }.abandonTransfer p with
        core := (request p s.core).1
        pendingAddress := addressAfter p s.pendingAddress } _ hafter _ (request_inside p s.core)
    refine ⟨?_, ?_⟩
    · rw [runCall_core, runCall_core]
      exact hafter
    · rw [runCall_core]
      exact hrun
  | out d =>
    have hdfu : (s.withCore c).core.dfu = s.core.dfu := hcore.dfu
    rw [receive_out, receive_out, hdfu]
    dsimp only
    split_ifs
    · exact ⟨⟨rfl, hcore.flash⟩, rfl⟩
    · exact ⟨⟨rfl, hcore.flash⟩, rfl⟩
    · exact ⟨hcore, rfl⟩

theorem handleEp0In (h : s.SameApp s') (hin : s.TxInside) :
    s.handleEp0In.SameApp s'.handleEp0In := by
  obtain ⟨hcore, hrest⟩ := h
  have heq := handleEp0In_withCore hcore hin.remaining
  rw [← hrest] at heq
  refine ⟨?_, ?_⟩
  · rw [handleEp0In_core, handleEp0In_core]
    exact hcore
  · rw [handleEp0In_core]
    exact heq

theorem step (h : s.SameApp s') (hs : s.Ep0Consistent) (hin : s.TxInside)
    (hlen : s.core.dfu.bufferLen ≤ dfuXferSize) (e : UsbEvent) : (s.step e).SameApp (s'.step e) := by
  have hq : s'.Quiet := by
    rw [h.rest]
    exact hs.quiet
  rcases e with _ | _ | ⟨_ | rx, tx⟩
  · rw [h.rest]
    exact ⟨h.core, rfl⟩
  · rw [h.rest]
    exact ⟨⟨congrArg Dfu.usbReset h.core.dfu, h.core.flash⟩, rfl⟩
  · cases tx with
    | false =>
      rw [step_none hs.quiet, step_none hq, h.rest]
      exact ⟨h.core, rfl⟩
    | true =>
      rw [step_inDone hs.quiet, step_inDone hq]
      apply handleEp0In
      · rw [h.rest]
        exact ⟨h.core, rfl⟩
      · exact (latchIn_txInside hin true).frame rfl rfl rfl rfl rfl id
  · have hlatch : (s.latchIn tx).core.dfu.bufferLen ≤ dfuXferSize := by
      rw [latchIn_core]
      exact hlen
    have hrx := (h.latchIn tx).receive hlatch rx
    rw [step_rx hs.quiet, step_rx hq]
    split_ifs
    · exact hrx.handleEp0In
        (receive_txInside (latchIn_txInside hin tx) (latchIn_txBounded hs.txBounded tx) rx)
    · exact hrx

theorem seen_eq (h : s.SameApp s') : s.seen = s'.seen := by
  rw [h.rest]
  rfl

theorem noticed_eq (h : s.SameApp s') (hs : s.Ep0Consistent) (hin : s.TxInside)
    (hlen : s.core.dfu.bufferLen ≤ dfuXferSize) (e : UsbEvent) : s.noticed e = s'.noticed e := by
  have hstep := h.step hs hin hlen e
  unfold noticed asked
  rw [hstep.seen_eq, hstep.core.flash.log, h.core.flash.log]

theorem outputs_noticed {mem mem' : ℕ → UInt8} (hmem : ∀ x, InRegion x 1 → mem' x = mem x)
    (faults : ℕ → Fault) : StepSystem.SameOutputs Machine.step noticed (start mem faults)
      (start mem' faults) := by
  have hstart : (start mem faults).Reachable := ⟨mem, faults, [], rfl⟩
  intro es
  apply And.left
  apply StepSystem.outputs_bisimulation fun s s' : Machine => s.Reachable ∧ s.SameApp s'
  · intro s s' e ⟨hs, h⟩
    exact ⟨hs.run [e], h.step hs.ep0Consistent hs.txInside hs.stable.consistent.bufferLen_le e⟩
  · intro s s' e ⟨hs, h⟩
    exact h.noticed_eq hs.ep0Consistent hs.txInside hs.stable.consistent.bufferLen_le e
  · exact ⟨hstart, ⟨rfl, hmem, rfl, rfl, rfl⟩, rfl⟩

end SameApp

section Upload

variable {s s' : Machine}

theorem noticed_inj {e : UsbEvent} (h : s.noticed e = s'.noticed e) :
    (s.step e).offered = (s'.step e).offered := by
  unfold noticed seen at h
  injection h with h
  exact congrArg (fun x => x.1.2.2) h

/-- A host that reads a data stage finds out nothing that a sequence of events does not. -/
theorem readData_congr (h : StepSystem.SameOutputs step noticed s s')
    (hoffered : s.offered = s'.offered) (fuel want : ℕ) :
    (s.readData fuel want).1 = (s'.readData fuel want).1 := by
  induction fuel generalizing s s' want with
  | zero => rfl
  | succ fuel ih =>
    unfold Machine.readData
    rw [hoffered]
    cases s'.offered with
    | none => rfl
    | some packet =>
      have hrest := ih (h.after .inDone) (noticed_inj (h.out_eq .inDone)) (want - packet.length)
      dsimp only
      split_ifs
      · rfl
      · dsimp only
        rw [hrest]

theorem readRequest_congr (h : StepSystem.SameOutputs step noticed s s') (p : SetupPacket) :
    (s.readRequest p).1 = (s'.readRequest p).1 :=
  readData_congr (h.after _) (noticed_inj (h.out_eq _)) _ _

def uploadAround (x : ℕ) : SetupPacket :=
  .upload (UInt16.ofNat ((x - appFlashStart.toNat) / 1024 + 2)) 1024

/-- After `dfu_init` every byte of the application is in the answer to one UPLOAD. -/
theorem start_readRequest (mem : ℕ → UInt8) (faults : ℕ → Fault) {x : ℕ} (hx : InRegion x 1) :
    ((start mem faults).readRequest (uploadAround x)).1[(x - appFlashStart.toNat) % 1024]? =
      some (mem x) := by
  obtain ⟨hlo, hhi⟩ := hx
  have hptr : (start mem faults).core.dfu.addressPtr.toNat = appFlashStart.toNat := rfl
  have hmod := Nat.mod_lt (x - appFlashStart.toNat) (by decide : 0 < 1024)
  have hdiv := Nat.div_add_mod' (x - appFlashStart.toNat) 1024
  obtain ⟨hblock, haddr, hlength⟩ := @walk_block (start mem faults).core.dfu
    (by rw [hptr]; decide) ((x - appFlashStart.toNat) / 1024) (by omega)
  have hvalue : (uploadAround x).wValue.toNat = (x - appFlashStart.toNat) / 1024 + 2 := hblock
  have hread := @readRequest_bytes (start mem faults) (uploadAround x) (start_quiet mem faults)
    (Or.inl rfl) (upload_isDfu _ _) ((Nat.le_add_left _ _).trans hvalue.ge) (Nat.succ_pos 1023)
  have hcount : uploadLength (uploadAround x) (start mem faults).core.dfu = _ := hlength
  have hsum : appFlashStart.toNat + (x - appFlashStart.toNat) / 1024 * 1024 +
      (x - appFlashStart.toNat) % 1024 = x := by omega
  rw [hvalue, haddr, hptr, hcount, hptr] at hread
  rw [hread, getElem?_toList, hsum]
  · rfl
  · apply lt_min hmod
    omega

end Upload

/-- A host learns of the flash what the application region holds, and nothing else: no sequence of
events tells two devices apart exactly if their contents agree there, whatever the bootloader's own
pages and the settings page hold. -/
theorem host_sees_application_only (mem mem' : ℕ → UInt8) (faults : ℕ → Fault) :
    (∀ es, StepSystem.outputs step noticed (start mem faults) es =
      StepSystem.outputs step noticed (start mem' faults) es) ↔
      ∀ x, InRegion x 1 → mem' x = mem x := by
  refine ⟨fun h x hx => ?_, fun hmem => SameApp.outputs_noticed hmem faults⟩
  have hread := readRequest_congr h (uploadAround x)
  have hbyte := start_readRequest mem faults hx
  rw [hread, start_readRequest mem' faults hx] at hbyte
  exact Option.some.inj hbyte

end Machine

end NovaBootloader
