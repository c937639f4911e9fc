import NovaBootloader.Ep0Bounds
import NovaBootloader.Twins

/-!
# What ABORT and a bus reset forget

Two machines with twin cores and the same transfer on EP0 answer every event alike. After ABORT, after
a bus reset and after `dfu_init` the cores are twins and no transfer is left, whatever came before.
-/

namespace NovaBootloader
open ByteMemory

namespace Machine

/-- The same transfer is in progress on EP0; what is on offer already is compared on demand. -/
structure Alike (compared : Prop) (s s' : Machine) : Prop where
  ptr : s'.ep0TxPtr = s.ep0TxPtr
  remaining : s'.ep0TxRemaining = s.ep0TxRemaining
  needZlp : s'.ep0TxNeedZlp = s.ep0TxNeedZlp
  object : 0 < s.ep0TxRemaining → s.ep0TxPtr.object ≠ .ep0Reply
  statRx : s'.ep0r.statRx = s.ep0r.statRx
  statTx : compared → s'.ep0r.statTx = s.ep0r.statTx
  packet : compared → s.ep0r.statTx = EpStat.valid → s'.txPacket = s.txPacket

section Engine

variable {s s' : Machine} {compared : Prop}

theorem txByte_object_congr (hmem : s'.core.flash.mem = s.core.flash.mem) {p : TxPtr}
    (hobject : p.object ≠ .ep0Reply) : s'.txByte p = s.txByte p := by
  funext i
  unfold txByte
  rw [hmem]
  cases hp : p.object with
  | ep0Reply => exact absurd hp hobject
  | _ => rfl

theorem Alike.of_idle (hptr : s.ep0TxPtr = .null) (hptr' : s'.ep0TxPtr = .null)
    (hrem : s.ep0TxRemaining = 0) (hrem' : s'.ep0TxRemaining = 0)
    (hzlp : s.ep0TxNeedZlp = false) (hzlp' : s'.ep0TxNeedZlp = false)
    (hrx : s'.ep0r.statRx = s.ep0r.statRx)
    (htx : compared → s'.ep0r.statTx = s.ep0r.statTx)
    (hpacket : compared → s.ep0r.statTx = EpStat.valid → s'.txPacket = s.txPacket) :
    Alike compared s s' :=
  ⟨hptr'.trans hptr.symm, hrem'.trans hrem.symm, hzlp'.trans hzlp.symm,
    fun h => absurd h (by omega), hrx, htx, hpacket⟩

theorem ep0Send_alike (s s' : Machine) (hreq : s'.ep0ReqLen = s.ep0ReqLen) {data : TxPtr} {len : ℕ}
    (hbytes : ∀ i < len, s'.txByte data i = s.txByte data i)
    (hlong : ep0MaxSize < len → data.object ≠ .ep0Reply) :
    Alike compared (s.ep0Send data len) (s'.ep0Send data len) := by
  refine ⟨?_, ?_, ?_, fun hpos => ?_, ?_, fun _ => ?_, fun _ _ => ?_⟩
  · rw [ep0Send_ptr, ep0Send_ptr, hreq]
  · unfold ep0Send ep0TxChunk
    dsimp only
    rw [hreq]
  · unfold ep0Send ep0TxChunk
    dsimp only
    rw [hreq]
  · rw [ep0Send_ptr]
    apply hlong
    unfold ep0Send ep0TxChunk at hpos
    dsimp only at hpos
    split_ifs at hpos <;> omega
  · simp [ep0Send]
  · simp [ep0Send, ep0TxChunk]
  · rw [ep0Send_txPacket, ep0Send_txPacket, hreq]
    apply toList_congr
    intro i hi
    exact hbytes i (by omega)

theorem ep0SendZlp_alike (s s' : Machine) : Alike compared s.ep0SendZlp s'.ep0SendZlp := by
  refine .of_idle rfl rfl rfl rfl rfl rfl ?_ (fun _ => ?_) fun _ _ => ?_
  · simp [ep0SendZlp]
  · simp [ep0SendZlp]
  · rw [ep0SendZlp_txPacket, ep0SendZlp_txPacket]

theorem Alike.runCall (h : Alike compared s s') (hreq : s'.ep0ReqLen = s.ep0ReqLen)
    (hmem : s'.core.flash.mem = s.core.flash.mem) {call : Ep0Call}
    (hcall : call.Short ∨ ∃ data len, call = .send data len ∧ data.object = .flash) :
    Alike compared (s.runCall call) (s'.runCall call) := by
  cases call with
  | reply bytes =>
    have hshort : bytes.length < ep0MaxSize := by
      rcases hcall with hshort | ⟨data, len, hsend, -⟩
      · exact hshort
      · exact Ep0Call.noConfusion hsend
    apply ep0Send_alike
    · exact hreq
    · intro i hi
      change overwrite s'.ep0Reply 0 bytes.length (ofList bytes) (0 + i) =
        overwrite s.ep0Reply 0 bytes.length (ofList bytes) (0 + i)
      rw [overwrite_of_mem (by omega) (by omega), overwrite_of_mem (by omega) (by omega)]
    · intro hlong
      omega
  | send data len =>
    have hobject : data.object ≠ .ep0Reply := by
      rcases hcall with hshort | ⟨data', len', hsend, hflash⟩
      · exact hshort.2
      · injection hsend with hdata
        rw [hdata, hflash]
        exact TxObject.noConfusion
    apply ep0Send_alike
    · exact hreq
    · intro i _
      rw [txByte_object_congr hmem hobject]
    · exact fun _ => hobject
  | sendZlp => exact ep0SendZlp_alike s s'
  | stall =>
    refine .of_idle rfl rfl rfl rfl rfl rfl ?_ (fun _ => ?_) fun _ hv => ?_
    · simp [Machine.runCall, ep0Stall]
    · simp [Machine.runCall, ep0Stall]
    · simp [Machine.runCall, ep0Stall, EpStat.stall, EpStat.valid] at hv
  | enableRx =>
    refine ⟨h.ptr, h.remaining, h.needZlp, h.object, ?_, fun hc => ?_, fun hc hv => h.packet hc ?_⟩
    · simp [Machine.runCall]
    · simpa [Machine.runCall] using h.statTx hc
    · simpa [Machine.runCall] using hv

end Engine

section Step

variable {s s' : Machine} {compared : Prop}

/-- A SETUP packet abandons the old transfer, so twin cores are enough for the new one. -/
theorem receive_setup_alike (hcore : s.core.Twins s'.core)
    (hlen : s.core.dfu.bufferLen ≤ dfuXferSize) (p : SetupPacket) :
    Alike compared (s.receive (.setup p)) (s'.receive (.setup p)) := by
  obtain ⟨hcall, hafter⟩ := hcore.request hlen p
  rw [receive_setup, receive_setup, hcall]
  apply Alike.runCall
  · refine .of_idle rfl rfl rfl rfl rfl rfl ?_ (fun _ => ?_) fun _ hv => ?_
    · simp [abandonTransfer, latchRx]
    · simp [abandonTransfer, latchRx]
    · simp [abandonTransfer, latchRx, EpStat.nak, EpStat.valid] at hv
  · rfl
  · exact hafter.flash.mem
  · exact request_short_or_flash p s.core

theorem Alike.receive_out (h : Alike compared s s') (hcore : s.core.Twins s'.core)
    (hb : s.TxBounded) (hb' : s'.TxBounded) (d : OutPacket) :
    Alike compared (s.receive (.out d)) (s'.receive (.out d)) := by
  have hlatch (hc : compared) (hv : s.ep0r.statTx = EpStat.valid) :
      (s'.latchRx (.out d)).txPacket = (s.latchRx (.out d)).txPacket := by
    rw [latchRx_txPacket hb, latchRx_txPacket hb', h.packet hc hv]
  have hkeep {t t' : Machine} (ht : Alike compared t t') : Alike compared
      { t with ep0r := t.ep0r.clearCtrRx.setRxStatus EpStat.valid }
      { t' with ep0r := t'.ep0r.clearCtrRx.setRxStatus EpStat.valid } := by
    refine ⟨ht.ptr, ht.remaining, ht.needZlp, ht.object, ?_, fun hc => ?_, fun hc hv => ?_⟩
    · simp
    · simpa using ht.statTx hc
    · exact ht.packet hc (by simpa using hv)
  have hbase {core core' : Core} : Alike compared
      { s.latchRx (.out d) with istr := ⟨false, true, 0⟩, core := core }
      { s'.latchRx (.out d) with istr := ⟨false, true, 0⟩, core := core' } :=
    ⟨h.ptr, h.remaining, h.needZlp, h.object, rfl, h.statTx, hlatch⟩
  rw [Machine.receive_out, Machine.receive_out, hcore.dfu.state]
  dsimp only
  by_cases hdata : s.core.dfu.state = .dnloadSync ∧ 0 < d.bytes.length
  · obtain ⟨hdone, -⟩ := hcore.dfu.dataStage (Or.inl hdata.1) (ofList d.bytes) d.bytes.length
    rw [if_pos hdata, if_pos hdata, hdone]
    split_ifs
    · exact hkeep (ep0SendZlp_alike _ _)
    · exact hkeep hbase
  · rw [if_neg hdata, if_neg hdata]
    exact hkeep hbase

theorem Alike.ep0TxChunk (h : Alike compared s s') (hmem : s'.core.flash.mem = s.core.flash.mem)
    (hpos : 0 < s.ep0TxRemaining) : Alike compared s.ep0TxChunk s'.ep0TxChunk := by
  refine ⟨?_, ?_, h.needZlp, fun _ => h.object hpos, ?_, fun _ => ?_, fun _ _ => ?_⟩
  · unfold Machine.ep0TxChunk
    dsimp only
    rw [h.ptr, h.remaining]
  · unfold Machine.ep0TxChunk
    dsimp only
    rw [h.remaining]
  · simpa [Machine.ep0TxChunk] using h.statRx
  · simp [Machine.ep0TxChunk]
  · rw [ep0TxChunk_txPacket, ep0TxChunk_txPacket, h.ptr, h.remaining,
      txByte_object_congr hmem (h.object hpos)]

theorem Alike.handleEp0In (h : Alike compared s s') (hmem : s'.core.flash.mem = s.core.flash.mem) :
    Alike compared s.handleEp0In s'.handleEp0In := by
  have hclear : Alike compared { s with ep0r := s.ep0r.clearCtrTx }
      { s' with ep0r := s'.ep0r.clearCtrTx } := by
    refine ⟨h.ptr, h.remaining, h.needZlp, h.object, ?_, fun hc => ?_, fun hc hv => ?_⟩
    · simpa using h.statRx
    · simpa using h.statTx hc
    · exact h.packet hc (by simpa using hv)
  by_cases hrem : 0 < s.ep0TxRemaining
  · have hrem' : 0 < s'.ep0TxRemaining := h.remaining ▸ hrem
    rw [handleEp0In_of_remaining hrem, handleEp0In_of_remaining hrem']
    exact hclear.ep0TxChunk hmem hrem
  have hrem' : ¬ 0 < s'.ep0TxRemaining := h.remaining ▸ hrem
  by_cases hzlp : s.ep0TxNeedZlp = true
  · have hzlp' : s'.ep0TxNeedZlp = true := h.needZlp ▸ hzlp
    rw [handleEp0In_of_needZlp hrem hzlp, handleEp0In_of_needZlp hrem' hzlp']
    refine ⟨h.ptr, h.remaining, rfl, h.object, ?_, fun _ => ?_, fun _ _ => ?_⟩
    · simpa using h.statRx
    · simp
    · simp [txPacket, txCount, Pma.read_write_self, toList]
  · have hmid : ¬ s.MidTransfer := not_or.mpr ⟨hrem, hzlp⟩
    have hmid' : ¬ s'.MidTransfer := by
      unfold MidTransfer
      rw [h.remaining, h.needZlp]
      exact hmid
    rw [handleEp0In_of_not_midTransfer hmid, handleEp0In_of_not_midTransfer hmid']
    exact ⟨hclear.ptr, hclear.remaining, hclear.needZlp, hclear.object, hclear.statRx,
      hclear.statTx, hclear.packet⟩

theorem Alike.latchIn (h : Alike compared s s') (tx : Bool) :
    Alike compared (s.latchIn tx) (s'.latchIn tx) := by
  cases tx with
  | false => exact h
  | true =>
    refine ⟨h.ptr, h.remaining, h.needZlp, h.object, h.statRx, fun _ => rfl, fun hc hv => ?_⟩
    simp [Machine.latchIn, latchTx, EpStat.nak, EpStat.valid] at hv

theorem step_reset_alike (s s' : Machine) : Alike compared (s.step .reset) (s'.step .reset) := by
  obtain ⟨hrx, htx⟩ := step_reset_status s
  obtain ⟨hrx', htx'⟩ := step_reset_status s'
  refine .of_idle rfl rfl rfl rfl rfl rfl (hrx'.trans hrx.symm) (fun _ => htx'.trans htx.symm)
    fun _ hv => ?_
  rw [htx] at hv
  exact absurd hv (by decide)

/-- Two machines that no event can tell apart. -/
structure Indistinct (compared : Prop) (s s' : Machine) : Prop where
  core : s.core.Twins s'.core
  engine : Alike compared s s'
  consistent : s.core.dfu.Consistent
  consistent' : s'.core.dfu.Consistent
  ep0 : s.Ep0Consistent
  ep0' : s'.Ep0Consistent

theorem Indistinct.receive (h : Indistinct compared s s') (rx : RxPacket) (tx : Bool) :
    Alike compared ((s.latchIn tx).receive rx) ((s'.latchIn tx).receive rx) := by
  have hcore : (s.latchIn tx).core.Twins (s'.latchIn tx).core := by
    rw [latchIn_core, latchIn_core]
    exact h.core
  cases rx with
  | setup p =>
    apply receive_setup_alike hcore
    rw [latchIn_core]
    exact h.consistent.bufferLen_le
  | out d =>
    exact (h.engine.latchIn tx).receive_out hcore (latchIn_txBounded h.ep0.txBounded tx)
      (latchIn_txBounded h.ep0'.txBounded tx) d

theorem Indistinct.step_alike (h : Indistinct compared s s') (e : UsbEvent) :
    Alike compared (s.step e) (s'.step e) := by
  have hregs {t t' : Machine} (ht : Alike compared t t') : Alike compared
      { t with istr := ⟨false, true, 0⟩ } { t' with istr := ⟨false, true, 0⟩ } :=
    ⟨ht.ptr, ht.remaining, ht.needZlp, ht.object, ht.statRx, ht.statTx, ht.packet⟩
  rcases e with _ | _ | ⟨_ | rx, tx⟩
  · exact ⟨h.engine.ptr, h.engine.remaining, h.engine.needZlp, h.engine.object, h.engine.statRx,
      h.engine.statTx, h.engine.packet⟩
  · exact step_reset_alike s s'
  · cases tx with
    | false =>
      rw [step_none h.ep0.quiet, step_none h.ep0'.quiet]
      exact hregs h.engine
    | true =>
      rw [step_inDone h.ep0.quiet, step_inDone h.ep0'.quiet]
      exact (hregs (h.engine.latchIn true)).handleEp0In h.core.flash.mem
  · have hrx := h.receive rx tx
    rw [step_rx h.ep0.quiet, step_rx h.ep0'.quiet]
    cases tx with
    | false => exact hrx
    | true =>
      have hmem := (h.core.coreStep h.consistent.bufferLen_le (.ctr (some rx) true)).flash.mem
      apply hrx.handleEp0In
      rw [receive_core _ rx true, receive_core _ rx true]
      exact hmem

theorem Indistinct.step (h : Indistinct compared s s') (e : UsbEvent) :
    Indistinct compared (s.step e) (s'.step e) where
  core := by
    rw [step_core h.ep0.quiet, step_core h.ep0'.quiet]
    exact h.core.coreStep h.consistent.bufferLen_le e
  engine := h.step_alike e
  consistent := by
    rw [step_core h.ep0.quiet]
    exact coreStep_consistent h.consistent e
  consistent' := by
    rw [step_core h.ep0'.quiet]
    exact coreStep_consistent h.consistent' e
  ep0 := h.ep0.step e
  ep0' := h.ep0'.step e

end Step

section Observation

/-- What EP0 tells the host: both status fields and the packet for the next IN token. -/
def seen (s : Machine) : EpStat × EpStat × Option (List UInt8) :=
  (s.ep0r.statTx, s.ep0r.statRx, s.offered)

def silence (s : Machine) : Machine := { s with ep0r := { s.ep0r with statTx := EpStat.nak } }

/-- What the host and the flash see of one event. -/
def noticed (s : Machine) (e : UsbEvent) :
    List ((EpStat × EpStat × Option (List UInt8)) × List FlashEvent) :=
  [((s.step e).seen, s.asked e)]

/-- The same, but of EP0 only what this event has brought about. -/
def answered (s : Machine) (e : UsbEvent) :
    List ((EpStat × EpStat × Option (List UInt8)) × List FlashEvent) :=
  [((s.silence.step e).seen, s.asked e)]

variable {s s' : Machine} {compared : Prop}

theorem Alike.seen_eq (h : Alike True s s') : s.seen = s'.seen := by
  unfold seen offered
  rw [h.statTx trivial, h.statRx]
  by_cases hv : s.ep0r.statTx = EpStat.valid
  · rw [h.packet trivial hv]
  · rw [if_neg hv, if_neg hv]

theorem Indistinct.asked_eq (h : Indistinct compared s s') (e : UsbEvent) :
    s.asked e = s'.asked e := by
  have hs : s.Stable := ⟨h.ep0.quiet, h.consistent⟩
  have hs' : s'.Stable := ⟨h.ep0'.quiet, h.consistent'⟩
  rw [hs.asked_eq, hs'.asked_eq, h.core.eventLog_eq]

theorem Indistinct.silence (h : Indistinct compared s s') : Indistinct True s.silence s'.silence where
  core := h.core
  engine := by
    refine ⟨h.engine.ptr, h.engine.remaining, h.engine.needZlp, h.engine.object, h.engine.statRx,
      fun _ => rfl, fun _ hv => ?_⟩
    exact absurd hv (by decide : EpStat.nak ≠ EpStat.valid)
  consistent := h.consistent
  consistent' := h.consistent'
  ep0 := ⟨h.ep0.quiet, h.ep0.txBounded, h.ep0.uploadsOnly⟩
  ep0' := ⟨h.ep0'.quiet, h.ep0'.txBounded, h.ep0'.uploadsOnly⟩

theorem Indistinct.outputs_noticed (h : Indistinct True s s') (es : List UsbEvent) :
    StepSystem.outputs Machine.step noticed s es =
      StepSystem.outputs Machine.step noticed s' es := by
  apply And.left
  apply StepSystem.outputs_bisimulation (Indistinct True)
  · exact fun _ _ e h => h.step e
  · intro s s' e h
    unfold noticed
    rw [(h.step e).engine.seen_eq, h.asked_eq]
  · exact h

theorem Indistinct.outputs_answered (h : Indistinct compared s s') (es : List UsbEvent) :
    StepSystem.outputs Machine.step answered s es =
      StepSystem.outputs Machine.step answered s' es := by
  apply And.left
  apply StepSystem.outputs_bisimulation (Indistinct compared)
  · exact fun _ _ e h => h.step e
  · intro s s' e h
    unfold answered
    rw [(h.silence.step e).engine.seen_eq, h.asked_eq]
  · exact h

end Observation

section Forgotten

/-- ABORT would find nothing to do. -/
structure Forgotten (s : Machine) : Prop where
  dfu : (handleDfuAbort s.core.dfu).1 = s.core.dfu
  ptr : s.ep0TxPtr = .null
  remaining : s.ep0TxRemaining = 0
  needZlp : s.ep0TxNeedZlp = false
  statRx : s.ep0r.statRx = EpStat.valid
  packet : s.ep0r.statTx = EpStat.valid → s.txPacket = []
  consistent : s.core.dfu.Consistent
  ep0 : s.Ep0Consistent

variable {s s' : Machine}

/-- Of what came before only the flash is left, and the packet on offer. -/
theorem Forgotten.indistinct {compared : Prop} (h : s.Forgotten) (h' : s'.Forgotten)
    (hflash : s.core.flash.Twins s'.core.flash)
    (hstat : compared → s'.ep0r.statTx = s.ep0r.statTx) : Indistinct compared s s' where
  core := by
    refine ⟨?_, hflash⟩
    rw [← h.dfu, ← h'.dfu]
    exact .abort _ _
  engine := by
    refine .of_idle h.ptr h'.ptr h.remaining h'.remaining h.needZlp h'.needZlp ?_ hstat
      fun hc hv => ?_
    · rw [h.statRx, h'.statRx]
    · rw [h.packet hv, h'.packet ((hstat hc).trans hv)]
  consistent := h.consistent
  consistent' := h'.consistent
  ep0 := h.ep0
  ep0' := h'.ep0

theorem start_forgotten (mem : ℕ → UInt8) (faults : ℕ → Fault) : (start mem faults).Forgotten where
  dfu := rfl
  ptr := rfl
  remaining := rfl
  needZlp := rfl
  statRx := by
    change EpReg.zero.configure.statRx = EpStat.valid
    decide
  packet := fun hv => absurd hv (by decide : EpReg.zero.configure.statTx ≠ EpStat.valid)
  consistent := (start_stable mem faults).consistent
  ep0 := start_ep0Consistent mem faults

theorem reset_forgotten (hs : s.Reachable) : (s.step .reset).Forgotten := by
  obtain ⟨hrx, htx⟩ := step_reset_status s
  refine ⟨rfl, rfl, rfl, rfl, hrx, fun hv => ?_, (hs.stable.step _).consistent,
    hs.ep0Consistent.step _⟩
  rw [htx] at hv
  exact absurd hv (by decide)

structure Acknowledging (s : Machine) : Prop where
  ptr : s.ep0TxPtr = .null
  remaining : s.ep0TxRemaining = 0
  needZlp : s.ep0TxNeedZlp = false
  statRx : s.ep0r.statRx = EpStat.valid
  statTx : s.ep0r.statTx = EpStat.valid
  packet : s.txPacket = []

theorem ep0SendZlp_acknowledging (s : Machine) : s.ep0SendZlp.Acknowledging := by
  refine ⟨rfl, rfl, rfl, ?_, ?_, ep0SendZlp_txPacket s⟩
  · simp [ep0SendZlp]
  · simp [ep0SendZlp]

theorem Acknowledging.handleEp0In (h : s.Acknowledging) : s.handleEp0In.Acknowledging := by
  rw [handleEp0In_of_not_midTransfer (not_midTransfer_of_zero h.remaining h.needZlp)]
  refine ⟨h.ptr, h.remaining, h.needZlp, ?_, ?_, h.packet⟩
  · simpa using h.statRx
  · simpa using h.statTx

theorem abort_acknowledging (hq : s.Quiet) {p : SetupPacket} (hp : p.IsDfu dfuAbort) (tx : Bool) :
    (s.step (.ctr (some (.setup p)) tx)).Acknowledging := by
  have hcall : (request p (s.latchIn tx).core).2 = .sendZlp := by
    rw [request_abort hp]
    rfl
  have hrx : ((s.latchIn tx).receive (.setup p)).Acknowledging := by
    rw [receive_setup, hcall]
    exact ep0SendZlp_acknowledging _
  rw [step_rx hq]
  cases tx with
  | false => exact hrx
  | true => exact hrx.handleEp0In

theorem abort_core (hq : s.Quiet) {p : SetupPacket} (hp : p.IsDfu dfuAbort) (tx : Bool) :
    (s.step (.ctr (some (.setup p)) tx)).core =
      { s.core with dfu := (handleDfuAbort s.core.dfu).1 } := by
  rw [step_core hq, coreStep, request_abort hp]

theorem abort_forgotten (hs : s.Reachable) {p : SetupPacket} (hp : p.IsDfu dfuAbort) (tx : Bool) :
    (s.step (.ctr (some (.setup p)) tx)).Forgotten := by
  have hack := abort_acknowledging hs.quiet hp tx
  refine ⟨?_, hack.ptr, hack.remaining, hack.needZlp, hack.statRx, fun _ => hack.packet,
    (hs.stable.step _).consistent, hs.ep0Consistent.step _⟩
  rw [abort_core hs.quiet hp]
  rfl

/-- After ABORT, and after a bus reset, no history of the device shows: over the same flash contents
and the same hardware errors to come, every event is answered alike and asks the same of the flash.
Apart from the status stage ABORT has on offer, that is so after `dfu_init` too. -/
theorem abort_and_reset_forget (hs : s.Reachable) (hs' : s'.Reachable)
    (hmem : s'.core.flash.mem = s.core.flash.mem)
    (hfaults : ∀ k, s'.core.flash.faults (s'.core.flash.ops + k) =
      s.core.flash.faults (s.core.flash.ops + k))
    (p p' : SetupPacket) (hp : p.IsDfu dfuAbort) (hp' : p'.IsDfu dfuAbort) (tx tx' : Bool)
    (es : List UsbEvent) :
    let init := start s.core.flash.mem fun k => s.core.flash.faults (s.core.flash.ops + k)
    let aborted := s.step (.ctr (some (.setup p)) tx)
    let aborted' := s'.step (.ctr (some (.setup p')) tx')
    StepSystem.outputs step noticed aborted es = StepSystem.outputs step noticed aborted' es ∧
      StepSystem.outputs step noticed (s.step .reset) es =
        StepSystem.outputs step noticed (s'.step .reset) es ∧
      StepSystem.outputs step noticed (s.step .reset) es =
        StepSystem.outputs step noticed init es ∧
      StepSystem.outputs step answered aborted es = StepSystem.outputs step answered init es := by
  intro init aborted aborted'
  have hflash : s.core.flash.Twins s'.core.flash := ⟨hmem, hfaults⟩
  have hinit : s.core.flash.Twins init.core.flash := by
    refine ⟨rfl, fun k => ?_⟩
    change s.core.flash.faults (s.core.flash.ops + (0 + k)) = _
    rw [Nat.zero_add]
  have ha := abort_forgotten hs hp tx
  have ha' := abort_forgotten hs' hp' tx'
  have hr := reset_forgotten hs
  have hr' := reset_forgotten hs'
  have hi := start_forgotten s.core.flash.mem fun k => s.core.flash.faults (s.core.flash.ops + k)
  obtain ⟨-, hnak⟩ := step_reset_status s
  obtain ⟨-, hnak'⟩ := step_reset_status s'
  have haflash : aborted.core.flash = s.core.flash := by rw [abort_core hs.quiet hp]
  have haflash' : aborted'.core.flash = s'.core.flash := by rw [abort_core hs'.quiet hp']
  have hboth : Indistinct True aborted aborted' := by
    apply ha.indistinct ha'
    · rw [haflash, haflash']
      exact hflash
    · intro _
      rw [(abort_acknowledging hs.quiet hp tx).statTx, (abort_acknowledging hs'.quiet hp' tx').statTx]
  have hresets : Indistinct True (s.step .reset) (s'.step .reset) :=
    hr.indistinct hr' hflash fun _ => hnak'.trans hnak.symm
  have hresetInit : Indistinct True (s.step .reset) init := by
    apply hr.indistinct hi
    · exact hinit
    · rw [hnak]
      exact fun _ => (by decide : EpReg.zero.configure.statTx = EpStat.nak)
  have habortInit : Indistinct False aborted init := by
    apply ha.indistinct hi
    · rw [haflash]
      exact hinit
    · exact False.elim
  exact ⟨hboth.outputs_noticed es, hresets.outputs_noticed es, hresetInit.outputs_noticed es,
    habortInit.outputs_answered es⟩

/-- An erase command half received, and the same flash as `dfu_init` found it: ABORT makes up for
the difference. -/
theorem half_received_erase_forgotten :
    let s := erased.run [.setup (.dnload 0 5), .out (.ofBytes [0x41, 0x00])]
    let es : List UsbEvent := [.setup .getstatus, .setup (.dnload 0 5), .out (.ofBytes [0x21]),
      .setup .getstatus, .setup .getstatus]
    StepSystem.outputs step answered (s.step (.setup .abort)) es =
      StepSystem.outputs step answered
        (start s.core.flash.mem fun k => s.core.flash.faults (s.core.flash.ops + k)) es := by
  intro s es
  have hs : s.Reachable := ⟨_, _, _, rfl⟩
  have herased : erased.Reachable := ⟨_, _, [], rfl⟩
  exact (abort_and_reset_forget hs herased rfl (fun _ => rfl) .abort .abort (by decide)
    (by decide) false false es).2.2.2

end Forgotten

end Machine

end NovaBootloader
