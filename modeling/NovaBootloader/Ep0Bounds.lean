import NovaBootloader.Ep0Transfer

/-!
# What the EP0 engine reads and stores

`offered` is the packet the host gets with its next IN token. In every state between two polls that
packet, and the bytes still to be sent after it, lie inside the object the transmit pointer points
into, and the download buffer is never stored to past its end.
-/

namespace NovaBootloader
open ByteMemory

/-- The `n` bytes from `a` on belong to the object; in flash, to the application region. -/
def TxObject.Contains : TxObject → ℕ → ℕ → Prop
  | .null, _, n => n = 0
  | .deviceDescriptor, a, n => a + n ≤ NovaBootloader.deviceDescriptor.length
  | .configDescriptor, a, n => a + n ≤ NovaBootloader.configDescriptor.length
  | .string index, a, n => a + n ≤ (stringTable index).length
  | .ep0Reply, a, n => a + n ≤ 8
  | .flash, a, n => InRegion a n

namespace TxObject

variable {o : TxObject} {a n : ℕ}

theorem Contains.take (h : o.Contains a n) {m : ℕ} (hm : m ≤ n) : o.Contains a m := by
  cases o with
  | flash => exact ⟨h.1, (Nat.add_le_add_left hm a).trans h.2⟩
  | null => exact Nat.le_zero.mp (hm.trans (Nat.le_of_eq h))
  | _ => exact (Nat.add_le_add_left hm a).trans h

theorem Contains.drop (h : o.Contains a n) {m : ℕ} (hm : m ≤ n) : o.Contains (a + m) (n - m) := by
  have hsum : a + m + (n - m) = a + n := by omega
  cases o with
  | flash => exact ⟨h.1.trans (Nat.le_add_right a m), hsum.trans_le h.2⟩
  | null =>
    have hn : n = 0 := h
    exact Nat.sub_eq_zero_of_le (hn.trans_le (Nat.zero_le m))
  | _ => exact hsum.trans_le h

end TxObject

/-- A call hands the EP0 engine bytes of one object only, and replies fit into `ep0_reply`. -/
def Ep0Call.Inside : Ep0Call → Prop
  | .reply bytes => bytes.length ≤ 8
  | .send data len => data.object.Contains data.offset len
  | _ => True

theorem handleGetDescriptor_inside (value : UInt16) (len : ℕ) :
    (handleGetDescriptor value len).Inside := by
  have hclip (m : ℕ) : 0 + (if len < m then len else m) ≤ m := by split_ifs <;> omega
  unfold handleGetDescriptor
  dsimp only
  split_ifs
  · exact hclip NovaBootloader.deviceDescriptor.length
  · exact hclip NovaBootloader.configDescriptor.length
  · exact hclip (stringTable _).length
  · trivial
  · trivial

theorem handleDfuUpload_inside {block len : ℕ} (hlen : len < 2 ^ 16) (d : Dfu) :
    (handleDfuUpload block len d).2.Inside := by
  unfold handleDfuUpload
  dsimp only
  generalize d.addressPtr + UInt32.ofNat (block - 2) * UInt32.ofNat dfuXferSize = addr
  by_cases hs : d.state ≠ .idle ∧ d.state ≠ .uploadIdle
  · rw [if_pos hs]
    trivial
  rw [if_neg hs]
  by_cases hblock : block < 2
  · rw [if_pos hblock]
    trivial
  rw [if_neg hblock]
  by_cases hout : addr < appFlashStart ∨ appFlashEnd < addr
  · rw [if_pos hout]
    trivial
  · rw [if_neg hout]
    rw [UInt32.lt_iff_toNat_lt, UInt32.lt_iff_toNat_lt, not_or, not_lt, not_lt] at hout
    have hread := upload_clip hlen hout.1 hout.2
    change InRegion addr.toNat (if UInt32.ofNat len < appFlashEnd - addr + 1 then len
      else (appFlashEnd - addr + 1).toNat % 2 ^ 16)
    rw [hread]
    unfold InRegion
    omega

theorem request_inside (p : SetupPacket) (c : Core) : (Machine.request p c).2.Inside := by
  unfold Machine.request
  split_ifs
  · change (Machine.standardCall p).Inside
    unfold Machine.standardCall
    split_ifs
    · exact handleGetDescriptor_inside _ _
    · trivial
    · trivial
    · exact (by decide : 1 ≤ 8)
    · exact (by decide : 2 ≤ 8)
    · trivial
  · unfold dfuRequest
    dsimp only
    split_ifs
    · exact (by decide : 6 ≤ 8)
    · exact (by decide : 1 ≤ 8)
    · unfold handleDfuDnload
      split_ifs <;> trivial
    · exact handleDfuUpload_inside p.wLength.toNat_lt c.dfu
    · trivial
    · trivial
    · trivial
  · trivial

namespace Machine

/-- The packet is the last bytes of the object up to the transmit pointer. -/
def SentFrom (s : Machine) (packet : List UInt8) : Prop :=
  ∃ sent ≤ s.ep0TxPtr.offset,
    packet = toList (s.txByte ⟨s.ep0TxPtr.object, s.ep0TxPtr.offset - sent⟩) sent ∧
      s.ep0TxPtr.object.Contains (s.ep0TxPtr.offset - sent) sent

/-- The packet on offer and the bytes still to be sent are bytes of the object pointed into. -/
structure TxInside (s : Machine) : Prop where
  remaining : s.ep0TxPtr.object.Contains s.ep0TxPtr.offset s.ep0TxRemaining
  offered : s.ep0r.statTx = EpStat.valid → s.SentFrom s.txPacket

section Calls

variable {s : Machine}

theorem txByte_congr {s' : Machine} (hmem : s'.core.flash.mem = s.core.flash.mem)
    (hreply : s'.ep0Reply = s.ep0Reply) (p : TxPtr) : s'.txByte p = s.txByte p := by
  funext i
  unfold txByte
  rw [hmem, hreply]

theorem TxInside.frame {s' : Machine} (h : s.TxInside) (hptr : s'.ep0TxPtr = s.ep0TxPtr)
    (hrem : s'.ep0TxRemaining = s.ep0TxRemaining) (hmem : s'.core.flash.mem = s.core.flash.mem)
    (hreply : s'.ep0Reply = s.ep0Reply) (hpacket : s'.txPacket = s.txPacket)
    (hstat : s'.ep0r.statTx = EpStat.valid → s.ep0r.statTx = EpStat.valid) : s'.TxInside := by
  refine ⟨?_, fun hv => ?_⟩
  · rw [hptr, hrem]
    exact h.remaining
  · obtain ⟨sent, hsent, heq, hin⟩ := h.offered (hstat hv)
    unfold SentFrom
    rw [hpacket, hptr]
    refine ⟨sent, hsent, ?_, hin⟩
    rw [txByte_congr hmem hreply]
    exact heq

theorem TxInside.of_silent (hptr : s.ep0TxPtr = .null) (hrem : s.ep0TxRemaining = 0)
    (hstat : s.ep0r.statTx ≠ EpStat.valid) : s.TxInside := by
  refine ⟨?_, fun hv => absurd hv hstat⟩
  rw [hptr, hrem]
  rfl

theorem ep0TxChunk_txInside (h : s.ep0TxPtr.object.Contains s.ep0TxPtr.offset s.ep0TxRemaining) :
    s.ep0TxChunk.TxInside := by
  have hle : min s.ep0TxRemaining ep0MaxSize ≤ s.ep0TxRemaining := Nat.min_le_left _ _
  refine ⟨?_, fun _ => ⟨min s.ep0TxRemaining ep0MaxSize, ?_, ?_, ?_⟩⟩
  · rw [ep0TxChunk_ptr, ep0TxChunk_remaining]
    exact h.drop hle
  · rw [ep0TxChunk_ptr]
    exact Nat.le_add_left _ _
  · rw [ep0TxChunk_txPacket, ep0TxChunk_ptr, Nat.add_sub_cancel]
    rfl
  · rw [ep0TxChunk_ptr, Nat.add_sub_cancel]
    exact h.take hle

theorem ep0Send_txInside (s : Machine) {data : TxPtr} {len : ℕ}
    (h : data.object.Contains data.offset len) : (s.ep0Send data len).TxInside := by
  have hclip : (if s.ep0ReqLen < len then s.ep0ReqLen else len) ≤ len := by split_ifs <;> omega
  unfold ep0Send
  dsimp only
  refine TxInside.frame (ep0TxChunk_txInside (h.take hclip)) rfl rfl rfl rfl rfl ?_
  rw [EpReg.setRxStatus_eq]
  exact id

theorem ep0SendZlp_txInside (s : Machine) : s.ep0SendZlp.TxInside :=
  ⟨rfl, fun _ => ⟨0, Nat.zero_le _, ep0SendZlp_txPacket s, rfl⟩⟩

theorem runCall_txInside {call : Ep0Call} (hcall : call.Inside) (h : s.TxInside) :
    (s.runCall call).TxInside := by
  cases call with
  | reply bytes =>
    apply ep0Send_txInside
    exact (Nat.zero_add _).trans_le hcall
  | send data len => exact ep0Send_txInside s hcall
  | sendZlp => exact ep0SendZlp_txInside s
  | stall =>
    apply TxInside.of_silent
    · rfl
    · rfl
    · simp [runCall, ep0Stall, EpStat.stall, EpStat.valid]
  | enableRx =>
    refine h.frame rfl rfl rfl rfl rfl ?_
    simp [runCall]

end Calls

section Events

variable {s : Machine}

/-- Whatever was in flight, after a SETUP packet only its own answer is. -/
theorem receive_setup_txInside (s : Machine) (p : SetupPacket) :
    (s.receive (.setup p)).TxInside := by
  rw [receive_setup]
  apply runCall_txInside (request_inside p s.core)
  apply TxInside.of_silent
  · rfl
  · rfl
  · simp [abandonTransfer, latchRx, EpStat.nak, EpStat.valid]

theorem receive_out_txInside (h : s.TxInside) (hb : s.TxBounded) (d : OutPacket) :
    (s.receive (.out d)).TxInside := by
  have hpacket := latchRx_txPacket hb (.out d)
  rw [receive_out]
  dsimp only
  split_ifs
  · refine TxInside.frame (ep0SendZlp_txInside
      { s with pma := storeRx d.bytes s.pma }) rfl rfl rfl rfl rfl ?_
    simp [ep0SendZlp]
  · refine h.frame rfl rfl rfl rfl hpacket ?_
    simp [latchRx]
  · refine h.frame rfl rfl rfl rfl hpacket ?_
    simp [latchRx]

theorem handleEp0In_txInside (h : s.TxInside) : s.handleEp0In.TxInside := by
  unfold handleEp0In
  dsimp only
  split_ifs
  · exact ep0TxChunk_txInside h.remaining
  · refine ⟨h.remaining, fun _ => ⟨0, Nat.zero_le _, ?_, ?_⟩⟩
    · rw [txPacket, txCount, Pma.read_write_self]
      rfl
    · exact h.remaining.take (Nat.zero_le _)
  · refine h.frame rfl rfl rfl rfl rfl ?_
    simp
  · refine h.frame rfl rfl rfl rfl rfl ?_
    simp

theorem latchIn_txInside (h : s.TxInside) (tx : Bool) : (s.latchIn tx).TxInside := by
  cases tx with
  | false => exact h
  | true =>
    refine h.frame rfl rfl rfl rfl rfl ?_
    simp [latchIn, latchTx, EpStat.nak, EpStat.valid]

theorem latchIn_txBounded (hb : s.TxBounded) (tx : Bool) : (s.latchIn tx).TxBounded := by
  cases tx <;> exact hb

theorem receive_txInside (h : s.TxInside) (hb : s.TxBounded) (rx : RxPacket) :
    (s.receive rx).TxInside := by
  cases rx with
  | setup p => exact receive_setup_txInside s p
  | out d => exact receive_out_txInside h hb d

theorem step_txInside (h : s.TxInside) (hs : s.Ep0Consistent) (e : UsbEvent) :
    (s.step e).TxInside := by
  cases e with
  | idle => exact h.frame rfl rfl rfl rfl rfl id
  | reset =>
    apply TxInside.of_silent
    · rfl
    · rfl
    · rw [(step_reset_status s).2]
      exact (by decide : EpStat.nak ≠ EpStat.valid)
  | ctr rx tx =>
    cases rx with
    | none =>
      cases tx with
      | false =>
        rw [step_none hs.quiet]
        exact h.frame rfl rfl rfl rfl rfl id
      | true =>
        rw [step_inDone hs.quiet]
        apply handleEp0In_txInside
        exact (latchIn_txInside h true).frame rfl rfl rfl rfl rfl id
    | some rx =>
      have hrx := receive_txInside (latchIn_txInside h tx) (latchIn_txBounded hs.txBounded tx) rx
      rw [step_rx hs.quiet]
      split_ifs
      · exact handleEp0In_txInside hrx
      · exact hrx

theorem Reachable.txInside {s : Machine} (hs : s.Reachable) : s.TxInside := by
  obtain ⟨mem, faults, es, rfl⟩ := hs
  refine (StepSystem.run_invariant (fun s : Machine => s.Ep0Consistent ∧ s.TxInside)
    (fun _ e h => ⟨h.1.step e, step_txInside h.2 h.1 e⟩)
    ⟨start_ep0Consistent mem faults, ?_⟩ es).2
  apply TxInside.of_silent
  · rfl
  · rfl
  · change EpReg.zero.configure.statTx ≠ EpStat.valid
    decide

end Events

section Buffer

/-- `dfu.xfer_len` never exceeds the advertised transfer size. -/
theorem coreStep_xferLen {c : Core} (h : c.dfu.xferLen ≤ dfuXferSize) (e : UsbEvent) :
    (coreStep c e).dfu.xferLen ≤ dfuXferSize := by
  rcases e with _ | _ | ⟨_ | (p | d), tx⟩
  · exact h
  · exact h
  · exact h
  · rw [coreStep]
    have heff := request_effect p c
    generalize (Machine.request p c).1 = c' at heff
    cases heff with
    | attempt hatt =>
      have heff := executePending_effect c
      generalize executePending c = c' at heff
      cases heff <;> exact h
    | accept hacc => exact hacc.2.1.2
    | _ => exact h
  · rw [coreStep]
    split_ifs
    · rw [dataStage_xferLen]
      exact h
    · exact h

theorem appendData_buffer (data : ℕ → UInt8) (count : ℕ) (d : Dfu) {i : ℕ} (hi : dfuXferSize ≤ i) :
    (appendData data count d).buffer i = d.buffer i := by
  unfold appendData
  split_ifs
  · exact overwrite_of_not_mem (by omega)
  · rfl

theorem dataStage_buffer (data : ℕ → UInt8) (count : ℕ) (d : Dfu) {i : ℕ} (hi : dfuXferSize ≤ i) :
    (dataStage data count d).1.buffer i = d.buffer i := by
  rw [← appendData_buffer data count d hi]
  unfold dataStage
  dsimp only
  split_ifs <;> rfl

/-- No event stores past the end of `dfu_buffer`. -/
theorem coreStep_buffer (c : Core) (e : UsbEvent) {i : ℕ} (hi : dfuXferSize ≤ i) :
    (coreStep c e).dfu.buffer i = c.dfu.buffer i := by
  rcases e with _ | _ | ⟨_ | (p | d), tx⟩
  · rfl
  · rfl
  · rfl
  · rw [coreStep]
    have heff := request_effect p c
    generalize (Machine.request p c).1 = c' at heff
    cases heff with
    | attempt hatt =>
      have heff := executePending_effect c
      generalize executePending c = c' at heff
      cases heff <;> rfl
    | _ => rfl
  · rw [coreStep]
    split_ifs
    · exact dataStage_buffer _ _ _ hi
    · rfl

end Buffer

theorem SentFrom.flash {s : Machine} {packet : List UInt8} (h : s.SentFrom packet)
    (hobject : s.ep0TxPtr.object = .flash) : ∃ a, InRegion a packet.length ∧
      packet = toList (fun i => s.core.flash.mem (a + i)) packet.length := by
  obtain ⟨sent, -, hpacket, hin⟩ := h
  have hlen : packet.length = sent := by rw [hpacket, length_toList]
  rw [hobject] at hpacket hin
  exact ⟨s.ep0TxPtr.offset - sent, by rw [hlen]; exact hin, by rw [hlen]; exact hpacket⟩

/-- In every state between two polls the engine stays inside its objects: what it still has to send
and what it has on offer belong to one of them, flash on offer lies in the application region, and
no event stores past the end of the buffer. -/
theorem ep0_engine_inside (mem : ℕ → UInt8) (faults : ℕ → Fault) (es : List UsbEvent) :
    let s := (start mem faults).run es
    s.ep0TxPtr.object.Contains s.ep0TxPtr.offset s.ep0TxRemaining ∧
      (∀ packet, s.offered = some packet → s.SentFrom packet ∧
        (s.ep0TxPtr.object = .flash → ∃ a, InRegion a packet.length ∧
          packet = toList (fun i => s.core.flash.mem (a + i)) packet.length)) ∧
      s.core.dfu.xferLen ≤ 1024 ∧ s.core.dfu.bufferLen ≤ 1024 ∧
      ∀ e i, 1024 ≤ i → (s.step e).core.dfu.buffer i = s.core.dfu.buffer i := by
  intro s
  have hs : s.Reachable := ⟨mem, faults, es, rfl⟩
  have hin := hs.txInside
  have hxfer : s.core.dfu.xferLen ≤ dfuXferSize := by
    have hcore := run_core (start_quiet mem faults) es
    rw [hcore]
    exact StepSystem.run_invariant (fun c : Core => c.dfu.xferLen ≤ dfuXferSize)
      (fun _ e h => coreStep_xferLen h e) (Nat.zero_le _) es
  refine ⟨hin.remaining, fun packet hp => ?_, hxfer, hs.stable.consistent.bufferLen_le, ?_⟩
  · obtain ⟨hv, rfl⟩ := offered_eq_some_iff.mp hp
    exact ⟨hin.offered hv, (hin.offered hv).flash⟩
  · intro e i hi
    rw [step_core hs.quiet]
    exact coreStep_buffer s.core e hi

end Machine

end NovaBootloader
