import NovaBootloader.Ep0Answer
import NovaBootloader.TxBuffer

/-!
# The control transfer in progress

Between two polls the EP0 engine holds a control-IN transfer that may have more to send, and a
device address waiting for its status stage. The lemmas say what a completed IN packet and a SETUP
packet do to these, field by field, so that later proofs need not look into the handlers.
-/

namespace NovaBootloader
open ByteMemory

namespace Machine

def MidTransfer (s : Machine) : Prop := 0 < s.ep0TxRemaining ∨ s.ep0TxNeedZlp = true

instance (s : Machine) : Decidable s.MidTransfer := inferInstanceAs (Decidable (_ ∨ _))

def nextPacket (s : Machine) : List UInt8 :=
  toList (s.txByte s.ep0TxPtr) (min s.ep0TxRemaining ep0MaxSize)

variable {s : Machine}

section InCompletion

theorem handleEp0In_of_remaining (hrem : 0 < s.ep0TxRemaining) :
    s.handleEp0In = { s with ep0r := s.ep0r.clearCtrTx }.ep0TxChunk := by
  unfold handleEp0In
  exact if_pos hrem

theorem handleEp0In_of_needZlp (hrem : ¬ 0 < s.ep0TxRemaining) (hzlp : s.ep0TxNeedZlp = true) :
    s.handleEp0In = { s with
      ep0TxNeedZlp := false
      pma := s.pma.write (btableOffset + 2) 0
      ep0r := s.ep0r.clearCtrTx.setTxStatus EpStat.valid } := by
  unfold handleEp0In
  dsimp only
  rw [if_neg hrem, if_pos hzlp]

theorem handleEp0In_of_midTransfer (h : s.MidTransfer) :
    s.handleEp0In.txPacket = s.nextPacket ∧ s.handleEp0In.daddr = s.daddr ∧
      s.handleEp0In.pendingAddress = s.pendingAddress := by
  unfold nextPacket
  by_cases hrem : 0 < s.ep0TxRemaining
  · rw [handleEp0In_of_remaining hrem]
    exact ⟨ep0TxChunk_txPacket { s with ep0r := s.ep0r.clearCtrTx }, rfl, rfl⟩
  · rw [handleEp0In_of_needZlp hrem (h.resolve_left hrem), Nat.eq_zero_of_not_pos hrem,
      Nat.zero_min]
    refine ⟨?_, rfl, rfl⟩
    rw [txPacket, txCount, Pma.read_write_self]
    rfl

/-- With nothing left to send, an IN completion is taken as the status stage of SET_ADDRESS if an
address is pending. -/
theorem handleEp0In_of_not_midTransfer (h : ¬ s.MidTransfer) : s.handleEp0In = { s with
    ep0r := s.ep0r.clearCtrTx
    daddr := if s.pendingAddress = 0 then s.daddr else usbDaddrEf ||| s.pendingAddress.toUInt16
    pendingAddress := 0 } := by
  obtain ⟨hrem, hzlp⟩ := not_or.mp h
  unfold handleEp0In
  dsimp only
  rw [if_neg hrem, if_neg hzlp]
  by_cases hp : s.pendingAddress = 0
  · rw [if_neg (not_not.mpr hp), if_pos hp]
    simp only [hp]
  · rw [if_pos hp, if_neg hp]

theorem handleEp0In_progress (h : s.MidTransfer) :
    s.handleEp0In.ep0TxRemaining < s.ep0TxRemaining ∨
      s.ep0TxNeedZlp = true ∧ s.handleEp0In.ep0TxNeedZlp = false := by
  by_cases hrem : 0 < s.ep0TxRemaining
  · refine Or.inl ?_
    have hsize : ep0MaxSize = 64 := rfl
    rw [handleEp0In_of_remaining hrem, ep0TxChunk_remaining]
    dsimp only
    omega
  · have hzlp : s.ep0TxNeedZlp = true := h.resolve_left hrem
    rw [handleEp0In_of_needZlp hrem hzlp]
    exact Or.inr ⟨hzlp, rfl⟩

end InCompletion

section Setup

theorem ep0Send_midTransfer (s : Machine) (data : TxPtr) (len : ℕ) :
    (s.ep0Send data len).MidTransfer ↔
      64 < min len s.ep0ReqLen ∨ min len s.ep0ReqLen = 64 ∧ 64 < s.ep0ReqLen := by
  have hsize : ep0MaxSize = 64 := rfl
  have hlen : (if s.ep0ReqLen < len then s.ep0ReqLen else len) = min len s.ep0ReqLen := by
    split_ifs <;> omega
  unfold MidTransfer ep0Send ep0TxChunk
  dsimp only
  rw [hlen, hsize]
  simp only [decide_eq_true_eq]
  split_ifs <;> omega

theorem receive_setup_midTransfer (s : Machine) (p : SetupPacket) :
    (s.receive (.setup p)).MidTransfer ↔ LongUpload p s.core.dfu := by
  rw [receive_setup, ← request_continues_iff]
  cases (request p s.core).2 with
  | reply bytes => exact ep0Send_midTransfer _ _ _
  | send data len => exact ep0Send_midTransfer _ _ _
  | sendZlp => simp [MidTransfer, runCall, ep0SendZlp, Ep0Call.Continues]
  | stall => simp [MidTransfer, runCall, ep0Stall, Ep0Call.Continues]
  | enableRx => simp [MidTransfer, runCall, abandonTransfer, Ep0Call.Continues]

theorem receive_setup_address (s : Machine) (p : SetupPacket) :
    (s.receive (.setup p)).daddr = s.daddr ∧
      (s.receive (.setup p)).pendingAddress = addressAfter p s.pendingAddress := by
  rw [receive_setup, runCall_daddr, runCall_pendingAddress]
  exact ⟨rfl, rfl⟩

/-- A SETUP packet abandons the old transfer: the new one is the same whatever it was. -/
theorem receive_setup_transfer {s s' : Machine} (hcore : s'.core = s.core) (p : SetupPacket) :
    (s'.receive (.setup p)).ep0TxPtr = (s.receive (.setup p)).ep0TxPtr ∧
      (s'.receive (.setup p)).ep0TxRemaining = (s.receive (.setup p)).ep0TxRemaining ∧
      (s'.receive (.setup p)).ep0TxNeedZlp = (s.receive (.setup p)).ep0TxNeedZlp := by
  rw [receive_setup, receive_setup, hcore]
  cases (request p s.core).2 <;> exact ⟨rfl, rfl, rfl⟩

theorem ep0Send_txPacket_congr {s s' : Machine} (hcore : s'.core = s.core)
    (hreq : s'.ep0ReqLen = s.ep0ReqLen) {data : TxPtr} (hobject : data.object ≠ .ep0Reply)
    (len : ℕ) : (s'.ep0Send data len).txPacket = (s.ep0Send data len).txPacket := by
  rw [ep0Send_txPacket, ep0Send_txPacket, hreq]
  apply toList_congr
  intro i _
  unfold txByte
  rw [hcore]
  cases hdata : data.object with
  | ep0Reply => exact absurd hdata hobject
  | _ => rfl

/-- A SETUP packet that is answered leaves the same packet whatever was in the buffer. -/
theorem receive_setup_txPacket {s s' : Machine} (hcore : s'.core = s.core) {p : SetupPacket}
    (hqueues : (request p s.core).2.Queues) :
    (s'.receive (.setup p)).txPacket = (s.receive (.setup p)).txPacket := by
  rw [receive_setup, receive_setup, hcore]
  rcases request_short_or_flash p s.core with hshort | ⟨data, len, hcall, hobject⟩
  · cases hcall : (request p s.core).2 with
    | reply bytes =>
      rw [hcall] at hshort
      have hlen : bytes.length ≤ ep0MaxSize := le_of_lt hshort
      rw [reply_txPacket _ hlen, reply_txPacket _ hlen]
      rfl
    | send data len =>
      rw [hcall] at hshort
      apply ep0Send_txPacket_congr
      · rfl
      · rfl
      · exact hshort.2
    | sendZlp => exact (ep0SendZlp_txPacket _).trans (ep0SendZlp_txPacket _).symm
    | stall =>
      rw [hcall] at hqueues
      exact hqueues.elim
    | enableRx =>
      rw [hcall] at hqueues
      exact hqueues.elim
  · rw [hcall]
    apply ep0Send_txPacket_congr
    · rfl
    · rfl
    · rw [hobject]
      decide

end Setup

section Receive

/-- `COUNT_TX` never says more than the transmit buffer holds. -/
def TxBounded (s : Machine) : Prop := s.txCount ≤ ep0MaxSize

theorem storeRx_of_lt (bytes : List UInt8) (pma : Pma) {x : ℕ} (hx : x < 2 * ep0RxOffset)
    (hcount : x ≠ pmaAddr (btableOffset + 6)) : storeRx bytes pma x = pma x := by
  unfold storeRx Pma.write
  rw [Function.update_of_ne hcount, pmaWrite_of_not_mem _ _ _ _ (Or.inl hx)]

theorem storeRx_txPacket (s : Machine) (hs : s.TxBounded) (bytes : List UInt8) :
    toList (pmaByte (storeRx bytes s.pma) (pmaAddr ep0TxOffset))
      ((storeRx bytes s.pma).read (btableOffset + 2)).toNat = s.txPacket := by
  have hcount : (storeRx bytes s.pma).read (btableOffset + 2) = s.pma.read (btableOffset + 2) :=
    storeRx_of_lt bytes s.pma (by decide) (by decide)
  rw [hcount, txPacket, txCount]
  apply toList_congr
  intro i hi
  have hi : i < 64 := lt_of_lt_of_le hi hs
  have hslot : storeRx bytes s.pma (pmaAddr ep0TxOffset + 4 * (i / 2)) =
      s.pma (pmaAddr ep0TxOffset + 4 * (i / 2)) := by
    apply storeRx_of_lt <;> simp only [pmaAddr, ep0TxOffset, ep0RxOffset, btableOffset] <;> omega
  unfold pmaByte
  rw [hslot]

theorem latchRx_txPacket {s : Machine} (hs : s.TxBounded) (rx : RxPacket) :
    (s.latchRx rx).txPacket = s.txPacket := by
  cases rx with
  | setup p => exact storeRx_txPacket s hs p.toBytes
  | out d => exact storeRx_txPacket s hs d.bytes

/-- A SETUP packet that is not answered leaves the packet of the old transfer in the buffer. -/
theorem receive_setup_txPacket_of_not_queues {s : Machine} (hs : s.TxBounded) {p : SetupPacket}
    (h : ¬ (request p s.core).2.Queues) : (s.receive (.setup p)).txPacket = s.txPacket := by
  rw [receive_setup]
  cases hcall : (request p s.core).2 with
  | stall => exact latchRx_txPacket hs (.setup p)
  | enableRx => exact latchRx_txPacket hs (.setup p)
  | _ => exact absurd (by rw [hcall]; trivial) h

/-- The only transfers of more than one packet are the answers to uploads. -/
def UploadsOnly (s : Machine) : Prop := s.MidTransfer → s.core.dfu.state = .uploadIdle

/-- An OUT packet never starts a transfer, and in an upload it does not end one. -/
theorem receive_out_midTransfer {s : Machine} (hs : s.UploadsOnly) (d : OutPacket) :
    (s.receive (.out d)).MidTransfer ↔ s.MidTransfer := by
  rw [receive_out]
  dsimp only
  by_cases hdata : s.core.dfu.state = .dnloadSync ∧ 0 < d.bytes.length
  · have hnot : ¬ s.MidTransfer := fun h => by simp [hs h] at hdata
    rw [if_pos hdata]
    refine iff_of_false ?_ hnot
    split_ifs
    · simp [MidTransfer, ep0SendZlp]
    · exact hnot
  · rw [if_neg hdata]
    rfl

theorem receive_out_address (s : Machine) (d : OutPacket) :
    (s.receive (.out d)).daddr = s.daddr ∧
      (s.receive (.out d)).pendingAddress = s.pendingAddress := by
  rw [receive_out]
  dsimp only
  split_ifs <;> exact ⟨rfl, rfl⟩

end Receive

section Invariant

theorem length_txPacket (s : Machine) : s.txPacket.length = s.txCount := length_toList _ _

theorem TxBounded.of_txPacket {s s' : Machine} (hs : s.TxBounded) (h : s'.txPacket = s.txPacket) :
    s'.TxBounded := by
  unfold TxBounded
  rw [← length_txPacket, h, length_txPacket]
  exact hs

theorem ep0Send_txBounded (s : Machine) (data : TxPtr) (len : ℕ) :
    (s.ep0Send data len).TxBounded := by
  unfold TxBounded
  rw [← length_txPacket, ep0Send_txPacket, length_toList]
  exact Nat.min_le_right _ _

theorem ep0SendZlp_txBounded (s : Machine) : s.ep0SendZlp.TxBounded := by
  unfold TxBounded
  rw [← length_txPacket, ep0SendZlp_txPacket]
  exact Nat.zero_le _

theorem TxBounded.receive {s : Machine} (hs : s.TxBounded) (rx : RxPacket) :
    (s.receive rx).TxBounded := by
  have hlatch := hs.of_txPacket (latchRx_txPacket hs rx)
  cases rx with
  | setup p =>
    rw [receive_setup]
    cases (request p s.core).2 with
    | reply bytes => exact ep0Send_txBounded _ _ _
    | send data len => exact ep0Send_txBounded _ _ _
    | sendZlp => exact ep0SendZlp_txBounded _
    | stall => exact hlatch
    | enableRx => exact hlatch
  | out d =>
    rw [receive_out]
    dsimp only
    split_ifs
    · exact ep0SendZlp_txBounded { s with pma := storeRx d.bytes s.pma }
    · exact hlatch
    · exact hlatch

theorem TxBounded.handleEp0In {s : Machine} (hs : s.TxBounded) : s.handleEp0In.TxBounded := by
  by_cases hmid : s.MidTransfer
  · unfold TxBounded
    rw [← length_txPacket, (handleEp0In_of_midTransfer hmid).1, nextPacket, length_toList]
    exact Nat.min_le_right _ _
  · rw [handleEp0In_of_not_midTransfer hmid]
    exact hs

theorem handleEp0In_midTransfer {s : Machine} (h : s.handleEp0In.MidTransfer) : s.MidTransfer := by
  by_contra hmid
  rw [handleEp0In_of_not_midTransfer hmid] at h
  exact hmid h

theorem usbReset_txBounded (s : Machine) : s.usbReset.TxBounded := by
  have hcount : (setBtable s.pma).read (btableOffset + 2) = 0 := by
    simp [setBtable, Pma.read_write_of_ne, btableOffset]
  unfold TxBounded txCount
  change ((setBtable s.pma).read (btableOffset + 2)).toNat ≤ ep0MaxSize
  rw [hcount]
  exact Nat.zero_le _

theorem not_midTransfer_of_zero {s : Machine} (hrem : s.ep0TxRemaining = 0)
    (hzlp : s.ep0TxNeedZlp = false) : ¬ s.MidTransfer := by
  rintro (h | h)
  · omega
  · exact Bool.false_ne_true (hzlp.symm.trans h)

theorem UploadsOnly.receive {s : Machine} (hs : s.UploadsOnly) (rx : RxPacket) :
    (s.receive rx).UploadsOnly := by
  intro h
  rw [receive_core s rx false]
  cases rx with
  | setup p => exact request_longUpload_state ((receive_setup_midTransfer s p).mp h)
  | out d =>
    have hstate := hs ((receive_out_midTransfer hs d).mp h)
    rw [coreStep, if_neg (by rw [hstate]; simp)]
    exact hstate

theorem UploadsOnly.handleEp0In {s : Machine} (hs : s.UploadsOnly) :
    s.handleEp0In.UploadsOnly := by
  intro h
  rw [handleEp0In_core]
  exact hs (handleEp0In_midTransfer h)

/-- What holds of the EP0 engine between two polls. -/
structure Ep0Consistent (s : Machine) : Prop where
  quiet : s.Quiet
  txBounded : s.TxBounded
  uploadsOnly : s.UploadsOnly

theorem start_ep0Consistent (mem : ℕ → UInt8) (faults : ℕ → Fault) :
    (start mem faults).Ep0Consistent where
  quiet := start_quiet mem faults
  txBounded := Nat.zero_le _
  uploadsOnly := fun h => absurd h (not_midTransfer_of_zero rfl rfl)

theorem Ep0Consistent.step {s : Machine} (hs : s.Ep0Consistent) (e : UsbEvent) :
    (s.step e).Ep0Consistent where
  quiet := step_quiet hs.quiet e
  txBounded := step_preserves (fun _ _ _ _ h => h) (fun s _ => usbReset_txBounded s)
    (fun _ rx h => h.receive rx) (fun _ h => h.handleEp0In) hs.quiet hs.txBounded e
  uploadsOnly := step_preserves (fun _ _ _ _ h => h)
    (fun _ _ h => absurd h (not_midTransfer_of_zero rfl rfl))
    (fun _ rx h => h.receive rx) (fun _ h => h.handleEp0In) hs.quiet hs.uploadsOnly e

theorem Reachable.ep0Consistent {s : Machine} (hs : s.Reachable) : s.Ep0Consistent := by
  obtain ⟨mem, faults, es, rfl⟩ := hs
  exact StepSystem.run_invariant Ep0Consistent (fun _ e h => h.step e)
    (start_ep0Consistent mem faults) es

end Invariant

end Machine

end NovaBootloader
