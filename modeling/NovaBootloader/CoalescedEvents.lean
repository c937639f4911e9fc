import NovaBootloader.Ep0Transfer

/-!
# An IN completion and a SETUP packet in one poll

`usb_poll` runs the handler of a received packet before that of a completed IN packet, although the
IN packet completed first on the bus. The two orders are compared on all the EP0 state: the
handlers commute unless the completion finds something left by the SETUP packet to act on, or the
SETUP packet should have found something left by the completion.
-/

namespace NovaBootloader
open ByteMemory

namespace Machine

/-- Two machines that hold the same EP0 transfer, offer the same packet to the host, and agree on
the device address, the pending address, the DFU variables and the flash. -/
structure SameOutcome (s s' : Machine) : Prop where
  ep0TxPtr : s.ep0TxPtr = s'.ep0TxPtr
  ep0TxRemaining : s.ep0TxRemaining = s'.ep0TxRemaining
  ep0TxNeedZlp : s.ep0TxNeedZlp = s'.ep0TxNeedZlp
  txPacket : s.txPacket = s'.txPacket
  txCount : s.txCount = s'.txCount
  daddr : s.daddr = s'.daddr
  pendingAddress : s.pendingAddress = s'.pendingAddress
  core : s.core = s'.core

def AddressCommutes (s : Machine) (p : SetupPacket) : Prop :=
  if p.IsSetAddress then
    p.newAddress = 0 ∧ (s.MidTransfer ∨ s.pendingAddress = 0 ∨
      s.daddr = usbDaddrEf ||| s.pendingAddress.toUInt16)
  else s.MidTransfer → s.pendingAddress = 0

instance (s : Machine) (p : SetupPacket) : Decidable (s.AddressCommutes p) :=
  inferInstanceAs (Decidable (ite _ _ _))

def PacketCommutes (s : Machine) (p : SetupPacket) : Prop :=
  s.MidTransfer → Answered p s.core.dfu ∨ s.nextPacket = s.txPacket

instance (s : Machine) (p : SetupPacket) : Decidable (s.PacketCommutes p) :=
  inferInstanceAs (Decidable (_ → _))

/-- Handling the SETUP packet `p` before the IN completion does no harm. -/
structure CoalesceSafe (s : Machine) (p : SetupPacket) : Prop where
  onePacket : ¬ LongUpload p s.core.dfu
  address : s.AddressCommutes p
  packet : s.PacketCommutes p

section Orders

variable {s : Machine}

/-- The IN completion handled after the SETUP packet finds the answer sent: only the address
registers can change. -/
theorem address_commutes_iff (p : SetupPacket) {m s₁ : Machine}
    (hm : m.daddr = s.daddr ∧ m.pendingAddress = addressAfter p s.pendingAddress)
    (hend : ¬ m.MidTransfer)
    (hin : s.MidTransfer → s₁.daddr = s.daddr ∧ s₁.pendingAddress = s.pendingAddress)
    (hdone : ¬ s.MidTransfer → s₁.pendingAddress = 0 ∧
      s₁.daddr = if s.pendingAddress = 0 then s.daddr
        else usbDaddrEf ||| s.pendingAddress.toUInt16) :
    (m.handleEp0In.daddr = s₁.daddr ∧
      m.handleEp0In.pendingAddress = addressAfter p s₁.pendingAddress) ↔ s.AddressCommutes p := by
  rw [handleEp0In_of_not_midTransfer hend, hm.1, hm.2]
  unfold AddressCommutes
  by_cases hp : p.IsSetAddress
  · rw [if_pos hp, addressAfter_setAddress hp, addressAfter_setAddress hp]
    by_cases hzero : p.newAddress = 0
    · rw [hzero, if_pos rfl]
      by_cases hmid : s.MidTransfer
      · rw [(hin hmid).1]
        exact iff_of_true ⟨rfl, rfl⟩ ⟨rfl, Or.inl hmid⟩
      · rw [(hdone hmid).2]
        by_cases hpending : s.pendingAddress = 0
        · rw [if_pos hpending]
          exact iff_of_true ⟨rfl, rfl⟩ ⟨rfl, Or.inr (Or.inl hpending)⟩
        · rw [if_neg hpending]
          tauto
    · exact iff_of_false (fun h => hzero h.2.symm) fun h => hzero h.1
  · rw [if_neg hp, addressAfter_other hp, addressAfter_other hp]
    by_cases hmid : s.MidTransfer
    · rw [(hin hmid).1, (hin hmid).2]
      constructor
      · exact fun h _ => h.2.symm
      · intro h
        rw [h hmid, if_pos rfl]
        exact ⟨rfl, rfl⟩
    · rw [(hdone hmid).1, (hdone hmid).2]
      exact iff_of_true ⟨rfl, rfl⟩ fun h => absurd h hmid

/-- A SETUP packet that is not answered exposes the packet of the abandoned transfer. -/
theorem packet_commutes_iff (hs : s.TxBounded) (p : SetupPacket) {s₁ : Machine}
    (hcore : s₁.core = s.core) (hs₁ : s₁.TxBounded)
    (hin : s.MidTransfer → s₁.txPacket = s.nextPacket)
    (hdone : ¬ s.MidTransfer → s₁.txPacket = s.txPacket) :
    (s.receive (.setup p)).txPacket = (s₁.receive (.setup p)).txPacket ↔ s.PacketCommutes p := by
  unfold PacketCommutes
  by_cases hanswered : Answered p s.core.dfu
  · have hqueues := (request_queues_iff p s.core).mpr hanswered
    exact iff_of_true (receive_setup_txPacket hcore hqueues).symm fun _ => Or.inl hanswered
  · have hqueues : ¬ (request p s.core).2.Queues :=
      fun h => hanswered ((request_queues_iff p s.core).mp h)
    have hqueues₁ : ¬ (request p s₁.core).2.Queues := by rwa [hcore]
    rw [receive_setup_txPacket_of_not_queues hs hqueues,
      receive_setup_txPacket_of_not_queues hs₁ hqueues₁]
    by_cases hmid : s.MidTransfer
    · rw [hin hmid]
      exact ⟨fun h _ => Or.inr h.symm, fun h => ((h hmid).resolve_left hanswered).symm⟩
    · rw [hdone hmid]
      exact iff_of_true rfl fun h => absurd h hmid

/-- A completion that finds something to send does not leave the transfer as it was. -/
theorem not_sameOutcome_of_midTransfer {m : Machine} (hmid : m.MidTransfer)
    (hrem : s.ep0TxRemaining = m.ep0TxRemaining) (hzlp : s.ep0TxNeedZlp = m.ep0TxNeedZlp) :
    ¬ SameOutcome m.handleEp0In s := by
  intro h
  have hsameRem := h.ep0TxRemaining
  have hsameZlp := h.ep0TxNeedZlp
  rw [hrem] at hsameRem
  rw [hzlp] at hsameZlp
  rcases handleEp0In_progress hmid with hless | ⟨hpending, hsent⟩
  · omega
  · rw [hpending, hsent] at hsameZlp
    exact Bool.false_ne_true hsameZlp

end Orders

/-- One poll that finds both events does the same as two polls that find them one at a time exactly
when it is safe to handle the SETUP packet first. -/
theorem coalesced_sameOutcome_iff {s : Machine} (hs : s.Reachable) (p : SetupPacket) :
    SameOutcome (s.step (.ctr (some (.setup p)) true)) ((s.step .inDone).step (.setup p)) ↔
      s.CoalesceSafe p := by
  have hep0 := hs.ep0Consistent
  have hquiet := hep0.quiet
  have hone : s.step (.ctr (some (.setup p)) true) =
      (s.latchTx.receive (.setup p)).handleEp0In := step_rx hquiet (.setup p) true
  have htwo : (s.step .inDone).step (.setup p) = (s.step .inDone).receive (.setup p) :=
    step_rx (step_quiet hquiet _) (.setup p) false
  have hcore : (s.step .inDone).core = s.core := step_core hquiet .inDone
  have hbounded := (hep0.step .inDone).txBounded
  rw [hone, htwo]
  rw [step_inDone hquiet] at hcore hbounded ⊢
  generalize hs₁ : { s.latchTx with istr := ⟨false, true, 0⟩ }.handleEp0In = s₁ at hcore hbounded ⊢
  have htransfer := receive_setup_transfer (s := s.latchTx) hcore p
  have hin (hmid : s.MidTransfer) : s₁.txPacket = s.nextPacket ∧ s₁.daddr = s.daddr ∧
      s₁.pendingAddress = s.pendingAddress := by
    rw [← hs₁]
    exact handleEp0In_of_midTransfer hmid
  have hdone (hmid : ¬ s.MidTransfer) : s₁ = _ :=
    hs₁.symm.trans (handleEp0In_of_not_midTransfer hmid)
  have hcores : (s.latchTx.receive (.setup p)).handleEp0In.core =
      (s₁.receive (.setup p)).core := by
    rw [handleEp0In_core, receive_core _ _ true, receive_core _ _ true, hcore]
    rfl
  have hmid := receive_setup_midTransfer s.latchTx p
  by_cases hlong : LongUpload p s.core.dfu
  · -- the completion sends the second packet over the first
    refine iff_of_false ?_ fun h => h.onePacket hlong
    exact not_sameOutcome_of_midTransfer (hmid.mpr hlong) htransfer.2.1 htransfer.2.2
  have hend : ¬ (s.latchTx.receive (.setup p)).MidTransfer := fun h => hlong (hmid.mp h)
  have haddress := address_commutes_iff (s := s) p (receive_setup_address s.latchTx p)
    hend (fun h => (hin h).2) fun h => by
      rw [hdone h]
      exact ⟨rfl, rfl⟩
  have hpacket := packet_commutes_iff (s := s.latchTx) hep0.txBounded p hcore hbounded
    (fun h => (hin h).1) fun h => by
      rw [hdone h]
      rfl
  have hsent := handleEp0In_of_not_midTransfer hend
  obtain ⟨hdaddr₁, hpending₁⟩ := receive_setup_address s₁ p
  constructor
  · intro h
    refine ⟨hlong, haddress.mp ⟨h.daddr.trans hdaddr₁, h.pendingAddress.trans hpending₁⟩,
      hpacket.mp ?_⟩
    have hkept := h.txPacket
    rwa [hsent] at hkept
  · intro h
    obtain ⟨hdaddr, hpending⟩ := haddress.mpr h.address
    have hsame : (s.latchTx.receive (.setup p)).handleEp0In.txPacket =
        (s₁.receive (.setup p)).txPacket := by
      rw [hsent]
      exact hpacket.mpr h.packet
    refine ⟨?_, ?_, ?_, hsame, ?_, hdaddr.trans hdaddr₁.symm, hpending.trans hpending₁.symm,
      hcores⟩
    · rw [hsent]
      exact htransfer.1.symm
    · rw [hsent]
      exact htransfer.2.1.symm
    · rw [hsent]
      exact htransfer.2.2.symm
    · rw [← length_txPacket, hsame, length_txPacket]

def statusQueued : Machine := erased.run [.setup .clrstatus]

theorem coalesced_getstatus_sameOutcome :
    SameOutcome (statusQueued.step (.ctr (some (.setup .getstatus)) true))
      ((statusQueued.step .inDone).step (.setup .getstatus)) :=
  (coalesced_sameOutcome_iff ⟨_, _, _, rfl⟩ .getstatus).mpr
    ⟨by decide +kernel, by decide +kernel, by decide +kernel⟩

/-- The completion of the CLRSTATUS is taken for the status stage of the SET_ADDRESS. -/
theorem coalesced_setAddress_early : statusQueued.Reachable ∧
    ¬ SameOutcome (statusQueued.step (.ctr (some (.setup (.setAddress 5))) true))
      ((statusQueued.step .inDone).step (.setup (.setAddress 5))) := by
  refine ⟨⟨_, _, _, rfl⟩, fun h => ?_⟩
  have hdaddr := h.daddr
  revert hdaddr
  decide +kernel

end Machine

end NovaBootloader
