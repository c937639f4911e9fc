import NovaBootloader.Ep0Transfer

/-!
# The device address

`AddressWatch` follows the bus alone: it knows the address the device should have and the SET_ADDRESS
whose status stage is still to come. The bootloader keeps the latter in `pending_address`, with 0 for
none, and applies it at any completed IN packet that ends a transfer. The theorem says in which runs
that makes no difference.
-/

namespace NovaBootloader
open ByteMemory

structure AddressWatch where
  address : UInt8
  awaiting : Option UInt8
deriving DecidableEq

namespace AddressWatch

def fresh : AddressWatch := ⟨0, none⟩

/-- A completed IN packet is the status stage that was awaited, if one was. -/
def complete (w : AddressWatch) : AddressWatch := ⟨w.awaiting.getD w.address, none⟩

/-- A SETUP packet abandons the request before it. -/
def request (w : AddressWatch) (p : SetupPacket) : AddressWatch :=
  { w with awaiting := if p.IsSetAddress then some p.newAddress else none }

def observe (w : AddressWatch) : UsbEvent → AddressWatch
  | .idle => w
  | .reset => fresh
  | .ctr rx tx =>
    let w := if tx then w.complete else w
    match rx with
    | some (.setup p) => w.request p
    | _ => w

end AddressWatch

/-- The address the events on the bus have given to the device. -/
def busAddress (es : List UsbEvent) : UInt8 :=
  (StepSystem.run AddressWatch.observe AddressWatch.fresh es).address

def deviceAddress (a : UInt8) : UInt16 := usbDaddrEf ||| a.toUInt16

theorem toNat_deviceAddress {a : UInt8} (ha : a.toNat < 128) :
    (deviceAddress a).toNat = 128 + a.toNat := by
  have h := Nat.two_pow_add_eq_or_of_lt (i := 7) ha 1
  unfold deviceAddress usbDaddrEf
  rw [UInt16.toNat_or, UInt8.toNat_toUInt16]
  exact h.symm

theorem deviceAddress_inj {a b : UInt8} (ha : a.toNat < 128) (hb : b.toNat < 128) :
    deviceAddress a = deviceAddress b ↔ a = b := by
  constructor
  · intro h
    have hnat := congrArg UInt16.toNat h
    rw [toNat_deviceAddress ha, toNat_deviceAddress hb] at hnat
    exact UInt8.toNat_inj.mp (by omega)
  · exact congrArg deviceAddress

theorem SetupPacket.newAddress_lt (p : SetupPacket) : p.newAddress.toNat < 128 := by
  have h : p.wValue.toNat &&& 0x7F ≤ 0x7F := Nat.and_le_right
  unfold newAddress
  rw [UInt16.toNat_toUInt8, UInt16.toNat_and]
  change (p.wValue.toNat &&& 0x7F) % 256 < 128
  omega

theorem SetupPacket.IsSetAddress.not_longUpload {p : SetupPacket} (hp : p.IsSetAddress) (d : Dfu) :
    ¬ LongUpload p d := fun h => not_isStandard_of_isClass h.1.1 hp.1

namespace Machine

/-- What `pending_address` says at the end of a transfer agrees with the bus: no address that was
abandoned is left in it, and address 0, which it cannot say, is awaited only by a device that has
it. -/
def NoStray (s : Machine) (w : AddressWatch) : Prop :=
  match w.awaiting with
  | some a => a = 0 → w.address = 0
  | none => s.pendingAddress = 0 ∨ s.pendingAddress = w.address

/-- An IN completion handled after the SETUP packet `p` that followed it on the bus: it sees the
pending address and the transfer `p` has left. -/
def CoalescedAddressSafe (s : Machine) (w : AddressWatch) (p : SetupPacket) : Prop :=
  if p.IsSetAddress then
    if p.newAddress = 0 then w.complete.address = w.address else p.newAddress = w.complete.address
  else if LongUpload p s.core.dfu then w.complete.address = w.address
  else s.NoStray w

/-- The steps at which the device gets the address it has on the bus. -/
def AddressSafe (s : Machine) (w : AddressWatch) : UsbEvent → Prop
  | .ctr (some (.setup p)) true => s.CoalescedAddressSafe w p
  | .ctr _ true => s.MidTransfer ∨ s.NoStray w
  | _ => True

def AddressHolds (x : Machine × AddressWatch) : Prop := x.1.daddr = deviceAddress x.2.address

abbrev addressStep : Machine × AddressWatch → UsbEvent → Machine × AddressWatch :=
  StepSystem.observed step fun w _ e => w.observe e

theorem handleEp0In_pendingAddress (s : Machine) : s.handleEp0In.pendingAddress =
    if s.MidTransfer then s.pendingAddress else 0 := by
  by_cases hmid : s.MidTransfer
  · rw [if_pos hmid]
    exact (handleEp0In_of_midTransfer hmid).2.2
  · rw [if_neg hmid, handleEp0In_of_not_midTransfer hmid]

theorem handleEp0In_daddr_iff {s : Machine} {a target : UInt8} (hs : s.daddr = deviceAddress a)
    (ha : a.toNat < 128) (hpending : s.pendingAddress.toNat < 128) (htarget : target.toNat < 128) :
    s.handleEp0In.daddr = deviceAddress target ↔
      if s.MidTransfer ∨ s.pendingAddress = 0 then target = a else s.pendingAddress = target := by
  by_cases hmid : s.MidTransfer
  · rw [if_pos (Or.inl hmid), (handleEp0In_of_midTransfer hmid).2.1, hs, deviceAddress_inj ha htarget]
    exact eq_comm
  rw [handleEp0In_of_not_midTransfer hmid]
  by_cases hzero : s.pendingAddress = 0
  · rw [if_pos (Or.inr hzero), if_pos hzero, hs, deviceAddress_inj ha htarget]
    exact eq_comm
  · rw [if_neg (not_or.mpr ⟨hmid, hzero⟩), if_neg hzero]
    exact deviceAddress_inj hpending htarget

/-- What relates `pending_address` to the bus as long as the address is right. -/
structure Addressed (x : Machine × AddressWatch) : Prop where
  ep0 : x.1.Ep0Consistent
  holds : AddressHolds x
  address_lt : x.2.address.toNat < 128
  pending_lt : x.1.pendingAddress.toNat < 128
  awaiting : ∀ a ∈ x.2.awaiting, a.toNat < 128 ∧ ¬ x.1.MidTransfer ∧
    (x.1.pendingAddress = a ∨ x.1.pendingAddress = 0 ∧ a = x.2.address)

theorem start_addressed (mem : ℕ → UInt8) (faults : ℕ → Fault) :
    Addressed (start mem faults, AddressWatch.fresh) where
  ep0 := start_ep0Consistent mem faults
  holds := by
    change usbDaddrEf = deviceAddress 0
    decide
  address_lt := Nat.zero_lt_succ _
  pending_lt := Nat.zero_lt_succ _
  awaiting := fun a ha => by cases ha

namespace Addressed

variable {s : Machine} {w : AddressWatch}

theorem complete_lt (h : Addressed (s, w)) : w.complete.address.toNat < 128 := by
  obtain ⟨address, _ | a⟩ := w
  · exact h.address_lt
  · exact (h.awaiting a rfl).1

theorem noStray_iff (h : Addressed (s, w)) :
    (if s.pendingAddress = 0 then w.complete.address = w.address
      else s.pendingAddress = w.complete.address) ↔ s.NoStray w := by
  obtain ⟨address, _ | a⟩ := w
  · change (if s.pendingAddress = 0 then address = address else s.pendingAddress = address) ↔
      s.pendingAddress = 0 ∨ s.pendingAddress = address
    split_ifs with hzero
    · exact iff_of_true rfl (Or.inl hzero)
    · exact ⟨Or.inr, fun h => h.resolve_left hzero⟩
  · have hawait := (h.awaiting a rfl).2.2
    change (if s.pendingAddress = 0 then a = address else s.pendingAddress = a) ↔
      (a = 0 → address = 0)
    dsimp only at hawait
    split_ifs with hzero
    · constructor
      · rintro rfl
        exact id
      · intro himp
        rcases hawait with hpending | ⟨-, ha⟩
        · have ha : a = 0 := hpending.symm.trans hzero
          rw [himp ha, ha]
        · exact ha
    · have hpending := hawait.resolve_right fun h => hzero h.1
      exact iff_of_true hpending fun ha => absurd (hpending.trans ha) hzero

theorem awaiting_none (h : Addressed (s, w)) (hmid : s.MidTransfer) : w.awaiting = none := by
  cases hw : w.awaiting with
  | none => rfl
  | some a => exact absurd hmid (h.awaiting a hw).2.1

theorem completion_iff (h : Addressed (s, w)) {m : Machine} (hdaddr : m.daddr = s.daddr)
    (hpending : m.pendingAddress = s.pendingAddress) (hmid : m.MidTransfer ↔ s.MidTransfer) :
    m.handleEp0In.daddr = deviceAddress w.complete.address ↔ s.MidTransfer ∨ s.NoStray w := by
  have hlt : m.pendingAddress.toNat < 128 := hpending ▸ h.pending_lt
  rw [handleEp0In_daddr_iff (hdaddr.trans h.holds) h.address_lt hlt h.complete_lt, hpending]
  simp only [hmid]
  by_cases hs : s.MidTransfer
  · rw [if_pos (Or.inl hs)]
    have hcomplete : w.complete.address = w.address := by
      rw [AddressWatch.complete, h.awaiting_none hs]
      rfl
    exact iff_of_true hcomplete (Or.inl hs)
  · simp only [hs, false_or]
    exact h.noStray_iff

theorem addressAfter_lt (h : Addressed (s, w)) (p : SetupPacket) :
    (addressAfter p s.pendingAddress).toNat < 128 := by
  by_cases hp : p.IsSetAddress
  · rw [addressAfter_setAddress hp]
    exact p.newAddress_lt
  · rw [addressAfter_other hp]
    exact h.pending_lt

theorem coalesced_iff (h : Addressed (s, w)) (p : SetupPacket) :
    (s.latchTx.receive (.setup p)).handleEp0In.daddr = deviceAddress w.complete.address ↔
      s.CoalescedAddressSafe w p := by
  obtain ⟨hdaddr, hpending⟩ := receive_setup_address s.latchTx p
  have hmid := receive_setup_midTransfer s.latchTx p
  have hlt : (s.latchTx.receive (.setup p)).pendingAddress.toNat < 128 := by
    rw [hpending]
    exact h.addressAfter_lt p
  rw [handleEp0In_daddr_iff (hdaddr.trans h.holds) h.address_lt hlt h.complete_lt, hpending]
  simp only [hmid]
  unfold CoalescedAddressSafe
  change (if LongUpload p s.core.dfu ∨ addressAfter p s.pendingAddress = 0 then _ else
    addressAfter p s.pendingAddress = _) ↔ _
  by_cases hp : p.IsSetAddress
  · simp only [if_pos hp, hp.not_longUpload, false_or, addressAfter_setAddress hp]
  · rw [if_neg hp, addressAfter_other hp]
    by_cases hlong : LongUpload p s.core.dfu
    · rw [if_pos hlong, if_pos (Or.inl hlong)]
    · simp only [hlong, false_or, if_false]
      exact h.noStray_iff

theorem holds_iff (h : Addressed (s, w)) (e : UsbEvent) :
    AddressHolds (addressStep (s, w) e) ↔ s.AddressSafe w e := by
  have hquiet := h.ep0.quiet
  unfold AddressHolds
  rw [StepSystem.observed_fst, StepSystem.observed_snd]
  rcases e with _ | _ | ⟨_ | (p | d), _ | _⟩
  · exact iff_of_true h.holds trivial
  · refine iff_of_true ?_ trivial
    change usbDaddrEf = deviceAddress 0
    decide
  · rw [step_none hquiet]
    exact iff_of_true h.holds trivial
  · rw [step_inDone hquiet]
    apply h.completion_iff
    · rfl
    · rfl
    · rfl
  · rw [step_rx hquiet]
    exact iff_of_true ((receive_setup_address s p).1.trans h.holds) trivial
  · rw [step_rx hquiet]
    exact h.coalesced_iff p
  · rw [step_rx hquiet]
    exact iff_of_true ((receive_out_address s d).1.trans h.holds) trivial
  · rw [step_rx hquiet]
    have haddress := receive_out_address s.latchTx d
    have hmid := receive_out_midTransfer (s := s.latchTx) h.ep0.uploadsOnly d
    exact h.completion_iff haddress.1 haddress.2 hmid

theorem completed {m : Machine} (h : Addressed (s, w)) (hep0 : m.handleEp0In.Ep0Consistent)
    (hpending : m.pendingAddress = s.pendingAddress)
    (hholds : m.handleEp0In.daddr = deviceAddress w.complete.address) :
    Addressed (m.handleEp0In, w.complete) where
  ep0 := hep0
  holds := hholds
  address_lt := h.complete_lt
  pending_lt := by
    rw [handleEp0In_pendingAddress, hpending]
    split_ifs
    · exact h.pending_lt
    · exact Nat.zero_lt_succ _
  awaiting := fun a ha => by cases ha

theorem received (h : Addressed (s, w)) {p : SetupPacket}
    (hep0 : (s.receive (.setup p)).Ep0Consistent) :
    Addressed (s.receive (.setup p), w.request p) where
  ep0 := hep0
  holds := (receive_setup_address s p).1.trans h.holds
  address_lt := h.address_lt
  pending_lt := by
    rw [(receive_setup_address s p).2]
    exact h.addressAfter_lt p
  awaiting := by
    intro a ha
    by_cases hp : p.IsSetAddress
    · have ha : some p.newAddress = some a := by rwa [AddressWatch.request, if_pos hp] at ha
      obtain rfl := Option.some.inj ha
      refine ⟨p.newAddress_lt, fun hmid => ?_, Or.inl ?_⟩
      · exact hp.not_longUpload _ ((receive_setup_midTransfer s p).mp hmid)
      · rw [(receive_setup_address s p).2, addressAfter_setAddress hp]
    · rw [AddressWatch.request, if_neg hp] at ha
      cases ha

/-- After both in one poll the awaited address is in force already, or is 0. -/
theorem coalesced (h : Addressed (s, w)) {p : SetupPacket}
    (hep0 : (s.latchTx.receive (.setup p)).handleEp0In.Ep0Consistent)
    (hholds : (s.latchTx.receive (.setup p)).handleEp0In.daddr = deviceAddress w.complete.address) :
    Addressed ((s.latchTx.receive (.setup p)).handleEp0In, w.complete.request p) where
  ep0 := hep0
  holds := hholds
  address_lt := h.complete_lt
  pending_lt := by
    rw [handleEp0In_pendingAddress, (receive_setup_address s.latchTx p).2]
    split_ifs
    · exact h.addressAfter_lt p
    · exact Nat.zero_lt_succ _
  awaiting := by
    intro a ha
    by_cases hp : p.IsSetAddress
    · have ha : some p.newAddress = some a := by rwa [AddressWatch.request, if_pos hp] at ha
      obtain rfl := Option.some.inj ha
      have hend : ¬ (s.latchTx.receive (.setup p)).MidTransfer :=
        fun hmid => hp.not_longUpload _ ((receive_setup_midTransfer _ p).mp hmid)
      have hpending := handleEp0In_pendingAddress (s.latchTx.receive (.setup p))
      rw [if_neg hend] at hpending
      refine ⟨p.newAddress_lt, fun hmid => hend (handleEp0In_midTransfer hmid), ?_⟩
      have hsafe := (h.coalesced_iff p).mp hholds
      rw [CoalescedAddressSafe, if_pos hp] at hsafe
      by_cases hzero : p.newAddress = 0
      · rw [hzero]
        exact Or.inl hpending
      · rw [if_neg hzero] at hsafe
        exact Or.inr ⟨hpending, hsafe⟩
    · rw [AddressWatch.request, if_neg hp] at ha
      cases ha

theorem step (h : Addressed (s, w)) (e : UsbEvent) (hholds : AddressHolds (addressStep (s, w) e)) :
    Addressed (addressStep (s, w) e) := by
  have hquiet := h.ep0.quiet
  have hep0 := h.ep0.step e
  unfold AddressHolds at hholds
  change Addressed (s.step e, w.observe e)
  change (s.step e).daddr = deviceAddress (w.observe e).address at hholds
  rcases e with _ | _ | ⟨_ | (p | d), _ | _⟩
  · exact ⟨hep0, hholds, h.address_lt, h.pending_lt, h.awaiting⟩
  · exact ⟨hep0, hholds, Nat.zero_lt_succ _, h.pending_lt, fun a ha => by cases ha⟩
  · rw [step_none hquiet] at hep0 hholds ⊢
    exact ⟨hep0, hholds, h.address_lt, h.pending_lt, h.awaiting⟩
  · rw [step_inDone hquiet] at hep0 hholds ⊢
    exact h.completed hep0 rfl hholds
  · rw [step_rx hquiet] at hep0 ⊢
    exact h.received hep0
  · rw [step_rx hquiet] at hep0 hholds ⊢
    exact h.coalesced hep0 hholds
  · have hmid := receive_out_midTransfer h.ep0.uploadsOnly d
    have haddress := receive_out_address s d
    rw [step_rx hquiet] at hep0 hholds ⊢
    refine ⟨hep0, hholds, h.address_lt, ?_, fun a ha => ?_⟩
    · exact haddress.2 ▸ h.pending_lt
    · obtain ⟨ha, hnot, hpending⟩ := h.awaiting a ha
      exact ⟨ha, fun hm => hnot (hmid.mp hm), haddress.2 ▸ hpending⟩
  · rw [step_rx hquiet] at hep0 hholds ⊢
    exact h.completed hep0 (receive_out_address s.latchTx d).2 hholds

end Addressed

/-- In every state of a run `USB_DADDR` holds the address the bus has given exactly if every step of
the run is safe. -/
theorem daddr_follows_bus_iff (mem : ℕ → UInt8) (faults : ℕ → Fault) (es : List UsbEvent) :
    (∀ n, ((start mem faults).run (es.take n)).daddr = deviceAddress (busAddress (es.take n))) ↔
      StepSystem.Along addressStep (fun x e => x.1.AddressSafe x.2 e)
        (start mem faults, AddressWatch.fresh) es := by
  have hstart := start_addressed mem faults
  have hstates : (∀ n, ((start mem faults).run (es.take n)).daddr =
        deviceAddress (busAddress (es.take n))) ↔
      ∀ n, AddressHolds (StepSystem.run addressStep (start mem faults, AddressWatch.fresh)
        (es.take n)) := by
    unfold AddressHolds busAddress
    simp only [StepSystem.run_observed_fst, StepSystem.run_observed_snd]
  rw [hstates, StepSystem.forall_take_iff_along]
  calc AddressHolds (start mem faults, AddressWatch.fresh) ∧ _ ↔
        StepSystem.Along addressStep (fun x e => AddressHolds (addressStep x e))
          (start mem faults, AddressWatch.fresh) es := and_iff_right hstart.holds
    _ ↔ _ := StepSystem.along_iff_of_invariant Addressed (fun _ e h hholds => h.step e hholds)
        (fun _ e h => h.holds_iff e) hstart es

/-- A SET_ADDRESS cut short by a bus reset takes effect with the next request. -/
theorem abandoned_address_applied :
    let es := [UsbEvent.setup (.setAddress 5), .reset, .setup .getstatus, .inDone]
    busAddress es = 0 ∧ (erased.run es).daddr = deviceAddress 5 ∧
      (erased.run es).daddr ≠ deviceAddress (busAddress es) := by
  decide +kernel

end Machine

end NovaBootloader
