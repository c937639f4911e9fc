import NovaBootloader.Ep0Answer
import NovaBootloader.TxBuffer

/-!
# Where an upload reads

An UPLOAD reads at the address pointer plus its block offset. The pointer is set by SET_ADDRESS in
the download states; ABORT, which leads from there to a state that accepts UPLOAD, sets it back to
the start of the application.
-/

namespace NovaBootloader
open ByteMemory

def SetsAddress (c : Core) (e : UsbEvent) : Prop :=
  Executes c e ∧ c.dfu.cmdPending = dfuseCmdSetAddress ∧ c.dfu.cmdHasArg = true

instance (c : Core) (e : UsbEvent) : Decidable (SetsAddress c e) :=
  inferInstanceAs (Decidable (_ ∧ _))

def UsbEvent.IsAbort (e : UsbEvent) : Prop := ∃ p ∈ e.setup?, p.IsDfu dfuAbort

instance (e : UsbEvent) : Decidable e.IsAbort :=
  inferInstanceAs (Decidable (∃ p ∈ e.setup?, p.IsDfu dfuAbort))

theorem coreStep_of_setsAddress {c : Core} {e : UsbEvent} (h : SetsAddress c e) :
    (coreStep c e).dfu.addressPtr = c.dfu.cmdArg := by
  obtain ⟨hexec, hcmd, harg⟩ := h
  rw [coreStep_of_executes hexec, executePending_of_setAddress hcmd harg]

/-- Apart from SET_ADDRESS and a bus reset only ABORT moves the pointer. -/
theorem coreStep_addressPtr {c : Core} {e : UsbEvent} (hreset : e ≠ .reset)
    (hset : ¬ SetsAddress c e) : (coreStep c e).dfu.addressPtr =
      if e.IsAbort then appStartAddress else c.dfu.addressPtr := by
  rcases e with _ | _ | ⟨_ | (p | data), tx⟩
  · rfl
  · exact absurd rfl hreset
  · rfl
  · rw [coreStep]
    have hna (h : ¬ p.IsDfu dfuAbort) : ¬ (UsbEvent.ctr (some (.setup p)) tx).IsAbort := by
      rintro ⟨q, hq, habort⟩
      cases hq
      exact h habort
    have hother {code : UInt8} (hp : p.IsDfu code) (hne : code ≠ dfuAbort) : ¬ p.IsDfu dfuAbort :=
      fun h => hne (hp.code_unique h)
    have heff := request_effect p c
    by_cases habort : p.IsDfu dfuAbort
    · rw [if_pos ⟨p, rfl, habort⟩, request_abort habort]
      rfl
    · rw [if_neg (hna habort)]
      generalize (Machine.request p c).1 = c' at heff
      cases heff with
      | attempt hatt =>
        have heff := executePending_effect c
        generalize executePending c = c' at heff
        cases heff with
        | setAddress hcmd harg => exact absurd ⟨⟨p, rfl, hatt⟩, hcmd, harg⟩ hset
        | _ => rfl
      | abort hp => exact absurd hp habort
      | _ => rfl
  · have hna : ¬ (UsbEvent.ctr (some (.out data)) tx).IsAbort := by
      rintro ⟨q, hq, -⟩
      cases hq
    rw [coreStep, if_neg hna]
    split_ifs with hdata
    · exact dataStage_addressPtr _ _ _
    · rfl

namespace Machine

def KeepsPointer (s : Machine) (e : UsbEvent) : Prop := e ≠ .reset ∧ ¬ SetsAddress s.core e

instance (s : Machine) (e : UsbEvent) : Decidable (s.KeepsPointer e) :=
  inferInstanceAs (Decidable (_ ∧ _))

theorem run_addressPtr {s : Machine} (hq : s.Quiet) {es : List UsbEvent}
    (hes : StepSystem.Along step KeepsPointer s es) : (s.run es).core.dfu.addressPtr =
      if ∃ e ∈ es, e.IsAbort then appStartAddress else s.core.dfu.addressPtr := by
  induction es generalizing s with
  | nil => simp
  | cons e es ih =>
    obtain ⟨⟨hreset, hset⟩, hes⟩ := hes
    have hstep : (s.step e).core.dfu.addressPtr =
        if e.IsAbort then appStartAddress else s.core.dfu.addressPtr := by
      rw [step_core hq]
      exact coreStep_addressPtr hreset hset
    have htail := ih (step_quiet hq e) hes
    change ((s.step e).run es).core.dfu.addressPtr = _
    rw [htail, hstep]
    by_cases hlater : ∃ e ∈ es, e.IsAbort
    · rw [if_pos hlater, if_pos]
      obtain ⟨e', he', habort⟩ := hlater
      exact ⟨e', List.mem_cons_of_mem _ he', habort⟩
    · rw [if_neg hlater]
      by_cases habort : e.IsAbort
      · rw [if_pos habort, if_pos ⟨e, List.mem_cons_self, habort⟩]
      · rw [if_neg habort, if_neg]
        rintro ⟨e', he', habort'⟩
        rcases List.mem_cons.mp he' with rfl | he'
        · exact habort habort'
        · exact hlater ⟨e', he', habort'⟩

/-- The packet for the host is flash from `addr` on, and what is still to be sent continues it. -/
def AnsweredFrom (s : Machine) (addr : ℕ) : Prop :=
  s.txPacket = toList (fun i => s.core.flash.mem (addr + i)) s.txPacket.length ∧
    s.ep0TxPtr = ⟨.flash, addr + s.txPacket.length⟩

theorem ep0Send_flash (s : Machine) (addr len : ℕ) : (s.ep0Send ⟨.flash, addr⟩ len).AnsweredFrom
    addr := by
  have hpacket := s.ep0Send_txPacket ⟨.flash, addr⟩ len
  have hlen : (s.ep0Send ⟨.flash, addr⟩ len).txPacket.length =
      min (min len s.ep0ReqLen) ep0MaxSize := by
    rw [hpacket, length_toList]
  refine ⟨?_, ?_⟩
  · rw [hlen, hpacket]
    rfl
  · rw [hlen, ep0Send_ptr]

theorem AnsweredFrom.unique {s : Machine} {a b : ℕ} (ha : s.AnsweredFrom a)
    (hb : s.AnsweredFrom b) : a = b := by
  have h := ha.2.symm.trans hb.2
  simp only [TxPtr.mk.injEq, true_and] at h
  omega

/-- An accepted UPLOAD of a block in the region is answered from the address of the block. -/
theorem step_upload {s : Machine} (hq : s.Quiet) {p : SetupPacket} (hp : p.IsDfu dfuUpload)
    (hs : s.core.dfu.state = .idle ∨ s.core.dfu.state = .uploadIdle) (hblock : 2 ≤ p.wValue.toNat)
    (hregion : appFlashStart.toNat ≤ (s.core.dfu.blockAddress p.wValue.toNat).toNat ∧
      (s.core.dfu.blockAddress p.wValue.toNat).toNat ≤ appFlashEnd.toNat) :
    (s.step (.setup p)).AnsweredFrom (s.core.dfu.blockAddress p.wValue.toNat).toNat := by
  have hcall : ∃ len, (request p s.core).2 =
      .send ⟨.flash, (s.core.dfu.blockAddress p.wValue.toNat).toNat⟩ len := by
    rw [request_upload hp]
    rcases handleDfuUpload_of_accepted hs hblock with ⟨-, -, hout⟩ | ⟨hcall, -⟩
    · exact absurd hregion hout
    · rw [hcall]
      exact ⟨_, rfl⟩
  obtain ⟨len, hcall⟩ := hcall
  rw [step_rx hq, if_neg Bool.false_ne_true]
  change (s.receive (.setup p)).AnsweredFrom _
  rw [receive_setup, hcall]
  exact ep0Send_flash _ _ _

end Machine

theorem toNat_blockAddress {d : Dfu} {block : ℕ}
    (h : d.addressPtr.toNat + (block - 2) * 1024 < 2 ^ 32) :
    (d.blockAddress block).toNat = d.addressPtr.toNat + (block - 2) * 1024 := by
  unfold Dfu.blockAddress
  rw [UInt32.toNat_add, UInt32.toNat_mul, UInt32.toNat_ofNat', UInt32.toNat_ofNat']
  have hsize : dfuXferSize = 1024 := rfl
  rw [hsize]
  omega

namespace Machine

/-- SET_ADDRESS(0x08004000), up to the GETSTATUS that executes it, over a flash that holds other bytes
from there on. -/
def addressPending : Machine :=
  (start (fun x => if x < 0x08004000 then 0x11 else 0x22) fun _ => Fault.none).run
    [.setup (.dnload 0 5), .out (.ofBytes [0x21, 0x00, 0x40, 0x00, 0x08]), .setup .getstatus]

end Machine

end NovaBootloader
