import NovaBootloader.DeviceAddress
import NovaBootloader.Ep0Handshake
import NovaBootloader.UploadWalk

/-!
# Control transfers as single steps

A host sees a device that answers requests: it sends a SETUP packet and perhaps data, and gets
bytes, a STALL, or nothing. `Device` is that device: the DFU variables, the flash and an address, and
one step for each transfer. The machine, which handles a transfer packet by packet, refines it.
-/

namespace NovaBootloader
open ByteMemory Machine

def SetupPacket.IsRead (p : SetupPacket) : Prop := p.bmRequestType &&& 0x80 ≠ 0 ∧ p.wLength ≠ 0

instance (p : SetupPacket) : Decidable p.IsRead := inferInstanceAs (Decidable (_ ∧ _))

/-- What a host hears of a transfer, or at one IN token: data, which may be empty, a STALL, or NAKs
only. -/
inductive Response where
  | data (bytes : List UInt8)
  | stalled
  | silent
deriving DecidableEq

/-- What a host does. A transfer that it gives up has some of its packets: a SETUP packet, any OUT
packets and any number of IN tokens. Only a SET_ADDRESS is not given up before its status stage: it
would leave its address behind for a later transfer. -/
inductive Transfer where
  | idle
  | reset
  | complete (p : SetupPacket) (packets : List OutPacket)
  | abandoned (p : SetupPacket) (packets : List OutPacket) (tokens : ℕ)
      (hp : tokens = 0 → ¬ p.IsSetAddress)

namespace Machine

def afterOut (s : Machine) (p : SetupPacket) (packets : List OutPacket) : Machine :=
  (s.step (.setup p)).run (packets.map UsbEvent.out)

/-- The IN packets of a transfer, up to the one the host takes for the last, and after a control read
the status stage. -/
def afterIn (s : Machine) (p : SetupPacket) : Machine × Response :=
  if s.ep0r.statTx = EpStat.valid then
    let r := s.readData (p.wLength.toNat / 64 + 1) p.wLength.toNat
    (if p.IsRead then r.2.step (.out (.ofBytes [])) else r.2, .data r.1)
  else (s, if s.ep0r.statTx = EpStat.stall then .stalled else .silent)

def inToken (s : Machine) : Machine × Response :=
  match s.offered with
  | some packet => (s.step .inDone, .data packet)
  | none => (s, if s.ep0r.statTx = EpStat.stall then .stalled else .silent)

def inTokens : ℕ → Machine → Machine × List Response
  | 0, s => (s, [])
  | k + 1, s =>
    let r := inTokens k s.inToken.1
    (r.1, s.inToken.2 :: r.2)

/-- A transfer as the machine handles it, one packet and one poll after the other, with what the host
hears: the answer of a complete transfer, and of one it gives up the answer to each IN token. -/
def transfer (s : Machine) : Transfer → Machine × List Response
  | .idle => (s.step .idle, [])
  | .reset => (s.step .reset, [])
  | .complete p packets =>
    let r := (s.afterOut p packets).afterIn p
    (r.1, [r.2])
  | .abandoned p packets tokens _ => (s.afterOut p packets).inTokens tokens

end Machine

/-- The memory a request is answered from, the reply buffer apart. -/
def Core.byteAt (c : Core) (p : TxPtr) (i : ℕ) : UInt8 :=
  match p.object with
  | .null => 0
  | .deviceDescriptor => ofList deviceDescriptor (p.offset + i)
  | .configDescriptor => ofList configDescriptor (p.offset + i)
  | .string index => ofList (stringTable index) (p.offset + i)
  | .ep0Reply => 0
  | .flash => c.flash.mem (p.offset + i)

def Ep0Call.response (c : Core) (want : ℕ) : Ep0Call → Response
  | .reply bytes => .data (bytes.take want)
  | .send data len => .data (toList (c.byteAt data) (min len want))
  | .sendZlp => .data []
  | .stall => .stalled
  | .enableRx => .silent

/-- What `k` IN tokens bring of an answer: its packets one after the other, then NAKs. -/
def Response.answers : ℕ → ℕ → Response → List Response
  | 0, _, _ => []
  | k + 1, want, .data bytes =>
    if ep0MaxSize ≤ bytes.length ∧ ep0MaxSize < want then
      .data (bytes.take ep0MaxSize) ::
        answers k (want - ep0MaxSize) (.data (bytes.drop ep0MaxSize))
    else .data bytes :: List.replicate k .silent
  | k + 1, _, r => List.replicate (k + 1) r

structure Device where
  core : Core
  address : UInt8

namespace Device

/-- The address after a request. Address 0 cannot be asked for: `pending_address` has it for "none". -/
def addressAfter (p : SetupPacket) (address : UInt8) : UInt8 :=
  if p.IsSetAddress ∧ p.newAddress ≠ 0 then p.newAddress else address

def receive (x : Core × Response) (d : OutPacket) : Core × Response :=
  (coreStep x.1 (.out d), if x.1.Acknowledges d then .data [] else x.2)

def exchange (c : Core) (p : SetupPacket) (packets : List OutPacket) : Core × Response :=
  packets.foldl receive
    ((request p c).1, (request p c).2.response (request p c).1 p.wLength.toNat)

def transfer (v : Device) : Transfer → Device × List Response
  | .idle => (v, [])
  | .reset => (⟨coreStep v.core .reset, 0⟩, [])
  | .complete p packets =>
    let r := exchange v.core p packets
    (⟨r.1, addressAfter p v.address⟩, [r.2])
  | .abandoned p packets tokens _ =>
    let r := exchange v.core p packets
    (⟨r.1, addressAfter p v.address⟩, r.2.answers tokens p.wLength.toNat)

end Device

namespace Machine

/-- The machine between two transfers stands for the device. -/
structure StandsFor (s : Machine) (v : Device) : Prop where
  ep0 : s.Ep0Consistent
  core : s.core = v.core
  daddr : s.daddr = deviceAddress v.address
  pendingAddress : s.pendingAddress = 0

def Offers (s : Machine) (want : ℕ) : Response → Prop
  | .data bytes => ∃ data n, s.Sending data n want ∧ toList data n = bytes
  | .stalled => s.ep0r.statTx = EpStat.stall
  | .silent => s.ep0r.statTx = EpStat.nak

section Setup

variable (s : Machine)

theorem txByte_eq_byteAt {p : TxPtr} (hp : p.object ≠ .ep0Reply) : s.txByte p = s.core.byteAt p := by
  funext i
  unfold txByte Core.byteAt
  cases hobject : p.object with
  | ep0Reply => exact absurd hobject hp
  | _ => rfl

theorem ep0SendZlp_sending (want : ℕ) : s.ep0SendZlp.Sending (fun _ => 0) 0 want where
  statTx := by simp [ep0SendZlp]
  packet := ep0SendZlp_txPacket s
  remaining := rfl
  bytes _ := rfl
  needZlp := (decide_eq_false fun h => Nat.lt_irrefl 0 h.1).symm
  le := Nat.zero_le _

theorem request_send_object {p : SetupPacket} {c : Core} {data : TxPtr} {len : ℕ}
    (h : (request p c).2 = .send data len) : data.object ≠ .ep0Reply := by
  rcases request_short_or_flash p c with hshort | ⟨data', len', hcall, hflash⟩
  · rw [h] at hshort
    exact hshort.2
  · obtain ⟨rfl, rfl⟩ := Ep0Call.send.inj (h.symm.trans hcall)
    rw [hflash]
    decide

theorem runCall_offers {call : Ep0Call} (hsend : ∀ data len, call = .send data len →
      data.object ≠ .ep0Reply) (hstat : s.ep0r.statTx = EpStat.nak) :
    (s.runCall call).Offers s.ep0ReqLen (call.response s.core s.ep0ReqLen) := by
  have hcalled : (s.runCall call).ep0r.statTx = call.statTx EpStat.nak := by
    rw [runCall_ep0r, hstat]
  cases call with
  | reply bytes =>
    refine ⟨_, _, ep0Send_sending _ _ _, ?_⟩
    rw [← toList_ofList_take]
    apply toList_congr
    intro i hi
    change overwrite s.ep0Reply 0 bytes.length (ofList bytes) (0 + i) = _
    rw [Nat.zero_add, overwrite_of_mem (Nat.zero_le _) (by omega), Nat.sub_zero]
  | send data len =>
    refine ⟨_, _, ep0Send_sending _ _ _, ?_⟩
    rw [txByte_eq_byteAt s (hsend data len rfl)]
  | sendZlp => exact ⟨_, _, ep0SendZlp_sending s _, rfl⟩
  | stall => exact hcalled
  | enableRx => exact hcalled

end Setup

/-- In the middle of a transfer that began with the SETUP packet `p` at the device `v`. -/
structure InTransfer (s : Machine) (v : Device) (p : SetupPacket) (x : Core × Response) : Prop where
  ep0 : s.Ep0Consistent
  core : s.core = x.1
  daddr : s.daddr = deviceAddress v.address
  pendingAddress : s.pendingAddress = addressAfter p 0
  offers : s.Offers p.wLength.toNat x.2

section OutPackets

variable {s : Machine} {v : Device} {p : SetupPacket} {x : Core × Response}

theorem step_setup (hq : s.Quiet) (p : SetupPacket) : s.step (.setup p) = s.receive (.setup p) :=
  step_rx hq (.setup p) false

theorem step_out (hq : s.Quiet) (d : OutPacket) : s.step (.out d) = s.receive (.out d) :=
  step_rx hq (.out d) false

theorem StandsFor.step_setup (h : s.StandsFor v) (p : SetupPacket) :
    (s.step (.setup p)).InTransfer v p ((request p v.core).1,
      (request p v.core).2.response (request p v.core).1 p.wLength.toNat) := by
  have hstep := Machine.step_setup h.ep0.quiet p
  obtain ⟨hdaddr, hpending⟩ := receive_setup_address s p
  refine ⟨h.ep0.step _, ?_, ?_, ?_, ?_⟩
  · rw [step_core h.ep0.quiet, coreStep, h.core]
  · rw [hstep, hdaddr, h.daddr]
  · rw [hstep, hpending, h.pendingAddress]
  · rw [hstep, receive_setup, ← h.core]
    apply runCall_offers
    · exact fun data len => request_send_object
    · simp [abandonTransfer, latchRx]

theorem receive_out_eq (s : Machine) (d : OutPacket) : s.receive (.out d) =
    { if s.core.Acknowledges d then { s with pma := storeRx d.bytes s.pma }.ep0SendZlp
      else { s with pma := storeRx d.bytes s.pma } with
      core := coreStep s.core (.out d)
      ep0r := (s.receive (.out d)).ep0r
      istr := ⟨false, true, 0⟩ } := by
  rw [receive_out]
  unfold coreStep
  dsimp only
  by_cases hdata : s.core.dfu.state = .dnloadSync ∧ 0 < d.bytes.length
  · rw [if_pos hdata, if_pos hdata]
    by_cases hack : (dataStage (ofList d.bytes) d.bytes.length s.core.dfu).2 = true
    · rw [if_pos hack, if_pos (show s.core.Acknowledges d from ⟨hdata, hack⟩)]
      rfl
    · rw [if_neg hack, if_neg (fun h : s.core.Acknowledges d => hack h.2)]
      rfl
  · rw [if_neg hdata, if_neg hdata, if_neg (fun h : s.core.Acknowledges d => hdata h.1)]
    rfl

theorem Sending.receive_out {data : ℕ → UInt8} {n want : ℕ} (h : s.Sending data n want)
    (hb : s.TxBounded) {d : OutPacket} (hno : ¬ s.core.Acknowledges d) :
    (s.receive (.out d)).Sending data n want := by
  have heq := receive_out_eq s d
  have hstat := receive_out_ep0r s d
  have hflash : (s.receive (.out d)).core.flash.mem = s.core.flash.mem := by
    rw [receive_core s (.out d) false, coreStep_flash (by simp [Executes, UsbEvent.setup?])]
  rw [if_neg hno] at heq hstat
  have hreply : (s.receive (.out d)).ep0Reply = s.ep0Reply := by rw [heq]
  have hptr : (s.receive (.out d)).ep0TxPtr = s.ep0TxPtr := by rw [heq]
  refine ⟨?_, ?_, ?_, fun i => ?_, ?_, h.le⟩
  · rw [hstat]
    exact h.statTx
  · rw [heq]
    exact (latchRx_txPacket hb (.out d)).trans h.packet
  · rw [heq]
    exact h.remaining
  · rw [txByte_congr hflash hreply, hptr]
    exact h.bytes i
  · rw [heq]
    exact h.needZlp

theorem receive_out_sending (s : Machine) {d : OutPacket} (hack : s.core.Acknowledges d) (want : ℕ) :
    (s.receive (.out d)).Sending (fun _ => 0) 0 want := by
  have heq := receive_out_eq s d
  have hstat := receive_out_ep0r s d
  rw [if_pos hack] at heq hstat
  have h := ep0SendZlp_sending { s with pma := storeRx d.bytes s.pma } want
  refine ⟨?_, ?_, ?_, fun i => ?_, ?_, h.le⟩
  · rw [hstat]
  · rw [heq]
    exact h.packet
  · rw [heq]
    exact h.remaining
  · rw [heq]
    rfl
  · rw [heq]
    exact h.needZlp

theorem InTransfer.step_out (h : s.InTransfer v p x) (d : OutPacket) :
    (s.step (.out d)).InTransfer v p (Device.receive x d) := by
  have hstep := Machine.step_out h.ep0.quiet d
  obtain ⟨hdaddr, hpending⟩ := receive_out_address s d
  refine ⟨h.ep0.step _, ?_, ?_, ?_, ?_⟩
  · rw [step_core h.ep0.quiet, h.core]
    rfl
  · rw [hstep, hdaddr, h.daddr]
  · rw [hstep, hpending, h.pendingAddress]
  · unfold Device.receive
    rw [hstep]
    by_cases hack : s.core.Acknowledges d
    · rw [← h.core, if_pos hack]
      exact ⟨_, _, receive_out_sending s hack _, rfl⟩
    · rw [← h.core, if_neg hack]
      have hoffers := h.offers
      have hstat := receive_out_ep0r s d
      rw [if_neg hack] at hstat
      cases hx : x.2 with
      | data bytes =>
        rw [hx] at hoffers
        obtain ⟨data, n, hsending, hbytes⟩ := hoffers
        exact ⟨data, n, hsending.receive_out h.ep0.txBounded hack, hbytes⟩
      | stalled =>
        rw [hx] at hoffers
        change (s.receive (.out d)).ep0r.statTx = EpStat.stall
        rw [hstat]
        exact hoffers
      | silent =>
        rw [hx] at hoffers
        change (s.receive (.out d)).ep0r.statTx = EpStat.nak
        rw [hstat]
        exact hoffers

theorem InTransfer.run_out (h : s.InTransfer v p x) (packets : List OutPacket) :
    (s.run (packets.map UsbEvent.out)).InTransfer v p (packets.foldl Device.receive x) := by
  induction packets generalizing s x with
  | nil => exact h
  | cons d packets ih => exact ih (h.step_out d)

theorem StandsFor.afterOut (h : s.StandsFor v) (p : SetupPacket) (packets : List OutPacket) :
    (s.afterOut p packets).InTransfer v p (Device.exchange v.core p packets) :=
  (h.step_setup p).run_out packets

end OutPackets

section InPackets

variable {s : Machine} {v : Device} {data : ℕ → UInt8} {n want : ℕ}

theorem Sending.midTransfer_iff (h : s.Sending data n want) :
    s.MidTransfer ↔ 64 ≤ n ∧ 64 < want := by
  have hsize : ep0MaxSize = 64 := rfl
  have hle := h.le
  unfold MidTransfer
  rw [h.remaining, h.needZlp, decide_eq_true_iff, hsize]
  omega

theorem Sending.advance (h : s.Sending data n want) (hq : s.Quiet) (hn : 64 ≤ n)
    (hwant : 64 < want) :
    (s.step .inDone).Sending (fun i => data (64 + i)) (n - 64) (want - 64) := by
  have hpolled : ({ s with istr := ⟨false, true, 0⟩ } : Machine).Sending data n want :=
    ⟨h.statTx, h.packet, h.remaining, h.bytes, h.needZlp, h.le⟩
  rcases hn.lt_or_eq with hlt | rfl
  · rw [step_inDone_collected hq]
    exact hpolled.next hlt
  · have hrem : s.ep0TxRemaining = 0 := h.remaining
    have hzlp : s.ep0TxNeedZlp = true := by
      rw [h.needZlp]
      exact decide_eq_true ⟨by decide, hwant, rfl⟩
    have hoffered := (hpolled.zlp hwant).1
    rw [← step_inDone_collected hq, offered_eq_some_iff] at hoffered
    have hstep : s.step .inDone = { s.latchTx with
        istr := ⟨false, true, 0⟩
        ep0TxNeedZlp := false
        pma := s.pma.write (btableOffset + 2) 0
        ep0r := s.latchTx.ep0r.clearCtrTx.setTxStatus EpStat.valid } := by
      rw [step_inDone hq]
      exact handleEp0In_of_needZlp (s := { s.latchTx with istr := _ }) hrem.not_gt hzlp
    refine ⟨hoffered.1, hoffered.2.symm, ?_, fun i => ?_, ?_, by omega⟩
    · rw [hstep]
      exact hrem
    · rw [hstep]
      exact (h.bytes i).trans (by rw [Nat.sub_self, Nat.zero_min, Nat.zero_add]; rfl)
    · rw [hstep]
      exact (decide_eq_false fun h => Nat.lt_irrefl 0 h.1).symm

def settledAddress (s : Machine) : UInt16 :=
  if s.pendingAddress = 0 then s.daddr else deviceAddress s.pendingAddress

theorem step_inDone_of_midTransfer (hq : s.Quiet) (hmid : s.MidTransfer) :
    (s.step .inDone).daddr = s.daddr ∧ (s.step .inDone).pendingAddress = s.pendingAddress := by
  have hpolled : ({ s.latchTx with istr := ⟨false, true, 0⟩ } : Machine).MidTransfer := hmid
  rw [step_inDone hq]
  exact (handleEp0In_of_midTransfer hpolled).2

theorem step_inDone_of_not_midTransfer (hq : s.Quiet) (hmid : ¬ s.MidTransfer) :
    (s.step .inDone).daddr = s.settledAddress ∧ (s.step .inDone).pendingAddress = 0 := by
  have hpolled : ¬ ({ s.latchTx with istr := ⟨false, true, 0⟩ } : Machine).MidTransfer := hmid
  rw [step_inDone hq, handleEp0In_of_not_midTransfer hpolled]
  exact ⟨rfl, rfl⟩

structure DataRead (s : Machine) (bytes : List UInt8) (r : List UInt8 × Machine) : Prop where
  bytes : r.1 = bytes
  ep0 : r.2.Ep0Consistent
  core : r.2.core = s.core
  daddr : r.2.daddr = s.settledAddress
  pendingAddress : r.2.pendingAddress = 0

theorem Sending.readData {fuel : ℕ} (h : s.Sending data n want) (hs : s.Ep0Consistent)
    (hfuel : want < 64 * fuel) : s.DataRead (toList data n) (s.readData fuel want) := by
  induction fuel generalizing s data n want with
  | zero => omega
  | succ fuel ih =>
    have hsize : ep0MaxSize = 64 := rfl
    have hle := h.le
    have hmid := h.midTransfer_iff
    have hcore := step_inDone_core hs.quiet
    have hoffered : s.offered = some (toList data (min n 64)) :=
      offered_eq_some_iff.mpr ⟨h.statTx, h.packet.symm⟩
    unfold Machine.readData
    rw [hoffered]
    dsimp only
    rw [length_toList, hsize]
    by_cases hmore : 64 ≤ n ∧ 64 < want
    · have hrest := ih (h.advance hs.quiet hmore.1 hmore.2) (hs.step _) (by omega)
      obtain ⟨hdaddr, hpending⟩ := step_inDone_of_midTransfer hs.quiet (hmid.mpr hmore)
      rw [if_neg (by omega), min_eq_right hmore.1]
      refine ⟨?_, hrest.ep0, hrest.core.trans hcore, ?_, hrest.pendingAddress⟩
      · have happ := toList_append data 64 (n - 64)
        rw [Nat.add_sub_cancel' hmore.1] at happ
        rw [hrest.bytes, happ]
      · rw [hrest.daddr, settledAddress, hdaddr, hpending]
        rfl
    · obtain ⟨hdaddr, hpending⟩ := step_inDone_of_not_midTransfer hs.quiet (mt hmid.mp hmore)
      rw [if_pos (by omega)]
      exact ⟨by rw [min_eq_left (by omega)], hs.step .inDone, hcore, hdaddr, hpending⟩

end InPackets

section Transfers

variable {s : Machine} {v : Device} {p : SetupPacket} {x : Core × Response}

theorem exchange_setAddress (c : Core) (hp : p.IsSetAddress) (packets : List OutPacket) :
    (Device.exchange c p packets).2 = .data [] := by
  have hcall : (request p c).2 = .sendZlp := by
    have hother : ¬ p.bRequest = usbReqGetDescriptor := by
      rw [hp.2]
      decide
    rw [request, if_pos hp.1, standardCall, if_neg hother, if_pos hp.2]
  have hfold (x : Core × Response) (hx : x.2 = .data []) :
      (packets.foldl Device.receive x).2 = .data [] := by
    induction packets generalizing x with
    | nil => exact hx
    | cons d packets ih =>
      apply ih
      unfold Device.receive
      split_ifs
      · rfl
      · exact hx
  apply hfold
  rw [hcall]
  rfl

theorem InTransfer.settledAddress (h : s.InTransfer v p x) :
    s.settledAddress = deviceAddress (Device.addressAfter p v.address) := by
  unfold Machine.settledAddress Device.addressAfter
  rw [h.pendingAddress, h.daddr]
  by_cases hp : p.IsSetAddress
  · rw [addressAfter_setAddress hp]
    by_cases hzero : p.newAddress = 0
    · rw [if_pos hzero, if_neg fun h => h.2 hzero]
    · rw [if_neg hzero, if_pos ⟨hp, hzero⟩]
  · rw [addressAfter_other hp, if_pos rfl, if_neg fun h => hp h.1]

theorem InTransfer.standsFor (h : s.InTransfer v p x) (hp : ¬ p.IsSetAddress) :
    s.StandsFor ⟨x.1, Device.addressAfter p v.address⟩ := by
  have haddress : Device.addressAfter p v.address = v.address := if_neg fun h => hp h.1
  refine ⟨h.ep0, h.core, ?_, ?_⟩
  · rw [h.daddr, haddress]
  · rw [h.pendingAddress, addressAfter_other hp]

theorem InTransfer.afterIn (h : s.InTransfer v p x) (hx : p.IsSetAddress → x.2 = .data []) :
    (s.afterIn p).2 = x.2 ∧
      (s.afterIn p).1.StandsFor ⟨x.1, Device.addressAfter p v.address⟩ := by
  have hoffers := h.offers
  have hsettled := h.settledAddress
  -- a host that hears no data has not sent SET_ADDRESS
  have hquiet (hdata : x.2 ≠ .data []) : s.StandsFor ⟨x.1, Device.addressAfter p v.address⟩ :=
    h.standsFor fun hp => hdata (hx hp)
  unfold Machine.afterIn
  cases hresponse : x.2 with
  | data bytes =>
    rw [hresponse] at hoffers
    obtain ⟨data, n, hsending, rfl⟩ := hoffers
    have hread := hsending.readData h.ep0
      (by omega : p.wLength.toNat < 64 * (p.wLength.toNat / 64 + 1))
    have hstands : (s.readData (p.wLength.toNat / 64 + 1) p.wLength.toNat).2.StandsFor
        ⟨x.1, Device.addressAfter p v.address⟩ :=
      ⟨hread.ep0, hread.core.trans h.core, hread.daddr.trans hsettled, hread.pendingAddress⟩
    rw [if_pos hsending.statTx]
    refine ⟨congrArg Response.data hread.bytes, ?_⟩
    dsimp only
    by_cases hstatus : p.IsRead
    · -- the status stage is an empty OUT packet
      have hout := receive_out_address (s.readData (p.wLength.toNat / 64 + 1) p.wLength.toNat).2
        (.ofBytes [])
      rw [← Machine.step_out hread.ep0.quiet] at hout
      rw [if_pos hstatus]
      refine ⟨hread.ep0.step _, ?_, hout.1.trans hstands.daddr, hout.2.trans hstands.pendingAddress⟩
      exact (step_statusStage hread.ep0.quiet).1.trans hstands.core
    · rw [if_neg hstatus]
      exact hstands
  | stalled =>
    rw [hresponse] at hoffers
    have hstat : s.ep0r.statTx = EpStat.stall := hoffers
    rw [if_neg (by rw [hstat]; exact EpStat.valid_ne_stall.symm), if_pos hstat]
    exact ⟨rfl, hquiet (by rw [hresponse]; exact Response.noConfusion)⟩
  | silent =>
    rw [hresponse] at hoffers
    have hstat : s.ep0r.statTx = EpStat.nak := hoffers
    rw [if_neg (by rw [hstat]; decide), if_neg (by rw [hstat]; exact EpStat.nak_ne_stall)]
    exact ⟨rfl, hquiet (by rw [hresponse]; exact Response.noConfusion)⟩

theorem inToken_of_not_valid (h : s.ep0r.statTx ≠ EpStat.valid) :
    s.inToken = (s, if s.ep0r.statTx = EpStat.stall then .stalled else .silent) := by
  have hnone : s.offered = none := if_neg h
  rw [inToken, hnone]

theorem inTokens_of_not_valid (h : s.ep0r.statTx ≠ EpStat.valid) (k : ℕ) : (s.inTokens k).2 =
    List.replicate k (if s.ep0r.statTx = EpStat.stall then .stalled else .silent) := by
  induction k with
  | zero => rfl
  | succ k ih =>
    rw [inTokens, inToken_of_not_valid h]
    dsimp only
    rw [ih, List.replicate_succ]

theorem step_inDone_statTx (hq : s.Quiet) (hmid : ¬ s.MidTransfer) :
    (s.step .inDone).ep0r.statTx = EpStat.nak := by
  have hpolled : ¬ ({ s.latchTx with istr := ⟨false, true, 0⟩ } : Machine).MidTransfer := hmid
  rw [step_inDone hq, handleEp0In_of_not_midTransfer hpolled, EpReg.clearCtrTx_eq]
  rfl

/-- Each packet is one of the answer, and behind the last one the host hears NAK. -/
theorem Sending.inTokens {data : ℕ → UInt8} {n want : ℕ} (h : s.Sending data n want)
    (hs : s.Ep0Consistent) (k : ℕ) :
    (s.inTokens k).2 = (Response.data (toList data n)).answers k want := by
  induction k generalizing s data n want with
  | zero => rfl
  | succ k ih =>
    have hsize : ep0MaxSize = 64 := rfl
    have hle := h.le
    have hmid := h.midTransfer_iff
    have hoffered : s.offered = some (toList data (min n ep0MaxSize)) :=
      offered_eq_some_iff.mpr ⟨h.statTx, h.packet.symm⟩
    have htoken : s.inToken = (s.step .inDone, .data (toList data (min n ep0MaxSize))) := by
      rw [inToken, hoffered]
    rw [Machine.inTokens, htoken, Response.answers, length_toList]
    dsimp only
    by_cases hmore : ep0MaxSize ≤ n ∧ ep0MaxSize < want
    · have hsplit := toList_append data ep0MaxSize (n - ep0MaxSize)
      rw [Nat.add_sub_cancel' hmore.1] at hsplit
      have hlen : (toList data ep0MaxSize).length = ep0MaxSize := length_toList _ _
      rw [if_pos hmore, ih (h.advance hs.quiet hmore.1 hmore.2) (hs.step _), min_eq_right hmore.1,
        ← hsplit, List.take_left' hlen, List.drop_left' hlen]
      rfl
    · have hstat := step_inDone_statTx hs.quiet (mt hmid.mp hmore)
      have hnak : (s.step .inDone).ep0r.statTx ≠ EpStat.valid := by
        rw [hstat]
        decide
      rw [if_neg hmore, inTokens_of_not_valid hnak, hstat, if_neg EpStat.nak_ne_stall,
        min_eq_left (by omega)]

theorem Offers.inTokens {want : ℕ} {r : Response} (h : s.Offers want r) (hs : s.Ep0Consistent)
    (k : ℕ) : (s.inTokens k).2 = r.answers k want := by
  cases r with
  | data bytes =>
    obtain ⟨data, n, hsending, rfl⟩ := h
    exact hsending.inTokens hs k
  | stalled =>
    have hstat : s.ep0r.statTx = EpStat.stall := h
    rw [inTokens_of_not_valid (by rw [hstat]; exact EpStat.valid_ne_stall.symm), if_pos hstat]
    cases k <;> rfl
  | silent =>
    have hstat : s.ep0r.statTx = EpStat.nak := h
    rw [inTokens_of_not_valid (by rw [hstat]; decide),
      if_neg (by rw [hstat]; exact EpStat.nak_ne_stall)]
    cases k <;> rfl

theorem StandsFor.step_inDone (h : s.StandsFor v) : (s.step .inDone).StandsFor v := by
  have hcore := (step_inDone_core h.ep0.quiet).trans h.core
  by_cases hmid : s.MidTransfer
  · obtain ⟨hdaddr, hpending⟩ := step_inDone_of_midTransfer h.ep0.quiet hmid
    exact ⟨h.ep0.step .inDone, hcore, hdaddr.trans h.daddr, hpending.trans h.pendingAddress⟩
  · obtain ⟨hdaddr, hpending⟩ := step_inDone_of_not_midTransfer h.ep0.quiet hmid
    rw [Machine.settledAddress, if_pos h.pendingAddress] at hdaddr
    exact ⟨h.ep0.step .inDone, hcore, hdaddr.trans h.daddr, hpending⟩

theorem StandsFor.inTokens (h : s.StandsFor v) (k : ℕ) : (s.inTokens k).1.StandsFor v := by
  induction k generalizing s with
  | zero => exact h
  | succ k ih =>
    have hone : s.inToken.1.StandsFor v := by
      unfold inToken
      split
      · exact h.step_inDone
      · exact h
    exact ih hone

/-- Once its status packet is collected a SET_ADDRESS is over. -/
theorem InTransfer.inTokens (h : s.InTransfer v p x) (hx : p.IsSetAddress → x.2 = .data []) {k : ℕ}
    (hp : k = 0 → ¬ p.IsSetAddress) :
    (s.inTokens k).1.StandsFor ⟨x.1, Device.addressAfter p v.address⟩ := by
  have hsettled := h.settledAddress
  by_cases hset : p.IsSetAddress
  · obtain ⟨k, rfl⟩ := Nat.exists_eq_succ_of_ne_zero fun hzero => hp hzero hset
    have hoffers := h.offers
    rw [hx hset] at hoffers
    obtain ⟨data, n, hsending, hbytes⟩ := hoffers
    have hn : n = 0 := by rw [← length_toList data n, hbytes, List.length_nil]
    have hmid : ¬ s.MidTransfer := by
      rw [hsending.midTransfer_iff]
      omega
    obtain ⟨hdaddr, hpending⟩ := step_inDone_of_not_midTransfer h.ep0.quiet hmid
    have hoffered : s.offered = some [] := by
      rw [offered_eq_some_iff, hsending.packet, hn]
      exact ⟨hsending.statTx, rfl⟩
    have htoken : s.inToken.1 = s.step .inDone := by rw [inToken, hoffered]
    rw [Machine.inTokens, htoken]
    exact StandsFor.inTokens ⟨h.ep0.step _, (step_inDone_core h.ep0.quiet).trans h.core,
      hdaddr.trans hsettled, hpending⟩ k
  · exact (h.standsFor hset).inTokens k

theorem StandsFor.transfer (h : s.StandsFor v) (t : Transfer) :
    (s.transfer t).2 = (v.transfer t).2 ∧ (s.transfer t).1.StandsFor (v.transfer t).1 := by
  cases t with
  | idle => exact ⟨rfl, h.ep0.step .idle, h.core, h.daddr, h.pendingAddress⟩
  | reset =>
    have hcore : (s.step .reset).core = coreStep v.core .reset := by
      rw [step_core h.ep0.quiet, h.core]
    exact ⟨rfl, h.ep0.step .reset, hcore, (by decide : usbDaddrEf = deviceAddress 0),
      h.pendingAddress⟩
  | complete p packets =>
    obtain ⟨hresponse, hstands⟩ :=
      (h.afterOut p packets).afterIn fun hp => exchange_setAddress _ hp packets
    exact ⟨congrArg (fun r => [r]) hresponse, hstands⟩
  | abandoned p packets tokens hp =>
    have hout := h.afterOut p packets
    exact ⟨hout.offers.inTokens hout.ep0 tokens,
      hout.inTokens (fun hset => exchange_setAddress _ hset packets) hp⟩

end Transfers

/-- Whatever transfers a host makes, completes or gives up, each packet by packet: it hears from the
machine, packet for packet, what it would hear from a device that handles a transfer in one step, and
machine and device end with the same DFU variables, flash and address. -/
theorem control_transfers_atomic (mem : ℕ → UInt8) (faults : ℕ → Fault) (ts : List Transfer) :
    let v : Device := ⟨(start mem faults).core, 0⟩
    StepSystem.outputs (fun s t => (s.transfer t).1) (fun s t => [(s.transfer t).2])
        (start mem faults) ts =
      StepSystem.outputs (fun v t => (v.transfer t).1) (fun v t => [(v.transfer t).2]) v ts ∧
    (StepSystem.run (fun s t => (s.transfer t).1) (start mem faults) ts).StandsFor
      (StepSystem.run (fun v t => (v.transfer t).1) v ts) := by
  intro v
  have hstart : (start mem faults).StandsFor v :=
    ⟨start_ep0Consistent mem faults, rfl, (by decide : usbDaddrEf = deviceAddress 0), rfl⟩
  exact StepSystem.outputs_bisimulation (fun (s : Machine) (v : Device) => s.StandsFor v)
    (fun _ _ t h => (h.transfer t).2)
    (fun _ _ t h => congrArg (fun response => [response]) (h.transfer t).1) hstart ts

end Machine

end NovaBootloader
