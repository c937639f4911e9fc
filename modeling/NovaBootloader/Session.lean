import NovaBootloader.Exchange
import NovaBootloader.Reference
import NovaBootloader.TxBuffer

/-!
# A download session computes the reference interpreter

The host sends each command as an exchange: a DNLOAD request, the payload in packets of its choice,
and two polls. Over a flash that raises no error, the exchange takes the machine where the reference
interpreter goes, and the polls report what it reports. `Core.view` is the abstraction function.
-/

namespace NovaBootloader
open ByteMemory

section Faultless

/-- The flash controller raises no error from here on. -/
def FlashHw.Faultless (h : FlashHw) : Prop := ∀ k, (h.faults k).raised = false

theorem length_padEven (bytes : List UInt8) :
    (padEven bytes).length = 2 * ((bytes.length + 1) / 2) := by
  unfold padEven
  split_ifs
  · omega
  · rw [List.length_append, List.length_singleton]
    omega

theorem padded_eq {data : ℕ → UInt8} {bytes : List UInt8} (hdata : toList data bytes.length = bytes)
    {i : ℕ} (hi : i < (padEven bytes).length) :
    padded data bytes.length i = ofList (padEven bytes) i := by
  have hlen := length_padEven bytes
  unfold padded padEven
  by_cases hlt : i < bytes.length
  · rw [if_pos hlt, eq_ofList_of_toList hdata hlt]
    split_ifs
    · rfl
    · rw [ofList_append_left hlt]
  · rw [if_neg hlt, if_neg (by omega), ofList_append_right (by omega),
      (by omega : i - bytes.length = 0)]
    rfl

theorem flashWrite_faultless {h : FlashHw} (hf : h.Faultless) (a : UInt32) {data : ℕ → UInt8}
    {bytes : List UInt8} (hdata : toList data bytes.length = bytes) (hpos : 0 < bytes.length)
    (hlen : bytes.length ≤ dfuXferSize) :
    (flashWrite a data bytes.length h).1.Faultless ∧
    ((flashWrite a data bytes.length h).2 = 0 ↔ InRegion a.toNat bytes.length) ∧
    (flashWrite a data bytes.length h).1.mem = if InRegion a.toNat bytes.length then
      overwrite h.mem a.toNat (padEven bytes).length (ofList (padEven bytes)) else h.mem := by
  have hlt : bytes.length < 2 ^ 31 := lt_of_le_of_lt hlen (by decide)
  by_cases hr : InRegion a.toNat bytes.length
  · obtain ⟨-, hmem, hfaults, hrc⟩ := flashWrite_of_inRegion data h hpos hlt hr
    have hall : programmed h.faults h.ops ((bytes.length + 1) / 2) = (bytes.length + 1) / 2 :=
      (programmed_eq_iff _ _ _).mpr fun j _ => hf (h.ops + j)
    refine ⟨fun k => ?_, iff_of_true (hrc.mpr fun j _ => hf _) hr, ?_⟩
    · rw [hfaults]
      exact hf k
    · rw [if_pos hr, hmem, hall, ← length_padEven]
      exact overwrite_congr fun i hi => padded_eq hdata hi
  · rw [flashWrite_of_not_inRegion data h hpos hlt hr, if_neg hr]
    have hrc : (-1 : ℤ) ≠ 0 := by decide
    exact ⟨hf, iff_of_false hrc hr, rfl⟩

theorem page_inRegion_iff (a : UInt32) :
    InRegion (a.toNat / 2048 * 2048) 2048 ↔ flashIsAddressValid a = true := by
  rw [flashIsAddressValid_iff]
  simp only [InRegion, toNat_appFlashStart, toNat_appFlashEnd]
  omega

theorem flashErasePage_faultless {h : FlashHw} (hf : h.Faultless) (a : UInt32) :
    (flashErasePage a h).1.Faultless ∧
    ((flashErasePage a h).2 = 0 ↔ InRegion (a.toNat / 2048 * 2048) 2048) ∧
    (flashErasePage a h).1.mem = if InRegion (a.toNat / 2048 * 2048) 2048 then
      overwrite h.mem (a.toNat / 2048 * 2048) 2048 (fun _ => 0xFF) else h.mem := by
  have hpage := page_inRegion_iff a
  cases ha : flashIsAddressValid a with
  | false =>
    have hr : ¬ InRegion (a.toNat / 2048 * 2048) 2048 := by
      rw [hpage, ha]
      exact Bool.false_ne_true
    have hrc : (-1 : ℤ) ≠ 0 := by decide
    rw [flashErasePage_of_invalid h ha, if_neg hr]
    exact ⟨hf, iff_of_false hrc hr, rfl⟩
  | true =>
    have hr := hpage.mpr ha
    obtain ⟨-, hmem, hfaults, hrc⟩ := flashErasePage_of_valid h ha
    refine ⟨fun k => ?_, iff_of_true (hrc.mpr (hf _)) hr, ?_⟩
    · rw [hfaults]
      exact hf k
    · rw [hmem, hf, if_neg Bool.false_ne_true, if_pos hr]
      rfl

end Faultless

/-- The reference interpreter's view of the DFU variables and the flash. -/
def Core.view (c : Core) : Reference := ⟨c.flash.mem, c.dfu.addressPtr, c.dfu.state, c.dfu.status⟩

/-- The wrapping block address is in the region exactly if the unbounded one is, and is then the
same. -/
theorem inRegion_blockAddress_iff {d : Dfu} {block n : ℕ} (hblock : block < 2 ^ 16) :
    (InRegion (d.blockAddress block).toNat n ↔
      InRegion (d.addressPtr.toNat + (block - 2) * 1024) n) ∧
    (InRegion (d.addressPtr.toNat + (block - 2) * 1024) n →
      (d.blockAddress block).toNat = d.addressPtr.toNat + (block - 2) * 1024) := by
  have hptr := d.addressPtr.toNat_lt
  have hsize : dfuXferSize = 1024 := rfl
  have haddr : (d.blockAddress block).toNat =
      (d.addressPtr.toNat + (block - 2) * 1024) % 2 ^ 32 := by
    unfold Dfu.blockAddress
    rw [UInt32.toNat_add, UInt32.toNat_mul, UInt32.toNat_ofNat', UInt32.toNat_ofNat', hsize]
    omega
  simp only [InRegion, toNat_appFlashStart, toNat_appFlashEnd, haddr]
  omega

section Attempts

variable {c : Core}

theorem executePending_dataBlock (hf : c.flash.Faultless) {block : ℕ} {bytes : List UInt8}
    (h2 : 2 ≤ block) (hpos : 0 < bytes.length) (hlen : bytes.length ≤ dfuXferSize)
    (hblock : block < 2 ^ 16) (hcmd : c.dfu.cmdPending = 0)
    (hbuf : toList c.dfu.buffer c.dfu.bufferLen = bytes)
    (haddr : c.dfu.address = c.dfu.blockAddress block) :
    (executePending c).flash.Faultless ∧
      (executePending c).view = c.view.exec (.dataBlock block bytes h2 hpos hlen) := by
  have hbl : c.dfu.bufferLen = bytes.length := by rw [← hbuf, length_toList]
  rw [hbl] at hbuf
  obtain ⟨hf', hrc, hmem⟩ := flashWrite_faultless hf c.dfu.address hbuf hpos hlen
  obtain ⟨hiff, heq⟩ := inRegion_blockAddress_iff (d := c.dfu) (n := bytes.length) hblock
  rw [haddr] at hf' hrc hmem
  unfold executePending
  rw [if_neg (not_not.mpr hcmd), if_pos (by omega)]
  unfold writeBuffer Reference.exec Core.view
  dsimp only
  rw [haddr, hbl]
  by_cases hr : InRegion (c.dfu.addressPtr.toNat + (block - 2) * 1024) bytes.length
  · rw [if_pos (hiff.mpr hr), heq hr] at hmem
    rw [if_pos hr, if_neg (not_not.mpr (hrc.mpr (hiff.mpr hr))), hmem]
    exact ⟨hf', rfl⟩
  · rw [if_neg (mt hiff.mp hr)] at hmem
    rw [if_neg hr, if_pos fun h => hr (hiff.mp (hrc.mp h)), hmem]
    exact ⟨hf', rfl⟩

theorem executePending_setAddress (hf : c.flash.Faultless)
    (hcmd : c.dfu.cmdPending = dfuseCmdSetAddress) (harg : c.dfu.cmdHasArg = true) :
    (executePending c).flash.Faultless ∧
      (executePending c).view = c.view.exec (.setAddress c.dfu.cmdArg) := by
  rw [executePending_of_setAddress hcmd harg]
  exact ⟨hf, rfl⟩

theorem executePending_erasePage (hf : c.flash.Faultless)
    (hcmd : c.dfu.cmdPending = dfuseCmdErasePage) (harg : c.dfu.cmdHasArg = true) :
    (executePending c).flash.Faultless ∧
      (executePending c).view = c.view.exec (.erasePage c.dfu.cmdArg) := by
  obtain ⟨hf', hrc, hmem⟩ := flashErasePage_faultless hf c.dfu.cmdArg
  rw [executePending_of_erasePage hcmd harg]
  unfold Reference.exec Core.view
  dsimp only
  by_cases hr : InRegion (c.dfu.cmdArg.toNat / 2048 * 2048) 2048
  · rw [if_pos hr] at hmem
    rw [if_pos hr, if_neg (not_not.mpr (hrc.mpr hr)), hmem]
    exact ⟨hf', rfl⟩
  · rw [if_neg hr] at hmem
    rw [if_neg hr, if_pos fun h => hr (hrc.mp h), hmem]
    exact ⟨hf', rfl⟩

end Attempts

structure Poll where
  request : SetupPacket
  isGetstatus : request.IsDfu dfuGetstatus
  length : 6 ≤ request.wLength.toNat

/-- One command as the host sends it: the request, the payload split into packets, two polls. -/
structure HostExchange where
  command : Command
  request : SetupPacket
  isDnload : request.IsDfu dfuDnload
  block : request.wValue.toNat = command.block
  length : request.wLength.toNat = command.payload.length
  packets : List OutPacket
  size : ∀ d ∈ packets, 1 ≤ d.bytes.length ∧ d.bytes.length ≤ ep0MaxSize
  split : (packets.flatMap fun d => d.bytes) = command.payload
  firstPoll : Poll
  secondPoll : Poll

def HostExchange.events (x : HostExchange) : List UsbEvent :=
  .setup x.request ::
    (x.packets.map .out ++ [.setup x.firstPoll.request, .setup x.secondPoll.request])

/-- What of an event the DFU function can notice: not a poll that finds nothing, not the completion
of an IN packet, and not an OUT packet without data. -/
def UsbEvent.traffic : UsbEvent → Option UsbEvent
  | .idle => none
  | .reset => some .reset
  | .ctr none _ => none
  | .ctr (some (.setup p)) _ => some (.setup p)
  | .ctr (some (.out d)) _ => if d.bytes.length = 0 then none else some (.out d)

/-- The `bState` in the packet a GETSTATUS offers to the host. -/
def Machine.reportedState (s : Machine) (e : UsbEvent) : List UInt8 :=
  if ∃ q ∈ e.setup?, q.IsDfu dfuGetstatus then
    ((s.step e).offered.bind fun packet => packet[4]?).toList else []

def Core.reportedState (c : Core) (e : UsbEvent) : List UInt8 :=
  if ∃ q ∈ e.setup?, q.IsDfu dfuGetstatus ∧ 5 ≤ q.wLength.toNat then
    [(coreStep c e).dfu.state.toByte] else []

theorem coreStep_getstatus {q : SetupPacket} (hq : q.IsDfu dfuGetstatus) (c : Core) :
    coreStep c (.setup q) = (getstatusTransition c).1 := by
  rw [coreStep, request_getstatus hq]
  rfl

theorem Machine.reportedState_eq {s : Machine} (hq : s.Quiet) (e : UsbEvent) :
    s.reportedState e = s.core.reportedState e := by
  unfold Machine.reportedState Core.reportedState
  rcases e with _ | _ | ⟨_ | (q | d), tx⟩
  · rfl
  · rfl
  · rfl
  · by_cases hget : q.IsDfu dfuGetstatus
    · have hcall := congrArg Prod.snd (request_getstatus hget s.core)
      have hsize : 6 < ep0MaxSize := by decide
      rw [if_pos ⟨q, rfl, hget⟩, step_reply hq hcall hsize, Option.bind_some, coreStep,
        request_getstatus hget]
      by_cases hlen : 5 ≤ q.wLength.toNat
      · rw [if_pos ⟨q, rfl, hget, hlen⟩, List.getElem?_take_of_lt (by omega)]
        rfl
      · rw [if_neg, List.getElem?_eq_none]
        · rfl
        · rw [List.length_take]
          omega
        · rintro ⟨q', hq', -, hlen'⟩
          cases hq'
          exact hlen hlen'
    · rw [if_neg, if_neg]
      · rintro ⟨q', hq', hget', -⟩
        cases hq'
        exact hget hget'
      · rintro ⟨q', hq', hget'⟩
        cases hq'
        exact hget hget'
  · rfl

theorem coreStep_traffic_none {c : Core} {e : UsbEvent} (h : e.traffic = none) :
    coreStep c e = c ∧ c.reportedState e = [] := by
  rcases e with _ | _ | ⟨_ | (q | d), tx⟩
  · exact ⟨rfl, rfl⟩
  · cases h
  · exact ⟨rfl, rfl⟩
  · cases h
  · rw [UsbEvent.traffic] at h
    split_ifs at h with hzero
    refine ⟨?_, rfl⟩
    rw [coreStep, if_neg fun hdata => by omega]

theorem coreStep_traffic_some {c : Core} {e e' : UsbEvent} (h : e.traffic = some e') :
    coreStep c e = coreStep c e' ∧ c.reportedState e = c.reportedState e' := by
  rcases e with _ | _ | ⟨_ | (q | d), tx⟩
  · cases h
  · cases h
    exact ⟨rfl, rfl⟩
  · cases h
  · cases h
    exact ⟨rfl, rfl⟩
  · rw [UsbEvent.traffic] at h
    split_ifs at h
    cases h
    exact ⟨rfl, rfl⟩

theorem run_packets {c : Core} (hc : c.dfu.Consistent) (hs : c.dfu.state = .dnloadSync)
    {x : Exchange} (hx : x.Follows c.dfu) (hcur : x.current = true) (hmixed : x.mixed = false)
    {packets : List OutPacket} (hsize : ∀ d ∈ packets, 1 ≤ d.bytes.length)
    (hfit : x.received.length + (packets.flatMap fun d => d.bytes).length ≤ x.wLength) :
    ∃ d, StepSystem.run coreStep c (packets.map .out) = { c with dfu := d } ∧ d.Consistent ∧
      d.state = .dnloadSync ∧ d.status = c.dfu.status ∧ d.addressPtr = c.dfu.addressPtr ∧
      Exchange.Follows { x with received := x.received ++ packets.flatMap fun d => d.bytes } d := by
  induction packets generalizing c x with
  | nil => exact ⟨c.dfu, rfl, hc, hs, rfl, rfl, by simpa using hx⟩
  | cons p packets ih =>
    have hpos : 0 < p.bytes.length := hsize p List.mem_cons_self
    rw [List.flatMap_cons, List.length_append] at hfit
    have hexpects : x.Expects p.bytes.length := ⟨hcur, by omega⟩
    have hstep : coreStep c (.out p) =
        { c with dfu := (dataStage (ofList p.bytes) p.bytes.length c.dfu).1 } :=
      if_pos ⟨hs, hpos⟩
    have hreceive : x.receive c.dfu p.bytes = { x with received := x.received ++ p.bytes } := by
      simp [Exchange.receive, hcur, hmixed, hexpects]
    have hfol := hx.receive hc hs hpos p.fits.le
    rw [hreceive] at hfol
    obtain ⟨d, hrun, hcons, hsync, hstatus, hptr, hd⟩ := ih
      (c := { c with dfu := (dataStage (ofList p.bytes) p.bytes.length c.dfu).1 })
      (hc.dataStage (Or.inl hs) _ _) (by rw [dataStage_state, hs]) hfol hcur hmixed
      (fun d hd => hsize d (List.mem_cons_of_mem _ hd)) (by simp only [List.length_append]; omega)
    refine ⟨d, ?_, hcons, hsync, ?_, ?_, ?_⟩
    · rw [List.map_cons, StepSystem.run_cons, hstep, hrun]
    · rw [hstatus, dataStage_status]
    · rw [hptr, dataStage_addressPtr]
    · rw [List.flatMap_cons, ← List.append_assoc]
      exact hd

theorem outputs_packets (c : Core) (packets : List OutPacket) :
    StepSystem.outputs coreStep Core.reportedState c (packets.map .out) = [] := by
  induction packets generalizing c with
  | nil => rfl
  | cons p packets ih => exact ih _

/-- What holds of the DFU variables and the flash between two exchanges. -/
structure Core.Settled (c : Core) : Prop where
  faultless : c.flash.Faultless
  consistent : c.dfu.Consistent
  state : c.dfu.state = .idle ∨ c.dfu.state = .dnloadIdle ∨ c.dfu.state = .error
  cmdPending : c.dfu.cmdPending = 0

theorem Exchange.Decoded.command {x : Exchange} {d : Dfu} (h : x.Decoded d) {opcode : UInt8}
    {a : UInt32} (hlen : x.wLength = 5) (hreceived : x.received = opcode :: bytes32 a) :
    d.cmdPending = opcode ∧ d.cmdHasArg = true ∧ d.cmdArg = a := by
  have h5 : 5 ≤ x.wLength := hlen.ge
  have hcmd := h.cmdPending
  have harg := h.cmdArg h5
  rw [hreceived] at hcmd harg
  exact ⟨hcmd, h.cmdHasArg.trans (decide_eq_true h5), harg.trans (le32_bytes32 a)⟩

/-- The attempt on a complete exchange goes where the reference interpreter goes. -/
theorem executePending_refines {c : Core} (hf : c.flash.Faultless) (hc : c.dfu.Consistent)
    (hbusy : c.dfu.state = .dnbusy) {x : Exchange} (hfol : x.Follows c.dfu)
    (hmixed : x.mixed = false) (hinherited : x.inherited = 0) {command : Command}
    (hblock : x.block = command.block) (hlt : command.block < 2 ^ 16)
    (hlen : x.wLength = command.payload.length) (hreceived : x.received = command.payload)
    (haddr : x.base = c.dfu.blockAddress x.block) :
    (executePending c).flash.Faultless ∧ (executePending c).view = c.view.exec command := by
  have hd : c.dfu.Downloading := Or.inr hbusy
  cases command with
  | dataBlock block bytes h2 hpos hle =>
    have hblock' : x.block = block := hblock
    have hbuffered : x.Buffered c.dfu := by
      rcases hfol.data hmixed with hb | hdec
      · exact hb
      · have hzero := hdec.block
        rw [← hfol.block] at hzero
        omega
    have hfull : c.dfu.bufferLen = x.received.length :=
      hbuffered.complete (by rw [hlen, hreceived])
    have hbuf : toList c.dfu.buffer c.dfu.bufferLen = bytes := by
      rw [hbuffered.isPrefix.eq_of_length (by rw [length_toList, hfull])]
      exact hreceived
    refine executePending_dataBlock hf h2 hpos hle hlt ?_ hbuf ?_
    · exact hbuffered.cmdPending.trans hinherited
    · rw [← hfol.base (by rw [← hfol.block, hblock']; exact h2), haddr, hblock']
  | setAddress a =>
    have hdec := hfol.decoded_of_block hc hd hmixed hblock (by rw [hlen, hreceived])
    obtain ⟨hcmd, harg, ha⟩ := hdec.command hlen hreceived
    have h := executePending_setAddress hf hcmd harg
    rwa [ha] at h
  | erasePage a =>
    have hdec := hfol.decoded_of_block hc hd hmixed hblock (by rw [hlen, hreceived])
    obtain ⟨hcmd, harg, ha⟩ := hdec.command hlen hreceived
    have h := executePending_erasePage hf hcmd harg
    rwa [ha] at h

section Exchanges

variable {c : Core}

theorem reportedState_poll (c : Core) (q : Poll) : c.reportedState (.setup q.request) =
    [(getstatusTransition c).1.dfu.state.toByte] := by
  have hlen := q.length
  unfold Core.reportedState
  rw [if_pos ⟨q.request, rfl, q.isGetstatus, by omega⟩, coreStep_getstatus q.isGetstatus]

theorem reportedState_dnload {p : SetupPacket} (hp : p.IsDfu dfuDnload) (c : Core) :
    c.reportedState (.setup p) = [] := by
  unfold Core.reportedState
  rw [if_neg]
  rintro ⟨q, hq, hget, -⟩
  cases hq
  exact absurd (hp.code_unique hget) (by decide)

theorem run_events (c : Core) (x : HostExchange) : StepSystem.run coreStep c x.events =
    (getstatusTransition (getstatusTransition (StepSystem.run coreStep
      (coreStep c (.setup x.request)) (x.packets.map .out))).1).1 := by
  unfold HostExchange.events
  rw [StepSystem.run_cons, StepSystem.run_append, StepSystem.run_cons, StepSystem.run_cons,
    StepSystem.run_nil, coreStep_getstatus x.firstPoll.isGetstatus,
    coreStep_getstatus x.secondPoll.isGetstatus]

theorem outputs_events (c : Core) (x : HostExchange) :
    StepSystem.outputs coreStep Core.reportedState c x.events =
      let c' := StepSystem.run coreStep (coreStep c (.setup x.request)) (x.packets.map .out)
      [(getstatusTransition c').1.dfu.state.toByte,
        (getstatusTransition (getstatusTransition c').1).1.dfu.state.toByte] := by
  unfold HostExchange.events
  rw [StepSystem.outputs_cons, StepSystem.outputs_append, StepSystem.outputs_cons,
    StepSystem.outputs_cons, reportedState_dnload x.isDnload, outputs_packets,
    reportedState_poll, reportedState_poll, coreStep_getstatus x.firstPoll.isGetstatus]
  rfl

theorem run_packets_ignored (hs : c.dfu.state ≠ .dnloadSync) (packets : List OutPacket) :
    StepSystem.run coreStep c (packets.map .out) = c := by
  induction packets with
  | nil => rfl
  | cons p packets ih =>
    have hstep : coreStep c (.out p) = c := if_neg fun h => hs h.1
    rw [List.map_cons, StepSystem.run_cons, hstep, ih]

/-- In dfuERROR an exchange changes nothing and reports the error twice. -/
theorem exchange_in_error (herror : c.dfu.state = .error) (x : HostExchange) :
    StepSystem.run coreStep c x.events = c ∧
      StepSystem.outputs coreStep Core.reportedState c x.events =
        [DfuState.error.toByte, DfuState.error.toByte] := by
  have hpay := x.command.length_payload
  rw [← x.length] at hpay
  have hrequest : coreStep c (.setup x.request) = c := by
    rw [coreStep, request_of_refused x.isDnload hpay.1 hpay.2]
    rintro ⟨-, -, -, hs | hs⟩ <;> simp [hs] at herror
  have hpackets := run_packets_ignored (c := c) (by simp [herror]) x.packets
  have hpoll : getstatusTransition c = (c, 0) := by
    unfold getstatusTransition
    simp [herror]
  rw [run_events, outputs_events, hrequest, hpackets]
  simp only [hpoll, herror, and_self]

theorem dnload_received {p : SetupPacket} (hc : c.dfu.Consistent) (hacc : Accepts p c.dfu)
    {packets : List OutPacket} (hsize : ∀ d ∈ packets, 1 ≤ d.bytes.length)
    (hsplit : (packets.flatMap fun d => d.bytes).length = p.wLength.toNat) :
    ∃ d, StepSystem.run coreStep (coreStep c (.setup p)) (packets.map .out) =
        { c with dfu := d } ∧ d.Consistent ∧ d.state = .dnloadSync ∧ d.status = c.dfu.status ∧
      d.addressPtr = c.dfu.addressPtr ∧
      Exchange.Follows { Exchange.opened p c.dfu with
        received := packets.flatMap fun d => d.bytes } d := by
  have haccept : coreStep c (.setup p) =
      { c with dfu := c.dfu.accept p.wValue.toNat p.wLength.toNat } := by
    rw [coreStep, request_of_accepts hacc]
  have hcons := coreStep_consistent hc (.setup p)
  rw [haccept] at hcons ⊢
  have hfit : ([] : List UInt8).length + (packets.flatMap fun d => d.bytes).length ≤
      p.wLength.toNat := (Nat.zero_add _).trans_le hsplit.le
  exact run_packets hcons rfl (Exchange.opened_follows (p := p) (d := c.dfu)) rfl rfl hsize hfit

/-- A download that waits for its attempt looks like the state it started from. -/
theorem view_dnbusy {d : Dfu} (hstatus : d.status = c.dfu.status)
    (hptr : d.addressPtr = c.dfu.addressPtr) :
    Core.view { c with dfu := { d with state := .dnbusy } } = { c.view with state := .dnbusy } := by
  unfold Core.view
  rw [hptr, hstatus]

theorem getstatus_dnloadSync (hs : c.dfu.state = .dnloadSync) :
    (getstatusTransition c).1 = { c with dfu := { c.dfu with state := .dnbusy } } := by
  unfold getstatusTransition
  rw [if_pos hs]

theorem getstatus_dnbusy (hs : c.dfu.state = .dnbusy) :
    (getstatusTransition c).1 = executePending c := by
  unfold getstatusTransition
  rw [if_neg (by simp [hs]), if_pos hs]

theorem exchange_executes (hc : c.Settled) (hs : c.dfu.state = .idle ∨ c.dfu.state = .dnloadIdle)
    (x : HostExchange) :
    (StepSystem.run coreStep c x.events).flash.Faultless ∧
      (StepSystem.run coreStep c x.events).dfu.cmdPending = 0 ∧
      (StepSystem.run coreStep c x.events).view = c.view.exec x.command ∧
      StepSystem.outputs coreStep Core.reportedState c x.events =
        [DfuState.dnbusy.toByte, (c.view.exec x.command).state.toByte] := by
  have hpay := x.command.length_payload
  have hblock := x.block
  have hacc : Accepts x.request c.dfu := by
    refine ⟨x.isDnload, ?_, ?_, hs⟩
    · rw [x.length]
      exact hpay
    · rw [hblock]
      exact x.command.block_ne_one
  have hsplit : (x.packets.flatMap fun d => d.bytes).length = x.request.wLength.toNat := by
    rw [x.split, x.length]
  obtain ⟨d, hrun, hcons, hsync, hstatus, hptr, hfol⟩ := dnload_received hc.consistent hacc
    (fun d hd => (x.size d hd).1) hsplit
  -- the first poll moves on to dfuDNBUSY, the second attempts the operation
  have hfirst : (getstatusTransition { c with dfu := d }).1 =
      { c with dfu := { d with state := .dnbusy } } := getstatus_dnloadSync hsync
  have hsecond : (getstatusTransition { c with dfu := { d with state := .dnbusy } }).1 =
      executePending { c with dfu := { d with state := .dnbusy } } := getstatus_dnbusy rfl
  have hbase : (Exchange.opened x.request c.dfu).base = d.blockAddress x.request.wValue.toNat := by
    unfold Dfu.blockAddress
    rw [hptr]
    rfl
  obtain ⟨hf, hview⟩ := executePending_refines
    (c := { c with dfu := { d with state := .dnbusy } }) hc.faultless
    (hcons.of_state (Or.inl hsync) _) rfl (hfol.close .dnbusy) rfl hc.cmdPending hblock
    (hblock ▸ x.request.wValue.toNat_lt) x.length x.split hbase
  rw [view_dnbusy hstatus hptr, Reference.exec_state] at hview
  rw [run_events, outputs_events, hrun]
  simp only [hfirst, hsecond]
  refine ⟨hf, executePending_cmdPending _, hview, ?_⟩
  rw [← hview]
  rfl

/-- One exchange is one step of the reference interpreter. -/
theorem exchange_refines (hc : c.Settled) (x : HostExchange) :
    (StepSystem.run coreStep c x.events).Settled ∧
      (StepSystem.run coreStep c x.events).view = c.view.step x.command ∧
      StepSystem.outputs coreStep Core.reportedState c x.events = c.view.reported x.command := by
  by_cases herror : c.dfu.state = .error
  · obtain ⟨hrun, hout⟩ := exchange_in_error herror x
    rw [hrun, hout]
    unfold Reference.step Reference.reported
    exact ⟨hc, (if_pos herror).symm, (if_pos herror).symm⟩
  · have hs : c.dfu.state = .idle ∨ c.dfu.state = .dnloadIdle := by
      rcases hc.state with hs | hs | hs
      · exact Or.inl hs
      · exact Or.inr hs
      · exact absurd hs herror
    obtain ⟨hf, hcmd, hview, hout⟩ := exchange_executes hc hs x
    have hcons := StepSystem.run_invariant (fun c : Core => c.dfu.Consistent)
      (fun _ e h => coreStep_consistent h e) hc.consistent x.events
    refine ⟨⟨hf, hcons, Or.inr ?_, hcmd⟩, ?_, ?_⟩
    · have hend := c.view.exec_ends x.command
      rw [← hview] at hend
      exact hend
    · rw [hview, Reference.step]
      exact (if_neg herror).symm
    · rw [hout, Reference.reported]
      exact (if_neg herror).symm

theorem exchanges_refine (hc : c.Settled) (xs : List HostExchange) :
    (StepSystem.run coreStep c (xs.flatMap HostExchange.events)).view =
        StepSystem.run Reference.step c.view (xs.map HostExchange.command) ∧
      StepSystem.outputs coreStep Core.reportedState c (xs.flatMap HostExchange.events) =
        StepSystem.outputs Reference.step Reference.reported c.view
          (xs.map HostExchange.command) := by
  induction xs generalizing c with
  | nil => exact ⟨rfl, rfl⟩
  | cons x xs ih =>
    obtain ⟨hc', hview, hout⟩ := exchange_refines hc x
    obtain ⟨ihview, ihout⟩ := ih hc'
    rw [hview] at ihview ihout
    rw [List.flatMap_cons, List.map_cons, StepSystem.run_append, StepSystem.outputs_append,
      StepSystem.run_cons, StepSystem.outputs_cons]
    exact ⟨ihview, by rw [ihout, hout]⟩

end Exchanges

namespace Machine

/-- The states a download session starts from: the first one, and those a bus reset or ABORT
leads to. -/
inductive SessionStart : Machine → Prop
  | init (mem : ℕ → UInt8) (faults : ℕ → Fault) : SessionStart (start mem faults)
  | reset {s : Machine} (hs : s.Reachable) : SessionStart (s.step .reset)
  | abort {s : Machine} (hs : s.Reachable) {p : SetupPacket} (hp : p.IsDfu dfuAbort) :
      SessionStart (s.step (.setup p))

theorem SessionStart.stable {s : Machine} (h : SessionStart s) : s.Stable := by
  cases h with
  | init mem faults => exact start_stable mem faults
  | reset hs => exact hs.stable.step _
  | abort hs hp => exact hs.stable.step _

theorem SessionStart.settled {s : Machine} (h : SessionStart s) (hf : s.core.flash.Faultless) :
    s.core.Settled ∧ s.core.view = ⟨s.core.flash.mem, appStartAddress, .idle, .ok⟩ := by
  have hcons := h.stable.consistent
  cases h with
  | init mem faults => exact ⟨⟨hf, hcons, Or.inl rfl, rfl⟩, rfl⟩
  | reset hs => exact ⟨⟨hf, hcons, Or.inl rfl, rfl⟩, rfl⟩
  | @abort s hs p hp =>
    have hcore : (s.step (.setup p)).core = { s.core with dfu := (handleDfuAbort s.core.dfu).1 } := by
      rw [step_core hs.quiet, coreStep, request_abort hp]
    rw [hcore] at hf hcons ⊢
    exact ⟨⟨hf, hcons, Or.inl rfl, rfl⟩, rfl⟩

/-- A session of conforming exchanges, in any packets and with anything else on the bus that the
DFU function does not notice, computes what the reference interpreter computes and reports what it
reports. -/
theorem session_refines {s : Machine} (hs : SessionStart s) (hf : s.core.flash.Faultless)
    (xs : List HostExchange) {es : List UsbEvent}
    (hes : es.filterMap UsbEvent.traffic = xs.flatMap HostExchange.events) :
    (s.run es).core.view = StepSystem.run Reference.step
        ⟨s.core.flash.mem, appStartAddress, .idle, .ok⟩ (xs.map HostExchange.command) ∧
      StepSystem.outputs step reportedState s es =
        StepSystem.outputs Reference.step Reference.reported
          ⟨s.core.flash.mem, appStartAddress, .idle, .ok⟩ (xs.map HostExchange.command) := by
  obtain ⟨hsettled, hview⟩ := hs.settled hf
  obtain ⟨hrun, hout⟩ := exchanges_refine hsettled xs
  rw [hview] at hrun hout
  rw [← hes] at hrun hout
  have hq := hs.stable.quiet
  have hrunTraffic := StepSystem.run_filterMap coreStep UsbEvent.traffic
    (fun c e h => (coreStep_traffic_none (c := c) h).1)
    (fun c e e' h => (coreStep_traffic_some (c := c) h).1) s.core es
  have houtTraffic := StepSystem.outputs_filterMap coreStep Core.reportedState UsbEvent.traffic
    (fun c e h => coreStep_traffic_none (c := c) h)
    (fun c e e' h => coreStep_traffic_some (c := c) h) s.core es
  have hcore := StepSystem.outputs_simulation Machine.core Quiet (fun _ e h => step_quiet h e)
    (fun _ e h => step_core h e) (fun _ e h => reportedState_eq h e) hq es
  refine ⟨?_, ?_⟩
  · rw [run_core hq, hrunTraffic, hrun]
  · rw [hcore, houtTraffic, hout]

def poll : Poll := ⟨.getstatus, by decide, by decide⟩

def pointerExchange : HostExchange where
  command := .setAddress 0x08004000
  request := .dnload 0 5
  isDnload := by decide
  block := rfl
  length := rfl
  packets := [.ofBytes [0x21], .ofBytes [0x00, 0x40, 0x00, 0x08]]
  size := by decide
  split := by decide
  firstPoll := poll
  secondPoll := poll

def blockExchange : HostExchange where
  command := .dataBlock 3 [0x11, 0x22, 0x33] (by decide) (by decide) (by decide)
  request := .dnload 3 3
  isDnload := by decide
  block := rfl
  length := rfl
  packets := [.ofBytes [0x11, 0x22], .ofBytes [0x33]]
  size := by decide
  split := by decide
  firstPoll := poll
  secondPoll := poll

/-- The two exchanges as they show on the bus, with completions and status stages in between. -/
def sessionTraffic : List UsbEvent :=
  [.setup (.dnload 0 5), .out (.ofBytes [0x21]), .out (.ofBytes [0x00, 0x40, 0x00, 0x08]),
    .inDone, .idle, .setup .getstatus, .inDone, .out (.ofBytes []), .setup .getstatus,
    .out (.ofBytes []), .setup (.dnload 3 3), .out (.ofBytes [0x11, 0x22]),
    .out (.ofBytes [0x33]), .inDone, .setup .getstatus, .inDone,
    .ctr (some (.setup .getstatus)) true]

theorem pointer_and_block_session_refines :
    (erased.run sessionTraffic).core.view = StepSystem.run Reference.step
        ⟨erased.core.flash.mem, appStartAddress, .idle, .ok⟩
        ([pointerExchange, blockExchange].map HostExchange.command) ∧
      StepSystem.outputs step reportedState erased sessionTraffic =
        StepSystem.outputs Reference.step Reference.reported
          ⟨erased.core.flash.mem, appStartAddress, .idle, .ok⟩
          ([pointerExchange, blockExchange].map HostExchange.command) :=
  session_refines (.init _ _) (fun _ => rfl) [pointerExchange, blockExchange] (by decide)

end Machine

end NovaBootloader
