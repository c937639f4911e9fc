import NovaBootloader.Session

/-!
# What a success report is worth

The flash may fail at any operation. A host that is told dfuDNLOAD-IDLE after every exchange so far
knows what the device did nevertheless: all of it was what the reference interpreter does.
-/

namespace NovaBootloader
open ByteMemory

def Reference.Succeeds (r : Reference) (command : Command) : Prop :=
  r.state ≠ .error ∧ (r.exec command).state = .dnloadIdle

theorem Reference.step_of_succeeds {r : Reference} {command : Command} (h : r.Succeeds command) :
    r.step command = r.exec command := if_neg h.1

/-- The download in progress holds the whole of a command. -/
inductive Core.Holds (c : Core) : Command → Prop
  | setAddress {a : UInt32} (hcmd : c.dfu.cmdPending = dfuseCmdSetAddress)
      (harg : c.dfu.cmdHasArg = true) (ha : c.dfu.cmdArg = a) : c.Holds (.setAddress a)
  | erasePage {a : UInt32} (hcmd : c.dfu.cmdPending = dfuseCmdErasePage)
      (harg : c.dfu.cmdHasArg = true) (ha : c.dfu.cmdArg = a) : c.Holds (.erasePage a)
  | dataBlock {block : ℕ} {bytes : List UInt8} (h2 : 2 ≤ block) (hpos : 0 < bytes.length)
      (hlen : bytes.length ≤ dfuXferSize) (hblock : block < 2 ^ 16)
      (hcmd : c.dfu.cmdPending = 0) (hbuf : toList c.dfu.buffer c.dfu.bufferLen = bytes)
      (haddr : c.dfu.address = c.dfu.blockAddress block) :
      c.Holds (.dataBlock block bytes h2 hpos hlen)

section Attempts

variable {c : Core}

theorem Exchange.Follows.holds {x : Exchange} (hfol : x.Follows c.dfu) (hc : c.dfu.Consistent)
    (hd : c.dfu.Downloading) (hmixed : x.mixed = false) (hinherited : x.inherited = 0)
    {command : Command} (hblock : x.block = command.block) (hlt : command.block < 2 ^ 16)
    (hlen : x.wLength = command.payload.length) (hreceived : x.received = command.payload)
    (haddr : x.base = c.dfu.blockAddress x.block) : c.Holds command := by
  cases command with
  | dataBlock block bytes h2 hpos hle =>
    have hblock' : x.block = block := hblock
    have hbuffered : x.Buffered c.dfu := by
      rcases hfol.data hmixed with hb | hdec
      · exact hb
      · have hzero := hdec.block
        rw [← hfol.block] at hzero
        omega
    have hfull : c.dfu.bufferLen = x.received.length :=
      hbuffered.complete (by rw [hlen, hreceived])
    refine .dataBlock h2 hpos hle hlt (hbuffered.cmdPending.trans hinherited) ?_ ?_
    · rw [hbuffered.isPrefix.eq_of_length (by rw [length_toList, hfull])]
      exact hreceived
    · rw [← hfol.base (by rw [← hfol.block, hblock']; exact h2), haddr, hblock']
  | setAddress a =>
    have hdec := hfol.decoded_of_block hc hd hmixed hblock (by rw [hlen, hreceived])
    obtain ⟨hcmd, harg, ha⟩ := hdec.command hlen hreceived
    exact .setAddress hcmd harg ha
  | erasePage a =>
    have hdec := hfol.decoded_of_block hc hd hmixed hblock (by rw [hlen, hreceived])
    obtain ⟨hcmd, harg, ha⟩ := hdec.command hlen hreceived
    exact .erasePage hcmd harg ha

theorem flashErasePage_done {a : UInt32} {h : FlashHw} (hrc : (flashErasePage a h).2 = 0) :
    InRegion (a.toNat / 2048 * 2048) 2048 ∧ (flashErasePage a h).1.mem =
      overwrite h.mem (a.toNat / 2048 * 2048) 2048 fun _ => 0xFF := by
  cases ha : flashIsAddressValid a with
  | false =>
    rw [flashErasePage_of_invalid h ha] at hrc
    cases hrc
  | true =>
    obtain ⟨-, hmem, -, hrc'⟩ := flashErasePage_of_valid h ha
    refine ⟨(page_inRegion_iff a).mpr ha, ?_⟩
    rw [hmem, hrc'.mp hrc, if_neg Bool.false_ne_true]
    rfl

theorem flashWrite_done {a : UInt32} {data : ℕ → UInt8} {bytes : List UInt8} {h : FlashHw}
    (hdata : toList data bytes.length = bytes) (hpos : 0 < bytes.length)
    (hlen : bytes.length ≤ dfuXferSize) (hrc : (flashWrite a data bytes.length h).2 = 0) :
    InRegion a.toNat bytes.length ∧ (flashWrite a data bytes.length h).1.mem =
      overwrite h.mem a.toNat (padEven bytes).length (ofList (padEven bytes)) := by
  have hlt : bytes.length < 2 ^ 31 := lt_of_le_of_lt hlen (by decide)
  by_cases hr : InRegion a.toNat bytes.length
  · obtain ⟨-, hmem, -, hrc'⟩ := flashWrite_of_inRegion data h hpos hlt hr
    have hall : programmed h.faults h.ops ((bytes.length + 1) / 2) = (bytes.length + 1) / 2 :=
      (programmed_eq_iff _ _ _).mpr (hrc'.mp hrc)
    refine ⟨hr, ?_⟩
    rw [hmem, hall, ← length_padEven]
    exact overwrite_congr fun i hi => padded_eq hdata hi
  · rw [flashWrite_of_not_inRegion data h hpos hlt hr] at hrc
    cases hrc

theorem Core.Holds.attempt_done {command : Command} (h : c.Holds command)
    (hdone : (executePending c).dfu.state = .dnloadIdle) :
    (executePending c).view = c.view.exec command := by
  cases h with
  | setAddress hcmd harg ha =>
    rw [executePending_of_setAddress hcmd harg, ← ha]
    rfl
  | erasePage hcmd harg ha =>
    rw [executePending_of_erasePage hcmd harg, ha] at hdone ⊢
    dsimp only at hdone ⊢
    split_ifs at hdone ⊢ with hrc
    · cases hdone
    · obtain ⟨hr, hmem⟩ := flashErasePage_done (not_not.mp hrc)
      unfold Reference.exec Core.view
      dsimp only
      rw [if_pos hr, hmem]
  | @dataBlock block bytes h2 hpos hlen hblock hcmd hbuf haddr =>
    have hbl : c.dfu.bufferLen = bytes.length := by rw [← hbuf, length_toList]
    rw [hbl] at hbuf
    unfold executePending writeBuffer at hdone ⊢
    rw [if_neg (not_not.mpr hcmd), if_pos (by omega)] at hdone ⊢
    dsimp only at hdone ⊢
    rw [hbl] at hdone ⊢
    split_ifs at hdone ⊢ with hrc
    · cases hdone
    · obtain ⟨hr, hmem⟩ := flashWrite_done hbuf hpos hlen (not_not.mp hrc)
      obtain ⟨hiff, heq⟩ := inRegion_blockAddress_iff (d := c.dfu) (n := bytes.length) hblock
      rw [haddr] at hr hmem
      have hr' := hiff.mp hr
      unfold Reference.exec Core.view
      dsimp only
      rw [if_pos hr', haddr, hmem, heq hr']

end Attempts

/-- What holds between two exchanges none of which has failed. -/
structure Core.Ready (c : Core) : Prop where
  consistent : c.dfu.Consistent
  state : c.dfu.state = .idle ∨ c.dfu.state = .dnloadIdle
  cmdPending : c.dfu.cmdPending = 0

section Exchanges

variable {c : Core}

/-- An exchange outside dfuERROR: the state its second poll finds, and what the polls report. -/
theorem exchange_attempts (hc : c.Ready) (x : HostExchange) : ∃ c' : Core,
    c'.Holds x.command ∧ c'.dfu.Consistent ∧ c'.flash = c.flash ∧
      c'.view = { c.view with state := .dnbusy } ∧
      StepSystem.run coreStep c x.events = executePending c' ∧
      StepSystem.outputs coreStep Core.reportedState c x.events =
        [DfuState.dnbusy.toByte, (executePending c').dfu.state.toByte] := by
  have hpay := x.command.length_payload
  have hblock := x.block
  have hacc : Accepts x.request c.dfu := by
    refine ⟨x.isDnload, ?_, ?_, hc.state⟩
    · rw [x.length]
      exact hpay
    · rw [hblock]
      exact x.command.block_ne_one
  have hsplit : (x.packets.flatMap fun d => d.bytes).length = x.request.wLength.toNat := by
    rw [x.split, x.length]
  obtain ⟨d, hrun, hcons, hsync, hstatus, hptr, hfol⟩ := dnload_received hc.consistent hacc
    (fun d hd => (x.size d hd).1) hsplit
  have hfirst : (getstatusTransition { c with dfu := d }).1 =
      { c with dfu := { d with state := .dnbusy } } := getstatus_dnloadSync hsync
  have hsecond : (getstatusTransition { c with dfu := { d with state := .dnbusy } }).1 =
      executePending { c with dfu := { d with state := .dnbusy } } := getstatus_dnbusy rfl
  have hbase : (Exchange.opened x.request c.dfu).base = d.blockAddress x.request.wValue.toNat := by
    unfold Dfu.blockAddress
    rw [hptr]
    rfl
  have hcons' : ({ d with state := .dnbusy } : Dfu).Consistent := hcons.of_state (Or.inl hsync) _
  refine ⟨{ c with dfu := { d with state := .dnbusy } }, ?_, hcons', rfl,
    view_dnbusy hstatus hptr, ?_, ?_⟩
  · exact Exchange.Follows.holds (hfol.close .dnbusy) hcons' (Or.inr rfl) rfl hc.cmdPending hblock
      (hblock ▸ x.request.wValue.toNat_lt) x.length x.split hbase
  · rw [run_events, hrun, hfirst, hsecond]
  · rw [outputs_events, hrun]
    dsimp only
    rw [hfirst, hsecond]

def successReports : List UInt8 := [DfuState.dnbusy.toByte, DfuState.dnloadIdle.toByte]

theorem exchange_truthful (hc : c.Ready) (x : HostExchange)
    (hreported : StepSystem.outputs coreStep Core.reportedState c x.events = successReports) :
    (StepSystem.run coreStep c x.events).Ready ∧ c.view.Succeeds x.command ∧
      (StepSystem.run coreStep c x.events).view = c.view.step x.command := by
  obtain ⟨c', hholds, hcons, hflash, hview, hrun, hout⟩ := exchange_attempts hc x
  rw [hout] at hreported
  have hdone : (executePending c').dfu.state = .dnloadIdle := by
    rcases executePending_state c' with hs | hs
    · exact hs
    · rw [hs] at hreported
      exact absurd hreported (by decide)
  have hexec := hholds.attempt_done hdone
  rw [hview, Reference.exec_state] at hexec
  have hsucceeds : c.view.Succeeds x.command := by
    refine ⟨?_, ?_⟩
    · change c.dfu.state ≠ .error
      rcases hc.state with hs | hs <;> simp [hs]
    · rw [← hexec]
      exact hdone
  rw [Reference.step_of_succeeds hsucceeds, hrun]
  refine ⟨⟨?_, Or.inr hdone, executePending_cmdPending c'⟩, hsucceeds, hexec⟩
  rw [← hrun]
  exact StepSystem.run_invariant (fun c : Core => c.dfu.Consistent)
    (fun _ e h => coreStep_consistent h e) hc.consistent x.events

/-- A session reported as a success throughout is a run of the reference interpreter in which every
command succeeds. -/
theorem exchanges_truthful (hc : c.Ready) (xs : List HostExchange)
    (hreported : StepSystem.outputs coreStep Core.reportedState c (xs.flatMap HostExchange.events) =
      xs.flatMap fun _ => successReports) :
    (StepSystem.run coreStep c (xs.flatMap HostExchange.events)).Ready ∧
      StepSystem.Along Reference.step Reference.Succeeds c.view (xs.map HostExchange.command) ∧
      (StepSystem.run coreStep c (xs.flatMap HostExchange.events)).view =
        StepSystem.run Reference.step c.view (xs.map HostExchange.command) := by
  induction xs generalizing c with
  | nil => exact ⟨hc, trivial, rfl⟩
  | cons x xs ih =>
    obtain ⟨c', -, -, -, -, -, hout⟩ := exchange_attempts hc x
    rw [List.flatMap_cons, List.flatMap_cons, StepSystem.outputs_append] at hreported
    obtain ⟨hfirst, hrest⟩ := List.append_inj hreported (by rw [hout]; rfl)
    obtain ⟨hready, hsucceeds, hview⟩ := exchange_truthful hc x hfirst
    obtain ⟨hready', halong, hview'⟩ := ih hready hrest
    rw [hview] at halong hview'
    rw [List.flatMap_cons, List.map_cons, StepSystem.run_append, StepSystem.run_cons]
    exact ⟨hready', ⟨hsucceeds, halong⟩, hview'⟩

end Exchanges

namespace Machine

theorem SessionStart.ready {s : Machine} (h : SessionStart s) :
    s.core.Ready ∧ s.core.view = ⟨s.core.flash.mem, appStartAddress, .idle, .ok⟩ := by
  have hcons := h.stable.consistent
  cases h with
  | init mem faults => exact ⟨⟨hcons, Or.inl rfl, rfl⟩, rfl⟩
  | reset hs => exact ⟨⟨hcons, Or.inl rfl, rfl⟩, rfl⟩
  | @abort s hs p hp =>
    have hcore : (s.step (.setup p)).core =
        { s.core with dfu := (handleDfuAbort s.core.dfu).1 } := by
      rw [step_core hs.quiet, coreStep, request_abort hp]
    rw [hcore] at hcons ⊢
    exact ⟨⟨hcons, Or.inl rfl, rfl⟩, rfl⟩

/-- What the DFU function sees of a run and what the host is told are those of its traffic. -/
theorem run_traffic {s : Machine} (hq : s.Quiet) {es es' : List UsbEvent}
    (hes : es.filterMap UsbEvent.traffic = es') :
    (s.run es).core = StepSystem.run coreStep s.core es' ∧
      StepSystem.outputs step reportedState s es =
        StepSystem.outputs coreStep Core.reportedState s.core es' := by
  subst hes
  refine ⟨?_, ?_⟩
  · rw [run_core hq]
    exact StepSystem.run_filterMap coreStep UsbEvent.traffic
      (fun c e h => (coreStep_traffic_none (c := c) h).1)
      (fun c e e' h => (coreStep_traffic_some (c := c) h).1) s.core es
  · rw [StepSystem.outputs_simulation Machine.core Quiet (fun _ e h => step_quiet h e)
      (fun _ e h => step_core h e) (fun _ e h => reportedState_eq h e) hq es]
    exact StepSystem.outputs_filterMap coreStep Core.reportedState UsbEvent.traffic
      (fun c e h => coreStep_traffic_none (c := c) h)
      (fun c e e' h => coreStep_traffic_some (c := c) h) s.core es

/-- Whatever errors the flash raises: if the host is told dfuDNBUSY and dfuDNLOAD-IDLE for every
exchange of a session, the device has done what the reference interpreter does, and there every
command succeeds. -/
theorem success_reports_truthful {s : Machine} (hs : SessionStart s) (xs : List HostExchange)
    {es : List UsbEvent} (hes : es.filterMap UsbEvent.traffic = xs.flatMap HostExchange.events)
    (hreported : StepSystem.outputs step reportedState s es = xs.flatMap fun _ => successReports) :
    StepSystem.Along Reference.step Reference.Succeeds
        ⟨s.core.flash.mem, appStartAddress, .idle, .ok⟩ (xs.map HostExchange.command) ∧
      (s.run es).core.view = StepSystem.run Reference.step
        ⟨s.core.flash.mem, appStartAddress, .idle, .ok⟩ (xs.map HostExchange.command) := by
  obtain ⟨hready, hview⟩ := hs.ready
  obtain ⟨hcore, hout⟩ := run_traffic hs.stable.quiet hes
  rw [hout] at hreported
  obtain ⟨-, halong, hrun⟩ := exchanges_truthful hready xs hreported
  rw [hview] at halong hrun
  rw [hcore]
  exact ⟨halong, hrun⟩

def failsLater : ℕ → Fault := fun k => if k < 2 then Fault.none else ⟨true, false⟩

theorem pointer_and_block_report_truthful :
    StepSystem.Along Reference.step Reference.Succeeds ⟨fun _ => 0xFF, appStartAddress, .idle, .ok⟩
        ([pointerExchange, blockExchange].map HostExchange.command) ∧
      ((start (fun _ => 0xFF) failsLater).run sessionTraffic).core.view =
        StepSystem.run Reference.step ⟨fun _ => 0xFF, appStartAddress, .idle, .ok⟩
          ([pointerExchange, blockExchange].map HostExchange.command) :=
  success_reports_truthful (.init _ failsLater) [pointerExchange, blockExchange] (by decide)
    (by decide +kernel)

end Machine

end NovaBootloader
