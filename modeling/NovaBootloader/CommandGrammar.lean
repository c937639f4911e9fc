import NovaBootloader.Session

/-!
# The grammar of block 0

A payload of block 0 is a command of the reference interpreter or an error. The device decodes it in
one handler and executes it two requests later, through a variable in which 0 also means that no
command is pending: a payload that begins with 0 ends as if nothing had been sent.
-/

namespace NovaBootloader
open ByteMemory

/-- The command that a payload of block 0 encodes, or the error it is refused with. -/
def parseCommand (payload : List UInt8) : Except DfuStatus Command :=
  let b := ofList payload
  let operand := le32 (b 1) (b 2) (b 3) (b 4)
  if b 0 = dfuseCmdSetAddress then
    if 5 ≤ payload.length then .ok (.setAddress operand) else .error .errAddress
  else if b 0 = dfuseCmdErasePage then
    if 5 ≤ payload.length then .ok (.erasePage operand) else .error .errErase
  else .error .errVendor

def Reference.blockZero (r : Reference) (payload : List UInt8) : Reference :=
  match parseCommand payload with
  | .ok command => r.exec command
  | .error status => r.fail status

theorem Reference.blockZero_state (r : Reference) (state : DfuState) (payload : List UInt8) :
    { r with state := state }.blockZero payload = r.blockZero payload := by
  unfold blockZero
  cases parseCommand payload with
  | ok command => exact r.exec_state state command
  | error status => rfl

section Attempt
variable {c : Core} {payload : List UInt8} {x : Exchange}

theorem executeCommand_refused {status : DfuStatus}
    (h : c.dfu.cmdPending = dfuseCmdSetAddress ∧ c.dfu.cmdHasArg = false ∧ status = .errAddress ∨
      c.dfu.cmdPending = dfuseCmdErasePage ∧ c.dfu.cmdHasArg = false ∧ status = .errErase ∨
      c.dfu.cmdPending ≠ dfuseCmdSetAddress ∧ c.dfu.cmdPending ≠ dfuseCmdErasePage ∧
        status = .errVendor) :
    (executeCommand c).view = c.view.fail status := by
  have hne : ¬ dfuseCmdErasePage = dfuseCmdSetAddress := by decide
  unfold executeCommand
  dsimp only
  rcases h with ⟨hcmd, harg, rfl⟩ | ⟨hcmd, harg, rfl⟩ | ⟨hset, herase, rfl⟩
  · rw [if_pos hcmd, harg]
    rfl
  · rw [hcmd, if_neg hne, if_pos rfl, harg]
    rfl
  · rw [if_neg hset, if_neg herase]
    rfl

/-- The attempt on a decoded block 0 follows the grammar, unless it begins with 0. -/
theorem executePending_blockZero (hf : c.flash.Faultless) (hdec : x.Decoded c.dfu)
    (hlen : x.wLength = payload.length) (hreceived : x.received = payload)
    (hop : ofList payload 0 ≠ 0) : (executePending c).view = c.view.blockZero payload := by
  have hcmd := hdec.cmdPending
  have harg := hdec.cmdHasArg
  have hoperand := hdec.cmdArg
  rw [hreceived] at hcmd hoperand
  rw [hlen] at harg hoperand
  have hexec : executePending c = executeCommand c := if_pos (by rwa [hcmd])
  unfold Reference.blockZero parseCommand
  dsimp only
  by_cases hset : ofList payload 0 = dfuseCmdSetAddress
  · rw [if_pos hset]
    by_cases h5 : 5 ≤ payload.length
    · rw [if_pos h5, ← hoperand h5]
      exact (executePending_setAddress hf (hcmd.trans hset) (harg.trans (decide_eq_true h5))).2
    · rw [if_neg h5, hexec]
      exact executeCommand_refused
        (Or.inl ⟨hcmd.trans hset, harg.trans (decide_eq_false h5), rfl⟩)
  rw [if_neg hset]
  by_cases herase : ofList payload 0 = dfuseCmdErasePage
  · rw [if_pos herase]
    by_cases h5 : 5 ≤ payload.length
    · rw [if_pos h5, ← hoperand h5]
      exact (executePending_erasePage hf (hcmd.trans herase) (harg.trans (decide_eq_true h5))).2
    · rw [if_neg h5, hexec]
      exact executeCommand_refused
        (Or.inr (Or.inl ⟨hcmd.trans herase, harg.trans (decide_eq_false h5), rfl⟩))
  · rw [if_neg herase, hexec]
    exact executeCommand_refused (Or.inr (Or.inr ⟨hcmd ▸ hset, hcmd ▸ herase, rfl⟩))

/-- A payload that begins with 0 counts as no command at all. -/
theorem executePending_zero (hdec : x.Decoded c.dfu) (hreceived : x.received = payload)
    (hop : ofList payload 0 = 0) : (executePending c).view.state = .dnloadIdle := by
  have hcmd : ¬ c.dfu.cmdPending ≠ 0 := by
    rw [hdec.cmdPending, hreceived, hop]
    exact not_not.mpr rfl
  have hempty : ¬ 0 < c.dfu.bufferLen := by
    rw [hdec.bufferLen]
    exact Nat.lt_irrefl 0
  unfold executePending
  rw [if_neg hcmd, if_neg hempty]
  rfl

end Attempt

theorem Reference.blockZero_of_zero (r : Reference) {payload : List UInt8}
    (hop : ofList payload 0 = 0) : (r.blockZero payload).state = .error := by
  have hset : ¬ (0 : UInt8) = dfuseCmdSetAddress := by decide
  have herase : ¬ (0 : UInt8) = dfuseCmdErasePage := by decide
  unfold blockZero parseCommand
  dsimp only
  rw [hop, if_neg hset, if_neg herase]
  rfl

/-- Block 0 as the host sends it: the request, the payload split into packets, two polls. -/
structure BlockZero (payload : List UInt8) where
  request : SetupPacket
  isDnload : request.IsDfu dfuDnload
  block : request.wValue.toNat = 0
  length : request.wLength.toNat = payload.length
  packets : List OutPacket
  split : (packets.flatMap fun d => d.bytes) = payload
  firstPoll : SetupPacket
  firstGetstatus : firstPoll.IsDfu dfuGetstatus
  secondPoll : SetupPacket
  secondGetstatus : secondPoll.IsDfu dfuGetstatus

def BlockZero.events {payload : List UInt8} (b : BlockZero payload) : List UsbEvent :=
  .setup b.request ::
    (b.packets.map .out ++ [.setup b.firstPoll, .setup b.secondPoll])

section Run
variable {c : Core} {payload : List UInt8}

theorem run_blockZero (hc : c.dfu.Consistent) (hf : c.flash.Faultless)
    (hs : c.dfu.state = .idle ∨ c.dfu.state = .dnloadIdle)
    (hpos : 0 < payload.length) (hlen : payload.length ≤ dfuXferSize) (b : BlockZero payload)
    (hsize : ∀ d ∈ b.packets, 1 ≤ d.bytes.length) :
    (StepSystem.run coreStep c b.events).view = c.view.blockZero payload ↔
      ofList payload 0 ≠ 0 := by
  have hacc : Accepts b.request c.dfu := by
    refine ⟨b.isDnload, ?_, ?_, hs⟩
    · rw [b.length]
      exact ⟨hpos, hlen⟩
    · rw [b.block]
      exact zero_ne_one
  obtain ⟨d, hrun, hcons, hsync, hstatus, hptr, hfol⟩ :=
    dnload_received hc hacc hsize (by rw [b.split, b.length])
  rw [b.split] at hfol
  have hfirst : (getstatusTransition { c with dfu := d }).1 =
      { c with dfu := { d with state := .dnbusy } } := getstatus_dnloadSync hsync
  have hsecond : (getstatusTransition { c with dfu := { d with state := .dnbusy } }).1 =
      executePending { c with dfu := { d with state := .dnbusy } } := getstatus_dnbusy rfl
  have hdec := (hfol.close .dnbusy).decoded_of_block (hcons.of_state (Or.inl hsync) _) (Or.inr rfl)
    rfl b.block b.length.symm
  unfold BlockZero.events
  rw [StepSystem.run_cons, StepSystem.run_append, hrun, StepSystem.run_cons, StepSystem.run_cons,
    StepSystem.run_nil, coreStep_getstatus b.firstGetstatus, coreStep_getstatus b.secondGetstatus,
    hfirst, hsecond]
  constructor
  · intro h hop
    have hidle := executePending_zero (c := { c with dfu := { d with state := .dnbusy } }) hdec rfl
      hop
    rw [h, Reference.blockZero_of_zero _ hop] at hidle
    exact DfuState.noConfusion hidle
  · intro hop
    rw [executePending_blockZero (c := { c with dfu := { d with state := .dnbusy } }) hf hdec
      b.length rfl hop, view_dnbusy hstatus hptr, Reference.blockZero_state]

end Run

theorem length_pos_of_traffic {es : List UsbEvent} {d : OutPacket}
    (h : .out d ∈ es.filterMap UsbEvent.traffic) : 1 ≤ d.bytes.length := by
  obtain ⟨e, -, he⟩ := List.mem_filterMap.mp h
  rcases e with _ | _ | ⟨_ | (q | d'), tx⟩
  · cases he
  · cases he
  · cases he
  · cases he
  · rw [UsbEvent.traffic] at he
    split_ifs at he with hzero
    cases he
    exact Nat.one_le_iff_ne_zero.mpr hzero

namespace Machine

/-- A payload of block 0 is executed or refused as the grammar says, in any packets and with
anything else on the bus that the DFU function does not notice, exactly if its first byte is
not 0. -/
theorem command_grammar_iff {s : Machine} (hs : s.Reachable) (hf : s.core.flash.Faultless)
    (hstate : s.core.dfu.state = .idle ∨ s.core.dfu.state = .dnloadIdle) {payload : List UInt8}
    (hpos : 1 ≤ payload.length) (hlen : payload.length ≤ dfuXferSize) (b : BlockZero payload)
    {es : List UsbEvent} (hes : es.filterMap UsbEvent.traffic = b.events) :
    (s.run es).core.view = s.core.view.blockZero payload ↔ ofList payload 0 ≠ 0 := by
  have hsize : ∀ d ∈ b.packets, 1 ≤ d.bytes.length := by
    intro d hd
    have hmem : UsbEvent.out d ∈ es.filterMap UsbEvent.traffic := by
      rw [hes]
      exact List.mem_cons_of_mem _ (List.mem_append_left _ (List.mem_map_of_mem hd))
    exact length_pos_of_traffic hmem
  have htraffic := StepSystem.run_filterMap coreStep UsbEvent.traffic
    (fun c e h => (coreStep_traffic_none (c := c) h).1)
    (fun c e e' h => (coreStep_traffic_some (c := c) h).1) s.core es
  rw [run_core hs.quiet, htraffic, hes]
  exact run_blockZero hs.stable.consistent hf hstate hpos hlen b hsize

def eraseInTwoPackets : BlockZero [0x41, 0x00, 0x40, 0x00, 0x08, 0x00] where
  request := .dnload 0 6
  isDnload := by decide
  block := rfl
  length := rfl
  packets := [.ofBytes [0x41, 0x00], .ofBytes [0x40, 0x00, 0x08, 0x00]]
  split := rfl
  firstPoll := .getstatus
  firstGetstatus := poll.isGetstatus
  secondPoll := .getstatus
  secondGetstatus := poll.isGetstatus

theorem erase_in_two_packets : (erased.run [.setup (.dnload 0 6), .out (.ofBytes [0x41, 0x00]),
      .idle, .out (.ofBytes [0x40, 0x00, 0x08, 0x00]), .inDone, .setup .getstatus, .inDone,
      .out (.ofBytes []), .setup .getstatus]).core.view =
    erased.core.view.blockZero [0x41, 0x00, 0x40, 0x00, 0x08, 0x00] ↔
      ofList [0x41, 0x00, 0x40, 0x00, 0x08, 0x00] 0 ≠ 0 :=
  command_grammar_iff ⟨_, _, [], rfl⟩ (fun _ => rfl) (Or.inl rfl) (by decide) (by decide)
    eraseInTwoPackets (by decide)

/-- The opcode 0x00 is not refused: two polls later the device is in `dfuDNLOAD-IDLE`. -/
theorem zero_opcode_accepted : (erased.run [.setup (.dnload 0 1), .out (.ofBytes [0x00]),
      .setup .getstatus, .setup .getstatus]).core.view ≠ erased.core.view.blockZero [0x00] := by
  intro h
  have hidle : (erased.run [.setup (.dnload 0 1), .out (.ofBytes [0x00]), .setup .getstatus,
      .setup .getstatus]).core.view.state = .dnloadIdle := by decide +kernel
  rw [h, Reference.blockZero_of_zero _ rfl] at hidle
  exact DfuState.noConfusion hidle

end Machine

end NovaBootloader
