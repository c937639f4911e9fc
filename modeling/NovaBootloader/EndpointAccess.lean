import NovaBootloader.Poll
import NovaBootloader.SharedRegister

/-!
# The accesses of `usb_poll` to `EP0R`

The same handlers, access by access: what they read from `EP0R`, what they write, and what they do in
between. Copies between memory and packet memory are one step. Run without interruption, this is
`Machine.usbPoll`.
-/

namespace NovaBootloader
open ByteMemory SharedRegister

inductive Direction where
  | rx
  | tx
deriving DecidableEq

namespace EpReg

def ctr (r : EpReg) : Direction → Bool
  | .rx => r.ctrRx
  | .tx => r.ctrTx

def txStatusValue (status : EpStat) (val : EpReg) : EpReg :=
  { zero with ctrRx := val.ctrRx, epType := val.epType, kind := val.kind, ctrTx := val.ctrTx,
              ea := val.ea, statTx := val.statTx ^^^ status }

def rxStatusValue (status : EpStat) (val : EpReg) : EpReg :=
  { zero with ctrRx := val.ctrRx, epType := val.epType, kind := val.kind, ctrTx := val.ctrTx,
              ea := val.ea, statRx := val.statRx ^^^ status }

/-- `USB_EP_CTR_TX | USB_EP_CONTROL`. -/
def clearCtrRxValue : EpReg := { zero with ctrTx := true, epType := usbEpControl }

/-- `USB_EP_CTR_RX | USB_EP_CONTROL`. -/
def clearCtrTxValue : EpReg := { zero with ctrRx := true, epType := usbEpControl }

/-- `CTR_RX | CTR_TX | CONTROL | RX_VALID | TX_NAK`. -/
def configureValue : EpReg :=
  { zero with ctrRx := true, ctrTx := true, epType := usbEpControl, statRx := EpStat.valid,
              statTx := EpStat.nak }

end EpReg

open EpReg

/-- `EP0R` in the machine, with its two `CTR` flags. -/
def ep0Port : Port Machine EpReg Direction where
  read s := s.ep0r
  write val s := { s with ep0r := s.ep0r.write val }
  flag k r := r.ctr k
  flag_write k _ _ := by cases k <;> rfl

abbrev Ep0Code := Code Machine EpReg Direction

/-- `ISTR` as the peripheral shows it: `CTR` stands for the flags of the endpoint. -/
def Machine.istrRegister (s : Machine) : Istr := ⟨s.istr.reset, s.ep0r.ctrRx || s.ep0r.ctrTx, 0⟩

namespace Ep0Code

def epSetTxStatus (status : EpStat) (next : Ep0Code) : Ep0Code :=
  .update (txStatusValue status) next

def epSetRxStatus (status : EpStat) (next : Ep0Code) : Ep0Code :=
  .update (rxStatusValue status) next

def ep0TxChunk (next : Ep0Code) : Ep0Code :=
  .act (fun s =>
    let chunk := if ep0MaxSize < s.ep0TxRemaining then ep0MaxSize else s.ep0TxRemaining
    let pma := pmaWrite ep0TxOffset (s.txByte s.ep0TxPtr) chunk s.pma
    { s with
      pma := pma.write (btableOffset + 2) (UInt16.ofNat chunk)
      ep0TxPtr := ⟨s.ep0TxPtr.object, s.ep0TxPtr.offset + chunk⟩
      ep0TxRemaining := s.ep0TxRemaining - chunk }) <|
  epSetTxStatus EpStat.valid next

def ep0Send (data : TxPtr) (len : ℕ) (next : Ep0Code) : Ep0Code :=
  .act (fun s =>
    let len := if s.ep0ReqLen < len then s.ep0ReqLen else len
    { s with
      ep0TxPtr := data
      ep0TxRemaining := len
      ep0TxNeedZlp := 0 < len ∧ len < s.ep0ReqLen ∧ len % ep0MaxSize = 0 }) <|
  ep0TxChunk <|
  epSetRxStatus EpStat.valid next

def ep0SendZlp (next : Ep0Code) : Ep0Code :=
  .act (fun s => { s with
    ep0TxPtr := .null
    ep0TxRemaining := 0
    ep0TxNeedZlp := false
    pma := s.pma.write (btableOffset + 2) 0 }) <|
  epSetTxStatus EpStat.valid <|
  epSetRxStatus EpStat.valid next

def ep0Stall (next : Ep0Code) : Ep0Code :=
  .act (fun s => { s with
    ep0TxPtr := .null
    ep0TxRemaining := 0
    ep0TxNeedZlp := false }) <|
  epSetTxStatus EpStat.stall <|
  epSetRxStatus EpStat.valid next

def runCall (call : Ep0Call) (next : Ep0Code) : Ep0Code :=
  match call with
  | .reply bytes =>
    .act (fun s => { s with
      ep0Reply := overwrite s.ep0Reply 0 bytes.length (ofList bytes) }) <|
    ep0Send ⟨.ep0Reply, 0⟩ bytes.length next
  | .send data len => ep0Send data len next
  | .sendZlp => ep0SendZlp next
  | .stall => ep0Stall next
  | .enableRx => epSetRxStatus EpStat.valid next

def standardRequest (p : SetupPacket) (next : Ep0Code) : Ep0Code :=
  if p.bRequest = usbReqGetDescriptor then
    runCall (handleGetDescriptor p.wValue p.wLength.toNat) next
  else if p.bRequest = usbReqSetAddress then
    .act (fun s => { s with pendingAddress := (p.wValue &&& 0x7F).toUInt8 }) <|
    runCall .sendZlp next
  else if p.bRequest = usbReqSetConfiguration then runCall .sendZlp next
  else if p.bRequest = usbReqGetConfiguration then runCall (.reply [1]) next
  else if p.bRequest = usbReqGetStatus then runCall (.reply [0, 0]) next
  else runCall .stall next

def classRequest (p : SetupPacket) (next : Ep0Code) : Ep0Code :=
  .look fun s =>
    let r := dfuRequest p s.core
    .act (fun s => { s with core := r.1 }) <|
    runCall r.2 next

def handleSetup (next : Ep0Code) : Ep0Code :=
  .look fun s =>
    let setup := SetupPacket.ofBytes (pmaRead s.pma ep0RxOffset (fun _ => 0) 0 8)
    .store clearCtrRxValue <|
    .act (fun s => { s with
      ep0TxPtr := .null
      ep0TxRemaining := 0
      ep0TxNeedZlp := false
      ep0ReqLen := setup.wLength.toNat }) <|
    if setup.IsStandard then standardRequest setup next
    else if setup.IsClass then classRequest setup next
    else runCall .stall next

def handleEp0Out (next : Ep0Code) : Ep0Code :=
  let finish : Ep0Code := .store clearCtrRxValue <| epSetRxStatus EpStat.valid next
  .look fun s =>
    let count := (s.pma.read (btableOffset + 6) &&& 0x3FF).toNat
    if s.core.dfu.state = .dnloadSync ∧ 0 < count then
      let r := dataStage (pmaRead s.pma ep0RxOffset (fun _ => 0) 0 count) count s.core.dfu
      .act (fun s => { s with core := { s.core with dfu := r.1 } }) <|
      if r.2 then ep0SendZlp finish else finish
    else finish

def handleEp0In (next : Ep0Code) : Ep0Code :=
  .store clearCtrTxValue <|
  .look fun s =>
    if 0 < s.ep0TxRemaining then ep0TxChunk next
    else if s.ep0TxNeedZlp then
      .act (fun s => { s with
        ep0TxNeedZlp := false
        pma := s.pma.write (btableOffset + 2) 0 }) <|
      epSetTxStatus EpStat.valid next
    else if s.pendingAddress ≠ 0 then
      .act (fun s => { s with
        daddr := usbDaddrEf ||| s.pendingAddress.toUInt16
        pendingAddress := 0 }) next
    else next

def usbReset (next : Ep0Code) : Ep0Code :=
  .act (fun s => { s with pma := Machine.setBtable s.pma }) <|
  .store configureValue <|
  .act (fun s => { s with
    daddr := usbDaddrEf
    core := { s.core with dfu := s.core.dfu.usbReset }
    ep0TxPtr := .null
    ep0TxRemaining := 0
    ep0TxNeedZlp := false
    ep0ReqLen := 0 }) next

/-- The flags are handled as they stand in `epr`, which was read at the start. -/
def dispatch (epr : EpReg) : Ep0Code :=
  let handleTx : Ep0Code := if epr.ctrTx then .take .tx (handleEp0In .done) else .done
  if epr.ctrRx then
    .take .rx (if epr.setup then handleSetup handleTx else handleEp0Out handleTx)
  else handleTx

def usbPoll : Ep0Code :=
  .look fun s =>
    let istr := s.istrRegister
    if istr.reset then
      .act (fun s => { s with istr := { s.istr with reset := false } }) <|
      usbReset .done
    else if istr.ctr then
      if istr.epId = 0 then .load dispatch else .done
    else .done

section Exec

variable (next : Ep0Code) (s : Machine)

theorem exec_runCall (call : Ep0Call) :
    (runCall call next).exec ep0Port s = next.exec ep0Port (s.runCall call) := by
  cases call <;> rfl

theorem exec_standardRequest (p : SetupPacket) :
    (standardRequest p next).exec ep0Port s = next.exec ep0Port (s.standardRequest p) := by
  unfold standardRequest Machine.standardRequest
  split_ifs
  · exact exec_runCall next s _
  · exact exec_runCall next { s with pendingAddress := (p.wValue &&& 0x7F).toUInt8 } .sendZlp
  all_goals exact exec_runCall next s _

theorem exec_classRequest (p : SetupPacket) :
    (classRequest p next).exec ep0Port s = next.exec ep0Port (s.classRequest p) :=
  exec_runCall next { s with core := (dfuRequest p s.core).1 } _

theorem exec_handleSetup :
    (handleSetup next).exec ep0Port s = next.exec ep0Port s.handleSetup := by
  unfold handleSetup Machine.handleSetup
  dsimp only [Code.exec]
  split_ifs
  · exact exec_standardRequest next _ _
  · exact exec_classRequest next _ _
  · exact exec_runCall next _ _

theorem exec_handleEp0Out :
    (handleEp0Out next).exec ep0Port s = next.exec ep0Port s.handleEp0Out := by
  unfold handleEp0Out Machine.handleEp0Out
  dsimp only [Code.exec]
  split_ifs <;> rfl

theorem exec_handleEp0In :
    (handleEp0In next).exec ep0Port s = next.exec ep0Port s.handleEp0In := by
  unfold handleEp0In Machine.handleEp0In
  dsimp only [Code.exec, ep0Port]
  split_ifs <;> rfl

theorem exec_dispatch (epr : EpReg) : (dispatch epr).exec ep0Port s =
    let s := if epr.ctrRx then (if epr.setup then s.handleSetup else s.handleEp0Out) else s
    if epr.ctrTx then s.handleEp0In else s := by
  have htx (t : Machine) : (if epr.ctrTx then Code.take .tx (handleEp0In .done)
      else .done : Ep0Code).exec ep0Port t = if epr.ctrTx then t.handleEp0In else t := by
    split_ifs
    · exact exec_handleEp0In .done t
    · rfl
  unfold dispatch
  dsimp only
  by_cases hrx : epr.ctrRx = true
  · rw [if_pos hrx, if_pos hrx]
    dsimp only [Code.exec]
    by_cases hsetup : epr.setup = true
    · rw [if_pos hsetup, if_pos hsetup, exec_handleSetup, htx]
    · rw [if_neg hsetup, if_neg hsetup, exec_handleEp0Out, htx]
  · rw [if_neg hrx, if_neg hrx, htx]

/-- Uninterrupted, the accesses add up to the poll. -/
theorem exec_usbPoll (h : s.istr = s.istrRegister) : usbPoll.exec ep0Port s = s.usbPoll := by
  unfold usbPoll Machine.usbPoll
  dsimp only [Code.exec]
  rw [← h]
  by_cases hreset : s.istr.reset = true
  · rw [if_pos hreset, if_pos hreset]
    rfl
  rw [if_neg hreset, if_neg hreset]
  by_cases hctr : s.istr.ctr = true
  · rw [if_pos hctr, if_pos hctr]
    by_cases hep : s.istr.epId = 0
    · rw [if_pos hep, if_pos hep]
      exact exec_dispatch s s.ep0r
    · rw [if_neg hep, if_neg hep]
      rfl
  · rw [if_neg hctr, if_neg hctr]
    rfl

end Exec

section Disciplined

variable {φ : Direction → Phase} {next : Ep0Code}

theorem epSetTxStatus_disciplined (h : next.Disciplined ep0Port φ) (status : EpStat) :
    (epSetTxStatus status next).Disciplined ep0Port φ :=
  ⟨fun _ k => by cases k <;> rfl, h⟩

theorem epSetRxStatus_disciplined (h : next.Disciplined ep0Port φ) (status : EpStat) :
    (epSetRxStatus status next).Disciplined ep0Port φ :=
  ⟨fun _ k => by cases k <;> rfl, h⟩

theorem ep0TxChunk_disciplined (h : next.Disciplined ep0Port φ) :
    (ep0TxChunk next).Disciplined ep0Port φ :=
  ⟨fun _ => rfl, epSetTxStatus_disciplined h _⟩

theorem ep0Send_disciplined (h : next.Disciplined ep0Port φ) (data : TxPtr) (len : ℕ) :
    (ep0Send data len next).Disciplined ep0Port φ :=
  ⟨fun _ => rfl, ep0TxChunk_disciplined (epSetRxStatus_disciplined h _)⟩

theorem ep0SendZlp_disciplined (h : next.Disciplined ep0Port φ) :
    (ep0SendZlp next).Disciplined ep0Port φ :=
  ⟨fun _ => rfl, epSetTxStatus_disciplined (epSetRxStatus_disciplined h _) _⟩

theorem runCall_disciplined (h : next.Disciplined ep0Port φ) (call : Ep0Call) :
    (runCall call next).Disciplined ep0Port φ := by
  cases call with
  | reply bytes => exact ⟨fun _ => rfl, ep0Send_disciplined h _ _⟩
  | send data len => exact ep0Send_disciplined h data len
  | sendZlp => exact ep0SendZlp_disciplined h
  | stall => exact ⟨fun _ => rfl, epSetTxStatus_disciplined (epSetRxStatus_disciplined h _) _⟩
  | enableRx => exact epSetRxStatus_disciplined h _

theorem standardRequest_disciplined (h : next.Disciplined ep0Port φ) (p : SetupPacket) :
    (standardRequest p next).Disciplined ep0Port φ := by
  unfold standardRequest
  split_ifs
  · exact runCall_disciplined h _
  · exact ⟨fun _ => rfl, runCall_disciplined h _⟩
  all_goals exact runCall_disciplined h _

theorem clearCtrRx_taken (hrx : φ .rx = .taken) (k : Direction)
    (hk : ep0Port.flag k clearCtrRxValue = false) : φ k = .taken := by
  cases k with
  | rx => exact hrx
  | tx => exact absurd hk (by decide)

/-- `handle_setup` clears `CTR_RX` and no other flag. -/
theorem handleSetup_disciplined (hrx : φ .rx = .taken)
    (h : next.Disciplined ep0Port (Phase.drop ep0Port clearCtrRxValue φ)) :
    (handleSetup next).Disciplined ep0Port φ := by
  intro s
  refine ⟨clearCtrRx_taken hrx, fun _ => rfl, ?_⟩
  split_ifs
  · exact standardRequest_disciplined h _
  · exact fun _ => ⟨fun _ => rfl, runCall_disciplined h _⟩
  · exact runCall_disciplined h _

theorem handleEp0Out_disciplined (hrx : φ .rx = .taken)
    (h : next.Disciplined ep0Port (Phase.drop ep0Port clearCtrRxValue φ)) :
    (handleEp0Out next).Disciplined ep0Port φ := by
  have hfinish : (Code.store clearCtrRxValue (epSetRxStatus EpStat.valid next)).Disciplined
      ep0Port φ := ⟨clearCtrRx_taken hrx, epSetRxStatus_disciplined h _⟩
  intro s
  dsimp only
  split_ifs
  · exact ⟨fun _ => rfl, ep0SendZlp_disciplined hfinish⟩
  · exact ⟨fun _ => rfl, hfinish⟩
  · exact hfinish

theorem handleEp0In_disciplined (htx : φ .tx = .taken)
    (h : next.Disciplined ep0Port (Phase.drop ep0Port clearCtrTxValue φ)) :
    (handleEp0In next).Disciplined ep0Port φ := by
  refine ⟨fun k hk => ?_, fun s => ?_⟩
  · cases k with
    | rx => exact absurd hk (by decide)
    | tx => exact htx
  · dsimp only
    split_ifs
    · exact ep0TxChunk_disciplined h
    · exact ⟨fun _ => rfl, epSetTxStatus_disciplined h _⟩
    · exact ⟨fun _ => rfl, h⟩
    · exact h

/-- The poll clears a flag only after it has read it as set and gone to its handler. -/
theorem usbPoll_disciplined : usbPoll.Disciplined ep0Port fun _ => .unknown := by
  have htx (ψ : Direction → Phase) {epr : EpReg} (h : epr.ctrTx = true → ψ .tx = .seen) :
      (if epr.ctrTx then Code.take .tx (handleEp0In .done) else .done : Ep0Code).Disciplined
        ep0Port ψ := by
    by_cases hset : epr.ctrTx = true
    · rw [if_pos hset]
      exact ⟨h hset, handleEp0In_disciplined (Function.update_self _ _ _) trivial⟩
    · rw [if_neg hset]
      trivial
  have hlearn (epr : EpReg) (k : Direction) (h : epr.ctr k = true) :
      Phase.learn ep0Port epr (fun _ => .unknown) k = .seen := if_pos ⟨rfl, h⟩
  have hdispatch (epr : EpReg) :
      (dispatch epr).Disciplined ep0Port (Phase.learn ep0Port epr fun _ => .unknown) := by
    unfold dispatch
    by_cases hrx : epr.ctrRx = true
    · rw [if_pos hrx]
      refine ⟨hlearn epr .rx hrx, ?_⟩
      have hrest := htx (Phase.drop ep0Port clearCtrRxValue (Function.update
        (Phase.learn ep0Port epr fun _ => .unknown) .rx .taken)) (hlearn epr .tx)
      by_cases hsetup : epr.setup = true
      · rw [if_pos hsetup]
        exact handleSetup_disciplined (Function.update_self _ _ _) hrest
      · rw [if_neg hsetup]
        exact handleEp0Out_disciplined (Function.update_self _ _ _) hrest
    · rw [if_neg hrx]
      exact htx _ (hlearn epr .tx)
  intro s
  dsimp only
  split_ifs
  · refine ⟨fun _ => rfl, fun _ => rfl, fun k hk => ?_, fun _ => rfl, trivial⟩
    cases k <;> exact absurd hk (by decide)
  · exact hdispatch
  all_goals trivial

end Disciplined

end Ep0Code

namespace Machine

/-- A poll after an event of the machine is the code of `usb_poll` run without interruption. -/
theorem step_eq_exec {s : Machine} (hq : s.Quiet) {e : UsbEvent} (he : e ≠ .ctr none false) :
    s.step e = Ep0Code.usbPoll.exec ep0Port (s.latch e) := by
  refine (Ep0Code.exec_usbPoll (s.latch e) ?_).symm
  obtain ⟨hrx, htx⟩ := hq
  rcases e with _ | _ | ⟨_ | (p | d), tx⟩
  · simp [latch, istrRegister, hrx, htx]
  · simp [latch, istrRegister, hrx, htx]
  · cases tx with
    | false => exact absurd rfl he
    | true => simp [latch, latchTx, istrRegister]
  · cases tx <;> simp [latch, latchTx, latchRx, istrRegister]
  · cases tx <;> simp [latch, latchTx, latchRx, istrRegister]

end Machine

end NovaBootloader
