import NovaBootloader.DfuFunction
import NovaBootloader.EndpointRegister
import NovaBootloader.PacketMemory
import NovaBootloader.StepSystem

/-!
# The bootloader in DFU mode

The whole state of DFU mode, the EP0 engine and the SETUP, OUT and IN handlers, and `usb_poll`.
The hardware side is `latch`: what one USB event leaves in the registers and the packet memory for
the next poll to find. A step of the machine is one event followed by one poll.
-/

namespace NovaBootloader
open ByteMemory

structure Istr where
  reset : Bool
  ctr : Bool
  epId : ℕ
deriving DecidableEq, Repr

def usbDaddrEf : UInt16 := 0x0080

structure Machine where
  core : Core
  pendingAddress : UInt8
  ep0TxPtr : TxPtr
  ep0TxRemaining : ℕ
  ep0ReqLen : ℕ
  ep0TxNeedZlp : Bool
  ep0Reply : ℕ → UInt8
  ep0r : EpReg
  istr : Istr
  daddr : UInt16
  pma : Pma

namespace Machine

def txByte (s : Machine) (p : TxPtr) (i : ℕ) : UInt8 :=
  match p.object with
  | .null => 0
  | .deviceDescriptor => ofList deviceDescriptor (p.offset + i)
  | .configDescriptor => ofList configDescriptor (p.offset + i)
  | .string index => ofList (stringTable index) (p.offset + i)
  | .ep0Reply => s.ep0Reply (p.offset + i)
  | .flash => s.core.flash.mem (p.offset + i)

def ep0TxChunk (s : Machine) : Machine :=
  let chunk := if ep0MaxSize < s.ep0TxRemaining then ep0MaxSize else s.ep0TxRemaining
  let pma := pmaWrite ep0TxOffset (s.txByte s.ep0TxPtr) chunk s.pma
  { s with
    pma := pma.write (btableOffset + 2) (UInt16.ofNat chunk)
    ep0TxPtr := ⟨s.ep0TxPtr.object, s.ep0TxPtr.offset + chunk⟩
    ep0TxRemaining := s.ep0TxRemaining - chunk
    ep0r := s.ep0r.setTxStatus EpStat.valid }

def ep0Send (data : TxPtr) (len : ℕ) (s : Machine) : Machine :=
  let len := if s.ep0ReqLen < len then s.ep0ReqLen else len
  let s := { s with
    ep0TxPtr := data
    ep0TxRemaining := len
    ep0TxNeedZlp := 0 < len ∧ len < s.ep0ReqLen ∧ len % ep0MaxSize = 0 }
  let s := s.ep0TxChunk
  { s with ep0r := s.ep0r.setRxStatus EpStat.valid }

def ep0SendZlp (s : Machine) : Machine :=
  { s with
    ep0TxPtr := .null
    ep0TxRemaining := 0
    ep0TxNeedZlp := false
    pma := s.pma.write (btableOffset + 2) 0
    ep0r := (s.ep0r.setTxStatus EpStat.valid).setRxStatus EpStat.valid }

def ep0Stall (s : Machine) : Machine :=
  { s with
    ep0TxPtr := .null
    ep0TxRemaining := 0
    ep0TxNeedZlp := false
    ep0r := (s.ep0r.setTxStatus EpStat.stall).setRxStatus EpStat.valid }

def runCall (call : Ep0Call) (s : Machine) : Machine :=
  match call with
  | .reply bytes =>
    { s with ep0Reply := overwrite s.ep0Reply 0 bytes.length (ofList bytes) }.ep0Send
      ⟨.ep0Reply, 0⟩ bytes.length
  | .send data len => s.ep0Send data len
  | .sendZlp => s.ep0SendZlp
  | .stall => s.ep0Stall
  | .enableRx => { s with ep0r := s.ep0r.setRxStatus EpStat.valid }

/-- The standard branch of `handle_setup`. -/
def standardRequest (p : SetupPacket) (s : Machine) : Machine :=
  if p.bRequest = usbReqGetDescriptor then
    s.runCall (handleGetDescriptor p.wValue p.wLength.toNat)
  else if p.bRequest = usbReqSetAddress then
    { s with pendingAddress := (p.wValue &&& 0x7F).toUInt8 }.runCall .sendZlp
  else if p.bRequest = usbReqSetConfiguration then s.runCall .sendZlp
  else if p.bRequest = usbReqGetConfiguration then s.runCall (.reply [1])
  else if p.bRequest = usbReqGetStatus then s.runCall (.reply [0, 0])
  else s.runCall .stall

/-- The class branch of `handle_setup`. -/
def classRequest (p : SetupPacket) (s : Machine) : Machine :=
  let r := dfuRequest p s.core
  { s with core := r.1 }.runCall r.2

def handleSetup (s : Machine) : Machine :=
  let setup := SetupPacket.ofBytes (pmaRead s.pma ep0RxOffset (fun _ => 0) 0 8)
  let s := { s with
    ep0r := s.ep0r.clearCtrRx
    ep0TxPtr := .null
    ep0TxRemaining := 0
    ep0TxNeedZlp := false
    ep0ReqLen := setup.wLength.toNat }
  if setup.IsStandard then s.standardRequest setup
  else if setup.IsClass then s.classRequest setup
  else s.runCall .stall

def handleEp0Out (s : Machine) : Machine :=
  let count := (s.pma.read (btableOffset + 6) &&& 0x3FF).toNat
  let s :=
    if s.core.dfu.state = .dnloadSync ∧ 0 < count then
      let r := dataStage (pmaRead s.pma ep0RxOffset (fun _ => 0) 0 count) count s.core.dfu
      let s := { s with core := { s.core with dfu := r.1 } }
      if r.2 then s.ep0SendZlp else s
    else s
  { s with ep0r := s.ep0r.clearCtrRx.setRxStatus EpStat.valid }

def handleEp0In (s : Machine) : Machine :=
  let s := { s with ep0r := s.ep0r.clearCtrTx }
  if 0 < s.ep0TxRemaining then s.ep0TxChunk
  else if s.ep0TxNeedZlp then
    { s with
      ep0TxNeedZlp := false
      pma := s.pma.write (btableOffset + 2) 0
      ep0r := s.ep0r.setTxStatus EpStat.valid }
  else if s.pendingAddress ≠ 0 then
    { s with daddr := usbDaddrEf ||| s.pendingAddress.toUInt16, pendingAddress := 0 }
  else s

/-- The buffer table entries of EP0, as `usb_init` and `usb_reset` write them. -/
def setBtable (pma : Pma) : Pma :=
  (((pma.write (btableOffset + 0) (UInt16.ofNat ep0TxOffset)).write (btableOffset + 2) 0).write
    (btableOffset + 4) (UInt16.ofNat ep0RxOffset)).write (btableOffset + 6) 0x8400

def usbReset (s : Machine) : Machine :=
  { s with
    pma := setBtable s.pma
    ep0r := s.ep0r.configure
    daddr := usbDaddrEf
    core := { s.core with dfu := s.core.dfu.usbReset }
    ep0TxPtr := .null
    ep0TxRemaining := 0
    ep0TxNeedZlp := false
    ep0ReqLen := 0 }

def usbPoll (s : Machine) : Machine :=
  let istr := s.istr
  if istr.reset then { s with istr := { istr with reset := false } }.usbReset
  else if istr.ctr then
    if istr.epId = 0 then
      let epr := s.ep0r
      let s := if epr.ctrRx then (if epr.setup then s.handleSetup else s.handleEp0Out) else s
      if epr.ctrTx then s.handleEp0In else s
    else s
  else s

def usbInit (s : Machine) : Machine :=
  { s with
    istr := ⟨false, false, 0⟩
    pma := setBtable s.pma
    ep0r := EpReg.zero.configure
    daddr := usbDaddrEf }

def dfuInit (s : Machine) : Machine :=
  { s with
    core := { s.core with dfu := s.core.dfu.init }
    pendingAddress := 0
    ep0TxPtr := .null
    ep0TxRemaining := 0
    ep0TxNeedZlp := false
    ep0ReqLen := 0 }.usbInit

def powerOn (mem : ℕ → UInt8) (faults : ℕ → Fault) : Machine where
  core := ⟨Dfu.zero, FlashHw.powerOn mem faults⟩
  pendingAddress := 0
  ep0TxPtr := .null
  ep0TxRemaining := 0
  ep0ReqLen := 0
  ep0TxNeedZlp := false
  ep0Reply := fun _ => 0
  ep0r := EpReg.zero
  istr := ⟨false, false, 0⟩
  daddr := 0
  pma := fun _ => 0

/-- DFU mode at the first poll, over any flash contents and any trace of hardware errors. -/
def start (mem : ℕ → UInt8) (faults : ℕ → Fault) : Machine := (powerOn mem faults).dfuInit

end Machine

/-- An OUT packet: at most as many bytes as the ten-bit count of `COUNT_RX` can say. -/
structure OutPacket where
  bytes : List UInt8
  fits : bytes.length < 1024
deriving DecidableEq

inductive RxPacket where
  | setup (p : SetupPacket)
  | out (d : OutPacket)
deriving DecidableEq

/-- What one poll finds: nothing, a bus reset, or a correct transfer with a received packet, a
completed IN packet, or both. When both are there, the IN packet completed first on the bus. -/
inductive UsbEvent where
  | idle
  | reset
  | ctr (rx : Option RxPacket) (tx : Bool)
deriving DecidableEq

namespace UsbEvent

abbrev setup (p : SetupPacket) : UsbEvent := .ctr (some (.setup p)) false

abbrev out (d : OutPacket) : UsbEvent := .ctr (some (.out d)) false

abbrev inDone : UsbEvent := .ctr none true

end UsbEvent

namespace Machine

def storeRx (bytes : List UInt8) (pma : Pma) : Pma :=
  (pmaWrite ep0RxOffset (ofList bytes) bytes.length pma).write (btableOffset + 6)
    (0x8400 + UInt16.ofNat bytes.length)

def latchTx (s : Machine) : Machine :=
  { s with ep0r := { s.ep0r with ctrTx := true, statTx := EpStat.nak, dtogTx := !s.ep0r.dtogTx } }

def latchRx (s : Machine) : RxPacket → Machine
  | .setup p =>
    { s with
      pma := storeRx p.toBytes s.pma
      ep0r := { s.ep0r with ctrRx := true, setup := true, statRx := EpStat.nak,
                            statTx := EpStat.nak, dtogRx := true, dtogTx := true } }
  | .out d =>
    { s with
      pma := storeRx d.bytes s.pma
      ep0r := { s.ep0r with ctrRx := true, setup := false, statRx := EpStat.nak,
                            dtogRx := !s.ep0r.dtogRx } }

def latch (s : Machine) : UsbEvent → Machine
  | .idle => { s with istr := ⟨false, false, 0⟩ }
  | .reset =>
    { s with
      istr := ⟨true, false, 0⟩
      ep0r := { EpReg.zero with ctrRx := s.ep0r.ctrRx, ctrTx := s.ep0r.ctrTx }
      daddr := 0 }
  | .ctr rx tx =>
    let s := if tx then s.latchTx else s
    let s := match rx with
      | some packet => s.latchRx packet
      | none => s
    { s with istr := ⟨false, true, 0⟩ }

/-- One USB event and the poll that sees it. -/
def step (s : Machine) (e : UsbEvent) : Machine := (s.latch e).usbPoll

abbrev run : Machine → List UsbEvent → Machine := StepSystem.run step

/-- The states between two polls of some run from `dfu_init`. -/
def Reachable (s : Machine) : Prop := ∃ mem faults es, s = run (start mem faults) es

end Machine

end NovaBootloader
