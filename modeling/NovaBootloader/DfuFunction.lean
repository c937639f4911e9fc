import NovaBootloader.FlashInterface
import NovaBootloader.UsbRequest

/-!
# The DFU function: state and request handlers

The static variables of `usb_dfu.c` that belong to DFU, and the handlers that act on them and on
the flash. Each handler returns the EP0 call it ends in; the EP0 engine itself is elsewhere.
-/

namespace NovaBootloader
open ByteMemory

inductive DfuState where
  | appIdle
  | appDetach
  | idle
  | dnloadSync
  | dnbusy
  | dnloadIdle
  | manifestSync
  | manifest
  | manifestWaitReset
  | uploadIdle
  | error
deriving DecidableEq, Repr

def DfuState.toByte : DfuState → UInt8
  | appIdle => 0
  | appDetach => 1
  | idle => 2
  | dnloadSync => 3
  | dnbusy => 4
  | dnloadIdle => 5
  | manifestSync => 6
  | manifest => 7
  | manifestWaitReset => 8
  | uploadIdle => 9
  | error => 10

/-- The status codes the bootloader reports, out of those the DFU class defines. -/
inductive DfuStatus where
  | ok
  | errWrite
  | errErase
  | errAddress
  | errVendor
  | errUnknown
deriving DecidableEq, Repr

def DfuStatus.toByte : DfuStatus → UInt8
  | ok => 0x00
  | errWrite => 0x03
  | errErase => 0x04
  | errAddress => 0x08
  | errVendor => 0x0B
  | errUnknown => 0x0E

def dfuDnload : UInt8 := 0x01
def dfuUpload : UInt8 := 0x02
def dfuGetstatus : UInt8 := 0x03
def dfuClrstatus : UInt8 := 0x04
def dfuGetstate : UInt8 := 0x05
def dfuAbort : UInt8 := 0x06

def dfuseCmdSetAddress : UInt8 := 0x21
def dfuseCmdErasePage : UInt8 := 0x41

def appStartAddress : UInt32 := 0x08003000

structure Dfu where
  state : DfuState
  status : DfuStatus
  address : UInt32
  blockNum : ℕ
  xferLen : ℕ
  buffer : ℕ → UInt8
  bufferLen : ℕ
  cmdPending : UInt8
  cmdHasArg : Bool
  cmdArg : UInt32
  addressPtr : UInt32

structure Core where
  dfu : Dfu
  flash : FlashHw

namespace Dfu

/-- The variables as `.bss` leaves them. -/
def zero : Dfu where
  state := .appIdle
  status := .ok
  address := 0
  blockNum := 0
  xferLen := 0
  buffer := fun _ => 0
  bufferLen := 0
  cmdPending := 0
  cmdHasArg := false
  cmdArg := 0
  addressPtr := 0

def fail (d : Dfu) (status : DfuStatus) : Dfu := { d with status := status, state := .error }

/-- The DFU part of `dfu_init`. -/
def init (d : Dfu) : Dfu :=
  { d with
    state := .idle
    status := .ok
    address := appStartAddress
    bufferLen := 0
    cmdPending := 0
    cmdHasArg := false
    cmdArg := 0
    addressPtr := appStartAddress }

/-- The DFU part of `usb_reset`. -/
def usbReset (d : Dfu) : Dfu :=
  { d with
    state := .idle
    status := .ok
    address := appStartAddress
    addressPtr := appStartAddress
    cmdPending := 0
    cmdHasArg := false
    bufferLen := 0 }

end Dfu

/-- The `dfuDNBUSY` branch of `handle_dfu_getstatus` for a pending DfuSe command. -/
def executeCommand (c : Core) : Core :=
  let cmd := c.dfu.cmdPending
  let d := { c.dfu with cmdPending := 0 }
  if cmd = dfuseCmdSetAddress then
    if !d.cmdHasArg then { c with dfu := d.fail .errAddress }
    else { c with dfu := { d with addressPtr := d.cmdArg, state := .dnloadIdle } }
  else if cmd = dfuseCmdErasePage then
    -- a bare 0x41 would be a mass erase and is refused without touching the flash
    if !d.cmdHasArg then { c with dfu := d.fail .errErase }
    else
      let r := flashErasePage d.cmdArg c.flash
      if r.2 ≠ 0 then ⟨d.fail .errErase, r.1⟩ else ⟨{ d with state := .dnloadIdle }, r.1⟩
  else { c with dfu := d.fail .errVendor }

/-- The `dfuDNBUSY` branch of `handle_dfu_getstatus` for a buffer of data. -/
def writeBuffer (c : Core) : Core :=
  let d := c.dfu
  let r := flashWrite d.address d.buffer d.bufferLen c.flash
  if r.2 ≠ 0 then ⟨d.fail .errWrite, r.1⟩
  else ⟨{ d with address := d.address + UInt32.ofNat d.bufferLen, bufferLen := 0,
                 state := .dnloadIdle }, r.1⟩

/-- The `dfuDNBUSY` branch of `handle_dfu_getstatus`. -/
def executePending (c : Core) : Core :=
  if c.dfu.cmdPending ≠ 0 then executeCommand c
  else if 0 < c.dfu.bufferLen then writeBuffer c
  else { c with dfu := { c.dfu with state := .dnloadIdle } }

/-- `handle_dfu_getstatus` up to the label `send_status`, with `poll_timeout`. -/
def getstatusTransition (c : Core) : Core × UInt8 :=
  if c.dfu.state = .dnloadSync then ({ c with dfu := { c.dfu with state := .dnbusy } }, 100)
  else if c.dfu.state = .dnbusy then (executePending c, 0)
  else if c.dfu.state = .manifestSync then
    ({ c with dfu := { c.dfu with state := .manifestWaitReset } }, 0)
  else (c, 0)

def handleDfuGetstatus (c : Core) : Core × Ep0Call :=
  let r := getstatusTransition c
  (r.1, .reply [r.1.dfu.status.toByte, r.2, 0, 0, r.1.dfu.state.toByte, 0])

def handleDfuGetstate (d : Dfu) : Ep0Call := .reply [d.state.toByte]

def handleDfuDnload (block len : ℕ) (d : Dfu) : Dfu × Ep0Call :=
  if len = 0 then
    if d.state = .dnloadIdle then ({ d with state := .manifestSync }, .sendZlp) else (d, .stall)
  else if dfuXferSize < len then (d.fail .errUnknown, .stall)
  else if block = 1 then (d, .stall)
  else if d.state = .idle ∨ d.state = .dnloadIdle then
    ({ d with
        blockNum := block
        xferLen := len
        bufferLen := 0
        address := if 2 ≤ block then d.addressPtr + UInt32.ofNat (block - 2) * UInt32.ofNat dfuXferSize
          else d.address
        state := .dnloadSync }, .enableRx)
  else (d, .stall)

def handleDfuUpload (block len : ℕ) (d : Dfu) : Dfu × Ep0Call :=
  if d.state ≠ .idle ∧ d.state ≠ .uploadIdle then (d, .stall)
  else if block < 2 then (d, .stall)
  else
    let addr := d.addressPtr + UInt32.ofNat (block - 2) * UInt32.ofNat dfuXferSize
    if addr < appFlashStart ∨ appFlashEnd < addr then ({ d with state := .idle }, .sendZlp)
    else
      let avail := appFlashEnd - addr + 1
      let readLen := if UInt32.ofNat len < avail then len else avail.toNat % 2 ^ 16
      ({ d with state := .uploadIdle }, .send ⟨.flash, addr.toNat⟩ readLen)

def handleDfuClrstatus (d : Dfu) : Dfu × Ep0Call :=
  (if d.state = .error then { d with status := .ok, state := .idle } else d, .sendZlp)

def handleDfuAbort (d : Dfu) : Dfu × Ep0Call :=
  ({ d with
      status := .ok
      state := .idle
      address := appStartAddress
      addressPtr := appStartAddress
      cmdPending := 0
      cmdHasArg := false }, .sendZlp)

/-- The class branch of `handle_setup`. -/
def dfuRequest (p : SetupPacket) (c : Core) : Core × Ep0Call :=
  let onDfu := fun r : Dfu × Ep0Call => (({ c with dfu := r.1 } : Core), r.2)
  if p.bRequest = dfuGetstatus then handleDfuGetstatus c
  else if p.bRequest = dfuGetstate then (c, handleDfuGetstate c.dfu)
  else if p.bRequest = dfuDnload then onDfu (handleDfuDnload p.wValue.toNat p.wLength.toNat c.dfu)
  else if p.bRequest = dfuUpload then onDfu (handleDfuUpload p.wValue.toNat p.wLength.toNat c.dfu)
  else if p.bRequest = dfuClrstatus then onDfu (handleDfuClrstatus c.dfu)
  else if p.bRequest = dfuAbort then onDfu (handleDfuAbort c.dfu)
  else (c, .stall)

/-- `handle_ep0_out` appends a packet to `dfu_buffer` if it fits. -/
def appendData (data : ℕ → UInt8) (count : ℕ) (d : Dfu) : Dfu :=
  if d.bufferLen + count ≤ dfuXferSize then
    { d with buffer := overwrite d.buffer d.bufferLen count data, bufferLen := d.bufferLen + count }
  else d

/-- `handle_ep0_out` decodes a complete block 0. -/
def decodeCommand (d : Dfu) : Dfu :=
  let b := d.buffer
  let hasArg : Bool := 5 ≤ d.bufferLen
  { d with
    cmdPending := b 0
    cmdHasArg := hasArg
    cmdArg := if hasArg then le32 (b 1) (b 2) (b 3) (b 4) else d.cmdArg
    bufferLen := 0 }

/-- The body of `handle_ep0_out` in `dfuDNLOAD-SYNC`; the flag says whether the status stage is
acknowledged. -/
def dataStage (data : ℕ → UInt8) (count : ℕ) (d : Dfu) : Dfu × Bool :=
  let d := appendData data count d
  if d.xferLen ≤ d.bufferLen then
    (if d.blockNum = 0 ∧ 1 ≤ d.bufferLen then decodeCommand d else d, true)
  else (d, false)

end NovaBootloader
