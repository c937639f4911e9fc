import Mathlib.Data.LawfulXor.Basic
import Mathlib.Tactic

/-!
# The endpoint register `EP0R`

Writing the register does not store what is written: `CTR` bits are cleared by zeros and kept by
ones, `STAT` and `DTOG` bits are toggled by ones, `SETUP` is read-only and the rest is stored.
-/

namespace NovaBootloader

abbrev EpStat := BitVec 2

def EpStat.stall : EpStat := 1
def EpStat.nak : EpStat := 2
def EpStat.valid : EpStat := 3

def usbEpControl : BitVec 2 := 1

structure EpReg where
  ctrRx : Bool
  dtogRx : Bool
  statRx : EpStat
  setup : Bool
  epType : BitVec 2
  kind : Bool
  ctrTx : Bool
  dtogTx : Bool
  statTx : EpStat
  ea : BitVec 4
deriving DecidableEq, Repr

namespace EpReg

def zero : EpReg := ⟨false, false, 0, false, 0, false, false, false, 0, 0⟩

/-- What the register holds after software writes `val`. -/
def write (r val : EpReg) : EpReg where
  ctrRx := r.ctrRx && val.ctrRx
  dtogRx := xor r.dtogRx val.dtogRx
  statRx := r.statRx ^^^ val.statRx
  setup := r.setup
  epType := val.epType
  kind := val.kind
  ctrTx := r.ctrTx && val.ctrTx
  dtogTx := xor r.dtogTx val.dtogTx
  statTx := r.statTx ^^^ val.statTx
  ea := val.ea

/-- The value written to set one direction's status: the toggle bits of the other fields are zero
and the remaining bits are written back as read. -/
def setTxStatus (r : EpReg) (status : EpStat) : EpReg :=
  r.write { zero with ctrRx := r.ctrRx, epType := r.epType, kind := r.kind, ctrTx := r.ctrTx,
                      ea := r.ea, statTx := r.statTx ^^^ status }

def setRxStatus (r : EpReg) (status : EpStat) : EpReg :=
  r.write { zero with ctrRx := r.ctrRx, epType := r.epType, kind := r.kind, ctrTx := r.ctrTx,
                      ea := r.ea, statRx := r.statRx ^^^ status }

/-- `USB_EP0R = USB_EP_CTR_TX | USB_EP_CONTROL`. -/
def clearCtrRx (r : EpReg) : EpReg := r.write { zero with ctrTx := true, epType := usbEpControl }

/-- `USB_EP0R = USB_EP_CTR_RX | USB_EP_CONTROL`. -/
def clearCtrTx (r : EpReg) : EpReg := r.write { zero with ctrRx := true, epType := usbEpControl }

/-- `USB_EP0R = CTR_RX | CTR_TX | CONTROL | RX_VALID | TX_NAK`. -/
def configure (r : EpReg) : EpReg :=
  r.write { zero with ctrRx := true, ctrTx := true, epType := usbEpControl,
                      statRx := EpStat.valid, statTx := EpStat.nak }

@[simp] theorem setTxStatus_eq (r : EpReg) (status : EpStat) :
    r.setTxStatus status = { r with statTx := status } := by
  cases r
  simp [setTxStatus, write, zero]

@[simp] theorem setRxStatus_eq (r : EpReg) (status : EpStat) :
    r.setRxStatus status = { r with statRx := status } := by
  cases r
  simp [setRxStatus, write, zero]

@[simp] theorem clearCtrRx_eq (r : EpReg) : r.clearCtrRx =
    { r with ctrRx := false, epType := usbEpControl, kind := false, ea := 0 } := by
  cases r
  simp [clearCtrRx, write, zero]

@[simp] theorem clearCtrTx_eq (r : EpReg) : r.clearCtrTx =
    { r with ctrTx := false, epType := usbEpControl, kind := false, ea := 0 } := by
  cases r
  simp [clearCtrTx, write, zero]

theorem configure_zero (r : EpReg) (hr : r.statRx = 0) (ht : r.statTx = 0) : r.configure =
    { r with epType := usbEpControl, kind := false, ea := 0, statRx := EpStat.valid,
             statTx := EpStat.nak } := by
  cases r
  subst hr ht
  simp [configure, write, zero, EpStat.valid, EpStat.nak]

end EpReg

end NovaBootloader
