import NovaBootloader.ByteMemory

/-!
# SETUP packets, descriptors and the calls a request handler makes on EP0

Request handlers end in one call of the EP0 engine. `Ep0Call` names that call, so that a handler is
a function from the state it owns to its new state and the call.
-/

namespace NovaBootloader
open ByteMemory

def usbReqTypeStandard : UInt8 := 0x00
def usbReqTypeClass : UInt8 := 0x20
def usbReqTypeMask : UInt8 := 0x60

def usbReqGetStatus : UInt8 := 0x00
def usbReqSetAddress : UInt8 := 0x05
def usbReqGetDescriptor : UInt8 := 0x06
def usbReqGetConfiguration : UInt8 := 0x08
def usbReqSetConfiguration : UInt8 := 0x09

def usbDescTypeDevice : UInt8 := 0x01
def usbDescTypeConfiguration : UInt8 := 0x02
def usbDescTypeString : UInt8 := 0x03
def usbDescTypeInterface : UInt8 := 0x04
def usbDescTypeDfuFunctional : UInt8 := 0x21

structure SetupPacket where
  bmRequestType : UInt8
  bRequest : UInt8
  wValue : UInt16
  wIndex : UInt16
  wLength : UInt16
deriving DecidableEq, Repr

namespace SetupPacket

def toBytes (p : SetupPacket) : List UInt8 :=
  [p.bmRequestType, p.bRequest, (p.wValue &&& 0xFF).toUInt8, (p.wValue >>> 8).toUInt8,
    (p.wIndex &&& 0xFF).toUInt8, (p.wIndex >>> 8).toUInt8,
    (p.wLength &&& 0xFF).toUInt8, (p.wLength >>> 8).toUInt8]

/-- The structure `USB_SetupPacket` laid over eight bytes of memory. -/
def ofBytes (b : ℕ → UInt8) : SetupPacket where
  bmRequestType := b 0
  bRequest := b 1
  wValue := le16 (b 2) (b 3)
  wIndex := le16 (b 4) (b 5)
  wLength := le16 (b 6) (b 7)

def IsStandard (p : SetupPacket) : Prop := p.bmRequestType &&& usbReqTypeMask = usbReqTypeStandard

def IsClass (p : SetupPacket) : Prop := p.bmRequestType &&& usbReqTypeMask = usbReqTypeClass

instance (p : SetupPacket) : Decidable p.IsStandard := inferInstanceAs (Decidable (_ = _))

instance (p : SetupPacket) : Decidable p.IsClass := inferInstanceAs (Decidable (_ = _))

theorem not_isStandard_of_isClass {p : SetupPacket} (h : p.IsClass) : ¬ p.IsStandard := by
  unfold IsClass at h
  unfold IsStandard
  rw [h]
  decide

end SetupPacket

/-- The static objects a control-IN data stage can be fed from. -/
inductive TxObject where
  | null
  | deviceDescriptor
  | configDescriptor
  | string (index : Fin 5)
  | ep0Reply
  | flash
deriving DecidableEq, Repr

/-- A `const uint8_t *`: an object and the distance into it; for flash, the absolute address. -/
structure TxPtr where
  object : TxObject
  offset : ℕ
deriving DecidableEq, Repr

def TxPtr.null : TxPtr := ⟨.null, 0⟩

inductive Ep0Call where
  | reply (bytes : List UInt8)
  | send (data : TxPtr) (len : ℕ)
  | sendZlp
  | stall
  | enableRx
deriving DecidableEq, Repr

def dfuAttrCanDnload : UInt8 := 0x01
def dfuAttrCanUpload : UInt8 := 0x02
def dfuAttrManifestationTol : UInt8 := 0x04

def dfuXferSize : ℕ := 1024

def deviceDescriptor : List UInt8 :=
  [18, usbDescTypeDevice, 0x00, 0x02, 0x00, 0x00, 0x00, 64, 0x83, 0x04, 0x11, 0xDF, 0x00, 0x02,
    1, 2, 3, 1]

def configDescriptor : List UInt8 :=
  [9, usbDescTypeConfiguration, 27, 0, 1, 1, 0, 0x80, 50,
    9, usbDescTypeInterface, 0, 0, 0, 0xFE, 0x01, 0x02, 4,
    9, usbDescTypeDfuFunctional,
    dfuAttrCanDnload ||| dfuAttrCanUpload ||| dfuAttrManifestationTol, 0xFF, 0x00, 0x00, 0x04,
    0x1A, 0x01]

/-- A string descriptor as the source spells it: its declared length, its type and UTF-16 text. -/
def stringDescriptor (bLength : UInt8) (text : List Char) : List UInt8 :=
  bLength :: usbDescTypeString :: text.flatMap fun c => [UInt8.ofNat c.toNat, 0]

def string0 : List UInt8 := [4, usbDescTypeString, 0x09, 0x04]
def string1 : List UInt8 := stringDescriptor 20 "Teknatool".toList
def string2 : List UInt8 := stringDescriptor 26 "Nova Voyager".toList
def string3 : List UInt8 := stringDescriptor 10 "0001".toList
def string4 : List UInt8 := stringDescriptor 52 "@Flash/0x08003000/121*2Kg".toList

def stringTable : Fin 5 → List UInt8
  | 0 => string0
  | 1 => string1
  | 2 => string2
  | 3 => string3
  | 4 => string4

def handleGetDescriptor (value : UInt16) (len : ℕ) : Ep0Call :=
  let type := (value >>> 8).toUInt8
  let index := (value &&& 0xFF).toUInt8
  let found : Option (TxObject × ℕ) :=
    if type = usbDescTypeDevice then some (.deviceDescriptor, deviceDescriptor.length)
    else if type = usbDescTypeConfiguration then some (.configDescriptor, configDescriptor.length)
    else if type = usbDescTypeString then
      if h : index.toNat < 5 then
        some (.string ⟨index.toNat, h⟩, (stringTable ⟨index.toNat, h⟩).length)
      else none
    else none
  match found with
  | some (desc, descLen) => .send ⟨desc, 0⟩ (if len < descLen then len else descLen)
  | none => .stall

def Ep0Call.Short : Ep0Call → Prop
  | .reply bytes => bytes.length < 64
  | .send data len => len < 64 ∧ data.object ≠ .ep0Reply
  | _ => True

/-- Every descriptor fits in one packet with room to spare. -/
theorem handleGetDescriptor_short (value : UInt16) (len : ℕ) :
    (handleGetDescriptor value len).Short := by
  have hstr : ∀ i : Fin 5, (stringTable i).length < 64 := by decide
  have hdev : deviceDescriptor.length < 64 := by decide
  have hcfg : configDescriptor.length < 64 := by decide
  have hclip (m : ℕ) (hm : m < 64) : (if len < m then len else m) < 64 := by
    split_ifs <;> omega
  unfold handleGetDescriptor
  dsimp only
  split_ifs
  · exact ⟨hclip _ hdev, by simp⟩
  · exact ⟨hclip _ hcfg, by simp⟩
  · exact ⟨hclip _ (hstr _), by simp⟩
  · trivial
  · trivial

end NovaBootloader
