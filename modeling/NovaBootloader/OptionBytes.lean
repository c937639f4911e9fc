import NovaBootloader.FlashInterface

/-!
# `flash_if.c`: the option bytes

The option block is eight half-words, each a value and the complement the hardware adds. It is
erased as a whole and programmed half-word by half-word, through the flash controller and a second
key sequence. `takes k` says whether the `k`-th of these operations takes effect, and `history`
keeps the block as each of them left it, oldest first.
-/

namespace NovaBootloader
open FlashHw

inductive OptionByte where
  | rdp
  | user
  | data0
  | data1
  | wrp0
  | wrp1
  | wrp2
  | wrp3
deriving DecidableEq, Repr

abbrev OptionBytes := OptionByte → UInt16

def obRdpUnlock : UInt16 := 0x00A5
def obWrpNone : UInt16 := 0x00FF

def obValue (word : UInt16) : UInt16 := word &&& 0xFF

/-- The half-word the hardware stores for a written value. -/
def obStored (value : UInt16) : UInt16 := obValue value ||| (~~~value <<< 8)

structure OptionHw where
  flash : FlashHw
  bytes : OptionBytes
  optKeyed : Bool
  optwre : Bool
  takes : ℕ → Bool
  writes : ℕ
  history : List OptionBytes

namespace OptionHw

def powerOn (mem : ℕ → UInt8) (bytes : OptionBytes) (faults : ℕ → Fault) (takes : ℕ → Bool) :
    OptionHw where
  flash := FlashHw.powerOn mem faults
  bytes := bytes
  optKeyed := false
  optwre := false
  takes := takes
  writes := 0
  history := []

/-- A write to `FLASH_OPTKEYR`: the two keys in order set `OPTWRE`. -/
def writeOptkeyr (w : OptionHw) (key : UInt32) : OptionHw :=
  if key = flashKey1 then { w with optKeyed := true }
  else if key = flashKey2 ∧ w.optKeyed then { w with optwre := true, optKeyed := false }
  else { w with optKeyed := false }

def onFlash (f : FlashHw → FlashHw) (w : OptionHw) : OptionHw := { w with flash := f w.flash }

def modifyCr (f : FlashCr → FlashCr) (w : OptionHw) : OptionHw := w.onFlash (FlashHw.modifyCr f)

def wait (w : OptionHw) : OptionHw := w.onFlash flashWait

/-- The hardware begins an operation that leaves `bytes` if it takes effect. -/
def commit (bytes : OptionBytes) (w : OptionHw) : OptionHw :=
  let bytes := if w.takes w.writes then bytes else w.bytes
  { w with
    flash := w.flash.begin
    bytes := bytes
    writes := w.writes + 1
    history := w.history ++ [bytes] }

/-- `FLASH_CR |= STRT`: with `OPTER` set the whole block is erased. -/
def start (w : OptionHw) : OptionHw :=
  if w.flash.cr.lock || !w.flash.cr.opter || !w.optwre then w.onFlash FlashHw.start
  else w.commit fun _ => 0xFFFF

/-- A half-word store into the block with `OPTPG` set. Without it the hardware refuses. -/
def program (ob : OptionByte) (value : UInt16) (w : OptionHw) : OptionHw :=
  if w.flash.cr.lock || !w.flash.cr.optpg || !w.optwre then
    w.onFlash fun h => { h with sr := { h.sr with pgerr := true } }
  else w.commit (Function.update w.bytes ob (obStored value))

end OptionHw

def wrpIsClear (bytes : OptionBytes) : Bool :=
  obValue (bytes .wrp0) = 0xFF ∧ obValue (bytes .wrp1) = 0xFF ∧
    obValue (bytes .wrp2) = 0xFF ∧ obValue (bytes .wrp3) = 0xFF

/-- `flash_disable_write_protection` from the snapshot on: the block is erased and rebuilt. -/
def rebuildOptionBytes (w : OptionHw) : OptionHw :=
  let rdp := obValue (w.bytes .rdp)
  let user := obValue (w.bytes .user)
  let data0 := obValue (w.bytes .data0)
  let data1 := obValue (w.bytes .data1)
  let w := (w.onFlash flashUnlock).wait
  let w := (w.writeOptkeyr flashKey1).writeOptkeyr flashKey2
  let w := w.onFlash clearErrors
  let w := w.modifyCr fun cr => { cr with opter := true }
  let w := w.start.wait
  let w := w.modifyCr fun cr => { cr with opter := false }
  let w := w.modifyCr fun cr => { cr with optpg := true }
  -- the unlock code goes back only where read protection was off: a device that goes from
  -- protected to unprotected erases its main flash at the next reset
  let w := if rdp = obRdpUnlock then (w.program .rdp obRdpUnlock).wait else w
  let w := (w.program .user user).wait
  let w := (w.program .data0 data0).wait
  let w := (w.program .data1 data1).wait
  let w := (w.program .wrp0 obWrpNone).wait
  let w := (w.program .wrp1 obWrpNone).wait
  let w := (w.program .wrp2 obWrpNone).wait
  let w := (w.program .wrp3 obWrpNone).wait
  let w := w.modifyCr fun cr => { cr with optpg := false }
  w.onFlash flashLock

def flashDisableWriteProtection (w : OptionHw) : OptionHw × Int :=
  if wrpIsClear w.bytes then (w, 0)
  else
    let w := rebuildOptionBytes w
    (w, if wrpIsClear w.bytes then 1 else 0)

theorem flashDisableWriteProtection_of_clear {w : OptionHw} (h : wrpIsClear w.bytes = true) :
    flashDisableWriteProtection w = (w, 0) := if_pos h

/-- The function asks for a reset only over a block it reads back without write protection. -/
theorem wrpIsClear_of_ne_zero {w : OptionHw} (h : (flashDisableWriteProtection w).2 ≠ 0) :
    wrpIsClear (flashDisableWriteProtection w).1.bytes = true := by
  unfold flashDisableWriteProtection at h ⊢
  by_cases hclear : wrpIsClear w.bytes = true
  · rw [if_pos hclear] at h
    exact absurd rfl h
  · rw [if_neg hclear] at h ⊢
    by_cases hset : wrpIsClear (rebuildOptionBytes w).bytes = true
    · exact hset
    · exact absurd (if_neg hset) h

end NovaBootloader
