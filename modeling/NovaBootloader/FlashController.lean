import NovaBootloader.ByteMemory

/-!
# The flash controller

Registers and behaviour of the flash peripheral as far as the bootloader drives it: the key
sequence, page erase, half-word programming, and the status flags. `faults k` is what the hardware
reports for the `k`-th erase or program it is asked to do; the trace is arbitrary, so a theorem
about every `faults` is a theorem about every sequence of hardware errors. `log` records what
software asked for, oldest first.
-/

namespace NovaBootloader
open ByteMemory

def flashKey1 : UInt32 := 0x45670123
def flashKey2 : UInt32 := 0xCDEF89AB

def flashPageSize : UInt32 := 2048

def bootloaderStart : UInt32 := 0x08000000
def bootloaderEnd : UInt32 := 0x08002FFF

def appFlashStart : UInt32 := 0x08003000
def appSettingsReserve : UInt32 := flashPageSize
def appFlashEnd : UInt32 := 0x0803FFFF - appSettingsReserve

structure FlashCr where
  pg : Bool
  per : Bool
  optpg : Bool
  opter : Bool
  lock : Bool
deriving DecidableEq, Repr

structure FlashSr where
  bsy : Bool
  pgerr : Bool
  wrprterr : Bool
  eop : Bool
deriving DecidableEq, Repr

structure Fault where
  pgerr : Bool
  wrprterr : Bool
deriving DecidableEq, Repr

def Fault.none : Fault := ⟨false, false⟩

def Fault.raised (f : Fault) : Bool := f.pgerr || f.wrprterr

inductive FlashEvent where
  | eraseCall (address : UInt32)
  | writeCall (address : UInt32) (bytes : List UInt8)
  | pageErase (page : ℕ)
  | store (dst : ℕ) (lo hi : UInt8)
deriving DecidableEq, Repr

/-- The byte addresses a hardware operation touches; a call by itself touches none. -/
def FlashEvent.Touches : FlashEvent → ℕ → Prop
  | .pageErase page, x => page ≤ x ∧ x < page + flashPageSize.toNat
  | .store dst _ _, x => x = dst ∨ x = dst + 1
  | _, _ => False

structure FlashHw where
  mem : ℕ → UInt8
  cr : FlashCr
  sr : FlashSr
  ar : UInt32
  keyed : Bool
  faults : ℕ → Fault
  ops : ℕ
  log : List FlashEvent

namespace FlashHw

def powerOn (mem : ℕ → UInt8) (faults : ℕ → Fault) : FlashHw where
  mem := mem
  cr := ⟨false, false, false, false, true⟩
  sr := ⟨false, false, false, false⟩
  ar := 0
  keyed := false
  faults := faults
  ops := 0
  log := []

def record (h : FlashHw) (e : FlashEvent) : FlashHw := { h with log := h.log ++ [e] }

/-- A write to `FLASH_KEYR`: the two keys in order clear `LOCK`. -/
def writeKeyr (h : FlashHw) (key : UInt32) : FlashHw :=
  if key = flashKey1 then { h with keyed := true }
  else if key = flashKey2 ∧ h.keyed then { h with cr := { h.cr with lock := false }, keyed := false }
  else { h with keyed := false }

/-- A read-modify-write of `FLASH_CR`, which a locked controller ignores. -/
def modifyCr (f : FlashCr → FlashCr) (h : FlashHw) : FlashHw :=
  if h.cr.lock then h else { h with cr := f h.cr }

/-- `FLASH_SR = PGERR | WRPRTERR | EOP`: the flags are cleared by writing ones. -/
def clearErrors (h : FlashHw) : FlashHw :=
  { h with sr := { h.sr with pgerr := false, wrprterr := false, eop := false } }

def begin (h : FlashHw) : FlashHw :=
  { h with
    ops := h.ops + 1
    sr := ⟨true, h.sr.pgerr || (h.faults h.ops).pgerr, h.sr.wrprterr || (h.faults h.ops).wrprterr,
      !(h.faults h.ops).raised⟩ }

def pageBase (a : UInt32) : ℕ := a.toNat / flashPageSize.toNat * flashPageSize.toNat

/-- `FLASH_CR |= STRT` with `PER` set: the page that holds `FLASH_AR` is erased, unless the
hardware reports a fault. `STRT` clears itself. -/
def start (h : FlashHw) : FlashHw :=
  if h.cr.lock || !h.cr.per then h
  else
    let page := pageBase h.ar
    let mem := if (h.faults h.ops).raised then h.mem
      else overwrite h.mem page flashPageSize.toNat fun _ => 0xFF
    ({ h with mem := mem }.record (.pageErase page)).begin

/-- A half-word store into flash with `PG` set. Without it the hardware refuses. -/
def storeHalfword (dst : ℕ) (lo hi : UInt8) (h : FlashHw) : FlashHw :=
  let h := h.record (.store dst lo hi)
  if h.cr.lock || !h.cr.pg then { h with sr := { h.sr with pgerr := true } }
  else
    let mem := if (h.faults h.ops).raised then h.mem
      else overwrite h.mem dst 2 fun i => if i = 0 then lo else hi
    { h with mem := mem }.begin

/-- The error bits `flash_erase_page` and `flash_write` test. -/
def failed (h : FlashHw) : Bool := h.sr.pgerr || h.sr.wrprterr

end FlashHw

end NovaBootloader
