import NovaBootloader.Clock
import NovaBootloader.IdleController

/-!
# `main.c`: the way from reset to the application or to DFU mode

A `Board` is what `main` finds. It ends in a jump to the application, in the endless loop that stops
the core, in a system reset, or in DFU mode at its first poll. `entersDfu` is the flag `main`
computes from the button, the magic word and the application's vector table.
-/

namespace NovaBootloader
open ByteMemory

def estack : UInt32 := 0x2000C000
def ramBase : UInt32 := 0x20000000
def appAddress : UInt32 := 0x08003000
def f1ButtonPin : UInt32 := (1 : UInt32) <<< 10
def dfuMagicValue : UInt32 := 0x424C

structure Board where
  options : OptionHw
  magic : UInt32
  gpiocIdr : UInt32
  rcc : Rcc

inductive BootEnd where
  | jump (sp pc : UInt32)
  | stop
  | reset
  | dfu (s : Machine)

def readWord (mem : ℕ → UInt8) (a : ℕ) : UInt32 := le32 (mem a) (mem (a + 1)) (mem (a + 2)) (mem (a + 3))

def appSp (mem : ℕ → UInt8) : UInt32 := readWord mem appAddress.toNat

def appReset (mem : ℕ → UInt8) : UInt32 := readWord mem (appAddress.toNat + 4)

def f1ButtonPressed (gpiocIdr : UInt32) : Bool := gpiocIdr &&& f1ButtonPin = 0

def magicRamSet (magic : UInt32) : Bool := magic = dfuMagicValue

def appValid (mem : ℕ → UInt8) : Bool :=
  if appSp mem < ramBase ∨ estack < appSp mem then false
  else if appReset mem < appAddress ∨ 0x08040000 < appReset mem then false
  else true

namespace Board

abbrev mem (b : Board) : ℕ → UInt8 := b.options.flash.mem

def jumpToApp (b : Board) : Board × BootEnd := (b, .jump (appSp b.mem) (appReset b.mem))

def bootAppOrStop (b : Board) : Board × BootEnd :=
  if appValid b.mem then b.jumpToApp else (b, .stop)

def startClock (cfg : BuildConfig) (b : Board) : Board := { b with rcc := (clockInit cfg b.rcc).1 }

def runDfuMode (cfg : BuildConfig) (b : Board) : Board × BootEnd :=
  if cfg.use120MHz then (b.startClock cfg).bootAppOrStop
  else if (clockInit cfg b.rcc).2 = 0 then (b.startClock cfg).bootAppOrStop
  else
    let r := flashDisableWriteProtection b.options
    let b := { b.startClock cfg with options := r.1 }
    -- the protection register is reloaded at a reset only, so the request for DFU mode is renewed
    if r.2 ≠ 0 then ({ b with magic := dfuMagicValue }, .reset)
    else (b, .dfu (Machine.startOn b.options.flash))

/-- The flag `enter_dfu`. -/
def entersDfu (b : Board) : Bool :=
  f1ButtonPressed b.gpiocIdr || magicRamSet b.magic || !appValid b.mem

def main (cfg : BuildConfig) (b : Board) : Board × BootEnd :=
  let enterDfu := b.entersDfu
  let b := if magicRamSet b.magic then { b with magic := 0 } else b
  if enterDfu then b.runDfuMode cfg else (b.startClock cfg).jumpToApp

end Board

def SpInRam (sp : UInt32) : Prop := ramBase ≤ sp ∧ sp ≤ estack

instance (sp : UInt32) : Decidable (SpInRam sp) := inferInstanceAs (Decidable (_ ∧ _))

theorem appValid_iff (mem : ℕ → UInt8) : appValid mem = true ↔
    SpInRam (appSp mem) ∧ appAddress ≤ appReset mem ∧ appReset mem ≤ 0x08040000 := by
  have hbound : (0x08040000 : UInt32).toNat = 0x08040000 := rfl
  unfold appValid SpInRam
  simp only [UInt32.le_iff_toNat_le, UInt32.lt_iff_toNat_lt, hbound]
  split_ifs <;> simp <;> omega

namespace Board

variable (cfg : BuildConfig) (b : Board)

theorem main_of_not_entersDfu (h : b.entersDfu = false) :
    b.main cfg = (b.startClock cfg, .jump (appSp b.mem) (appReset b.mem)) := by
  have hmagic : magicRamSet b.magic = false := by
    simp only [entersDfu, Bool.or_eq_false_iff] at h
    exact h.1.2
  unfold main
  rw [h, hmagic]
  rfl

theorem bootAppOrStop_end (b : Board) : b.bootAppOrStop.2 =
    if appValid b.mem then .jump (appSp b.mem) (appReset b.mem) else .stop := by
  unfold bootAppOrStop
  split_ifs <;> rfl

theorem runDfuMode_end (b : Board) : (b.runDfuMode cfg).2 =
    if cfg.use120MHz ∨ (clockInit cfg b.rcc).2 = 0 then
      if appValid b.mem then .jump (appSp b.mem) (appReset b.mem) else .stop
    else if (flashDisableWriteProtection b.options).2 ≠ 0 then .reset
    else .dfu (Machine.startOn (flashDisableWriteProtection b.options).1.flash) := by
  have hend := bootAppOrStop_end (b.startClock cfg)
  unfold runDfuMode
  by_cases hcfg : cfg.use120MHz = true
  · rw [if_pos hcfg, if_pos (Or.inl hcfg)]
    exact hend
  by_cases hclock : (clockInit cfg b.rcc).2 = 0
  · rw [if_neg hcfg, if_pos hclock, if_pos (Or.inr hclock)]
    exact hend
  · rw [if_neg hcfg, if_neg hclock, if_neg (not_or.mpr ⟨hcfg, hclock⟩)]
    dsimp only
    split_ifs <;> rfl

theorem main_of_entersDfu (h : b.entersDfu = true) : b.main cfg =
    (if magicRamSet b.magic then { b with magic := 0 } else b).runDfuMode cfg := by
  unfold main
  rw [h]
  rfl

/-- How a boot ends, from what it finds. -/
theorem main_end : (b.main cfg).2 =
    if b.entersDfu then
      if cfg.use120MHz ∨ (clockInit cfg b.rcc).2 = 0 then
        if appValid b.mem then .jump (appSp b.mem) (appReset b.mem) else .stop
      else if (flashDisableWriteProtection b.options).2 ≠ 0 then .reset
      else .dfu (Machine.startOn (flashDisableWriteProtection b.options).1.flash)
    else .jump (appSp b.mem) (appReset b.mem) := by
  cases h : b.entersDfu with
  | false => rw [main_of_not_entersDfu cfg b h, if_neg Bool.false_ne_true]
  | true =>
    rw [main_of_entersDfu cfg b h, runDfuMode_end, if_pos rfl]
    split_ifs <;> rfl

/-- DFU mode is asked for, and this build and this crystal can provide it. -/
def DfuGranted : Prop :=
  (f1ButtonPressed b.gpiocIdr = true ∨ magicRamSet b.magic = true) ∧ cfg.use120MHz = false ∧
    (clockInit cfg b.rcc).2 ≠ 0

instance : Decidable (b.DfuGranted cfg) := inferInstanceAs (Decidable (_ ∧ _))

theorem main_eq_jump_iff {sp pc : UInt32} : (b.main cfg).2 = .jump sp pc ↔
    appValid b.mem = true ∧ ¬ b.DfuGranted cfg ∧ sp = appSp b.mem ∧ pc = appReset b.mem := by
  have hjump : (BootEnd.jump (appSp b.mem) (appReset b.mem) = .jump sp pc) ↔
      sp = appSp b.mem ∧ pc = appReset b.mem := by
    rw [BootEnd.jump.injEq]
    exact and_congr eq_comm eq_comm
  rw [main_end]
  unfold entersDfu DfuGranted
  by_cases hvalid : appValid b.mem = true
  · by_cases hclock : cfg.use120MHz = true ∨ (clockInit cfg b.rcc).2 = 0
    · have hnot : ¬ ((f1ButtonPressed b.gpiocIdr = true ∨ magicRamSet b.magic = true) ∧
          cfg.use120MHz = false ∧ (clockInit cfg b.rcc).2 ≠ 0) := by
        rintro ⟨-, h72, hok⟩
        rcases hclock with h120 | hfail
        · exact Bool.false_ne_true (h72.symm.trans h120)
        · exact hok hfail
      rw [if_pos hclock, if_pos hvalid, ite_self, hjump]
      tauto
    · rw [not_or, Bool.not_eq_true] at hclock
      by_cases hreq : f1ButtonPressed b.gpiocIdr = true ∨ magicRamSet b.magic = true
      · have henter : (f1ButtonPressed b.gpiocIdr || magicRamSet b.magic || !appValid b.mem) = true := by
          simp [hreq]
        rw [if_pos henter, if_neg (by simp [hclock])]
        refine iff_of_false ?_ fun h => h.2.1 ⟨hreq, hclock⟩
        split_ifs <;> exact not_false
      · have henter : (f1ButtonPressed b.gpiocIdr || magicRamSet b.magic || !appValid b.mem) = false := by
          simpa [hvalid] using hreq
        rw [henter, if_neg Bool.false_ne_true, hjump]
        tauto
  · have henter : (f1ButtonPressed b.gpiocIdr || magicRamSet b.magic || !appValid b.mem) = true := by
      simp [hvalid]
    rw [if_pos henter, if_neg hvalid]
    refine iff_of_false ?_ fun h => hvalid h.1
    split_ifs <;> exact not_false

/-- A jump takes its stack pointer and its reset vector from the application's vector table, and
they name RAM and the application region; a boot that does not jump enters DFU mode or stops. -/
structure EndsPlausibly : Prop where
  jump : ∀ sp pc, (b.main cfg).2 = .jump sp pc →
    sp = readWord b.mem 0x08003000 ∧ pc = readWord b.mem 0x08003004 ∧
      (0x20000000 ≤ sp ∧ sp ≤ estack) ∧ (0x08003000 ≤ pc ∧ pc ≤ 0x0803FFFF)
  otherwise : (∀ sp pc, (b.main cfg).2 ≠ .jump sp pc) →
    b.entersDfu = true ∨ (b.main cfg).2 = .stop

/-- The vector table passes for one with its reset vector just past the end of the region, and
nothing keeps the boot from using it. -/
def JumpsPastEnd : Prop :=
  SpInRam (appSp b.mem) ∧ appReset b.mem = 0x08040000 ∧ ¬ b.DfuGranted cfg

/-- A board as a reset leaves it, with the button released and no request for DFU mode. -/
def released (mem : ℕ → UInt8) (polls : ℕ → RccFlags) : Board where
  options := OptionHw.powerOn mem (fun _ => 0x00FF) (fun _ => Fault.none) fun _ => true
  magic := 0
  gpiocIdr := f1ButtonPin
  rcc := Rcc.reset polls

def pastEndImage : ℕ → UInt8 :=
  overwrite (fun _ => 0xFF) 0x08003000 8 (ofList (bytes32 0x20001000 ++ bytes32 0x08040000))

end Board

end NovaBootloader
