import NovaBootloader.Boot
import NovaBootloader.RegisterField

/-!
# The pins

`gpio_init` makes PC10 an input with pull-up for the F1 button, `usb_init` sets up PA4 to PA7, PC9
and the two USB pins. Both read a configuration register, change the fields of their pins and write
it back; PC9 and PC10 share a register. A port whose clock is off ignores writes.
-/

namespace NovaBootloader
open RegisterField

structure GpioPort where
  crl : BitVec 32
  crh : BitVec 32
  odr : BitVec 32
deriving DecidableEq, Repr

structure PinRegisters where
  apb1enr : BitVec 32
  apb2enr : BitVec 32
  gpioa : GpioPort
  gpioc : GpioPort
deriving DecidableEq, Repr

def rccApb2enrAfioen : BitVec 32 := 1 <<< 0
def rccApb2enrIopaen : BitVec 32 := 1 <<< 2
def rccApb2enrIopcen : BitVec 32 := 1 <<< 4
def rccApb1enrUsben : BitVec 32 := 1 <<< 23

namespace PinRegisters

def writeA (f : GpioPort → GpioPort) (p : PinRegisters) : PinRegisters :=
  if p.apb2enr &&& rccApb2enrIopaen = 0 then p else { p with gpioa := f p.gpioa }

def writeC (f : GpioPort → GpioPort) (p : PinRegisters) : PinRegisters :=
  if p.apb2enr &&& rccApb2enrIopcen = 0 then p else { p with gpioc := f p.gpioc }

def gpioInit (p : PinRegisters) : PinRegisters :=
  let p := { p with apb2enr := p.apb2enr ||| rccApb2enrIopcen }
  let p := p.writeC fun g => { g with crh := (g.crh &&& ~~~(0xF#32 <<< 8)) ||| (0x8#32 <<< 8) }
  p.writeC fun g => { g with odr := g.odr ||| f1ButtonPin.toBitVec }

/-- `usb_init` up to the USB peripheral itself. -/
def usbInitPins (p : PinRegisters) : PinRegisters :=
  let p := { p with
    apb2enr := p.apb2enr ||| (rccApb2enrIopaen ||| rccApb2enrIopcen ||| rccApb2enrAfioen) }
  let p := { p with apb1enr := p.apb1enr ||| rccApb1enrUsben }
  -- PA7 = B, PA6 = 4, PA5 = B, PA4 = 3, and PA4 high
  let p := p.writeA fun g => { g with crl := (g.crl &&& ~~~(0xFFFF#32 <<< 16)) ||| (0xB4B3#32 <<< 16) }
  let p := p.writeA fun g => { g with odr := g.odr ||| (1#32 <<< 4) }
  -- PC9 open drain and low
  let p := p.writeC fun g => { g with crh := (g.crh &&& ~~~(0xF#32 <<< 4)) ||| (0x7#32 <<< 4) }
  let p := p.writeC fun g => { g with odr := g.odr &&& ~~~(1#32 <<< 9) }
  -- PA11 and PA12 floating, for the USB peripheral
  p.writeA fun g => { g with crh := (g.crh &&& ~~~(0xFF#32 <<< 12)) ||| (0x44#32 <<< 12) }

end PinRegisters

structure Pin where
  config : BitVec 4
  output : Bool
deriving DecidableEq, Repr

/-- Input with pull-up or pull-down, by the output bit. -/
def inputPulled : BitVec 4 := 0x8

namespace GpioPort

def pin (g : GpioPort) (n : ℕ) : Pin where
  config := if n < 8 then get g.crl (4 * n) 4 else get g.crh (4 * (n - 8)) 4
  output := g.odr.getLsbD n

/-- The level of an input: what drives it from outside, else its pull resistor, else noise. -/
def level (g : GpioPort) (drive : ℕ → Option Bool) (noise : ℕ → Bool) (n : ℕ) : Bool :=
  match drive n with
  | some b => b
  | none => if (g.pin n).config = inputPulled then (g.pin n).output else noise n

def idr (g : GpioPort) (drive : ℕ → Option Bool) (noise : ℕ → Bool) : UInt32 :=
  .ofBitVec (ofBits (fun n => decide (n < 16) && g.level drive noise n) 32)

end GpioPort

def pinsOfA (old : ℕ → Pin) (n : ℕ) : Pin :=
  if n = 4 then ⟨0x3, true⟩
  else if n = 5 ∨ n = 7 then ⟨0xB, (old n).output⟩
  else if n = 6 ∨ n = 11 ∨ n = 12 then ⟨0x4, (old n).output⟩
  else old n

def pinsOfC (old : ℕ → Pin) (n : ℕ) : Pin :=
  if n = 9 then ⟨0x7, false⟩ else if n = 10 then ⟨inputPulled, true⟩ else old n

namespace PinRegisters

section Clocked

variable {f : GpioPort → GpioPort} {apb1enr apb2enr : BitVec 32} {gpioa gpioc : GpioPort}

theorem writeA_of_clocked (h : apb2enr.getLsbD 2 = true) :
    writeA f ⟨apb1enr, apb2enr, gpioa, gpioc⟩ = ⟨apb1enr, apb2enr, f gpioa, gpioc⟩ := by
  refine if_neg fun (hzero : apb2enr &&& rccApb2enrIopaen = 0) => ?_
  have hbit : (apb2enr &&& rccApb2enrIopaen).getLsbD 2 = false := by
    rw [hzero]
    rfl
  rw [BitVec.getLsbD_and, h] at hbit
  exact absurd hbit (by decide)

theorem writeC_of_clocked (h : apb2enr.getLsbD 4 = true) :
    writeC f ⟨apb1enr, apb2enr, gpioa, gpioc⟩ = ⟨apb1enr, apb2enr, gpioa, f gpioc⟩ := by
  refine if_neg fun (hzero : apb2enr &&& rccApb2enrIopcen = 0) => ?_
  have hbit : (apb2enr &&& rccApb2enrIopcen).getLsbD 4 = false := by
    rw [hzero]
    rfl
  rw [BitVec.getLsbD_and, h] at hbit
  exact absurd hbit (by decide)

end Clocked

theorem getLsbD_or_right (r : BitVec 32) {m : BitVec 32} {i : ℕ} (h : m.getLsbD i = true) :
    (r ||| m).getLsbD i = true := by
  rw [BitVec.getLsbD_or, h, Bool.or_true]

/-- `gpio_init` puts one field into each of two registers of port C. -/
theorem gpioInit_eq (p : PinRegisters) : p.gpioInit = { p with
    apb2enr := p.apb2enr ||| rccApb2enrIopcen
    gpioc := { p.gpioc with crh := put p.gpioc.crh 8 0x8#4, odr := put p.gpioc.odr 10 1#1 } } := by
  have hclock : (p.apb2enr ||| rccApb2enrIopcen).getLsbD 4 = true := getLsbD_or_right _ (by decide)
  have hodr : p.gpioc.odr ||| f1ButtonPin.toBitVec = put p.gpioc.odr 10 1#1 :=
    or_bit_eq_put _ (by decide)
  unfold gpioInit
  dsimp only
  rw [writeC_of_clocked hclock, writeC_of_clocked hclock, hodr]
  rfl

/-- `usb_init` puts three fields into the registers of port A and two into those of port C. -/
theorem usbInitPins_eq (p : PinRegisters) : p.usbInitPins = { p with
    apb1enr := p.apb1enr ||| rccApb1enrUsben
    apb2enr := p.apb2enr ||| (rccApb2enrIopaen ||| rccApb2enrIopcen ||| rccApb2enrAfioen)
    gpioa := {
      crl := put p.gpioa.crl 16 0xB4B3#16
      crh := put p.gpioa.crh 12 0x44#8
      odr := put p.gpioa.odr 4 1#1 }
    gpioc := { p.gpioc with crh := put p.gpioc.crh 4 0x7#4, odr := put p.gpioc.odr 9 0#1 } } := by
  have hclockA : (p.apb2enr ||| (rccApb2enrIopaen ||| rccApb2enrIopcen ||| rccApb2enrAfioen)).getLsbD
      2 = true := getLsbD_or_right _ (by decide)
  have hclockC : (p.apb2enr ||| (rccApb2enrIopaen ||| rccApb2enrIopcen ||| rccApb2enrAfioen)).getLsbD
      4 = true := getLsbD_or_right _ (by decide)
  have hodrA : p.gpioa.odr ||| (1#32 <<< 4) = put p.gpioa.odr 4 1#1 := or_bit_eq_put _ (by decide)
  have hodrC : p.gpioc.odr &&& ~~~(1#32 <<< 9) = put p.gpioc.odr 9 0#1 :=
    and_not_bit_eq_put _ (by decide)
  unfold usbInitPins
  dsimp only
  rw [writeA_of_clocked hclockA, writeA_of_clocked hclockA, writeC_of_clocked hclockC,
    writeC_of_clocked hclockC, writeA_of_clocked hclockA, hodrA, hodrC]
  rfl

end PinRegisters

section PinByPin

variable (p : PinRegisters) {n : ℕ}

theorem pinsOfA_of_other {old : ℕ → Pin} (h : n < 4 ∨ n = 8 ∨ n = 9 ∨ n = 10 ∨ 13 ≤ n) :
    pinsOfA old n = old n := by
  unfold pinsOfA
  rw [if_neg (by omega), if_neg (by omega), if_neg (by omega)]

theorem usbInitPins_pinA (hn : n < 16) :
    p.usbInitPins.gpioa.pin n = pinsOfA p.gpioa.pin n := by
  have hlow {j : ℕ} (hj : j + 4 ≤ 16) :=
    get_put_part p.gpioa.crl 0xB4B3#16 (k := 16) (by omega) hj
  have hhigh {j : ℕ} (hj : j + 4 ≤ 8) := get_put_part p.gpioa.crh 0x44#8 (k := 12) (by omega) hj
  have hodr : (put p.gpioa.odr 4 1#1).getLsbD n = if n = 4 then true else p.gpioa.odr.getLsbD n := by
    rw [getLsbD_put _ _ (by omega)]
    by_cases h4 : n = 4
    · simp [h4]
    · rw [if_neg (by omega), if_neg h4]
  rw [PinRegisters.usbInitPins_eq]
  unfold GpioPort.pin
  dsimp only
  rw [hodr]
  obtain h | rfl | rfl | rfl | rfl | h | rfl | rfl | h : n < 4 ∨ n = 4 ∨ n = 5 ∨ n = 6 ∨ n = 7 ∨
    (8 ≤ n ∧ n < 11) ∨ n = 11 ∨ n = 12 ∨ 13 ≤ n := by omega
  · rw [pinsOfA_of_other (Or.inl h), if_pos (by omega : n < 8), if_neg (by omega : n ≠ 4),
      if_pos (by omega : n < 8), get_put_of_disjoint _ _ (by omega) (Or.inl (by omega))]
  · exact congrArg (Pin.mk · true) (hlow (j := 0) (by omega))
  · exact congrArg (Pin.mk · _) (hlow (j := 4) (by omega))
  · exact congrArg (Pin.mk · _) (hlow (j := 8) (by omega))
  · exact congrArg (Pin.mk · _) (hlow (j := 12) (by omega))
  · rw [pinsOfA_of_other (by omega), if_neg (by omega), if_neg (by omega), if_neg (by omega),
      get_put_of_disjoint _ _ (by omega) (Or.inl (by omega))]
  · exact congrArg (Pin.mk · _) (hhigh (j := 0) (by omega))
  · exact congrArg (Pin.mk · _) (hhigh (j := 4) (by omega))
  · rw [pinsOfA_of_other (by omega), if_neg (by omega), if_neg (by omega), if_neg (by omega),
      get_put_of_disjoint _ _ (by omega) (Or.inr (by omega))]

theorem gpioInit_pinC (hn : n < 16) :
    p.gpioInit.gpioc.pin n = if n = 10 then ⟨inputPulled, true⟩ else p.gpioc.pin n := by
  rw [PinRegisters.gpioInit_eq]
  unfold GpioPort.pin
  dsimp only
  rw [getLsbD_put _ _ (by omega)]
  by_cases h10 : n = 10
  · subst h10
    exact congrArg (Pin.mk · true) (get_put_self _ _ (by omega))
  · rw [if_neg h10, if_neg (by omega : ¬ (10 ≤ n ∧ n < 10 + 1))]
    split_ifs with h8
    · rfl
    · rw [get_put_of_disjoint _ _ (by omega) (by omega)]

theorem usbInitPins_pinC (hn : n < 16) :
    p.usbInitPins.gpioc.pin n = if n = 9 then ⟨0x7, false⟩ else p.gpioc.pin n := by
  rw [PinRegisters.usbInitPins_eq]
  unfold GpioPort.pin
  dsimp only
  rw [getLsbD_put _ _ (by omega)]
  by_cases h9 : n = 9
  · subst h9
    exact congrArg (Pin.mk · false) (get_put_self _ _ (by omega))
  · rw [if_neg h9, if_neg (by omega : ¬ (9 ≤ n ∧ n < 9 + 1))]
    split_ifs with h8
    · rfl
    · rw [get_put_of_disjoint _ _ (by omega) (by omega)]

end PinByPin

/-- What F1 looks like to `main`, over a port whose PC10 has its pull-up. -/
theorem f1ButtonPressed_idr {g : GpioPort} (hpull : g.pin 10 = ⟨inputPulled, true⟩)
    (drive : ℕ → Option Bool) (noise : ℕ → Bool) :
    f1ButtonPressed (g.idr drive noise) = true ↔ drive 10 = some false := by
  have hlevel : g.level drive noise 10 = false ↔ drive 10 = some false := by
    unfold GpioPort.level
    rw [hpull]
    cases drive 10 with
    | none => simp
    | some b => simp
  have hbit : (g.idr drive noise).toBitVec.getLsbD 10 = g.level drive noise 10 := by
    unfold GpioPort.idr
    rw [UInt32.toBitVec_ofBitVec, getLsbD_ofBits _ (by decide)]
    rfl
  rw [f1ButtonPressed, decide_eq_true_iff, ← UInt32.toBitVec_inj, UInt32.toBitVec_and]
  exact (and_bit_eq_zero_iff _ (by decide)).trans (hbit ▸ hlevel)

/-- Whatever the registers hold, both initialisations set up their own pins, every other pin of both
ports keeps its configuration and its output, it does not matter which of them runs first, and F1
reads as pressed exactly while something pulls PC10 low. -/
theorem pins_initialised (p : PinRegisters) :
    (∀ n < 16, p.gpioInit.usbInitPins.gpioa.pin n = pinsOfA p.gpioa.pin n ∧
      p.gpioInit.usbInitPins.gpioc.pin n = pinsOfC p.gpioc.pin n) ∧
    p.gpioInit.usbInitPins = p.usbInitPins.gpioInit ∧
    ∀ drive noise,
      (f1ButtonPressed (p.gpioInit.gpioc.idr drive noise) = true ↔ drive 10 = some false) ∧
      (f1ButtonPressed (p.gpioInit.usbInitPins.gpioc.idr drive noise) = true ↔
        drive 10 = some false) := by
  have hpinC {n : ℕ} (hn : n < 16) :
      p.gpioInit.usbInitPins.gpioc.pin n = pinsOfC p.gpioc.pin n := by
    rw [usbInitPins_pinC _ hn, gpioInit_pinC _ hn]
    rfl
  refine ⟨fun n hn => ⟨?_, hpinC hn⟩, ?_, fun drive noise => ⟨?_, ?_⟩⟩
  · rw [usbInitPins_pinA _ hn, PinRegisters.gpioInit_eq]
  · have hcrh := put_comm p.gpioc.crh 0x8#4 0x7#4 (k := 8) (j := 4) (by omega) (by omega) (by omega)
    have hodr := put_comm p.gpioc.odr 1#1 0#1 (k := 10) (j := 9) (by omega) (by omega) (by omega)
    have hclock : rccApb2enrIopcen ||| (rccApb2enrIopaen ||| rccApb2enrIopcen ||| rccApb2enrAfioen) =
        (rccApb2enrIopaen ||| rccApb2enrIopcen ||| rccApb2enrAfioen) ||| rccApb2enrIopcen := by decide
    rw [PinRegisters.usbInitPins_eq, PinRegisters.gpioInit_eq, PinRegisters.gpioInit_eq,
      PinRegisters.usbInitPins_eq]
    dsimp only
    rw [hcrh, hodr, BitVec.or_assoc p.apb2enr rccApb2enrIopcen, hclock,
      BitVec.or_assoc p.apb2enr _ rccApb2enrIopcen]
  · exact f1ButtonPressed_idr (gpioInit_pinC p (by omega)) drive noise
  · exact f1ButtonPressed_idr (hpinC (by omega)) drive noise

end NovaBootloader
