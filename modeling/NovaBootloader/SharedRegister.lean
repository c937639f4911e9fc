import NovaBootloader.StepSystem
import Mathlib.Logic.Function.Basic

/-!
# Flags in a register shared with the hardware

A device sets flags in a register and the firmware clears them by writing zeros. The firmware also
updates other fields of the register, and an update is two accesses: it reads the register and writes
back a value made from what it has read. The device may act between any two accesses. A flag is owed
from the moment the device raises it until the firmware takes it; a program is disciplined if it
clears only flags it has read as set and taken. Then owed flags are lost in updates only, and exactly
in those that were disturbed.
-/

namespace SharedRegister

variable {σ ρ κ η : Type*}

/-- A program over a state with one register of interest. -/
inductive Code (σ ρ κ : Type*)
  | done
  | act (f : σ → σ) (next : Code σ ρ κ)
  | look (next : σ → Code σ ρ κ)
  | take (k : κ) (next : Code σ ρ κ)
  | load (next : ρ → Code σ ρ κ)
  | store (val : ρ) (next : Code σ ρ κ)
  | update (f : ρ → ρ) (next : Code σ ρ κ)

/-- The register in the state, and its flags: a write clears those it has zeros for. -/
structure Port (σ ρ κ : Type*) where
  read : σ → ρ
  write : ρ → σ → σ
  flag : κ → ρ → Bool
  flag_write : ∀ k val s, flag k (read (write val s)) = (flag k (read s) && flag k val)

/-- What the device can do on its own: it never clears a flag. -/
structure Device (port : Port σ ρ κ) (η : Type*) where
  act : η → σ → σ
  flag_act : ∀ h k s, port.flag k (port.read s) = true → port.flag k (port.read (act h s)) = true

namespace Code

def exec (port : Port σ ρ κ) : Code σ ρ κ → σ → σ
  | done, s => s
  | act f next, s => exec port next (f s)
  | look next, s => exec port (next s) s
  | take _ next, s => exec port next s
  | load next, s => exec port (next (port.read s)) s
  | store val next, s => exec port next (port.write val s)
  | update f next, s => exec port next (port.write (f (port.read s)) s)

end Code

inductive Phase
  | unknown
  | seen
  | taken
deriving DecidableEq

def Phase.learn (port : Port σ ρ κ) (val : ρ) (φ : κ → Phase) (k : κ) : Phase :=
  if φ k = .unknown ∧ port.flag k val = true then .seen else φ k

def Phase.drop (port : Port σ ρ κ) (val : ρ) (φ : κ → Phase) (k : κ) : Phase :=
  if port.flag k val = true then φ k else .unknown

namespace Code

variable [DecidableEq κ]

/-- Only flags read as set are taken, only flags taken are cleared, and updates leave the flags as
they were read. -/
def Disciplined (port : Port σ ρ κ) : Code σ ρ κ → (κ → Phase) → Prop
  | done, _ => True
  | act f next, φ => (∀ s, port.read (f s) = port.read s) ∧ Disciplined port next φ
  | look next, φ => ∀ s, Disciplined port (next s) φ
  | take k next, φ => φ k = .seen ∧ Disciplined port next (Function.update φ k .taken)
  | load next, φ => ∀ val, Disciplined port (next val) (Phase.learn port val φ)
  | store val next, φ => (∀ k, port.flag k val = false → φ k = .taken) ∧
      Disciplined port next (Phase.drop port val φ)
  | update f next, φ => (∀ val k, port.flag k (f val) = port.flag k val) ∧ Disciplined port next φ

end Code

/-- Where the firmware is: before a piece of code, or between the two accesses of an update. -/
inductive Control (σ ρ κ : Type*)
  | running (code : Code σ ρ κ)
  | holding (val : ρ) (f : ρ → ρ) (next : Code σ ρ κ)

/-- The firmware, the state it shares with the device, and the flags raised but not yet taken. -/
structure Config (σ ρ κ : Type*) where
  control : Control σ ρ κ
  state : σ
  owed : κ → Bool

section System

variable [DecidableEq κ] (port : Port σ ρ κ) (device : Device port η) (program : Code σ ρ κ)

/-- The firmware goes on by one access; at the end of the program it starts again. -/
def firmware (c : Config σ ρ κ) : Config σ ρ κ :=
  match c.control with
  | .running .done => { c with control := .running program }
  | .running (.act f next) => { c with control := .running next, state := f c.state }
  | .running (.look next) => { c with control := .running (next c.state) }
  | .running (.take k next) =>
    { c with control := .running next, owed := Function.update c.owed k false }
  | .running (.load next) => { c with control := .running (next (port.read c.state)) }
  | .running (.store val next) =>
    { c with control := .running next, state := port.write val c.state }
  | .running (.update f next) => { c with control := .holding (port.read c.state) f next }
  | .holding val f next =>
    { c with control := .running next, state := port.write (f val) c.state }

/-- The device acts; the flags it raises from zero are owed. -/
def interrupt (h : η) (c : Config σ ρ κ) : Config σ ρ κ :=
  { c with
    state := device.act h c.state
    owed := fun k => c.owed k ||
      (!port.flag k (port.read c.state) && port.flag k (port.read (device.act h c.state))) }

def step (c : Config σ ρ κ) : Option η → Config σ ρ κ
  | none => firmware port program c
  | some h => interrupt port device h c

def Kept (c : Config σ ρ κ) : Prop := ∀ k, c.owed k = true → port.flag k (port.read c.state) = true

/-- An update that has read the register finds the flags as it has read them. -/
def UpToDate (c : Config σ ρ κ) : Prop :=
  match c.control with
  | .running _ => True
  | .holding val _ _ => ∀ k, port.flag k (port.read c.state) = port.flag k val

def Undisturbed (c : Config σ ρ κ) : Option η → Prop
  | none => UpToDate port c
  | some _ => True

def Control.Disciplined (φ : κ → Phase) : Control σ ρ κ → Prop
  | .running code => code.Disciplined port φ
  | .holding _ f next => (Code.update f next).Disciplined port φ

/-- A flag that an update has read as clear and that is set has been raised since. -/
def Control.Window (φ : κ → Phase) (s : σ) (owed : κ → Bool) : Control σ ρ κ → Prop
  | .running _ => True
  | .holding val _ _ => ∀ k, (φ k ≠ .unknown → port.flag k val = true) ∧
    (port.flag k val = port.flag k (port.read s) ∨ port.flag k val = false ∧ owed k = true)

/-- The invariant of a disciplined program: flags it has seen are set, and flags it has taken are not
owed. -/
structure Sound (φ : κ → Phase) (c : Config σ ρ κ) : Prop where
  disciplined : c.control.Disciplined port φ
  seen : ∀ k, φ k ≠ .unknown → port.flag k (port.read c.state) = true
  taken : ∀ k, φ k = .taken → c.owed k = false
  kept : Kept port c
  window : c.control.Window port φ c.state c.owed

variable {port device program} {φ : κ → Phase} {c : Config σ ρ κ}

theorem Sound.interrupt (h : Sound port φ c) (e : η) :
    Sound port φ (interrupt port device e c) where
  disciplined := h.disciplined
  seen k hk := device.flag_act e k c.state (h.seen k hk)
  taken k hk := by
    have hset : port.flag k (port.read c.state) = true :=
      h.seen k fun hunknown => Phase.noConfusion (hk.symm.trans hunknown)
    simp [SharedRegister.interrupt, h.taken k hk, hset]
  kept k hk := by
    simp only [SharedRegister.interrupt, Bool.or_eq_true, Bool.and_eq_true] at hk
    rcases hk with hk | ⟨-, hk⟩
    · exact device.flag_act e k c.state (h.kept k hk)
    · exact hk
  window := by
    have hwindow := h.window
    change c.control.Window port φ (device.act e c.state) fun k => c.owed k ||
      (!port.flag k (port.read c.state) && port.flag k (port.read (device.act e c.state)))
    cases hcontrol : c.control with
    | running code => trivial
    | holding val f next =>
      rw [hcontrol] at hwindow
      intro k
      refine ⟨(hwindow k).1, ?_⟩
      have hstays := device.flag_act e k c.state
      rcases (hwindow k).2 with heq | ⟨hclear, howed⟩
      · rw [heq]
        cases hbefore : port.flag k (port.read c.state) with
        | true => exact Or.inl (hstays hbefore).symm
        | false =>
          cases hafter : port.flag k (port.read (device.act e c.state)) with
          | true => exact Or.inr ⟨rfl, by simp [hbefore, hafter]⟩
          | false => exact Or.inl rfl
      · exact Or.inr ⟨hclear, by simp [howed]⟩

section Accesses

variable {s : σ} {owed : κ → Bool} {next : Code σ ρ κ}

theorem Sound.act {f : σ → σ} (h : Sound port φ ⟨.running (.act f next), s, owed⟩) :
    Sound port φ ⟨.running next, f s, owed⟩ := by
  obtain ⟨hf, hnext⟩ := h.disciplined
  refine ⟨hnext, fun k hk => ?_, h.taken, fun k hk => ?_, trivial⟩
  · change port.flag k (port.read (f s)) = true
    rw [hf]
    exact h.seen k hk
  · change port.flag k (port.read (f s)) = true
    rw [hf]
    exact h.kept k hk

theorem Sound.take {k : κ} (h : Sound port φ ⟨.running (.take k next), s, owed⟩) :
    Sound port (Function.update φ k .taken) ⟨.running next, s, Function.update owed k false⟩ := by
  obtain ⟨hk, hnext⟩ := h.disciplined
  refine ⟨hnext, fun j hj => ?_, fun j hj => ?_, fun j hj => ?_, trivial⟩
  · apply h.seen
    intro hunknown
    by_cases heq : j = k
    · rw [heq, hk] at hunknown
      exact Phase.noConfusion hunknown
    · rw [Function.update_of_ne heq] at hj
      exact hj hunknown
  · change Function.update owed k false j = false
    by_cases heq : j = k
    · rw [heq, Function.update_self]
    · rw [Function.update_of_ne heq] at hj ⊢
      exact h.taken j hj
  · change Function.update owed k false j = true at hj
    by_cases heq : j = k
    · rw [heq, Function.update_self] at hj
      exact absurd hj Bool.false_ne_true
    · rw [Function.update_of_ne heq] at hj
      exact h.kept j hj

theorem Sound.load {next : ρ → Code σ ρ κ} (h : Sound port φ ⟨.running (.load next), s, owed⟩) :
    Sound port (Phase.learn port (port.read s) φ) ⟨.running (next (port.read s)), s, owed⟩ := by
  refine ⟨h.disciplined (port.read s), fun k hk => ?_, fun k hk => ?_, h.kept, trivial⟩
  · unfold Phase.learn at hk
    split_ifs at hk with hlearn
    · exact hlearn.2
    · exact h.seen k hk
  · unfold Phase.learn at hk
    split_ifs at hk
    exact h.taken k hk

/-- A store keeps the flags it has ones for, and the others are not owed. -/
theorem Sound.store {val : ρ} (h : Sound port φ ⟨.running (.store val next), s, owed⟩) :
    Sound port (Phase.drop port val φ) ⟨.running next, port.write val s, owed⟩ := by
  obtain ⟨hclears, hnext⟩ := h.disciplined
  have hflag (k : κ) (hval : port.flag k val = true) :
      port.flag k (port.read (port.write val s)) = port.flag k (port.read s) := by
    rw [port.flag_write, hval, Bool.and_true]
  refine ⟨hnext, fun k hk => ?_, fun k hk => ?_, fun k hk => ?_, trivial⟩
  · unfold Phase.drop at hk
    split_ifs at hk with hval
    · exact (hflag k hval).trans (h.seen k hk)
    · exact absurd rfl hk
  · unfold Phase.drop at hk
    split_ifs at hk
    exact h.taken k hk
  · cases hval : port.flag k val with
    | true => exact (hflag k hval).trans (h.kept k hk)
    | false =>
      have hfree : owed k = false := h.taken k (hclears k hval)
      exact absurd (hfree.symm.trans hk) Bool.false_ne_true

/-- The write of an update that is up to date leaves all flags alone. -/
theorem Sound.write {val : ρ} {f : ρ → ρ} (h : Sound port φ ⟨.holding val f next, s, owed⟩)
    (hfresh : ∀ k, port.flag k (port.read s) = port.flag k val) :
    Sound port φ ⟨.running next, port.write (f val) s, owed⟩ := by
  obtain ⟨hf, hnext⟩ := h.disciplined
  have hflag (k : κ) : port.flag k (port.read (port.write (f val) s)) =
      port.flag k (port.read s) := by
    rw [port.flag_write, hf, ← hfresh, Bool.and_self]
  refine ⟨hnext, fun k hk => ?_, h.taken, fun k hk => ?_, trivial⟩
  · exact (hflag k).trans (h.seen k hk)
  · exact (hflag k).trans (h.kept k hk)

end Accesses

theorem Sound.firmware (hprogram : program.Disciplined port fun _ => .unknown)
    (h : Sound port φ c) (hfresh : UpToDate port c) :
    ∃ φ', Sound port φ' (SharedRegister.firmware port program c) := by
  obtain ⟨control, s, owed⟩ := c
  cases control with
  | holding val f next => exact ⟨φ, h.write hfresh⟩
  | running code =>
    cases code with
    | done =>
      exact ⟨fun _ => .unknown, hprogram, fun _ hk => absurd rfl hk,
        fun _ hk => Phase.noConfusion hk, h.kept, trivial⟩
    | act f next => exact ⟨φ, h.act⟩
    | look next => exact ⟨φ, h.disciplined s, h.seen, h.taken, h.kept, trivial⟩
    | take k next => exact ⟨_, h.take⟩
    | load next => exact ⟨_, h.load⟩
    | store val next => exact ⟨_, h.store⟩
    | update f next =>
      exact ⟨φ, h.disciplined, h.seen, h.taken, h.kept, fun k => ⟨h.seen k, Or.inl rfl⟩⟩

/-- A write that is out of date loses a flag. -/
theorem Sound.upToDate (h : Sound port φ c) (hkept : Kept port (SharedRegister.firmware port program c)) :
    UpToDate port c := by
  obtain ⟨hdisciplined, -, -, -, hwindow⟩ := h
  obtain ⟨control, s, owed⟩ := c
  cases control with
  | running code => trivial
  | holding val f next =>
    intro k
    rcases (hwindow k).2 with heq | ⟨hclear, howed⟩
    · exact heq.symm
    · have hlost : port.flag k (port.read (port.write (f val) s)) = true := hkept k howed
      rw [port.flag_write, hdisciplined.1, hclear, Bool.and_false] at hlost
      exact absurd hlost Bool.false_ne_true

/-- A disciplined program keeps every owed flag in exactly the runs without a disturbed update. -/
theorem kept_along_iff (hprogram : program.Disciplined port fun _ => .unknown)
    (hc : ∃ φ, Sound port φ c) (es : List (Option η)) :
    StepSystem.Along (step port device program)
        (fun c e => Kept port (step port device program c e)) c es ↔
      StepSystem.Along (step port device program) (Undisturbed port) c es := by
  refine StepSystem.along_iff_of_invariant (fun c => ∃ φ, Sound port φ c) ?_ ?_ hc es
  · rintro c (_ | e) ⟨φ, h⟩ hkept
    · exact h.firmware hprogram (h.upToDate hkept)
    · exact ⟨φ, h.interrupt e⟩
  · rintro c (_ | e) ⟨φ, h⟩
    · refine ⟨h.upToDate, fun hfresh => ?_⟩
      obtain ⟨φ', h'⟩ := h.firmware hprogram hfresh
      exact h'.kept
    · exact iff_of_true (h.interrupt e).kept trivial

end System

end SharedRegister
