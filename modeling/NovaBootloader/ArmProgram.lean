import NovaBootloader.ByteMemory

/-!
# Assembly routines of a Cortex-M core

A routine is a list of instructions; labels are positions in the list. It runs on the low registers,
the main stack pointer, the carry flag, the interrupt mask and one address space of bytes, until it
calls or branches to code outside the list. `Reaches` is the relation between two points of a run
and `Leaves` a run to its end; loops are handled by an invariant indexed by the iteration.
-/

namespace ArmProgram
open ByteMemory

inductive Reg where
  | r0 | r1 | r2 | r3 | sp
deriving DecidableEq, Repr

inductive Instr where
  | ldrConst (rd : Reg) (value : UInt32)
  | mov (rd rm : Reg)
  | movImm (rd : Reg) (value : UInt32)
  | ldr (rt rn : Reg) (offset : UInt32)
  | str (rt rn : Reg)
  | ldrPost (rt rn : Reg) (increment : UInt32)
  | strPost (rt rn : Reg) (increment : UInt32)
  | cmp (rn rm : Reg)
  | b (target : ℕ)
  | blo (target : ℕ)
  | bl
  | bx (rm : Reg)
  | cpsid
  | barrier
  | msrMsp (rn : Reg)
deriving DecidableEq, Repr

structure Cpu where
  reg : Reg → UInt32
  carry : Bool
  primask : Bool
  mem : ℕ → UInt8

/-- How a routine ends: it calls a function that does not come back, or it branches to an address. -/
inductive Exit where
  | call
  | branch (target : UInt32)
deriving DecidableEq, Repr

inductive Control where
  | goto (pc : ℕ)
  | leave (e : Exit)

/-- What a register holds of a word written to it: the core ignores the two low bits of a stack
pointer. -/
def Reg.keeps : Reg → UInt32 → UInt32
  | .sp, w => w &&& 0xFFFFFFFC
  | _, w => w

theorem Reg.keeps_of_ne_sp {rd : Reg} (h : rd ≠ .sp) (w : UInt32) : rd.keeps w = w := by
  cases rd with
  | sp => exact absurd rfl h
  | _ => rfl

theorem Reg.toNat_keeps_sp (w : UInt32) : (Reg.sp.keeps w).toNat = w.toNat / 4 * 4 :=
  (UInt32.toNat_and _ _).trans
    (and_highMask w.toNat_lt (by decide : ∀ i < 32, (0xFFFFFFFC : ℕ).testBit i = decide (2 ≤ i)))

def Cpu.set (c : Cpu) (rd : Reg) (w : UInt32) : Cpu :=
  { c with reg := Function.update c.reg rd (rd.keeps w) }

def Cpu.store (c : Cpu) (a : UInt32) (w : UInt32) : Cpu := { c with mem := storeWord c.mem a.toNat w }

namespace Cpu

variable (c : Cpu) (rd r : Reg) (a w : UInt32)

@[simp] theorem set_reg_self : (c.set rd w).reg rd = rd.keeps w := Function.update_self _ _ _

theorem set_reg_of_ne {rd r : Reg} (h : r ≠ rd) : (c.set rd w).reg r = c.reg r :=
  Function.update_of_ne h _ _

@[simp] theorem set_mem : (c.set rd w).mem = c.mem := rfl

@[simp] theorem set_primask : (c.set rd w).primask = c.primask := rfl

@[simp] theorem store_reg : (c.store a w).reg = c.reg := rfl

@[simp] theorem store_mem : (c.store a w).mem = storeWord c.mem a.toNat w := rfl

@[simp] theorem store_primask : (c.store a w).primask = c.primask := rfl

end Cpu

def Instr.exec (i : Instr) (pc : ℕ) (c : Cpu) : Control × Cpu :=
  match i with
  | ldrConst rd value => (.goto (pc + 1), c.set rd value)
  | mov rd rm => (.goto (pc + 1), c.set rd (c.reg rm))
  | movImm rd value => (.goto (pc + 1), c.set rd value)
  | ldr rt rn offset => (.goto (pc + 1), c.set rt (loadWord c.mem (c.reg rn + offset).toNat))
  | str rt rn => (.goto (pc + 1), c.store (c.reg rn) (c.reg rt))
  | ldrPost rt rn increment =>
    (.goto (pc + 1), (c.set rn (c.reg rn + increment)).set rt (loadWord c.mem (c.reg rn).toNat))
  | strPost rt rn increment =>
    (.goto (pc + 1), (c.store (c.reg rn) (c.reg rt)).set rn (c.reg rn + increment))
  | cmp rn rm => (.goto (pc + 1), { c with carry := c.reg rm ≤ c.reg rn })
  | b target => (.goto target, c)
  | blo target => (.goto (if c.carry then pc + 1 else target), c)
  | bl => (.leave .call, c)
  | bx rm => (.leave (.branch (c.reg rm)), c)
  | cpsid => (.goto (pc + 1), { c with primask := true })
  | barrier => (.goto (pc + 1), c)
  | msrMsp rn => (.goto (pc + 1), c.set .sp (c.reg rn))

def run (code : List Instr) : ℕ → ℕ → Cpu → Option (Exit × Cpu)
  | 0, _, _ => none
  | fuel + 1, pc, c =>
    match code[pc]? with
    | none => none
    | some i =>
      match i.exec pc c with
      | (.goto pc', c') => run code fuel pc' c'
      | (.leave e, c') => some (e, c')

inductive Reaches (code : List Instr) : ℕ → Cpu → ℕ → Cpu → Prop
  | refl (pc : ℕ) (c : Cpu) : Reaches code pc c pc c
  | step {pc pc' pc'' : ℕ} {c c' c'' : Cpu} {i : Instr} (hi : code[pc]? = some i)
      (hx : i.exec pc c = (.goto pc', c')) (h : Reaches code pc' c' pc'' c'') :
      Reaches code pc c pc'' c''

/-- The routine ends, with any fuel that is large enough. -/
def Leaves (code : List Instr) (pc : ℕ) (c : Cpu) (e : Exit) (c' : Cpu) : Prop :=
  ∃ n, ∀ fuel, n ≤ fuel → run code fuel pc c = some (e, c')

variable {code : List Instr} {pc pc' pc'' : ℕ} {c c' c'' : Cpu} {e : Exit}

namespace Reaches

theorem trans (h : Reaches code pc c pc' c') (h' : Reaches code pc' c' pc'' c'') :
    Reaches code pc c pc'' c'' := by
  induction h with
  | refl pc c => exact h'
  | step hi hx h ih => exact .step hi hx (ih h')

theorem single {i : Instr} (hi : code[pc]? = some i) (hx : i.exec pc c = (.goto pc', c')) :
    Reaches code pc c pc' c' := .step hi hx (.refl pc' c')

theorem next {i : Instr} (hi : code[pc]? = some i) (hx : i.exec pc c = (.goto (pc + 1), c'))
    (h : Reaches code (pc + 1) c' pc'' c'') : Reaches code pc c pc'' c'' := .step hi hx h

theorem lower {rn rm : Reg} {target : ℕ} (hcmp : code[pc]? = some (.cmp rn rm))
    (hblo : code[pc + 1]? = some (.blo target)) (hlt : c.reg rn < c.reg rm)
    (h : Reaches code target { c with carry := false } pc'' c'') : Reaches code pc c pc'' c'' := by
  have hcarry : decide (c.reg rm ≤ c.reg rn) = false := by simpa using hlt
  refine .next hcmp rfl (.step hblo rfl ?_)
  rw [hcarry]
  exact h

theorem notLower {rn rm : Reg} {target : ℕ} (hcmp : code[pc]? = some (.cmp rn rm))
    (hblo : code[pc + 1]? = some (.blo target)) (hle : c.reg rm ≤ c.reg rn)
    (h : Reaches code (pc + 2) { c with carry := true } pc'' c'') : Reaches code pc c pc'' c'' := by
  refine .next hcmp rfl (.step hblo rfl ?_)
  rw [decide_eq_true hle]
  exact h

/-- The loop rule: what one iteration does to an invariant, `n` iterations do. -/
theorem loop (I : ℕ → Cpu → Prop) {n : ℕ}
    (hbody : ∀ k < n, ∀ c, I k c → ∃ c', Reaches code pc c pc c' ∧ I (k + 1) c')
    (h₀ : I 0 c) : ∃ c', Reaches code pc c pc c' ∧ I n c' := by
  induction n with
  | zero => exact ⟨c, .refl pc c, h₀⟩
  | succ n ih =>
    obtain ⟨c', hreach, hI⟩ := ih fun k hk => hbody k (by omega)
    obtain ⟨c'', hlast, hI'⟩ := hbody n (by omega) c' hI
    exact ⟨c'', hreach.trans hlast, hI'⟩

theorem run_eq (h : Reaches code pc c pc' c') :
    ∃ n, ∀ fuel, run code (fuel + n) pc c = run code fuel pc' c' := by
  induction h with
  | refl pc c => exact ⟨0, fun _ => rfl⟩
  | step hi hx h ih =>
    obtain ⟨n, hn⟩ := ih
    refine ⟨n + 1, fun fuel => ?_⟩
    rw [← hn fuel, ← Nat.add_assoc, run, hi]
    dsimp only
    rw [hx]

end Reaches

namespace Leaves

theorem of_exit {i : Instr} (hi : code[pc]? = some i) (hx : i.exec pc c = (.leave e, c')) :
    Leaves code pc c e c' := by
  refine ⟨1, fun fuel hfuel => ?_⟩
  obtain ⟨fuel, rfl⟩ := Nat.exists_eq_succ_of_ne_zero (by omega : fuel ≠ 0)
  rw [run, hi]
  dsimp only
  rw [hx]

theorem of_reaches (h : Reaches code pc c pc' c') (h' : Leaves code pc' c' e c'') :
    Leaves code pc c e c'' := by
  obtain ⟨n, hn⟩ := h.run_eq
  obtain ⟨m, hm⟩ := h'
  refine ⟨m + n, fun fuel hfuel => ?_⟩
  obtain ⟨fuel, rfl⟩ : ∃ k, fuel = k + n := ⟨fuel - n, by omega⟩
  rw [hn, hm fuel (by omega)]

/-- A routine ends in one way only. -/
theorem unique {e' : Exit} {d d' : Cpu} (h : Leaves code pc c e d) (h' : Leaves code pc c e' d') :
    e = e' ∧ d = d' := by
  obtain ⟨n, hn⟩ := h
  obtain ⟨m, hm⟩ := h'
  have heq := (hn (max n m) (le_max_left n m)).symm.trans (hm (max n m) (le_max_right n m))
  rw [Option.some.injEq, Prod.mk.injEq] at heq
  exact heq

end Leaves

theorem copy_word (m : ℕ → UInt8) {dst src n : ℕ}
    (hdisj : ∀ i < 4, ¬ (dst ≤ src + n + i ∧ src + n + i < dst + n)) :
    storeWord (overwrite m dst n fun i => m (src + i)) (dst + n)
        (loadWord (overwrite m dst n fun i => m (src + i)) (src + n)) =
      overwrite m dst (n + 4) fun i => m (src + i) := by
  have hload : loadWord (overwrite m dst n fun i => m (src + i)) (src + n) = loadWord m (src + n) :=
    loadWord_congr fun i hi => overwrite_of_not_mem (hdisj i hi)
  rw [hload, storeWord_loadWord, ← overwrite_overwrite m (fun i => m (src + i)) dst n 4]
  simp only [Nat.add_assoc]

theorem clear_word (m : ℕ → UInt8) (dst n : ℕ) :
    storeWord (overwrite m dst n fun _ => 0) (dst + n) 0 = overwrite m dst (n + 4) fun _ => 0 := by
  rw [storeWord_zero, ← overwrite_overwrite m (fun _ => 0) dst n 4]

section Loops

/-- The part of the core that a loop over the registers `r` with `busy r` leaves alone. -/
structure Frame (busy : Reg → Prop) (c c' : Cpu) : Prop where
  reg : ∀ r, ¬ busy r → c'.reg r = c.reg r
  primask : c'.primask = c.primask

theorem toNat_add_four {w : UInt32} {n : ℕ} (hw : w.toNat = n) (hn : n + 4 < 2 ^ 32) :
    (w + 4).toNat = n + 4 := by
  rw [UInt32.toNat_add, hw]
  exact Nat.mod_eq_of_lt hn

/-- A copying loop in front of its comparison: `k` of the words have gone from `src` to `dst`. -/
structure Copying (rt rs rd : Reg) (src dst k : ℕ) (c₀ c : Cpu) : Prop where
  source : (c.reg rs).toNat = src + 4 * k
  dest : (c.reg rd).toNat = dst + 4 * k
  mem : c.mem = overwrite c₀.mem dst (4 * k) fun i => c₀.mem (src + i)
  frame : Frame (fun r => r = rt ∨ r = rs ∨ r = rd) c₀ c

structure Clearing (rd : Reg) (dst k : ℕ) (c₀ c : Cpu) : Prop where
  dest : (c.reg rd).toNat = dst + 4 * k
  mem : c.mem = overwrite c₀.mem dst (4 * k) fun _ => 0
  frame : Frame (fun r => r = rd) c₀ c

variable {rt rs rd re rz : Reg} {src dst n k top : ℕ} {c₀ : Cpu}

theorem Copying.iteration (hload : code[top]? = some (.ldrPost rt rs 4))
    (hstore : code[top + 1]? = some (.strPost rt rd 4))
    (hcmp : code[top + 2]? = some (.cmp rd re)) (hblo : code[top + 3]? = some (.blo top))
    (hregs : [.sp, rt, rs, rd, re].Nodup) (hend : (c₀.reg re).toNat = dst + 4 * n)
    (hsrc : src + 4 * n < 2 ^ 32) (hdisj : src + 4 * n ≤ dst ∨ dst + 4 * n ≤ src) (hk : k < n)
    (h : Copying rt rs rd src dst k c₀ c) :
    ∃ c', Reaches code (top + 2) c (top + 2) c' ∧ Copying rt rs rd src dst (k + 1) c₀ c' := by
  simp only [List.nodup_cons, List.mem_cons, List.not_mem_nil, or_false, not_or] at hregs
  obtain ⟨⟨hspT, hspS, hspD, -⟩, ⟨hts, htd, hte⟩, ⟨hsd, hse⟩, hde, -⟩ := hregs
  have hbound := (c₀.reg re).toNat_lt
  have hre : c.reg re = c₀.reg re :=
    h.frame.reg re (not_or.mpr ⟨Ne.symm hte, not_or.mpr ⟨Ne.symm hse, Ne.symm hde⟩⟩)
  have hlower : c.reg rd < c.reg re := by
    rw [UInt32.lt_iff_toNat_lt, hre, h.dest, hend]
    omega
  have hs := toNat_add_four h.source (by omega)
  have hd := toNat_add_four h.dest (by omega)
  have hmem : storeWord (overwrite c₀.mem dst (4 * k) fun i => c₀.mem (src + i)) (dst + 4 * k)
      (loadWord (overwrite c₀.mem dst (4 * k) fun i => c₀.mem (src + i)) (src + 4 * k)) =
        overwrite c₀.mem dst (4 * k + 4) fun i => c₀.mem (src + i) :=
    copy_word c₀.mem fun i hi => by omega
  refine ⟨_, .lower hcmp hblo hlower (.next hload rfl (.next hstore rfl (.refl _ _))), ?_⟩
  refine ⟨?_, ?_, ?_, fun r hr => ?_, h.frame.primask⟩
  · simp [Cpu.set_reg_of_ne, Ne.symm hts, hsd, Reg.keeps_of_ne_sp (Ne.symm hspS), hs]
    omega
  · simp [Cpu.set_reg_of_ne, Ne.symm htd, Ne.symm hsd, Reg.keeps_of_ne_sp (Ne.symm hspD), hd]
    omega
  · simp [Cpu.set_reg_of_ne, Ne.symm htd, Ne.symm hsd, Reg.keeps_of_ne_sp (Ne.symm hspT), h.source,
      h.dest, h.mem, hmem, Nat.mul_add]
  · rw [not_or, not_or] at hr
    obtain ⟨hrt, hrs, hrd⟩ := hr
    rw [Cpu.set_reg_of_ne _ _ hrd, Cpu.store_reg, Cpu.set_reg_of_ne _ _ hrt,
      Cpu.set_reg_of_ne _ _ hrs]
    exact h.frame.reg r (not_or.mpr ⟨hrt, not_or.mpr ⟨hrs, hrd⟩⟩)

theorem Clearing.iteration (hstore : code[top]? = some (.strPost rz rd 4))
    (hcmp : code[top + 1]? = some (.cmp rd re)) (hblo : code[top + 2]? = some (.blo top))
    (hregs : [.sp, rz, rd, re].Nodup) (hzero : c₀.reg rz = 0)
    (hend : (c₀.reg re).toNat = dst + 4 * n) (hk : k < n) (h : Clearing rd dst k c₀ c) :
    ∃ c', Reaches code (top + 1) c (top + 1) c' ∧ Clearing rd dst (k + 1) c₀ c' := by
  simp only [List.nodup_cons, List.mem_cons, List.not_mem_nil, or_false, not_or] at hregs
  obtain ⟨⟨-, hspD, -⟩, ⟨hzd, hze⟩, hde, -⟩ := hregs
  have hbound := (c₀.reg re).toNat_lt
  have hre : c.reg re = c₀.reg re := h.frame.reg re (Ne.symm hde)
  have hrz : c.reg rz = 0 := (h.frame.reg rz hzd).trans hzero
  have hlower : c.reg rd < c.reg re := by
    rw [UInt32.lt_iff_toNat_lt, hre, h.dest, hend]
    omega
  have hd := toNat_add_four h.dest (by omega)
  refine ⟨_, .lower hcmp hblo hlower (.next hstore rfl (.refl _ _)), ?_⟩
  refine ⟨?_, ?_, fun r hr => ?_, h.frame.primask⟩
  · rw [Cpu.set_reg_self, Reg.keeps_of_ne_sp (Ne.symm hspD), hd]
    omega
  · rw [Cpu.set_mem, Cpu.store_mem, hrz, h.dest, h.mem, clear_word, Nat.mul_add]
  · rw [Cpu.set_reg_of_ne _ _ hr, Cpu.store_reg]
    exact h.frame.reg r hr

/-- A copying loop, from its comparison to the instruction after it. -/
theorem copy_loop (hload : code[top]? = some (.ldrPost rt rs 4))
    (hstore : code[top + 1]? = some (.strPost rt rd 4))
    (hcmp : code[top + 2]? = some (.cmp rd re)) (hblo : code[top + 3]? = some (.blo top))
    (hregs : [.sp, rt, rs, rd, re].Nodup) (hs : (c.reg rs).toNat = src) (hd : (c.reg rd).toNat = dst)
    (hend : (c.reg re).toNat = dst + 4 * n) (hsrc : src + 4 * n < 2 ^ 32)
    (hdisj : src + 4 * n ≤ dst ∨ dst + 4 * n ≤ src) :
    ∃ c', Reaches code (top + 2) c (top + 4) c' ∧
      c'.mem = overwrite c.mem dst (4 * n) (fun i => c.mem (src + i)) ∧
      Frame (fun r => r = rt ∨ r = rs ∨ r = rd) c c' := by
  obtain ⟨c', hreach, h⟩ := Reaches.loop (Copying rt rs rd src dst · c)
    (fun k hk c' h => h.iteration hload hstore hcmp hblo hregs hend hsrc hdisj hk)
    ⟨hs, hd, (overwrite_zero _ _ _).symm, fun _ _ => rfl, rfl⟩
  have hre : c'.reg re = c.reg re := by
    apply h.frame.reg
    simp only [List.nodup_cons, List.mem_cons, List.not_mem_nil, or_false, not_or] at hregs
    obtain ⟨-, ⟨-, -, hte⟩, ⟨-, hse⟩, hde, -⟩ := hregs
    exact not_or.mpr ⟨Ne.symm hte, not_or.mpr ⟨Ne.symm hse, Ne.symm hde⟩⟩
  have hdone : c'.reg re ≤ c'.reg rd := by
    rw [UInt32.le_iff_toNat_le, hre, h.dest, hend]
  exact ⟨_, hreach.trans (.notLower hcmp hblo hdone (.refl _ _)), h.mem, h.frame.reg,
    h.frame.primask⟩

theorem clear_loop (hstore : code[top]? = some (.strPost rz rd 4))
    (hcmp : code[top + 1]? = some (.cmp rd re)) (hblo : code[top + 2]? = some (.blo top))
    (hregs : [.sp, rz, rd, re].Nodup) (hzero : c.reg rz = 0) (hd : (c.reg rd).toNat = dst)
    (hend : (c.reg re).toNat = dst + 4 * n) :
    ∃ c', Reaches code (top + 1) c (top + 3) c' ∧
      c'.mem = overwrite c.mem dst (4 * n) (fun _ => 0) ∧ Frame (fun r => r = rd) c c' := by
  obtain ⟨c', hreach, h⟩ := Reaches.loop (Clearing rd dst · c)
    (fun k hk c' h => h.iteration hstore hcmp hblo hregs hzero hend hk)
    ⟨hd, (overwrite_zero _ _ _).symm, fun _ _ => rfl, rfl⟩
  have hre : c'.reg re = c.reg re := by
    apply h.frame.reg
    simp only [List.nodup_cons, List.mem_cons, List.not_mem_nil, or_false, not_or] at hregs
    exact Ne.symm hregs.2.2.1
  have hdone : c'.reg re ≤ c'.reg rd := by
    rw [UInt32.le_iff_toNat_le, hre, h.dest, hend]
  exact ⟨_, hreach.trans (.notLower hcmp hblo hdone (.refl _ _)), h.mem, h.frame.reg,
    h.frame.primask⟩

end Loops

end ArmProgram
