import Mathlib.Tactic

/-!
# Fields of a register

Device registers are changed by reading them, clearing a field with a mask and or-ing a new value
in. `put r k v` is that change for the field of `n` bits from bit `k` on. Reading back a field that
was put, or one that is disjoint from it, does not depend on the rest of the register.
-/

namespace RegisterField

variable {w n m : ℕ}

def get (r : BitVec w) (k n : ℕ) : BitVec n := r.extractLsb' k n

/-- `r = (r & ~(mask << k)) | (v << k)`. -/
def put (r : BitVec w) (k : ℕ) (v : BitVec n) : BitVec w :=
  (r &&& ~~~((BitVec.allOnes n).setWidth w <<< k)) ||| (v.setWidth w <<< k)

theorem getLsbD_put (r : BitVec w) {k : ℕ} (v : BitVec n) (hk : k + n ≤ w) (i : ℕ) :
    (put r k v).getLsbD i = if k ≤ i ∧ i < k + n then v.getLsbD (i - k) else r.getLsbD i := by
  unfold put
  simp only [BitVec.getLsbD_or, BitVec.getLsbD_and, BitVec.getLsbD_not, BitVec.getLsbD_shiftLeft,
    BitVec.getLsbD_setWidth, BitVec.getLsbD_allOnes]
  by_cases hw : i < w
  · by_cases hlo : k ≤ i
    · by_cases hhi : i < k + n
      · rw [if_pos ⟨hlo, hhi⟩]
        simp [hw, Nat.not_lt.mpr hlo, (by omega : i - k < w), (by omega : i - k < n)]
      · have hbit : v.getLsbD (i - k) = false := BitVec.getLsbD_of_ge _ _ (by omega)
        have hmask : decide (i - k < n) = false := decide_eq_false (by omega)
        rw [if_neg (by omega)]
        simp only [hbit, hmask, Bool.and_false, Bool.not_false, Bool.and_true, Bool.or_false, hw,
          decide_true]
    · rw [if_neg (by omega)]
      simp [hw, Nat.lt_of_not_le hlo]
  · rw [BitVec.getLsbD_of_ge r i (by omega), if_neg (by omega)]
    simp [hw]

/-- A part of a field that was put. -/
theorem get_put_part (r : BitVec w) {k : ℕ} (v : BitVec n) (hk : k + n ≤ w) {j : ℕ}
    (hj : j + m ≤ n) : get (put r k v) (k + j) m = get v j m := by
  apply BitVec.eq_of_getLsbD_eq
  intro i hi
  unfold get
  rw [BitVec.getLsbD_extractLsb', BitVec.getLsbD_extractLsb', getLsbD_put r v hk,
    if_pos ⟨by omega, by omega⟩, (by omega : k + j + i - k = j + i)]

theorem get_put_self (r : BitVec w) {k : ℕ} (v : BitVec n) (hk : k + n ≤ w) :
    get (put r k v) k n = v := by
  have h := get_put_part r v hk (j := 0) (m := n) (by omega)
  rw [Nat.add_zero] at h
  rw [h]
  unfold get
  apply BitVec.eq_of_getLsbD_eq
  intro i hi
  simp [hi]

theorem get_put_of_disjoint (r : BitVec w) {k : ℕ} (v : BitVec n) (hk : k + n ≤ w) {j : ℕ}
    (h : j + m ≤ k ∨ k + n ≤ j) : get (put r k v) j m = get r j m := by
  apply BitVec.eq_of_getLsbD_eq
  intro i hi
  unfold get
  rw [BitVec.getLsbD_extractLsb', BitVec.getLsbD_extractLsb', getLsbD_put r v hk,
    if_neg (by omega)]

/-- Two fields beside each other may be put in any order. -/
theorem put_comm (r : BitVec w) {k j : ℕ} (v : BitVec n) (u : BitVec m) (hk : k + n ≤ w)
    (hj : j + m ≤ w) (h : j + m ≤ k ∨ k + n ≤ j) :
    put (put r k v) j u = put (put r j u) k v := by
  apply BitVec.eq_of_getLsbD_eq
  intro i hi
  simp only [getLsbD_put _ _ hk, getLsbD_put _ _ hj]
  split_ifs <;> first | rfl | omega

theorem getLsbD_bit {k i : ℕ} (hk : k < w) : (1#w <<< k).getLsbD i = decide (i = k) := by
  rw [BitVec.getLsbD_shiftLeft, BitVec.getLsbD_one]
  by_cases hik : i = k
  · simp [hik, hk]
    omega
  · by_cases hlt : i < k
    · simp [hlt, hik]
    · have hne : decide (i - k = 0) = false := decide_eq_false (by omega)
      rw [decide_eq_false hik, hne, Bool.and_false, Bool.and_false]

theorem or_bit_eq_put (r : BitVec w) {k : ℕ} (hk : k < w) : r ||| (1#w <<< k) = put r k 1#1 := by
  apply BitVec.eq_of_getLsbD_eq
  intro i hi
  rw [getLsbD_put r 1#1 (by omega), BitVec.getLsbD_or, getLsbD_bit hk]
  by_cases hik : i = k
  · simp [hik]
  · rw [if_neg (by omega), decide_eq_false hik, Bool.or_false]

theorem and_not_bit_eq_put (r : BitVec w) {k : ℕ} (hk : k < w) :
    r &&& ~~~(1#w <<< k) = put r k 0#1 := by
  apply BitVec.eq_of_getLsbD_eq
  intro i hi
  rw [getLsbD_put r 0#1 (by omega), BitVec.getLsbD_and, BitVec.getLsbD_not, getLsbD_bit hk]
  by_cases hik : i = k
  · simp [hik]
  · rw [if_neg (by omega), decide_eq_false hik, decide_eq_true hi, Bool.not_false, Bool.and_true,
      Bool.and_true]

theorem and_bit_eq_zero_iff (r : BitVec w) {k : ℕ} (hk : k < w) :
    r &&& (1#w <<< k) = 0 ↔ r.getLsbD k = false := by
  constructor
  · intro h
    have hbit := BitVec.getLsbD_and (x := r) (y := 1#w <<< k) (i := k)
    rw [h, getLsbD_bit hk, decide_eq_true rfl, Bool.and_true] at hbit
    rw [← hbit]
    simp
  · intro h
    apply BitVec.eq_of_getLsbD_eq
    intro i hi
    rw [BitVec.getLsbD_and, getLsbD_bit hk]
    by_cases hik : i = k
    · simp [hik, h]
    · simp [hik]

/-- The register of `w` bits with the given bits. -/
def ofBits (bit : ℕ → Bool) : (w : ℕ) → BitVec w
  | 0 => 0#0
  | w + 1 => BitVec.cons (bit w) (ofBits bit w)

theorem getLsbD_ofBits (bit : ℕ → Bool) {w i : ℕ} (hi : i < w) :
    (ofBits bit w).getLsbD i = bit i := by
  induction w with
  | zero => omega
  | succ w ih =>
    rw [ofBits, BitVec.getLsbD_cons]
    by_cases hlast : i = w
    · rw [if_pos hlast, hlast]
    · rw [if_neg hlast]
      exact ih (by omega)

end RegisterField
