import Mathlib.Data.List.GetD
import Mathlib.Tactic

/-!
# Byte-addressed memories and little-endian words

A memory is a function from addresses to bytes. `overwrite m a n data` stores the first `n` bytes
of `data` at `a`. Words are assembled from bytes as C code does it, by shifting and or-ing, and
taken apart by truncation and shifting.
-/

namespace ByteMemory

/-- The memory `m` after the `n` bytes `data 0, …, data (n - 1)` are stored from address `a` on. -/
def overwrite (m : ℕ → UInt8) (a n : ℕ) (data : ℕ → UInt8) : ℕ → UInt8 :=
  fun x => if a ≤ x ∧ x < a + n then data (x - a) else m x

theorem overwrite_of_mem {m data : ℕ → UInt8} {a n x : ℕ} (ha : a ≤ x) (hn : x < a + n) :
    overwrite m a n data x = data (x - a) := if_pos ⟨ha, hn⟩

theorem overwrite_of_not_mem {m data : ℕ → UInt8} {a n x : ℕ} (h : ¬ (a ≤ x ∧ x < a + n)) :
    overwrite m a n data x = m x := if_neg h

@[simp] theorem overwrite_zero (m : ℕ → UInt8) (a : ℕ) (data : ℕ → UInt8) :
    overwrite m a 0 data = m := by
  funext x
  exact overwrite_of_not_mem (by omega)

theorem overwrite_congr {m data data' : ℕ → UInt8} {a n : ℕ} (h : ∀ i < n, data i = data' i) :
    overwrite m a n data = overwrite m a n data' := by
  funext x
  by_cases hx : a ≤ x ∧ x < a + n
  · rw [overwrite_of_mem hx.1 hx.2, overwrite_of_mem hx.1 hx.2, h _ (by omega)]
  · rw [overwrite_of_not_mem hx, overwrite_of_not_mem hx]

theorem overwrite_overwrite (m data : ℕ → UInt8) (a n k : ℕ) :
    overwrite (overwrite m a n data) (a + n) k (fun i => data (n + i)) =
      overwrite m a (n + k) data := by
  funext x
  by_cases h₁ : a + n ≤ x ∧ x < a + n + k
  · rw [overwrite_of_mem h₁.1 h₁.2, overwrite_of_mem (by omega) (by omega)]
    congr 1
    omega
  · rw [overwrite_of_not_mem h₁]
    by_cases h₂ : a ≤ x ∧ x < a + n
    · rw [overwrite_of_mem h₂.1 h₂.2, overwrite_of_mem (by omega) (by omega)]
    · rw [overwrite_of_not_mem h₂, overwrite_of_not_mem (by omega)]

/-- The bytes of a list, continued with zeros. -/
def ofList (l : List UInt8) (i : ℕ) : UInt8 := l.getD i 0

theorem ofList_append_left {l l' : List UInt8} {i : ℕ} (h : i < l.length) :
    ofList (l ++ l') i = ofList l i := List.getD_append _ _ _ _ h

theorem ofList_append_right {l l' : List UInt8} {i : ℕ} (h : l.length ≤ i) :
    ofList (l ++ l') i = ofList l' (i - l.length) := List.getD_append_right _ _ _ _ h

/-- The first `n` bytes of a memory block as a list. -/
def toList (data : ℕ → UInt8) (n : ℕ) : List UInt8 := (List.range n).map data

@[simp] theorem length_toList (data : ℕ → UInt8) (n : ℕ) : (toList data n).length = n := by
  simp [toList]

theorem toList_congr {data data' : ℕ → UInt8} {n : ℕ} (h : ∀ i < n, data i = data' i) :
    toList data n = toList data' n :=
  List.map_congr_left fun i hi => h i (List.mem_range.mp hi)

theorem toList_append (data : ℕ → UInt8) (n m : ℕ) :
    toList data n ++ toList (fun i => data (n + i)) m = toList data (n + m) := by
  unfold toList
  rw [List.range_add, List.map_append, List.map_map]
  rfl

theorem getElem?_toList (data : ℕ → UInt8) {n i : ℕ} (h : i < n) :
    (toList data n)[i]? = some (data i) := by
  simp [toList, h]

theorem eq_ofList_of_toList {data : ℕ → UInt8} {n : ℕ} {l : List UInt8} (h : toList data n = l)
    {i : ℕ} (hi : i < n) : data i = ofList l i := by
  unfold ofList
  rw [← h, List.getD_eq_getElem?_getD, getElem?_toList data hi]
  rfl

theorem toList_ofList_take (l : List UInt8) (n : ℕ) : toList (ofList l) (min l.length n) = l.take n := by
  apply List.ext_getElem?
  intro i
  by_cases hi : i < min l.length n
  · rw [getElem?_toList _ hi, List.getElem?_take_of_lt (by omega), List.getElem?_eq_getElem (by omega),
      ofList, List.getD_eq_getElem _ _ (by omega)]
  · rw [List.getElem?_eq_none (by simp only [length_toList]; omega),
      List.getElem?_eq_none (by simp only [List.length_take]; omega)]

theorem toList_overwrite_append (m : ℕ → UInt8) (n : ℕ) (l : List UInt8) :
    toList (overwrite m n l.length (ofList l)) (n + l.length) = toList m n ++ l := by
  apply List.ext_getElem?
  intro i
  by_cases hi : i < n + l.length
  · rw [getElem?_toList _ hi]
    by_cases hn : i < n
    · rw [overwrite_of_not_mem (by omega), List.getElem?_append_left (by simpa using hn),
        getElem?_toList _ hn]
    · rw [overwrite_of_mem (by omega) hi, List.getElem?_append_right (by simpa using hn),
        length_toList, ofList, List.getD_eq_getElem _ _ (by omega),
        List.getElem?_eq_getElem (by omega)]
  · rw [List.getElem?_eq_none (by simpa using hi), List.getElem?_eq_none (by simpa using hi)]

/-- The C expression `lo | (hi << 8)`. -/
def le16 (lo hi : UInt8) : UInt16 := lo.toUInt16 ||| (hi.toUInt16 <<< 8)

/-- The C expression `b0 | (b1 << 8) | (b2 << 16) | (b3 << 24)` on `uint32_t`. -/
def le32 (b₀ b₁ b₂ b₃ : UInt8) : UInt32 :=
  b₀.toUInt32 ||| (b₁.toUInt32 <<< 8) ||| (b₂.toUInt32 <<< 16) ||| (b₃.toUInt32 <<< 24)

/-- Or-ing in a byte shifted past all bits already present adds it. -/
theorem or_shiftLeft_eq_add {x k : ℕ} (y : ℕ) (hx : x < 2 ^ k) : x ||| (y <<< k) = x + y * 2 ^ k := by
  rw [Nat.or_comm, ← Nat.shiftLeft_add_eq_or_of_lt hx, Nat.shiftLeft_eq, Nat.add_comm]

/-- Masking off the low bits is rounding down. -/
theorem and_highMask {x mask w k : ℕ} (hx : x < 2 ^ w)
    (hmask : ∀ i < w, mask.testBit i = decide (k ≤ i)) : x &&& mask = x / 2 ^ k * 2 ^ k := by
  apply Nat.eq_of_testBit_eq
  intro i
  rw [Nat.testBit_and, Nat.testBit_mul_two_pow, Nat.testBit_div_two_pow]
  by_cases hi : i < w
  · rw [hmask i hi]
    by_cases hk : k ≤ i
    · simp [hk]
    · simp [hk]
  · have hbig : x.testBit i = false :=
      Nat.testBit_lt_two_pow (lt_of_lt_of_le hx (Nat.pow_le_pow_right (by decide) (by omega)))
    simp only [hbig, Bool.false_and, Bool.false_eq, Bool.and_eq_false_imp]
    intro hk
    rw [Nat.sub_add_cancel (by simpa using hk), hbig]

theorem toNat_le16 (lo hi : UInt8) : (le16 lo hi).toNat = lo.toNat + 256 * hi.toNat := by
  have hlo := lo.toNat_lt
  have hhi := hi.toNat_lt
  have hsh : (hi.toNat <<< 8) % 2 ^ 16 = hi.toNat <<< 8 := by
    rw [Nat.shiftLeft_eq]
    exact Nat.mod_eq_of_lt (by omega)
  simp only [le16, UInt16.toNat_or, UInt8.toNat_toUInt16, UInt16.toNat_shiftLeft]
  change lo.toNat ||| (hi.toNat <<< 8) % 2 ^ 16 = _
  rw [hsh, or_shiftLeft_eq_add _ (by omega)]
  omega

theorem toNat_le32 (b₀ b₁ b₂ b₃ : UInt8) : (le32 b₀ b₁ b₂ b₃).toNat =
    b₀.toNat + b₁.toNat * 2 ^ 8 + b₂.toNat * 2 ^ 16 + b₃.toNat * 2 ^ 24 := by
  have h₀ := b₀.toNat_lt
  have h₁ := b₁.toNat_lt
  have h₂ := b₂.toNat_lt
  have h₃ := b₃.toNat_lt
  have hsh (b : UInt8) (k : ℕ) (hk : k ≤ 24) : (b.toNat <<< k) % 2 ^ 32 = b.toNat <<< k := by
    rw [Nat.shiftLeft_eq]
    apply Nat.mod_eq_of_lt
    calc b.toNat * 2 ^ k < 2 ^ 8 * 2 ^ k := Nat.mul_lt_mul_of_pos_right b.toNat_lt (by positivity)
      _ ≤ 2 ^ 8 * 2 ^ 24 := Nat.mul_le_mul_left _ (Nat.pow_le_pow_right (by decide) hk)
      _ = 2 ^ 32 := by norm_num
  simp only [le32, UInt32.toNat_or, UInt8.toNat_toUInt32, UInt32.toNat_shiftLeft]
  change ((b₀.toNat ||| (b₁.toNat <<< 8) % 2 ^ 32) ||| (b₂.toNat <<< 16) % 2 ^ 32) |||
    (b₃.toNat <<< 24) % 2 ^ 32 = _
  rw [hsh _ 8 (by omega), hsh _ 16 (by omega), hsh _ 24 (by omega),
    @or_shiftLeft_eq_add b₀.toNat 8 _ (by omega), @or_shiftLeft_eq_add _ 16 _ (by omega),
    @or_shiftLeft_eq_add _ 24 _ (by omega)]

@[simp] theorem le16_low (lo hi : UInt8) : (le16 lo hi &&& 0xFF).toUInt8 = lo := by
  apply UInt8.toNat_inj.mp
  have hlo := lo.toNat_lt
  rw [UInt16.toNat_toUInt8, UInt16.toNat_and, toNat_le16]
  change ((lo.toNat + 256 * hi.toNat) &&& (2 ^ 8 - 1)) % 2 ^ 8 = _
  rw [Nat.and_two_pow_sub_one_eq_mod]
  omega

theorem low_toUInt16 (b : UInt8) : (b.toUInt16 &&& 0xFF).toUInt8 = b := by
  apply UInt8.toNat_inj.mp
  have hb := b.toNat_lt
  rw [UInt16.toNat_toUInt8, UInt16.toNat_and, UInt8.toNat_toUInt16]
  change (b.toNat &&& (2 ^ 8 - 1)) % 2 ^ 8 = _
  rw [Nat.and_two_pow_sub_one_eq_mod]
  omega

@[simp] theorem le16_high (lo hi : UInt8) : (le16 lo hi >>> 8).toUInt8 = hi := by
  apply UInt8.toNat_inj.mp
  have hlo := lo.toNat_lt
  have hhi := hi.toNat_lt
  rw [UInt16.toNat_toUInt8, UInt16.toNat_shiftRight, toNat_le16]
  change (lo.toNat + 256 * hi.toNat) >>> 8 % 2 ^ 8 = _
  rw [Nat.shiftRight_eq_div_pow]
  omega

theorem le16_bytes (w : UInt16) : le16 (w &&& 0xFF).toUInt8 (w >>> 8).toUInt8 = w := by
  apply UInt16.toNat_inj.mp
  have hw := w.toNat_lt
  rw [toNat_le16, UInt16.toNat_toUInt8, UInt16.toNat_toUInt8, UInt16.toNat_and,
    UInt16.toNat_shiftRight]
  change (w.toNat &&& (2 ^ 8 - 1)) % 2 ^ 8 + 256 * (w.toNat >>> 8 % 2 ^ 8) = w.toNat
  rw [Nat.and_two_pow_sub_one_eq_mod, Nat.shiftRight_eq_div_pow]
  omega

def bytes32 (a : UInt32) : List UInt8 :=
  [a.toUInt8, (a >>> 8).toUInt8, (a >>> 16).toUInt8, (a >>> 24).toUInt8]

theorem le32_bytes32 (a : UInt32) :
    le32 a.toUInt8 (a >>> 8).toUInt8 (a >>> 16).toUInt8 (a >>> 24).toUInt8 = a := by
  apply UInt32.toNat_inj.mp
  have ha := a.toNat_lt
  simp only [toNat_le32, UInt32.toNat_toUInt8, UInt32.toNat_shiftRight]
  change a.toNat % 2 ^ 8 + (a.toNat >>> 8) % 2 ^ 8 * 2 ^ 8 + (a.toNat >>> 16) % 2 ^ 8 * 2 ^ 16 +
    (a.toNat >>> 24) % 2 ^ 8 * 2 ^ 24 = a.toNat
  simp only [Nat.shiftRight_eq_div_pow]
  omega

theorem bytes32_le32 (b₀ b₁ b₂ b₃ : UInt8) : bytes32 (le32 b₀ b₁ b₂ b₃) = [b₀, b₁, b₂, b₃] := by
  have h₀ := b₀.toNat_lt
  have h₁ := b₁.toNat_lt
  have h₂ := b₂.toNat_lt
  have h₃ := b₃.toNat_lt
  have hle := toNat_le32 b₀ b₁ b₂ b₃
  unfold bytes32
  generalize le32 b₀ b₁ b₂ b₃ = a at hle
  congr 1
  · apply UInt8.toNat_inj.mp
    rw [UInt32.toNat_toUInt8]
    omega
  congr 1
  · apply UInt8.toNat_inj.mp
    rw [UInt32.toNat_toUInt8, UInt32.toNat_shiftRight]
    change (a.toNat >>> 8) % 2 ^ 8 = b₁.toNat
    rw [Nat.shiftRight_eq_div_pow]
    omega
  congr 1
  · apply UInt8.toNat_inj.mp
    rw [UInt32.toNat_toUInt8, UInt32.toNat_shiftRight]
    change (a.toNat >>> 16) % 2 ^ 8 = b₂.toNat
    rw [Nat.shiftRight_eq_div_pow]
    omega
  congr 1
  apply UInt8.toNat_inj.mp
  rw [UInt32.toNat_toUInt8, UInt32.toNat_shiftRight]
  change (a.toNat >>> 24) % 2 ^ 8 = b₃.toNat
  rw [Nat.shiftRight_eq_div_pow]
  omega

def loadWord (m : ℕ → UInt8) (a : ℕ) : UInt32 := le32 (m a) (m (a + 1)) (m (a + 2)) (m (a + 3))

def storeWord (m : ℕ → UInt8) (a : ℕ) (w : UInt32) : ℕ → UInt8 := overwrite m a 4 (ofList (bytes32 w))

theorem loadWord_congr {m m' : ℕ → UInt8} {a : ℕ} (h : ∀ i < 4, m (a + i) = m' (a + i)) :
    loadWord m a = loadWord m' a := by
  unfold loadWord
  rw [h 1 (by omega), h 2 (by omega), h 3 (by omega), show m a = m' a from h 0 (by omega)]

theorem loadWord_storeWord (m : ℕ → UInt8) (a : ℕ) (w : UInt32) :
    loadWord (storeWord m a w) a = w := by
  have hbyte (i : ℕ) (hi : i < 4) : storeWord m a w (a + i) = ofList (bytes32 w) i := by
    rw [storeWord, overwrite_of_mem (by omega) (by omega), Nat.add_sub_cancel_left]
  unfold loadWord
  rw [hbyte 1 (by omega), hbyte 2 (by omega), hbyte 3 (by omega),
    show storeWord m a w a = ofList (bytes32 w) 0 from hbyte 0 (by omega)]
  exact le32_bytes32 w

theorem storeWord_loadWord (m m' : ℕ → UInt8) (a b : ℕ) :
    storeWord m a (loadWord m' b) = overwrite m a 4 fun i => m' (b + i) := by
  unfold storeWord loadWord
  rw [bytes32_le32]
  apply overwrite_congr
  intro i hi
  obtain rfl | rfl | rfl | rfl : i = 0 ∨ i = 1 ∨ i = 2 ∨ i = 3 := by omega
  all_goals rfl

theorem storeWord_zero (m : ℕ → UInt8) (a : ℕ) : storeWord m a 0 = overwrite m a 4 fun _ => 0 := by
  apply overwrite_congr
  intro i hi
  obtain rfl | rfl | rfl | rfl : i = 0 ∨ i = 1 ∨ i = 2 ∨ i = 3 := by omega
  all_goals rfl

end ByteMemory
