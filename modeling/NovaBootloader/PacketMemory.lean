import NovaBootloader.ByteMemory

/-!
# The USB packet memory

The peripheral's packet memory is a row of 16-bit words in 32-bit slots. A `Pma` maps the byte
distance of a slot from `USB_PMAADDR` to the word in it; an offset in the buffer table's own units
is doubled to reach its slot, and a pointer walking the words skips a gap after each of them.
-/

namespace NovaBootloader
open ByteMemory

abbrev Pma := ℕ → UInt16

def btableOffset : ℕ := 0x00
def ep0TxOffset : ℕ := 0x40
def ep0RxOffset : ℕ := 0x80
def ep0MaxSize : ℕ := 64

/-- `PMA_ADDR`, as a distance from `USB_PMAADDR`. -/
def pmaAddr (offset : ℕ) : ℕ := offset * 2

def Pma.write (pma : Pma) (offset : ℕ) (val : UInt16) : Pma :=
  Function.update pma (pmaAddr offset) val

def Pma.read (pma : Pma) (offset : ℕ) : UInt16 := pma (pmaAddr offset)

/-- The word `pma_write` assembles at index `i`; an odd tail leaves the high byte zero. -/
def packWord (data : ℕ → UInt8) (len i : ℕ) : UInt16 :=
  if i + 1 < len then le16 (data i) (data (i + 1)) else (data i).toUInt16

/-- The loop of `pma_write`, with the number of words still to store. -/
def pmaWriteLoop (data : ℕ → UInt8) (len : ℕ) : ℕ → ℕ → ℕ → Pma → Pma
  | 0, _, _, pma => pma
  | n + 1, i, dst, pma =>
    pmaWriteLoop data len n (i + 2) (dst + 4) (Function.update pma dst (packWord data len i))

def pmaWrite (offset : ℕ) (data : ℕ → UInt8) (len : ℕ) (pma : Pma) : Pma :=
  pmaWriteLoop data len ((len + 1) / 2) 0 (pmaAddr offset) pma

/-- The loop of `pma_read`, storing into `buf` from index `base` on. -/
def pmaReadLoop (pma : Pma) (base len : ℕ) : ℕ → ℕ → ℕ → (ℕ → UInt8) → (ℕ → UInt8)
  | 0, _, _, buf => buf
  | n + 1, i, src, buf =>
    let val := pma src
    let buf := Function.update buf (base + i) (val &&& 0xFF).toUInt8
    let buf := if i + 1 < len then Function.update buf (base + i + 1) (val >>> 8).toUInt8 else buf
    pmaReadLoop pma base len n (i + 2) (src + 4) buf

def pmaRead (pma : Pma) (offset : ℕ) (buf : ℕ → UInt8) (base len : ℕ) : ℕ → UInt8 :=
  pmaReadLoop pma base len ((len + 1) / 2) 0 (pmaAddr offset) buf

/-- Byte `j` of the packet stored from slot `src` on. -/
def pmaByte (pma : Pma) (src j : ℕ) : UInt8 :=
  if j % 2 = 0 then (pma (src + 4 * (j / 2)) &&& 0xFF).toUInt8
  else (pma (src + 4 * (j / 2)) >>> 8).toUInt8

theorem pmaByte_shift (pma : Pma) (src j : ℕ) :
    pmaByte pma (src + 4) j = pmaByte pma src (2 + j) := by
  have hmod : (2 + j) % 2 = j % 2 := by omega
  have hdiv : src + 4 * ((2 + j) / 2) = src + 4 + 4 * (j / 2) := by omega
  simp only [pmaByte, hmod, hdiv]

theorem pmaWriteLoop_of_ne (data : ℕ → UInt8) (len n i dst : ℕ) (pma : Pma) {x : ℕ}
    (hx : ∀ k < n, x ≠ dst + 4 * k) : pmaWriteLoop data len n i dst pma x = pma x := by
  induction n generalizing i dst pma with
  | zero => rfl
  | succ n ih =>
    rw [pmaWriteLoop, ih]
    · exact Function.update_of_ne (hx 0 (by omega)) _ _
    · intro k hk
      have := hx (k + 1) (by omega)
      omega

theorem pmaWriteLoop_word (data : ℕ → UInt8) (len n i dst : ℕ) (pma : Pma) {k : ℕ} (hk : k < n) :
    pmaWriteLoop data len n i dst pma (dst + 4 * k) = packWord data len (i + 2 * k) := by
  induction n generalizing i dst pma k with
  | zero => omega
  | succ n ih =>
    rw [pmaWriteLoop]
    cases k with
    | zero =>
      rw [pmaWriteLoop_of_ne _ _ _ _ _ _ (by intro k _; omega)]
      exact Function.update_self _ _ _
    | succ k =>
      have h := ih (i + 2) (dst + 4) (Function.update pma dst (packWord data len i))
        (show k < n by omega)
      rw [show dst + 4 * (k + 1) = dst + 4 + 4 * k by omega, h]
      congr 1
      omega

theorem pmaReadLoop_eq (pma : Pma) (base len n i src : ℕ) (buf : ℕ → UInt8)
    (hn : n = (len - i + 1) / 2) :
    pmaReadLoop pma base len n i src buf = overwrite buf (base + i) (len - i) (pmaByte pma src) := by
  induction n generalizing i src buf with
  | zero => rw [show len - i = 0 by omega, overwrite_zero, pmaReadLoop]
  | succ n ih =>
    have hlt : i < len := by omega
    rw [pmaReadLoop, ih (i + 2) (src + 4) _ (by omega)]
    have hbytes : pmaByte pma (src + 4) = fun j => pmaByte pma src (2 + j) :=
      funext (pmaByte_shift pma src)
    by_cases hi : i + 1 < len
    · have hstep : Function.update (Function.update buf (base + i) (pma src &&& 0xFF).toUInt8)
          (base + i + 1) (pma src >>> 8).toUInt8 = overwrite buf (base + i) 2 (pmaByte pma src) := by
        funext x
        rcases Nat.lt_trichotomy x (base + i) with hx | rfl | hx
        · rw [Function.update_of_ne (by omega), Function.update_of_ne (by omega),
            overwrite_of_not_mem (by omega)]
        · rw [Function.update_of_ne (by omega), Function.update_self,
            overwrite_of_mem (by omega) (by omega)]
          simp [pmaByte]
        · by_cases h1 : x = base + i + 1
          · rw [h1, Function.update_self, overwrite_of_mem (by omega) (by omega)]
            simp [pmaByte]
          · rw [Function.update_of_ne h1, Function.update_of_ne (by omega),
              overwrite_of_not_mem (by omega)]
      simp only [if_pos hi, hstep, hbytes]
      rw [show base + (i + 2) = base + i + 2 by omega, overwrite_overwrite]
      congr 1
      omega
    · have hlen : len = i + 1 := by omega
      subst hlen
      have hstep : Function.update buf (base + i) (pma src &&& 0xFF).toUInt8 =
          overwrite buf (base + i) 1 (pmaByte pma src) := by
        funext x
        by_cases hx : x = base + i
        · rw [hx, Function.update_self, overwrite_of_mem (by omega) (by omega)]
          simp [pmaByte]
        · rw [Function.update_of_ne hx, overwrite_of_not_mem (by omega)]
      simp only [if_neg hi, hstep, show i + 1 - (i + 2) = 0 by omega, overwrite_zero,
        show i + 1 - i = 1 by omega]

/-- `pma_read` stores exactly the `len` bytes of the packet. -/
theorem pmaRead_eq (pma : Pma) (offset : ℕ) (buf : ℕ → UInt8) (base len : ℕ) :
    pmaRead pma offset buf base len = overwrite buf base len (pmaByte pma (pmaAddr offset)) :=
  pmaReadLoop_eq pma base len _ 0 (pmaAddr offset) buf rfl

/-- What `pma_write` stored is what a reader of the same packet sees. -/
theorem pmaByte_pmaWrite (offset : ℕ) (data : ℕ → UInt8) (len : ℕ) (pma : Pma) {j : ℕ}
    (hj : j < len) : pmaByte (pmaWrite offset data len pma) (pmaAddr offset) j = data j := by
  rw [pmaByte, pmaWrite, pmaWriteLoop_word _ _ _ _ _ _ (by omega), Nat.zero_add, packWord]
  by_cases hmod : j % 2 = 0
  · rw [if_pos hmod, show 2 * (j / 2) = j by omega]
    split
    · exact le16_low _ _
    · exact low_toUInt16 _
  · rw [if_neg hmod, if_pos (by omega), show 2 * (j / 2) + 1 = j by omega, le16_high]

theorem pmaWrite_of_not_mem (offset : ℕ) (data : ℕ → UInt8) (len : ℕ) (pma : Pma) {x : ℕ}
    (hx : x < 2 * offset ∨ 2 * (offset + len) ≤ x) : pmaWrite offset data len pma x = pma x := by
  apply pmaWriteLoop_of_ne
  intro k hk
  simp only [pmaAddr]
  omega

@[simp] theorem Pma.read_write_self (pma : Pma) (offset : ℕ) (val : UInt16) :
    (pma.write offset val).read offset = val := Function.update_self _ _ _

theorem Pma.read_write_of_ne (pma : Pma) {offset offset' : ℕ} (val : UInt16)
    (h : offset' ≠ offset) : (pma.write offset val).read offset' = pma.read offset' :=
  Function.update_of_ne (by simp only [pmaAddr]; omega) _ _

theorem pmaByte_write (pma : Pma) {offset src j : ℕ} (val : UInt16)
    (h : pmaAddr offset < src) : pmaByte (pma.write offset val) src j = pmaByte pma src j := by
  simp only [pmaByte, Pma.write, Function.update_of_ne (show src + 4 * (j / 2) ≠ pmaAddr offset by omega)]

end NovaBootloader
