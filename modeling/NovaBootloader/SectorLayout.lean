import NovaBootloader.FlashInterface
import NovaBootloader.UsbRequest

/-!
# The advertised memory layout

String descriptor 4 tells the host where it may write and how coarsely it must erase. Decoded the
way a host does it, it is a map of equal sectors, where every address lies in one sector at most;
`flash_is_address_valid` accepts the addresses of those sectors, and `flash_erase_page` erases whole
ones.
-/

/-- Sectors of one size, laid out from `base` on. -/
structure SectorMap where
  base : ℕ
  count : ℕ
  size : ℕ
  size_pos : 0 < size
deriving DecidableEq

namespace SectorMap
variable {m : SectorMap} {j k a : ℕ}

def start (m : SectorMap) (k : ℕ) : ℕ := m.base + k * m.size

def InSector (m : SectorMap) (k a : ℕ) : Prop :=
  k < m.count ∧ m.start k ≤ a ∧ a < m.start k + m.size

theorem inSector_iff :
    m.InSector k a ↔ k < m.count ∧ m.base ≤ a ∧ (a - m.base) / m.size = k := by
  unfold InSector start
  rw [Nat.div_eq_iff m.size_pos]
  have hpos := m.size_pos
  have hle : 0 ≤ k * m.size := Nat.zero_le _
  constructor
  · rintro ⟨hk, hlo, hhi⟩
    exact ⟨hk, by omega, by omega, by omega⟩
  · rintro ⟨hk, hbase, hlo, hhi⟩
    exact ⟨hk, by omega, by omega⟩

theorem InSector.unique (hj : m.InSector j a) (hk : m.InSector k a) : j = k :=
  (inSector_iff.mp hj).2.2.symm.trans (inSector_iff.mp hk).2.2

theorem exists_inSector_iff :
    (∃ k, m.InSector k a) ↔ m.base ≤ a ∧ a < m.base + m.count * m.size := by
  simp only [inSector_iff]
  constructor
  · rintro ⟨k, hk, hlo, rfl⟩
    have hlt := (Nat.div_lt_iff_lt_mul m.size_pos).mp hk
    exact ⟨hlo, by omega⟩
  · rintro ⟨hlo, hhi⟩
    exact ⟨(a - m.base) / m.size, (Nat.div_lt_iff_lt_mul m.size_pos).mpr (by omega), hlo, rfl⟩

/-- Rounding down to the sector size gives the start of the sector. -/
theorem InSector.round_down (hk : m.InSector k a) (haligned : m.size ∣ m.base) :
    a / m.size * m.size = m.start k := by
  obtain ⟨-, hlo, rfl⟩ := inSector_iff.mp hk
  obtain ⟨c, hc⟩ := haligned
  have hsplit : a = (a - m.base) + m.size * c := by omega
  unfold start
  rw [hc] at hsplit ⊢
  conv_lhs => rw [hsplit, Nat.add_mul_div_left _ _ m.size_pos]
  rw [Nat.add_mul, Nat.mul_comm c, Nat.add_comm]

end SectorMap

namespace NovaBootloader
open ByteMemory FlashHw

/-- The text of a string descriptor: UTF-16LE after the two bytes of its header. -/
def utf16Text : List UInt8 → List Char
  | lo :: hi :: rest => Char.ofNat (le16 lo hi).toNat :: utf16Text rest
  | _ => []

def digitValue (c : Char) : Option ℕ :=
  if '0' ≤ c ∧ c ≤ '9' then some (c.toNat - '0'.toNat)
  else if 'a' ≤ c ∧ c ≤ 'f' then some (c.toNat - 'a'.toNat + 10)
  else if 'A' ≤ c ∧ c ≤ 'F' then some (c.toNat - 'A'.toNat + 10)
  else none

/-- A number in base `radix`, as far as its digits go, after the digits read into `acc`. -/
def scanDigits (radix : ℕ) : ℕ → List Char → ℕ × List Char
  | acc, [] => (acc, [])
  | acc, c :: rest =>
    match digitValue c with
    | some d => if d < radix then scanDigits radix (acc * radix + d) rest else (acc, c :: rest)
    | none => (acc, c :: rest)

def scanNumber (radix : ℕ) (text : List Char) : Option (ℕ × List Char) :=
  let r := scanDigits radix 0 text
  if r.2.length < text.length then some r else none

def scanLiteral (word text : List Char) : Option (List Char) :=
  if word.isPrefixOf text then some (text.drop word.length) else none

/-- The format `@Flash/0x%x/%u*%u%c`, with sectors counted in kilobytes. -/
def decodeLayout (descriptor : List UInt8) : Option SectorMap := do
  let text ← scanLiteral "@Flash/0x".toList (utf16Text (descriptor.drop 2))
  let (base, text) ← scanNumber 16 text
  let text ← scanLiteral ['/'] text
  let (sectors, text) ← scanNumber 10 text
  let text ← scanLiteral ['*'] text
  let (ksize, text) ← scanNumber 10 text
  let _ ← scanLiteral ['K'] text
  if h : 0 < ksize * 1024 then some ⟨base, sectors, ksize * 1024, h⟩ else none

/-- The sectors that descriptor 4 advertises: `121*2Kg` from `0x08003000` on. -/
def advertised : SectorMap := ⟨0x08003000, 121, 2048, by decide⟩

theorem decodeLayout_string4 : decodeLayout string4 = some advertised := by decide +kernel

theorem flashIsAddressValid_iff_advertised (a : UInt32) :
    flashIsAddressValid a = true ↔ ∃ k, advertised.InSector k a.toNat := by
  have hend : advertised.base + advertised.count * advertised.size = appFlashEnd.toNat + 1 := by
    decide
  have hbase : advertised.base = appFlashStart.toNat := by decide
  rw [flashIsAddressValid_iff, SectorMap.exists_inSector_iff, hend, hbase, Nat.lt_succ_iff]

/-- The page `flash_erase_page` works on is the sector of the address it is given. -/
theorem pageBase_eq_start {a : UInt32} {k : ℕ} (hk : advertised.InSector k a.toNat) :
    pageBase a = advertised.start k :=
  hk.round_down (by decide)

/-- An erase that succeeds has erased sector `k` and nothing else. -/
structure SectorErased (m : SectorMap) (k : ℕ) (mem mem' : ℕ → UInt8) : Prop where
  erased : ∀ x, m.InSector k x → mem' x = 0xFF
  frame : ∀ x, ¬ m.InSector k x → mem' x = mem x

theorem sectorErased_overwrite {m : SectorMap} {k : ℕ} (hk : k < m.count) (mem : ℕ → UInt8) :
    SectorErased m k mem (overwrite mem (m.start k) m.size fun _ => 0xFF) where
  erased _ hx := overwrite_of_mem hx.2.1 hx.2.2
  frame _ hx := overwrite_of_not_mem fun h => hx ⟨hk, h.1, h.2⟩

theorem flashErasePage_erases_sector {a : UInt32} {k : ℕ} (hk : advertised.InSector k a.toNat)
    (h : FlashHw) :
    (flashErasePage a h).1.log = h.log ++ [.eraseCall a, .pageErase (advertised.start k)] ∧
    ((flashErasePage a h).2 = 0 ↔ (h.faults h.ops).raised = false) ∧
    ((flashErasePage a h).2 = 0 → SectorErased advertised k h.mem (flashErasePage a h).1.mem) := by
  have ha := (flashIsAddressValid_iff_advertised a).mpr ⟨k, hk⟩
  obtain ⟨hlog, hmem, -, hrc⟩ := flashErasePage_of_valid h ha
  rw [pageBase_eq_start hk] at hlog hmem
  refine ⟨hlog, hrc, fun hok => ?_⟩
  rw [hmem, hrc.mp hok]
  exact sectorErased_overwrite hk.1 h.mem

/-- The geometry the device advertises is the one it enforces. -/
theorem advertised_geometry_enforced : ∃ m, decodeLayout string4 = some m ∧
    (∀ a j k, m.InSector j a → m.InSector k a → j = k) ∧
    ∀ a : UInt32, (flashIsAddressValid a = true ↔ ∃ k, m.InSector k a.toNat) ∧
      ∀ h : FlashHw,
        (∀ k, m.InSector k a.toNat →
          (flashErasePage a h).1.log = h.log ++ [.eraseCall a, .pageErase (m.start k)] ∧
          ((flashErasePage a h).2 = 0 ↔ (h.faults h.ops).raised = false) ∧
          ((flashErasePage a h).2 = 0 → SectorErased m k h.mem (flashErasePage a h).1.mem)) ∧
        ((∀ k, ¬ m.InSector k a.toNat) →
          flashErasePage a h = (h.record (.eraseCall a), -1)) := by
  refine ⟨advertised, decodeLayout_string4, fun _ _ _ hj hk => hj.unique hk, fun a =>
    ⟨flashIsAddressValid_iff_advertised a, fun h => ⟨fun k hk => ?_, fun hout => ?_⟩⟩⟩
  · exact flashErasePage_erases_sector hk h
  · apply flashErasePage_of_invalid
    rw [← Bool.not_eq_true, flashIsAddressValid_iff_advertised]
    exact fun ⟨k, hk⟩ => hout k hk

end NovaBootloader
