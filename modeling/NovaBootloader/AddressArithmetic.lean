import NovaBootloader.Ep0Answer
import NovaBootloader.FlashWrite
import NovaBootloader.Session

/-!
# Block addresses and lengths without overflow

Block addresses are computed modulo 2^32 from a pointer the host chooses freely. The largest block
offset is smaller than the base of the application region, so a sum that wraps stays below the
region. The same relation makes the check of the first and the last byte of a write a check of the
whole interval, and an upload can count the bytes left in the region in 16 bits where it has to.
-/

namespace NovaBootloader
open ByteMemory FlashHw

namespace Dfu

/-- The address of a data block in unbounded arithmetic. -/
def blockSum (d : Dfu) (block : ℕ) : ℕ := d.addressPtr.toNat + (block - 2) * 1024

def avail (d : Dfu) (block : ℕ) : UInt32 := appFlashEnd - d.blockAddress block + 1

end Dfu

theorem inRegion_iff_forall {a n : ℕ} (hpos : 0 < n) :
    InRegion a n ↔ ∀ i < n, InRegion (a + i) 1 := by
  constructor
  · rintro ⟨hlo, hhi⟩ i hi
    exact ⟨by omega, by omega⟩
  · intro h
    have hfirst := (h 0 hpos).1
    have hlast := (h (n - 1) (by omega)).2
    exact ⟨by omega, by omega⟩

/-- The call passes the two address checks: half-words go to the controller, up to the first fault,
and the call succeeds if there is none. -/
structure WriteAccepted (a : UInt32) (data : ℕ → UInt8) (len : ℕ) (h : FlashHw) : Prop where
  stores : (flashWrite a data len h).1.log = h.log ++ .writeCall a (toList data len) ::
    halfwordStores data len 0 a.toNat
      (min (halfwords len) (programmed h.faults h.ops (halfwords len) + 1))
  succeeds : (flashWrite a data len h).2 = 0 ↔
    ∀ k < halfwords len, (h.faults (h.ops + k)).raised = false

/-- The call ends with the error return before it touches the controller. -/
def WriteRefused (a : UInt32) (data : ℕ → UInt8) (len : ℕ) (h : FlashHw) : Prop :=
  flashWrite a data len h = (h.record (.writeCall a (toList data len)), -1)

section Writes
variable {a : UInt32} {data : ℕ → UInt8} {len : ℕ} {h : FlashHw}

theorem WriteAccepted.not_refused (hpos : 0 < len) (hacc : WriteAccepted a data len h) :
    ¬ WriteRefused a data len h := by
  intro href
  have hlog := hacc.stores
  rw [href] at hlog
  have hlength := congrArg List.length hlog
  simp [FlashHw.record, halfwordStores, halfwords] at hlength
  omega

/-- The checks of the first and of the last byte decide over the whole unbounded interval. -/
theorem writeAccepted_iff (hpos : 0 < len) (hlen : len ≤ 1024) :
    (WriteAccepted a data len h ↔ InRegion a.toNat len) ∧
      (WriteRefused a data len h ↔ ¬ InRegion a.toNat len) := by
  have hbound : len < 2 ^ 31 := by omega
  have hrefused (hr : ¬ InRegion a.toNat len) : WriteRefused a data len h :=
    flashWrite_of_not_inRegion data h hpos hbound hr
  have haccepted (hr : InRegion a.toNat len) : WriteAccepted a data len h := by
    obtain ⟨hlog, -, -, hrc⟩ := flashWrite_of_inRegion data h hpos hbound hr
    exact ⟨hlog, hrc⟩
  refine ⟨⟨fun hacc => ?_, haccepted⟩, fun href hr => ?_, hrefused⟩
  · by_contra hr
    exact hacc.not_refused hpos (hrefused hr)
  · exact (haccepted hr).not_refused hpos href

end Writes

section Blocks
variable {d : Dfu} {block : ℕ}

theorem handleDfuDnload_address (h2 : 2 ≤ block) {len : ℕ} (hpos : 0 < len) (hlen : len ≤ 1024)
    (hs : d.state = .idle ∨ d.state = .dnloadIdle) :
    (handleDfuDnload block len d).1.address = d.blockAddress block := by
  have hsize : dfuXferSize = 1024 := rfl
  unfold handleDfuDnload
  rw [if_neg (by omega), if_neg (by omega), if_neg (by omega), if_pos hs]
  exact if_pos h2

theorem toNat_avail (hblock : block < 2 ^ 16) (hin : InRegion (d.blockSum block) 1) :
    d.blockSum block + (d.avail block).toNat = appFlashEnd.toNat + 1 := by
  have haddr : (d.blockAddress block).toNat = d.blockSum block :=
    (inRegion_blockAddress_iff hblock).2 hin
  obtain ⟨hlo, hhi⟩ := hin
  have hle : d.blockAddress block ≤ appFlashEnd := by
    rw [UInt32.le_iff_toNat_le, haddr]
    omega
  unfold Dfu.avail
  rw [UInt32.toNat_add, UInt32.toNat_sub_of_le _ _ hle, haddr]
  simp only [toNat_appFlashStart, toNat_appFlashEnd, UInt32.toNat_one] at *
  omega

/-- The cast to 16 bits is made only where `avail` fits. -/
theorem avail_cast {len : ℕ} (hlen : len < 2 ^ 16) (hle : ¬ UInt32.ofNat len < d.avail block) :
    (d.avail block).toNat % 2 ^ 16 = (d.avail block).toNat := by
  rw [UInt32.lt_iff_toNat_lt, UInt32.toNat_ofNat'] at hle
  omega

theorem handleDfuUpload_avail (h2 : 2 ≤ block) (hs : d.state = .idle ∨ d.state = .uploadIdle)
    (hin : InRegion (d.blockAddress block).toNat 1) (len : ℕ) : (handleDfuUpload block len d).2 =
      .send ⟨.flash, (d.blockAddress block).toNat⟩
        (if UInt32.ofNat len < d.avail block then len else (d.avail block).toNat % 2 ^ 16) := by
  unfold handleDfuUpload
  rw [if_neg (by tauto), if_neg (by omega)]
  change Prod.snd (if d.blockAddress block < appFlashStart ∨ appFlashEnd < d.blockAddress block then
    _ else _) = _
  rw [if_neg]
  · rfl
  · obtain ⟨hlo, hhi⟩ := hin
    simp only [UInt32.lt_iff_toNat_lt]
    omega

theorem handleDfuUpload_blockSum (h2 : 2 ≤ block) (hblock : block < 2 ^ 16) {len : ℕ}
    (hlen : len < 2 ^ 16) (hs : d.state = .idle ∨ d.state = .uploadIdle) :
    (handleDfuUpload block len d).2 = if InRegion (d.blockSum block) 1 then
      .send ⟨.flash, d.blockSum block⟩ (min len (appFlashEnd.toNat + 1 - d.blockSum block))
    else .sendZlp := by
  obtain ⟨hiff, heq⟩ := inRegion_blockAddress_iff (d := d) (n := 1) hblock
  by_cases hin : InRegion (d.blockSum block) 1
  · have haddr : (d.blockAddress block).toNat = d.blockSum block := heq hin
    have hin' := hiff.mpr hin
    have hclip := upload_clip hlen hin'.1 (by have := hin'.2; omega)
    rw [haddr] at hclip
    rw [handleDfuUpload_avail h2 hs hin', if_pos hin]
    exact congrArg₂ (fun a n => Ep0Call.send ⟨.flash, a⟩ n) haddr hclip
  · have hout : ¬ InRegion (d.blockAddress block).toNat 1 := fun h => hin (hiff.mp h)
    unfold handleDfuUpload
    rw [if_neg (by tauto), if_neg (by omega), if_neg hin]
    change Prod.snd (if d.blockAddress block < appFlashStart ∨ appFlashEnd < d.blockAddress block
      then _ else _) = _
    simp only [UInt32.lt_iff_toNat_lt]
    rw [if_pos (by unfold InRegion at hout; omega)]

end Blocks

/-- Address arithmetic never wraps into the writable or readable region. -/
theorem address_arithmetic_exact (d : Dfu) (block : ℕ) (h2 : 2 ≤ block) (hblock : block < 2 ^ 16) :
    (InRegion (d.blockAddress block).toNat 1 ↔ InRegion (d.blockSum block) 1) ∧
    (∀ len, 1 ≤ len → len ≤ 1024 →
      (d.state = .idle ∨ d.state = .dnloadIdle →
        (handleDfuDnload block len d).1.address = d.blockAddress block) ∧
      (∀ data h,
        (WriteAccepted (d.blockAddress block) data len h ↔
          ∀ i < len, InRegion (d.blockSum block + i) 1) ∧
        (WriteRefused (d.blockAddress block) data len h ↔
          ¬ ∀ i < len, InRegion (d.blockSum block + i) 1)) ∧
      ∀ (a : UInt32) data h,
        (WriteAccepted a data len h ↔ ∀ i < len, InRegion (a.toNat + i) 1) ∧
        (WriteRefused a data len h ↔ ¬ ∀ i < len, InRegion (a.toNat + i) 1) ∧
        ((flashIsAddressValid a = true ∧ flashIsAddressValid (a + UInt32.ofNat len - 1) = true) ↔
          ∀ i < len, InRegion (a.toNat + i) 1)) ∧
    ∀ len, len < 2 ^ 16 → d.state = .idle ∨ d.state = .uploadIdle →
      (handleDfuUpload block len d).2 = (if InRegion (d.blockSum block) 1 then
        .send ⟨.flash, d.blockSum block⟩ (min len (appFlashEnd.toNat + 1 - d.blockSum block))
      else .sendZlp) ∧
      (InRegion (d.blockSum block) 1 →
        (handleDfuUpload block len d).2 = .send ⟨.flash, (d.blockAddress block).toNat⟩
          (if UInt32.ofNat len < d.avail block then len else (d.avail block).toNat % 2 ^ 16) ∧
        d.blockSum block + (d.avail block).toNat = appFlashEnd.toNat + 1 ∧
        (¬ UInt32.ofNat len < d.avail block →
          (d.avail block).toNat % 2 ^ 16 = (d.avail block).toNat)) := by
  have hbyte := (inRegion_blockAddress_iff (d := d) (n := 1) hblock).1
  refine ⟨hbyte, fun len hpos hlen => ⟨?_, fun data h => ?_, fun a data h => ?_⟩,
    fun len hlen hs => ⟨?_, fun hin => ⟨?_, ?_, ?_⟩⟩⟩
  · exact handleDfuDnload_address h2 hpos hlen
  · have hiff : InRegion (d.blockAddress block).toNat len ↔ InRegion (d.blockSum block) len :=
      (inRegion_blockAddress_iff hblock).1
    rw [← inRegion_iff_forall hpos, ← hiff]
    exact writeAccepted_iff hpos hlen
  · rw [← inRegion_iff_forall hpos]
    obtain ⟨haccepted, hrefused⟩ := @writeAccepted_iff a data len h hpos hlen
    exact ⟨haccepted, hrefused, (inRegion_iff a hpos (by omega)).symm⟩
  · exact handleDfuUpload_blockSum h2 hblock hlen hs
  · exact handleDfuUpload_avail h2 hs (hbyte.mpr hin) len
  · exact toNat_avail hblock hin
  · exact avail_cast hlen

/-- Block 65535 from the highest pointer wraps, and stays below the region; the last byte of the
region is written and the byte behind it is not; one kilobyte before the end a request for 65535
bytes is clipped. -/
theorem last_block_wraps :
    ¬ InRegion (Dfu.blockAddress { Dfu.zero.init with addressPtr := 0xFFFFFFFF } 65535).toNat 1 ∧
      WriteAccepted 0x0803F7FF (fun _ => 0x55) 1 (erasedFlash fun _ => .none) ∧
      WriteRefused 0x0803F7FF (fun _ => 0x55) 2 (erasedFlash fun _ => .none) ∧
      (handleDfuUpload 2 65535 { Dfu.zero.init with addressPtr := 0x0803F400 }).2 =
        .send ⟨.flash, 0x0803F400⟩ 1024 := by
  have hhigh := address_arithmetic_exact { Dfu.zero.init with addressPtr := 0xFFFFFFFF } 65535
    (by decide) (by decide)
  have hend := address_arithmetic_exact { Dfu.zero.init with addressPtr := 0x0803F400 } 2
    (by decide) (by decide)
  have hsum : ({ Dfu.zero.init with addressPtr := 0xFFFFFFFF } : Dfu).blockSum 65535 =
      4294967295 + 67105792 := by
    simp [Dfu.blockSum]
  refine ⟨?_, ?_, ?_, ?_⟩
  · rw [hhigh.1, hsum]
    simp only [InRegion, toNat_appFlashStart, toNat_appFlashEnd]
    omega
  · exact ((hend.2.1 1 (by decide) (by decide)).2.2 0x0803F7FF _ _).1.mpr (by decide)
  · exact ((hend.2.1 2 (by decide) (by decide)).2.2 0x0803F7FF _ _).2.1.mpr (by decide)
  · exact (hend.2.2 65535 (by decide) (Or.inl rfl)).1

end NovaBootloader
