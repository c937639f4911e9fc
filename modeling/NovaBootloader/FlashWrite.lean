import NovaBootloader.FlashInterface

/-!
# One call of `flash_write`

A call outside the application region is refused before the controller is unlocked. Inside it, the
call succeeds exactly when no half-word faults; the flash then holds the data, an odd length
padded with one erased byte, and nothing else is stored to. The first fault ends the call with the
half-words before it in place. Bytes of the buffer past `len` have no influence.
-/

namespace NovaBootloader
open ByteMemory FlashHw

/-- The half-word with number `m` is the first one the hardware reports a fault for. -/
def FirstFault (h : FlashHw) (m : ℕ) : Prop :=
  (∀ k < m, (h.faults (h.ops + k)).raised = false) ∧ (h.faults (h.ops + m)).raised = true

/-- The number of half-words of a buffer; the last one is padded if the length is odd. -/
def halfwords (len : ℕ) : ℕ := (len + 1) / 2

theorem programmed_eq_of_firstFault {h : FlashHw} {m n : ℕ} (hm : m < n) (hf : FirstFault h m) :
    programmed h.faults h.ops n = m := by
  have hle : m ≤ programmed h.faults h.ops n := (le_programmed_iff _ _ hm.le).mpr hf.1
  have hlt : ¬ m + 1 ≤ programmed h.faults h.ops n := by
    rw [le_programmed_iff _ _ hm]
    intro hall
    have hclean := hall m (Nat.lt_succ_self m)
    rw [hf.2] at hclean
    exact absurd hclean Bool.true_eq_false_eq_False
  omega

theorem flashWriteLoop_returns (data : ℕ → UInt8) (len n i dst : ℕ) (h : FlashHw) :
    (flashWriteLoop data len n i dst h).2 = 0 ∨ (flashWriteLoop data len n i dst h).2 = -1 := by
  induction n generalizing i dst h with
  | zero => exact Or.inl rfl
  | succ n ih =>
    rw [flashWriteLoop]
    generalize (if i + 1 < len then data (i + 1) else 0xFF) = hi
    split
    · exact Or.inr rfl
    · exact ih _ _ _

theorem flashWrite_returns (a : UInt32) (data : ℕ → UInt8) (len : ℕ) (h : FlashHw) :
    (flashWrite a data len h).2 = 0 ∨ (flashWrite a data len h).2 = -1 := by
  simp only [flashWrite]
  split_ifs
  · exact Or.inl rfl
  · exact Or.inr rfl
  · exact Or.inr rfl
  · exact flashWriteLoop_returns _ _ _ _ _ _

theorem flashWriteLoop_congr {data data' : ℕ → UInt8} {len : ℕ}
    (hdata : ∀ i < len, data' i = data i) (n i dst : ℕ) (h : FlashHw) (hn : i + 2 * n ≤ len + 1) :
    flashWriteLoop data' len n i dst h = flashWriteLoop data len n i dst h := by
  induction n generalizing i dst h with
  | zero => rfl
  | succ n ih =>
    have hlo : data' i = data i := hdata i (by omega)
    have hhi : (if i + 1 < len then data' (i + 1) else 0xFF) =
        if i + 1 < len then data (i + 1) else 0xFF := by
      split
      · exact hdata _ (by assumption)
      · rfl
    have hrest := fun dst h => ih (i + 2) dst h (by omega)
    simp only [flashWriteLoop, hlo, hhi, hrest]

theorem flashWrite_congr {data data' : ℕ → UInt8} {len : ℕ} (hdata : ∀ i < len, data' i = data i)
    (a : UInt32) (h : FlashHw) : flashWrite a data' len h = flashWrite a data len h := by
  have hloop := fun dst h => flashWriteLoop_congr hdata ((len + 1) / 2) 0 dst h (by omega)
  simp only [flashWrite, toList_congr hdata, hloop]

theorem touches_halfwordStores {data : ℕ → UInt8} {len i dst count : ℕ} {e : FlashEvent}
    (he : e ∈ halfwordStores data len i dst count) {x : ℕ} (hx : e.Touches x) :
    dst ≤ x ∧ x < dst + 2 * count := by
  obtain ⟨k, hk, rfl⟩ := List.mem_map.mp he
  have hlt : k < count := List.mem_range.mp hk
  have hcases : x = dst + 2 * k ∨ x = dst + 2 * k + 1 := hx
  omega

/-- An odd-length block that starts at an even address ends before the last byte of the region. -/
theorem inRegion_padded {a len : ℕ} (heven : Even a) (hr : InRegion a len) :
    InRegion a (2 * halfwords len) := by
  obtain ⟨k, hk⟩ := heven
  simp only [InRegion, halfwords, toNat_appFlashStart, toNat_appFlashEnd] at hr ⊢
  omega

/-- What a call that reports success leaves behind. -/
structure Written (a : UInt32) (data : ℕ → UInt8) (len : ℕ) (h h' : FlashHw) : Prop where
  stores : h'.log =
    h.log ++ .writeCall a (toList data len) :: halfwordStores data len 0 a.toNat (halfwords len)
  window : ∀ e ∈ halfwordStores data len 0 a.toNat (halfwords len), ∀ x, e.Touches x →
    a.toNat ≤ x ∧ x < a.toNat + 2 * halfwords len
  readback : toList (fun i => h'.mem (a.toNat + i)) len = toList data len
  padding : Odd len → h'.mem (a.toNat + len) = 0xFF ∧ InRegion a.toNat (len + 1)
  frame : ∀ x, ¬ (a.toNat ≤ x ∧ x < a.toNat + 2 * halfwords len) → h'.mem x = h.mem x

/-- What a call that meets its first fault at half-word `m` leaves behind. -/
structure Stopped (a : UInt32) (data : ℕ → UInt8) (len m : ℕ) (h h' : FlashHw) : Prop where
  stores : h'.log =
    h.log ++ .writeCall a (toList data len) :: halfwordStores data len 0 a.toNat (m + 1)
  whole : 2 * m < len
  kept : h'.mem = overwrite h.mem a.toNat (2 * m) data

section Call
variable {a : UInt32} {data : ℕ → UInt8} {len : ℕ} {h : FlashHw}

theorem flashWrite_written (heven : Even a.toNat) (hpos : 0 < len) (hlen : len < 2 ^ 31)
    (hr : InRegion a.toNat len) (hrc : (flashWrite a data len h).2 = 0) :
    Written a data len h (flashWrite a data len h).1 := by
  obtain ⟨hlog, hmem, -, hiff⟩ := flashWrite_of_inRegion data h hpos hlen hr
  have hall : programmed h.faults h.ops (halfwords len) = halfwords len :=
    (programmed_eq_iff _ _ _).mpr (hiff.mp hrc)
  have hpad := inRegion_padded heven hr
  change _ = overwrite _ _ (2 * programmed h.faults h.ops (halfwords len)) _ at hmem
  change _ = _ ++ _ :: halfwordStores _ _ _ _
    (min (halfwords len) (programmed h.faults h.ops (halfwords len) + 1)) at hlog
  rw [hall] at hmem hlog
  refine ⟨?_, ?_, (flashWrite_readback data h hpos hlen hrc).2, ?_, ?_⟩
  · rw [hlog, Nat.min_eq_left (Nat.le_succ _)]
  · exact fun e he x hx => touches_halfwordStores he hx
  · rintro ⟨k, hk⟩
    have hcount : 2 * halfwords len = len + 1 := by
      unfold halfwords
      omega
    rw [hcount] at hmem hpad
    refine ⟨?_, hpad⟩
    rw [hmem, overwrite_of_mem (by omega) (by omega), Nat.add_sub_cancel_left]
    exact if_neg (Nat.lt_irrefl len)
  · intro x hx
    rw [hmem, overwrite_of_not_mem hx]

theorem flashWrite_stopped (hpos : 0 < len) (hlen : len < 2 ^ 31) (hr : InRegion a.toNat len)
    {m : ℕ} (hm : m < halfwords len) (hf : FirstFault h m) :
    (flashWrite a data len h).2 = -1 ∧ Stopped a data len m h (flashWrite a data len h).1 := by
  obtain ⟨hlog, hmem, -, hiff⟩ := flashWrite_of_inRegion data h hpos hlen hr
  have hstop : programmed h.faults h.ops ((len + 1) / 2) = m := programmed_eq_of_firstFault hm hf
  have hwhole : 2 * m < len := by
    unfold halfwords at hm
    omega
  rw [hstop] at hlog hmem
  refine ⟨?_, ?_, hwhole, ?_⟩
  · rcases flashWrite_returns a data len h with h0 | h1
    · have hclean := hiff.mp h0 m hm
      rw [hf.2] at hclean
      exact absurd hclean Bool.true_eq_false_eq_False
    · exact h1
  · rw [hlog, Nat.min_eq_right (show m + 1 ≤ (len + 1) / 2 from hm)]
  · rw [hmem]
    apply overwrite_congr
    intro i hi
    exact if_pos (by omega)

end Call

/-- `flash_write` is exact on success and controlled on failure, for every trace of faults. -/
theorem flashWrite_exact (a : UInt32) (data : ℕ → UInt8) (len : ℕ) (h : FlashHw)
    (heven : Even a.toNat) (hpos : 1 ≤ len) (hlen : len ≤ 1024) :
    (¬ InRegion a.toNat len →
      flashWrite a data len h = (h.record (.writeCall a (toList data len)), -1)) ∧
    (InRegion a.toNat len →
      ((flashWrite a data len h).2 = 0 ↔
        ∀ k < halfwords len, (h.faults (h.ops + k)).raised = false) ∧
      ((flashWrite a data len h).2 = 0 → Written a data len h (flashWrite a data len h).1) ∧
      ∀ m < halfwords len, FirstFault h m →
        (flashWrite a data len h).2 = -1 ∧ Stopped a data len m h (flashWrite a data len h).1) ∧
    ∀ data', (∀ i < len, data' i = data i) →
      flashWrite a data' len h = flashWrite a data len h := by
  have hbound : len < 2 ^ 31 := by omega
  refine ⟨flashWrite_of_not_inRegion data h hpos hbound, fun hr => ⟨?_, ?_, ?_⟩, ?_⟩
  · exact (flashWrite_of_inRegion data h hpos hbound hr).2.2.2
  · exact flashWrite_written heven hpos hbound hr
  · exact fun m hm hf => flashWrite_stopped hpos hbound hr hm hf
  · exact fun data' hdata => flashWrite_congr hdata a h

def erasedFlash (faults : ℕ → Fault) : FlashHw := powerOn (fun _ => 0xFF) faults

/-- Three bytes at the end of the region: the tail is padded, and a fault at the second half-word
leaves the first in place. -/
theorem flashWrite_three :
    Written 0x0803F7FC (fun _ => 0x55) 3 (erasedFlash fun _ => .none)
        (flashWrite 0x0803F7FC (fun _ => 0x55) 3 (erasedFlash fun _ => .none)).1 ∧
      Stopped 0x0803F7FC (fun _ => 0x55) 3 1 (erasedFlash fun k => ⟨k == 1, false⟩)
        (flashWrite 0x0803F7FC (fun _ => 0x55) 3 (erasedFlash fun k => ⟨k == 1, false⟩)).1 ∧
      (flashWrite 0x0803F7FE (fun _ => 0x55) 3 (erasedFlash fun _ => .none)).2 = -1 := by
  have heven : Even (0x0803F7FC : UInt32).toNat := by decide
  have hin : InRegion (0x0803F7FC : UInt32).toNat 3 := by decide
  have hclean := flashWrite_exact 0x0803F7FC (fun _ => 0x55) 3 (erasedFlash fun _ => .none) heven
    (by decide) (by decide)
  have hfault := flashWrite_exact 0x0803F7FC (fun _ => 0x55) 3
    (erasedFlash fun k => ⟨k == 1, false⟩) heven (by decide) (by decide)
  have hout := flashWrite_exact 0x0803F7FE (fun _ => 0x55) 3 (erasedFlash fun _ => .none)
    (by decide) (by decide) (by decide)
  refine ⟨?_, ?_, ?_⟩
  · exact (hclean.2.1 hin).2.1 ((hclean.2.1 hin).1.mpr fun k _ => rfl)
  · refine ((hfault.2.1 hin).2.2 1 (by decide) ⟨?_, rfl⟩).2
    intro k hk
    rw [Nat.lt_one_iff.mp hk]
    rfl
  · rw [hout.1 (by decide)]

end NovaBootloader
