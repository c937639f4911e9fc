import NovaBootloader.FlashTrace

/-!
# Half-word alignment of programming

`flash_write` stores half-words from the address it is given, and that address comes from the host:
the operand of SET_ADDRESS is not checked, and the block arithmetic keeps its parity. A block at an
odd address that lies in the region is programmed at odd addresses; outside the region it is refused
before the controller is unlocked.
-/

namespace NovaBootloader
open ByteMemory FlashHw

/-- The event lets `handle_dfu_getstatus` write the buffered data. -/
def WritesData (c : Core) (e : UsbEvent) : Prop :=
  Executes c e ∧ c.dfu.cmdPending = 0 ∧ 0 < c.dfu.bufferLen

/-- The data would be written, inside the region, from an odd address on. -/
def Misaligned (c : Core) (e : UsbEvent) : Prop :=
  WritesData c e ∧ c.dfu.address.toNat % 2 = 1 ∧ InRegion c.dfu.address.toNat c.dfu.bufferLen

instance (c : Core) (e : UsbEvent) : Decidable (WritesData c e) :=
  inferInstanceAs (Decidable (_ ∧ _))

instance (c : Core) (e : UsbEvent) : Decidable (Misaligned c e) :=
  inferInstanceAs (Decidable (_ ∧ _))

def writeCallOf (c : Core) : FlashEvent :=
  .writeCall c.dfu.address (toList c.dfu.buffer c.dfu.bufferLen)

/-- A step that stores half-words at even addresses only, and that answers data at an odd address
with an error return and dfuERROR, with nothing done to the controller. -/
structure HalfwordAligned (s : Machine) (e : UsbEvent) : Prop where
  stores : ∀ dst lo hi, .store dst lo hi ∈ s.asked e → dst % 2 = 0
  refused : WritesData s.core e → s.core.dfu.address.toNat % 2 = 1 →
    flashWrite s.core.dfu.address s.core.dfu.buffer s.core.dfu.bufferLen s.core.flash =
      (s.core.flash.record (writeCallOf s.core), -1) ∧
    (s.step e).core = ⟨s.core.dfu.fail .errWrite, s.core.flash.record (writeCallOf s.core)⟩

theorem writeBuffer_of_not_inRegion {c : Core} (hpos : 0 < c.dfu.bufferLen)
    (hlen : c.dfu.bufferLen ≤ dfuXferSize) (hr : ¬ InRegion c.dfu.address.toNat c.dfu.bufferLen) :
    flashWrite c.dfu.address c.dfu.buffer c.dfu.bufferLen c.flash =
        (c.flash.record (writeCallOf c), -1) ∧
      writeBuffer c = ⟨c.dfu.fail .errWrite, c.flash.record (writeCallOf c)⟩ := by
  have hwrite : flashWrite c.dfu.address c.dfu.buffer c.dfu.bufferLen c.flash =
      (c.flash.record (writeCallOf c), -1) :=
    flashWrite_of_not_inRegion c.dfu.buffer c.flash hpos (lt_of_le_of_lt hlen (by decide)) hr
  refine ⟨hwrite, ?_⟩
  unfold writeBuffer
  simp only [hwrite]
  rfl

/-- The addresses of the half-words an attempt stores have the parity of the block's address. -/
theorem store_mem_attemptLog {c : Core} {dst : ℕ} {lo hi : UInt8}
    (h : .store dst lo hi ∈ attemptLog c) : c.dfu.cmdPending = 0 ∧ 0 < c.dfu.bufferLen ∧
      InRegion c.dfu.address.toNat c.dfu.bufferLen ∧ dst % 2 = c.dfu.address.toNat % 2 := by
  unfold attemptLog at h
  split_ifs at h with hcmd herase hpos
  · unfold eraseLog at h
    split_ifs at h <;> simp at h
  · exact absurd h List.not_mem_nil
  · unfold writeLog at h
    rcases List.mem_cons.mp h with hcall | hstore
    · cases hcall
    split_ifs at hstore with hr
    · obtain ⟨k, -, heq⟩ := mem_halfwordStores hstore
      have hdst : dst = c.dfu.address.toNat + 2 * k := (FlashEvent.store.inj heq).1
      exact ⟨not_not.mp hcmd, hpos, hr, by omega⟩
    · exact absurd hstore List.not_mem_nil
  · exact absurd h List.not_mem_nil

theorem first_store_mem_attemptLog {c : Core} (hcmd : c.dfu.cmdPending = 0)
    (hpos : 0 < c.dfu.bufferLen) (hr : InRegion c.dfu.address.toNat c.dfu.bufferLen) :
    ∃ lo hi, .store c.dfu.address.toNat lo hi ∈ attemptLog c := by
  unfold attemptLog writeLog
  rw [if_neg (not_not.mpr hcmd), if_pos hpos, if_pos hr]
  have hfirst : 0 < min ((c.dfu.bufferLen + 1) / 2)
      (programmed c.flash.faults c.flash.ops ((c.dfu.bufferLen + 1) / 2) + 1) := by omega
  exact ⟨c.dfu.buffer 0, padded c.dfu.buffer c.dfu.bufferLen 1,
    List.mem_cons_of_mem _ (store_mem_halfwordStores (k := 0) hfirst)⟩

theorem halfwordAligned_iff {s : Machine} (hs : s.Stable) (e : UsbEvent) :
    HalfwordAligned s e ↔ ¬ Misaligned s.core e := by
  constructor
  · rintro h ⟨⟨hexec, hcmd, hpos⟩, hodd, hr⟩
    obtain ⟨lo, hi, hmem⟩ := first_store_mem_attemptLog hcmd hpos hr
    have heven := h.stores _ lo hi (hs.mem_asked.mpr ⟨hexec, hmem⟩)
    omega
  · intro h
    refine ⟨fun dst lo hi hmem => ?_, fun hw hodd => ?_⟩
    · obtain ⟨hexec, hmem⟩ := hs.mem_asked.mp hmem
      obtain ⟨hcmd, hpos, hr, hparity⟩ := store_mem_attemptLog hmem
      have heven : ¬ s.core.dfu.address.toNat % 2 = 1 := fun hodd =>
        h ⟨⟨hexec, hcmd, hpos⟩, hodd, hr⟩
      omega
    · obtain ⟨hexec, hcmd, hpos⟩ := hw
      obtain ⟨hwrite, hbuffer⟩ := writeBuffer_of_not_inRegion hpos hs.consistent.bufferLen_le
        fun hr => h ⟨⟨hexec, hcmd, hpos⟩, hodd, hr⟩
      refine ⟨hwrite, ?_⟩
      rw [Machine.step_core hs.quiet, coreStep_of_executes hexec, executePending_of_data hcmd hpos,
        hbuffer]

/-- The runs that respect the alignment of half-words are those that never write data inside the
region at an odd address. -/
theorem halfword_aligned_along_iff (mem : ℕ → UInt8) (faults : ℕ → Fault) (es : List UsbEvent) :
    StepSystem.Along Machine.step HalfwordAligned (Machine.start mem faults) es ↔
      StepSystem.Along Machine.step (fun s e => ¬ Misaligned s.core e)
        (Machine.start mem faults) es :=
  StepSystem.along_iff_of_invariant Machine.Stable (fun _ e hs _ => hs.step e)
    (fun _ e hs => halfwordAligned_iff hs e) (Machine.start_stable mem faults) es

def oddPointerSession : List UsbEvent :=
  [.setup (.dnload 0 5), .out (.ofBytes [0x21, 0x01, 0x30, 0x00, 0x08]),
    .setup .getstatus, .setup .getstatus,
    .setup (.dnload 2 2), .out (.ofBytes [0x11, 0x22]), .setup .getstatus, .setup .getstatus]

theorem odd_block_programmed :
    ¬ StepSystem.Along Machine.step HalfwordAligned Machine.erased oddPointerSession := by
  rintro ⟨-, -, -, -, -, -, -, hlast, -⟩
  have heven := hlast.stores 0x08003001 0x11 0x22 (by decide +kernel)
  cases heven

end NovaBootloader
