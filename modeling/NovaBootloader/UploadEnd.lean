import NovaBootloader.UploadWalk

/-!
# How an upload ends

A response shorter than the host asked for tells it that the upload is over. Past the end of the
region the empty response takes the device back to `dfuIDLE`; a block that is clipped at the end of
the region is as short, and leaves `dfuUPLOAD-IDLE` behind.
-/

namespace NovaBootloader
open ByteMemory

namespace Machine

/-- The block starts in the region, and the region ends before the host has all it asked for. -/
def Clipped (d : Dfu) (p : SetupPacket) : Prop :=
  InRegion (d.blockAddress p.wValue.toNat).toNat 1 ∧
    appFlashEnd.toNat + 1 - (d.blockAddress p.wValue.toNat).toNat < p.wLength.toNat

instance (d : Dfu) (p : SetupPacket) : Decidable (Clipped d p) :=
  inferInstanceAs (Decidable (_ ∧ _))

/-- A full response keeps the upload going; a short one ends it, and the next DNLOAD is accepted. -/
structure EndsUpload (s : Machine) (p : SetupPacket) : Prop where
  full : (s.readRequest p).1.length = p.wLength.toNat →
    (s.step (.setup p)).core.dfu.state = .uploadIdle
  short : (s.readRequest p).1.length < p.wLength.toNat → (s.step (.setup p)).core.dfu.state = .idle
  next : (s.readRequest p).1.length < p.wLength.toNat → ∀ q : SetupPacket, q.IsDfu dfuDnload →
    0 < q.wLength.toNat ∧ q.wLength.toNat ≤ dfuXferSize → q.wValue.toNat ≠ 1 →
      ((s.readRequest p).2.step (.setup q)).core.dfu.state = .dnloadSync

section Upload
variable {s : Machine} {p : SetupPacket}

theorem readRequest_length (hq : s.Quiet)
    (hs : s.core.dfu.state = .idle ∨ s.core.dfu.state = .uploadIdle) (hp : p.IsDfu dfuUpload)
    (hblock : 2 ≤ p.wValue.toNat) (hlen : 0 < p.wLength.toNat) :
    (s.readRequest p).1.length = if InRegion (s.core.dfu.blockAddress p.wValue.toNat).toNat 1 then
      min p.wLength.toNat (appFlashEnd.toNat + 1 - (s.core.dfu.blockAddress p.wValue.toNat).toNat)
    else 0 := by
  rw [readRequest_bytes hq hs hp hblock hlen, length_toList]
  unfold uploadLength InRegion
  simp only [Nat.add_le_add_iff_right]

theorem step_dnload_of_idle (hq : s.Quiet) (hidle : s.core.dfu.state = .idle) {q : SetupPacket}
    (hd : q.IsDfu dfuDnload) (hlen : 0 < q.wLength.toNat ∧ q.wLength.toNat ≤ dfuXferSize)
    (hblock : q.wValue.toNat ≠ 1) : (s.step (.setup q)).core.dfu.state = .dnloadSync := by
  rw [step_core hq, coreStep, request_of_accepts ⟨hd, hlen, hblock, Or.inl hidle⟩]
  rfl

/-- A clipped block is a short response that leaves `dfuUPLOAD-IDLE`. -/
theorem not_endsUpload_of_clipped (hq : s.Quiet)
    (hs : s.core.dfu.state = .idle ∨ s.core.dfu.state = .uploadIdle) (hp : p.IsDfu dfuUpload)
    (hblock : 2 ≤ p.wValue.toNat) (hclip : Clipped s.core.dfu p) : ¬ s.EndsUpload p := by
  obtain ⟨hin, hend⟩ := hclip
  intro hends
  have hlength := readRequest_length hq hs hp hblock (by omega)
  rw [if_pos hin] at hlength
  have hidle := hends.short (by omega)
  rw [step_upload_core hq hs hp hblock, if_pos hin] at hidle
  exact DfuState.noConfusion hidle

/-- An UPLOAD leaves the state its response calls for exactly if its block is not clipped. -/
theorem upload_ends_iff {s : Machine} (hs : s.Reachable)
    (hstate : s.core.dfu.state = .idle ∨ s.core.dfu.state = .uploadIdle) {p : SetupPacket}
    (hp : p.IsDfu dfuUpload) (hblock : 2 ≤ p.wValue.toNat) (hlen : 0 < p.wLength.toNat) :
    s.EndsUpload p ↔ ¬ Clipped s.core.dfu p := by
  have hq := hs.quiet
  refine ⟨fun h hclip => not_endsUpload_of_clipped hq hstate hp hblock hclip h, fun hclip => ?_⟩
  have hstep := congrArg (fun c => c.dfu.state) (step_upload_core hq hstate hp hblock)
  have hlength := readRequest_length hq hstate hp hblock hlen
  by_cases hin : InRegion (s.core.dfu.blockAddress p.wValue.toNat).toNat 1
  · rw [if_pos hin] at hstep hlength
    have hfull : ¬ (s.readRequest p).1.length < p.wLength.toNat := by
      rw [hlength]
      exact fun h => hclip ⟨hin, by omega⟩
    exact ⟨fun _ => hstep, fun h => absurd h hfull, fun h => absurd h hfull⟩
  · rw [if_neg hin] at hstep hlength
    refine ⟨fun h => ?_, fun _ => hstep, fun _ q hd hq' hb => ?_⟩
    · omega
    · obtain ⟨hcore, hquiet⟩ := readRequest_core hq p
      exact step_dnload_of_idle hquiet (by rw [hcore, hstep]) hd hq' hb

end Upload

/-- The pointer at `0x0803F700`, in `dfuIDLE`: ABORT would have reset it, an error that is cleared
does not. -/
def nearEnd : Machine :=
  erased.run [.setup (.dnload 0 5), .out (.ofBytes [0x21, 0x00, 0xF7, 0x03, 0x08]),
    .setup .getstatus, .setup .getstatus, .setup (.dnload 2 2048), .setup .clrstatus]

theorem nearEnd_reachable : nearEnd.Reachable := ⟨_, _, _, rfl⟩

theorem upload_ends_near_end :
    nearEnd.EndsUpload (.upload 2 256) ↔ ¬ Clipped nearEnd.core.dfu (.upload 2 256) :=
  upload_ends_iff nearEnd_reachable (by decide +kernel) (upload_isDfu _ _) (by decide) (by decide)

/-- The last 256 bytes of the region answer a request for 1024, and the upload does not end. -/
theorem clipped_block_keeps_upload : nearEnd.Reachable ∧ nearEnd.core.dfu.state = .idle ∧
    ¬ nearEnd.EndsUpload (.upload 2 1024) := by
  have hidle : nearEnd.core.dfu.state = .idle := by decide +kernel
  refine ⟨nearEnd_reachable, hidle, ?_⟩
  exact not_endsUpload_of_clipped nearEnd_reachable.quiet (Or.inl hidle) (upload_isDfu 2 1024)
    (by decide) (by decide +kernel)

end Machine

end NovaBootloader
