import NovaBootloader.Transition

/-!
# How a request is answered on EP0

Which SETUP packets are answered with a packet at once, and which of the answers take more than
one. Both are conditions on the request and the DFU variables; only uploads are long.
-/

namespace NovaBootloader

def Ep0Call.Queues : Ep0Call → Prop
  | .stall => False
  | .enableRx => False
  | _ => True

def SetupPacket.IsSetAddress (p : SetupPacket) : Prop :=
  p.IsStandard ∧ p.bRequest = usbReqSetAddress

instance (p : SetupPacket) : Decidable p.IsSetAddress := inferInstanceAs (Decidable (_ ∧ _))

namespace SetupPacket

def newAddress (p : SetupPacket) : UInt8 := (p.wValue &&& 0x7F).toUInt8

def setAddress (address : UInt16) : SetupPacket := ⟨0x00, usbReqSetAddress, address, 0, 0⟩

end SetupPacket

namespace Machine

theorem addressAfter_setAddress {p : SetupPacket} (hp : p.IsSetAddress) (pending : UInt8) :
    addressAfter p pending = p.newAddress := if_pos hp

theorem addressAfter_other {p : SetupPacket} (hp : ¬ p.IsSetAddress) (pending : UInt8) :
    addressAfter p pending = pending := if_neg hp

end Machine

/-- `handle_get_descriptor` has a descriptor for `value`. -/
def HasDescriptor (value : UInt16) : Prop :=
  (value >>> 8).toUInt8 = usbDescTypeDevice ∨ (value >>> 8).toUInt8 = usbDescTypeConfiguration ∨
    (value >>> 8).toUInt8 = usbDescTypeString ∧ (value &&& 0xFF).toUInt8.toNat < 5

instance (value : UInt16) : Decidable (HasDescriptor value) := inferInstanceAs (Decidable (_ ∨ _))

def StandardAnswered (p : SetupPacket) : Prop :=
  p.bRequest = usbReqGetDescriptor ∧ HasDescriptor p.wValue ∨ p.bRequest = usbReqSetAddress ∨
    p.bRequest = usbReqSetConfiguration ∨ p.bRequest = usbReqGetConfiguration ∨
    p.bRequest = usbReqGetStatus

instance (p : SetupPacket) : Decidable (StandardAnswered p) := inferInstanceAs (Decidable (_ ∨ _))

/-- The class requests that are answered with a packet at once: neither stalled nor waiting for
data first. -/
def ClassAnswered (p : SetupPacket) (d : Dfu) : Prop :=
  p.bRequest = dfuGetstatus ∨ p.bRequest = dfuGetstate ∨
    p.bRequest = dfuDnload ∧ p.wLength.toNat = 0 ∧ d.state = .dnloadIdle ∨
    p.bRequest = dfuUpload ∧ (d.state = .idle ∨ d.state = .uploadIdle) ∧ 2 ≤ p.wValue.toNat ∨
    p.bRequest = dfuClrstatus ∨ p.bRequest = dfuAbort

instance (p : SetupPacket) (d : Dfu) : Decidable (ClassAnswered p d) :=
  inferInstanceAs (Decidable (_ ∨ _))

def Answered (p : SetupPacket) (d : Dfu) : Prop :=
  p.IsStandard ∧ StandardAnswered p ∨ p.IsClass ∧ ClassAnswered p d

instance (p : SetupPacket) (d : Dfu) : Decidable (Answered p d) :=
  inferInstanceAs (Decidable (_ ∨ _))

/-- The answer to a request for `req` bytes does not end with its first packet. -/
def Ep0Call.Continues (req : ℕ) : Ep0Call → Prop
  | .reply bytes => 64 < min bytes.length req ∨ min bytes.length req = 64 ∧ 64 < req
  | .send _ len => 64 < min len req ∨ min len req = 64 ∧ 64 < req
  | _ => False

def uploadLength (p : SetupPacket) (d : Dfu) : ℕ :=
  let addr := (d.blockAddress p.wValue.toNat).toNat
  if appFlashStart.toNat ≤ addr ∧ addr ≤ appFlashEnd.toNat then
    min p.wLength.toNat (appFlashEnd.toNat + 1 - addr)
  else 0

def LongUpload (p : SetupPacket) (d : Dfu) : Prop :=
  p.IsDfu dfuUpload ∧ (d.state = .idle ∨ d.state = .uploadIdle) ∧ 2 ≤ p.wValue.toNat ∧
    (64 < uploadLength p d ∨ uploadLength p d = 64 ∧ 64 < p.wLength.toNat)

instance (p : SetupPacket) (d : Dfu) : Decidable (LongUpload p d) :=
  inferInstanceAs (Decidable (_ ∧ _))

theorem Ep0Call.Short.not_continues {call : Ep0Call} (h : call.Short) (req : ℕ) :
    ¬ call.Continues req := by
  cases call with
  | reply bytes =>
    have hlt : bytes.length < 64 := h
    unfold Continues
    omega
  | send data len =>
    have hlt := h.1
    unfold Continues
    omega
  | sendZlp => exact id
  | stall => exact id
  | enableRx => exact id

/-- The clipping in `handle_dfu_upload`: no byte of the available range is lost to the cast. -/
theorem upload_clip {addr : UInt32} {len : ℕ} (hlen : len < 2 ^ 16)
    (hlo : appFlashStart.toNat ≤ addr.toNat) (hhi : addr.toNat ≤ appFlashEnd.toNat) :
    (if UInt32.ofNat len < appFlashEnd - addr + 1 then len
      else (appFlashEnd - addr + 1).toNat % 2 ^ 16) = min len (appFlashEnd.toNat + 1 - addr.toNat) := by
  have havail : (appFlashEnd - addr + 1).toNat = appFlashEnd.toNat + 1 - addr.toNat := by
    rw [UInt32.toNat_add, UInt32.toNat_sub_of_le _ _ (UInt32.le_iff_toNat_le.mpr hhi)]
    simp only [toNat_appFlashStart, toNat_appFlashEnd, UInt32.toNat_one] at *
    omega
  have hofNat : (UInt32.ofNat len).toNat = len := by
    rw [UInt32.toNat_ofNat']
    omega
  simp only [UInt32.lt_iff_toNat_lt, havail, hofNat]
  split_ifs <;> omega

theorem handleDfuUpload_of_accepted {p : SetupPacket} {d : Dfu}
    (hs : d.state = .idle ∨ d.state = .uploadIdle) (hblock : 2 ≤ p.wValue.toNat) :
    (handleDfuUpload p.wValue.toNat p.wLength.toNat d = ({ d with state := .idle }, .sendZlp) ∧
      uploadLength p d = 0 ∧ ¬ (appFlashStart.toNat ≤ (d.blockAddress p.wValue.toNat).toNat ∧
        (d.blockAddress p.wValue.toNat).toNat ≤ appFlashEnd.toNat)) ∨
    handleDfuUpload p.wValue.toNat p.wLength.toNat d = ({ d with state := .uploadIdle },
        .send ⟨.flash, (d.blockAddress p.wValue.toNat).toNat⟩ (uploadLength p d)) ∧
      InRegion (d.blockAddress p.wValue.toNat).toNat 1 := by
  unfold handleDfuUpload uploadLength
  rw [if_neg (by tauto), if_neg (by omega)]
  unfold Dfu.blockAddress
  dsimp only
  generalize d.addressPtr + UInt32.ofNat (p.wValue.toNat - 2) * UInt32.ofNat dfuXferSize = addr
  simp only [UInt32.lt_iff_toNat_lt]
  by_cases hin : appFlashStart.toNat ≤ addr.toNat ∧ addr.toNat ≤ appFlashEnd.toNat
  · have hclip := upload_clip p.wLength.toNat_lt hin.1 hin.2
    simp only [UInt32.lt_iff_toNat_lt] at hclip
    rw [if_neg (by omega), if_pos hin, hclip]
    exact Or.inr ⟨rfl, hin.1, Nat.add_le_add_right hin.2 1⟩
  · rw [if_pos (by omega), if_neg hin]
    exact Or.inl ⟨rfl, rfl, hin⟩

theorem handleDfuDnload_short (block len : ℕ) (d : Dfu) : (handleDfuDnload block len d).2.Short := by
  unfold handleDfuDnload
  split_ifs <;> trivial

/-- Requests other than UPLOAD are answered with one short packet at most. -/
theorem request_short {p : SetupPacket} (hp : ¬ p.IsDfu dfuUpload) (c : Core) :
    (Machine.request p c).2.Short := by
  unfold Machine.request
  by_cases hstd : p.IsStandard
  · rw [if_pos hstd]
    change (Machine.standardCall p).Short
    unfold Machine.standardCall
    split_ifs
    · exact handleGetDescriptor_short _ _
    · trivial
    · trivial
    · exact (by decide : 1 < 64)
    · exact (by decide : 2 < 64)
    · trivial
  rw [if_neg hstd]
  by_cases hclass : p.IsClass
  swap
  · rw [if_neg hclass]
    trivial
  rw [if_pos hclass]
  unfold dfuRequest
  dsimp only
  rw [if_neg fun h => hp ⟨hclass, h⟩]
  split_ifs
  · exact (by decide : 6 < 64)
  · exact (by decide : 1 < 64)
  · exact handleDfuDnload_short _ _ _
  · trivial
  · trivial
  · trivial

theorem handleDfuUpload_of_refused {block len : ℕ} {d : Dfu}
    (h : ¬ ((d.state = .idle ∨ d.state = .uploadIdle) ∧ 2 ≤ block)) :
    handleDfuUpload block len d = (d, .stall) := by
  unfold handleDfuUpload
  by_cases hs : d.state ≠ .idle ∧ d.state ≠ .uploadIdle
  · rw [if_pos hs]
  · rw [if_neg hs, if_pos]
    by_contra hblock
    exact h ⟨by tauto, by omega⟩

/-- The only answers of more than one packet are those to uploads. -/
theorem request_continues_iff {p : SetupPacket} {c : Core} :
    (Machine.request p c).2.Continues p.wLength.toNat ↔ LongUpload p c.dfu := by
  by_cases hp : p.IsDfu dfuUpload
  swap
  · exact iff_of_false ((request_short hp c).not_continues _) fun h => hp h.1
  rw [request_upload hp]
  by_cases hacc : (c.dfu.state = .idle ∨ c.dfu.state = .uploadIdle) ∧ 2 ≤ p.wValue.toNat
  swap
  · rw [handleDfuUpload_of_refused hacc]
    exact iff_of_false id fun h => hacc ⟨h.2.1, h.2.2.1⟩
  have hle : uploadLength p c.dfu ≤ p.wLength.toNat := by
    unfold uploadLength
    dsimp only
    split_ifs
    · exact Nat.min_le_left _ _
    · exact Nat.zero_le _
  rcases handleDfuUpload_of_accepted hacc.1 hacc.2 with ⟨hcall, hzero, -⟩ | ⟨hcall, -⟩
  · rw [hcall]
    refine iff_of_false id fun h => ?_
    have := h.2.2.2
    omega
  · rw [hcall, Ep0Call.Continues, min_eq_left hle]
    unfold LongUpload
    tauto

theorem request_longUpload_state {p : SetupPacket} {c : Core} (h : LongUpload p c.dfu) :
    (Machine.request p c).1.dfu.state = .uploadIdle := by
  obtain ⟨hp, hs, hblock, hlong⟩ := h
  rw [request_upload hp]
  rcases handleDfuUpload_of_accepted hs hblock with ⟨-, hzero, -⟩ | ⟨hcall, -⟩
  · omega
  · rw [hcall]

theorem handleGetDescriptor_queues_iff (value : UInt16) (len : ℕ) :
    (handleGetDescriptor value len).Queues ↔ HasDescriptor value := by
  unfold handleGetDescriptor HasDescriptor
  dsimp only
  by_cases hdev : (value >>> 8).toUInt8 = usbDescTypeDevice
  · rw [if_pos hdev]
    exact iff_of_true trivial (Or.inl hdev)
  rw [if_neg hdev]
  by_cases hcfg : (value >>> 8).toUInt8 = usbDescTypeConfiguration
  · rw [if_pos hcfg]
    exact iff_of_true trivial (Or.inr (Or.inl hcfg))
  rw [if_neg hcfg]
  by_cases hstr : (value >>> 8).toUInt8 = usbDescTypeString
  · rw [if_pos hstr]
    by_cases hindex : (value &&& 0xFF).toUInt8.toNat < 5
    · rw [dif_pos hindex]
      exact iff_of_true trivial (Or.inr (Or.inr ⟨hstr, hindex⟩))
    · rw [dif_neg hindex]
      exact iff_of_false id (by tauto)
  · rw [if_neg hstr]
    exact iff_of_false id (by tauto)

theorem standardCall_queues_iff (p : SetupPacket) :
    (Machine.standardCall p).Queues ↔ StandardAnswered p := by
  unfold Machine.standardCall StandardAnswered
  by_cases hdesc : p.bRequest = usbReqGetDescriptor
  · rw [if_pos hdesc, handleGetDescriptor_queues_iff, hdesc]
    constructor
    · exact fun h => Or.inl ⟨rfl, h⟩
    · rintro (h | h | h | h | h)
      · exact h.2
      all_goals exact absurd h (by decide)
  · rw [if_neg hdesc]
    split_ifs with h₁ h₂ h₃ h₄
    · exact iff_of_true trivial (by tauto)
    · exact iff_of_true trivial (by tauto)
    · exact iff_of_true trivial (by tauto)
    · exact iff_of_true trivial (by tauto)
    · exact iff_of_false id (by tauto)

theorem handleDfuDnload_queues_iff (block len : ℕ) (d : Dfu) :
    (handleDfuDnload block len d).2.Queues ↔ len = 0 ∧ d.state = .dnloadIdle := by
  unfold handleDfuDnload
  split_ifs with hlen hs hbig hblock hacc
  · exact iff_of_true trivial ⟨hlen, hs⟩
  · exact iff_of_false id fun h => hs h.2
  all_goals exact iff_of_false id fun h => hlen h.1

theorem handleDfuUpload_queues_iff (p : SetupPacket) (d : Dfu) :
    (handleDfuUpload p.wValue.toNat p.wLength.toNat d).2.Queues ↔
      (d.state = .idle ∨ d.state = .uploadIdle) ∧ 2 ≤ p.wValue.toNat := by
  by_cases hacc : (d.state = .idle ∨ d.state = .uploadIdle) ∧ 2 ≤ p.wValue.toNat
  · refine iff_of_true ?_ hacc
    rcases handleDfuUpload_of_accepted hacc.1 hacc.2 with ⟨hcall, -⟩ | ⟨hcall, -⟩ <;>
      rw [hcall] <;> trivial
  · rw [handleDfuUpload_of_refused hacc]
    exact iff_of_false id hacc

theorem dfuRequest_queues_iff (p : SetupPacket) (c : Core) :
    (dfuRequest p c).2.Queues ↔ ClassAnswered p c.dfu := by
  unfold dfuRequest ClassAnswered
  dsimp only
  split_ifs with h₁ h₂ h₃ h₄ h₅ h₆
  · exact iff_of_true trivial (Or.inl h₁)
  · exact iff_of_true trivial (Or.inr (Or.inl h₂))
  · have hother : ¬ p.bRequest = dfuUpload ∧ ¬ p.bRequest = dfuClrstatus ∧
        ¬ p.bRequest = dfuAbort := by
      rw [h₃]
      decide
    rw [handleDfuDnload_queues_iff]
    tauto
  · have hother : ¬ p.bRequest = dfuClrstatus ∧ ¬ p.bRequest = dfuAbort := by
      rw [h₄]
      decide
    rw [handleDfuUpload_queues_iff]
    tauto
  · exact iff_of_true trivial (by tauto)
  · exact iff_of_true trivial (by tauto)
  · exact iff_of_false id (by tauto)

theorem request_queues_iff (p : SetupPacket) (c : Core) :
    (Machine.request p c).2.Queues ↔ Answered p c.dfu := by
  unfold Machine.request Answered
  by_cases hstd : p.IsStandard
  · rw [if_pos hstd]
    have hclass : ¬ p.IsClass := fun h => SetupPacket.not_isStandard_of_isClass h hstd
    have h := standardCall_queues_iff p
    tauto
  rw [if_neg hstd]
  by_cases hclass : p.IsClass
  · rw [if_pos hclass]
    have h := dfuRequest_queues_iff p c
    tauto
  · rw [if_neg hclass]
    exact iff_of_false id (by tauto)

/-- Every answer is short or comes from flash. -/
theorem request_short_or_flash (p : SetupPacket) (c : Core) : (Machine.request p c).2.Short ∨
    ∃ data len, (Machine.request p c).2 = .send data len ∧ data.object = .flash := by
  by_cases hp : p.IsDfu dfuUpload
  swap
  · exact Or.inl (request_short hp c)
  rw [request_upload hp]
  by_cases hacc : (c.dfu.state = .idle ∨ c.dfu.state = .uploadIdle) ∧ 2 ≤ p.wValue.toNat
  swap
  · rw [handleDfuUpload_of_refused hacc]
    exact Or.inl trivial
  rcases handleDfuUpload_of_accepted hacc.1 hacc.2 with ⟨hcall, -⟩ | ⟨hcall, -⟩
  · rw [hcall]
    exact Or.inl trivial
  · rw [hcall]
    exact Or.inr ⟨_, _, rfl, rfl⟩

end NovaBootloader
