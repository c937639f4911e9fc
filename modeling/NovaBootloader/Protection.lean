import NovaBootloader.FlashTrace

/-!
# Which bytes a run can touch

Page erases and half-word stores never reach below the application region. Above it there is one
byte within reach: the pad byte of an odd write that ends at the end of the region.
-/

namespace NovaBootloader
open ByteMemory FlashHw

theorem eraseLog_touches {a : UInt32} {ev : FlashEvent} {x : ℕ} (hev : ev ∈ eraseLog a)
    (hx : ev.Touches x) : appFlashStart.toNat ≤ x ∧ x ≤ appFlashEnd.toNat := by
  unfold eraseLog at hev
  rcases List.mem_cons.mp hev with rfl | hev
  · exact hx.elim
  cases ha : flashIsAddressValid a with
  | false => simp [ha] at hev
  | true =>
    rw [ha, if_pos rfl, List.mem_singleton] at hev
    subst hev
    obtain ⟨hlo, hhi⟩ := (flashIsAddressValid_iff a).mp ha
    obtain ⟨hp, hq⟩ := hx
    simp only [pageBase, toNat_appFlashStart, toNat_appFlashEnd, toNat_flashPageSize] at *
    omega

theorem writeLog_touches_iff {a : UInt32} {data : ℕ → UInt8} {len : ℕ} {h : FlashHw} {x : ℕ} :
    (∃ ev ∈ writeLog a data len h, ev.Touches x) ↔ InRegion a.toNat len ∧
      ∃ k < (len + 1) / 2, k ≤ programmed h.faults h.ops ((len + 1) / 2) ∧
        (x = a.toNat + 2 * k ∨ x = a.toNat + 2 * k + 1) := by
  unfold writeLog
  constructor
  · rintro ⟨ev, hev, hx⟩
    rcases List.mem_cons.mp hev with rfl | hev
    · exact hx.elim
    split_ifs at hev with hr
    · obtain ⟨k, hk, rfl⟩ := mem_halfwordStores hev
      exact ⟨hr, k, by omega, by omega, hx⟩
    · exact absurd hev List.not_mem_nil
  · rintro ⟨hr, k, hk, hprog, hx⟩
    rw [if_pos hr]
    exact ⟨_, List.mem_cons_of_mem _ (store_mem_halfwordStores (k := k) (by omega)), hx⟩

theorem attemptLog_touches {c : Core} {ev : FlashEvent} {x : ℕ} (hev : ev ∈ attemptLog c)
    (hx : ev.Touches x) : appFlashStart.toNat ≤ x ∧ x ≤ appFlashEnd.toNat + 1 := by
  unfold attemptLog at hev
  split_ifs at hev
  · have h := eraseLog_touches hev hx
    exact ⟨h.1, by omega⟩
  · exact absurd hev List.not_mem_nil
  · obtain ⟨hr, k, hk, -, hx⟩ := writeLog_touches_iff.mp ⟨ev, hev, hx⟩
    unfold InRegion at hr
    omega
  · exact absurd hev List.not_mem_nil

/-- The bootloader cannot be overwritten over DFU. -/
theorem bootloader_untouched (mem : ℕ → UInt8) (faults : ℕ → Fault) (es : List UsbEvent) :
    ∀ ev ∈ (Machine.run (Machine.start mem faults) es).core.flash.log,
      ∀ x, ev.Touches x → 0x08003000 ≤ x := by
  refine StepSystem.log_forall (fun s : Machine => s.core.flash.log) Machine.Stable
    (fun ev => ∀ x, ev.Touches x → 0x08003000 ≤ x) (fun _ e hs => hs.step e)
    (fun s e hs => ⟨eventLog s.core e, hs.step_log e, fun ev hev x hx => ?_⟩)
    (Machine.start_stable mem faults) (fun ev hev => absurd hev List.not_mem_nil) es
  unfold eventLog at hev
  split_ifs at hev
  · exact (attemptLog_touches hev hx).1
  · exact absurd hev List.not_mem_nil

def firstPageErase : List UsbEvent :=
  [.setup (.dnload 0 5), .out (.ofBytes [0x41, 0x00, 0x30, 0x00, 0x08]),
    .setup .getstatus, .setup .getstatus]

theorem first_page_erase_above :
    .pageErase 0x08003000 ∈ (Machine.run (Machine.start (fun _ => 0xFF) fun _ => Fault.none)
        firstPageErase).core.flash.log ∧
      ∀ x, (FlashEvent.pageErase 0x08003000).Touches x → 0x08003000 ≤ x := by
  have hlog : .pageErase 0x08003000 ∈ (Machine.run (Machine.start (fun _ => 0xFF) fun _ =>
      Fault.none) firstPageErase).core.flash.log := by decide +kernel
  exact ⟨hlog, bootloader_untouched (fun _ => 0xFF) (fun _ => Fault.none) firstPageErase _ hlog⟩

/-- The page `APP_SETTINGS_RESERVE` keeps for the application's settings. -/
def SettingsUntouched (log : List FlashEvent) : Prop :=
  ∀ ev ∈ log, ∀ x, 0x0803F800 ≤ x → x ≤ 0x0803FFFF → ¬ ev.Touches x

/-- The write an attempt makes ends with a pad byte past the end of the region: it starts at an
odd address, its last byte is the last of the region, and no half-word before the last faults. -/
def PadsSettings (c : Core) : Prop :=
  c.dfu.cmdPending = 0 ∧ c.dfu.address.toNat % 2 = 1 ∧
    c.dfu.address.toNat + c.dfu.bufferLen = 0x0803F800 ∧
    ∀ k < c.dfu.bufferLen / 2, (c.flash.faults (c.flash.ops + k)).raised = false

theorem attemptLog_settingsUntouched_iff {c : Core} (hlen : c.dfu.bufferLen ≤ dfuXferSize) :
    SettingsUntouched (attemptLog c) ↔ ¬ PadsSettings c := by
  have hsize : dfuXferSize = 1024 := rfl
  have hend := toNat_appFlashEnd
  constructor
  · rintro h ⟨hcmd, hodd, hsum, hfaults⟩
    have hn : c.dfu.bufferLen / 2 ≤ (c.dfu.bufferLen + 1) / 2 := by omega
    have hr : InRegion c.dfu.address.toNat c.dfu.bufferLen := by
      unfold InRegion
      simp only [toNat_appFlashStart, toNat_appFlashEnd]
      omega
    obtain ⟨ev, hev, hx⟩ := writeLog_touches_iff.mpr ⟨hr, c.dfu.bufferLen / 2, by omega,
      (le_programmed_iff c.flash.faults c.flash.ops hn).mpr hfaults,
      Or.inr (rfl : c.dfu.address.toNat + 2 * (c.dfu.bufferLen / 2) + 1 = _)⟩
    refine h ev ?_ _ (by omega) (by omega) hx
    unfold attemptLog
    rw [if_neg (not_not.mpr hcmd), if_pos (by omega)]
    exact hev
  · intro h ev hev x hlo hhi hx
    have hle := (attemptLog_touches hev hx).2
    unfold attemptLog at hev
    split_ifs at hev with hcmd
    · have := (eraseLog_touches hev hx).2
      omega
    · exact absurd hev List.not_mem_nil
    · obtain ⟨hr, k, hk, hprog, hx⟩ := writeLog_touches_iff.mp ⟨ev, hev, hx⟩
      unfold InRegion at hr
      have hlast : k = c.dfu.bufferLen / 2 := by omega
      subst hlast
      refine h ⟨not_not.mp hcmd, by omega, by omega, ?_⟩
      exact (le_programmed_iff c.flash.faults c.flash.ops (by omega)).mp hprog
    · exact absurd hev List.not_mem_nil

/-- The settings page stays untouched exactly in the runs without an attempt that pads into it. -/
theorem settingsUntouched_iff (mem : ℕ → UInt8) (faults : ℕ → Fault) (es : List UsbEvent) :
    SettingsUntouched (Machine.run (Machine.start mem faults) es).core.flash.log ↔
      StepSystem.Along Machine.step (fun s e => ¬ (Executes s.core e ∧ PadsSettings s.core))
        (Machine.start mem faults) es := by
  unfold SettingsUntouched
  rw [Machine.run_log_forall_iff fun ev => ∀ x, 0x0803F800 ≤ x → x ≤ 0x0803FFFF → ¬ ev.Touches x]
  refine StepSystem.along_iff_of_invariant Machine.Stable (fun _ e hs _ => hs.step e)
    (fun s e hs => ?_) (Machine.start_stable mem faults) es
  have h := attemptLog_settingsUntouched_iff hs.consistent.bufferLen_le
  unfold eventLog
  split_ifs with hexec
  · rw [not_and]
    exact h.trans ⟨fun hpad _ => hpad, fun hpad => hpad hexec⟩
  · exact iff_of_true (fun ev hev => absurd hev List.not_mem_nil) fun hpad => hexec hpad.1

def lastByteSession : List UsbEvent :=
  [.setup (.dnload 0 5), .out (.ofBytes [0x21, 0xFF, 0xF7, 0x03, 0x08]),
    .setup .getstatus, .setup .getstatus,
    .setup (.dnload 2 1), .out (.ofBytes [0x55]), .setup .getstatus, .setup .getstatus]

theorem settings_byte_stored :
    ¬ SettingsUntouched (Machine.erased.run lastByteSession).core.flash.log := by
  have hmem : FlashEvent.store 0x0803F7FF 0x55 0xFF ∈
      (Machine.erased.run lastByteSession).core.flash.log := by
    decide +kernel
  intro h
  exact h _ hmem 0x0803F800 (by decide) (by decide) (Or.inr rfl)

end NovaBootloader
