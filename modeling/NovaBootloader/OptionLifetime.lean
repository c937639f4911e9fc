import NovaBootloader.BootChain
import NovaBootloader.OptionRebuild

/-!
# The option bytes over the life of a device

A device is reset and loses power in any order, also between two accesses of
`flash_disable_write_protection`; after a power loss RAM holds anything. The option bytes can only
decay: a byte keeps its value until it is left erased. They survive a power loss outside the stretch
between the erase and the program of the last byte that has to be put back.
-/

namespace NovaBootloader
open FlashHw

namespace OptionBytes

/-- Every byte has kept its value or is erased. -/
def Decays (before after : OptionBytes) : Prop :=
  ∀ ob, obValue (after ob) = obValue (before ob) ∨ obValue (after ob) = 0xFF

theorem Decays.refl (b : OptionBytes) : b.Decays b := fun _ => Or.inl rfl

theorem Decays.trans {b b' b'' : OptionBytes} (h : b.Decays b') (h' : b'.Decays b'') :
    b.Decays b'' := by
  intro ob
  rcases h' ob with hkept | herased
  · rw [hkept]
    exact h ob
  · exact Or.inr herased

theorem Preserved.refl (b : OptionBytes) : b.Preserved b := ⟨Iff.rfl, rfl, rfl, rfl⟩

theorem Preserved.trans {b b' b'' : OptionBytes} (h : b.Preserved b') (h' : b'.Preserved b'') :
    b.Preserved b'' :=
  ⟨h'.rdp.trans h.rdp, h'.user.trans h.user, h'.data0.trans h.data0, h'.data1.trans h.data1⟩

end OptionBytes

section Accesses

variable {w : OptionHw}

/-- The access puts nothing into the block but a byte's old value, or the erased one. -/
def OptionAccess.PutsBack (b : OptionBytes) (a : OptionAccess) : Prop :=
  ∀ ob value, a = .program ob value → obValue value = obValue (b ob) ∨ obValue value = 0xFF

theorem OptionAccess.putsBack_of_mem {b : OptionBytes} {a : OptionAccess}
    (h : a ∈ protectionAccesses b) : a.PutsBack b := by
  have hidem (value : UInt16) : obValue (obValue value) = obValue value := by
    unfold obValue
    rw [UInt16.and_assoc, UInt16.and_self]
  have hnone : obValue obWrpNone = 0xFF := by decide
  rintro ob value rfl
  unfold protectionAccesses eraseAccesses programAccesses at h
  have hmem : (ob, value) ∈ rebuiltBytes b := by
    split_ifs at h
    · exact absurd h List.not_mem_nil
    · simpa using h
  unfold rebuiltBytes at hmem
  simp only [List.mem_append, List.mem_ite_nil_right, List.mem_cons, List.not_mem_nil, or_false,
    Prod.mk.injEq] at hmem
  rcases hmem with ⟨hrdp, rfl, rfl⟩ | ⟨rfl, rfl⟩ | ⟨rfl, rfl⟩ | ⟨rfl, rfl⟩ | hwrp
  · exact Or.inl (hrdp.symm ▸ hidem (b .rdp))
  · exact Or.inl (hidem _)
  · exact Or.inl (hidem _)
  · exact Or.inl (hidem _)
  · have hvalue : value = obWrpNone := by
      rcases hwrp with ⟨-, hvalue⟩ | ⟨-, hvalue⟩ | ⟨-, hvalue⟩ | ⟨-, hvalue⟩ <;> exact hvalue
    exact Or.inr (hvalue ▸ hnone)

theorem OptionAccess.apply_bytes {a : OptionAccess} (hstart : a ≠ .start) {ob : OptionByte}
    (hprogram : ∀ value, a ≠ .program ob value) : (a.apply w).bytes ob = w.bytes ob := by
  cases a with
  | start => exact absurd rfl hstart
  | program ob' value =>
    have hne : ob ≠ ob' := fun h => hprogram value (h ▸ rfl)
    change (w.program ob' value).bytes ob = _
    unfold OptionHw.program
    split_ifs
    · rfl
    · rw [OptionHw.commit_bytes]
      split_ifs
      · exact Function.update_of_ne hne _ _
      · rfl
  | optkeyr key => exact congrFun (OptionHw.writeOptkeyr_bytes w key) ob
  | _ => rfl

theorem OptionAccess.apply_decays {b : OptionBytes} (h : b.Decays w.bytes) {a : OptionAccess}
    (ha : a.PutsBack b) : b.Decays (a.apply w).bytes := by
  have herased : obValue 0xFFFF = 0xFF := by decide
  intro ob
  by_cases hstart : a = .start
  · subst hstart
    change obValue (w.start.bytes ob) = _ ∨ obValue (w.start.bytes ob) = _
    unfold OptionHw.start
    split_ifs
    · exact h ob
    · rw [OptionHw.commit_bytes]
      split_ifs
      · exact Or.inr herased
      · exact h ob
  by_cases hprogram : ∃ value, a = .program ob value
  · obtain ⟨value, rfl⟩ := hprogram
    change obValue ((w.program ob value).bytes ob) = _ ∨ obValue ((w.program ob value).bytes ob) = _
    unfold OptionHw.program
    split_ifs
    · exact h ob
    · rw [OptionHw.commit_bytes]
      split_ifs
      · rw [Function.update_self, obValue_obStored]
        exact ha ob value rfl
      · exact h ob
  · rw [apply_bytes hstart fun value hvalue => hprogram ⟨value, hvalue⟩]
    exact h ob

/-- Wherever the function is cut short, the block has only decayed. -/
theorem OptionHw.access_take_decays (w : OptionHw) (k : ℕ) :
    w.bytes.Decays (w.access ((protectionAccesses w.bytes).take k)).bytes := by
  apply StepSystem.run_invariant_of_mem fun w' : OptionHw => w.bytes.Decays w'.bytes
  · intro w' a ha h
    exact OptionAccess.apply_decays h (OptionAccess.putsBack_of_mem (List.mem_of_mem_take ha))
  · exact .refl _

theorem take_protectionAccesses (h : wrpIsClear w.bytes = false) :
    (protectionAccesses w.bytes).take 6 = eraseAccesses.take 6 := by
  unfold protectionAccesses
  rw [if_neg (ne_true_of_eq_false h), List.append_assoc,
    List.take_append_of_le_length (by decide : 6 ≤ eraseAccesses.length)]

/-- A power loss before the erase leaves everything as it was. -/
theorem OptionHw.access_take_of_le (h : wrpIsClear w.bytes = false) {k : ℕ} (hk : k ≤ 6) :
    (w.access ((protectionAccesses w.bytes).take k)).bytes = w.bytes := by
  apply StepSystem.run_invariant_of_mem fun w' : OptionHw => w'.bytes = w.bytes
  · intro w' a ha hw'
    have hmem : a ∈ eraseAccesses.take 6 := by
      rw [← take_protectionAccesses h]
      exact List.take_subset_take_left _ hk ha
    rw [← hw']
    funext ob
    apply OptionAccess.apply_bytes
    · rintro rfl
      simp [eraseAccesses] at hmem
    · rintro value rfl
      simp [eraseAccesses] at hmem
  · rfl

/-- How many accesses it takes until the last byte that had to be put back is programmed. -/
def restoredAfter (b : OptionBytes) : ℕ := if obValue (b .rdp) = obRdpUnlock then 17 else 15

theorem drop_protectionAccesses (h : wrpIsClear w.bytes = false) :
    (protectionAccesses w.bytes).drop (restoredAfter w.bytes) = [.wait, .program .wrp0 obWrpNone,
      .wait, .program .wrp1 obWrpNone, .wait, .program .wrp2 obWrpNone, .wait,
      .program .wrp3 obWrpNone, .wait, .optpg false, .lock] := by
  unfold protectionAccesses rebuiltBytes restoredAfter
  rw [if_neg (ne_true_of_eq_false h)]
  split_ifs <;> rfl

theorem OptionHw.access_take_of_restored (h : wrpIsClear w.bytes = false) {k : ℕ}
    (hk : restoredAfter w.bytes ≤ k) {ob : OptionByte}
    (hob : ob = .rdp ∨ ob = .user ∨ ob = .data0 ∨ ob = .data1) :
    (w.access ((protectionAccesses w.bytes).take k)).bytes ob =
      (flashDisableWriteProtection w).1.bytes ob := by
  rw [← OptionHw.access_protectionAccesses]
  nth_rewrite 2 [← List.take_append_drop k (protectionAccesses w.bytes)]
  rw [OptionHw.access, StepSystem.run_append]
  symm
  apply StepSystem.run_invariant_of_mem fun w' : OptionHw => w'.bytes ob =
    (StepSystem.run OptionAccess.apply w ((protectionAccesses w.bytes).take k)).bytes ob
  · intro w' a ha hw'
    have hmem : a ∈ (protectionAccesses w.bytes).drop (restoredAfter w.bytes) :=
      List.drop_subset_drop_left _ hk ha
    rw [drop_protectionAccesses h] at hmem
    rw [← hw']
    apply OptionAccess.apply_bytes
    · rintro rfl
      simp at hmem
    · rintro value rfl
      rcases hob with rfl | rfl | rfl | rfl <;> simp at hmem
  · rfl

theorem OptionHw.preserved_of_restored (h : wrpIsClear w.bytes = false)
    (hall : ∀ n, w.takes (w.writes + n) = true) {k : ℕ} (hk : restoredAfter w.bytes ≤ k) :
    w.bytes.Preserved (w.access ((protectionAccesses w.bytes).take k)).bytes := by
  have hsticks : w.RebuildSticks := by
    intro _ r _ _
    unfold OptionHw.programOp
    rw [Nat.add_assoc]
    exact hall _
  obtain ⟨hrdp, huser, hdata0, hdata1⟩ := preserved_of_rebuildSticks h hsticks
  refine ⟨?_, ?_, ?_, ?_⟩
  · rwa [OptionHw.access_take_of_restored h hk (by simp)]
  · rwa [OptionHw.access_take_of_restored h hk (by simp)]
  · rwa [OptionHw.access_take_of_restored h hk (by simp)]
  · rwa [OptionHw.access_take_of_restored h hk (by simp)]

theorem OptionHw.access_erase (w : OptionHw) : (w.access (eraseAccesses.take 7)).bytes =
    if w.takes w.writes then fun _ => 0xFFFF else w.bytes := by
  obtain ⟨keyed, hu⟩ := flashUnlock_eq w.flash
  have hunlock : w.onFlash flashUnlock = { w with flash :=
      { w.flash with cr := { w.flash.cr with lock := false }, keyed := keyed } } :=
    congrArg (fun h => { w with flash := h }) hu
  have hstart : w.access (eraseAccesses.take 7) =
      (w.onFlash flashUnlock).access (eraseAccesses.take 7).tail := rfl
  rw [hstart, hunlock]
  rfl

/-- Between the erase and the end of the rebuild the last byte to be put back is missing. -/
theorem OptionHw.access_take_data1 (h : wrpIsClear w.bytes = false)
    (herase : w.takes w.writes = true) {k : ℕ} (hk : 7 ≤ k) (hk' : k < restoredAfter w.bytes) :
    (w.access ((protectionAccesses w.bytes).take k)).bytes .data1 = 0xFFFF := by
  have hsplit : (protectionAccesses w.bytes).take k = eraseAccesses.take 7 ++
      ((protectionAccesses w.bytes).take k).drop 7 := by
    have hfirst : ((protectionAccesses w.bytes).take k).take 7 = eraseAccesses.take 7 := by
      unfold protectionAccesses
      rw [if_neg (ne_true_of_eq_false h), List.take_take, min_eq_left hk, List.append_assoc,
        List.take_append_of_le_length (by decide : 7 ≤ eraseAccesses.length)]
    rw [← hfirst, List.take_append_drop]
  have hrest : ∀ a ∈ ((protectionAccesses w.bytes).take k).drop 7,
      a ≠ .start ∧ ∀ value, a ≠ .program .data1 value := by
    intro a ha
    have hmem : a ∈ ((protectionAccesses w.bytes).take (restoredAfter w.bytes - 1)).drop 7 := by
      rw [List.drop_take] at ha ⊢
      exact List.take_subset_take_left _ (by omega) ha
    unfold protectionAccesses rebuiltBytes restoredAfter at hmem
    rw [if_neg (ne_true_of_eq_false h)] at hmem
    constructor
    · rintro rfl
      split_ifs at hmem <;> simp [eraseAccesses, programAccesses] at hmem
    · rintro value rfl
      split_ifs at hmem <;> simp [eraseAccesses, programAccesses] at hmem
  rw [hsplit, OptionHw.access, StepSystem.run_append]
  apply StepSystem.run_invariant_of_mem fun w' : OptionHw => w'.bytes .data1 = 0xFFFF
  · intro w' a ha hw'
    obtain ⟨hstart, hprogram⟩ := hrest a ha
    rw [OptionAccess.apply_bytes hstart hprogram]
    exact hw'
  · have hbytes := w.access_erase
    rw [if_pos herase] at hbytes
    exact congrFun hbytes .data1

/-- Over hardware that does what it is asked, a power loss keeps the configuration exactly if it comes
before the erase or after the last byte that has to be put back. -/
theorem power_loss_preserves_iff (h : wrpIsClear w.bytes = false)
    (hall : ∀ n, w.takes (w.writes + n) = true) (hdata : obValue (w.bytes .data1) ≠ 0xFF) (k : ℕ) :
    w.bytes.Preserved (w.access ((protectionAccesses w.bytes).take k)).bytes ↔
      k ≤ 6 ∨ restoredAfter w.bytes ≤ k := by
  constructor
  · intro hkept
    by_contra hk
    obtain ⟨hlo, hhi⟩ := not_or.mp hk
    have hlost := hkept.data1
    rw [OptionHw.access_take_data1 h (hall 0) (not_le.mp hlo) (not_le.mp hhi)] at hlost
    exact hdata hlost.symm
  · rintro (hk | hk)
    · rw [OptionHw.access_take_of_le h hk]
      exact .refl _
    · exact OptionHw.preserved_of_restored h hall hk

def guardedBlock : OptionHw :=
  OptionHw.powerOn (fun _ => 0xFF) (fun
    | .rdp => 0x5AA5
    | .wrp0 => 0x01FE
    | .data1 => 0xBD42
    | _ => 0x00FF) (fun _ => Fault.none) fun _ => true

/-- The user data are gone when power is lost before their turn. -/
theorem guarded_block_cut_short : ¬ guardedBlock.bytes.Preserved
    (guardedBlock.access ((protectionAccesses guardedBlock.bytes).take 16)).bytes := by
  rw [power_loss_preserves_iff (by decide) (fun _ => rfl) (by decide)]
  decide

end Accesses

section Boots

variable {cfg : BuildConfig}

def Board.ReachesOptionBytes (cfg : BuildConfig) (b : Board) : Prop :=
  b.entersDfu = true ∧ cfg.use120MHz = false ∧ (clockInit cfg b.rcc).2 ≠ 0

instance (cfg : BuildConfig) (b : Board) : Decidable (b.ReachesOptionBytes cfg) :=
  inferInstanceAs (Decidable (_ ∧ _))

theorem Board.runDfuMode_bytes (b : Board) : (b.runDfuMode cfg).1.options.bytes =
    if cfg.use120MHz = false ∧ (clockInit cfg b.rcc).2 ≠ 0 then
      (flashDisableWriteProtection b.options).1.bytes
    else b.options.bytes := by
  have hstay : (b.startClock cfg).bootAppOrStop.1.options.bytes = b.options.bytes := by
    rw [bootAppOrStop_fst]
    rfl
  unfold runDfuMode
  by_cases hcfg : cfg.use120MHz = true
  · rw [if_pos hcfg, if_neg fun h => Bool.false_ne_true (h.1.symm.trans hcfg)]
    exact hstay
  by_cases hclock : (clockInit cfg b.rcc).2 = 0
  · rw [if_neg hcfg, if_pos hclock, if_neg fun h => h.2 hclock]
    exact hstay
  · have hgranted : cfg.use120MHz = false ∧ (clockInit cfg b.rcc).2 ≠ 0 :=
      ⟨Bool.eq_false_iff.mpr hcfg, hclock⟩
    rw [if_neg hcfg, if_neg hclock, if_pos hgranted]
    dsimp only
    split_ifs <;> rfl

theorem Board.main_bytes (b : Board) : (b.main cfg).1.options.bytes =
    if b.ReachesOptionBytes cfg then (flashDisableWriteProtection b.options).1.bytes
    else b.options.bytes := by
  cases henter : b.entersDfu with
  | false =>
    rw [main_of_not_entersDfu cfg b henter,
      if_neg fun h => Bool.false_ne_true (henter.symm.trans h.1)]
    rfl
  | true =>
    have hand : b.ReachesOptionBytes cfg ↔
        cfg.use120MHz = false ∧ (clockInit cfg b.rcc).2 ≠ 0 := and_iff_right henter
    rw [main_of_entersDfu cfg b henter, runDfuMode_bytes]
    simp only [hand]
    split_ifs <;> rfl

/-- A stretch of a device's life: a boot up to the next reset, or one that loses power after some
accesses of `flash_disable_write_protection` and leaves anything in RAM. -/
inductive Episode where
  | reset (i : BootInput)
  | powerLoss (i : BootInput) (accesses : ℕ) (magic : UInt32)

namespace Retained

variable (cfg) (p : Retained)

def cutShort (i : BootInput) (k : ℕ) : OptionBytes :=
  if (p.board i).ReachesOptionBytes cfg then
    ((p.board i).options.access ((protectionAccesses p.options).take k)).bytes
  else p.options

def after : Episode → Retained
  | .reset i => p.next cfg i
  | .powerLoss i k magic => ⟨magic, p.cutShort cfg i k⟩

theorem next_options (i : BootInput) : (p.next cfg i).options =
    p.cutShort cfg i (protectionAccesses p.options).length := by
  rw [next_eq]
  change ((p.board i).main cfg).1.options.bytes = _
  rw [Board.main_bytes, cutShort, List.take_length]
  split_ifs
  · rw [← OptionHw.access_protectionAccesses]
    rfl
  · rfl

theorem cutShort_decays (i : BootInput) (k : ℕ) : p.options.Decays (p.cutShort cfg i k) := by
  unfold cutShort
  split_ifs
  · exact (p.board i).options.access_take_decays k
  · exact .refl _

theorem cutShort_of_clear (h : wrpIsClear p.options = true) (i : BootInput) (k : ℕ) :
    p.cutShort cfg i k = p.options := by
  have hnone : protectionAccesses p.options = [] := if_pos h
  unfold cutShort
  rw [hnone, List.take_nil]
  exact ite_self _

/-- Every operation takes effect, and power is not lost in the middle of the rebuild. -/
def Harmless : Episode → Prop
  | .reset i => ∀ n, i.takes n = true
  | .powerLoss i k _ => (∀ n, i.takes n = true) ∧ (k ≤ 6 ∨ restoredAfter p.options ≤ k)

variable {cfg p}

theorem cutShort_preserved {i : BootInput} (hall : ∀ n, i.takes n = true) {k : ℕ}
    (hk : k ≤ 6 ∨ restoredAfter p.options ≤ k) : p.options.Preserved (p.cutShort cfg i k) := by
  cases hclear : wrpIsClear p.options with
  | true =>
    rw [cutShort_of_clear cfg p hclear]
    exact .refl _
  | false =>
    unfold cutShort
    split_ifs
    · rcases hk with hk | hk
      · have hsame := @OptionHw.access_take_of_le (p.board i).options hclear k hk
        rw [show (p.board i).options.bytes = p.options from rfl] at hsame
        rw [hsame]
        exact .refl _
      · exact OptionHw.preserved_of_restored (w := (p.board i).options) hclear
          (fun n => hall _) hk
    · exact .refl _

theorem Harmless.preserved {e : Episode} (h : p.Harmless e) :
    p.options.Preserved (p.after cfg e).options := by
  cases e with
  | powerLoss i k magic => exact cutShort_preserved h.1 h.2
  | reset i =>
    change p.options.Preserved (p.next cfg i).options
    rw [next_options]
    cases hclear : wrpIsClear p.options with
    | true =>
      rw [cutShort_of_clear cfg p hclear]
      exact .refl _
    | false =>
      have hlength := congrArg List.length (@drop_protectionAccesses (p.board i).options hclear)
      change ((protectionAccesses p.options).drop (restoredAfter p.options)).length = 11 at hlength
      rw [List.length_drop] at hlength
      exact cutShort_preserved h (Or.inr (by omega))

theorem after_of_clear (h : wrpIsClear p.options = true) (e : Episode) :
    (p.after cfg e).options = p.options := by
  cases e with
  | reset i =>
    change (p.next cfg i).options = _
    rw [next_options, cutShort_of_clear cfg p h]
  | powerLoss i k magic => exact cutShort_of_clear cfg p h i k

theorem after_decays (e : Episode) : p.options.Decays (p.after cfg e).options := by
  cases e with
  | reset i =>
    change p.options.Decays (p.next cfg i).options
    rw [next_options]
    exact cutShort_decays cfg p i _
  | powerLoss i k magic => exact cutShort_decays cfg p i k

theorem run_preserved {life : List Episode} (h : StepSystem.Along (after cfg) Harmless p life) :
    p.options.Preserved (StepSystem.run (after cfg) p life).options := by
  induction life generalizing p with
  | nil => exact .refl _
  | cons e life ih => exact h.1.preserved.trans (ih h.2)

variable (cfg p)

/-- Through all resets and power losses of a device the option bytes only decay: each keeps its value
or is erased, so read protection is never lifted, and a block without write protection is never
touched. If every operation takes effect and no power loss falls into the middle of a rebuild, write
protection is all that changes. -/
theorem option_bytes_over_lifetime (life : List Episode) :
    let q := StepSystem.run (after cfg) p life
    p.options.Decays q.options ∧
      (obValue (q.options .rdp) = obRdpUnlock → obValue (p.options .rdp) = obRdpUnlock) ∧
      (wrpIsClear p.options = true → q.options = p.options) ∧
      (StepSystem.Along (after cfg) Harmless p life → p.options.Preserved q.options) := by
  intro q
  have hdecays : p.options.Decays q.options :=
    StepSystem.run_invariant (fun q : Retained => p.options.Decays q.options)
      (fun _ e h => h.trans (after_decays e)) (.refl _) life
  refine ⟨hdecays, fun hrdp => ?_, fun hclear => ?_, run_preserved⟩
  · rcases hdecays .rdp with hkept | herased
    · rw [← hkept, hrdp]
    · rw [herased] at hrdp
      exact absurd hrdp (by decide)
  · refine StepSystem.run_invariant (fun q : Retained => q.options = p.options) ?_ rfl life
    intro q e hq
    rw [after_of_clear (hq ▸ hclear), hq]

end Retained

end Boots

end NovaBootloader
