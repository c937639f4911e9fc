import NovaBootloader.Exchange
import NovaBootloader.Protection

/-!
# How often the flash is written

A page lasts for a number of erase cycles, and a half-word can be programmed once after each. The
credit of a state is what it can still ask of the flash without another DNLOAD: a command waits to
be executed, or a buffer waits to be programmed. Only an accepted DNLOAD adds to it.
-/

namespace NovaBootloader
open ByteMemory FlashHw

namespace FlashEvent

def isPageErase : FlashEvent → Bool
  | .pageErase _ => true
  | _ => false

def isStore : FlashEvent → Bool
  | .store _ _ _ => true
  | _ => false

end FlashEvent

section Logs

theorem countP_eraseLog (p : FlashEvent → Bool) (hcall : ∀ a, p (.eraseCall a) = false)
    (a : UInt32) : (eraseLog a).countP p ≤ 1 := by
  unfold eraseLog
  rw [List.countP_cons_of_neg (by simp [hcall])]
  split_ifs
  · exact List.countP_le_length
  · exact Nat.zero_le 1

theorem isStore_eraseLog (a : UInt32) : (eraseLog a).countP FlashEvent.isStore = 0 := by
  unfold eraseLog
  split_ifs <;> rfl

theorem length_halfwordStores (data : ℕ → UInt8) (len i dst count : ℕ) :
    (halfwordStores data len i dst count).length = count := by
  unfold halfwordStores
  rw [List.length_map, List.length_range]

theorem isPageErase_writeLog (a : UInt32) (data : ℕ → UInt8) (len : ℕ) (h : FlashHw) :
    (writeLog a data len h).countP FlashEvent.isPageErase = 0 := by
  rw [List.countP_eq_zero]
  intro ev hev herase
  rcases List.mem_cons.mp hev with rfl | hev
  · cases herase
  · split_ifs at hev
    · obtain ⟨k, -, rfl⟩ := mem_halfwordStores hev
      cases herase
    · cases hev

theorem isStore_writeLog (a : UInt32) (data : ℕ → UInt8) (len : ℕ) (h : FlashHw) :
    (writeLog a data len h).countP FlashEvent.isStore ≤ (len + 1) / 2 := by
  unfold writeLog
  rw [List.countP_cons_of_neg (by simp [FlashEvent.isStore])]
  split_ifs
  · refine le_trans List.countP_le_length ?_
    rw [length_halfwordStores]
    exact Nat.min_le_left _ _
  · exact Nat.zero_le _

end Logs

def paid (price : SetupPacket → ℕ) (c : Core) (e : UsbEvent) : ℕ :=
  match e.setup? with
  | some p => if Accepts p c.dfu then price p else 0
  | none => 0

/-- A page erase per block 0. -/
def erasePrice (p : SetupPacket) : ℕ := if p.wValue = 0 then 1 else 0

/-- The half-words of a full buffer per block: a host can send more than it announces. -/
def storePrice (_ : SetupPacket) : ℕ := dfuXferSize / 2

namespace Dfu

/-- A command waits to be executed, or to be completed. -/
def eraseCredit (d : Dfu) : ℕ :=
  if d.cmdPending ≠ 0 ∨ d.Downloading ∧ d.blockNum = 0 then 1 else 0

def storeCredit (d : Dfu) : ℕ := if d.Downloading then dfuXferSize / 2 else 0

theorem eraseCredit_le_one (d : Dfu) : d.eraseCredit ≤ 1 := by
  unfold eraseCredit
  split_ifs
  · exact le_rfl
  · exact Nat.zero_le 1

theorem eraseCredit_accept_le (d : Dfu) (p : SetupPacket) :
    (d.accept p.wValue.toNat p.wLength.toNat).eraseCredit ≤ d.eraseCredit + erasePrice p := by
  unfold erasePrice
  by_cases hblock : p.wValue = 0
  · rw [if_pos hblock]
    exact le_trans (eraseCredit_le_one _) (Nat.le_add_left 1 _)
  · have hne : p.wValue.toNat ≠ 0 := fun h => hblock (UInt16.toNat_inj.mp h)
    rw [if_neg hblock, Nat.add_zero]
    by_cases hcmd : d.cmdPending ≠ 0
    · have hone : d.eraseCredit = 1 := if_pos (Or.inl hcmd)
      rw [hone]
      exact eraseCredit_le_one _
    · refine le_trans (le_of_eq (if_neg ?_)) (Nat.zero_le _)
      exact not_or.mpr ⟨hcmd, fun h => hne h.2⟩

/-- Nothing new is asked of the flash. -/
structure Relaxes (d d' : Dfu) : Prop where
  pending : d'.cmdPending ≠ 0 → d.cmdPending ≠ 0 ∨ d.Downloading ∧ d.blockNum = 0
  downloading : d'.Downloading → d.Downloading ∧ d'.blockNum = d.blockNum

namespace Relaxes

variable {d d' : Dfu}

theorem refl (d : Dfu) : d.Relaxes d := ⟨Or.inl, fun h => ⟨h, rfl⟩⟩

theorem of_not_downloading (hcmd : d'.cmdPending ≠ 0 → d.cmdPending ≠ 0)
    (hsync : d'.state ≠ .dnloadSync) (hbusy : d'.state ≠ .dnbusy) : d.Relaxes d' :=
  ⟨fun hne => Or.inl (hcmd hne), fun hd => absurd hd (not_or.mpr ⟨hsync, hbusy⟩)⟩

theorem eraseCredit_le (h : d.Relaxes d') : d'.eraseCredit ≤ d.eraseCredit := by
  unfold eraseCredit
  by_cases hd : d'.cmdPending ≠ 0 ∨ d'.Downloading ∧ d'.blockNum = 0
  · rw [if_pos hd, if_pos]
    rcases hd with hcmd | ⟨hdown, hblock⟩
    · exact h.pending hcmd
    · obtain ⟨hdown', heq⟩ := h.downloading hdown
      exact Or.inr ⟨hdown', heq ▸ hblock⟩
  · rw [if_neg hd]
    exact Nat.zero_le _

theorem storeCredit_le (h : d.Relaxes d') : d'.storeCredit ≤ d.storeCredit := by
  unfold storeCredit
  by_cases hd : d'.Downloading
  · rw [if_pos hd, if_pos (h.downloading hd).1]
  · rw [if_neg hd]
    exact Nat.zero_le _

end Relaxes

end Dfu

/-- Only an accepted DNLOAD asks for something new, and only an attempt spends what is there. -/
theorem coreStep_relaxes {c : Core} {e : UsbEvent} (hexec : ¬ Executes c e)
    (hacc : ∀ p ∈ e.setup?, ¬ Accepts p c.dfu) : c.dfu.Relaxes (coreStep c e).dfu := by
  rcases e with _ | _ | ⟨_ | (p | d), tx⟩
  · exact .refl _
  · exact .of_not_downloading (fun hne => absurd rfl hne) DfuState.noConfusion
      DfuState.noConfusion
  · exact .refl _
  · have heff := request_effect p c
    rw [coreStep]
    generalize (Machine.request p c).1 = c' at heff
    cases heff with
    | none => exact .refl _
    | sync hp hs => exact ⟨Or.inl, fun _ => ⟨Or.inl hs, rfl⟩⟩
    | attempt hatt => exact absurd ⟨p, rfl, hatt⟩ hexec
    | accept ha => exact absurd ha (hacc p rfl)
    | upload hp hs state hstate =>
      rcases hstate with rfl | rfl <;>
        exact .of_not_downloading id DfuState.noConfusion DfuState.noConfusion
    | abort =>
      exact .of_not_downloading (fun hne => absurd rfl hne) DfuState.noConfusion
        DfuState.noConfusion
    | _ => exact .of_not_downloading id DfuState.noConfusion DfuState.noConfusion
  · rw [coreStep]
    split_ifs with hdata
    · refine ⟨fun hne => ?_, fun _ => ⟨Or.inl hdata.1, dataStage_blockNum _ _ _⟩⟩
      rcases Exchange.dataStage_cmdPending _ _ _ hne with hcmd | hblock
      · exact Or.inl hcmd
      · exact Or.inr ⟨Or.inl hdata.1, hblock⟩
    · exact .refl _

theorem coreStep_of_accepts {c : Core} {e : UsbEvent} {p : SetupPacket} (hp : p ∈ e.setup?)
    (hacc : Accepts p c.dfu) :
    coreStep c e = { c with dfu := c.dfu.accept p.wValue.toNat p.wLength.toNat } := by
  rcases e with _ | _ | ⟨_ | (q | d), tx⟩
  · cases hp
  · cases hp
  · cases hp
  · obtain rfl : q = p := Option.some.inj hp
    rw [coreStep, request_of_accepts hacc]
  · cases hp

section Attempts

variable {c : Core}

theorem executePending_not_downloading (c : Core) : ¬ (executePending c).dfu.Downloading := by
  unfold Dfu.Downloading
  rcases executePending_state c with hs | hs <;> simp [hs]

theorem attempt_erases (c : Core) : (attemptLog c).countP FlashEvent.isPageErase +
    (executePending c).dfu.eraseCredit ≤ c.dfu.eraseCredit := by
  have hspent : (executePending c).dfu.eraseCredit = 0 := by
    unfold Dfu.eraseCredit
    exact if_neg (not_or.mpr ⟨not_not.mpr (executePending_cmdPending c),
      fun h => executePending_not_downloading c h.1⟩)
  rw [hspent, Nat.add_zero]
  unfold attemptLog
  by_cases hcmd : c.dfu.cmdPending ≠ 0
  · rw [if_pos hcmd, Dfu.eraseCredit, if_pos (Or.inl hcmd)]
    split_ifs
    · exact countP_eraseLog _ (fun _ => rfl) _
    · exact Nat.zero_le 1
  · rw [if_neg hcmd]
    split_ifs
    · rw [isPageErase_writeLog]
      exact Nat.zero_le _
    · exact Nat.zero_le _

theorem attempt_stores (hlen : c.dfu.bufferLen ≤ dfuXferSize) (hd : c.dfu.Downloading) :
    (attemptLog c).countP FlashEvent.isStore + (executePending c).dfu.storeCredit ≤
      c.dfu.storeCredit := by
  have hsize : dfuXferSize = 1024 := rfl
  rw [Dfu.storeCredit, Dfu.storeCredit, if_neg (executePending_not_downloading c), if_pos hd,
    Nat.add_zero]
  unfold attemptLog
  split_ifs
  · rw [isStore_eraseLog]
    exact Nat.zero_le _
  · exact Nat.zero_le _
  · refine le_trans (isStore_writeLog _ _ _ _) ?_
    omega
  · exact Nat.zero_le _

end Attempts

theorem coreStep_spends (credit : Dfu → ℕ) (price : SetupPacket → ℕ) (p : FlashEvent → Bool)
    (hrelax : ∀ d d' : Dfu, d.Relaxes d' → credit d' ≤ credit d)
    (hattempt : ∀ c : Core, c.dfu.Consistent → c.dfu.Downloading →
      (attemptLog c).countP p + credit (executePending c).dfu ≤ credit c.dfu)
    (haccept : ∀ (d : Dfu) (q : SetupPacket),
      credit (d.accept q.wValue.toNat q.wLength.toNat) ≤ credit d + price q)
    {c : Core} (hc : c.dfu.Consistent) (e : UsbEvent) :
    (eventLog c e).countP p + credit (coreStep c e).dfu ≤ credit c.dfu + paid price c e := by
  by_cases hexec : Executes c e
  · rw [eventLog, if_pos hexec, coreStep_of_executes hexec]
    exact le_trans (hattempt c hc hexec.downloading) (Nat.le_add_right _ _)
  · rw [eventLog, if_neg hexec, List.countP_nil, Nat.zero_add]
    by_cases hacc : ∃ q ∈ e.setup?, Accepts q c.dfu
    · obtain ⟨q, hq, hq'⟩ := hacc
      have hpaid : paid price c e = price q := by
        unfold paid
        rw [Option.mem_def.mp hq]
        exact if_pos hq'
      rw [hpaid, coreStep_of_accepts hq hq']
      exact haccept c.dfu q
    · refine le_trans (hrelax _ _ (coreStep_relaxes hexec fun q hq hq' => hacc ⟨q, hq, hq'⟩)) ?_
      exact Nat.le_add_right _ _

namespace Machine

theorem run_spends (credit : Dfu → ℕ) (price : SetupPacket → ℕ) (p : FlashEvent → Bool)
    (hspends : ∀ c : Core, c.dfu.Consistent → ∀ e, (eventLog c e).countP p +
      credit (coreStep c e).dfu ≤ credit c.dfu + paid price c e)
    (mem : ℕ → UInt8) (faults : ℕ → Fault) (hcredit : credit (start mem faults).core.dfu = 0)
    (es : List UsbEvent) :
    ((start mem faults).run es).core.flash.log.countP p ≤
      StepSystem.total step (fun s => paid price s.core) (start mem faults) es := by
  have hcount := StepSystem.countP_log (fun s : Machine => s.core.flash.log) p Stable
    (fun s e => eventLog s.core e) (fun _ e h => h.step e) (fun _ e h => h.step_log e)
    (start_stable mem faults) es
  have htotal := StepSystem.total_le_of_credit (fun s : Machine => credit s.core.dfu)
    (fun s e => (eventLog s.core e).countP p) (fun s => paid price s.core) Stable
    (fun _ e h => h.step e)
    (fun s e h => by rw [step_core h.quiet]; exact hspends s.core h.consistent e)
    (start_stable mem faults) es
  rw [hcredit, Nat.zero_add] at htotal
  refine le_trans hcount.le ?_
  rw [show (start mem faults).core.flash.log = [] from rfl, List.countP_nil, Nat.zero_add]
  exact le_trans (Nat.le_add_right _ _) htotal

/-- In every run, under any hardware errors and however often the host polls, retries or gives up,
the flash is worn no further than the accepted DNLOADs pay for: one page erase for a block 0, and
the 512 half-words of a full buffer for any block. -/
theorem wear_bounded (mem : ℕ → UInt8) (faults : ℕ → Fault) (es : List UsbEvent) :
    let log := ((start mem faults).run es).core.flash.log
    log.countP FlashEvent.isPageErase ≤
        StepSystem.total step (fun s => paid erasePrice s.core) (start mem faults) es ∧
      log.countP FlashEvent.isStore ≤
        StepSystem.total step (fun s => paid storePrice s.core) (start mem faults) es := by
  constructor
  · exact run_spends Dfu.eraseCredit erasePrice FlashEvent.isPageErase
      (fun c hc e => coreStep_spends _ _ _ (fun _ _ h => h.eraseCredit_le)
        (fun c _ _ => attempt_erases c) Dfu.eraseCredit_accept_le hc e) mem faults rfl es
  · refine run_spends Dfu.storeCredit storePrice FlashEvent.isStore
      (fun c hc e => coreStep_spends _ _ _ (fun _ _ h => h.storeCredit_le)
        (fun c hc hd => attempt_stores hc.bufferLen_le hd) (fun d q => ?_) hc e) mem faults rfl es
    unfold Dfu.storeCredit storePrice
    split_ifs <;> omega

end Machine

end NovaBootloader
