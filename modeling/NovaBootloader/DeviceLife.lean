import NovaBootloader.OptionLifetime
import NovaBootloader.PowerCut

/-!
# The life of a device

What a device keeps are its flash, its option bytes and, unless power is lost, the magic word. Boots,
updates cut short by a reset or a power loss and runs of an application follow one another in any
order. The bootloader's own pages come through all of it, so F1 always leads back to DFU mode, and
an update from there to a new application.
-/

namespace NovaBootloader
open ByteMemory FlashArray

section Flash

/-- The accesses of the option bytes leave the flash alone while `PER` is clear. -/
def OptionHw.SameFlash (w w' : OptionHw) : Prop :=
  w'.flash.mem = w.flash.mem ∧ w'.flash.faults = w.flash.faults ∧ w'.flash.cr.per = false

theorem OptionAccess.apply_sameFlash {w w' : OptionHw} (h : w.SameFlash w') (a : OptionAccess) :
    w.SameFlash (a.apply w') := by
  have hmodify (f : FlashCr → FlashCr) (hf : ∀ cr : FlashCr, (f cr).per = cr.per) :
      w.SameFlash (w'.modifyCr f) := by
    unfold OptionHw.modifyCr OptionHw.onFlash FlashHw.modifyCr
    split_ifs
    · exact h
    · exact ⟨h.1, h.2.1, (hf _).trans h.2.2⟩
  cases a with
  | unlock =>
    obtain ⟨keyed, hu⟩ := flashUnlock_eq w'.flash
    change w.SameFlash { w' with flash := flashUnlock w'.flash }
    rw [hu]
    exact h
  | wait => exact h
  | optkeyr key =>
    change w.SameFlash (w'.writeOptkeyr key)
    unfold OptionHw.SameFlash
    rw [OptionHw.writeOptkeyr_flash]
    exact h
  | clearErrors => exact h
  | opter on => exact hmodify _ fun _ => rfl
  | start =>
    have hidle : FlashHw.start w'.flash = w'.flash := by
      unfold FlashHw.start
      rw [h.2.2, Bool.not_false, Bool.or_true, if_pos rfl]
    change w.SameFlash w'.start
    unfold OptionHw.start OptionHw.onFlash
    split_ifs
    · rw [hidle]
      exact h
    · exact h
  | optpg on => exact hmodify _ fun _ => rfl
  | program ob value =>
    change w.SameFlash (w'.program ob value)
    unfold OptionHw.program
    split_ifs <;> exact h
  | lock => exact hmodify _ fun _ => rfl

theorem flashDisableWriteProtection_sameFlash {w : OptionHw} (h : w.flash.cr.per = false) :
    w.SameFlash (flashDisableWriteProtection w).1 := by
  rw [← OptionHw.access_protectionAccesses]
  exact StepSystem.run_invariant w.SameFlash (fun _ a hw => OptionAccess.apply_sameFlash hw a)
    ⟨rfl, rfl, h⟩ _

variable {cfg : BuildConfig}

theorem Board.runDfuMode_sameFlash {b : Board} (h : b.options.flash.cr.per = false) :
    b.options.SameFlash (b.runDfuMode cfg).1.options := by
  have hstay : b.options.SameFlash (b.startClock cfg).bootAppOrStop.1.options := by
    rw [bootAppOrStop_fst]
    exact ⟨rfl, rfl, h⟩
  have hdisabled := flashDisableWriteProtection_sameFlash h
  unfold runDfuMode
  dsimp only
  split_ifs
  · exact hstay
  · exact hstay
  · exact hdisabled
  · exact hdisabled

theorem Board.main_sameFlash {b : Board} (h : b.options.flash.cr.per = false) :
    b.options.SameFlash (b.main cfg).1.options := by
  cases henter : b.entersDfu with
  | false =>
    rw [main_of_not_entersDfu cfg b henter]
    exact ⟨rfl, rfl, h⟩
  | true =>
    rw [main_of_entersDfu cfg b henter]
    split_ifs
    · exact runDfuMode_sameFlash (b := { b with magic := 0 }) h
    · exact runDfuMode_sameFlash h

end Flash

section Stay

/-- Nothing has changed below the application region, nor above the first byte behind it. -/
def KeepsOutside (mem m : ℕ → UInt8) : Prop := ∀ x, x < 0x08003000 ∨ 0x0803F800 < x → m x = mem x

theorem KeepsOutside.apply {mem : ℕ → UInt8} {x : FlashArray} (h : KeepsOutside mem x.mem)
    {faults : ℕ → Fault} {ev : FlashEvent} {c : Core} (hev : ev ∈ attemptLog c) :
    KeepsOutside mem (x.apply faults ev).mem := by
  intro y hy
  rw [x.apply_of_not_touches fun htouch => ?_]
  · exact h y hy
  · have hlo : appFlashStart.toNat = 0x08003000 := rfl
    have hhi : appFlashEnd.toNat = 0x0803F7FF := rfl
    have hin := attemptLog_touches hev htouch
    omega

namespace Machine

theorem Stable.step_passes {s : Machine} (hs : s.Stable) {mem : ℕ → UInt8}
    (h : KeepsOutside mem s.core.flash.mem) (e : UsbEvent) :
    Passes (KeepsOutside mem) s.core (s.step e).core := by
  have hstep := coreStep_array hs.consistent e
  rw [← step_core hs.quiet] at hstep
  refine ⟨eventLog s.core e, hs.step_log e, hstep.1, hstep.2, fun k => ?_⟩
  refine FlashArray.replay_take_invariant (fun ev hev x hx => ?_) h k
  unfold eventLog at hev
  split_ifs at hev
  · exact hx.apply hev
  · exact absurd hev List.not_mem_nil

theorem startOn_stable (hw : FlashHw) : (startOn hw).Stable :=
  ⟨startOn_quiet hw, (Update.startOn_ready hw).consistent⟩

end Machine

/-- The main loop of DFU mode keeps to the application region at every operation. -/
theorem DfuLoop.run_passes (hw : FlashHw) (es : List UsbEvent) :
    Passes (KeepsOutside hw.mem) (Machine.startOn hw).core
      (StepSystem.run DfuLoop.step ⟨Machine.startOn hw, 0, false⟩ es).machine.core := by
  refine (StepSystem.run_invariant (fun l : DfuLoop => l.machine.Stable ∧
    Passes (KeepsOutside hw.mem) (Machine.startOn hw).core l.machine.core) ?_ ?_ es).2
  · rintro l e ⟨hs, hpasses⟩
    cases hr : l.resetting with
    | true =>
      rw [step_of_resetting hr]
      exact ⟨hs, hpasses⟩
    | false =>
      rw [step_machine hr]
      exact ⟨hs.step e, hpasses.trans (hs.step_passes hpasses.mem_end e)⟩
  · exact ⟨Machine.startOn_stable hw, .of_flash_eq rfl fun _ _ => rfl⟩

end Stay

/-- A device as it is between two boots. -/
structure Persistent where
  retained : Retained
  mem : ℕ → UInt8

/-- A stretch of a device's life: a boot up to the next reset; a boot that loses power, after some
accesses of `flash_disable_write_protection` or after some operations of DFU mode on the flash, and
leaves anything in RAM; or an application, which keeps off the bootloader's pages and nothing else. -/
inductive Stretch where
  | reset (i : BootInput)
  | powerLoss (i : BootInput) (accesses operations : ℕ) (magic : UInt32)
  | application (p : Retained) (mem : ℕ → UInt8)

namespace Persistent

variable (cfg : BuildConfig) (d : Persistent)

def found (i : BootInput) : BootInput := { i with mem := d.mem }

def boot (i : BootInput) : Board × BootEnd := d.retained.boot cfg (d.found i)

def flashAtReset (i : BootInput) : ℕ → UInt8 :=
  match (d.boot cfg i).2 with
  | .dfu s => (StepSystem.run DfuLoop.step ⟨s, 0, false⟩ i.events).machine.core.flash.mem
  | _ => d.mem

def flashCutShort (i : BootInput) (n : ℕ) : ℕ → UInt8 :=
  match (d.boot cfg i).2 with
  | .dfu s =>
    let h := (StepSystem.run DfuLoop.step ⟨s, 0, false⟩ i.events).machine.core.flash
    (s.core.flash.array.replay s.core.flash.faults
      ((h.log.drop s.core.flash.log.length).take n)).mem
  | _ => d.mem

def after : Stretch → Persistent
  | .reset i => ⟨d.retained.after cfg (.reset (d.found i)), d.flashAtReset cfg i⟩
  | .powerLoss i k n magic =>
    { retained := d.retained.after cfg (.powerLoss (d.found i) k magic)
      mem := if k < (protectionAccesses d.retained.options).length then d.mem
        else d.flashCutShort cfg i n }
  | .application p mem => ⟨p, fun x => if x < 0x08003000 then d.mem x else mem x⟩

variable {cfg d}

theorem boot_dfu {i : BootInput} {s : Machine} (h : (d.boot cfg i).2 = .dfu s) :
    ∃ hw : FlashHw, s = Machine.startOn hw ∧ hw.mem = d.mem ∧ hw.faults = i.faults := by
  obtain ⟨hmem, hfaults, -⟩ :=
    @Board.main_sameFlash cfg (d.retained.board (d.found i)) rfl
  exact ⟨_, (Board.main_dfu h).1, hmem, hfaults⟩

theorem flashAtReset_keeps (i : BootInput) : KeepsOutside d.mem (d.flashAtReset cfg i) := by
  unfold flashAtReset
  cases h : (d.boot cfg i).2 with
  | dfu s =>
    obtain ⟨hw, rfl, hmem, -⟩ := boot_dfu h
    rw [← hmem]
    exact (DfuLoop.run_passes hw i.events).mem_end
  | _ => exact fun _ _ => rfl

theorem flashCutShort_keeps (i : BootInput) (n : ℕ) :
    KeepsOutside d.mem (d.flashCutShort cfg i n) := by
  unfold flashCutShort
  cases h : (d.boot cfg i).2 with
  | dfu s =>
    obtain ⟨hw, rfl, hmem, -⟩ := boot_dfu h
    obtain ⟨new, hlog, -, -, hkeeps⟩ := DfuLoop.run_passes hw i.events
    dsimp only
    rw [hlog, List.drop_left, ← hmem]
    exact hkeeps n
  | _ => exact fun _ _ => rfl

/-- No stretch reaches the bootloader's pages, and none but an application what lies behind the
application region. -/
theorem after_keeps (t : Stretch) : (∀ x < 0x08003000, (d.after cfg t).mem x = d.mem x) ∧
    ((∀ p mem, t ≠ .application p mem) → KeepsOutside d.mem (d.after cfg t).mem) := by
  have hbelow {m : ℕ → UInt8} (h : KeepsOutside d.mem m) :
      (∀ x < 0x08003000, m x = d.mem x) ∧
        ((∀ p mem, t ≠ .application p mem) → KeepsOutside d.mem m) :=
    ⟨fun x hx => h x (Or.inl hx), fun _ => h⟩
  cases t with
  | reset i => exact hbelow (flashAtReset_keeps i)
  | powerLoss i k n magic =>
    apply hbelow
    change KeepsOutside d.mem (if _ then d.mem else d.flashCutShort cfg i n)
    split_ifs
    · exact fun _ _ => rfl
    · exact flashCutShort_keeps i n
  | application p mem => exact ⟨fun x hx => if_pos hx, fun h => absurd rfl (h p mem)⟩

variable (cfg d)

/-- F1 is held over a crystal that starts and a flash that works. -/
structure Assisted (i : BootInput) : Prop where
  f1 : f1ButtonPressed i.gpiocIdr = true
  clock : (clockInit cfg (Rcc.reset i.polls)).2 ≠ 0
  works : ∀ k, (i.faults k).raised = false

/-- The boot comes to DFU mode, and whatever update of the application region the host carries out
there, it is told that every command succeeds and the next boot without F1 runs the image. -/
def TakesUpdate (i : BootInput) : Prop :=
  ∃ s, (d.boot cfg i).2 = .dfu s ∧ ∀ (image : Image) (u : Update image), image.Plausible →
    (∀ a ∈ u.plan.pages, flashIsAddressValid a = true) →
    StepSystem.outputs Machine.step Machine.reportedState s u.session =
        u.exchanges.flatMap (fun _ => successReports) ∧
      ∀ j, f1ButtonPressed j.gpiocIdr = false →
        ((d.after cfg (.reset { i with events := u.events })).boot cfg j).2 =
          .jump image.sp image.reset

variable {cfg d}

theorem takesUpdate_of_dfu {i : BootInput} {s : Machine} (h : (d.boot cfg i).2 = .dfu s)
    (hworks : ∀ k, (i.faults k).raised = false) : d.TakesUpdate cfg i := by
  obtain ⟨hw, rfl, -, hfaults⟩ := boot_dfu h
  have hfaultless : hw.Faultless := fun k => hfaults ▸ hworks k
  refine ⟨_, h, fun image u hplausible hpages => ?_⟩
  have hreported := u.reported_of_faultless hfaultless hpages
  refine ⟨hreported, fun j hf1 => ?_⟩
  have hboot : (d.boot cfg { i with events := u.events }).2 = .dfu (Machine.startOn hw) := h
  have hmagic : magicRamSet (d.after cfg (.reset { i with events := u.events })).retained.magic =
      false := by
    change magicRamSet (d.retained.next cfg (d.found { i with events := u.events })).magic = false
    rw [Retained.next_eq]
    exact (Board.main_dfu hboot).2
  have hmem : (d.after cfg (.reset { i with events := u.events })).mem =
      overwrite (erasedPages u.plan.pages hw.mem) 0x08003000 image.bytes.length
        (ofList image.bytes) := by
    change d.flashAtReset cfg { i with events := u.events } = _
    unfold flashAtReset
    rw [hboot]
    exact (u.loop_installs hw hreported).2
  exact Image.boot_runs hplausible hmagic hf1 hmem

/-- F1 leads to DFU mode, at once or after the reset that lifts write protection. -/
theorem assisted_takesUpdate (h72 : cfg.use120MHz = false) {i : BootInput} (hi : Assisted cfg i) :
    d.TakesUpdate cfg i ∨ (d.boot cfg i).2 = .reset ∧
      ∀ j, Assisted cfg j → (d.after cfg (.reset i)).TakesUpdate cfg j := by
  have henter : (d.retained.board (d.found i)).entersDfu = true := by
    change (f1ButtonPressed i.gpiocIdr || _ || _) = true
    rw [hi.f1, Bool.true_or, Bool.true_or]
  have hgranted : ¬ (cfg.use120MHz = true ∨
      (clockInit cfg (d.retained.board (d.found i)).rcc).2 = 0) :=
    not_or.mpr ⟨by simp [h72], hi.clock⟩
  have hend := Board.main_end cfg (d.retained.board (d.found i))
  rw [if_pos henter, if_neg hgranted] at hend
  change (d.boot cfg i).2 = _ at hend
  split_ifs at hend
  · refine Or.inr ⟨hend, fun j hj => ?_⟩
    obtain ⟨-, -, hclear⟩ := Board.main_reset hend
    have hnext : wrpIsClear (d.after cfg (.reset i)).retained.options = true := by
      change wrpIsClear (d.retained.next cfg (d.found i)).options = true
      rw [Retained.next_eq]
      exact hclear
    exact takesUpdate_of_dfu (Retained.boot_enters (Or.inl hj.f1) h72 hj.clock hnext) hj.works
  · exact Or.inl (takesUpdate_of_dfu hend hi.works)

/-- Whatever has happened to a device, boots, updates cut short anywhere and applications that keep
off the bootloader, the bootloader's pages are what they were, without an application the settings
page too but for its first byte, and with F1 held one boot, or the one after the reset that lifts
write protection, comes to DFU mode and takes any update. -/
theorem no_life_bricks (cfg : BuildConfig) (d : Persistent) (life : List Stretch) :
    let e := StepSystem.run (after cfg) d life
    (∀ x < 0x08003000, e.mem x = d.mem x) ∧
      ((∀ p mem, .application p mem ∉ life) → ∀ x, 0x0803F800 < x → e.mem x = d.mem x) ∧
      (cfg.use120MHz = false → ∀ i, Assisted cfg i → e.TakesUpdate cfg i ∨
        (e.boot cfg i).2 = .reset ∧
          ∀ j, Assisted cfg j → (e.after cfg (.reset i)).TakesUpdate cfg j) := by
  refine ⟨fun x hx => ?_, fun hnone x hx => ?_, fun h72 i hi => assisted_takesUpdate h72 hi⟩
  · refine StepSystem.run_invariant (fun e : Persistent => e.mem x = d.mem x) (fun e t he => ?_) rfl life
    rw [(after_keeps t).1 x hx, he]
  · refine StepSystem.run_invariant_of_mem (fun e : Persistent => e.mem x = d.mem x)
      (fun e t ht he => ?_) rfl
    rw [(after_keeps t).2 (fun p mem heq => hnone p mem (heq ▸ ht)) x (Or.inr hx), he]

section Example

def updateBoot : BootInput := { Retained.plausibleBoot 0 with events := tinyUpdate.events }

/-- An application, and an update that loses power after the erase of its first page. -/
def interruptedLife : List Stretch :=
  [.application ⟨0, fun _ => 0x00FF⟩ fun _ => 0x55, .powerLoss updateBoot 0 2 0x12345678]

def interrupted : Persistent :=
  StepSystem.run (after ⟨false, false⟩) ⟨⟨0, fun _ => 0x00FF⟩, fun _ => 0x33⟩ interruptedLife

theorem interrupted_update_recovers :
    interrupted.mem 0x08002FFF = 0x33 ∧ interrupted.mem 0x08003000 = 0xFF ∧
      ((interrupted.after ⟨false, false⟩ (.reset updateBoot)).boot ⟨false, false⟩
        (Retained.plausibleBoot f1ButtonPin)).2 = .jump tinyImage.sp tinyImage.reset := by
  have hassisted : Assisted ⟨false, false⟩ updateBoot := ⟨by decide, by decide +kernel, fun _ => rfl⟩
  obtain ⟨hkept, -, hupdate⟩ := no_life_bricks ⟨false, false⟩ ⟨⟨0, fun _ => 0x00FF⟩, fun _ => 0x33⟩
    interruptedLife
  have hclear : wrpIsClear interrupted.retained.options = true := by decide +kernel
  have henters := @Retained.boot_enters ⟨false, false⟩ interrupted.retained
    (interrupted.found updateBoot) (Or.inl hassisted.f1) rfl hassisted.clock hclear
  refine ⟨hkept 0x08002FFF (by decide), by decide +kernel, ?_⟩
  rcases hupdate rfl updateBoot hassisted with ⟨s, -, htakes⟩ | ⟨hreset, -⟩
  · obtain ⟨-, hjump⟩ := htakes tinyImage tinyUpdate (by decide) (List.forall_mem_singleton.mpr rfl)
    exact hjump (Retained.plausibleBoot f1ButtonPin) (by decide)
  · exact absurd (henters.symm.trans hreset) BootEnd.noConfusion

end Example

end Persistent

end NovaBootloader
