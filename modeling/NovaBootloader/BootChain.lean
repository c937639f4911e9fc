import NovaBootloader.Boot

/-!
# One boot after another

A reset keeps the magic word and the option bytes and nothing else of the board. What flash holds,
the button, the clock flags and the hardware's answers are different at every boot. A boot that ends
in a reset because write protection was lifted is followed by one that finds it lifted.
-/

namespace NovaBootloader
open ByteMemory

/-- What a reset leaves alone. -/
structure Retained where
  magic : UInt32
  options : OptionBytes

/-- What a boot meets, and the USB events up to the next reset if it comes to DFU mode. -/
structure BootInput where
  mem : ℕ → UInt8
  faults : ℕ → Fault
  takes : ℕ → Bool
  gpiocIdr : UInt32
  polls : ℕ → RccFlags
  events : List UsbEvent

namespace Board

def retained (b : Board) : Retained := ⟨b.magic, b.options.bytes⟩

def afterDfu (es : List UsbEvent) (s : Machine) (b : Board) : Board :=
  { b with options := { b.options with flash := (s.run es).core.flash } }

end Board

namespace Retained

def board (p : Retained) (i : BootInput) : Board where
  options := OptionHw.powerOn i.mem p.options i.faults i.takes
  magic := p.magic
  gpiocIdr := i.gpiocIdr
  rcc := Rcc.reset i.polls

def boot (cfg : BuildConfig) (p : Retained) (i : BootInput) : Board × BootEnd := (p.board i).main cfg

/-- What a boot and the reset after it leave. -/
def next (cfg : BuildConfig) (p : Retained) (i : BootInput) : Retained :=
  match p.boot cfg i with
  | (b, .dfu s) => (b.afterDfu i.events s).retained
  | (b, _) => b.retained

variable (cfg : BuildConfig)

theorem next_eq (p : Retained) (i : BootInput) : p.next cfg i = (p.boot cfg i).1.retained := by
  unfold next
  rcases p.boot cfg i with ⟨b, _ | _ | _ | s⟩ <;> rfl

end Retained

namespace Board

variable {cfg : BuildConfig} {b : Board}

theorem bootAppOrStop_fst (b : Board) : b.bootAppOrStop.1 = b := by
  unfold bootAppOrStop
  split_ifs <;> rfl

theorem bootAppOrStop_ne_reset (b : Board) : b.bootAppOrStop.2 ≠ .reset := by
  rw [bootAppOrStop_end]
  split_ifs <;> exact BootEnd.noConfusion

/-- `run_dfu_mode` asks for a reset only in the 72 MHz build, over option bytes without write
protection, and with the request for DFU mode renewed. -/
theorem runDfuMode_reset (h : (b.runDfuMode cfg).2 = .reset) : cfg.use120MHz = false ∧
    (b.runDfuMode cfg).1.magic = dfuMagicValue ∧
    wrpIsClear (b.runDfuMode cfg).1.options.bytes = true := by
  unfold runDfuMode at h ⊢
  by_cases hcfg : cfg.use120MHz = true
  · rw [if_pos hcfg] at h
    exact absurd h (bootAppOrStop_ne_reset _)
  rw [if_neg hcfg] at h ⊢
  by_cases hclock : (clockInit cfg b.rcc).2 = 0
  · rw [if_pos hclock] at h
    exact absurd h (bootAppOrStop_ne_reset _)
  rw [if_neg hclock] at h ⊢
  by_cases hwrp : (flashDisableWriteProtection b.options).2 ≠ 0
  · dsimp only
    rw [if_pos hwrp]
    exact ⟨by simpa using hcfg, rfl, wrpIsClear_of_ne_zero hwrp⟩
  · dsimp only at h
    rw [if_neg hwrp] at h
    exact BootEnd.noConfusion h

theorem runDfuMode_of_clear (h : wrpIsClear b.options.bytes = true) :
    (b.runDfuMode cfg).2 ≠ .reset ∧ (b.runDfuMode cfg).1.retained = b.retained := by
  unfold runDfuMode
  rw [flashDisableWriteProtection_of_clear h]
  have hstay := congrArg retained (bootAppOrStop_fst (b.startClock cfg))
  split_ifs
  · exact ⟨bootAppOrStop_ne_reset _, hstay⟩
  · exact ⟨bootAppOrStop_ne_reset _, hstay⟩
  · exact ⟨BootEnd.noConfusion, rfl⟩

theorem main_reset (h : (b.main cfg).2 = .reset) : cfg.use120MHz = false ∧
    (b.main cfg).1.magic = dfuMagicValue ∧ wrpIsClear (b.main cfg).1.options.bytes = true := by
  cases henter : b.entersDfu with
  | false =>
    rw [main_of_not_entersDfu cfg b henter] at h
    exact BootEnd.noConfusion h
  | true =>
    rw [main_of_entersDfu cfg b henter] at h ⊢
    exact runDfuMode_reset h

/-- Over option bytes without write protection a boot leaves them alone and does not ask for a
reset; it consumes the magic word. -/
theorem main_of_clear (h : wrpIsClear b.options.bytes = true) : (b.main cfg).2 ≠ .reset ∧
    (b.main cfg).1.retained =
      ⟨if magicRamSet b.magic then 0 else b.magic, b.options.bytes⟩ := by
  cases henter : b.entersDfu with
  | false =>
    have hmagic : magicRamSet b.magic = false := by
      simp only [entersDfu, Bool.or_eq_false_iff] at henter
      exact henter.1.2
    rw [main_of_not_entersDfu cfg b henter, hmagic]
    exact ⟨BootEnd.noConfusion, rfl⟩
  | true =>
    rw [main_of_entersDfu cfg b henter]
    by_cases hmagic : magicRamSet b.magic = true
    · rw [if_pos hmagic, if_pos hmagic]
      exact runDfuMode_of_clear (b := { b with magic := 0 }) h
    · rw [if_neg hmagic, if_neg hmagic]
      exact runDfuMode_of_clear h

end Board

namespace Retained

variable (cfg : BuildConfig)

/-- Nothing is left of write protection or of a request for DFU mode. -/
structure Settled (p : Retained) : Prop where
  wrp : wrpIsClear p.options = true
  magic : p.magic = 0

theorem next_of_clear {p : Retained} (h : wrpIsClear p.options = true) (i : BootInput) :
    (p.boot cfg i).2 ≠ .reset ∧
      p.next cfg i = ⟨if magicRamSet p.magic then 0 else p.magic, p.options⟩ := by
  rw [next_eq]
  exact Board.main_of_clear (b := p.board i) h

theorem Settled.next {p : Retained} (h : p.Settled) (i : BootInput) : (p.next cfg i).Settled := by
  rw [(next_of_clear cfg h.wrp i).2, h.magic]
  exact ⟨h.wrp, rfl⟩

/-- With the button released, a settled board boots a plausible application. -/
theorem Settled.jumps {p : Retained} (h : p.Settled) {i : BootInput}
    (hf1 : f1ButtonPressed i.gpiocIdr = false) (happ : appValid i.mem = true) :
    (p.boot cfg i).2 = .jump (appSp i.mem) (appReset i.mem) := by
  have henter : (p.board i).entersDfu = false := by
    change (f1ButtonPressed i.gpiocIdr || magicRamSet p.magic || !appValid i.mem) = false
    rw [hf1, happ, h.magic]
    rfl
  exact congrArg Prod.snd (Board.main_of_not_entersDfu cfg (p.board i) henter)

/-- After a reset that lifted write protection no boot asks for another one. If the clock starts,
the next boot reaches DFU mode whatever the button and the application are, and from then on the
magic word stays clear and a boot with the button released runs a plausible application. -/
theorem protection_lifted_once (p : Retained) (i : BootInput) (h : (p.boot cfg i).2 = .reset) :
    (∀ js, StepSystem.Along (next cfg) (fun p j => (p.boot cfg j).2 ≠ .reset) (p.next cfg i) js) ∧
      ∀ j, (clockInit cfg (Rcc.reset j.polls)).2 ≠ 0 →
        (∃ s, ((p.next cfg i).boot cfg j).2 = .dfu s) ∧
        ((p.next cfg i).boot cfg j).1.magic = 0 ∧
        ∀ ks, (StepSystem.run (next cfg) ((p.next cfg i).next cfg j) ks).magic = 0 ∧
          ∀ k, f1ButtonPressed k.gpiocIdr = false → appValid k.mem = true →
            ((StepSystem.run (next cfg) ((p.next cfg i).next cfg j) ks).boot cfg k).2 =
              .jump (appSp k.mem) (appReset k.mem) := by
  obtain ⟨h72, hmagic, hbytes⟩ := Board.main_reset h
  have hnext : p.next cfg i = ⟨dfuMagicValue, (p.next cfg i).options⟩ := by
    rw [next_eq]
    exact congrArg (Retained.mk · _) hmagic
  have hclear : wrpIsClear (p.next cfg i).options = true := by
    rw [next_eq]
    exact hbytes
  generalize p.next cfg i = q at hnext hclear
  have hjs (js : List BootInput) :
      StepSystem.Along (next cfg) (fun p j => (p.boot cfg j).2 ≠ .reset) q js :=
    StepSystem.along_of_run_invariant (fun p : Retained => wrpIsClear p.options = true)
      (fun p j hp => by rwa [(next_of_clear cfg hp j).2])
      (fun p j hp => (next_of_clear cfg hp j).1) hclear js
  refine ⟨hjs, fun j hclock => ?_⟩
  have hset : magicRamSet q.magic = true := by
    rw [hnext]
    rfl
  have hq : (q.next cfg j).Settled := by
    rw [(next_of_clear cfg hclear j).2, if_pos hset]
    exact ⟨hclear, rfl⟩
  have hrun (ks : List BootInput) : (StepSystem.run (next cfg) (q.next cfg j) ks).Settled :=
    StepSystem.run_invariant Settled (fun _ k hp => hp.next cfg k) hq ks
  refine ⟨?_, ?_, fun ks => ⟨(hrun ks).magic, fun k hf1 happ => (hrun ks).jumps cfg hf1 happ⟩⟩
  · have henter : (q.board j).entersDfu = true := by
      change (f1ButtonPressed j.gpiocIdr || magicRamSet q.magic || !appValid j.mem) = true
      rw [hset, Bool.or_true, Bool.true_or]
    have hgranted : ¬ (cfg.use120MHz = true ∨ (clockInit cfg (q.board j).rcc).2 = 0) :=
      not_or.mpr ⟨by simp [h72], hclock⟩
    have hwrp : flashDisableWriteProtection (q.board j).options = ((q.board j).options, 0) :=
      flashDisableWriteProtection_of_clear hclear
    have hend := Board.main_end cfg (q.board j)
    rw [if_pos henter, if_neg hgranted, hwrp, if_neg (not_not.mpr rfl)] at hend
    exact ⟨_, hend⟩
  · rw [next_eq] at hq
    exact hq.magic

def protectedPage : Retained := ⟨0, fun ob => if ob = .wrp0 then 0xFF00 else 0x00FF⟩

def plausibleBoot (gpiocIdr : UInt32) : BootInput where
  mem := overwrite (fun _ => 0xFF) 0x08003000 8 (ofList (bytes32 0x20001000 ++ bytes32 0x08003101))
  faults := fun _ => Fault.none
  takes := fun _ => true
  gpiocIdr := gpiocIdr
  polls := fun _ => ⟨true, true, 2⟩
  events := []

theorem protected_page_lifted :
    ∃ s, ((protectedPage.next ⟨false, false⟩ (plausibleBoot 0)).boot ⟨false, false⟩
      (plausibleBoot f1ButtonPin)).2 = .dfu s := by
  have h := protection_lifted_once ⟨false, false⟩ protectedPage (plausibleBoot 0) (by rfl)
  exact (h.2 (plausibleBoot f1ButtonPin) (by decide +kernel)).1

end Retained

end NovaBootloader
