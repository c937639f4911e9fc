import NovaBootloader.FlashTrace
import NovaBootloader.OptionBytes

/-!
# The flash controller between two operations

Erase, write and the option-byte rebuild each unlock the controller, set mode bits by
read-modify-write and have their own ways out. Every one of them leaves the controller locked, idle
and with all mode bits clear, so no operation ever starts in a mode another one left behind.
-/

namespace NovaBootloader
open ByteMemory FlashHw

/-- Locked, and no mode bit left set. -/
structure FlashHw.Locked (h : FlashHw) : Prop where
  lock : h.cr.lock = true
  pg : h.cr.pg = false
  per : h.cr.per = false
  optpg : h.cr.optpg = false
  opter : h.cr.opter = false

/-- Locked, and no operation in progress. -/
structure FlashHw.Idle (h : FlashHw) : Prop extends h.Locked where
  bsy : h.sr.bsy = false

/-- A locked controller stays locked and an idle one idle. -/
structure FlashHw.Restores (h h' : FlashHw) : Prop where
  locked : h.Locked → h'.Locked
  bsy : h.sr.bsy = false → h'.sr.bsy = false

namespace FlashHw

variable {h h' h'' : FlashHw}

theorem Restores.idle (hr : h.Restores h') (hi : h.Idle) : h'.Idle :=
  ⟨hr.locked hi.toLocked, hr.bsy hi.bsy⟩

theorem Restores.rfl : h.Restores h := ⟨id, id⟩

theorem Restores.trans (hr : h.Restores h') (hr' : h'.Restores h'') : h.Restores h'' :=
  ⟨fun hl => hr'.locked (hr.locked hl), fun hb => hr'.bsy (hr.bsy hb)⟩

theorem restores_record (h : FlashHw) (e : FlashEvent) : h.Restores (h.record e) :=
  ⟨fun hl => ⟨hl.lock, hl.pg, hl.per, hl.optpg, hl.opter⟩, id⟩

@[simp] theorem flashLock_cr (h : FlashHw) : (flashLock h).cr = { h.cr with lock := true } := by
  unfold flashLock modifyCr
  split_ifs with hl
  · rw [← hl]
  · rfl

end FlashHw

theorem flashErasePage_restores (a : UInt32) (h : FlashHw) : h.Restores (flashErasePage a h).1 := by
  cases ha : flashIsAddressValid a with
  | false =>
    rw [flashErasePage_of_invalid h ha]
    exact restores_record h _
  | true =>
    obtain ⟨keyed, hu⟩ := flashUnlock_eq (h.record (.eraseCall a))
    unfold flashErasePage
    simp only [ha, Bool.not_true, Bool.false_eq_true, if_false, hu]
    simp only [flashWait, clearErrors, modifyCr, FlashHw.start, Bool.false_eq_true, if_false,
      Bool.or_self, Bool.not_true, flashLock, begin, FlashHw.record]
    exact ⟨fun hl => ⟨rfl, hl.pg, rfl, hl.optpg, hl.opter⟩, fun _ => rfl⟩

theorem flashWriteLoop_cr (data : ℕ → UInt8) (len n i dst : ℕ) {h : FlashHw} (hp : Programming h)
    (hb : h.sr.bsy = false) :
    (flashWriteLoop data len n i dst h).1.cr = { h.cr with pg := false, lock := true } ∧
      (flashWriteLoop data len n i dst h).1.sr.bsy = false := by
  induction n generalizing i dst h with
  | zero => simp [flashWriteLoop, flashLock, modifyCr, hp.unlocked, hb]
  | succ n ih =>
    obtain ⟨-, -, -, -, hcr, -⟩ := storeHalfword_programming hp dst (data i)
      (if i + 1 < len then data (i + 1) else 0xFF)
    have hbsy (h' : FlashHw) : (flashWait h').sr.bsy = false := rfl
    rw [flashWriteLoop]
    generalize hh : h.storeHalfword dst (data i) (if i + 1 < len then data (i + 1) else 0xFF) = h₁ at *
    dsimp only
    by_cases hf : (flashWait h₁).failed = true
    · rw [if_pos hf]
      simp [flashLock, modifyCr, hcr, hp.unlocked, hbsy]
    · rw [if_neg hf, ← hcr]
      exact ih (i + 2) (dst + 2) ⟨hcr ▸ hp.unlocked, hcr ▸ hp.enabled, by simpa using hf⟩ (hbsy h₁)

theorem flashWrite_restores (a : UInt32) (data : ℕ → UInt8) (len : ℕ) (h : FlashHw) :
    h.Restores (flashWrite a data len h).1 := by
  obtain ⟨keyed, hu⟩ := flashUnlock_eq (h.record (.writeCall a (toList data len)))
  unfold flashWrite
  dsimp only
  split_ifs
  · exact restores_record h _
  · exact restores_record h _
  · exact restores_record h _
  · rw [hu]
    obtain ⟨hcr, hb⟩ := flashWriteLoop_cr data len ((len + 1) / 2) 0 a.toNat
      (h := { mem := h.mem, cr := { h.cr with pg := true, lock := false },
              sr := ⟨false, false, false, false⟩, ar := h.ar, keyed := keyed, faults := h.faults,
              ops := h.ops, log := h.log ++ [.writeCall a (toList data len)] })
      ⟨rfl, rfl, rfl⟩ rfl
    exact ⟨fun hl => ⟨congrArg FlashCr.lock hcr, congrArg FlashCr.pg hcr,
      (congrArg FlashCr.per hcr).trans hl.per, (congrArg FlashCr.optpg hcr).trans hl.optpg,
      (congrArg FlashCr.opter hcr).trans hl.opter⟩, fun _ => hb⟩

namespace OptionHw

@[simp] theorem program_cr (ob : OptionByte) (value : UInt16) (w : OptionHw) :
    (w.program ob value).flash.cr = w.flash.cr := by
  unfold program
  split_ifs <;> rfl

@[simp] theorem start_cr (w : OptionHw) : w.start.flash.cr = w.flash.cr := by
  unfold start onFlash FlashHw.start
  split_ifs <;> rfl

@[simp] theorem wait_cr (w : OptionHw) : w.wait.flash.cr = w.flash.cr := rfl

@[simp] theorem wait_bsy (w : OptionHw) : w.wait.flash.sr.bsy = false := rfl

@[simp] theorem writeOptkeyr_flash (w : OptionHw) (key : UInt32) :
    (w.writeOptkeyr key).flash = w.flash := by
  unfold writeOptkeyr
  split_ifs <;> rfl

@[simp] theorem modifyCr_cr (w : OptionHw) (f : FlashCr → FlashCr) :
    (w.modifyCr f).flash.cr = if w.flash.cr.lock then w.flash.cr else f w.flash.cr := by
  unfold modifyCr onFlash FlashHw.modifyCr
  split_ifs <;> rfl

@[simp] theorem modifyCr_sr (w : OptionHw) (f : FlashCr → FlashCr) :
    (w.modifyCr f).flash.sr = w.flash.sr := by
  unfold modifyCr onFlash FlashHw.modifyCr
  dsimp only
  split_ifs <;> rfl

theorem unlock_cr (w : OptionHw) :
    (w.onFlash flashUnlock).flash.cr = { w.flash.cr with lock := false } := by
  obtain ⟨keyed, hu⟩ := flashUnlock_eq w.flash
  exact congrArg FlashHw.cr hu

end OptionHw

theorem rebuildOptionBytes_cr (w : OptionHw) : (rebuildOptionBytes w).flash.cr =
    { w.flash.cr with opter := false, optpg := false, lock := true } := by
  have hclear (w : OptionHw) : (w.onFlash clearErrors).flash.cr = w.flash.cr := rfl
  have hlock (w : OptionHw) :
      (w.onFlash flashLock).flash.cr = { w.flash.cr with lock := true } := flashLock_cr w.flash
  have hcond (c : Prop) [Decidable c] (w : OptionHw) :
      (if c then (w.program .rdp obRdpUnlock).wait else w).flash.cr = w.flash.cr := by
    split_ifs <;> simp
  unfold rebuildOptionBytes
  simp [hclear, hlock, hcond, OptionHw.unlock_cr]

theorem rebuildOptionBytes_bsy (w : OptionHw) : (rebuildOptionBytes w).flash.sr.bsy = false := by
  have hlock (w : OptionHw) : (w.onFlash flashLock).flash.sr = w.flash.sr :=
    OptionHw.modifyCr_sr w fun cr => { cr with lock := true }
  unfold rebuildOptionBytes
  dsimp only
  rw [hlock, OptionHw.modifyCr_sr, OptionHw.wait_bsy]

/-- `flash_disable_write_protection` ends as it began, whatever the hardware makes of it. -/
theorem flashDisableWriteProtection_restores (w : OptionHw) :
    w.flash.Restores (flashDisableWriteProtection w).1.flash := by
  unfold flashDisableWriteProtection
  split_ifs
  · exact .rfl
  · have hcr := rebuildOptionBytes_cr w
    exact ⟨fun hl => ⟨congrArg FlashCr.lock hcr, (congrArg FlashCr.pg hcr).trans hl.pg,
      (congrArg FlashCr.per hcr).trans hl.per, congrArg FlashCr.optpg hcr,
      congrArg FlashCr.opter hcr⟩, fun _ => rebuildOptionBytes_bsy w⟩

theorem executePending_restores (c : Core) : c.flash.Restores (executePending c).flash := by
  have heff := executePending_effect c
  generalize executePending c = c' at heff
  cases heff with
  | setAddress | refuse | empty => exact .rfl
  | erase | eraseFailed => exact flashErasePage_restores _ _
  | write | writeFailed => exact flashWrite_restores _ _ _ _

theorem coreStep_restores (c : Core) (e : UsbEvent) : c.flash.Restores (coreStep c e).flash := by
  by_cases h : Executes c e
  · rw [coreStep_of_executes h]
    exact executePending_restores c
  · rw [coreStep_flash h]
    exact .rfl

namespace Machine

def startOn (h : FlashHw) : Machine :=
  { powerOn h.mem h.faults with core := ⟨Dfu.zero, h⟩ }.dfuInit

theorem startOn_quiet (h : FlashHw) : (startOn h).Quiet := ⟨rfl, rfl⟩

theorem run_restores (h : FlashHw) (es : List UsbEvent) :
    h.Restores ((startOn h).run es).core.flash := by
  rw [run_core (startOn_quiet h)]
  exact StepSystem.run_invariant (fun c : Core => h.Restores c.flash)
    (fun c e hc => hc.trans (coreStep_restores c e)) .rfl es

/-- The controller is locked, with no mode bit set, after `flash_disable_write_protection` and in
every state between two polls, whatever the hardware reports. It is idle there, too, unless an
operation is in progress to begin with. -/
theorem controller_idle (w : OptionHw) (hl : w.flash.Locked) (es : List UsbEvent) :
    let done := (flashDisableWriteProtection w).1.flash
    (done.Locked ∧ ((startOn w.flash).run es).core.flash.Locked ∧
        ((startOn done).run es).core.flash.Locked) ∧
      (w.flash.Idle → done.Idle ∧ ((startOn w.flash).run es).core.flash.Idle ∧
        ((startOn done).run es).core.flash.Idle) := by
  intro done
  have hdone := flashDisableWriteProtection_restores w
  have hrun := run_restores w.flash es
  have hboth := hdone.trans (run_restores done es)
  exact ⟨⟨hdone.locked hl, hrun.locked hl, hboth.locked hl⟩,
    fun hi => ⟨hdone.idle hi, hrun.idle hi, hboth.idle hi⟩⟩

def protectedFaulty : OptionHw :=
  OptionHw.powerOn (fun _ => 0xFF) (fun _ => 0xFF00) (fun _ => ⟨true, false⟩) fun _ => true

theorem controller_idle_after_faults :
    (flashDisableWriteProtection protectedFaulty).1.flash.Idle ∧
      ((startOn protectedFaulty.flash).run [.setup (.dnload 2 1), .out (.ofBytes [0x55]),
        .setup .getstatus, .setup .getstatus]).core.flash.Idle := by
  have h := controller_idle protectedFaulty ⟨rfl, rfl, rfl, rfl, rfl⟩
    [.setup (.dnload 2 1), .out (.ofBytes [0x55]), .setup .getstatus, .setup .getstatus]
  obtain ⟨hdone, hrun, -⟩ := h.2 ⟨⟨rfl, rfl, rfl, rfl, rfl⟩, rfl⟩
  exact ⟨hdone, hrun⟩

end Machine

end NovaBootloader
