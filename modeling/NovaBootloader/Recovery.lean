import NovaBootloader.ErrorLatch
import NovaBootloader.FirmwareUpdate
import NovaBootloader.Forgetting
import NovaBootloader.UploadWalk

/-!
# Recovery from anything

However a device in DFU mode has come into its state, by refused requests, by half a download or by
errors of the flash: after ABORT or a bus reset it takes a whole update, if the flash works from then
on, and the host can read the image back. Such a device cannot be told from one that has just
entered DFU mode over the same flash, and for that one the update is known to work.
-/

namespace NovaBootloader
open ByteMemory FlashHw

namespace FlashHw

/-- No operation fails from here on, whatever has failed before. -/
def WorksFromNow (h : FlashHw) : Prop := ∀ k, (h.faults (h.ops + k)).raised = false

/-- The same contents and the same errors to come, with nothing behind it. -/
def fresh (h : FlashHw) : FlashHw := powerOn h.mem fun k => h.faults (h.ops + k)

theorem fresh_twins (h : FlashHw) : h.Twins h.fresh := by
  refine ⟨rfl, fun k => ?_⟩
  change h.faults (h.ops + (0 + k)) = _
  rw [Nat.zero_add]

theorem WorksFromNow.fresh {h : FlashHw} (hw : h.WorksFromNow) : h.fresh.Faultless := hw

end FlashHw

section Twins

variable {c c' : Core}

theorem Core.Twins.reportedState_eq (h : c.Twins c') (hlen : c.dfu.bufferLen ≤ dfuXferSize)
    (e : UsbEvent) : c.reportedState e = c'.reportedState e := by
  unfold Core.reportedState
  rw [(h.coreStep hlen e).dfu.state]

theorem twins_run (h : c.Twins c') (hc : c.dfu.Consistent) (es : List UsbEvent) :
    StepSystem.outputs coreStep Core.reportedState c es =
        StepSystem.outputs coreStep Core.reportedState c' es ∧
      (StepSystem.run coreStep c es).Twins (StepSystem.run coreStep c' es) := by
  obtain ⟨hout, hrun, -⟩ := StepSystem.outputs_bisimulation
    (fun c c' : Core => c.Twins c' ∧ c.dfu.Consistent)
    (fun c c' e h => ⟨h.1.coreStep h.2.bufferLen_le e, coreStep_consistent h.2 e⟩)
    (fun c c' e h => h.1.reportedState_eq h.2.bufferLen_le e) ⟨h, hc⟩ es
  exact ⟨hout, hrun⟩

theorem Machine.SessionStart.aborted {s : Machine} (hs : SessionStart s) :
    (handleDfuAbort s.core.dfu).1 = s.core.dfu := by
  cases hs with
  | init mem faults => rfl
  | reset hs => rfl
  | abort hs hp =>
    rw [step_core hs.quiet, coreStep, request_abort hp]
    rfl

theorem Machine.SessionStart.twins {s : Machine} (hs : SessionStart s) :
    s.core.Twins (startOn s.core.flash.fresh).core := by
  refine ⟨?_, fresh_twins _⟩
  rw [← hs.aborted]
  exact .abort _ _

end Twins

namespace Update

variable {image : Image} (u : Update image)

/-- An update after ABORT or a bus reset does what it does after `dfu_init`. -/
theorem session_recovers {s : Machine} (hs : s.SessionStart) (hworks : s.core.flash.WorksFromNow)
    (hpages : ∀ a ∈ u.plan.pages, flashIsAddressValid a = true) :
    StepSystem.outputs Machine.step Machine.reportedState s u.session =
        u.exchanges.flatMap (fun _ => successReports) ∧
      (s.run u.session).core.flash.mem = overwrite (erasedPages u.plan.pages s.core.flash.mem)
        0x08003000 image.bytes.length (ofList image.bytes) := by
  have hfresh := u.reported_of_faultless hworks.fresh hpages
  obtain ⟨-, hmem⟩ := u.session_installs s.core.flash.fresh hfresh
  obtain ⟨hcore, hout⟩ := Machine.run_traffic hs.stable.quiet u.traffic
  obtain ⟨hcore', hout'⟩ := Machine.run_traffic (Machine.startOn_quiet s.core.flash.fresh) u.traffic
  obtain ⟨hsame, htwins⟩ := twins_run hs.twins hs.stable.consistent
    (u.exchanges.flatMap HostExchange.events)
  rw [← hcore, ← hcore'] at htwins
  refine ⟨?_, htwins.flash.mem.symm.trans hmem⟩
  rw [hout, hsame, ← hout', hfresh]

end Update

namespace Machine

/-- After ABORT a host reads the whole region, and nothing changes. -/
theorem abort_readsOut {s : Machine} (hs : s.Reachable) {p : SetupPacket} (hp : p.IsDfu dfuAbort) :
    ((s.step (.setup p)).uploadWalk 243 2).flatten =
      toList (fun i => s.core.flash.mem (0x08003000 + i)) 0x3C800 := by
  have hcore : (s.step (.setup p)).core = { s.core with dfu := (handleDfuAbort s.core.dfu).1 } := by
    rw [step_core hs.quiet, coreStep, request_abort hp]
  have hptr : (s.step (.setup p)).core.dfu.addressPtr = appStartAddress := by
    rw [hcore]
    rfl
  have hwalk := @uploadWalk_readsOut 243 0 (s.step (.setup p)) (step_quiet hs.quiet _)
    (Or.inl (by rw [hcore]; rfl)) (by rw [hptr]; decide) (by rw [hptr]; decide)
    (by rw [hptr]; decide)
  rw [hptr] at hwalk
  rw [hwalk.flatten, hcore]
  rfl

theorem SessionStart.reachable {s : Machine} (hs : s.SessionStart) : s.Reachable := by
  cases hs with
  | init mem faults => exact ⟨mem, faults, [], rfl⟩
  | reset hs => exact hs.run [.reset]
  | @abort s hs p hp => exact hs.run [.setup p]

end Machine

theorem toList_installed (image : Image) (pages : List UInt32) (mem : ℕ → UInt8) :
    (toList (fun i => overwrite (erasedPages pages mem) 0x08003000 image.bytes.length
      (ofList image.bytes) (0x08003000 + i)) 0x3C800).take image.bytes.length = image.bytes := by
  have hfits := image.fits
  apply List.ext_getElem?
  intro i
  by_cases hi : i < image.bytes.length
  · rw [List.getElem?_take_of_lt hi, getElem?_toList _ (by omega), overwrite_of_mem (by omega)
      (by omega), Nat.add_sub_cancel_left, List.getElem?_eq_getElem hi, ofList,
      List.getD_eq_getElem _ _ hi]
  · rw [List.getElem?_eq_none (by simp only [List.length_take, length_toList]; omega),
      List.getElem?_eq_none (by omega)]

/-- No history leaves a device in DFU mode that cannot be updated. After ABORT or a bus reset in any
reachable state, over a flash that works from then on, every command of an update is reported as
executed; the image is in the flash; after another ABORT the host reads it back; and a later boot
that nothing keeps in DFU mode runs it. -/
theorem update_recovers {s : Machine} (hs : s.SessionStart) (hworks : s.core.flash.WorksFromNow)
    {image : Image} (u : Update image)
    (hpages : ∀ a ∈ u.plan.pages, flashIsAddressValid a = true) :
    let t := s.run u.session
    StepSystem.outputs Machine.step Machine.reportedState s u.session =
        u.exchanges.flatMap (fun _ => successReports) ∧
      t.core.flash.mem = overwrite (erasedPages u.plan.pages s.core.flash.mem) 0x08003000
        image.bytes.length (ofList image.bytes) ∧
      (∀ p : SetupPacket, p.IsDfu dfuAbort →
        ((t.step (.setup p)).uploadWalk 243 2).flatten.take image.bytes.length = image.bytes) ∧
      ∀ (cfg : BuildConfig) (q : Retained) (j : BootInput), magicRamSet q.magic = false →
        f1ButtonPressed j.gpiocIdr = false → j.mem = t.core.flash.mem → image.Plausible →
        (q.boot cfg j).2 = .jump image.sp image.reset := by
  intro t
  obtain ⟨hreported, hmem⟩ := u.session_recovers hs hworks hpages
  have ht : t.Reachable := hs.reachable.run u.session
  refine ⟨hreported, hmem, fun p hp => ?_, fun cfg q j hmagic hf1 hj hplausible => ?_⟩
  · rw [Machine.abort_readsOut ht hp, hmem]
    exact toList_installed image u.plan.pages s.core.flash.mem
  · exact Image.boot_runs hplausible hmagic hf1 (hj.trans hmem)

section Example

def eraseFailed : Machine :=
  (Machine.start (fun _ => 0x00) fun k => if k = 0 then ⟨true, false⟩ else Fault.none).run
    ((tinyExchanges.take 1).flatMap HostExchange.events)

theorem failed_erase_recovers : eraseFailed.core.dfu.state = .error ∧
    ((((eraseFailed.step (.setup .abort)).run tinyUpdate.session).step
      (.setup .abort)).uploadWalk 243 2).flatten.take 9 = tinyImage.bytes := by
  have hreach : eraseFailed.Reachable := ⟨_, _, _, rfl⟩
  have hstart : (eraseFailed.step (.setup .abort)).SessionStart := .abort hreach (by decide)
  have hworks : (eraseFailed.step (.setup .abort)).core.flash.WorksFromNow := by
    intro k
    have hops : (eraseFailed.step (.setup .abort)).core.flash.ops = 1 := by decide +kernel
    have hfaults : (eraseFailed.step (.setup .abort)).core.flash.faults =
        fun k => if k = 0 then ⟨true, false⟩ else Fault.none := rfl
    rw [hops, hfaults]
    dsimp only
    rw [if_neg (by omega)]
    rfl
  obtain ⟨-, -, hread, -⟩ := update_recovers hstart hworks tinyUpdate
    (List.forall_mem_singleton.mpr rfl)
  exact ⟨by decide +kernel, hread .abort (by decide)⟩

end Example

end NovaBootloader
