import NovaBootloader.DfuLoop
import NovaBootloader.Reports

/-!
# Leaving DFU mode

A download ends with a DNLOAD of length zero and a GETSTATUS. From there on the main loop counts,
and with nothing more from the host it asks for a system reset in its fiftieth iteration.
-/

namespace NovaBootloader

def UsbEvent.Continues (e : UsbEvent) : Prop :=
  ∀ p ∈ e.setup?, p.IsDfu dfuDnload → 0 < p.wLength.toNat

section Requests

variable {c : Core} {p : SetupPacket}

theorem coreStep_finish (hp : p.IsDfu dfuDnload) (hlen : p.wLength.toNat = 0)
    (hs : c.dfu.state = .dnloadIdle) (tx : Bool) :
    coreStep c (.ctr (some (.setup p)) tx) =
      { c with dfu := { c.dfu with state := .manifestSync } } := by
  have hdnload : (handleDfuDnload p.wValue.toNat p.wLength.toNat c.dfu).1 =
      { c.dfu with state := .manifestSync } := by
    unfold handleDfuDnload
    rw [if_pos hlen, if_pos hs]
  rw [coreStep, request_dnload hp, hdnload]

theorem coreStep_manifest (hp : p.IsDfu dfuGetstatus) (hs : c.dfu.state = .manifestSync)
    (tx : Bool) : coreStep c (.ctr (some (.setup p)) tx) =
      { c with dfu := { c.dfu with state := .manifestWaitReset } } := by
  have h : (getstatusTransition c).1 =
      { c with dfu := { c.dfu with state := .manifestWaitReset } } := by
    unfold getstatusTransition
    rw [if_neg (by simp [hs]), if_neg (by simp [hs]), if_pos hs]
  rw [coreStep, request_getstatus hp]
  exact h

end Requests

namespace DfuLoop

variable {l : DfuLoop}

theorem run_of_not_waiting (hl : l.resetting = false) {es : List UsbEvent}
    (hes : StepSystem.Along Machine.step
      (fun s e => (s.step e).core.dfu.state ≠ .manifestWaitReset) l.machine es) :
    StepSystem.run step l es = { l with machine := l.machine.run es } := by
  induction es generalizing l with
  | nil => rfl
  | cons e es ih =>
    obtain ⟨hfirst, hrest⟩ := hes
    rw [StepSystem.run_cons, step_of_not_waiting hl hfirst,
      ih (l := { l with machine := l.machine.step e }) hl hrest]
    rfl

theorem run_of_resetting (hl : l.resetting = true) (es : List UsbEvent) :
    StepSystem.run step l es = l :=
  StepSystem.run_invariant (fun l' => l' = l) (fun l' e h => by rw [h, step_of_resetting hl]) rfl es

/-- In dfuMANIFEST-WAIT-RESET, with nothing from the host, the loop counts down to the reset. -/
theorem run_of_waiting (n : ℕ) (hl : l.resetting = false) (hq : l.machine.Quiet)
    (hs : l.state = .manifestWaitReset) (hcount : l.resetCountdown = n + 2) {es : List UsbEvent}
    (hes : ∀ e ∈ es, e.traffic = none) :
    ((StepSystem.run step l es).resetting = true ↔ n < es.length) ∧
      (StepSystem.run step l es).machine.core = l.machine.core := by
  induction es generalizing l n with
  | nil => exact ⟨iff_of_false (by simp [hl]) (Nat.not_lt_zero n), rfl⟩
  | cons e es ih =>
    have hcore : (l.machine.step e).core = l.machine.core := by
      rw [Machine.step_core hq]
      exact (coreStep_traffic_none (hes e List.mem_cons_self)).1
    have hs' : (l.machine.step e).core.dfu.state = .manifestWaitReset := by
      rw [hcore]
      exact hs
    rw [StepSystem.run_cons, List.length_cons, step_of_waiting hl hs', hcount, if_neg (by omega)]
    cases n with
    | zero =>
      rw [run_of_resetting rfl]
      exact ⟨iff_of_true rfl (Nat.succ_pos _), hcore⟩
    | succ n =>
      obtain ⟨hiff, hend⟩ := ih (l := ⟨l.machine.step e, n + 1 + 2 - 1, decide (n + 1 + 2 = 2)⟩) n
        (decide_eq_false (by omega : ¬ n + 1 + 2 = 2)) (Machine.step_quiet hq e) hs' rfl
        fun e' he' => hes e' (List.mem_cons_of_mem _ he')
      refine ⟨hiff.trans ⟨fun h => by omega, fun h => by omega⟩, hend.trans hcore⟩

/-- The machine is in no state of the manifestation phase. -/
structure Working (s : Machine) : Prop where
  quiet : s.Quiet
  sync : s.core.dfu.state ≠ .manifestSync
  waitReset : s.core.dfu.state ≠ .manifestWaitReset

theorem Working.step {s : Machine} (h : Working s) {e : UsbEvent} (he : e.Continues) :
    Working (s.step e) := by
  have hcore := Machine.step_core h.quiet e
  refine ⟨Machine.step_quiet h.quiet e, fun hs => ?_, fun hs => ?_⟩
  · rw [hcore] at hs
    obtain ⟨-, p, hp, hdnload, hlen⟩ := enters_manifestSync h.sync hs
    exact absurd hlen (he p hp hdnload).ne'
  · rw [hcore] at hs
    exact h.sync (enters_waitReset h.waitReset hs).1

/-- The end of an update: a DNLOAD of length zero and, after it, a GETSTATUS. In between and
afterwards the host is silent. -/
structure Leave where
  finish : SetupPacket
  isFinish : finish.IsDfu dfuDnload
  length : finish.wLength.toNat = 0
  poll : SetupPacket
  isPoll : poll.IsDfu dfuGetstatus
  gap : List UsbEvent
  gapSilent : ∀ e ∈ gap, e.traffic = none
  wait : List UsbEvent
  waitSilent : ∀ e ∈ wait, e.traffic = none

/-- The events, with the completions of IN packets that may show up along with the requests. -/
def Leave.events (x : Leave) (tx tx' : Bool) : List UsbEvent :=
  .ctr (some (.setup x.finish)) tx :: (x.gap ++ .ctr (some (.setup x.poll)) tx' :: x.wait)

theorem run_silent {s : Machine} (hq : s.Quiet) {es : List UsbEvent}
    (hes : ∀ e ∈ es, e.traffic = none) : (s.run es).core = s.core := by
  rw [Machine.run_core hq]
  exact StepSystem.run_invariant_of_mem (fun c => c = s.core)
    (fun c e he h => by rw [(coreStep_traffic_none (hes e he)).1, h]) rfl

/-- From the end of a download the loop resets after fifty iterations in dfuMANIFEST-WAIT-RESET, no
sooner, and leaves the flash as it is. -/
theorem run_leave {es : List UsbEvent} (hw : Working l.machine) (hl : l.resetting = false)
    (hcount : l.resetCountdown = 0) (hes : ∀ e ∈ es, e.Continues)
    (hs : (l.machine.run es).core.dfu.state = .dnloadIdle) (x : Leave) (tx tx' : Bool) :
    ((StepSystem.run step l (es ++ x.events tx tx')).resetting = true ↔ 49 ≤ x.wait.length) ∧
      (StepSystem.run step l (es ++ x.events tx tx')).machine.core.flash =
        (l.machine.run es).core.flash := by
  let s := l.machine.run es
  let s₁ := s.step (.ctr (some (.setup x.finish)) tx)
  let s₂ := s₁.run x.gap
  have hwork : Working s := by
    refine StepSystem.run_invariant_of_mem Working (fun t e he ht => ht.step (hes e he)) hw
  have hcore₁ : s₁.core = { s.core with dfu := { s.core.dfu with state := .manifestSync } } := by
    rw [Machine.step_core hwork.quiet]
    exact coreStep_finish x.isFinish x.length hs tx
  have hquiet₁ : s₁.Quiet := Machine.step_quiet hwork.quiet _
  have hcore₂ : s₂.core = s₁.core := run_silent hquiet₁ x.gapSilent
  have hquiet₂ : s₂.Quiet := Machine.run_quiet hquiet₁ x.gap
  -- the loop only polls up to the GETSTATUS
  have hpolls : StepSystem.run step l (es ++ .ctr (some (.setup x.finish)) tx :: x.gap) =
      { l with machine := s₂ } := by
    have hrun : l.machine.run (es ++ .ctr (some (.setup x.finish)) tx :: x.gap) = s₂ :=
      StepSystem.run_append Machine.step _ _ _
    rw [← hrun]
    refine run_of_not_waiting hl ((StepSystem.along_append _ _ _).mpr ⟨?_, ?_, ?_⟩)
    · exact StepSystem.along_of_invariant_of_mem Working (C := UsbEvent.Continues)
        (fun t e ht he => ht.step he) (fun t e ht he => (ht.step he).waitReset) hw hes
    · change s₁.core.dfu.state ≠ .manifestWaitReset
      rw [hcore₁]
      exact DfuState.noConfusion
    · refine StepSystem.along_of_invariant_of_mem (fun t : Machine => t.Quiet ∧ t.core = s₁.core)
        (fun t e ht he => ⟨Machine.step_quiet ht.1 e, ?_⟩) (fun t e ht he => ?_)
        ⟨hquiet₁, rfl⟩ x.gapSilent
      · rw [Machine.step_core ht.1, (coreStep_traffic_none he).1, ht.2]
      · rw [Machine.step_core ht.1, (coreStep_traffic_none he).1, ht.2, hcore₁]
        exact DfuState.noConfusion
  -- the GETSTATUS starts the counter
  have hpoll : (s₂.step (.ctr (some (.setup x.poll)) tx')).core =
      { s.core with dfu := { s.core.dfu with state := .manifestWaitReset } } := by
    rw [Machine.step_core hquiet₂, hcore₂, hcore₁]
    exact coreStep_manifest x.isPoll rfl tx'
  have hstart : step { l with machine := s₂ } (.ctr (some (.setup x.poll)) tx') =
      ⟨s₂.step (.ctr (some (.setup x.poll)) tx'), 50, false⟩ := by
    have hwaits : (s₂.step (.ctr (some (.setup x.poll)) tx')).core.dfu.state =
        .manifestWaitReset := by rw [hpoll]
    rw [step_of_waiting (l := { l with machine := s₂ }) hl hwaits]
    simp [hcount]
  have hsplit : es ++ x.events tx tx' = (es ++ .ctr (some (.setup x.finish)) tx :: x.gap) ++
      .ctr (some (.setup x.poll)) tx' :: x.wait := by
    rw [Leave.events, List.append_assoc, List.cons_append]
  obtain ⟨hiff, hend⟩ := run_of_waiting
    (l := ⟨s₂.step (.ctr (some (.setup x.poll)) tx'), 50, false⟩) 48 rfl
    (Machine.step_quiet hquiet₂ _) (congrArg (fun c => c.dfu.state) hpoll) rfl x.waitSilent
  rw [hsplit, StepSystem.run_append, hpolls, StepSystem.run_cons, hstart]
  refine ⟨hiff, ?_⟩
  rw [hend, hpoll]

end DfuLoop

end NovaBootloader
