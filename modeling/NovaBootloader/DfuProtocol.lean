import NovaBootloader.Session

/-!
# The DFU state diagram

`Edge` is the diagram of the DFU function: which requests lead from which state to which other one. It
is complete and has nothing in excess: every edge is taken in some run, and no run leaves it. Polling
twice settles the function, whatever it was doing.
-/

namespace NovaBootloader

namespace DfuState

/-- The states the bootloader uses. The application states and dfuMANIFEST are not among them. -/
def Used (a : DfuState) : Prop := a ≠ .appIdle ∧ a ≠ .appDetach ∧ a ≠ .manifest

instance (a : DfuState) : Decidable a.Used := inferInstanceAs (Decidable (_ ∧ _))

inductive Cause where
  | busReset
  | request (code : UInt8)
deriving DecidableEq

inductive Edge : DfuState → Cause → DfuState → Prop
  | busReset (a : DfuState) : Edge a .busReset .idle
  | abort (a : DfuState) : Edge a (.request dfuAbort) .idle
  | clrstatus : Edge .error (.request dfuClrstatus) .idle
  | oversize (a : DfuState) : Edge a (.request dfuDnload) .error
  | first : Edge .idle (.request dfuDnload) .dnloadSync
  | next : Edge .dnloadIdle (.request dfuDnload) .dnloadSync
  | finish : Edge .dnloadIdle (.request dfuDnload) .manifestSync
  | sync : Edge .dnloadSync (.request dfuGetstatus) .dnbusy
  | done : Edge .dnbusy (.request dfuGetstatus) .dnloadIdle
  | failed : Edge .dnbusy (.request dfuGetstatus) .error
  | manifest : Edge .manifestSync (.request dfuGetstatus) .manifestWaitReset
  | upload : Edge .idle (.request dfuUpload) .uploadIdle
  | uploaded : Edge .uploadIdle (.request dfuUpload) .idle

end DfuState

open DfuState

def UsbEvent.cause : UsbEvent → Option Cause
  | .reset => some .busReset
  | .ctr (some (.setup p)) _ => if p.IsClass then some (.request p.bRequest) else none
  | _ => none

theorem SetupPacket.IsDfu.cause {p : SetupPacket} {code : UInt8} (hp : p.IsDfu code) (tx : Bool) :
    (UsbEvent.ctr (some (.setup p)) tx).cause = some (.request code) := by
  rw [UsbEvent.cause, if_pos hp.1, hp.2]

/-- The event takes the state along an edge of the diagram. -/
def Moves (e : UsbEvent) (a b : DfuState) : Prop := ∃ cause, e.cause = some cause ∧ Edge a cause b

section Sound

variable {c : Core}

theorem request_moves (p : SetupPacket) (tx : Bool) :
    (Machine.request p c).1.dfu.state = c.dfu.state ∨
      Moves (.ctr (some (.setup p)) tx) c.dfu.state (Machine.request p c).1.dfu.state := by
  have heff := request_effect p c
  generalize (Machine.request p c).1 = c' at heff
  cases heff with
  | none hacc hatt => exact Or.inl rfl
  | sync hp hs => exact Or.inr ⟨_, hp.cause tx, hs ▸ .sync⟩
  | attempt hatt =>
    refine Or.inr ⟨_, hatt.1.cause tx, ?_⟩
    rw [hatt.2]
    rcases executePending_state c with hs | hs <;> rw [hs]
    · exact .done
    · exact .failed
  | manifest hp hs => exact Or.inr ⟨_, hp.cause tx, hs ▸ .manifest⟩
  | finish hp hlen hs => exact Or.inr ⟨_, hp.cause tx, hs ▸ .finish⟩
  | oversize hp hlen => exact Or.inr ⟨_, hp.cause tx, .oversize _⟩
  | accept hacc =>
    rcases hacc.2.2.2 with hs | hs
    · exact Or.inr ⟨_, hacc.1.cause tx, hs ▸ .first⟩
    · exact Or.inr ⟨_, hacc.1.cause tx, hs ▸ .next⟩
  | upload hp hs state hstate =>
    rcases hs with hs | hs <;> rcases hstate with rfl | rfl
    · exact Or.inl hs.symm
    · exact Or.inr ⟨_, hp.cause tx, hs ▸ .upload⟩
    · exact Or.inr ⟨_, hp.cause tx, hs ▸ .uploaded⟩
    · exact Or.inl hs.symm
  | clrstatus hp hs => exact Or.inr ⟨_, hp.cause tx, hs ▸ .clrstatus⟩
  | abort hp => exact Or.inr ⟨_, hp.cause tx, .abort _⟩

theorem coreStep_moves (c : Core) (e : UsbEvent) :
    (coreStep c e).dfu.state = c.dfu.state ∨ Moves e c.dfu.state (coreStep c e).dfu.state := by
  rcases e with _ | _ | ⟨_ | (p | d), tx⟩
  · exact Or.inl rfl
  · exact Or.inr ⟨_, rfl, .busReset _⟩
  · exact Or.inl rfl
  · exact request_moves p tx
  · refine Or.inl ?_
    rw [coreStep]
    split_ifs
    · exact dataStage_state _ _ _
    · rfl

theorem DfuState.Edge.used {a b : DfuState} {cause : Cause} (h : Edge a cause b) : b.Used := by
  cases h <;> decide

theorem coreStep_used (h : c.dfu.state.Used) (e : UsbEvent) : (coreStep c e).dfu.state.Used := by
  rcases coreStep_moves c e with hs | ⟨cause, -, hedge⟩
  · rwa [hs]
  · exact hedge.used

end Sound

namespace Machine

theorem Reachable.used {s : Machine} (hs : s.Reachable) : s.core.dfu.state.Used := by
  obtain ⟨mem, faults, es, rfl⟩ := hs
  rw [run_core (start_quiet mem faults)]
  exact StepSystem.run_invariant (fun c : Core => c.dfu.state.Used) (fun _ e h => coreStep_used h e)
    (by decide : DfuState.idle.Used) es

section Complete

/-- A run from `dfu_init` over an erased flash to each of the states. -/
def pathTo : DfuState → List UsbEvent
  | .dnloadSync => [.setup (.dnload 2 1)]
  | .dnbusy => [.setup (.dnload 2 1), .setup .getstatus]
  | .dnloadIdle => [.setup (.dnload 2 1), .setup .getstatus, .setup .getstatus]
  | .manifestSync =>
    [.setup (.dnload 2 1), .setup .getstatus, .setup .getstatus, .setup (.dnload 0 0)]
  | .manifestWaitReset =>
    [.setup (.dnload 2 1), .setup .getstatus, .setup .getstatus, .setup (.dnload 0 0),
      .setup .getstatus]
  | .uploadIdle => [.setup (.upload 2 64)]
  | .error => [.setup (.dnload 2 2048)]
  | _ => []

theorem pathTo_reaches {a : DfuState} (ha : a.Used) :
    (erased.run (pathTo a)).core.dfu.state = a := by
  cases a with
  | appIdle => exact absurd rfl ha.1
  | appDetach => exact absurd rfl ha.2.1
  | manifest => exact absurd rfl ha.2.2
  | _ => decide +kernel

theorem erased_run_reachable (es : List UsbEvent) : (erased.run es).Reachable := ⟨_, _, es, rfl⟩

def Taken (a : DfuState) (l : Option Cause) (b : DfuState) : Prop :=
  ∃ s : Machine, ∃ e, s.Reachable ∧ s.core.dfu.state = a ∧ (s.step e).core.dfu.state = b ∧ e.cause = l

theorem Taken.of_run (es : List UsbEvent) (e : UsbEvent) :
    Taken (erased.run es).core.dfu.state e.cause ((erased.run es).step e).core.dfu.state :=
  ⟨_, e, erased_run_reachable es, rfl, rfl, rfl⟩

theorem taken_busReset {a : DfuState} (ha : a.Used) : Taken a (some .busReset) .idle :=
  ⟨_, .reset, erased_run_reachable _, pathTo_reaches ha, rfl, rfl⟩

theorem taken_abort {a : DfuState} (ha : a.Used) : Taken a (some (.request dfuAbort)) .idle := by
  refine ⟨_, .setup .abort, erased_run_reachable _, pathTo_reaches ha, ?_, rfl⟩
  rw [step_core (erased_run_reachable _).quiet, coreStep, request_abort (by decide)]
  rfl

theorem taken_oversize {a : DfuState} (ha : a.Used) :
    Taken a (some (.request dfuDnload)) .error := by
  refine ⟨_, .setup (.dnload 2 2048), erased_run_reachable _, pathTo_reaches ha, ?_, rfl⟩
  rw [step_core (erased_run_reachable _).quiet, coreStep, request_dnload (by decide)]
  rfl

def blockPastEnd : List UsbEvent :=
  [.setup (.dnload 0xFFFF 1), .out (.ofBytes [0x55]), .setup .getstatus]

theorem taken_of_edge {a b : DfuState} {cause : Cause} (ha : a.Used) (h : Edge a cause b) :
    Taken a (some cause) b := by
  cases h with
  | busReset => exact taken_busReset ha
  | abort => exact taken_abort ha
  | clrstatus => exact .of_run (pathTo .error) (.setup .clrstatus)
  | oversize => exact taken_oversize ha
  | first => exact .of_run [] (.setup (.dnload 2 1))
  | next => exact .of_run (pathTo .dnloadIdle) (.setup (.dnload 2 1))
  | finish => exact .of_run (pathTo .dnloadIdle) (.setup (.dnload 0 0))
  | sync => exact .of_run (pathTo .dnloadSync) (.setup .getstatus)
  | done => exact .of_run (pathTo .dnbusy) (.setup .getstatus)
  | failed => exact .of_run blockPastEnd (.setup .getstatus)
  | manifest => exact .of_run (pathTo .manifestSync) (.setup .getstatus)
  | upload => exact .of_run [] (.setup (.upload 2 64))
  | uploaded => exact .of_run (pathTo .uploadIdle) (.setup (.upload 0xFFFF 64))

end Complete

/-- The diagram is exact: between two different states, what happens in some run of the bootloader is
an edge, and every edge out of a state that is used happens in some run. -/
theorem state_diagram (a b : DfuState) (l : Option Cause) :
    a ≠ b ∧ Taken a l b ↔ a ≠ b ∧ a.Used ∧ ∃ cause, l = some cause ∧ Edge a cause b := by
  refine and_congr_right fun hne => ⟨?_, ?_⟩
  · rintro ⟨s, e, hs, rfl, rfl, rfl⟩
    refine ⟨hs.used, ?_⟩
    rw [step_core hs.quiet] at hne ⊢
    exact (coreStep_moves s.core e).resolve_left hne.symm
  · rintro ⟨ha, cause, rfl, hedge⟩
    exact taken_of_edge ha hedge

end Machine

section Polling

def DfuState.Still (a : DfuState) : Prop := a ≠ .dnloadSync ∧ a ≠ .dnbusy ∧ a ≠ .manifestSync

instance (a : DfuState) : Decidable a.Still := inferInstanceAs (Decidable (_ ∧ _))

theorem getstatusTransition_of_still {c : Core} (h : c.dfu.state.Still) :
    getstatusTransition c = (c, 0) := by
  unfold getstatusTransition
  rw [if_neg h.1, if_neg h.2.1, if_neg h.2.2]

/-- One poll is enough, except for a download whose data has just arrived. -/
theorem getstatusTransition_still {c : Core} (h : c.dfu.state ≠ .dnloadSync) :
    (getstatusTransition c).1.dfu.state.Still := by
  by_cases hbusy : c.dfu.state = .dnbusy
  · rw [getstatus_dnbusy hbusy]
    rcases executePending_state c with hs | hs
    · exact hs ▸ (by decide : DfuState.dnloadIdle.Still)
    · exact hs ▸ (by decide : DfuState.error.Still)
  unfold getstatusTransition
  rw [if_neg h, if_neg hbusy]
  by_cases hsync : c.dfu.state = .manifestSync
  · rw [if_pos hsync]
    exact (by decide : DfuState.manifestWaitReset.Still)
  · rw [if_neg hsync]
    exact ⟨h, hbusy, hsync⟩

def Core.settled (c : Core) : Core := (getstatusTransition (getstatusTransition c).1).1

theorem Core.settled_still (c : Core) : c.settled.dfu.state.Still := by
  apply getstatusTransition_still
  by_cases hsync : c.dfu.state = .dnloadSync
  · rw [getstatus_dnloadSync hsync]
    exact (by decide : DfuState.dnbusy ≠ .dnloadSync)
  · exact (getstatusTransition_still hsync).1

theorem run_polls_still {c : Core} (h : c.dfu.state.Still) (qs : List Poll) :
    StepSystem.run coreStep c (qs.map fun q => .setup q.request) = c := by
  induction qs with
  | nil => rfl
  | cons q qs ih =>
    rw [List.map_cons, StepSystem.run_cons, coreStep_getstatus q.isGetstatus,
      getstatusTransition_of_still h]
    exact ih

theorem run_polls (c : Core) (q q' : Poll) (qs : List Poll) :
    StepSystem.run coreStep c ((q :: q' :: qs).map fun q => .setup q.request) = c.settled := by
  rw [List.map_cons, List.map_cons, StepSystem.run_cons, StepSystem.run_cons,
    coreStep_getstatus q.isGetstatus, coreStep_getstatus q'.isGetstatus]
  exact run_polls_still c.settled_still qs

/-- From any state two GETSTATUS settle the DFU function: more of them, and anything else on the bus
that it does not notice, change neither its variables nor the flash, and every further answer is the
same. -/
theorem Machine.polls_settle {s : Machine} (hs : s.Reachable) (q q' : Poll) (qs : List Poll)
    {es : List UsbEvent}
    (hes : es.filterMap UsbEvent.traffic = (q :: q' :: qs).map fun q => .setup q.request) :
    (s.run es).core = s.core.settled ∧ ∀ r : Poll, ((s.run es).step (.setup r.request)).offered =
      some [s.core.settled.dfu.status.toByte, 0, 0, 0, s.core.settled.dfu.state.toByte, 0] := by
  have htraffic := StepSystem.run_filterMap coreStep UsbEvent.traffic
    (fun c e h => (coreStep_traffic_none (c := c) h).1)
    (fun c e e' h => (coreStep_traffic_some (c := c) h).1) s.core es
  have hcore : (s.run es).core = s.core.settled := by
    rw [run_core hs.quiet, htraffic, hes, run_polls]
  refine ⟨hcore, fun r => ?_⟩
  have hanswer : (request r.request (s.run es).core).2 = .reply
      [s.core.settled.dfu.status.toByte, 0, 0, 0, s.core.settled.dfu.state.toByte, 0] := by
    rw [request_getstatus r.isGetstatus, hcore, handleDfuGetstatus,
      getstatusTransition_of_still s.core.settled_still]
  rw [step_reply (run_quiet hs.quiet es) hanswer (by decide : 6 < ep0MaxSize)]
  exact congrArg some (List.take_of_length_le r.length)

/-- A block received over an erased flash, polled three times with a completion in between. -/
theorem Machine.received_block_settles :
    let s := erased.run [.setup (.dnload 2 1), .out (.ofBytes [0x55])]
    (s.run [.setup .getstatus, .inDone, .setup .getstatus, .idle, .setup .getstatus]).core =
      s.core.settled :=
  (polls_settle ⟨_, _, _, rfl⟩ poll poll [poll] (by decide)).1

end Polling

end NovaBootloader
