import NovaBootloader.Ep0Bounds
import NovaBootloader.FlashTrace

/-!
# dfuERROR

The error state and the status go together in every state, and only CLRSTATUS, ABORT and a bus reset
lead out of it. Until then nothing is asked of the flash and no flash byte is offered to the host.
-/

namespace NovaBootloader

def Dfu.Latched (d : Dfu) : Prop := d.state = .error ↔ d.status ≠ .ok

theorem Dfu.latched_of_ok {d : Dfu} (hs : d.state ≠ .error) (hok : d.status = .ok) : d.Latched :=
  iff_of_false hs (not_not.mpr hok)

theorem Dfu.latched_fail (d : Dfu) {status : DfuStatus} (h : status ≠ .ok) :
    (d.fail status).Latched := iff_of_true rfl h

namespace Dfu.Latched

variable {d : Dfu}

theorem status_eq_ok (h : d.Latched) (hs : d.state ≠ .error) : d.status = .ok :=
  not_not.mp fun hne => hs (h.mpr hne)

end Dfu.Latched

theorem executePending_latched {c : Core} (h : c.dfu.Latched) (hs : c.dfu.state = .dnbusy) :
    (executePending c).dfu.Latched := by
  have hok : c.dfu.status = .ok := h.status_eq_ok (by rw [hs]; decide)
  have hne : dfuseCmdSetAddress ≠ dfuseCmdErasePage := by decide
  have heff := executePending_effect c
  generalize executePending c = c' at heff
  cases heff with
  | setAddress => exact Dfu.latched_of_ok DfuState.noConfusion hok
  | erase => exact Dfu.latched_of_ok DfuState.noConfusion hok
  | eraseFailed => exact Dfu.latched_fail _ (by decide)
  | refuse hcmd status hset herase hother =>
    apply Dfu.latched_fail
    by_cases hs : c.dfu.cmdPending = dfuseCmdSetAddress
    · rw [(hset hs).2]
      decide
    · by_cases he : c.dfu.cmdPending = dfuseCmdErasePage
      · rw [(herase he).2]
        decide
      · rw [hother hs he]
        decide
  | write => exact Dfu.latched_of_ok DfuState.noConfusion hok
  | writeFailed => exact Dfu.latched_fail _ (by decide)
  | empty => exact Dfu.latched_of_ok DfuState.noConfusion hok

theorem coreStep_latched {c : Core} (h : c.dfu.Latched) (e : UsbEvent) :
    (coreStep c e).dfu.Latched := by
  rcases e with _ | _ | ⟨_ | (p | d), tx⟩
  · exact h
  · exact Dfu.latched_of_ok DfuState.noConfusion rfl
  · exact h
  · rw [coreStep]
    have heff := request_effect p c
    generalize (Machine.request p c).1 = c' at heff
    have hok {state : DfuState} (hs : c.dfu.state = state) (hne : state ≠ .error) :
        c.dfu.status = .ok := h.status_eq_ok (by rwa [hs])
    cases heff with
    | none => exact h
    | sync hp hs => exact Dfu.latched_of_ok DfuState.noConfusion (hok hs (by decide))
    | attempt hatt => exact executePending_latched h hatt.2
    | manifest hp hs => exact Dfu.latched_of_ok DfuState.noConfusion (hok hs (by decide))
    | finish hp hlen hs => exact Dfu.latched_of_ok DfuState.noConfusion (hok hs (by decide))
    | oversize => exact Dfu.latched_fail _ (by decide)
    | accept hacc =>
      rcases hacc.2.2.2 with hs | hs
      · exact Dfu.latched_of_ok DfuState.noConfusion (hok hs (by decide))
      · exact Dfu.latched_of_ok DfuState.noConfusion (hok hs (by decide))
    | upload hp hs state hstate =>
      have hstatus : c.dfu.status = .ok := by
        rcases hs with hs | hs
        · exact hok hs (by decide)
        · exact hok hs (by decide)
      rcases hstate with rfl | rfl
      · exact Dfu.latched_of_ok DfuState.noConfusion hstatus
      · exact Dfu.latched_of_ok DfuState.noConfusion hstatus
    | clrstatus => exact Dfu.latched_of_ok DfuState.noConfusion rfl
    | abort => exact Dfu.latched_of_ok DfuState.noConfusion rfl
  · rw [coreStep]
    split_ifs
    · unfold Dfu.Latched
      rw [dataStage_state, dataStage_status]
      exact h
    · exact h

def UsbEvent.Releases (e : UsbEvent) : Prop :=
  e = .reset ∨ ∃ p ∈ e.setup?, p.IsDfu dfuClrstatus ∨ p.IsDfu dfuAbort

instance (e : UsbEvent) : Decidable e.Releases := inferInstanceAs (Decidable (_ ∨ _))

/-- In dfuERROR any other event leaves the DFU variables and the flash as they are, down to the
status an oversized DNLOAD reports. -/
theorem coreStep_of_error {c : Core} (hs : c.dfu.state = .error) {e : UsbEvent}
    (he : ¬ e.Releases) :
    coreStep c e = c ∨ coreStep c e = { c with dfu := c.dfu.fail .errUnknown } := by
  rcases e with _ | _ | ⟨_ | (p | d), tx⟩
  · exact Or.inl rfl
  · exact absurd (Or.inl rfl) he
  · exact Or.inl rfl
  · have hp : ¬ p.IsDfu dfuClrstatus ∧ ¬ p.IsDfu dfuAbort :=
      not_or.mp fun h => he (Or.inr ⟨p, rfl, h⟩)
    rw [coreStep]
    have heff := request_effect p c
    generalize (Machine.request p c).1 = c' at heff
    cases heff with
    | none => exact Or.inl rfl
    | sync _ hs' => cases hs.symm.trans hs'
    | attempt hatt => cases hs.symm.trans hatt.2
    | manifest _ hs' => cases hs.symm.trans hs'
    | finish _ _ hs' => cases hs.symm.trans hs'
    | oversize => exact Or.inr rfl
    | accept hacc => rcases hacc.2.2.2 with hs' | hs' <;> cases hs.symm.trans hs'
    | upload _ hs' => rcases hs' with hs' | hs' <;> cases hs.symm.trans hs'
    | clrstatus hc => exact absurd hc hp.1
    | abort ha => exact absurd ha hp.2
  · rw [coreStep, if_neg]
    · exact Or.inl rfl
    · rw [hs]
      exact fun h => by cases h.1

theorem handleGetDescriptor_object {value : UInt16} {len n : ℕ} {data : TxPtr}
    (h : handleGetDescriptor value len = .send data n) : data.object ≠ .flash := by
  unfold handleGetDescriptor at h
  dsimp only at h
  split_ifs at h <;> cases h <;> exact TxObject.noConfusion

theorem handleDfuUpload_send {block len n : ℕ} {d : Dfu} {data : TxPtr}
    (h : (handleDfuUpload block len d).2 = .send data n) :
    (handleDfuUpload block len d).1.state = .uploadIdle := by
  unfold handleDfuUpload at h ⊢
  dsimp only at h ⊢
  split_ifs at h ⊢ <;> cases h <;> rfl

theorem request_send_flash {p : SetupPacket} {c : Core} {n : ℕ} {data : TxPtr}
    (h : (Machine.request p c).2 = .send data n) (hobject : data.object = .flash) :
    (Machine.request p c).1.dfu.state = .uploadIdle := by
  by_cases hup : p.IsDfu dfuUpload
  · rw [request_upload hup] at h ⊢
    exact handleDfuUpload_send h
  exfalso
  unfold Machine.request at h
  by_cases hstd : p.IsStandard
  · rw [if_pos hstd] at h
    change Machine.standardCall p = _ at h
    unfold Machine.standardCall at h
    split_ifs at h
    · exact handleGetDescriptor_object h hobject
  · rw [if_neg hstd] at h
    split_ifs at h with hclass
    unfold dfuRequest at h
    dsimp only at h
    rw [if_neg fun hr => hup ⟨hclass, hr⟩] at h
    split_ifs at h
    · cases h
    · cases h
    · unfold handleDfuDnload at h
      split_ifs at h
    · cases h
    · cases h

namespace Machine

def FlashInUpload (s : Machine) : Prop :=
  s.ep0TxPtr.object = .flash → s.core.dfu.state = .uploadIdle

theorem runCall_ptr_flash {s : Machine} {call : Ep0Call} (hs : s.ep0TxPtr.object ≠ .flash)
    (h : (s.runCall call).ep0TxPtr.object = .flash) :
    ∃ data n, call = .send data n ∧ data.object = .flash := by
  cases call with
  | reply bytes =>
    rw [runCall, ep0Send_ptr] at h
    cases h
  | send data n =>
    rw [runCall, ep0Send_ptr] at h
    exact ⟨data, n, rfl, h⟩
  | sendZlp => cases h
  | stall => cases h
  | enableRx => exact absurd h hs

theorem FlashInUpload.receive {s : Machine} (hs : s.FlashInUpload) (rx : RxPacket) :
    (s.receive rx).FlashInUpload := by
  intro h
  rw [receive_core s rx false]
  cases rx with
  | setup p =>
    rw [receive_setup] at h
    obtain ⟨data, n, hcall, hobject⟩ := runCall_ptr_flash TxObject.noConfusion h
    exact request_send_flash hcall hobject
  | out d =>
    rw [receive_out] at h
    dsimp only at h
    rw [coreStep]
    split_ifs at h ⊢ with hdata
    · cases h
    · have hstate := hs h
      rw [hdata.1] at hstate
      cases hstate
    · exact hs h

theorem FlashInUpload.handleEp0In {s : Machine} (hs : s.FlashInUpload) :
    s.handleEp0In.FlashInUpload := by
  intro h
  rw [handleEp0In_core]
  apply hs
  unfold Machine.handleEp0In at h
  dsimp only at h
  split_ifs at h <;> exact h

theorem Reachable.flashInUpload {s : Machine} (hs : s.Reachable) : s.FlashInUpload := by
  obtain ⟨mem, faults, es, rfl⟩ := hs
  refine (StepSystem.run_invariant (fun s : Machine => s.Quiet ∧ s.FlashInUpload)
    (fun _ e h => ⟨step_quiet h.1 e, ?_⟩) ⟨start_quiet mem faults, TxObject.noConfusion⟩ es).2
  exact step_preserves (fun _ _ _ _ h => h) (fun _ _ => TxObject.noConfusion)
    (fun _ rx h => h.receive rx) (fun _ h => h.handleEp0In) h.1 h.2 e

/-- What a stay in dfuERROR leaves alone. -/
structure Held (s s' : Machine) : Prop where
  state : s'.core.dfu.state = .error
  flash : s'.core.flash = s.core.flash
  addressPtr : s'.core.dfu.addressPtr = s.core.dfu.addressPtr

theorem run_held {s : Machine} (hq : s.Quiet) (hs : s.core.dfu.state = .error)
    {es : List UsbEvent} (hes : ∀ e ∈ es, ¬ e.Releases) : s.Held (s.run es) := by
  induction es generalizing s with
  | nil => exact ⟨hs, rfl, rfl⟩
  | cons e es ih =>
    have hstep := coreStep_of_error hs (hes e List.mem_cons_self)
    rw [← step_core hq] at hstep
    have hheld : s.Held (s.step e) := by
      rcases hstep with h | h
      · exact ⟨h ▸ hs, h ▸ rfl, h ▸ rfl⟩
      · exact ⟨h ▸ rfl, h ▸ rfl, h ▸ rfl⟩
    have hrest := ih (step_quiet hq e) hheld.state fun e' he' => hes e' (List.mem_cons_of_mem _ he')
    exact ⟨hrest.state, hrest.flash.trans hheld.flash, hrest.addressPtr.trans hheld.addressPtr⟩

theorem Reachable.run {s : Machine} (hs : s.Reachable) (es : List UsbEvent) :
    (s.run es).Reachable := by
  obtain ⟨mem, faults, es', rfl⟩ := hs
  exact ⟨mem, faults, es' ++ es, (StepSystem.run_append _ _ _ _).symm⟩

theorem Reachable.latched {s : Machine} (hs : s.Reachable) : s.core.dfu.Latched := by
  obtain ⟨mem, faults, es, rfl⟩ := hs
  rw [run_core (start_quiet mem faults)]
  exact StepSystem.run_invariant (fun c : Core => c.dfu.Latched) (fun _ e h => coreStep_latched h e)
    (Dfu.latched_of_ok DfuState.noConfusion rfl) es

/-- In every reachable state the state is dfuERROR exactly if the status reports an error, and from
such a state every run without CLRSTATUS, ABORT and bus reset stays in dfuERROR, asks nothing of the
flash, leaves the address pointer alone and offers no flash to the host. -/
theorem error_is_latched (mem : ℕ → UInt8) (faults : ℕ → Fault) (es : List UsbEvent) :
    let s := (start mem faults).run es
    (s.core.dfu.state = .error ↔ s.core.dfu.status ≠ .ok) ∧
      (s.core.dfu.state = .error → ∀ es', (∀ e ∈ es', ¬ e.Releases) →
        let s' := s.run es'
        s'.core.dfu.state = .error ∧ s'.core.flash = s.core.flash ∧
          s'.core.dfu.addressPtr = s.core.dfu.addressPtr ∧ s'.ep0TxPtr.object ≠ .flash ∧
          ∀ packet, s'.offered = some packet → s'.SentFrom packet) := by
  intro s
  have hs : s.Reachable := ⟨mem, faults, es, rfl⟩
  refine ⟨hs.latched, fun herr es' hes' => ?_⟩
  have hheld := run_held hs.quiet herr hes'
  have hs' := hs.run es'
  refine ⟨hheld.state, hheld.flash, hheld.addressPtr, fun hflash => ?_, fun packet hp => ?_⟩
  · cases hheld.state.symm.trans (hs'.flashInUpload hflash)
  · obtain ⟨hv, rfl⟩ := offered_eq_some_iff.mp hp
    exact hs'.txInside.offered hv

end Machine

end NovaBootloader
