import NovaBootloader.EndpointAccess
import NovaBootloader.Transition

/-!
# Completions between the accesses of a poll

The peripheral may complete a transaction, or see a bus reset, between any two accesses of the
firmware. A completion is lost if it comes between the two accesses of `ep_set_tx_status` or
`ep_set_rx_status`: they write the `CTR` bits back as read, and a zero clears the flag raised since.
Nothing else loses one.
-/

namespace NovaBootloader
open SharedRegister

/-- What the peripheral does by itself. -/
inductive Completion where
  | received (rx : RxPacket)
  | sent
  | reset
deriving DecidableEq

namespace Machine

/-- A SETUP packet is received unless the receiver is disabled, an OUT packet if it is VALID, and a
packet is sent if the transmitter is VALID. -/
def Enables (s : Machine) : Completion → Prop
  | .received (.setup _) => s.ep0r.statRx ≠ 0
  | .received (.out _) => s.ep0r.statRx = EpStat.valid
  | .sent => s.ep0r.statTx = EpStat.valid
  | .reset => True

instance (s : Machine) : DecidablePred s.Enables
  | .received (.setup _) => inferInstanceAs (Decidable (_ ≠ _))
  | .received (.out _) => inferInstanceAs (Decidable (_ = _))
  | .sent => inferInstanceAs (Decidable (_ = _))
  | .reset => inferInstanceAs (Decidable True)

/-- What the peripheral leaves in the registers and the packet memory. -/
def complete (s : Machine) : Completion → Machine
  | .received rx => s.latchRx rx
  | .sent => s.latchTx
  | .reset =>
    { s with
      istr := { s.istr with reset := true }
      ep0r := { EpReg.zero with ctrRx := s.ep0r.ctrRx, ctrTx := s.ep0r.ctrTx }
      daddr := 0 }

theorem complete_ctr {s : Machine} {k : Direction} (h : s.ep0r.ctr k = true) (e : Completion) :
    (s.complete e).ep0r.ctr k = true := by
  rcases e with (p | d) | _ | _ <;> cases k <;> first | exact h | rfl

end Machine

def ep0Device : Device ep0Port Completion where
  act e s := if s.Enables e then s.complete e else s
  flag_act e k s h := by
    split_ifs
    · exact Machine.complete_ctr h e
    · exact h

namespace CompletionRace

abbrev step : Config Machine EpReg Direction → Option Completion → Config Machine EpReg Direction :=
  SharedRegister.step ep0Port ep0Device Ep0Code.usbPoll

def start (mem : ℕ → UInt8) (faults : ℕ → Fault) : Config Machine EpReg Direction where
  control := .running Ep0Code.usbPoll
  state := Machine.start mem faults
  owed := fun _ => false

theorem start_sound (mem : ℕ → UInt8) (faults : ℕ → Fault) :
    Sound ep0Port (fun _ => .unknown) (start mem faults) :=
  ⟨Ep0Code.usbPoll_disciplined, fun _ h => absurd rfl h, fun _ _ => rfl,
    fun _ h => absurd h Bool.false_ne_true, trivial⟩

/-- Every completion is kept until its handler runs in exactly the runs in which no completion comes
between the read and the write of an update. -/
theorem completions_kept_iff (mem : ℕ → UInt8) (faults : ℕ → Fault)
    (es : List (Option Completion)) :
    (∀ n, Kept ep0Port (StepSystem.run step (start mem faults) (es.take n))) ↔
      StepSystem.Along step (Undisturbed ep0Port) (start mem faults) es := by
  have hstart := start_sound mem faults
  rw [StepSystem.forall_take_iff_along, and_iff_right hstart.kept]
  exact kept_along_iff Ep0Code.usbPoll_disciplined ⟨_, hstart⟩ es

/-- GETSTATUS, and its answer sent while `ep0_send` is enabling the receiver: the 13th step of the
firmware makes the transmitter VALID, the 14th reads `EP0R`, the 15th writes it back. -/
def sentInUpdate : List (Option Completion) :=
  some (.received (.setup .getstatus)) :: List.replicate 14 none ++ [some .sent, none]

theorem completion_lost_in_update : ¬ ∀ n, Kept ep0Port (StepSystem.run step
    (start (fun _ => 0xFF) fun _ => Fault.none) (sentInUpdate.take n)) := by
  intro h
  have howed : (StepSystem.run step (start (fun _ => 0xFF) fun _ => Fault.none)
      (sentInUpdate.take 17)).owed .tx = true := by decide +kernel
  have hset := h 17 .tx howed
  have hclear : (StepSystem.run step (start (fun _ => 0xFF) fun _ => Fault.none)
      (sentInUpdate.take 17)).state.ep0r.ctrTx = false := by decide +kernel
  exact absurd (hset.symm.trans hclear) (by decide)

end CompletionRace

end NovaBootloader
