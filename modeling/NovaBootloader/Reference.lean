import NovaBootloader.DfuFunction

/-!
# What a DfuSe download session is for

The host moves an address pointer, erases pages and stores data blocks at offsets from the pointer.
The reference interpreter knows the flash contents, the pointer and how the last command ended, and
computes addresses without bounds. It says nothing about packets, buffers or polls.
-/

namespace NovaBootloader
open ByteMemory

/-- A command of a session; a data block has a block number and a length the protocol allows. -/
inductive Command where
  | setAddress (a : UInt32)
  | erasePage (a : UInt32)
  | dataBlock (block : ℕ) (bytes : List UInt8) (hblock : 2 ≤ block) (hpos : 0 < bytes.length)
      (hlen : bytes.length ≤ dfuXferSize)

namespace Command

def block : Command → ℕ
  | setAddress _ => 0
  | erasePage _ => 0
  | dataBlock block _ _ _ _ => block

def payload : Command → List UInt8
  | setAddress a => dfuseCmdSetAddress :: bytes32 a
  | erasePage a => dfuseCmdErasePage :: bytes32 a
  | dataBlock _ bytes _ _ _ => bytes

theorem length_payload (command : Command) :
    0 < command.payload.length ∧ command.payload.length ≤ dfuXferSize := by
  have hfive : 0 < 5 ∧ 5 ≤ dfuXferSize := by decide
  cases command with
  | setAddress a => exact hfive
  | erasePage a => exact hfive
  | dataBlock block bytes hblock hpos hlen => exact ⟨hpos, hlen⟩

theorem block_ne_one (command : Command) : command.block ≠ 1 := by
  cases command with
  | setAddress a => exact zero_ne_one
  | erasePage a => exact zero_ne_one
  | dataBlock block bytes hblock hpos hlen =>
    intro (h : block = 1)
    omega

end Command

/-- The bytes of a block as they are stored: an odd tail is padded with the erased value. -/
def padEven (bytes : List UInt8) : List UInt8 :=
  if bytes.length % 2 = 0 then bytes else bytes ++ [0xFF]

structure Reference where
  flash : ℕ → UInt8
  pointer : UInt32
  state : DfuState
  status : DfuStatus

namespace Reference

def fail (r : Reference) (status : DfuStatus) : Reference :=
  { r with state := .error, status := status }

def exec (r : Reference) : Command → Reference
  | .setAddress a => { r with pointer := a, state := .dnloadIdle }
  | .erasePage a =>
    let page := a.toNat / 2048 * 2048
    if InRegion page 2048 then
      { r with flash := overwrite r.flash page 2048 fun _ => 0xFF, state := .dnloadIdle }
    else r.fail .errErase
  | .dataBlock block bytes _ _ _ =>
    let target := r.pointer.toNat + (block - 2) * 1024
    if InRegion target bytes.length then
      { r with
        flash := overwrite r.flash target (padEven bytes).length (ofList (padEven bytes))
        state := .dnloadIdle }
    else r.fail .errWrite

/-- Nothing is executed in dfuERROR. -/
def step (r : Reference) (command : Command) : Reference :=
  if r.state = .error then r else r.exec command

/-- The states the host is told when it polls twice after a command. -/
def reported (r : Reference) (command : Command) : List UInt8 :=
  if r.state = .error then [DfuState.error.toByte, DfuState.error.toByte]
  else [DfuState.dnbusy.toByte, (r.exec command).state.toByte]

theorem exec_state (r : Reference) (state : DfuState) (command : Command) :
    { r with state := state }.exec command = r.exec command := by
  cases command with
  | setAddress a => rfl
  | erasePage a =>
    unfold exec
    dsimp only
    split_ifs <;> rfl
  | dataBlock block bytes hblock hpos hlen =>
    unfold exec
    dsimp only
    split_ifs <;> rfl

theorem exec_ends (r : Reference) (command : Command) :
    (r.exec command).state = .dnloadIdle ∨ (r.exec command).state = .error := by
  cases command with
  | setAddress a => exact Or.inl rfl
  | erasePage a =>
    unfold exec
    dsimp only
    split_ifs
    · exact Or.inl rfl
    · exact Or.inr rfl
  | dataBlock block bytes hblock hpos hlen =>
    unfold exec
    dsimp only
    split_ifs
    · exact Or.inl rfl
    · exact Or.inr rfl

end Reference

end NovaBootloader
