import NovaBootloader.Poll

/-!
# The transitions of the DFU function

`SetupEffect` lists what a SETUP packet can do to the DFU variables and the flash, guards included.
The invariants of whole runs are proved from this list. `Executes` singles out the one transition
that reaches the flash: a GETSTATUS in dfuDNBUSY.
-/

namespace NovaBootloader
open ByteMemory

def SetupPacket.IsDfu (p : SetupPacket) (code : UInt8) : Prop := p.IsClass ∧ p.bRequest = code

instance (p : SetupPacket) (code : UInt8) : Decidable (p.IsDfu code) :=
  inferInstanceAs (Decidable (_ ∧ _))

namespace SetupPacket

/-- The requests as a DFU host sends them. -/
def dnload (block len : UInt16) : SetupPacket := ⟨0x21, dfuDnload, block, 0, len⟩

def upload (block len : UInt16) : SetupPacket := ⟨0xA1, dfuUpload, block, 0, len⟩

def getstatus : SetupPacket := ⟨0xA1, dfuGetstatus, 0, 0, 6⟩

def clrstatus : SetupPacket := ⟨0x21, dfuClrstatus, 0, 0, 0⟩

def abort : SetupPacket := ⟨0x21, dfuAbort, 0, 0, 0⟩

end SetupPacket

def OutPacket.ofBytes (bytes : List UInt8) : OutPacket where
  bytes := bytes.take 1023
  fits := Nat.lt_of_le_of_lt (List.length_take_le _ _) (by decide)

/-- DFU mode over an erased flash that never fails. -/
def Machine.erased : Machine := Machine.start (fun _ => 0xFF) fun _ => Fault.none

theorem SetupPacket.IsDfu.code_unique {p : SetupPacket} {a b : UInt8} (ha : p.IsDfu a)
    (hb : p.IsDfu b) : a = b := ha.2.symm.trans hb.2

namespace Dfu

/-- A download has been accepted and its operation has not been attempted yet. -/
def Downloading (d : Dfu) : Prop := d.state = .dnloadSync ∨ d.state = .dnbusy

instance (d : Dfu) : Decidable d.Downloading := inferInstanceAs (Decidable (_ ∨ _))

/-- The address `handle_dfu_dnload` and `handle_dfu_upload` compute for a data block. -/
def blockAddress (d : Dfu) (block : ℕ) : UInt32 :=
  d.addressPtr + UInt32.ofNat (block - 2) * UInt32.ofNat dfuXferSize

def accept (block len : ℕ) (d : Dfu) : Dfu :=
  { d with
    blockNum := block
    xferLen := len
    bufferLen := 0
    address := if 2 ≤ block then d.blockAddress block else d.address
    state := .dnloadSync }

end Dfu

def Accepts (p : SetupPacket) (d : Dfu) : Prop :=
  p.IsDfu dfuDnload ∧ (0 < p.wLength.toNat ∧ p.wLength.toNat ≤ dfuXferSize) ∧ p.wValue.toNat ≠ 1 ∧
    (d.state = .idle ∨ d.state = .dnloadIdle)

instance (p : SetupPacket) (d : Dfu) : Decidable (Accepts p d) :=
  inferInstanceAs (Decidable (_ ∧ _))

def Attempts (p : SetupPacket) (d : Dfu) : Prop := p.IsDfu dfuGetstatus ∧ d.state = .dnbusy

instance (p : SetupPacket) (d : Dfu) : Decidable (Attempts p d) :=
  inferInstanceAs (Decidable (_ ∧ _))

/-- Everything a SETUP packet can do to the DFU variables and the flash. -/
inductive SetupEffect (p : SetupPacket) (c : Core) : Core → Prop
  | none (hacc : ¬ Accepts p c.dfu) (hatt : ¬ Attempts p c.dfu) : SetupEffect p c c
  | sync (hp : p.IsDfu dfuGetstatus) (hs : c.dfu.state = .dnloadSync) :
      SetupEffect p c { c with dfu := { c.dfu with state := .dnbusy } }
  | attempt (hatt : Attempts p c.dfu) : SetupEffect p c (executePending c)
  | manifest (hp : p.IsDfu dfuGetstatus) (hs : c.dfu.state = .manifestSync) :
      SetupEffect p c { c with dfu := { c.dfu with state := .manifestWaitReset } }
  | finish (hp : p.IsDfu dfuDnload) (hlen : p.wLength.toNat = 0) (hs : c.dfu.state = .dnloadIdle) :
      SetupEffect p c { c with dfu := { c.dfu with state := .manifestSync } }
  | oversize (hp : p.IsDfu dfuDnload) (hlen : dfuXferSize < p.wLength.toNat) :
      SetupEffect p c { c with dfu := c.dfu.fail .errUnknown }
  | accept (hacc : Accepts p c.dfu) :
      SetupEffect p c { c with dfu := c.dfu.accept p.wValue.toNat p.wLength.toNat }
  | upload (hp : p.IsDfu dfuUpload) (hs : c.dfu.state = .idle ∨ c.dfu.state = .uploadIdle)
      (state : DfuState) (hstate : state = .idle ∨ state = .uploadIdle) :
      SetupEffect p c { c with dfu := { c.dfu with state := state } }
  | clrstatus (hp : p.IsDfu dfuClrstatus) (hs : c.dfu.state = .error) :
      SetupEffect p c { c with dfu := { c.dfu with status := .ok, state := .idle } }
  | abort (hp : p.IsDfu dfuAbort) : SetupEffect p c { c with dfu := (handleDfuAbort c.dfu).1 }

namespace SetupEffect

variable {p : SetupPacket} {c : Core}

theorem none_of_request {code : UInt8} (hp : p.IsDfu code) (hg : code ≠ dfuGetstatus)
    (hd : code ≠ dfuDnload) : SetupEffect p c c :=
  .none (fun h => hd (hp.code_unique h.1)) fun h => hg (hp.code_unique h.1)

theorem of_getstatus (hp : p.IsDfu dfuGetstatus) : SetupEffect p c (getstatusTransition c).1 := by
  have hacc : ¬ Accepts p c.dfu := fun h => absurd (hp.code_unique h.1) (by decide)
  unfold getstatusTransition
  by_cases hsync : c.dfu.state = .dnloadSync
  · rw [if_pos hsync]
    exact .sync hp hsync
  rw [if_neg hsync]
  by_cases hbusy : c.dfu.state = .dnbusy
  · rw [if_pos hbusy]
    exact .attempt ⟨hp, hbusy⟩
  rw [if_neg hbusy]
  by_cases hman : c.dfu.state = .manifestSync
  · rw [if_pos hman]
    exact .manifest hp hman
  · rw [if_neg hman]
    exact .none hacc fun h => hbusy h.2

theorem of_dnload (hp : p.IsDfu dfuDnload) :
    SetupEffect p c { c with dfu := (handleDfuDnload p.wValue.toNat p.wLength.toNat c.dfu).1 } := by
  have hatt : ¬ Attempts p c.dfu := fun h => absurd (hp.code_unique h.1) (by decide)
  unfold handleDfuDnload
  by_cases hzero : p.wLength.toNat = 0
  · rw [if_pos hzero]
    by_cases hs : c.dfu.state = .dnloadIdle
    · rw [if_pos hs]
      exact .finish hp hzero hs
    · rw [if_neg hs]
      exact .none (fun h => absurd hzero h.2.1.1.ne') hatt
  rw [if_neg hzero]
  by_cases hbig : dfuXferSize < p.wLength.toNat
  · rw [if_pos hbig]
    exact .oversize hp hbig
  rw [if_neg hbig]
  by_cases hone : p.wValue.toNat = 1
  · rw [if_pos hone]
    exact .none (fun h => h.2.2.1 hone) hatt
  rw [if_neg hone]
  by_cases hs : c.dfu.state = .idle ∨ c.dfu.state = .dnloadIdle
  · rw [if_pos hs]
    exact .accept ⟨hp, ⟨by omega, by omega⟩, hone, hs⟩
  · rw [if_neg hs]
    exact .none (fun h => hs h.2.2.2) hatt

theorem of_upload (hp : p.IsDfu dfuUpload) :
    SetupEffect p c { c with dfu := (handleDfuUpload p.wValue.toNat p.wLength.toNat c.dfu).1 } := by
  have hnone : SetupEffect p c c := none_of_request hp (by decide) (by decide)
  unfold handleDfuUpload
  by_cases hs : c.dfu.state = .idle ∨ c.dfu.state = .uploadIdle
  · rw [if_neg (by tauto)]
    by_cases hblock : p.wValue.toNat < 2
    · rw [if_pos hblock]
      exact hnone
    · rw [if_neg hblock]
      dsimp only
      split_ifs
      · exact .upload hp hs _ (Or.inl rfl)
      · exact .upload hp hs _ (Or.inr rfl)
      · exact .upload hp hs _ (Or.inr rfl)
  · rw [if_pos (by tauto)]
    exact hnone

theorem of_clrstatus (hp : p.IsDfu dfuClrstatus) :
    SetupEffect p c { c with dfu := (handleDfuClrstatus c.dfu).1 } := by
  unfold handleDfuClrstatus
  by_cases hs : c.dfu.state = .error
  · rw [if_pos hs]
    exact .clrstatus hp hs
  · rw [if_neg hs]
    exact none_of_request hp (by decide) (by decide)

end SetupEffect

theorem request_of_isDfu {p : SetupPacket} {code : UInt8} (hp : p.IsDfu code) (c : Core) :
    Machine.request p c = dfuRequest p c := by
  unfold Machine.request
  rw [if_neg (SetupPacket.not_isStandard_of_isClass hp.1), if_pos hp.1]

theorem request_of_not_isClass {p : SetupPacket} (hp : ¬ p.IsClass) (c : Core) :
    (Machine.request p c).1 = c := by
  unfold Machine.request
  rw [if_neg hp]
  split_ifs <;> rfl

section Requests

variable {p : SetupPacket}

theorem request_getstatus (hp : p.IsDfu dfuGetstatus) (c : Core) :
    Machine.request p c = handleDfuGetstatus c := by
  rw [request_of_isDfu hp]
  exact if_pos hp.2

theorem request_dnload (hp : p.IsDfu dfuDnload) (c : Core) :
    Machine.request p c =
      ({ c with dfu := (handleDfuDnload p.wValue.toNat p.wLength.toNat c.dfu).1 },
        (handleDfuDnload p.wValue.toNat p.wLength.toNat c.dfu).2) := by
  rw [request_of_isDfu hp]
  unfold dfuRequest
  rw [hp.2]
  rfl

theorem request_upload (hp : p.IsDfu dfuUpload) (c : Core) :
    Machine.request p c =
      ({ c with dfu := (handleDfuUpload p.wValue.toNat p.wLength.toNat c.dfu).1 },
        (handleDfuUpload p.wValue.toNat p.wLength.toNat c.dfu).2) := by
  rw [request_of_isDfu hp]
  unfold dfuRequest
  rw [hp.2]
  rfl

theorem request_abort (hp : p.IsDfu dfuAbort) (c : Core) :
    Machine.request p c =
      ({ c with dfu := (handleDfuAbort c.dfu).1 }, (handleDfuAbort c.dfu).2) := by
  rw [request_of_isDfu hp]
  unfold dfuRequest
  rw [hp.2]
  rfl

end Requests

theorem request_of_accepts {p : SetupPacket} {c : Core} (h : Accepts p c.dfu) :
    Machine.request p c =
      ({ c with dfu := c.dfu.accept p.wValue.toNat p.wLength.toNat }, .enableRx) := by
  obtain ⟨hp, ⟨hpos, hlen⟩, hblock, hs⟩ := h
  have hdnload : handleDfuDnload p.wValue.toNat p.wLength.toNat c.dfu =
      (c.dfu.accept p.wValue.toNat p.wLength.toNat, .enableRx) := by
    unfold handleDfuDnload
    rw [if_neg hpos.ne', if_neg (not_lt.mpr hlen), if_neg hblock, if_pos hs]
    rfl
  rw [request_dnload hp, hdnload]

theorem request_of_refused {p : SetupPacket} {c : Core} (hp : p.IsDfu dfuDnload)
    (hpos : 0 < p.wLength.toNat) (hlen : p.wLength.toNat ≤ dfuXferSize)
    (hrefused : ¬ Accepts p c.dfu) : Machine.request p c = (c, .stall) := by
  have hdnload : handleDfuDnload p.wValue.toNat p.wLength.toNat c.dfu = (c.dfu, .stall) := by
    unfold handleDfuDnload
    rw [if_neg hpos.ne', if_neg (not_lt.mpr hlen)]
    by_cases hblock : p.wValue.toNat = 1
    · rw [if_pos hblock]
    rw [if_neg hblock]
    by_cases hs : c.dfu.state = .idle ∨ c.dfu.state = .dnloadIdle
    · exact absurd ⟨hp, ⟨hpos, hlen⟩, hblock, hs⟩ hrefused
    · rw [if_neg hs]
  rw [request_dnload hp, hdnload]

/-- Every SETUP packet acts in one of the listed ways. -/
theorem request_effect (p : SetupPacket) (c : Core) :
    SetupEffect p c (Machine.request p c).1 := by
  by_cases hp : p.IsClass
  swap
  · rw [request_of_not_isClass hp]
    exact .none (fun h => hp h.1.1) fun h => hp h.1.1
  rw [request_of_isDfu ⟨hp, rfl⟩]
  unfold dfuRequest
  dsimp only
  by_cases hg : p.bRequest = dfuGetstatus
  · rw [if_pos hg]
    exact .of_getstatus ⟨hp, hg⟩
  rw [if_neg hg]
  by_cases hgs : p.bRequest = dfuGetstate
  · rw [if_pos hgs]
    exact .none_of_request ⟨hp, hgs⟩ (by decide) (by decide)
  rw [if_neg hgs]
  by_cases hd : p.bRequest = dfuDnload
  · rw [if_pos hd]
    exact .of_dnload ⟨hp, hd⟩
  rw [if_neg hd]
  by_cases hu : p.bRequest = dfuUpload
  · rw [if_pos hu]
    exact .of_upload ⟨hp, hu⟩
  rw [if_neg hu]
  by_cases hc : p.bRequest = dfuClrstatus
  · rw [if_pos hc]
    exact .of_clrstatus ⟨hp, hc⟩
  rw [if_neg hc]
  by_cases ha : p.bRequest = dfuAbort
  · rw [if_pos ha]
    exact .abort ⟨hp, ha⟩
  · rw [if_neg ha]
    exact .none (fun h => hd h.1.2) fun h => hg h.1.2

def UsbEvent.setup? : UsbEvent → Option SetupPacket
  | .ctr (some (.setup p)) _ => some p
  | _ => none

/-- The event lets `handle_dfu_getstatus` attempt the pending operation. -/
def Executes (c : Core) (e : UsbEvent) : Prop := ∃ p ∈ e.setup?, Attempts p c.dfu

instance (c : Core) (e : UsbEvent) : Decidable (Executes c e) :=
  inferInstanceAs (Decidable (∃ p ∈ e.setup?, Attempts p c.dfu))

theorem Executes.downloading {c : Core} {e : UsbEvent} (h : Executes c e) : c.dfu.Downloading := by
  obtain ⟨_, _, hatt⟩ := h
  exact Or.inr hatt.2

theorem coreStep_of_executes {c : Core} {e : UsbEvent} (h : Executes c e) :
    coreStep c e = executePending c := by
  obtain ⟨p, hp, hatt⟩ := h
  rcases e with _ | _ | ⟨_ | (p' | d), tx⟩ <;> simp only [UsbEvent.setup?, Option.mem_def,
    reduceCtorEq, Option.some.injEq] at hp
  subst hp
  rw [coreStep, request_of_isDfu hatt.1]
  unfold dfuRequest
  rw [if_pos hatt.1.2]
  change (getstatusTransition c).1 = _
  unfold getstatusTransition
  rw [if_neg (by simp [hatt.2]), if_pos hatt.2]

/-- Only an attempt reaches the flash. -/
theorem coreStep_flash {c : Core} {e : UsbEvent} (h : ¬ Executes c e) :
    (coreStep c e).flash = c.flash := by
  rcases e with _ | _ | ⟨_ | (p | d), tx⟩
  · rfl
  · rfl
  · rfl
  · rw [coreStep]
    have heff := request_effect p c
    generalize (Machine.request p c).1 = c' at heff
    cases heff with
    | attempt hatt => exact absurd ⟨p, rfl, hatt⟩ h
    | _ => rfl
  · rw [coreStep]
    split_ifs <;> rfl

section DataStage

variable (data : ℕ → UInt8) (count : ℕ) (d : Dfu)

theorem dataStage_frame : (dataStage data count d).1 = { d with
    buffer := (dataStage data count d).1.buffer
    bufferLen := (dataStage data count d).1.bufferLen
    cmdPending := (dataStage data count d).1.cmdPending
    cmdHasArg := (dataStage data count d).1.cmdHasArg
    cmdArg := (dataStage data count d).1.cmdArg } := by
  unfold dataStage appendData
  dsimp only
  split_ifs <;> rfl

@[simp] theorem dataStage_state : (dataStage data count d).1.state = d.state := by
  rw [dataStage_frame]

@[simp] theorem dataStage_blockNum : (dataStage data count d).1.blockNum = d.blockNum := by
  rw [dataStage_frame]

@[simp] theorem dataStage_xferLen : (dataStage data count d).1.xferLen = d.xferLen := by
  rw [dataStage_frame]

@[simp] theorem dataStage_address : (dataStage data count d).1.address = d.address := by
  rw [dataStage_frame]

@[simp] theorem dataStage_addressPtr : (dataStage data count d).1.addressPtr = d.addressPtr := by
  rw [dataStage_frame]

@[simp] theorem dataStage_status : (dataStage data count d).1.status = d.status := by
  rw [dataStage_frame]

end DataStage

/-- What the download variables satisfy between two events. -/
structure Dfu.Consistent (d : Dfu) : Prop where
  bufferLen_le : d.bufferLen ≤ dfuXferSize
  xferLen : d.Downloading → 0 < d.xferLen ∧ d.xferLen ≤ dfuXferSize
  blockNum : d.Downloading → d.blockNum ≠ 1
  address : d.Downloading → 2 ≤ d.blockNum → d.address = d.blockAddress d.blockNum
  -- a complete block 0 is decoded at once, and decoding empties the buffer
  undecoded : d.Downloading → d.blockNum = 0 → d.bufferLen < d.xferLen

namespace Dfu.Consistent

theorem of_not_downloading {d : Dfu} (hlen : d.bufferLen ≤ dfuXferSize) (hd : ¬ d.Downloading) :
    d.Consistent := ⟨hlen, fun h => absurd h hd, fun h => absurd h hd, fun h => absurd h hd,
      fun h => absurd h hd⟩

theorem of_state {d : Dfu} (h : d.Consistent) (hd : d.Downloading) (state : DfuState) :
    Dfu.Consistent { d with state := state } :=
  ⟨h.bufferLen_le, fun _ => h.xferLen hd, fun _ => h.blockNum hd, fun _ => h.address hd,
    fun _ => h.undecoded hd⟩

theorem accept {d : Dfu} {block len : ℕ} (hpos : 0 < len) (hlen : len ≤ dfuXferSize)
    (hblock : block ≠ 1) : (d.accept block len).Consistent := by
  refine ⟨Nat.zero_le _, fun _ => ⟨hpos, hlen⟩, fun _ => hblock, fun _ h2 => ?_, fun _ _ => hpos⟩
  exact if_pos h2

theorem dataStage {d : Dfu} (h : d.Consistent) (hd : d.Downloading) (data : ℕ → UInt8)
    (count : ℕ) : (dataStage data count d).1.Consistent := by
  obtain ⟨hpos, hle⟩ := h.xferLen hd
  have happ : (appendData data count d).bufferLen ≤ dfuXferSize := by
    unfold appendData
    split_ifs with hfit
    · exact hfit
    · exact h.bufferLen_le
  have hblock : (appendData data count d).blockNum = d.blockNum := by
    unfold appendData
    split_ifs <;> rfl
  refine ⟨?_, fun _ => ?_, fun _ => ?_, fun _ => ?_, fun _ h0 => ?_⟩
  · unfold NovaBootloader.dataStage
    dsimp only
    split_ifs
    · exact Nat.zero_le _
    · exact happ
    · exact happ
  · rw [dataStage_xferLen]
    exact ⟨hpos, hle⟩
  · rw [dataStage_blockNum]
    exact h.blockNum hd
  · rw [dataStage_blockNum, dataStage_address, Dfu.blockAddress, dataStage_addressPtr]
    exact h.address hd
  · have hx := dataStage_xferLen data count d
    rw [dataStage_blockNum] at h0
    rw [hx]
    have hxa : (appendData data count d).xferLen = d.xferLen := by
      unfold appendData
      split_ifs <;> rfl
    unfold NovaBootloader.dataStage
    dsimp only
    rw [hxa, hblock]
    split_ifs with hcomplete hdecode
    · exact hpos
    · exact absurd ⟨h0, by omega⟩ hdecode
    · exact Nat.lt_of_not_le hcomplete

end Dfu.Consistent

/-- Everything an attempt can do to the DFU variables and the flash. -/
inductive AttemptEffect (c : Core) : Core → Prop
  | setAddress (hcmd : c.dfu.cmdPending = dfuseCmdSetAddress) (harg : c.dfu.cmdHasArg = true) :
      AttemptEffect c { c with dfu := { c.dfu with
        cmdPending := 0, addressPtr := c.dfu.cmdArg, state := .dnloadIdle } }
  | erase (hcmd : c.dfu.cmdPending = dfuseCmdErasePage) (harg : c.dfu.cmdHasArg = true)
      (hok : (flashErasePage c.dfu.cmdArg c.flash).2 = 0) :
      AttemptEffect c ⟨{ c.dfu with cmdPending := 0, state := .dnloadIdle },
        (flashErasePage c.dfu.cmdArg c.flash).1⟩
  | eraseFailed (hcmd : c.dfu.cmdPending = dfuseCmdErasePage) (harg : c.dfu.cmdHasArg = true)
      (hfail : (flashErasePage c.dfu.cmdArg c.flash).2 ≠ 0) :
      AttemptEffect c ⟨Dfu.fail { c.dfu with cmdPending := 0 } .errErase,
        (flashErasePage c.dfu.cmdArg c.flash).1⟩
  | refuse (hcmd : c.dfu.cmdPending ≠ 0) (status : DfuStatus)
      (hset : c.dfu.cmdPending = dfuseCmdSetAddress →
        c.dfu.cmdHasArg = false ∧ status = .errAddress)
      (herase : c.dfu.cmdPending = dfuseCmdErasePage →
        c.dfu.cmdHasArg = false ∧ status = .errErase)
      (hother : c.dfu.cmdPending ≠ dfuseCmdSetAddress →
        c.dfu.cmdPending ≠ dfuseCmdErasePage → status = .errVendor) :
      AttemptEffect c { c with dfu := Dfu.fail { c.dfu with cmdPending := 0 } status }
  | write (hcmd : c.dfu.cmdPending = 0) (hlen : 0 < c.dfu.bufferLen)
      (hok : (flashWrite c.dfu.address c.dfu.buffer c.dfu.bufferLen c.flash).2 = 0) :
      AttemptEffect c ⟨{ c.dfu with
        address := c.dfu.address + UInt32.ofNat c.dfu.bufferLen
        bufferLen := 0
        state := .dnloadIdle }, (flashWrite c.dfu.address c.dfu.buffer c.dfu.bufferLen c.flash).1⟩
  | writeFailed (hcmd : c.dfu.cmdPending = 0) (hlen : 0 < c.dfu.bufferLen)
      (hfail : (flashWrite c.dfu.address c.dfu.buffer c.dfu.bufferLen c.flash).2 ≠ 0) :
      AttemptEffect c ⟨c.dfu.fail .errWrite,
        (flashWrite c.dfu.address c.dfu.buffer c.dfu.bufferLen c.flash).1⟩
  | empty (hcmd : c.dfu.cmdPending = 0) (hlen : c.dfu.bufferLen = 0) :
      AttemptEffect c { c with dfu := { c.dfu with state := .dnloadIdle } }

theorem executeCommand_effect {c : Core} (hc : c.dfu.cmdPending ≠ 0) :
    AttemptEffect c (executeCommand c) := by
  have hne : dfuseCmdSetAddress ≠ dfuseCmdErasePage := by decide
  unfold executeCommand
  dsimp only
  by_cases hset : c.dfu.cmdPending = dfuseCmdSetAddress
  · rw [if_pos hset]
    by_cases harg : (!c.dfu.cmdHasArg) = true
    · rw [if_pos harg]
      exact .refuse hc .errAddress (fun _ => ⟨by simpa using harg, rfl⟩)
        (fun h => absurd (hset.symm.trans h) hne) fun h => absurd hset h
    · rw [if_neg harg]
      exact .setAddress hset (by simpa using harg)
  rw [if_neg hset]
  by_cases herase : c.dfu.cmdPending = dfuseCmdErasePage
  · rw [if_pos herase]
    by_cases harg : (!c.dfu.cmdHasArg) = true
    · rw [if_pos harg]
      exact .refuse hc .errErase (fun h => absurd h hset) (fun _ => ⟨by simpa using harg, rfl⟩)
        fun _ h => absurd herase h
    · rw [if_neg harg]
      have harg' : c.dfu.cmdHasArg = true := by simpa using harg
      by_cases hrc : (flashErasePage c.dfu.cmdArg c.flash).2 = 0
      · rw [if_neg (not_not.mpr hrc)]
        exact .erase herase harg' hrc
      · rw [if_pos hrc]
        exact .eraseFailed herase harg' hrc
  · rw [if_neg herase]
    exact .refuse hc .errVendor (fun h => absurd h hset) (fun h => absurd h herase) fun _ _ => rfl

theorem executePending_of_setAddress {c : Core} (hcmd : c.dfu.cmdPending = dfuseCmdSetAddress)
    (harg : c.dfu.cmdHasArg = true) : executePending c = { c with dfu := { c.dfu with
      cmdPending := 0
      addressPtr := c.dfu.cmdArg
      state := .dnloadIdle } } := by
  have hne : c.dfu.cmdPending ≠ 0 := by
    rw [hcmd]
    decide
  unfold executePending executeCommand
  dsimp only
  rw [if_pos hne, if_pos hcmd, if_neg (by simp [harg])]

theorem executePending_of_erasePage {c : Core} (hcmd : c.dfu.cmdPending = dfuseCmdErasePage)
    (harg : c.dfu.cmdHasArg = true) : executePending c =
      let r := flashErasePage c.dfu.cmdArg c.flash
      let d := { c.dfu with cmdPending := 0 }
      if r.2 ≠ 0 then ⟨d.fail .errErase, r.1⟩ else ⟨{ d with state := .dnloadIdle }, r.1⟩ := by
  have hne : c.dfu.cmdPending ≠ 0 ∧ c.dfu.cmdPending ≠ dfuseCmdSetAddress := by
    rw [hcmd]
    decide
  unfold executePending executeCommand
  dsimp only
  rw [if_pos hne.1, if_neg hne.2, if_pos hcmd, if_neg (by simp [harg])]

theorem executePending_of_data {c : Core} (hcmd : c.dfu.cmdPending = 0)
    (hpos : 0 < c.dfu.bufferLen) : executePending c = writeBuffer c := by
  unfold executePending
  rw [if_neg (not_not.mpr hcmd), if_pos hpos]

theorem writeBuffer_flash (c : Core) : (writeBuffer c).flash =
    (flashWrite c.dfu.address c.dfu.buffer c.dfu.bufferLen c.flash).1 := by
  unfold writeBuffer
  dsimp only
  split_ifs <;> rfl

/-- Every attempt acts in one of the listed ways. -/
theorem executePending_effect (c : Core) : AttemptEffect c (executePending c) := by
  unfold executePending
  by_cases hc : c.dfu.cmdPending ≠ 0
  · rw [if_pos hc]
    exact executeCommand_effect hc
  rw [if_neg hc]
  rw [not_not] at hc
  by_cases hlen : 0 < c.dfu.bufferLen
  · rw [if_pos hlen]
    unfold writeBuffer
    dsimp only
    by_cases hrc : (flashWrite c.dfu.address c.dfu.buffer c.dfu.bufferLen c.flash).2 = 0
    · rw [if_neg (not_not.mpr hrc)]
      exact .write hc hlen hrc
    · rw [if_pos hrc]
      exact .writeFailed hc hlen hrc
  · rw [if_neg hlen]
    exact .empty hc (by omega)

theorem executePending_state (c : Core) :
    (executePending c).dfu.state = .dnloadIdle ∨ (executePending c).dfu.state = .error := by
  have heff := executePending_effect c
  generalize executePending c = c' at heff
  cases heff <;> first | exact Or.inl rfl | exact Or.inr rfl

theorem executePending_bufferLen_le (c : Core) :
    (executePending c).dfu.bufferLen ≤ c.dfu.bufferLen := by
  have heff := executePending_effect c
  generalize executePending c = c' at heff
  cases heff <;> first | exact le_rfl | exact Nat.zero_le _

theorem executePending_cmdPending (c : Core) : (executePending c).dfu.cmdPending = 0 := by
  have heff := executePending_effect c
  generalize executePending c = c' at heff
  cases heff with
  | write hcmd => exact hcmd
  | writeFailed hcmd => exact hcmd
  | empty hcmd => exact hcmd
  | _ => rfl

theorem coreStep_consistent {c : Core} (h : c.dfu.Consistent) (e : UsbEvent) :
    (coreStep c e).dfu.Consistent := by
  rcases e with _ | _ | ⟨_ | (p | d), tx⟩
  · exact h
  · exact .of_not_downloading (Nat.zero_le _) (by simp [Dfu.Downloading, coreStep, Dfu.usbReset])
  · exact h
  · rw [coreStep]
    have heff := request_effect p c
    generalize (Machine.request p c).1 = c' at heff
    have hout (state : DfuState) (status : DfuStatus) (hs : state ≠ .dnloadSync)
        (hb : state ≠ .dnbusy) : Dfu.Consistent { c.dfu with state := state, status := status } :=
      .of_not_downloading h.bufferLen_le (not_or.mpr ⟨hs, hb⟩)
    cases heff with
    | none hacc hatt => exact h
    | sync hp hs => exact h.of_state (Or.inl hs) _
    | attempt hatt =>
      refine .of_not_downloading ((executePending_bufferLen_le c).trans h.bufferLen_le) ?_
      unfold Dfu.Downloading
      rcases executePending_state c with hs | hs <;> simp [hs]
    | manifest hp hs => exact hout _ _ (by decide) (by decide)
    | finish hp hlen hs => exact hout _ _ (by decide) (by decide)
    | oversize hp hlen => exact hout _ _ (by decide) (by decide)
    | accept hacc => exact .accept hacc.2.1.1 hacc.2.1.2 hacc.2.2.1
    | upload hp hs state hstate =>
      rcases hstate with rfl | rfl <;> exact hout _ _ (by decide) (by decide)
    | clrstatus hp hs => exact hout _ _ (by decide) (by decide)
    | abort hp =>
      exact .of_not_downloading h.bufferLen_le (by simp [Dfu.Downloading, handleDfuAbort])
  · rw [coreStep]
    split_ifs with hd
    · exact h.dataStage (Or.inl hd.1) _ _
    · exact h

namespace Machine

structure Stable (s : Machine) : Prop where
  quiet : s.Quiet
  consistent : s.core.dfu.Consistent

theorem start_stable (mem : ℕ → UInt8) (faults : ℕ → Fault) : (start mem faults).Stable :=
  ⟨start_quiet mem faults, .of_not_downloading (Nat.zero_le _) (by
    simp [Dfu.Downloading, start, dfuInit, usbInit, Dfu.init])⟩

theorem Stable.step {s : Machine} (h : s.Stable) (e : UsbEvent) : (s.step e).Stable := by
  refine ⟨step_quiet h.quiet e, ?_⟩
  rw [step_core h.quiet]
  exact coreStep_consistent h.consistent e

theorem Stable.run {s : Machine} (h : s.Stable) (es : List UsbEvent) : (s.run es).Stable :=
  StepSystem.run_invariant Stable (fun _ e hs => hs.step e) h es

theorem Reachable.stable {s : Machine} (hs : s.Reachable) : s.Stable := by
  obtain ⟨mem, faults, es, rfl⟩ := hs
  exact (start_stable mem faults).run es

end Machine

end NovaBootloader
