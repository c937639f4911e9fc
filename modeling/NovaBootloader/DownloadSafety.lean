import NovaBootloader.Exchange
import NovaBootloader.FlashWrite

/-!
# What downloads do to the flash, exchange by exchange

Three properties of every attempt of a run, stated on the machine and its onlooker: a data block is
programmed whole or not at all, block 0 is never programmed, and an attempt performs the operation
of its own exchange and no other. The code has none of them for every host. Each is proved under the
condition that keeps the host away from the defect.
-/

namespace NovaBootloader
open ByteMemory

/-- Only an attempt leads from dfuDNBUSY to dfuDNLOAD-IDLE. -/
theorem executes_of_dnloadIdle {c : Core} {e : UsbEvent} (hbusy : c.dfu.state = .dnbusy)
    (hidle : (coreStep c e).dfu.state = .dnloadIdle) : Executes c e := by
  by_contra hexec
  rcases e with _ | _ | ⟨_ | (p | data), tx⟩
  · rw [coreStep, hbusy] at hidle
    cases hidle
  · cases hidle
  · rw [coreStep, hbusy] at hidle
    cases hidle
  · rw [coreStep] at hidle
    have heff := request_effect p c
    generalize (Machine.request p c).1 = c' at heff hidle
    cases heff with
    | none hacc hatt =>
      rw [hbusy] at hidle
      cases hidle
    | attempt hatt => exact hexec ⟨p, rfl, hatt⟩
    | upload hp hs state hstate =>
      rw [hbusy] at hs
      rcases hs with hs | hs <;> cases hs
    | _ => cases hidle
  · rw [coreStep, if_neg fun h => by rw [hbusy] at h; cases h.1] at hidle
    rw [hbusy] at hidle
    cases hidle

namespace Machine.Watched

variable {p : Machine × Option Exchange} {e : UsbEvent}

theorem exchange (h : Watched p) (hexec : Executes p.1.core e) :
    ∃ x, p.2 = some x ∧ x.Follows p.1.core.dfu := h.tracks hexec.downloading

theorem step_core (h : Watched p) (hexec : Executes p.1.core e) :
    (p.1.step e).core = executePending p.1.core := by
  rw [Machine.step_core h.stable.quiet, coreStep_of_executes hexec]

theorem writeCall_mem (h : Watched p) {a : UInt32} {bytes : List UInt8} :
    .writeCall a bytes ∈ p.1.asked e ↔ Executes p.1.core e ∧ p.1.core.dfu.cmdPending = 0 ∧
      0 < p.1.core.dfu.bufferLen ∧ a = p.1.core.dfu.address ∧
      bytes = toList p.1.core.dfu.buffer p.1.core.dfu.bufferLen := by
  rw [h.stable.mem_asked, writeCall_mem_attemptLog]

end Machine.Watched

namespace Exchange

theorem Follows.two_le_block {x : Exchange} {d : Dfu} (hx : x.Follows d) (hc : d.Consistent)
    (hd : d.Downloading) (hzero : x.block ≠ 0) : 2 ≤ x.block := by
  have hone : x.block ≠ 1 := by
    rw [hx.block]
    exact hc.blockNum hd
  omega

theorem Follows.payload {x : Exchange} {d : Dfu} (hx : x.Follows d) (hblock : 2 ≤ x.block)
    (hlen : d.bufferLen = x.wLength) (hmixed : x.mixed = false) :
    x.wLength ≤ x.received.length ∧ toList d.buffer d.bufferLen = x.received.take x.wLength := by
  rcases hx.data hmixed with hb | hd
  · have hpre := hb.isPrefix
    rw [hlen] at hpre ⊢
    have hle := hpre.length_le
    rw [length_toList] at hle
    refine ⟨hle, ?_⟩
    rw [List.prefix_iff_eq_take] at hpre
    rwa [length_toList] at hpre
  · have h0 := hd.block
    rw [← hx.block] at h0
    omega

theorem Follows.operation_program {x : Exchange} {d : Dfu} (hx : x.Follows d) (hblock : 2 ≤ x.block)
    (hlen : d.bufferLen = x.wLength) (hmixed : x.mixed = false) :
    x.operation = some (.program d.address (toList d.buffer d.bufferLen)) := by
  obtain ⟨hle, htake⟩ := hx.payload hblock hlen hmixed
  rw [operation, if_neg (not_lt.mpr hle), if_pos (by omega), htake, hx.base (hx.block ▸ hblock)]

end Exchange

section WholeBlocks

/-- A data block is programmed whole before success is reported, and no write is made with another
number of bytes than its block announced. -/
def WholeBlocks (p : Machine × Option Exchange) (e : UsbEvent) : Prop :=
  (p.1.core.dfu.state = .dnbusy → (p.1.step e).core.dfu.state = .dnloadIdle →
    ∀ x ∈ p.2, 2 ≤ x.block → x.wLength ≤ x.received.length ∧
      .writeCall x.base (x.received.take x.wLength) ∈ p.1.asked e) ∧
  ∀ a bytes, .writeCall a bytes ∈ p.1.asked e → ∃ x ∈ p.2, bytes.length = x.wLength

/-- At a GETSTATUS in dfuDNBUSY a block 0 has been decoded or has sent nothing, and a data block
fills the buffer with its own announced bytes and finds no command pending. -/
def PollsComplete (p : Machine × Option Exchange) (e : UsbEvent) : Prop :=
  Executes p.1.core e → ∀ x ∈ p.2,
    (x.block = 0 → p.1.core.dfu.cmdPending ≠ 0 ∨ p.1.core.dfu.bufferLen = 0) ∧
    (2 ≤ x.block →
      p.1.core.dfu.cmdPending = 0 ∧ p.1.core.dfu.bufferLen = x.wLength ∧ x.mixed = false)

instance (p : Machine × Option Exchange) (e : UsbEvent) : Decidable (PollsComplete p e) :=
  inferInstanceAs (Decidable (_ → _))

theorem wholeBlocks_of_pollsComplete {p : Machine × Option Exchange} {e : UsbEvent}
    (h : Machine.Watched p) (hpoll : PollsComplete p e) : WholeBlocks p e := by
  refine ⟨fun hbusy hidle x hx hblock => ?_, fun a bytes hw => ?_⟩
  · rw [Machine.step_core h.stable.quiet] at hidle
    have hexec := executes_of_dnloadIdle hbusy hidle
    obtain ⟨y, hy, hfol⟩ := h.exchange hexec
    obtain rfl : y = x := Option.some.inj (hy.symm.trans hx)
    obtain ⟨hcmd, hlen, hmixed⟩ := (hpoll hexec y hx).2 hblock
    obtain ⟨hle, htake⟩ := hfol.payload hblock hlen hmixed
    have hpos := (h.stable.consistent.xferLen (Or.inr hbusy)).1
    refine ⟨hle, h.writeCall_mem.mpr ⟨hexec, hcmd, ?_, ?_, htake.symm⟩⟩
    · rw [hlen, hfol.wLength]
      exact hpos
    · exact hfol.base (hfol.block ▸ hblock)
  · obtain ⟨hexec, hcmd, hpos, -, rfl⟩ := h.writeCall_mem.mp hw
    obtain ⟨x, hx, hfol⟩ := h.exchange hexec
    refine ⟨x, hx, ?_⟩
    obtain ⟨hzero, hdata⟩ := hpoll hexec x hx
    rw [length_toList]
    by_cases hblock : x.block = 0
    · rcases hzero hblock with hne | hlen
      · exact absurd hcmd hne
      · omega
    · exact (hdata (hfol.two_le_block h.stable.consistent hexec.downloading hblock)).2.1

/-- Blocks are programmed whole or not at all as long as the host never polls in dfuDNBUSY before
the payload is complete. -/
theorem blocks_programmed_whole (mem : ℕ → UInt8) (faults : ℕ → Fault) (es : List UsbEvent)
    (hes : StepSystem.Along Machine.watched PollsComplete (Machine.start mem faults, none) es) :
    StepSystem.Along Machine.watched WholeBlocks (Machine.start mem faults, none) es :=
  StepSystem.along_of_invariant Machine.Watched (fun _ e h _ => h.step e)
    (fun _ _ h hpoll => wholeBlocks_of_pollsComplete h hpoll) (Machine.start_watched mem faults) hes

def wholeBlockSession : List UsbEvent :=
  [.setup (.dnload 2 2), .out (.ofBytes [0x11, 0x22]), .setup .getstatus, .setup .getstatus]

theorem whole_block_programmed_whole :
    StepSystem.Along Machine.watched PollsComplete (Machine.erased, none) wholeBlockSession ∧
      StepSystem.Along Machine.watched WholeBlocks (Machine.erased, none) wholeBlockSession :=
  ⟨by decide +kernel, blocks_programmed_whole _ _ _ (by decide +kernel)⟩

def truncatedBlockSession : List UsbEvent :=
  [.setup (.dnload 2 4), .out (.ofBytes [0x11, 0x22]), .setup .getstatus, .setup .getstatus]

theorem truncated_block_programmed :
    ¬ StepSystem.Along Machine.watched WholeBlocks (Machine.erased, none) truncatedBlockSession := by
  intro h
  obtain ⟨-, -, -, hlast, -⟩ := h
  obtain ⟨x, hx, hlen⟩ := hlast.2 0x08003000 [0x11, 0x22] (by decide +kernel)
  have hannounced : ∀ x ∈ (StepSystem.run Machine.watched (Machine.erased, none)
      (truncatedBlockSession.take 3)).2, x.wLength = 4 := by decide +kernel
  rw [hannounced x hx] at hlen
  cases hlen

end WholeBlocks

section BlockZero

/-- Every write is one of a data block, at the address computed for that block. -/
def WritesOwnBlock (p : Machine × Option Exchange) (e : UsbEvent) : Prop :=
  ∀ a bytes, .writeCall a bytes ∈ p.1.asked e → ∃ x ∈ p.2, 2 ≤ x.block ∧ a = x.base

/-- The buffer still holds bytes of a block 0 that has not been decoded. -/
def UndecodedCommand (d : Dfu) : Prop := d.blockNum = 0 ∧ d.cmdPending = 0 ∧ 0 < d.bufferLen

theorem writesOwnBlock_iff {p : Machine × Option Exchange} {e : UsbEvent} (h : Machine.Watched p) :
    WritesOwnBlock p e ↔ ¬ (Executes p.1.core e ∧ UndecodedCommand p.1.core.dfu) := by
  constructor
  · rintro hw ⟨hexec, hblock, hcmd, hpos⟩
    obtain ⟨x, hx, h2, -⟩ := hw _ _ (h.writeCall_mem.mpr ⟨hexec, hcmd, hpos, rfl, rfl⟩)
    obtain ⟨y, hy, hfol⟩ := h.exchange hexec
    obtain rfl : y = x := Option.some.inj (hy.symm.trans hx)
    rw [hfol.block, hblock] at h2
    omega
  · intro hno a bytes hw
    obtain ⟨hexec, hcmd, hpos, rfl, -⟩ := h.writeCall_mem.mp hw
    obtain ⟨x, hx, hfol⟩ := h.exchange hexec
    have hzero : x.block ≠ 0 := fun hzero => hno ⟨hexec, hfol.block ▸ hzero, hcmd, hpos⟩
    have h2 := hfol.two_le_block h.stable.consistent hexec.downloading hzero
    exact ⟨x, hx, h2, (hfol.base (hfol.block ▸ h2)).symm⟩

/-- Command bytes are programmed exactly in the runs that poll a block 0 with bytes left in the
buffer. -/
theorem command_bytes_never_programmed_iff (mem : ℕ → UInt8) (faults : ℕ → Fault)
    (es : List UsbEvent) :
    StepSystem.Along Machine.watched WritesOwnBlock (Machine.start mem faults, none) es ↔
      StepSystem.Along Machine.step
        (fun s e => ¬ (Executes s.core e ∧ UndecodedCommand s.core.dfu))
        (Machine.start mem faults) es := by
  refine Iff.trans ?_
    (StepSystem.along_observed_fst Machine.step Exchange.observe (Machine.start mem faults, none) es)
  exact StepSystem.along_iff_of_invariant Machine.Watched (fun _ e h _ => h.step e)
    (fun _ _ h => writesOwnBlock_iff h) (Machine.start_watched mem faults) es

def truncatedCommandSession : List UsbEvent :=
  [.setup (.dnload 0 5), .out (.ofBytes [0x21, 0x00, 0x40]), .setup .getstatus,
    .setup .getstatus]

theorem truncated_command_programmed : ¬ StepSystem.Along Machine.watched WritesOwnBlock
    (Machine.erased, none) truncatedCommandSession := by
  intro h
  obtain ⟨-, -, -, hlast, -⟩ := h
  obtain ⟨x, hx, hblock, -⟩ := hlast 0x08003000 [0x21, 0x00, 0x40] (by decide +kernel)
  have hzero : ∀ x ∈ (StepSystem.run Machine.watched (Machine.erased, none)
      (truncatedCommandSession.take 3)).2, x.block = 0 := by decide +kernel
  rw [hzero x hx] at hblock
  cases hblock

end BlockZero

section OwnOperations

/-- What the attempt an event makes does to the flash and to the pointer. -/
def Performs (s : Machine) (e : UsbEvent) : Exchange.Operation → Prop
  | .setPointer a => Executes s.core e ∧ (s.step e).core.dfu.addressPtr ≠ s.core.dfu.addressPtr ∧
      a = (s.step e).core.dfu.addressPtr
  | .erase a => .eraseCall a ∈ s.asked e
  | .program a bytes => .writeCall a bytes ∈ s.asked e

/-- An event carries an operation out: the pointer is the operand afterwards, and the controller is
as the function called with the operands of the operation leaves it. -/
def CarriesOut (s : Machine) (e : UsbEvent) : Exchange.Operation → Prop
  | .setPointer a => (s.step e).core.dfu.addressPtr = a
  | .erase a => .eraseCall a ∈ s.asked e ∧
      (s.step e).core.flash = (flashErasePage a s.core.flash).1
  | .program a bytes => .writeCall a bytes ∈ s.asked e ∧
      (s.step e).core.flash = (flashWrite a (ofList bytes) bytes.length s.core.flash).1

/-- An attempt carries out the operation the exchange encodes, no other one, and that once. A
command is pending only inside its download or in dfuERROR, and never when the next download is
accepted. -/
structure OwnOperations (p : Machine × Option Exchange) (e : UsbEvent) : Prop where
  own : ∀ op, Performs p.1 e op → ∃ x ∈ p.2, x.operation = some op ∧ x.attempted = false
  performed : Executes p.1.core e → ∀ x ∈ p.2, ∀ op ∈ x.operation, CarriesOut p.1 e op
  pending : p.1.core.dfu.cmdPending ≠ 0 →
    (p.1.core.dfu.Downloading ∨ p.1.core.dfu.state = .error) ∧ p.1.core.dfu.blockNum = 0
  discarded : ∀ q ∈ e.setup?, Accepts q p.1.core.dfu → p.1.core.dfu.cmdPending = 0

/-- CLRSTATUS leaves dfuERROR only with no command pending, and at a GETSTATUS in dfuDNBUSY the
buffer holds nothing but the data stage of the exchange, all of it or none. -/
def KeepsExchangesApart (p : Machine × Option Exchange) (e : UsbEvent) : Prop :=
  (∀ q ∈ e.setup?, q.IsDfu dfuClrstatus → p.1.core.dfu.state = .error →
    p.1.core.dfu.cmdPending = 0) ∧
  (Executes p.1.core e → ∀ x ∈ p.2, x.mixed = false ∧
    (p.1.core.dfu.bufferLen = 0 ∨ p.1.core.dfu.bufferLen = x.wLength))

instance (p : Machine × Option Exchange) (e : UsbEvent) : Decidable (KeepsExchangesApart p e) :=
  inferInstanceAs (Decidable (_ ∧ _))

structure OwnsPending (d : Dfu) (x : Option Exchange) : Prop where
  pending : d.cmdPending ≠ 0 → (d.Downloading ∨ d.state = .error) ∧ d.blockNum = 0
  inherited : d.Downloading → ∀ y ∈ x, y.inherited = 0

theorem OwnsPending.of_cmdPending {d : Dfu} (hcmd : d.cmdPending = 0) (hd : ¬ d.Downloading)
    (x : Option Exchange) : OwnsPending d x :=
  ⟨fun h => absurd hcmd h, fun h => absurd h hd⟩

/-- The onlooker's note on the inherited command changes only when a download is accepted. -/
theorem observe_inherited {s : Machine} {x : Option Exchange} {e : UsbEvent}
    (hacc : ∀ q ∈ e.setup?, ¬ Accepts q s.core.dfu) (h : ∀ y ∈ x, y.inherited = 0) :
    ∀ y ∈ Exchange.observe x s e, y.inherited = 0 := by
  rcases e with _ | _ | ⟨_ | (q | data), tx⟩
  · exact h
  · rintro y hy
    obtain ⟨z, hz, rfl⟩ := Option.mem_map.mp hy
    exact h z hz
  · exact h
  · rw [Exchange.observe, if_neg (hacc q rfl)]
    rintro y hy
    obtain ⟨z, hz, rfl⟩ := Option.mem_map.mp hy
    exact h z hz
  · rintro y hy
    obtain ⟨z, hz, rfl⟩ := Option.mem_map.mp hy
    exact h z hz

theorem OwnsPending.leave {d : Dfu} (hcmd : d.cmdPending = 0) (state : DfuState)
    (status : DfuStatus) (hsync : state ≠ .dnloadSync) (hbusy : state ≠ .dnbusy)
    (x : Option Exchange) : OwnsPending { d with state := state, status := status } x :=
  ⟨fun h => absurd hcmd h, fun h => absurd h (not_or.mpr ⟨hsync, hbusy⟩)⟩

theorem OwnsPending.cmdPending {d : Dfu} {x : Option Exchange} (h : OwnsPending d x)
    (hd : ¬ d.Downloading) (herror : d.state ≠ .error) : d.cmdPending = 0 := by
  by_contra hne
  rcases (h.pending hne).1 with hd' | herror'
  · exact hd hd'
  · exact herror herror'

theorem ownsPending_setup {p : Machine × Option Exchange} {q : SetupPacket} {tx : Bool}
    (hown : OwnsPending p.1.core.dfu p.2)
    (hkeep : q.IsDfu dfuClrstatus → p.1.core.dfu.state = .error → p.1.core.dfu.cmdPending = 0) :
    OwnsPending (Machine.request q p.1.core).1.dfu
      (Exchange.observe p.2 p.1 (.ctr (some (.setup q)) tx)) := by
  have hobserve (hacc : ¬ Accepts q p.1.core.dfu) (hd : p.1.core.dfu.Downloading) :
      ∀ y ∈ Exchange.observe p.2 p.1 (.ctr (some (.setup q)) tx), y.inherited = 0 := by
    refine observe_inherited (fun q' hq' => ?_) (hown.inherited hd)
    cases hq'
    exact hacc
  have heff := request_effect q p.1.core
  generalize (Machine.request q p.1.core).1 = c' at heff
  cases heff with
  | none hacc hatt => exact ⟨hown.pending, fun hd => hobserve hacc hd⟩
  | sync hq hsync =>
    have hacc : ¬ Accepts q p.1.core.dfu := fun hacc => absurd (hq.code_unique hacc.1) (by decide)
    exact ⟨fun hne => ⟨Or.inl (Or.inr rfl), (hown.pending hne).2⟩,
      fun _ => hobserve hacc (Or.inl hsync)⟩
  | attempt hatt =>
    refine .of_cmdPending (executePending_cmdPending _) ?_ _
    unfold Dfu.Downloading
    rcases executePending_state p.1.core with hs | hs <;> simp [hs]
  | manifest hq hs =>
    have hcmd := hown.cmdPending (by simp [Dfu.Downloading, hs]) (by simp [hs])
    exact .leave hcmd _ _ (by decide) (by decide) _
  | finish hq hlen hs =>
    have hcmd := hown.cmdPending (by simp [Dfu.Downloading, hs]) (by simp [hs])
    exact .leave hcmd _ _ (by decide) (by decide) _
  | oversize hq hlen =>
    exact ⟨fun hne => ⟨Or.inr rfl, (hown.pending hne).2⟩,
      fun hd => absurd hd (by simp [Dfu.Downloading, Dfu.fail])⟩
  | accept hacc =>
    have hcmd : p.1.core.dfu.cmdPending = 0 := by
      rcases hacc.2.2.2 with hs | hs <;>
        exact hown.cmdPending (by simp [Dfu.Downloading, hs]) (by simp [hs])
    refine ⟨fun hne => absurd hcmd hne, fun _ y hy => ?_⟩
    rw [Exchange.observe, if_pos hacc] at hy
    cases hy
    exact hcmd
  | upload hq hs state hstate =>
    have hcmd : p.1.core.dfu.cmdPending = 0 := by
      rcases hs with hs | hs <;>
        exact hown.cmdPending (by simp [Dfu.Downloading, hs]) (by simp [hs])
    rcases hstate with rfl | rfl <;> exact .leave hcmd _ _ (by decide) (by decide) _
  | clrstatus hq hs => exact .leave (hkeep hq hs) _ _ (by decide) (by decide) _
  | abort hq => exact .of_cmdPending rfl (by simp [Dfu.Downloading, handleDfuAbort]) _

theorem ownsPending_step {p : Machine × Option Exchange} {e : UsbEvent} (h : Machine.Watched p)
    (hown : OwnsPending p.1.core.dfu p.2) (hkeep : KeepsExchangesApart p e) :
    OwnsPending (p.1.step e).core.dfu (Exchange.observe p.2 p.1 e) := by
  rw [Machine.step_core h.stable.quiet]
  rcases e with _ | _ | ⟨_ | (q | data), tx⟩
  · exact hown
  · exact .of_cmdPending rfl (by simp [Dfu.Downloading, coreStep, Dfu.usbReset]) _
  · exact hown
  · exact ownsPending_setup hown (hkeep.1 q rfl)
  · have hobserve (hd : p.1.core.dfu.Downloading) :
        ∀ y ∈ Exchange.observe p.2 p.1 (.ctr (some (.out data)) tx), y.inherited = 0 :=
      observe_inherited (fun _ hq => absurd hq (Option.not_mem_none _)) (hown.inherited hd)
    rw [coreStep]
    split_ifs with hdata
    · have hd : p.1.core.dfu.Downloading := Or.inl hdata.1
      refine ⟨fun hne => ?_, fun _ => hobserve hd⟩
      unfold Dfu.Downloading
      simp only [dataStage_state, dataStage_blockNum]
      rcases Exchange.dataStage_cmdPending _ _ _ hne with hne | hblock
      · exact ⟨Or.inl hd, (hown.pending hne).2⟩
      · exact ⟨Or.inl hd, hblock⟩
    · exact ⟨hown.pending, hobserve⟩

/-- An attempt with the data stage kept apart finds a command only if the exchange is that
command. -/
theorem Exchange.Follows.decoded {x : Exchange} {d : Dfu} (hfol : x.Follows d)
    (hinherited : x.inherited = 0) (hmixed : x.mixed = false) (hcmd : d.cmdPending ≠ 0) :
    x.Decoded d := by
  rcases hfol.data hmixed with hb | hd
  · exact absurd (hb.cmdPending.trans hinherited) hcmd
  · exact hd

theorem Exchange.Decoded.operation {x : Exchange} {d : Dfu} (hdec : x.Decoded d)
    (hblock : x.block = d.blockNum) (harg : d.cmdHasArg = true) : x.operation =
      if d.cmdPending = dfuseCmdSetAddress then some (.setPointer d.cmdArg)
      else if d.cmdPending = dfuseCmdErasePage then some (.erase d.cmdArg) else none := by
  have h5 : 5 ≤ x.wLength := by
    rw [hdec.cmdHasArg] at harg
    exact of_decide_eq_true harg
  unfold Exchange.operation
  rw [if_neg (not_lt.mpr hdec.received), if_neg (not_not.mpr (hblock.trans hdec.block)),
    if_neg (not_lt.mpr h5), hdec.cmdPending, hdec.cmdArg h5]

theorem performs_own {p : Machine × Option Exchange} {e : UsbEvent} (h : Machine.Watched p)
    (hown : OwnsPending p.1.core.dfu p.2) (hkeep : KeepsExchangesApart p e)
    {op : Exchange.Operation} (hop : Performs p.1 e op) :
    ∃ x ∈ p.2, x.operation = some op ∧ x.attempted = false := by
  have hexec : Executes p.1.core e := by
    cases op with
    | setPointer a => exact hop.1
    | erase a => exact (h.stable.mem_asked.mp hop).1
    | program a bytes => exact (h.stable.mem_asked.mp hop).1
  obtain ⟨x, hx, hfol⟩ := h.exchange hexec
  obtain ⟨hmixed, hlen⟩ := hkeep.2 hexec x hx
  have hd := hexec.downloading
  have hinherited := hown.inherited hd x hx
  refine ⟨x, hx, ?_, hfol.fresh⟩
  cases op with
  | setPointer a =>
    obtain ⟨-, hne, rfl⟩ := hop
    rw [h.step_core hexec] at hne ⊢
    have heff := executePending_effect p.1.core
    generalize executePending p.1.core = c' at heff hne ⊢
    cases heff with
    | setAddress hcmd harg =>
      have hdec := hfol.decoded hinherited hmixed (by rw [hcmd]; decide)
      rw [hdec.operation hfol.block harg, if_pos hcmd]
    | _ => exact absurd rfl hne
  | erase a =>
    obtain ⟨hcmd, harg, rfl⟩ := eraseCall_mem_attemptLog.mp (h.stable.mem_asked.mp hop).2
    have hdec := hfol.decoded hinherited hmixed (by rw [hcmd]; decide)
    rw [hdec.operation hfol.block harg, if_neg (by rw [hcmd]; decide), if_pos hcmd]
  | program a bytes =>
    obtain ⟨-, hcmd, hpos, rfl, rfl⟩ := h.writeCall_mem.mp hop
    have hfull : p.1.core.dfu.bufferLen = x.wLength := by omega
    have hzero : x.block ≠ 0 := by
      intro hzero
      have hlt := h.stable.consistent.undecoded hd (hfol.block.symm.trans hzero)
      rw [← hfol.wLength] at hlt
      omega
    exact hfol.operation_program (hfol.two_le_block h.stable.consistent hd hzero) hfull hmixed

/-- With the data stage kept apart, a complete block 0 is found decoded and an earlier command is
found in no data block. -/
theorem Exchange.Follows.ready {x : Exchange} {d : Dfu} (hfol : x.Follows d) (hc : d.Consistent)
    (hd : d.Downloading) (hinherited : x.inherited = 0) (hmixed : x.mixed = false)
    (hlen : d.bufferLen = 0 ∨ d.bufferLen = x.wLength) (hreceived : x.wLength ≤ x.received.length) :
    (x.block = 0 → x.Decoded d) ∧
      (x.block ≠ 0 → d.cmdPending = 0 ∧ d.bufferLen = x.wLength) := by
  constructor
  · intro hzero
    have hlt := hc.undecoded hd (hfol.block.symm.trans hzero)
    have hw := hfol.wLength
    exact hfol.decoded_of_bufferLen hc hd hmixed (by omega) hreceived
  · intro hblock
    have hdec : ¬ x.Decoded d := fun hdec => hblock (hfol.block.trans hdec.block)
    have hb := (hfol.data hmixed).resolve_right hdec
    refine ⟨hb.cmdPending.trans hinherited, hlen.resolve_left fun h0 => hdec ?_⟩
    exact hfol.decoded_of_bufferLen hc hd hmixed h0 hreceived

theorem carriesOut_command {p : Machine × Option Exchange} {e : UsbEvent} (h : Machine.Watched p)
    (hexec : Executes p.1.core e) {x : Exchange} (hdec : x.Decoded p.1.core.dfu)
    (hblock : x.block = p.1.core.dfu.blockNum) {op : Exchange.Operation}
    (hop : x.operation = some op) : CarriesOut p.1 e op := by
  have h5 : 5 ≤ x.wLength := by
    by_contra hlt
    rw [Exchange.operation, if_neg (not_lt.mpr hdec.received),
      if_neg (not_not.mpr (hblock.trans hdec.block)), if_pos (not_le.mp hlt)] at hop
    cases hop
  have harg : p.1.core.dfu.cmdHasArg = true := hdec.cmdHasArg.trans (decide_eq_true h5)
  rw [hdec.operation hblock harg] at hop
  split_ifs at hop with hset herase
  · cases hop
    rw [CarriesOut, h.step_core hexec, executePending_of_setAddress hset harg]
  · cases hop
    refine ⟨h.stable.mem_asked.mpr ⟨hexec, eraseCall_mem_attemptLog.mpr ⟨herase, harg, rfl⟩⟩, ?_⟩
    rw [h.step_core hexec, executePending_of_erasePage herase harg]
    dsimp only
    split_ifs <;> rfl

theorem carriesOut_data {p : Machine × Option Exchange} {e : UsbEvent} (h : Machine.Watched p)
    (hexec : Executes p.1.core e) {x : Exchange} (hfol : x.Follows p.1.core.dfu)
    (h2 : 2 ≤ x.block) (hmixed : x.mixed = false) (hcmd : p.1.core.dfu.cmdPending = 0)
    (hfull : p.1.core.dfu.bufferLen = x.wLength) (hpos : 0 < p.1.core.dfu.bufferLen)
    {op : Exchange.Operation} (hop : x.operation = some op) : CarriesOut p.1 e op := by
  rw [hfol.operation_program h2 hfull hmixed] at hop
  cases hop
  refine ⟨h.writeCall_mem.mpr ⟨hexec, hcmd, hpos, rfl, rfl⟩, ?_⟩
  rw [h.step_core hexec, executePending_of_data hcmd hpos, writeBuffer_flash, length_toList]
  exact (congrArg Prod.fst
    (flashWrite_congr (fun i hi => (eq_ofList_of_toList rfl hi).symm) _ _)).symm

theorem carriesOut_own {p : Machine × Option Exchange} {e : UsbEvent} (h : Machine.Watched p)
    (hown : OwnsPending p.1.core.dfu p.2) (hkeep : KeepsExchangesApart p e)
    (hexec : Executes p.1.core e) {x : Exchange} (hx : x ∈ p.2) {op : Exchange.Operation}
    (hop : x.operation = some op) : CarriesOut p.1 e op := by
  obtain ⟨y, hy, hfol⟩ := h.exchange hexec
  obtain rfl : y = x := Option.some.inj (hy.symm.trans hx)
  obtain ⟨hmixed, hlen⟩ := hkeep.2 hexec y hx
  have hd := hexec.downloading
  have hreceived : y.wLength ≤ y.received.length := by
    by_contra hlt
    rw [Exchange.operation, if_pos (not_le.mp hlt)] at hop
    cases hop
  obtain ⟨hcommand, hdata⟩ := hfol.ready h.stable.consistent hd (hown.inherited hd y hx) hmixed
    hlen hreceived
  by_cases hblock : y.block = 0
  · exact carriesOut_command h hexec (hcommand hblock) hfol.block hop
  · obtain ⟨hcmd, hfull⟩ := hdata hblock
    have h2 := hfol.two_le_block h.stable.consistent hd hblock
    have hpos : 0 < p.1.core.dfu.bufferLen := by
      rw [hfull, hfol.wLength]
      exact (h.stable.consistent.xferLen hd).1
    exact carriesOut_data h hexec hfol h2 hmixed hcmd hfull hpos hop

/-- Every attempt performs the operation of its own exchange as long as the host keeps exchanges
apart. -/
theorem exchanges_perform_own_operation (mem : ℕ → UInt8) (faults : ℕ → Fault)
    (es : List UsbEvent)
    (hes : StepSystem.Along Machine.watched KeepsExchangesApart (Machine.start mem faults, none) es) :
    StepSystem.Along Machine.watched OwnOperations (Machine.start mem faults, none) es := by
  refine StepSystem.along_of_invariant
    (fun p => Machine.Watched p ∧ OwnsPending p.1.core.dfu p.2)
    (fun p e h hkeep => ⟨h.1.step e, ownsPending_step h.1 h.2 hkeep⟩)
    (fun p e h hkeep => ?_) ⟨Machine.start_watched mem faults, ?_⟩ hes
  · refine ⟨fun op hop => performs_own h.1 h.2 hkeep hop,
      fun hexec x hx op hop => carriesOut_own h.1 h.2 hkeep hexec hx hop, h.2.pending,
      fun q _ hacc => ?_⟩
    rcases hacc.2.2.2 with hs | hs <;>
      exact h.2.cmdPending (by simp [Dfu.Downloading, hs]) (by simp [hs])
  · exact .of_cmdPending rfl (by simp [Dfu.Downloading, Machine.start, Machine.dfuInit,
      Machine.usbInit, Dfu.init]) _

def eraseAndProgramSession : List UsbEvent :=
  [.setup (.dnload 0 5), .out (.ofBytes [0x41, 0x00, 0x30, 0x00, 0x08]),
    .setup .getstatus, .setup .getstatus,
    .setup (.dnload 2 2), .out (.ofBytes [0x11, 0x22]), .setup .getstatus, .setup .getstatus]

theorem erase_and_program_own_operation :
    StepSystem.Along Machine.watched KeepsExchangesApart (Machine.erased, none)
        eraseAndProgramSession ∧
      StepSystem.Along Machine.watched OwnOperations (Machine.erased, none)
        eraseAndProgramSession :=
  ⟨by decide +kernel, exchanges_perform_own_operation _ _ _ (by decide +kernel)⟩

def staleCommandSession : List UsbEvent :=
  [.setup (.dnload 0 5), .out (.ofBytes [0x41, 0x00, 0x40, 0x00, 0x08]),
    .setup (.dnload 2 2048), .setup .clrstatus,
    .setup (.dnload 2 2), .out (.ofBytes [0x11, 0x22]), .setup .getstatus, .setup .getstatus]

theorem stale_command_executed : ¬ StepSystem.Along Machine.watched OwnOperations
    (Machine.erased, none) staleCommandSession := by
  intro h
  obtain ⟨-, -, -, -, -, -, -, hlast, -⟩ := h
  have herase : Performs (StepSystem.run Machine.watched (Machine.erased, none)
      (staleCommandSession.take 7)).1 (.setup .getstatus) (.erase 0x08004000) := by
    change FlashEvent.eraseCall 0x08004000 ∈ _
    decide +kernel
  obtain ⟨x, hx, hop, -⟩ := hlast.own _ herase
  have hprogram : ∀ x ∈ (StepSystem.run Machine.watched (Machine.erased, none)
      (staleCommandSession.take 7)).2,
      x.operation = some (.program 0x08003000 [0x11, 0x22]) := by decide +kernel
  rw [hprogram x hx] at hop
  cases hop

end OwnOperations

end NovaBootloader
