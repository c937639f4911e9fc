import NovaBootloader.Ep0Transfer

/-!
# How EP0 answers tokens

The endpoint register decides what the device answers before any code runs: `STAT_RX` to SETUP and
OUT tokens, `STAT_TX` to IN tokens, and the two data toggles. Each handler is described by one
equation for the register it leaves. The receiver is open in every state between two polls, the
toggles follow the bus alone, and STALL means that the last request was refused.
-/

namespace NovaBootloader
open ByteMemory

def Ep0Call.statTx (old : EpStat) : Ep0Call → EpStat
  | .stall => EpStat.stall
  | .enableRx => old
  | _ => EpStat.valid

theorem EpStat.nak_ne_stall : EpStat.nak ≠ EpStat.stall := by decide

theorem EpStat.valid_ne_stall : EpStat.valid ≠ EpStat.stall := by decide

theorem Ep0Call.statTx_eq_stall (call : Ep0Call) :
    call.statTx EpStat.nak = EpStat.stall ↔ call = .stall := by
  cases call <;> simp [Ep0Call.statTx, EpStat.nak_ne_stall, EpStat.valid_ne_stall]

/-- `handle_ep0_out` acknowledges the data stage with this packet. -/
def Core.Acknowledges (c : Core) (d : OutPacket) : Prop :=
  (c.dfu.state = .dnloadSync ∧ 0 < d.bytes.length) ∧
    (dataStage (ofList d.bytes) d.bytes.length c.dfu).2 = true

instance (c : Core) (d : OutPacket) : Decidable (c.Acknowledges d) :=
  inferInstanceAs (Decidable (_ ∧ _))

namespace Machine

section Register

variable (s : Machine)

theorem runCall_ep0r (call : Ep0Call) : (s.runCall call).ep0r =
    { s.ep0r with statRx := EpStat.valid, statTx := call.statTx s.ep0r.statTx } := by
  cases call with
  | enableRx => exact EpReg.setRxStatus_eq _ _
  | _ => simp [runCall, ep0Send, ep0TxChunk, ep0SendZlp, ep0Stall, Ep0Call.statTx]

theorem receive_setup_ep0r (p : SetupPacket) : (s.receive (.setup p)).ep0r =
    { ctrRx := false, dtogRx := true, statRx := EpStat.valid, setup := true,
      epType := usbEpControl, kind := false, ctrTx := s.ep0r.ctrTx, dtogTx := true,
      statTx := (request p s.core).2.statTx EpStat.nak, ea := 0 } := by
  rw [receive_setup, runCall_ep0r]
  simp only [abandonTransfer, EpReg.clearCtrRx_eq, latchRx]

theorem receive_out_ep0r (d : OutPacket) : (s.receive (.out d)).ep0r =
    { ctrRx := false, dtogRx := !s.ep0r.dtogRx, statRx := EpStat.valid, setup := false,
      epType := usbEpControl, kind := false, ctrTx := s.ep0r.ctrTx, dtogTx := s.ep0r.dtogTx,
      statTx := if s.core.Acknowledges d then EpStat.valid else s.ep0r.statTx, ea := 0 } := by
  rw [receive_out]
  dsimp only
  by_cases hdata : s.core.dfu.state = .dnloadSync ∧ 0 < d.bytes.length
  · rw [if_pos hdata]
    by_cases hack : (dataStage (ofList d.bytes) d.bytes.length s.core.dfu).2 = true
    · have hyes : s.core.Acknowledges d := ⟨hdata, hack⟩
      rw [if_pos hack, if_pos hyes]
      simp [ep0SendZlp, latchRx]
    · have hno : ¬ s.core.Acknowledges d := fun h => hack h.2
      rw [if_neg hack, if_neg hno]
      simp [latchRx]
  · have hno : ¬ s.core.Acknowledges d := fun h => hdata h.1
    rw [if_neg hdata, if_neg hno]
    simp [latchRx]

theorem handleEp0In_ep0r : s.handleEp0In.ep0r =
    { s.ep0r with
      ctrTx := false
      epType := usbEpControl
      kind := false
      ea := 0
      statTx := if s.MidTransfer then EpStat.valid else s.ep0r.statTx } := by
  by_cases hmid : s.MidTransfer
  · rw [if_pos hmid]
    by_cases hrem : 0 < s.ep0TxRemaining
    · rw [handleEp0In_of_remaining hrem]
      simp [ep0TxChunk]
    · rw [handleEp0In_of_needZlp hrem (hmid.resolve_left hrem)]
      simp
  · rw [handleEp0In_of_not_midTransfer hmid, if_neg hmid]
    exact EpReg.clearCtrTx_eq _

theorem step_reset_ep0r : (s.step .reset).ep0r = { EpReg.zero with
    ctrRx := s.ep0r.ctrRx
    ctrTx := s.ep0r.ctrTx
    epType := usbEpControl
    statRx := EpStat.valid
    statTx := EpStat.nak } :=
  EpReg.configure_zero { EpReg.zero with ctrRx := s.ep0r.ctrRx, ctrTx := s.ep0r.ctrTx } rfl rfl

end Register

/-- The peripheral can take a SETUP or OUT packet of up to 64 bytes at the device's EP0: the receiver
is VALID, the endpoint is a control endpoint of number 0, and the buffer table points at the two
buffers and gives the receive buffer two blocks of 32 bytes. -/
structure Listening (s : Machine) : Prop where
  statRx : s.ep0r.statRx = EpStat.valid
  epType : s.ep0r.epType = usbEpControl
  kind : s.ep0r.kind = false
  ea : s.ep0r.ea = 0
  addrTx : s.pma.read (btableOffset + 0) = UInt16.ofNat ep0TxOffset
  addrRx : s.pma.read (btableOffset + 4) = UInt16.ofNat ep0RxOffset
  blocksRx : s.pma.read (btableOffset + 6) &&& 0xFC00 = 0x8400
  enabled : s.daddr &&& usbDaddrEf = usbDaddrEf

section BufferTable

def BtableKept (pma : Pma) : Prop :=
  pma.read (btableOffset + 0) = UInt16.ofNat ep0TxOffset ∧
    pma.read (btableOffset + 4) = UInt16.ofNat ep0RxOffset ∧
    pma.read (btableOffset + 6) &&& 0xFC00 = 0x8400

variable {pma : Pma}

theorem setBtable_kept (pma : Pma) : BtableKept (setBtable pma) := by
  unfold BtableKept setBtable
  refine ⟨?_, ?_, ?_⟩
  · simp [Pma.read_write_of_ne, btableOffset]
  · simp [Pma.read_write_of_ne, btableOffset]
  · rw [Pma.read_write_self]
    rfl

theorem BtableKept.write (h : BtableKept pma) (n : UInt16) :
    BtableKept (pma.write (btableOffset + 2) n) := by
  unfold BtableKept
  rw [Pma.read_write_of_ne _ _ (by decide), Pma.read_write_of_ne _ _ (by decide),
    Pma.read_write_of_ne _ _ (by decide)]
  exact h

/-- Both packet buffers lie above the table. -/
theorem read_pmaWrite (pma : Pma) {offset buffer : ℕ} (h : offset < buffer) (data : ℕ → UInt8)
    (len : ℕ) : (pmaWrite buffer data len pma).read offset = pma.read offset := by
  apply pmaWrite_of_not_mem
  unfold pmaAddr
  omega

theorem BtableKept.pmaWrite (h : BtableKept pma) {buffer : ℕ} (hbuffer : 6 < buffer)
    (data : ℕ → UInt8) (len : ℕ) : BtableKept (pmaWrite buffer data len pma) := by
  have htable : btableOffset = 0 := rfl
  unfold BtableKept
  rw [read_pmaWrite _ (by omega), read_pmaWrite _ (by omega), read_pmaWrite _ (by omega)]
  exact h

/-- The ten bits of the count do not reach the block size. -/
theorem blocks_count (n : ℕ) (hn : n < 1024) :
    (0x8400 + UInt16.ofNat n) &&& 0xFC00 = (0x8400 : UInt16) := by
  apply UInt16.toNat_inj.mp
  rw [UInt16.toNat_and, UInt16.toNat_add, UInt16.toNat_ofNat']
  change (0x8400 + n % 2 ^ 16) % 2 ^ 16 &&& 0xFC00 = 0x8400
  rw [(by omega : (0x8400 + n % 2 ^ 16) % 2 ^ 16 = 0x8400 + n)]
  have hlow : (0x8400 + n &&& 0xFC00) % 2 ^ 10 = 0 := by
    rw [Nat.and_mod_two_pow]
    exact Nat.and_zero _
  have hhigh : (0x8400 + n &&& 0xFC00) / 2 ^ 10 = 33 := by
    rw [Nat.and_div_two_pow, (by omega : (0x8400 + n) / 2 ^ 10 = 33)]
    rfl
  omega

theorem BtableKept.storeRx (h : BtableKept pma) {bytes : List UInt8} (hlen : bytes.length < 1024) :
    BtableKept (storeRx bytes pma) := by
  obtain ⟨htx, hrx, -⟩ := h.pmaWrite (by decide : 6 < ep0RxOffset) (ofList bytes) bytes.length
  unfold Machine.storeRx
  refine ⟨?_, ?_, ?_⟩
  · rw [Pma.read_write_of_ne _ _ (by decide)]
    exact htx
  · rw [Pma.read_write_of_ne _ _ (by decide)]
    exact hrx
  · rw [Pma.read_write_self]
    exact blocks_count _ hlen

variable {s : Machine}

theorem runCall_btable (h : BtableKept s.pma) (call : Ep0Call) : BtableKept (s.runCall call).pma := by
  cases call with
  | reply bytes => exact (h.pmaWrite (by decide) _ _).write _
  | send data len => exact (h.pmaWrite (by decide) _ _).write _
  | sendZlp => exact h.write 0
  | stall => exact h
  | enableRx => exact h

theorem receive_btable (h : BtableKept s.pma) (rx : RxPacket) : BtableKept (s.receive rx).pma := by
  cases rx with
  | setup p =>
    have hlen : p.toBytes.length < 1024 := (by decide : 8 < 1024)
    rw [receive_setup]
    exact runCall_btable (h.storeRx hlen) _
  | out d =>
    rw [receive_out]
    dsimp only
    split_ifs
    · exact (h.storeRx d.fits).write 0
    · exact h.storeRx d.fits
    · exact h.storeRx d.fits

theorem handleEp0In_btable (h : BtableKept s.pma) : BtableKept s.handleEp0In.pma := by
  unfold handleEp0In
  dsimp only
  split_ifs
  · exact (h.pmaWrite (by decide) _ _).write _
  · exact h.write 0
  · exact h
  · exact h

theorem step_btable (hq : s.Quiet) (h : BtableKept s.pma) (e : UsbEvent) :
    BtableKept (s.step e).pma :=
  step_preserves (I := fun s => BtableKept s.pma) (fun _ _ _ _ h => h)
    (fun s _ => setBtable_kept s.pma) (fun _ rx h => receive_btable h rx)
    (fun _ h => handleEp0In_btable h) hq h e

end BufferTable

section Receiver

def ReceiverOpen (r : EpReg) : Prop :=
  r.statRx = EpStat.valid ∧ r.epType = usbEpControl ∧ r.kind = false ∧ r.ea = 0

variable {s : Machine}

theorem handleEp0In_receiverOpen (h : ReceiverOpen s.ep0r) : ReceiverOpen s.handleEp0In.ep0r := by
  rw [handleEp0In_ep0r]
  exact ⟨h.1, rfl, rfl, rfl⟩

/-- Every received packet opens the receiver again. -/
theorem receive_receiverOpen (s : Machine) (rx : RxPacket) : ReceiverOpen (s.receive rx).ep0r := by
  cases rx with
  | setup p =>
    rw [receive_setup_ep0r]
    exact ⟨rfl, rfl, rfl, rfl⟩
  | out d =>
    rw [receive_out_ep0r]
    exact ⟨rfl, rfl, rfl, rfl⟩

theorem step_receiverOpen (hq : s.Quiet) (h : ReceiverOpen s.ep0r) (e : UsbEvent) :
    ReceiverOpen (s.step e).ep0r := by
  rcases e with _ | _ | ⟨_ | rx, _ | _⟩
  · exact h
  · rw [step_reset_ep0r]
    exact ⟨rfl, rfl, rfl, rfl⟩
  · rw [step_none hq]
    exact h
  · rw [step_inDone hq]
    exact handleEp0In_receiverOpen h
  · rw [step_rx hq]
    exact receive_receiverOpen s rx
  · rw [step_rx hq]
    exact handleEp0In_receiverOpen (receive_receiverOpen _ rx)

def Enabled (s : Machine) : Prop := s.daddr &&& usbDaddrEf = usbDaddrEf

theorem or_and_daddrEf (a : UInt16) : (usbDaddrEf ||| a) &&& usbDaddrEf = usbDaddrEf := by
  apply UInt16.toNat_inj.mp
  apply Nat.eq_of_testBit_eq
  intro i
  rw [UInt16.toNat_and, UInt16.toNat_or, Nat.testBit_and, Nat.testBit_or]
  cases usbDaddrEf.toNat.testBit i with
  | false => exact Bool.and_false _
  | true => rfl

theorem handleEp0In_enabled (h : s.Enabled) : s.handleEp0In.Enabled := by
  unfold handleEp0In
  dsimp only
  split_ifs
  · exact h
  · exact h
  · exact or_and_daddrEf _
  · exact h

theorem receive_daddr (s : Machine) (rx : RxPacket) : (s.receive rx).daddr = s.daddr := by
  cases rx with
  | setup p => rw [receive_setup, runCall_daddr]; rfl
  | out d =>
    rw [receive_out]
    dsimp only
    split_ifs <;> rfl

theorem step_enabled (hq : s.Quiet) (h : s.Enabled) (e : UsbEvent) : (s.step e).Enabled := by
  rcases e with _ | _ | ⟨_ | rx, _ | _⟩
  · exact h
  · exact UInt16.and_self
  · rw [step_none hq]
    exact h
  · rw [step_inDone hq]
    exact handleEp0In_enabled (s := { s.latchTx with istr := _ }) h
  · rw [step_rx hq]
    unfold Enabled
    rw [if_neg Bool.false_ne_true, receive_daddr]
    exact h
  · rw [step_rx hq]
    apply handleEp0In_enabled
    unfold Enabled
    rw [receive_daddr]
    exact h

end Receiver

structure Toggles where
  rx : Bool
  tx : Bool
deriving DecidableEq

/-- What an event on the bus does to the toggles of an endpoint that obeys the protocol. -/
def Toggles.next (t : Toggles) : UsbEvent → Toggles
  | .idle => t
  | .reset => ⟨false, false⟩
  | .ctr rx tx =>
    let t := if tx then { t with tx := !t.tx } else t
    match rx with
    | none => t
    | some (.setup _) => ⟨true, true⟩
    | some (.out _) => { t with rx := !t.rx }

def toggles (s : Machine) : Toggles := ⟨s.ep0r.dtogRx, s.ep0r.dtogTx⟩

section Toggles

variable {s : Machine}

theorem handleEp0In_toggles (s : Machine) : s.handleEp0In.toggles = s.toggles := by
  unfold toggles
  rw [handleEp0In_ep0r]

/-- No write of the firmware to `EP0R` moves a toggle. -/
theorem step_toggles (hq : s.Quiet) (e : UsbEvent) : (s.step e).toggles = s.toggles.next e := by
  rcases e with _ | _ | ⟨_ | (p | d), _ | _⟩
  · rfl
  · unfold toggles
    rw [step_reset_ep0r]
    rfl
  · rw [step_none hq]
    rfl
  · rw [step_inDone hq, handleEp0In_toggles]
    rfl
  · rw [step_rx hq, toggles, if_neg Bool.false_ne_true, receive_setup_ep0r]
    rfl
  · rw [step_rx hq, if_pos rfl, handleEp0In_toggles, toggles, receive_setup_ep0r]
    rfl
  · rw [step_rx hq, toggles, if_neg Bool.false_ne_true, receive_out_ep0r]
    rfl
  · rw [step_rx hq, if_pos rfl, handleEp0In_toggles, toggles, receive_out_ep0r]
    rfl

end Toggles

/-- In every state between two polls, after whatever events, the peripheral can take the next packet
by itself, and the data toggles are those the bus expects. -/
theorem ep0_receiver_open (mem : ℕ → UInt8) (faults : ℕ → Fault) (es : List UsbEvent) :
    let s := (start mem faults).run es
    s.Listening ∧ s.txCount ≤ 64 ∧ s.toggles = StepSystem.run Toggles.next ⟨false, false⟩ es := by
  intro s
  have hs : s.Reachable := ⟨mem, faults, es, rfl⟩
  have hstart := start_quiet mem faults
  obtain ⟨-, hopen, ⟨htx, hrx, hblocks⟩, henabled⟩ := StepSystem.run_invariant
    (fun s : Machine => s.Quiet ∧ ReceiverOpen s.ep0r ∧ BtableKept s.pma ∧ s.Enabled)
    (fun _ e h => ⟨step_quiet h.1 e, step_receiverOpen h.1 h.2.1 e, step_btable h.1 h.2.2.1 e,
      step_enabled h.1 h.2.2.2 e⟩)
    ⟨hstart, ⟨rfl, rfl, rfl, rfl⟩, setBtable_kept _, UInt16.and_self⟩ es
  have htoggles := StepSystem.run_simulation Toggles.next toggles id Quiet
    (fun _ e h => step_quiet h e) (fun _ e h => step_toggles h e) hstart es
  rw [List.map_id] at htoggles
  exact ⟨⟨hopen.1, hopen.2.1, hopen.2.2.1, hopen.2.2.2, htx, hrx, hblocks, henabled⟩,
    hs.ep0Consistent.txBounded, htoggles⟩

section Stall

/-- The SETUP packets that are refused: neither answered at once nor waiting for data. -/
def Refused (p : SetupPacket) (d : Dfu) : Prop := ¬ Answered p d ∧ ¬ Accepts p d

instance (p : SetupPacket) (d : Dfu) : Decidable (Refused p d) := inferInstanceAs (Decidable (_ ∧ _))

/-- Only a DNLOAD that is accepted waits for its data. -/
theorem request_enableRx_iff (p : SetupPacket) (c : Core) :
    (request p c).2 = .enableRx ↔ Accepts p c.dfu := by
  refine ⟨fun h => ?_, fun h => by rw [request_of_accepts h]⟩
  by_cases hd : p.IsDfu dfuDnload
  · rw [request_dnload hd] at h
    unfold handleDfuDnload at h
    split_ifs at h with hzero hs hbig hone hs
    all_goals exact ⟨hd, ⟨Nat.pos_of_ne_zero hzero, Nat.not_lt.mp hbig⟩, hone, hs⟩
  · exfalso
    revert h
    unfold request
    split_ifs with hstd hclass
    · unfold standardCall handleGetDescriptor
      dsimp only
      split_ifs <;> simp
    · unfold dfuRequest handleDfuUpload
      dsimp only
      split_ifs with h₁ h₂ h₃
      · simp [handleDfuGetstatus]
      · simp [handleDfuGetstate]
      · exact absurd ⟨hclass, h₃⟩ hd
      all_goals simp [handleDfuClrstatus, handleDfuAbort]
    · simp

theorem request_stall_iff (p : SetupPacket) (c : Core) :
    (request p c).2 = .stall ↔ Refused p c.dfu := by
  unfold Refused
  rw [← request_queues_iff, ← request_enableRx_iff]
  cases (request p c).2 <;> simp [Ep0Call.Queues]

/-- An onlooker who knows whether the transmitter should be stalled: a refused request stalls it, and
a bus reset, any other request, an acknowledged data stage and a completed IN packet end that. -/
def stallWatch (refused : Bool) (s : Machine) : UsbEvent → Bool
  | .idle => refused
  | .reset => false
  | .ctr rx tx =>
    match rx with
    | none => refused && !tx
    | some (.setup p) => decide (Refused p s.core.dfu)
    | some (.out d) => refused && !tx && !decide (s.core.Acknowledges d)

variable {s : Machine} {refused : Bool}

theorem handleEp0In_stalled (s : Machine) : s.handleEp0In.ep0r.statTx = EpStat.stall ↔
    ¬ s.MidTransfer ∧ s.ep0r.statTx = EpStat.stall := by
  rw [handleEp0In_ep0r]
  by_cases hmid : s.MidTransfer
  · simp [hmid, EpStat.valid_ne_stall]
  · simp [hmid]

theorem receive_setup_stalled (s : Machine) (p : SetupPacket) :
    (s.receive (.setup p)).ep0r.statTx = EpStat.stall ↔ Refused p s.core.dfu := by
  rw [receive_setup_ep0r, ← request_stall_iff]
  exact Ep0Call.statTx_eq_stall _

theorem not_midTransfer_of_refused {p : SetupPacket} (h : Refused p s.core.dfu) :
    ¬ (s.receive (.setup p)).MidTransfer := by
  rw [receive_setup_midTransfer, ← request_continues_iff, (request_stall_iff p s.core).mpr h]
  exact id

theorem receive_out_stalled (s : Machine) (d : OutPacket) :
    (s.receive (.out d)).ep0r.statTx = EpStat.stall ↔
      s.ep0r.statTx = EpStat.stall ∧ ¬ s.core.Acknowledges d := by
  rw [receive_out_ep0r]
  by_cases hack : s.core.Acknowledges d
  · simp [hack, EpStat.valid_ne_stall]
  · simp [hack]

theorem step_stalled (hq : s.Quiet) (h : s.ep0r.statTx = EpStat.stall ↔ refused = true)
    (e : UsbEvent) : (s.step e).ep0r.statTx = EpStat.stall ↔ stallWatch refused s e = true := by
  rcases e with _ | _ | ⟨_ | (p | d), _ | _⟩
  · exact h
  · rw [step_reset_ep0r]
    exact iff_of_false EpStat.nak_ne_stall Bool.false_ne_true
  · rw [step_none hq, stallWatch, Bool.not_false, Bool.and_true]
    exact h
  · rw [step_inDone hq, handleEp0In_stalled, stallWatch, Bool.not_true, Bool.and_false]
    exact iff_of_false (fun hs => EpStat.nak_ne_stall hs.2) Bool.false_ne_true
  · rw [step_rx hq, if_neg Bool.false_ne_true, receive_setup_stalled, stallWatch, decide_eq_true_iff]
    rfl
  · rw [step_rx hq, if_pos rfl, handleEp0In_stalled, receive_setup_stalled, stallWatch,
      decide_eq_true_iff]
    exact ⟨And.right, fun h => ⟨not_midTransfer_of_refused h, h⟩⟩
  · rw [step_rx hq, if_neg Bool.false_ne_true, receive_out_stalled, stallWatch]
    simp [latchIn, h]
  · rw [step_rx hq, if_pos rfl, handleEp0In_stalled, receive_out_stalled, stallWatch]
    simp [latchIn, latchTx, EpStat.nak_ne_stall]

def StallKnown (x : Machine × Bool) : Prop :=
  x.1.Quiet ∧ (x.1.ep0r.statTx = EpStat.stall ↔ x.2 = true)

theorem StallKnown.step {x : Machine × Bool} (h : StallKnown x) (e : UsbEvent) :
    StallKnown (StepSystem.observed step stallWatch x e) :=
  ⟨step_quiet h.1 e, step_stalled h.1 h.2 e⟩

end Stall

/-- In every run the device answers IN tokens with STALL exactly from a refused request until the next
request that is not refused, a completed IN packet, the end of a data stage or a bus reset. -/
theorem stall_iff_refused (mem : ℕ → UInt8) (faults : ℕ → Fault) (es : List UsbEvent) :
    ((start mem faults).run es).ep0r.statTx = EpStat.stall ↔
      (StepSystem.run (StepSystem.observed step stallWatch) (start mem faults, false) es).2 = true := by
  have hstart : StallKnown (start mem faults, false) :=
    ⟨start_quiet mem faults, iff_of_false EpStat.nak_ne_stall Bool.false_ne_true⟩
  have hknown := (StepSystem.run_invariant StallKnown (fun _ e h => h.step e) hstart es).2
  rw [StepSystem.run_observed_fst] at hknown
  exact hknown

end Machine

end NovaBootloader
