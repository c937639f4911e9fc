import NovaBootloader.Machine

/-!
# What one poll does

Between two polls no endpoint flag is set, so a poll handles exactly the event that was latched.
The EP0 engine never touches the DFU variables or the flash; on these a step of the machine is
`coreStep`, whatever is going on in the packet memory and the endpoint register.
-/

namespace NovaBootloader
open ByteMemory

theorem SetupPacket.ofBytes_congr {b b' : ℕ → UInt8} (h : ∀ i < 8, b i = b' i) :
    ofBytes b = ofBytes b' := by
  simp only [ofBytes, h 0 (by decide), h 1 (by decide), h 2 (by decide), h 3 (by decide),
    h 4 (by decide), h 5 (by decide), h 6 (by decide), h 7 (by decide)]

theorem SetupPacket.ofBytes_toBytes (p : SetupPacket) : ofBytes (ofList p.toBytes) = p := by
  cases p with
  | mk bmRequestType bRequest wValue wIndex wLength =>
    change SetupPacket.mk bmRequestType bRequest (le16 (wValue &&& 0xFF).toUInt8 (wValue >>> 8).toUInt8)
      (le16 (wIndex &&& 0xFF).toUInt8 (wIndex >>> 8).toUInt8)
      (le16 (wLength &&& 0xFF).toUInt8 (wLength >>> 8).toUInt8) = _
    rw [le16_bytes, le16_bytes, le16_bytes]

theorem dataStage_congr {data data' : ℕ → UInt8} {count : ℕ} (h : ∀ i < count, data i = data' i)
    (d : Dfu) : dataStage data count d = dataStage data' count d := by
  unfold dataStage appendData
  rw [overwrite_congr h]

namespace Machine

/-- A reader of the receive buffer sees the packet the hardware stored there. -/
theorem pmaRead_storeRx (bytes : List UInt8) (pma : Pma) {i : ℕ} (hi : i < bytes.length) :
    pmaRead (storeRx bytes pma) ep0RxOffset (fun _ => 0) 0 bytes.length i = ofList bytes i := by
  rw [pmaRead_eq, overwrite_of_mem (Nat.zero_le _) (by omega), storeRx,
    pmaByte_write _ _ (by decide), Nat.sub_zero, pmaByte_pmaWrite _ _ _ _ hi]

theorem ofBytes_storeRx (p : SetupPacket) (pma : Pma) :
    SetupPacket.ofBytes (pmaRead (storeRx p.toBytes pma) ep0RxOffset (fun _ => 0) 0 8) = p := by
  have h := SetupPacket.ofBytes_congr fun i hi => pmaRead_storeRx p.toBytes pma hi
  rw [SetupPacket.ofBytes_toBytes] at h
  exact h

theorem countRx_storeRx (d : OutPacket) (pma : Pma) :
    ((storeRx d.bytes pma).read (btableOffset + 6) &&& 0x3FF).toNat = d.bytes.length := by
  have hlen := d.fits
  rw [storeRx, Pma.read_write_self, UInt16.toNat_and, UInt16.toNat_add, UInt16.toNat_ofNat']
  change (0x8400 + d.bytes.length % 2 ^ 16) % 2 ^ 16 &&& (2 ^ 10 - 1) = _
  rw [Nat.and_two_pow_sub_one_eq_mod]
  omega

section Frame

variable (s : Machine)

@[simp] theorem runCall_core (call : Ep0Call) : (s.runCall call).core = s.core := by
  cases call <;> rfl

@[simp] theorem runCall_pendingAddress (call : Ep0Call) :
    (s.runCall call).pendingAddress = s.pendingAddress := by
  cases call <;> rfl

@[simp] theorem runCall_daddr (call : Ep0Call) : (s.runCall call).daddr = s.daddr := by
  cases call <;> rfl

@[simp] theorem runCall_ctrRx (call : Ep0Call) :
    (s.runCall call).ep0r.ctrRx = s.ep0r.ctrRx := by
  cases call <;> simp [runCall, ep0Send, ep0TxChunk, ep0SendZlp, ep0Stall]

@[simp] theorem runCall_ctrTx (call : Ep0Call) :
    (s.runCall call).ep0r.ctrTx = s.ep0r.ctrTx := by
  cases call <;> simp [runCall, ep0Send, ep0TxChunk, ep0SendZlp, ep0Stall]

end Frame

def standardCall (p : SetupPacket) : Ep0Call :=
  if p.bRequest = usbReqGetDescriptor then handleGetDescriptor p.wValue p.wLength.toNat
  else if p.bRequest = usbReqSetAddress then .sendZlp
  else if p.bRequest = usbReqSetConfiguration then .sendZlp
  else if p.bRequest = usbReqGetConfiguration then .reply [1]
  else if p.bRequest = usbReqGetStatus then .reply [0, 0]
  else .stall

def addressAfter (p : SetupPacket) (pending : UInt8) : UInt8 :=
  if p.IsStandard ∧ p.bRequest = usbReqSetAddress then (p.wValue &&& 0x7F).toUInt8 else pending

def request (p : SetupPacket) (c : Core) : Core × Ep0Call :=
  if p.IsStandard then (c, standardCall p)
  else if p.IsClass then dfuRequest p c
  else (c, .stall)

theorem standardRequest_eq (p : SetupPacket) (s : Machine) (hp : p.IsStandard) :
    s.standardRequest p =
      { s with pendingAddress := addressAfter p s.pendingAddress }.runCall (standardCall p) := by
  by_cases h₁ : p.bRequest = usbReqSetAddress
  · have h₂ : ¬ p.bRequest = usbReqGetDescriptor := by
      rw [h₁]
      decide
    have ha : addressAfter p s.pendingAddress = (p.wValue &&& 0x7F).toUInt8 := if_pos ⟨hp, h₁⟩
    unfold standardRequest standardCall
    rw [ha, if_neg h₂, if_pos h₁, if_neg h₂, if_pos h₁]
  · have ha : addressAfter p s.pendingAddress = s.pendingAddress := if_neg fun h => h₁ h.2
    unfold standardRequest standardCall
    rw [ha, if_neg h₁, if_neg h₁]
    split_ifs <;> rfl

def abandonTransfer (p : SetupPacket) (s : Machine) : Machine :=
  { s with
    ep0r := s.ep0r.clearCtrRx
    ep0TxPtr := .null
    ep0TxRemaining := 0
    ep0TxNeedZlp := false
    ep0ReqLen := p.wLength.toNat }

/-- `handle_setup` on a received packet `p`: any transfer in flight is abandoned, the request is
decoded, and its answer is queued. -/
theorem handleSetup_eq (p : SetupPacket) (s : Machine) (pma : Pma)
    (hpma : s.pma = storeRx p.toBytes pma) :
    s.handleSetup =
      { s.abandonTransfer p with
        core := (request p s.core).1
        pendingAddress := addressAfter p s.pendingAddress }.runCall (request p s.core).2 := by
  have hp : SetupPacket.ofBytes (pmaRead s.pma ep0RxOffset (fun _ => 0) 0 8) = p := by
    rw [hpma, ofBytes_storeRx]
  unfold handleSetup
  simp only [hp]
  by_cases hs : p.IsStandard
  · rw [if_pos hs, standardRequest_eq _ _ hs]
    simp only [request, if_pos hs]
    rfl
  · have ha : addressAfter p s.pendingAddress = s.pendingAddress := if_neg fun h => hs h.1
    rw [if_neg hs, ha]
    by_cases hc : p.IsClass
    · simp only [request, if_neg hs, if_pos hc, classRequest]
      rfl
    · simp only [request, if_neg hs, if_neg hc]
      rfl

theorem handleEp0Out_eq (d : OutPacket) (s : Machine) (pma : Pma)
    (hpma : s.pma = storeRx d.bytes pma) :
    s.handleEp0Out =
      let r := dataStage (ofList d.bytes) d.bytes.length s.core.dfu
      let s' :=
        if s.core.dfu.state = .dnloadSync ∧ 0 < d.bytes.length then
          let s' := { s with core := { s.core with dfu := r.1 } }
          if r.2 then s'.ep0SendZlp else s'
        else s
      { s' with ep0r := s'.ep0r.clearCtrRx.setRxStatus EpStat.valid } := by
  have hcount : (s.pma.read (btableOffset + 6) &&& 0x3FF).toNat = d.bytes.length := by
    rw [hpma, countRx_storeRx]
  have hdata : dataStage (pmaRead s.pma ep0RxOffset (fun _ => 0) 0 d.bytes.length) d.bytes.length
      s.core.dfu = dataStage (ofList d.bytes) d.bytes.length s.core.dfu := by
    rw [hpma]
    exact dataStage_congr (fun i hi => pmaRead_storeRx d.bytes pma hi) _
  unfold handleEp0Out
  simp only [hcount, hdata]

/-- No endpoint flag is set between two polls. -/
def Quiet (s : Machine) : Prop := s.ep0r.ctrRx = false ∧ s.ep0r.ctrTx = false

def latchIn (s : Machine) (tx : Bool) : Machine := if tx then s.latchTx else s

/-- The machine after a poll has handled a received packet, before it looks at `CTR_TX`. -/
def receive (s : Machine) : RxPacket → Machine
  | .setup p => { s.latchRx (.setup p) with istr := ⟨false, true, 0⟩ }.handleSetup
  | .out d => { s.latchRx (.out d) with istr := ⟨false, true, 0⟩ }.handleEp0Out

theorem latchIn_ctrTx {s : Machine} (hq : s.Quiet) (tx : Bool) : (s.latchIn tx).ep0r.ctrTx = tx := by
  cases tx
  · exact hq.2
  · rfl

theorem step_rx {s : Machine} (hq : s.Quiet) (rx : RxPacket) (tx : Bool) :
    s.step (.ctr (some rx) tx) =
      if tx then ((s.latchIn tx).receive rx).handleEp0In else (s.latchIn tx).receive rx := by
  have h := latchIn_ctrTx hq tx
  cases rx with
  | setup p =>
    change (if (s.latchIn tx).ep0r.ctrTx then _ else _) = _
    rw [h]
    rfl
  | out d =>
    change (if (s.latchIn tx).ep0r.ctrTx then _ else _) = _
    rw [h]
    rfl

theorem step_inDone {s : Machine} (hq : s.Quiet) :
    s.step .inDone = { s.latchTx with istr := ⟨false, true, 0⟩ }.handleEp0In := by
  simp [step, latch, usbPoll, latchTx, hq.1]

theorem step_none {s : Machine} (hq : s.Quiet) :
    s.step (.ctr none false) = { s with istr := ⟨false, true, 0⟩ } := by
  change (if s.ep0r.ctrTx then _ else if s.ep0r.ctrRx then _ else _) = _
  rw [hq.1, hq.2]
  rfl

@[simp] theorem handleEp0In_core (s : Machine) : s.handleEp0In.core = s.core := by
  unfold handleEp0In
  dsimp only
  split_ifs <;> rfl

theorem handleEp0In_ctrRx (s : Machine) : s.handleEp0In.ep0r.ctrRx = s.ep0r.ctrRx := by
  unfold handleEp0In
  dsimp only
  split_ifs <;> simp [ep0TxChunk]

theorem handleEp0In_ctrTx (s : Machine) : s.handleEp0In.ep0r.ctrTx = false := by
  unfold handleEp0In
  dsimp only
  split_ifs <;> simp [ep0TxChunk]

theorem receive_setup (s : Machine) (p : SetupPacket) :
    s.receive (.setup p) =
      { { s.latchRx (.setup p) with istr := ⟨false, true, 0⟩ }.abandonTransfer p with
        core := (request p s.core).1
        pendingAddress := addressAfter p s.pendingAddress }.runCall (request p s.core).2 :=
  handleSetup_eq p _ s.pma rfl

theorem receive_out (s : Machine) (d : OutPacket) :
    s.receive (.out d) =
      let r := dataStage (ofList d.bytes) d.bytes.length s.core.dfu
      let s₀ := { s.latchRx (.out d) with istr := ⟨false, true, 0⟩ }
      let s' :=
        if s.core.dfu.state = .dnloadSync ∧ 0 < d.bytes.length then
          let s' := { s₀ with core := { s.core with dfu := r.1 } }
          if r.2 then s'.ep0SendZlp else s'
        else s₀
      { s' with ep0r := s'.ep0r.clearCtrRx.setRxStatus EpStat.valid } :=
  handleEp0Out_eq d _ s.pma rfl

theorem receive_ctrRx (s : Machine) (rx : RxPacket) : (s.receive rx).ep0r.ctrRx = false := by
  cases rx with
  | setup p => simp [receive_setup, abandonTransfer]
  | out d => simp [receive_out]

theorem receive_ctrTx (s : Machine) (rx : RxPacket) :
    (s.receive rx).ep0r.ctrTx = s.ep0r.ctrTx := by
  cases rx with
  | setup p => simp [receive_setup, abandonTransfer, latchRx]
  | out d =>
    rw [receive_out]
    dsimp only
    split_ifs <;> simp [ep0SendZlp, latchRx]

end Machine

def coreStep (c : Core) : UsbEvent → Core
  | .idle => c
  | .reset => { c with dfu := c.dfu.usbReset }
  | .ctr none _ => c
  | .ctr (some (.setup p)) _ => (Machine.request p c).1
  | .ctr (some (.out d)) _ =>
    if c.dfu.state = .dnloadSync ∧ 0 < d.bytes.length then
      { c with dfu := (dataStage (ofList d.bytes) d.bytes.length c.dfu).1 }
    else c

namespace Machine

theorem receive_core (s : Machine) (rx : RxPacket) (tx : Bool) :
    (s.receive rx).core = coreStep s.core (.ctr (some rx) tx) := by
  cases rx with
  | setup p => rw [receive_setup, runCall_core, coreStep]
  | out d =>
    rw [receive_out, coreStep]
    dsimp only
    split_ifs <;> rfl

@[simp] theorem latchIn_core (s : Machine) (tx : Bool) : (s.latchIn tx).core = s.core := by
  cases tx <;> rfl

theorem step_quiet {s : Machine} (hq : s.Quiet) (e : UsbEvent) : (s.step e).Quiet := by
  cases e with
  | idle => exact hq
  | reset =>
    change (EpReg.configure _).ctrRx = false ∧ (EpReg.configure _).ctrTx = false
    rw [EpReg.configure_zero _ rfl rfl]
    exact hq
  | ctr rx tx =>
    cases rx with
    | none =>
      cases tx with
      | false =>
        rw [step_none hq]
        exact hq
      | true =>
        rw [step_inDone hq]
        exact ⟨(handleEp0In_ctrRx _).trans hq.1, handleEp0In_ctrTx _⟩
    | some rx =>
      rw [step_rx hq]
      cases tx with
      | false => exact ⟨receive_ctrRx _ rx, (receive_ctrTx _ rx).trans hq.2⟩
      | true => exact ⟨(handleEp0In_ctrRx _).trans (receive_ctrRx _ rx), handleEp0In_ctrTx _⟩

theorem step_reset_status (s : Machine) : (s.step .reset).ep0r.statRx = EpStat.valid ∧
    (s.step .reset).ep0r.statTx = EpStat.nak := by
  change (EpReg.configure _).statRx = _ ∧ (EpReg.configure _).statTx = _
  rw [EpReg.configure_zero _ rfl rfl]
  exact ⟨rfl, rfl⟩

theorem step_core {s : Machine} (hq : s.Quiet) (e : UsbEvent) :
    (s.step e).core = coreStep s.core e := by
  cases e with
  | idle => rfl
  | reset => rfl
  | ctr rx tx =>
    cases rx with
    | none =>
      cases tx with
      | false => rw [step_none hq, coreStep]
      | true =>
        rw [step_inDone hq, handleEp0In_core, coreStep]
        rfl
    | some rx =>
      rw [step_rx hq]
      cases tx with
      | false => exact receive_core _ rx false
      | true => rw [if_pos rfl, handleEp0In_core, receive_core _ rx true, latchIn_core]

/-- What the registers do not matter to, a step keeps if each of the four handlers keeps it. -/
theorem step_preserves {I : Machine → Prop}
    (hregs : ∀ s ep0r istr daddr, I s → I { s with ep0r := ep0r, istr := istr, daddr := daddr })
    (hreset : ∀ s, I s → I s.usbReset) (hreceive : ∀ s rx, I s → I (s.receive rx))
    (hin : ∀ s, I s → I s.handleEp0In) {s : Machine} (hq : s.Quiet) (hs : I s) (e : UsbEvent) :
    I (s.step e) := by
  cases e with
  | idle => exact hregs s _ _ _ hs
  | reset => exact hreset _ (hregs s _ _ _ hs)
  | ctr rx tx =>
    cases rx with
    | none =>
      cases tx with
      | false =>
        rw [step_none hq]
        exact hregs s _ _ _ hs
      | true =>
        rw [step_inDone hq]
        exact hin _ (hregs s _ _ _ hs)
    | some rx =>
      have hlatch : I (s.latchIn tx) := by
        cases tx with
        | false => exact hs
        | true => exact hregs s _ _ _ hs
      rw [step_rx hq]
      split_ifs
      · exact hin _ (hreceive _ rx hlatch)
      · exact hreceive _ rx hlatch

theorem start_quiet (mem : ℕ → UInt8) (faults : ℕ → Fault) : (start mem faults).Quiet := ⟨rfl, rfl⟩

theorem run_quiet {s : Machine} (hq : s.Quiet) (es : List UsbEvent) : (s.run es).Quiet :=
  StepSystem.run_invariant Quiet (fun _ e h => step_quiet h e) hq es

theorem Reachable.quiet {s : Machine} (hs : s.Reachable) : s.Quiet := by
  obtain ⟨mem, faults, es, rfl⟩ := hs
  exact run_quiet (start_quiet mem faults) es

/-- The runs of the machine, seen on the DFU variables and the flash. -/
theorem run_core {s : Machine} (hq : s.Quiet) (es : List UsbEvent) :
    (s.run es).core = StepSystem.run coreStep s.core es := by
  have h := StepSystem.run_simulation coreStep Machine.core id Quiet
    (fun _ e hs => step_quiet hs e) (fun _ e hs => step_core hs e) hq es
  rwa [List.map_id] at h

end Machine

end NovaBootloader
