import NovaBootloader.FlashTrace

/-!
# The download exchange as seen on the bus

An onlooker who sees the packets and knows which DNLOAD requests were accepted can tell which block
is being downloaded and which bytes belong to its data stage. `Exchange` is what such an onlooker
writes down. The buffer of the DFU function follows it as long as nothing else gets into the buffer.
-/

namespace NovaBootloader
open ByteMemory

/-- The DNLOAD accepted last. -/
structure Exchange where
  block : ℕ
  wLength : ℕ
  /-- the address its data belong at, from the pointer at the time it was accepted -/
  base : UInt32
  /-- the OUT data since then, up to the next SETUP packet -/
  received : List UInt8
  /-- no other SETUP packet has been seen since -/
  current : Bool
  /-- a packet from outside its data stage, or past its announced length, was put in the buffer -/
  mixed : Bool
  attempted : Bool
  /-- the command that was pending when it was accepted -/
  inherited : UInt8
deriving DecidableEq

/-- `handle_ep0_out` puts a packet of `n` bytes in the buffer. -/
def Dfu.Stores (d : Dfu) (n : ℕ) : Prop :=
  d.state = .dnloadSync ∧ 0 < n ∧ d.bufferLen + n ≤ dfuXferSize

instance (d : Dfu) (n : ℕ) : Decidable (d.Stores n) := inferInstanceAs (Decidable (_ ∧ _))

namespace Exchange

def opened (p : SetupPacket) (d : Dfu) : Exchange where
  block := p.wValue.toNat
  wLength := p.wLength.toNat
  base := d.blockAddress p.wValue.toNat
  received := []
  current := true
  mixed := false
  attempted := false
  inherited := d.cmdPending

def Expects (x : Exchange) (n : ℕ) : Prop :=
  x.current = true ∧ x.received.length + n ≤ x.wLength

instance (x : Exchange) (n : ℕ) : Decidable (x.Expects n) := inferInstanceAs (Decidable (_ ∧ _))

def receive (d : Dfu) (bytes : List UInt8) (x : Exchange) : Exchange :=
  { x with
    received := if x.current then x.received ++ bytes else x.received
    mixed := x.mixed || decide (d.Stores bytes.length ∧ ¬ x.Expects bytes.length) }

inductive Operation where
  | setPointer (a : UInt32)
  | erase (a : UInt32)
  | program (a : UInt32) (bytes : List UInt8)
deriving DecidableEq

/-- The operation the payload encodes, once all of it is there. -/
def operation (x : Exchange) : Option Operation :=
  if x.received.length < x.wLength then none
  else if x.block ≠ 0 then some (.program x.base (x.received.take x.wLength))
  else if x.wLength < 5 then none
  else
    let b := ofList x.received
    let operand := le32 (b 1) (b 2) (b 3) (b 4)
    if b 0 = dfuseCmdSetAddress then some (.setPointer operand)
    else if b 0 = dfuseCmdErasePage then some (.erase operand)
    else none

/-- The onlooker sees one event that reaches the machine in state `s`. -/
def observe (x : Option Exchange) (s : Machine) : UsbEvent → Option Exchange
  | .ctr (some (.setup p)) _ =>
    if Accepts p s.core.dfu then some (opened p s.core.dfu)
    else x.map fun x => { x with
      current := false
      attempted := x.attempted || decide (Attempts p s.core.dfu) }
  | .ctr (some (.out d)) _ => x.map (receive s.core.dfu d.bytes)
  | .reset => x.map fun x => { x with current := false }
  | _ => x

/-- The buffer holds a prefix of the data stage, all of it unless more came than was announced. -/
structure Buffered (x : Exchange) (d : Dfu) : Prop where
  isPrefix : toList d.buffer d.bufferLen <+: x.received
  le : d.bufferLen ≤ x.wLength
  received_nil : d.bufferLen = 0 → x.received = []
  complete : x.received.length ≤ x.wLength → d.bufferLen = x.received.length
  cmdPending : d.cmdPending = x.inherited

structure Decoded (x : Exchange) (d : Dfu) : Prop where
  block : d.blockNum = 0
  bufferLen : d.bufferLen = 0
  received : x.wLength ≤ x.received.length
  cmdPending : d.cmdPending = ofList x.received 0
  cmdHasArg : d.cmdHasArg = decide (5 ≤ x.wLength)
  cmdArg : 5 ≤ x.wLength → d.cmdArg = le32 (ofList x.received 1) (ofList x.received 2)
    (ofList x.received 3) (ofList x.received 4)

/-- The onlooker's record agrees with the variables of a download in progress. -/
structure Follows (x : Exchange) (d : Dfu) : Prop where
  block : x.block = d.blockNum
  wLength : x.wLength = d.xferLen
  base : 2 ≤ d.blockNum → x.base = d.address
  fresh : x.attempted = false
  current : x.current = true → d.state = .dnloadSync
  data : x.mixed = false → x.Buffered d ∨ x.Decoded d

theorem opened_follows {p : SetupPacket} {d : Dfu} :
    (opened p d).Follows (d.accept p.wValue.toNat p.wLength.toNat) where
  block := rfl
  wLength := rfl
  base h := (if_pos h).symm
  fresh := rfl
  current _ := rfl
  data _ := Or.inl ⟨List.nil_prefix, Nat.zero_le _, fun _ => rfl, fun _ => rfl, rfl⟩

/-- A SETUP packet that is no DNLOAD ends the data stage, whatever it does to the state. -/
theorem Follows.close {x : Exchange} {d : Dfu} (h : x.Follows d) (state : DfuState) :
    Follows { x with current := false } { d with state := state } where
  block := h.block
  wLength := h.wLength
  base := h.base
  fresh := h.fresh
  current hc := absurd hc Bool.false_ne_true
  data hm := by
    rcases h.data hm with hb | hd
    · exact Or.inl ⟨hb.isPrefix, hb.le, hb.received_nil, hb.complete, hb.cmdPending⟩
    · exact Or.inr ⟨hd.block, hd.bufferLen, hd.received, hd.cmdPending, hd.cmdHasArg, hd.cmdArg⟩

section DataStage

variable {x : Exchange} {d : Dfu} {bytes : List UInt8}

theorem dataStage_of_not_stores (hc : d.Consistent) (hs : d.state = .dnloadSync)
    (hpos : 0 < bytes.length) (hst : ¬ d.Stores bytes.length) :
    (dataStage (ofList bytes) bytes.length d).1 = d := by
  have happ : appendData (ofList bytes) bytes.length d = d :=
    if_neg fun hfit => hst ⟨hs, hpos, hfit⟩
  unfold dataStage
  simp only [happ]
  by_cases hfull : d.xferLen ≤ d.bufferLen
  · rw [if_pos hfull, if_neg]
    intro h0
    have := hc.undecoded (Or.inl hs) h0.1
    omega
  · rw [if_neg hfull]

theorem Buffered.store (hb : x.Buffered d) (hx : x.Expects bytes.length) :
    toList (overwrite d.buffer d.bufferLen bytes.length (ofList bytes))
      (d.bufferLen + bytes.length) = x.received ++ bytes := by
  have hlen : d.bufferLen = x.received.length := hb.complete (by have := hx.2; omega)
  have hall : toList d.buffer d.bufferLen = x.received :=
    hb.isPrefix.eq_of_length (by rw [length_toList, hlen])
  rw [toList_overwrite_append, hall]

theorem decodeCommand_decoded {b : List UInt8} (hblock : d.blockNum = 0) (hlen : 0 < d.bufferLen)
    (hbuf : toList d.buffer d.bufferLen = b) (hx : x.wLength = d.bufferLen)
    (hrec : x.received = b) : x.Decoded (decodeCommand d) := by
  have hget (i : ℕ) (hi : i < d.bufferLen) : d.buffer i = ofList x.received i := by
    rw [hrec]
    exact eq_ofList_of_toList hbuf hi
  refine ⟨hblock, rfl, ?_, hget 0 hlen, ?_, fun h5 => ?_⟩
  · rw [hrec, ← hbuf, length_toList, hx]
  · rw [hx]
    rfl
  · rw [hx] at h5
    have harg : (decodeCommand d).cmdArg = le32 (d.buffer 1) (d.buffer 2) (d.buffer 3) (d.buffer 4) :=
      if_pos (decide_eq_true h5)
    rw [harg, hget 1 (by omega), hget 2 (by omega), hget 3 (by omega), hget 4 (by omega)]

theorem Buffered.dataStage (hb : x.Buffered d) (hc : d.Consistent) (hw : x.wLength = d.xferLen)
    (hs : d.state = .dnloadSync) (hx : x.Expects bytes.length) :
    Buffered { x with received := x.received ++ bytes }
        (dataStage (ofList bytes) bytes.length d).1 ∨
      Decoded { x with received := x.received ++ bytes }
        (dataStage (ofList bytes) bytes.length d).1 := by
  obtain ⟨hpos, hle⟩ := hc.xferLen (Or.inl hs)
  have hlen : d.bufferLen = x.received.length := hb.complete (by have := hx.2; omega)
  have hfit : d.bufferLen + bytes.length ≤ d.xferLen := by
    rw [hlen, ← hw]
    exact hx.2
  have happ : appendData (ofList bytes) bytes.length d = { d with
      buffer := overwrite d.buffer d.bufferLen bytes.length (ofList bytes)
      bufferLen := d.bufferLen + bytes.length } := if_pos (hfit.trans hle)
  have hstore := hb.store hx
  have hbuffered : Buffered { x with received := x.received ++ bytes }
      (appendData (ofList bytes) bytes.length d) := by
    rw [happ]
    refine ⟨?_, hfit.trans hw.ge, fun h0 => ?_, fun _ => ?_, hb.cmdPending⟩
    · simp only
      rw [hstore]
    · simp only at h0
      rw [List.append_eq_nil_iff, ← List.length_eq_zero_iff, ← List.length_eq_zero_iff, ← hlen]
      omega
    · simp only
      rw [List.length_append, hlen]
  unfold NovaBootloader.dataStage
  dsimp only
  by_cases hfull : (appendData (ofList bytes) bytes.length d).xferLen ≤
      (appendData (ofList bytes) bytes.length d).bufferLen
  · rw [if_pos hfull]
    split_ifs with h0
    · refine Or.inr (decodeCommand_decoded h0.1 h0.2 (b := x.received ++ bytes) ?_ ?_ rfl)
      · rw [happ]
        exact hstore
      · rw [happ] at hfull ⊢
        simp only at hfull ⊢
        omega
    · exact Or.inl hbuffered
  · rw [if_neg hfull]
    exact Or.inl hbuffered

theorem received_receive (hcur : x.current = true) (d : Dfu) (bytes : List UInt8) :
    (x.receive d bytes).received = x.received ++ bytes := if_pos hcur

theorem Buffered.ignore (hb : x.Buffered d) (hcur : x.current = true)
    (hw : x.wLength ≤ dfuXferSize) (hsize : bytes.length ≤ dfuXferSize)
    (hroom : d.bufferLen + bytes.length ≤ dfuXferSize → bytes = []) :
    (x.receive d bytes).Buffered d := by
  have hrec := received_receive hcur d bytes
  refine ⟨?_, hb.le, fun h0 => ?_, fun hle => ?_, hb.cmdPending⟩
  · rw [hrec]
    exact hb.isPrefix.trans (List.prefix_append _ _)
  · rw [hrec, hb.received_nil h0, hroom (by omega), List.nil_append]
  · have hle' : x.received.length + bytes.length ≤ x.wLength := by
      rw [← List.length_append, ← hrec]
      exact hle
    have hlen : d.bufferLen = x.received.length := hb.complete (by omega)
    rw [hrec, hroom (by omega), List.append_nil, hlen]

theorem Decoded.ignore (hdec : x.Decoded d) (hcur : x.current = true) (hpos : 0 < x.wLength) :
    (x.receive d bytes).Decoded d := by
  have hrec := received_receive hcur d bytes
  have hge := hdec.received
  have hget (i : ℕ) (hi : i < x.wLength) :
      ofList (x.receive d bytes).received i = ofList x.received i := by
    rw [hrec]
    exact ofList_append_left (by omega)
  refine ⟨hdec.block, hdec.bufferLen, ?_, ?_, hdec.cmdHasArg, fun h5 => ?_⟩
  · rw [hrec, List.length_append]
    exact hge.trans (Nat.le_add_right _ _)
  · rw [hget 0 hpos]
    exact hdec.cmdPending
  · have h5' : 5 ≤ x.wLength := h5
    rw [hget 1 (by omega), hget 2 (by omega), hget 3 (by omega), hget 4 (by omega)]
    exact hdec.cmdArg h5

theorem Follows.ignore (h : x.Follows d) (hc : d.Consistent) (hd : d.Downloading)
    (hsize : bytes.length ≤ dfuXferSize) (hst : ¬ d.Stores bytes.length) :
    (x.receive d bytes).Follows d := by
  have hmixed : (x.receive d bytes).mixed = x.mixed := by simp [Exchange.receive, hst]
  refine ⟨h.block, h.wLength, h.base, h.fresh, h.current, fun hm => ?_⟩
  rw [hmixed] at hm
  cases hcur : x.current with
  | false =>
    have hrec : x.receive d bytes = x := by
      cases x
      simp_all [Exchange.receive]
    rw [hrec]
    exact h.data hm
  | true =>
    obtain ⟨hpos, hle⟩ := hc.xferLen hd
    rw [← h.wLength] at hpos hle
    have hroom (hfit : d.bufferLen + bytes.length ≤ dfuXferSize) : bytes = [] := by
      by_contra hne
      exact hst ⟨h.current hcur, List.length_pos_iff.mpr hne, hfit⟩
    exact (h.data hm).imp (fun hb => hb.ignore hcur hle hsize hroom)
      fun hdec => hdec.ignore hcur hpos

/-- A command is found pending only in a block 0 or where one was pending before. -/
theorem dataStage_cmdPending (data : ℕ → UInt8) (count : ℕ) (d : Dfu)
    (h : (NovaBootloader.dataStage data count d).1.cmdPending ≠ 0) :
    d.cmdPending ≠ 0 ∨ d.blockNum = 0 := by
  have happ : (appendData data count d).cmdPending = d.cmdPending ∧
      (appendData data count d).blockNum = d.blockNum := by
    unfold appendData
    split_ifs <;> exact ⟨rfl, rfl⟩
  by_cases hblock : d.blockNum = 0
  · exact Or.inr hblock
  · refine Or.inl fun hcmd => h ?_
    unfold NovaBootloader.dataStage
    dsimp only
    split_ifs with hfull hzero
    · exact absurd (happ.2.symm.trans hzero.1) hblock
    · exact happ.1.trans hcmd
    · exact happ.1.trans hcmd

theorem Follows.receive (h : x.Follows d) (hc : d.Consistent) (hs : d.state = .dnloadSync)
    (hpos : 0 < bytes.length) (hsize : bytes.length ≤ dfuXferSize) :
    (x.receive d bytes).Follows (dataStage (ofList bytes) bytes.length d).1 := by
  by_cases hstores : d.Stores bytes.length
  swap
  · rw [dataStage_of_not_stores hc hs hpos hstores]
    exact h.ignore hc (Or.inl hs) hsize hstores
  refine ⟨?_, ?_, ?_, h.fresh, fun _ => ?_, fun hm => ?_⟩
  · rw [dataStage_blockNum]
    exact h.block
  · rw [dataStage_xferLen]
    exact h.wLength
  · rw [dataStage_blockNum, dataStage_address]
    exact h.base
  · rw [dataStage_state, hs]
  · obtain ⟨hm, hx⟩ : x.mixed = false ∧ x.Expects bytes.length := by
      simpa [Exchange.receive, hstores] using hm
    have hrec := received_receive hx.1 d bytes
    rcases h.data hm with hb | hd
    · rcases hb.dataStage hc h.wLength hs hx with hb | hd
      · exact Or.inl ⟨hrec ▸ hb.isPrefix, hb.le, hrec ▸ hb.received_nil, hrec ▸ hb.complete,
          hb.cmdPending⟩
      · exact Or.inr ⟨hd.block, hd.bufferLen, hrec ▸ hd.received, hrec ▸ hd.cmdPending,
          hd.cmdHasArg, hrec ▸ hd.cmdArg⟩
    · have hge := hd.received
      have hle := hx.2
      omega

/-- A complete block 0 has been decoded. -/
theorem Follows.decoded_of_block (h : x.Follows d) (hc : d.Consistent) (hd : d.Downloading)
    (hmixed : x.mixed = false) (hblock : x.block = 0) (hlen : x.received.length = x.wLength) :
    x.Decoded d := by
  rcases h.data hmixed with hb | hdec
  · have hlt := hc.undecoded hd (h.block.symm.trans hblock)
    have hfull := hb.complete hlen.le
    have hw := h.wLength
    omega
  · exact hdec

/-- A block 0 whose payload is there, with nothing left in the buffer, has been decoded. -/
theorem Follows.decoded_of_bufferLen (h : x.Follows d) (hc : d.Consistent) (hd : d.Downloading)
    (hmixed : x.mixed = false) (hlen : d.bufferLen = 0) (hreceived : x.wLength ≤ x.received.length) :
    x.Decoded d := by
  rcases h.data hmixed with hb | hdec
  · have hpos := (hc.xferLen hd).1
    have hw := h.wLength
    rw [hb.received_nil hlen, List.length_nil] at hreceived
    omega
  · exact hdec

end DataStage

/-- The onlooker is up to date whenever a download is in progress. -/
def Tracks (d : Dfu) (x : Option Exchange) : Prop :=
  d.Downloading → ∃ y, x = some y ∧ y.Follows d

theorem Tracks.of_not_downloading {d : Dfu} (h : ¬ d.Downloading) (x : Option Exchange) :
    Tracks d x := fun hd => absurd hd h

theorem observe_none {s : Machine} {x : Option Exchange} {p : SetupPacket} {tx : Bool}
    (hacc : ¬ Accepts p s.core.dfu) (hatt : ¬ Attempts p s.core.dfu) :
    observe x s (.ctr (some (.setup p)) tx) = x.map fun x => { x with current := false } := by
  rw [observe, if_neg hacc]
  simp only [hatt, decide_false, Bool.or_false]

theorem observe_tracks {s : Machine} {x : Option Exchange} (hs : s.Stable)
    (h : Tracks s.core.dfu x) (e : UsbEvent) :
    Tracks (s.step e).core.dfu (observe x s e) := by
  rw [Machine.step_core hs.quiet]
  rcases e with _ | _ | ⟨_ | (p | data), tx⟩
  · exact h
  · exact .of_not_downloading (by simp [Dfu.Downloading, coreStep, Dfu.usbReset]) _
  · exact h
  · rw [coreStep]
    have hout (state : DfuState) (status : DfuStatus) (hsync : state ≠ .dnloadSync)
        (hbusy : state ≠ .dnbusy) (y : Option Exchange) :
        Tracks { s.core.dfu with state := state, status := status } y :=
      .of_not_downloading (not_or.mpr ⟨hsync, hbusy⟩) y
    have heff := request_effect p s.core
    generalize (Machine.request p s.core).1 = c' at heff
    cases heff with
    | none hacc hatt =>
      intro hd
      obtain ⟨y, rfl, hy⟩ := h hd
      rw [observe_none hacc hatt]
      exact ⟨_, rfl, hy.close _⟩
    | sync hp hsync =>
      intro _
      obtain ⟨y, rfl, hy⟩ := h (Or.inl hsync)
      have hacc : ¬ Accepts p s.core.dfu := fun hacc => absurd (hp.code_unique hacc.1) (by decide)
      have hatt : ¬ Attempts p s.core.dfu := fun hatt => by simp [hatt.2] at hsync
      rw [observe_none hacc hatt]
      exact ⟨_, rfl, hy.close _⟩
    | attempt hatt =>
      refine .of_not_downloading ?_ _
      unfold Dfu.Downloading
      rcases executePending_state s.core with hs | hs <;> simp [hs]
    | manifest hp hsync => exact hout _ _ (by decide) (by decide) _
    | finish hp hlen hidle => exact hout _ _ (by decide) (by decide) _
    | oversize hp hlen => exact hout _ _ (by decide) (by decide) _
    | accept hacc =>
      intro _
      rw [observe, if_pos hacc]
      exact ⟨_, rfl, opened_follows⟩
    | upload hp hidle state hstate =>
      rcases hstate with rfl | rfl <;> exact hout _ _ (by decide) (by decide) _
    | clrstatus hp herror => exact hout _ _ (by decide) (by decide) _
    | abort hp =>
      exact .of_not_downloading (by simp [Dfu.Downloading, handleDfuAbort]) _
  · rw [coreStep]
    intro hd
    split_ifs at hd ⊢ with hdata
    · obtain ⟨y, rfl, hy⟩ := h (Or.inl hdata.1)
      exact ⟨_, rfl, hy.receive hs.consistent hdata.1 hdata.2 data.fits.le⟩
    · obtain ⟨y, rfl, hy⟩ := h hd
      exact ⟨_, rfl, hy.ignore hs.consistent hd data.fits.le fun hst => hdata ⟨hst.1, hst.2.1⟩⟩

end Exchange

namespace Machine

abbrev watched : Machine × Option Exchange → UsbEvent → Machine × Option Exchange :=
  StepSystem.observed step Exchange.observe

structure Watched (p : Machine × Option Exchange) : Prop where
  stable : p.1.Stable
  tracks : Exchange.Tracks p.1.core.dfu p.2

theorem Watched.step {p : Machine × Option Exchange} (h : Watched p) (e : UsbEvent) :
    Watched (watched p e) := ⟨h.stable.step e, Exchange.observe_tracks h.stable h.tracks e⟩

theorem start_watched (mem : ℕ → UInt8) (faults : ℕ → Fault) : Watched (start mem faults, none) := by
  refine ⟨start_stable mem faults, .of_not_downloading ?_ none⟩
  simp [Dfu.Downloading, start, dfuInit, usbInit, Dfu.init]

end Machine

end NovaBootloader
