import NovaBootloader.DownloadSafety
import NovaBootloader.Packetisation
import NovaBootloader.UploadAddress

/-!
# Reading the flash back

A host reads a block with one UPLOAD, packet by packet, and the region with one block after the
other. The answer to one block is flash from the address that DNLOAD computes for the same block, and
the answers to all blocks follow each other without a gap.
-/

namespace NovaBootloader
open ByteMemory

namespace Machine

/-- The data stage of a control-IN transfer of at most `want` bytes: the host takes packets until a
short one or until it has all it wants. -/
def readData (s : Machine) : ℕ → ℕ → List UInt8 × Machine
  | 0, _ => ([], s)
  | fuel + 1, want =>
    match s.offered with
    | none => ([], s)
    | some packet =>
      if packet.length < ep0MaxSize ∨ want ≤ packet.length then (packet, s.step .inDone)
      else
        let r := (s.step .inDone).readData fuel (want - packet.length)
        (packet ++ r.1, r.2)

/-- The request `p`, its data stage and its status stage. -/
def readRequest (s : Machine) (p : SetupPacket) : List UInt8 × Machine :=
  let r := (s.step (.setup p)).readData (p.wLength.toNat / 64 + 1) p.wLength.toNat
  (r.1, r.2.step (.out (.ofBytes [])))

/-- Blocks of 1024 bytes from `block` on, up to the first shorter one. -/
def uploadWalk (s : Machine) : ℕ → ℕ → List (List UInt8)
  | 0, _ => []
  | fuel + 1, block =>
    let r := s.readRequest (.upload (UInt16.ofNat block) 1024)
    if r.1.length < 1024 then [r.1] else r.1 :: r.2.uploadWalk fuel (block + 1)

/-- Flash from `a` on is being sent: `n` bytes are on offer or still to come, of the `want` bytes the
host waits for. -/
structure Streaming (s : Machine) (a n want : ℕ) : Prop where
  quiet : s.Quiet
  statTx : s.ep0r.statTx = EpStat.valid
  packet : s.txPacket = toList (fun i => s.core.flash.mem (a + i)) (min n ep0MaxSize)
  remaining : s.ep0TxRemaining = n - min n ep0MaxSize
  ptr : s.ep0TxPtr = ⟨.flash, a + min n ep0MaxSize⟩
  needZlp : s.ep0TxNeedZlp = decide (n < want ∧ n % ep0MaxSize = 0)
  pos : 0 < n
  le : n ≤ want

section Streaming

variable {s : Machine} {a n want : ℕ}

theorem step_inDone_core (hq : s.Quiet) : (s.step .inDone).core = s.core := by
  rw [step_core hq, coreStep]

theorem readData_core (hq : s.Quiet) (fuel want : ℕ) :
    (s.readData fuel want).2.core = s.core ∧ (s.readData fuel want).2.Quiet := by
  induction fuel generalizing s want with
  | zero => exact ⟨rfl, hq⟩
  | succ fuel ih =>
    have hcore := step_inDone_core hq
    have hquiet := step_quiet hq .inDone
    unfold Machine.readData
    cases s.offered with
    | none => exact ⟨rfl, hq⟩
    | some packet =>
      dsimp only
      split
      · exact ⟨hcore, hquiet⟩
      · obtain ⟨hrest, hrestQuiet⟩ := ih hquiet (want - packet.length)
        exact ⟨hrest.trans hcore, hrestQuiet⟩

theorem step_inDone_collected (hq : s.Quiet) :
    s.step .inDone = ({ s with istr := ⟨false, true, 0⟩ } : Machine).collected :=
  step_inDone hq

theorem Streaming.sending (h : s.Streaming a n want) :
    ({ s with istr := ⟨false, true, 0⟩ } : Machine).Sending (fun i => s.core.flash.mem (a + i)) n
      want where
  statTx := h.statTx
  packet := h.packet
  remaining := h.remaining
  bytes i := by
    have hptr : s.ep0TxPtr = ⟨.flash, a + min n ep0MaxSize⟩ := h.ptr
    change s.txByte s.ep0TxPtr i = _
    rw [hptr, txByte_add]
    rfl
  needZlp := by
    have hzlp := h.needZlp
    change s.ep0TxNeedZlp = _
    rw [hzlp, decide_eq_decide]
    exact (and_iff_right h.pos).symm
  le := h.le

theorem Streaming.next (h : s.Streaming a n want) (hn : 64 < n) :
    (s.step .inDone).Streaming (a + 64) (n - 64) (want - 64) := by
  have hnext := h.sending.next hn
  have hmin : min n ep0MaxSize = 64 := min_eq_right hn.le
  have hrem : s.ep0TxRemaining = n - 64 := by rw [h.remaining, hmin]
  have hle := h.le
  have hptr := collected_ptr (s := { s with istr := ⟨false, true, 0⟩ }) (by
    change 0 < s.ep0TxRemaining
    omega)
  rw [← step_inDone_collected h.quiet] at hnext hptr
  have hlt : n - 64 ≤ want - 64 := by omega
  refine ⟨step_quiet h.quiet _, hnext.statTx, ?_, hnext.remaining, ?_, ?_, by omega, hlt⟩
  · rw [hnext.packet, step_inDone_core h.quiet]
    simp only [Nat.add_assoc]
    rfl
  · rw [hptr]
    change TxPtr.mk s.ep0TxPtr.object (s.ep0TxPtr.offset + min s.ep0TxRemaining ep0MaxSize) = _
    rw [h.ptr, hmin, hrem]
  · rw [hnext.needZlp, decide_eq_decide]
    exact and_iff_right (Nat.sub_pos_of_lt hn)

/-- The last full packet is followed by an empty one if the host still waits. -/
theorem Streaming.zlp (h : s.Streaming a 64 want) (hwant : 64 < want) :
    (s.step .inDone).offered = some [] := by
  rw [step_inDone_collected h.quiet]
  exact (h.sending.zlp hwant).1

theorem readData_of_empty (hoffered : s.offered = some []) (fuel want : ℕ) :
    s.readData (fuel + 1) want = ([], s.step .inDone) := by
  unfold Machine.readData
  rw [hoffered]
  exact if_pos (Or.inl (by decide))

theorem Streaming.readData {fuel : ℕ} (h : s.Streaming a n want) (hfuel : want ≤ 64 * fuel) :
    (s.readData fuel want).1 = toList (fun i => s.core.flash.mem (a + i)) n := by
  have hsize : ep0MaxSize = 64 := rfl
  induction fuel generalizing s a n want with
  | zero =>
    have hpos := h.pos
    have hle := h.le
    omega
  | succ fuel ih =>
    have hle := h.le
    have hoffered : s.offered = some s.txPacket := offered_eq_some_iff.mpr ⟨h.statTx, rfl⟩
    have hlen : s.txPacket.length = min n 64 := by rw [h.packet, length_toList, hsize]
    unfold Machine.readData
    rw [hoffered]
    dsimp only
    rw [hlen, hsize]
    by_cases hlast : min n 64 < 64 ∨ want ≤ min n 64
    · rw [if_pos hlast]
      dsimp only
      rw [h.packet, hsize, min_eq_left (by omega)]
    rw [if_neg hlast]
    have hmin : min n 64 = 64 := by omega
    dsimp only
    rw [h.packet, hsize, hmin]
    by_cases hn : 64 < n
    · have hrest := ih (h.next hn) (by omega)
      rw [hrest, step_inDone_core h.quiet]
      have happ := toList_append (fun i => s.core.flash.mem (a + i)) 64 (n - 64)
      rw [Nat.add_sub_cancel' hn.le] at happ
      rw [← happ]
      simp only [Nat.add_assoc]
    · obtain rfl : n = 64 := by omega
      obtain ⟨fuel, rfl⟩ : ∃ k, fuel = k + 1 := ⟨fuel - 1, by omega⟩
      rw [readData_of_empty (h.zlp (by omega)), List.append_nil]

end Streaming

section Block

variable {s : Machine}

/-- What an UPLOAD is answered with, and what a host that has read it leaves behind. -/
structure Uploaded (s : Machine) (p : SetupPacket) (r : List UInt8 × Machine) : Prop where
  bytes : r.1 = toList
    (fun i => s.core.flash.mem ((s.core.dfu.blockAddress p.wValue.toNat).toNat + i))
    (uploadLength p s.core.dfu)
  quiet : r.2.Quiet
  flash : r.2.core.flash = s.core.flash
  addressPtr : r.2.core.dfu.addressPtr = s.core.dfu.addressPtr
  state : r.2.core.dfu.state = .idle ∨ r.2.core.dfu.state = .uploadIdle

theorem ep0Send_streaming {t : Machine} (hq : t.Quiet) {a n : ℕ} (hpos : 0 < n)
    (hle : n ≤ t.ep0ReqLen) : (t.ep0Send ⟨.flash, a⟩ n).Streaming a n t.ep0ReqLen := by
  have hmin : min n t.ep0ReqLen = n := min_eq_left hle
  refine ⟨?_, ?_, ?_, ?_, ?_, ?_, hpos, hle⟩
  · simpa [Quiet, ep0Send, ep0TxChunk] using hq
  · simp [ep0Send, ep0TxChunk]
  · rw [ep0Send_txPacket, hmin]
    rfl
  · rw [ep0Send_remaining, hmin]
  · rw [ep0Send_ptr, hmin]
  · rw [ep0Send_needZlp, hmin]
    congr 1
    exact propext (and_iff_right hpos)

theorem step_statusStage (hq : s.Quiet) :
    (s.step (.out (.ofBytes []))).core = s.core ∧ (s.step (.out (.ofBytes []))).Quiet := by
  refine ⟨?_, step_quiet hq _⟩
  rw [step_core hq, coreStep]
  exact if_neg fun h => Nat.lt_irrefl 0 h.2

theorem upload_isDfu (block len : UInt16) : (SetupPacket.upload block len).IsDfu dfuUpload :=
  ⟨(by decide : (0xA1 : UInt8) &&& usbReqTypeMask = usbReqTypeClass), rfl⟩

theorem step_upload_eq (hq : s.Quiet) {p : SetupPacket} (hp : p.IsDfu dfuUpload) {d : Dfu}
    {call : Ep0Call}
    (hcall : handleDfuUpload p.wValue.toNat p.wLength.toNat s.core.dfu = (d, call)) :
    ∃ t : Machine, t.Quiet ∧ t.core = { s.core with dfu := d } ∧ t.ep0ReqLen = p.wLength.toNat ∧
      s.step (.setup p) = t.runCall call := by
  have hrequest : request p s.core = ({ s.core with dfu := d }, call) := by
    rw [request_upload hp, hcall]
  have hreceive : s.step (.setup p) = s.receive (.setup p) := by
    rw [step_rx hq, if_neg Bool.false_ne_true]
    rfl
  rw [receive_setup, hrequest] at hreceive
  refine ⟨_, ?_, ?_, ?_, hreceive⟩
  · refine ⟨?_, ?_⟩
    · simp [abandonTransfer]
    · simpa [abandonTransfer, latchRx] using hq.2
  · rfl
  · rfl

theorem readRequest_core (hq : s.Quiet) (p : SetupPacket) :
    (s.readRequest p).2.core = (s.step (.setup p)).core ∧ (s.readRequest p).2.Quiet := by
  obtain ⟨hdata, hdataQuiet⟩ := readData_core (step_quiet hq (.setup p))
    (p.wLength.toNat / 64 + 1) p.wLength.toNat
  obtain ⟨hout, houtQuiet⟩ := step_statusStage hdataQuiet
  exact ⟨hout.trans hdata, houtQuiet⟩

variable {p : SetupPacket}

/-- What an accepted UPLOAD does to the DFU variables depends on the block address alone. -/
theorem step_upload_core (hq : s.Quiet)
    (hs : s.core.dfu.state = .idle ∨ s.core.dfu.state = .uploadIdle) (hp : p.IsDfu dfuUpload)
    (hblock : 2 ≤ p.wValue.toNat) : (s.step (.setup p)).core = { s.core with
      dfu := { s.core.dfu with
        state := if InRegion (s.core.dfu.blockAddress p.wValue.toNat).toNat 1 then .uploadIdle
          else .idle } } := by
  rcases handleDfuUpload_of_accepted hs hblock with ⟨hcall, -, hout⟩ | ⟨hcall, hin⟩
  · obtain ⟨t, -, htcore, -, ht⟩ := step_upload_eq hq hp hcall
    rw [ht, runCall_core, htcore, if_neg fun h => hout ⟨h.1, Nat.le_of_succ_le_succ h.2⟩]
  · obtain ⟨t, -, htcore, -, ht⟩ := step_upload_eq hq hp hcall
    rw [ht, runCall_core, htcore, if_pos hin]

theorem readRequest_bytes (hq : s.Quiet)
    (hs : s.core.dfu.state = .idle ∨ s.core.dfu.state = .uploadIdle) (hp : p.IsDfu dfuUpload)
    (hblock : 2 ≤ p.wValue.toNat) (hlen : 0 < p.wLength.toNat) : (s.readRequest p).1 = toList
      (fun i => s.core.flash.mem ((s.core.dfu.blockAddress p.wValue.toNat).toNat + i))
      (uploadLength p s.core.dfu) := by
  have hcore := step_upload_core hq hs hp hblock
  unfold readRequest
  rcases handleDfuUpload_of_accepted hs hblock with ⟨hcall, hzero, -⟩ | ⟨hcall, hin⟩
  · -- outside the region: an empty packet
    obtain ⟨t, -, -, -, ht⟩ := step_upload_eq hq hp hcall
    have hoffered : (s.step (.setup p)).offered = some [] := by
      rw [ht, offered_eq_some_iff]
      refine ⟨by simp [runCall, ep0SendZlp], ?_⟩
      exact (ep0SendZlp_txPacket t).symm
    rw [readData_of_empty hoffered, hzero]
    rfl
  · -- inside the region: flash from the block on
    obtain ⟨t, htquiet, -, htreq, ht⟩ := step_upload_eq hq hp hcall
    have hlength : uploadLength p s.core.dfu =
        min p.wLength.toNat (appFlashEnd.toNat + 1 -
          (s.core.dfu.blockAddress p.wValue.toNat).toNat) :=
      if_pos ⟨hin.1, Nat.le_of_succ_le_succ hin.2⟩
    have hstream : (s.step (.setup p)).Streaming (s.core.dfu.blockAddress p.wValue.toNat).toNat
        (uploadLength p s.core.dfu) p.wLength.toNat := by
      have hend := hin.2
      rw [ht, ← htreq]
      apply ep0Send_streaming htquiet <;> omega
    rw [hstream.readData (by omega : p.wLength.toNat ≤ 64 * (p.wLength.toNat / 64 + 1)), hcore]

theorem readRequest_uploaded (hq : s.Quiet)
    (hs : s.core.dfu.state = .idle ∨ s.core.dfu.state = .uploadIdle) (hp : p.IsDfu dfuUpload)
    (hblock : 2 ≤ p.wValue.toNat) (hlen : 0 < p.wLength.toNat) : Uploaded s p (s.readRequest p) := by
  obtain ⟨hcore, hquiet⟩ := readRequest_core hq p
  rw [step_upload_core hq hs hp hblock] at hcore
  refine ⟨readRequest_bytes hq hs hp hblock hlen, hquiet, ?_, ?_, ?_⟩
  · rw [hcore]
  · rw [hcore]
  · rw [hcore]
    dsimp only
    split
    · exact Or.inr rfl
    · exact Or.inl rfl

end Block

end Machine

/-- The answers are the first `n` bytes of `data`, in full blocks and a last one that is shorter. -/
structure ReadsOut (answers : List (List UInt8)) (data : ℕ → UInt8) (n : ℕ) : Prop where
  flatten : answers.flatten = toList data n
  blocks : ∃ full last, answers = full ++ [last] ∧ (∀ answer ∈ full, answer.length = 1024) ∧
    last.length < 1024

theorem ReadsOut.last (data : ℕ → UInt8) {n : ℕ} (hn : n < 1024) :
    ReadsOut [toList data n] data n := by
  refine ⟨List.append_nil _, [], toList data n, rfl, fun _ h => absurd h List.not_mem_nil, ?_⟩
  rw [length_toList]
  exact hn

theorem ReadsOut.cons {answers : List (List UInt8)} {data : ℕ → UInt8} {n : ℕ} (hn : 1024 ≤ n)
    (h : ReadsOut answers (fun i => data (1024 + i)) (n - 1024)) :
    ReadsOut (toList data 1024 :: answers) data n := by
  obtain ⟨hflatten, full, last, rfl, hfull, hlast⟩ := h
  refine ⟨?_, toList data 1024 :: full, last, rfl, ?_, hlast⟩
  · rw [List.flatten_cons, hflatten, toList_append, Nat.add_sub_cancel' hn]
  · intro answer hanswer
    rcases List.mem_cons.mp hanswer with hfirst | hrest
    · rw [hfirst, length_toList]
    · exact hfull answer hrest

namespace Machine

section Walk

/-- In a walk over blocks of 1024 bytes block `k + 2` starts where block `k + 1` has ended, and is
cut off at the end of the region. -/
theorem walk_block {d : Dfu} (hptr : InRegion d.addressPtr.toNat 1) {k : ℕ}
    (hk : d.addressPtr.toNat + k * 1024 ≤ appFlashEnd.toNat + 1) :
    (UInt16.ofNat (k + 2)).toNat = k + 2 ∧
      (d.blockAddress (k + 2)).toNat = d.addressPtr.toNat + k * 1024 ∧
      uploadLength (.upload (UInt16.ofNat (k + 2)) 1024) d =
        min 1024 (appFlashEnd.toNat + 1 - (d.addressPtr.toNat + k * 1024)) := by
  have hlo := hptr.1
  simp only [toNat_appFlashStart, toNat_appFlashEnd] at hlo hk
  have hblock : (UInt16.ofNat (k + 2)).toNat = k + 2 := by
    rw [UInt16.toNat_ofNat']
    omega
  have haddr : (d.blockAddress (k + 2)).toNat = d.addressPtr.toNat + k * 1024 :=
    toNat_blockAddress (by omega)
  refine ⟨hblock, haddr, ?_⟩
  have hlen : (SetupPacket.upload (UInt16.ofNat (k + 2)) 1024).wLength.toNat = 1024 := rfl
  have hvalue : (SetupPacket.upload (UInt16.ofNat (k + 2)) 1024).wValue.toNat = k + 2 := hblock
  unfold uploadLength
  dsimp only
  rw [hlen, hvalue, haddr]
  by_cases hin : d.addressPtr.toNat + k * 1024 ≤ appFlashEnd.toNat
  · rw [if_pos ⟨hptr.1.trans (Nat.le_add_right _ _), hin⟩]
  · rw [if_neg fun h => hin h.2]
    simp only [toNat_appFlashEnd] at hin ⊢
    omega

/-- The walk from block `k + 2` on reads what is left of the region. -/
theorem uploadWalk_readsOut {fuel k : ℕ} {s : Machine} (hq : s.Quiet)
    (hs : s.core.dfu.state = .idle ∨ s.core.dfu.state = .uploadIdle)
    (hptr : InRegion s.core.dfu.addressPtr.toNat 1)
    (hk : s.core.dfu.addressPtr.toNat + k * 1024 ≤ appFlashEnd.toNat + 1)
    (hfuel : appFlashEnd.toNat + 1 - (s.core.dfu.addressPtr.toNat + k * 1024) < 1024 * fuel) :
    ReadsOut (s.uploadWalk fuel (k + 2))
      (fun i => s.core.flash.mem (s.core.dfu.addressPtr.toNat + k * 1024 + i))
      (appFlashEnd.toNat + 1 - (s.core.dfu.addressPtr.toNat + k * 1024)) := by
  induction fuel generalizing s k with
  | zero => omega
  | succ fuel ih =>
    have hnext (hfull : 1024 ≤ appFlashEnd.toNat + 1 -
        (s.core.dfu.addressPtr.toNat + k * 1024)) :
        s.core.dfu.addressPtr.toNat + (k + 1) * 1024 ≤ appFlashEnd.toNat + 1 ∧
          appFlashEnd.toNat + 1 - (s.core.dfu.addressPtr.toNat + (k + 1) * 1024) <
            1024 * fuel := by omega
    obtain ⟨hblock, haddr, hlength⟩ := walk_block hptr hk
    have hvalue : (SetupPacket.upload (UInt16.ofNat (k + 2)) 1024).wValue.toNat = k + 2 := hblock
    obtain ⟨hbytes, hquiet, hflash, hpointer, hstate⟩ :=
      readRequest_uploaded hq hs (upload_isDfu (UInt16.ofNat (k + 2)) 1024)
        ((Nat.le_add_left 2 k).trans_eq hvalue.symm) (by change 0 < 1024; decide)
    rw [hvalue, haddr, hlength] at hbytes
    unfold uploadWalk
    dsimp only
    rw [hbytes, length_toList]
    by_cases hfull : 1024 ≤ appFlashEnd.toNat + 1 - (s.core.dfu.addressPtr.toNat + k * 1024)
    · obtain ⟨hle, hlt⟩ := hnext hfull
      rw [← hpointer] at hle hlt hptr
      have hrest := ih hquiet hstate hptr hle hlt
      rw [min_eq_left hfull, if_neg (Nat.lt_irrefl 1024)]
      apply ReadsOut.cons hfull
      have hsum : s.core.dfu.addressPtr.toNat + (k + 1) * 1024 =
          s.core.dfu.addressPtr.toNat + k * 1024 + 1024 := by rw [Nat.succ_mul, Nat.add_assoc]
      rw [hpointer, hflash, hsum] at hrest
      simp only [Nat.sub_add_eq, Nat.add_assoc] at hrest ⊢
      exact hrest
    · have hshort := not_le.mp hfull
      rw [min_eq_right hshort.le, if_pos hshort]
      exact ReadsOut.last _ hshort

end Walk

section RoundTrip

/-- A write that is followed by dfuDNLOAD-IDLE has stored its bytes in the region. -/
theorem Stable.programmed_readback {s : Machine} (hs : s.Stable) {e : UsbEvent} {a : UInt32}
    {bytes : List UInt8} (hwrite : .writeCall a bytes ∈ s.asked e)
    (hok : (s.step e).core.dfu.state = .dnloadIdle) : 0 < bytes.length ∧
      InRegion a.toNat bytes.length ∧
      toList (fun i => (s.step e).core.flash.mem (a.toNat + i)) bytes.length = bytes := by
  obtain ⟨hexec, hattempt⟩ := hs.mem_asked.mp hwrite
  obtain ⟨hcmd, hpos, rfl, rfl⟩ := writeCall_mem_attemptLog.mp hattempt
  have hlen : s.core.dfu.bufferLen < 2 ^ 31 :=
    lt_of_le_of_lt hs.consistent.bufferLen_le (by decide)
  rw [step_core hs.quiet, coreStep_of_executes hexec] at hok ⊢
  rw [length_toList]
  have heff := executePending_effect s.core
  generalize executePending s.core = c' at heff hok ⊢
  cases heff with
  | write _ _ hrc => exact ⟨hpos, flashWrite_readback _ _ hpos hlen hrc⟩
  | setAddress hset _ =>
    rw [hcmd] at hset
    exact absurd hset (by decide)
  | erase herase _ _ =>
    rw [hcmd] at herase
    exact absurd herase (by decide)
  | empty _ hzero => omega
  | _ => exact DfuState.noConfusion hok

theorem readRequest_of_stored {t : Machine} (hq : t.Quiet)
    (hs : t.core.dfu.state = .idle ∨ t.core.dfu.state = .uploadIdle) {q : SetupPacket}
    (hp : q.IsDfu dfuUpload) (hblock : 2 ≤ q.wValue.toNat) {bytes : List UInt8}
    (hpos : 0 < bytes.length) (hlen : q.wLength.toNat = bytes.length)
    (hr : InRegion (t.core.dfu.blockAddress q.wValue.toNat).toNat bytes.length)
    (hstored : toList (fun i => t.core.flash.mem
      ((t.core.dfu.blockAddress q.wValue.toNat).toNat + i)) bytes.length = bytes) :
    (t.readRequest q).1 = bytes := by
  have hlength : uploadLength q t.core.dfu = bytes.length := by
    obtain ⟨hlo, hhi⟩ := hr
    unfold uploadLength
    dsimp only
    rw [hlen, if_pos ⟨hlo, by omega⟩]
    exact min_eq_left (by omega)
  have hread := (readRequest_uploaded hq hs hp hblock (hlen.symm ▸ hpos)).bytes
  rw [hlength, hstored] at hread
  exact hread

/-- DNLOAD and UPLOAD mean the same address by a block number. -/
theorem dnload_upload_address {s t : Machine} (hs : s.Quiet) (ht : t.Quiet)
    (hptr : t.core.dfu.addressPtr = s.core.dfu.addressPtr) {q q' : SetupPacket}
    (hacc : Accepts q s.core.dfu) (hblock : 2 ≤ q.wValue.toNat) (hq' : q'.IsDfu dfuUpload)
    (hstate : t.core.dfu.state = .idle ∨ t.core.dfu.state = .uploadIdle)
    (hvalue : q'.wValue = q.wValue) :
    (s.step (.setup q)).core.dfu.address = s.core.dfu.blockAddress q.wValue.toNat ∧
      (∀ w, ∀ x ∈ Exchange.observe w s (.setup q),
        x.block = q.wValue.toNat ∧ x.base = s.core.dfu.blockAddress q.wValue.toNat) ∧
      (InRegion (s.core.dfu.blockAddress q.wValue.toNat).toNat 1 →
        (t.step (.setup q')).AnsweredFrom (s.core.dfu.blockAddress q.wValue.toNat).toNat) := by
  have haddr : t.core.dfu.blockAddress q'.wValue.toNat =
      s.core.dfu.blockAddress q.wValue.toNat := by
    unfold Dfu.blockAddress
    rw [hptr, hvalue]
  refine ⟨?_, fun w x hx => ?_, fun hin => ?_⟩
  · rw [step_core hs, coreStep, request_of_accepts hacc]
    exact if_pos hblock
  · rw [Exchange.observe, if_pos hacc] at hx
    cases hx
    exact ⟨rfl, rfl⟩
  · have hanswer := step_upload ht hq' hstate (hvalue ▸ hblock)
    rw [haddr] at hanswer
    exact hanswer ⟨hin.1, Nat.le_of_succ_le_succ hin.2⟩

/-- The write that ends an exchange is at the exchange's address, and its bytes can be read back
there. -/
theorem Watched.write_readback {w : Machine × Option Exchange} (hw : Watched w) {e : UsbEvent}
    {x : Exchange} (hx : x ∈ w.2) (hblock : 2 ≤ x.block) {a : UInt32} {bytes : List UInt8}
    (hwrite : .writeCall a bytes ∈ w.1.asked e) : a = x.base ∧
      ((w.1.step e).core.dfu.state = .dnloadIdle → ∀ t : Machine, t.Quiet →
        t.core.flash.mem = (w.1.step e).core.flash.mem →
        (t.core.dfu.state = .idle ∨ t.core.dfu.state = .uploadIdle) →
        t.core.dfu.blockAddress x.block = x.base → ∀ q : SetupPacket, q.IsDfu dfuUpload →
        q.wValue.toNat = x.block → q.wLength.toNat = bytes.length →
        (t.readRequest q).1 = bytes) := by
  obtain ⟨hexec, -, -, ha, -⟩ := hw.writeCall_mem.mp hwrite
  obtain ⟨y, hy, hfollows⟩ := hw.exchange hexec
  obtain rfl : y = x := Option.some.inj (hy.symm.trans hx)
  have hbase : a = y.base := ha.trans (hfollows.base (hfollows.block ▸ hblock)).symm
  refine ⟨hbase, fun hok t ht hmem hstate haddr q hq hvalue hlen => ?_⟩
  obtain ⟨hpos, hin, hstored⟩ := hw.stable.programmed_readback hwrite hok
  rw [hbase, ← haddr, ← hvalue] at hin hstored
  rw [← hmem] at hstored
  exact readRequest_of_stored ht hstate hq (hvalue ▸ hblock) hpos hlen hin hstored

/-- DNLOAD and UPLOAD mean the same address by a block number. What a download has stored, an upload
of the same block under the same pointer returns; and a walk over all blocks from a pointer in the
region reads the rest of the region, each byte once. -/
theorem upload_mirrors_download :
    (∀ s t : Machine, s.Quiet → t.Quiet → t.core.dfu.addressPtr = s.core.dfu.addressPtr →
      ∀ q q' : SetupPacket, Accepts q s.core.dfu → 2 ≤ q.wValue.toNat → q'.IsDfu dfuUpload →
        (t.core.dfu.state = .idle ∨ t.core.dfu.state = .uploadIdle) → q'.wValue = q.wValue →
        (s.step (.setup q)).core.dfu.address = s.core.dfu.blockAddress q.wValue.toNat ∧
        (∀ w, ∀ x ∈ Exchange.observe w s (.setup q),
          x.block = q.wValue.toNat ∧ x.base = s.core.dfu.blockAddress q.wValue.toNat) ∧
        (InRegion (s.core.dfu.blockAddress q.wValue.toNat).toNat 1 →
          (t.step (.setup q')).AnsweredFrom (s.core.dfu.blockAddress q.wValue.toNat).toNat)) ∧
    (∀ mem faults es e,
      let w := StepSystem.run watched (start mem faults, none) es
      ∀ x ∈ w.2, 2 ≤ x.block → ∀ a bytes, .writeCall a bytes ∈ w.1.asked e →
        a = x.base ∧
        ((w.1.step e).core.dfu.state = .dnloadIdle → ∀ t : Machine, t.Quiet →
          t.core.flash.mem = (w.1.step e).core.flash.mem →
          (t.core.dfu.state = .idle ∨ t.core.dfu.state = .uploadIdle) →
          t.core.dfu.blockAddress x.block = x.base → ∀ q : SetupPacket, q.IsDfu dfuUpload →
          q.wValue.toNat = x.block → q.wLength.toNat = bytes.length →
          (t.readRequest q).1 = bytes)) ∧
    ∀ s : Machine, s.Quiet → s.core.dfu.state = .idle → InRegion s.core.dfu.addressPtr.toNat 1 →
      ∀ fuel, appFlashEnd.toNat + 1 - s.core.dfu.addressPtr.toNat < 1024 * fuel →
        ReadsOut (s.uploadWalk fuel 2)
          (fun i => s.core.flash.mem (s.core.dfu.addressPtr.toNat + i))
          (appFlashEnd.toNat + 1 - s.core.dfu.addressPtr.toNat) := by
  refine ⟨?_, ?_, ?_⟩
  · intro s t hs ht hptr q q' hacc hblock hq' hstate hvalue
    exact dnload_upload_address hs ht hptr hacc hblock hq' hstate hvalue
  · intro mem faults es e w x hx hblock a bytes hwrite
    have hw : Watched w := StepSystem.run_invariant Watched (fun _ e h => h.step e)
      (start_watched mem faults) es
    exact hw.write_readback hx hblock hwrite
  · intro s hq hs hin fuel hfuel
    have hzero : s.core.dfu.addressPtr.toNat + 0 * 1024 = s.core.dfu.addressPtr.toNat := by
      rw [Nat.zero_mul, Nat.add_zero]
    have hwalk := @uploadWalk_readsOut fuel 0 s hq (Or.inl hs) hin
    rw [hzero] at hwalk
    exact hwalk (hin.2.trans' (Nat.le_succ _)) hfuel

def blockReceived : Machine × Option Exchange := StepSystem.run watched (erased, none)
  [.setup (.dnload 2 2), .out (.ofBytes [0x11, 0x22]), .setup .getstatus]

/-- The block read back after ABORT, and the whole region read in 243 uploads, the last one empty. -/
theorem block_and_region_read :
    ((((blockReceived.1.step (.setup .getstatus)).step (.setup .abort)).readRequest
      (.upload 2 2)).1 = [0x11, 0x22]) ∧
    ReadsOut (erased.uploadWalk 243 2)
      (fun i => erased.core.flash.mem (appStartAddress.toNat + i)) 0x3C800 := by
  obtain ⟨-, hblock, hwalk⟩ := upload_mirrors_download
  refine ⟨?_, hwalk erased (start_quiet _ _) rfl (by decide) 243 (by decide)⟩
  have hq : (blockReceived.1.step (.setup .getstatus)).Quiet := ⟨by decide +kernel, by decide +kernel⟩
  have hmem : ((blockReceived.1.step (.setup .getstatus)).step (.setup .abort)).core.flash.mem =
      (blockReceived.1.step (.setup .getstatus)).core.flash.mem := by
    rw [step_core hq, coreStep, request_abort (by decide)]
  obtain ⟨-, hread⟩ := hblock _ _ _ (.setup .getstatus)
    ⟨2, 2, 0x08003000, [0x11, 0x22], false, false, false, 0⟩
    (by decide +kernel : _ ∈ blockReceived.2) (by decide) 0x08003000 [0x11, 0x22]
    (by decide +kernel : _ ∈ blockReceived.1.asked _)
  exact hread (by decide +kernel) _ (step_quiet hq _) hmem (by decide +kernel)
    (by decide +kernel) _ (by decide) (by decide) (by decide)

end RoundTrip

end Machine

end NovaBootloader
