import NovaBootloader.Poll

/-!
# The packet in the EP0 transmit buffer

`txPacket` is the packet in the transmit buffer, `COUNT_TX` bytes of it, and `offered` what the host
receives of it with its next IN token. Each call of the EP0 engine is described by the packet it
leaves there.
-/

namespace NovaBootloader
open ByteMemory

namespace Machine

/-- `COUNT_TX`. -/
def txCount (s : Machine) : ℕ := (s.pma.read (btableOffset + 2)).toNat

def txPacket (s : Machine) : List UInt8 :=
  toList (pmaByte s.pma (pmaAddr ep0TxOffset)) s.txCount

/-- The packet the host gets with its next IN token, if the transmitter has one for it. -/
def offered (s : Machine) : Option (List UInt8) :=
  if s.ep0r.statTx = EpStat.valid then some s.txPacket else none

theorem offered_eq_some_iff {s : Machine} {packet : List UInt8} :
    s.offered = some packet ↔ s.ep0r.statTx = EpStat.valid ∧ packet = s.txPacket := by
  unfold offered
  split_ifs with hv
  · rw [Option.some.injEq, and_iff_right hv, eq_comm]
  · exact iff_of_false id fun h => hv h.1

variable (s : Machine)

theorem txCount_write (n : UInt16) :
    txCount { s with pma := s.pma.write (btableOffset + 2) n } = n.toNat := by
  rw [txCount, Pma.read_write_self]

theorem ep0TxChunk_txPacket : s.ep0TxChunk.txPacket =
    toList (s.txByte s.ep0TxPtr) (min s.ep0TxRemaining ep0MaxSize) := by
  have hchunk : (if ep0MaxSize < s.ep0TxRemaining then ep0MaxSize else s.ep0TxRemaining) =
      min s.ep0TxRemaining ep0MaxSize := by
    split_ifs <;> omega
  have hle : min s.ep0TxRemaining ep0MaxSize ≤ 64 := Nat.min_le_right _ _
  have hcount : s.ep0TxChunk.txCount = min s.ep0TxRemaining ep0MaxSize := by
    unfold ep0TxChunk
    dsimp only
    rw [hchunk, txCount, Pma.read_write_self, UInt16.toNat_ofNat']
    exact Nat.mod_eq_of_lt (by omega)
  rw [txPacket, hcount]
  apply toList_congr
  intro i hi
  unfold ep0TxChunk
  dsimp only
  rw [hchunk, pmaByte_write _ _ (by decide), pmaByte_pmaWrite _ _ _ _ hi]

theorem ep0TxChunk_ptr : s.ep0TxChunk.ep0TxPtr =
    ⟨s.ep0TxPtr.object, s.ep0TxPtr.offset + min s.ep0TxRemaining ep0MaxSize⟩ := by
  unfold ep0TxChunk
  dsimp only
  congr 2
  split_ifs <;> omega

theorem ep0TxChunk_remaining : s.ep0TxChunk.ep0TxRemaining =
    s.ep0TxRemaining - min s.ep0TxRemaining ep0MaxSize := by
  unfold ep0TxChunk
  dsimp only
  split_ifs <;> omega

theorem ep0Send_txPacket (data : TxPtr) (len : ℕ) : (s.ep0Send data len).txPacket =
    toList (s.txByte data) (min (min len s.ep0ReqLen) ep0MaxSize) := by
  have hlen : (if s.ep0ReqLen < len then s.ep0ReqLen else len) = min len s.ep0ReqLen := by
    split_ifs <;> omega
  have h := ep0TxChunk_txPacket { s with
    ep0TxPtr := data
    ep0TxRemaining := min len s.ep0ReqLen
    ep0TxNeedZlp := 0 < min len s.ep0ReqLen ∧ min len s.ep0ReqLen < s.ep0ReqLen ∧
      min len s.ep0ReqLen % ep0MaxSize = 0 }
  unfold ep0Send
  rw [hlen]
  exact h

theorem ep0Send_ptr (data : TxPtr) (len : ℕ) : (s.ep0Send data len).ep0TxPtr =
    ⟨data.object, data.offset + min (min len s.ep0ReqLen) ep0MaxSize⟩ := by
  unfold ep0Send ep0TxChunk
  dsimp only
  congr 2
  split_ifs <;> omega

theorem ep0Send_remaining (data : TxPtr) (len : ℕ) : (s.ep0Send data len).ep0TxRemaining =
    min len s.ep0ReqLen - min (min len s.ep0ReqLen) ep0MaxSize := by
  unfold ep0Send ep0TxChunk
  dsimp only
  split_ifs <;> omega

theorem ep0Send_needZlp (data : TxPtr) (len : ℕ) : (s.ep0Send data len).ep0TxNeedZlp =
    decide (0 < min len s.ep0ReqLen ∧ min len s.ep0ReqLen < s.ep0ReqLen ∧
      min len s.ep0ReqLen % ep0MaxSize = 0) := by
  have hlen : (if s.ep0ReqLen < len then s.ep0ReqLen else len) = min len s.ep0ReqLen := by
    split_ifs <;> omega
  unfold ep0Send
  rw [hlen]
  rfl

theorem ep0SendZlp_txPacket : s.ep0SendZlp.txPacket = [] := by
  have h : s.ep0SendZlp.txCount = 0 := txCount_write s 0
  rw [txPacket, h]
  rfl

theorem reply_txPacket {bytes : List UInt8} (h : bytes.length ≤ ep0MaxSize) :
    (s.runCall (.reply bytes)).txPacket = bytes.take s.ep0ReqLen := by
  unfold runCall
  dsimp only
  rw [ep0Send_txPacket]
  dsimp only
  have hmin : min (min bytes.length s.ep0ReqLen) ep0MaxSize = min bytes.length s.ep0ReqLen := by
    omega
  rw [hmin]
  apply List.ext_getElem?
  intro i
  by_cases hi : i < min bytes.length s.ep0ReqLen
  · rw [getElem?_toList _ hi, List.getElem?_take_of_lt (by omega),
      List.getElem?_eq_getElem (by omega)]
    unfold txByte
    dsimp only
    rw [Nat.zero_add, overwrite_of_mem (by omega) (by omega), Nat.sub_zero, ofList,
      List.getD_eq_getElem _ _ (by omega)]
  · rw [List.getElem?_eq_none (by simp only [length_toList]; omega),
      List.getElem?_eq_none (by simp only [List.length_take]; omega)]

theorem reply_remaining {bytes : List UInt8} (h : bytes.length < ep0MaxSize) :
    (s.runCall (.reply bytes)).ep0TxRemaining = 0 ∧
      (s.runCall (.reply bytes)).ep0TxNeedZlp = false := by
  have hsize : ep0MaxSize = 64 := rfl
  unfold runCall ep0Send ep0TxChunk
  simp only [decide_eq_false_iff_not, not_and]
  refine ⟨by split_ifs <;> omega, fun hpos hlt => ?_⟩
  split_ifs at hpos hlt ⊢ with hreq
  · omega
  · rw [Nat.mod_eq_of_lt h]
    omega

theorem handleEp0In_txPacket (hrem : s.ep0TxRemaining = 0) (hzlp : s.ep0TxNeedZlp = false) :
    s.handleEp0In.txPacket = s.txPacket := by
  unfold handleEp0In
  dsimp only
  rw [hrem, hzlp, if_neg (Nat.lt_irrefl 0), if_neg Bool.false_ne_true]
  split_ifs <;> rfl

theorem reply_statTx (bytes : List UInt8) :
    (s.runCall (.reply bytes)).ep0r.statTx = EpStat.valid := by
  simp [runCall, ep0Send, ep0TxChunk]

theorem handleEp0In_statTx (hrem : s.ep0TxRemaining = 0) (hzlp : s.ep0TxNeedZlp = false) :
    s.handleEp0In.ep0r.statTx = s.ep0r.statTx := by
  unfold handleEp0In
  dsimp only
  rw [hrem, hzlp, if_neg (Nat.lt_irrefl 0), if_neg Bool.false_ne_true, EpReg.clearCtrTx_eq]
  split_ifs <;> rfl

/-- A SETUP packet answered from `ep0_reply` offers that answer to the host. -/
theorem step_reply {s : Machine} (hq : s.Quiet) {p : SetupPacket} {bytes : List UInt8}
    (hcall : (request p s.core).2 = .reply bytes) (h : bytes.length < ep0MaxSize) (tx : Bool) :
    (s.step (.ctr (some (.setup p)) tx)).offered = some (bytes.take p.wLength.toNat) := by
  have hreceive : ((s.latchIn tx).receive (.setup p)).txPacket = bytes.take p.wLength.toNat ∧
      ((s.latchIn tx).receive (.setup p)).ep0r.statTx = EpStat.valid ∧
      ((s.latchIn tx).receive (.setup p)).ep0TxRemaining = 0 ∧
      ((s.latchIn tx).receive (.setup p)).ep0TxNeedZlp = false := by
    rw [receive_setup, latchIn_core, hcall]
    exact ⟨reply_txPacket _ h.le, reply_statTx _ _, reply_remaining _ h⟩
  obtain ⟨hpacket, hstat, hrem, hzlp⟩ := hreceive
  rw [step_rx hq, offered_eq_some_iff]
  cases tx with
  | false => exact ⟨hstat, hpacket.symm⟩
  | true => exact ⟨(handleEp0In_statTx _ hrem hzlp).trans hstat,
      hpacket.symm.trans (handleEp0In_txPacket _ hrem hzlp).symm⟩

end Machine

end NovaBootloader
