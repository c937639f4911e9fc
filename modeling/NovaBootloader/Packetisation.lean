import NovaBootloader.Ep0Bounds

/-!
# The packets of a control-IN transfer

A sender returns data to a receiver that waits for a number of bytes, in packets of bounded size. A
packet that is not full ends the stage; so does the last of the awaited bytes. Where neither would,
an empty packet follows. `ep0_send` queues the first packet of an answer and `handle_ep0_in` one
more for each packet the host has collected. The pointer, the count of what is left and the flag for
an empty packet carry the transfer from one completion to the next.
-/

/-- A data stage that returns `data` to a receiver waiting for `want` items. -/
structure DataStage {α : Type*} (m want : ℕ) (data : List α) (packets : List (List α)) : Prop where
  flatten : packets.flatten = data
  shape : ∃ full last, packets = full ++ [last] ∧ (∀ packet ∈ full, packet.length = m) ∧
    last.length ≤ m ∧ (data.length < want → last.length < m) ∧
    (full ≠ [] ∧ last = [] ↔ 0 < data.length ∧ data.length % m = 0 ∧ data.length < want)

namespace DataStage

variable {α : Type*} {m want : ℕ} {data : List α}

theorem single (hle : data.length ≤ m) (hend : data.length < m ∨ want ≤ data.length) :
    DataStage m want data [data] := by
  refine ⟨List.append_nil data, [], data, rfl, ?_, hle, by omega, ?_⟩
  · exact fun _ h => absurd h List.not_mem_nil
  · refine iff_of_false (fun h => h.1 rfl) ?_
    rintro ⟨hpos, hmod, hlt⟩
    rw [Nat.mod_eq_of_lt (by omega)] at hmod
    omega

/-- A full packet that does not end the stage, and the empty one that does. -/
theorem zlp (hm : 0 < m) (hlen : data.length = m) (hlt : m < want) :
    DataStage m want data [data, []] := by
  refine ⟨by simp, [data], [], rfl, ?_, Nat.zero_le m, fun _ => hm, ?_⟩
  · exact fun packet h => (List.mem_singleton.mp h) ▸ hlen
  · refine iff_of_true ⟨List.cons_ne_nil _ _, rfl⟩ ?_
    rw [hlen]
    exact ⟨hm, Nat.mod_self m, hlt⟩

theorem cons {head : List α} {packets : List (List α)} (hlen : head.length = m) (hpos : data ≠ [])
    (h : DataStage m (want - m) data packets) : DataStage m want (head ++ data) (head :: packets) := by
  obtain ⟨hflatten, full, last, rfl, hfull, hlast, hshort, hzlp⟩ := h
  have hdata : 0 < data.length := List.length_pos_of_ne_nil hpos
  refine ⟨by rw [List.flatten_cons, hflatten], head :: full, last, rfl, ?_, hlast, ?_, ?_⟩
  · intro packet hmem
    rcases List.mem_cons.mp hmem with rfl | hmem
    · exact hlen
    · exact hfull packet hmem
  · intro hlt
    rw [List.length_append] at hlt
    exact hshort (by omega)
  · rw [List.length_append, hlen, Nat.add_mod_left]
    have hwant : m + data.length < want ↔ data.length < want - m := by omega
    rw [hwant]
    constructor
    · rintro ⟨-, rfl⟩
      -- the rest ends with an empty packet, so it cannot be that packet alone
      have hne : full ≠ [] := by
        rintro rfl
        exact hpos (hflatten.symm.trans rfl)
      obtain ⟨-, hmod, hlt⟩ := hzlp.mp ⟨hne, rfl⟩
      exact ⟨by omega, hmod, hlt⟩
    · rintro ⟨-, hmod, hlt⟩
      exact ⟨List.cons_ne_nil _ _, (hzlp.mpr ⟨hdata, hmod, hlt⟩).2⟩

end DataStage

namespace NovaBootloader
open ByteMemory

namespace Machine

/-- The host collects the packet on offer, and `handle_ep0_in` handles the completion. -/
def collected (s : Machine) : Machine := s.latchTx.handleEp0In

/-- The packets the host collects one after the other, as long as there is one on offer. -/
def collect : ℕ → Machine → List (List UInt8)
  | 0, _ => []
  | fuel + 1, s =>
    match s.offered with
    | none => []
    | some packet => packet :: collect fuel s.collected

/-- Nothing is on offer and nothing is left to send. -/
structure Drained (s : Machine) : Prop where
  statTx : s.ep0r.statTx ≠ EpStat.valid
  remaining : s.ep0TxRemaining = 0
  needZlp : s.ep0TxNeedZlp = false

/-- The first packet of `n` bytes of `data` is on offer to a host that waits for `want` bytes. -/
structure Sending (s : Machine) (data : ℕ → UInt8) (n want : ℕ) : Prop where
  statTx : s.ep0r.statTx = EpStat.valid
  packet : s.txPacket = toList data (min n ep0MaxSize)
  remaining : s.ep0TxRemaining = n - min n ep0MaxSize
  bytes : ∀ i, s.txByte s.ep0TxPtr i = data (min n ep0MaxSize + i)
  needZlp : s.ep0TxNeedZlp = decide (0 < n ∧ n < want ∧ n % ep0MaxSize = 0)
  le : n ≤ want

variable {s : Machine}

theorem Drained.offered (h : s.Drained) : s.offered = none := if_neg h.statTx

theorem collected_drained (hrem : s.ep0TxRemaining = 0) (hzlp : s.ep0TxNeedZlp = false) :
    s.collected.Drained := by
  have hnot : ¬ s.latchTx.MidTransfer := not_midTransfer_of_zero hrem hzlp
  unfold collected
  rw [handleEp0In_of_not_midTransfer hnot]
  refine ⟨?_, hrem, hzlp⟩
  rw [EpReg.clearCtrTx_eq]
  exact (by decide : EpStat.nak ≠ EpStat.valid)

theorem Drained.iterate (h : s.Drained) (k : ℕ) : (collected^[k] s).Drained := by
  induction k generalizing s with
  | zero => exact h
  | succ k ih => exact ih (collected_drained h.remaining h.needZlp)

theorem collected_of_remaining (hrem : 0 < s.ep0TxRemaining) :
    s.collected = { s.latchTx with ep0r := s.latchTx.ep0r.clearCtrTx }.ep0TxChunk :=
  handleEp0In_of_remaining (s := s.latchTx) hrem

theorem collected_ptr (hrem : 0 < s.ep0TxRemaining) : s.collected.ep0TxPtr =
    ⟨s.ep0TxPtr.object, s.ep0TxPtr.offset + min s.ep0TxRemaining ep0MaxSize⟩ := by
  rw [collected_of_remaining hrem, ep0TxChunk_ptr]
  rfl

theorem txByte_add (s : Machine) (object : TxObject) (offset n i : ℕ) :
    s.txByte ⟨object, offset + n⟩ i = s.txByte ⟨object, offset⟩ (n + i) := by
  unfold txByte
  dsimp only
  rw [Nat.add_assoc]

section Sending

variable {data : ℕ → UInt8} {n want : ℕ}

theorem Sending.next (h : s.Sending data n want) (hn : ep0MaxSize < n) :
    s.collected.Sending (fun i => data (ep0MaxSize + i)) (n - ep0MaxSize) (want - ep0MaxSize) := by
  have hsize : ep0MaxSize = 64 := rfl
  have hmin : min n ep0MaxSize = ep0MaxSize := min_eq_right hn.le
  have hrem : s.ep0TxRemaining = n - ep0MaxSize := by rw [h.remaining, hmin]
  have hle := h.le
  have hpos : 0 < s.ep0TxRemaining := by omega
  have hbytes (i : ℕ) : s.txByte s.ep0TxPtr i = data (ep0MaxSize + i) := hmin ▸ h.bytes i
  refine ⟨?_, ?_, ?_, fun i => ?_, ?_, by omega⟩
  · rw [collected_of_remaining hpos]
    simp [ep0TxChunk]
  · rw [collected_of_remaining hpos, ep0TxChunk_txPacket]
    change toList (s.txByte s.ep0TxPtr) (min s.ep0TxRemaining ep0MaxSize) = _
    rw [hrem]
    exact toList_congr fun i _ => hbytes i
  · rw [collected_of_remaining hpos, ep0TxChunk_remaining]
    change s.ep0TxRemaining - min s.ep0TxRemaining ep0MaxSize = _
    rw [hrem]
  · rw [collected_ptr hpos, collected_of_remaining hpos]
    change s.txByte ⟨s.ep0TxPtr.object, s.ep0TxPtr.offset + min s.ep0TxRemaining ep0MaxSize⟩ i = _
    rw [txByte_add, hrem]
    exact hbytes _
  · rw [collected_of_remaining hpos]
    change s.ep0TxNeedZlp = _
    rw [h.needZlp, hsize]
    congr 1
    apply propext
    omega

/-- A last packet that is full: an empty one is queued if the host still waits. -/
theorem Sending.zlp (h : s.Sending data ep0MaxSize want) (hwant : ep0MaxSize < want) :
    s.collected.offered = some [] ∧ s.collected.collected.Drained := by
  have hrem : s.ep0TxRemaining = 0 := h.remaining
  have hzlp : s.ep0TxNeedZlp = true := by
    rw [h.needZlp]
    exact decide_eq_true ⟨by decide, hwant, rfl⟩
  have hcollected : s.collected = { s.latchTx with
      ep0TxNeedZlp := false
      pma := s.pma.write (btableOffset + 2) 0
      ep0r := s.latchTx.ep0r.clearCtrTx.setTxStatus EpStat.valid } :=
    handleEp0In_of_needZlp (s := s.latchTx) hrem.not_gt hzlp
  refine ⟨?_, collected_drained ?_ ?_⟩
  · rw [offered_eq_some_iff, hcollected]
    refine ⟨by simp, ?_⟩
    rw [txPacket, txCount, Pma.read_write_self]
    rfl
  · rw [hcollected]
    exact hrem
  · rw [hcollected]

theorem Sending.last (h : s.Sending data n want) (hn : n ≤ ep0MaxSize)
    (hend : n < ep0MaxSize ∨ want ≤ n) : s.collected.Drained := by
  have hsize : ep0MaxSize = 64 := rfl
  apply collected_drained
  · rw [h.remaining, min_eq_left hn, Nat.sub_self]
  · rw [h.needZlp, decide_eq_false_iff_not, hsize]
    omega

/-- The packets that are collected from here on, and the end of the transfer after them. -/
def Collects (s : Machine) (packets : List (List UInt8)) : Prop :=
  (∀ fuel, packets.length ≤ fuel → s.collect fuel = packets) ∧
    ∀ k, packets.length ≤ k → (collected^[k] s).Drained

theorem Drained.collects (h : s.Drained) : s.Collects [] := by
  refine ⟨fun fuel _ => ?_, fun k _ => h.iterate k⟩
  cases fuel with
  | zero => rfl
  | succ fuel => rw [collect, h.offered]

theorem Collects.cons {packet : List UInt8} {packets : List (List UInt8)}
    (hoffered : s.offered = some packet) (h : s.collected.Collects packets) :
    s.Collects (packet :: packets) := by
  refine ⟨fun fuel hfuel => ?_, fun k hk => ?_⟩
  · obtain ⟨fuel, rfl⟩ : ∃ f, fuel = f + 1 := ⟨fuel - 1, by simp at hfuel; omega⟩
    rw [collect, hoffered]
    dsimp only
    rw [h.1 fuel (Nat.le_of_succ_le_succ hfuel)]
  · obtain ⟨k, rfl⟩ : ∃ j, k = j + 1 := ⟨k - 1, by simp at hk; omega⟩
    exact h.2 k (Nat.le_of_succ_le_succ hk)

/-- What a host collects from a transfer is its data in full packets and a last one. -/
theorem Sending.collects (h : s.Sending data n want) :
    ∃ packets, DataStage ep0MaxSize want (toList data n) packets ∧ s.Collects packets := by
  induction n using Nat.strong_induction_on generalizing s data want with
  | h n ih =>
    have hsize : ep0MaxSize = 64 := rfl
    have hle := h.le
    have hoffered : s.offered = some (toList data (min n ep0MaxSize)) :=
      offered_eq_some_iff.mpr ⟨h.statTx, h.packet.symm⟩
    by_cases hn : ep0MaxSize < n
    · obtain ⟨packets, hstage, hcollects⟩ := ih (n - ep0MaxSize) (by omega) (h.next hn)
      rw [min_eq_right hn.le] at hoffered
      refine ⟨_, ?_, hcollects.cons hoffered⟩
      have hsplit := toList_append data ep0MaxSize (n - ep0MaxSize)
      rw [Nat.add_sub_cancel' hn.le] at hsplit
      rw [← hsplit]
      refine hstage.cons (length_toList _ _) fun hnil => ?_
      have hzero := congrArg List.length hnil
      rw [length_toList, List.length_nil] at hzero
      omega
    rw [not_lt] at hn
    rw [min_eq_left hn] at hoffered
    by_cases hend : n < ep0MaxSize ∨ want ≤ n
    · refine ⟨_, .single ?_ ?_, (h.last hn hend).collects.cons hoffered⟩
      · rw [length_toList]
        exact hn
      · rw [length_toList]
        exact hend
    · obtain rfl : n = ep0MaxSize := by omega
      obtain ⟨hempty, hdrained⟩ := h.zlp (by omega)
      refine ⟨_, .zlp (by decide) (length_toList _ _) (by omega), ?_⟩
      exact .cons hoffered (.cons hempty hdrained.collects)

end Sending

/-- `ep0_send` starts such a transfer. -/
theorem ep0Send_sending (s : Machine) (data : TxPtr) (len : ℕ) :
    (s.ep0Send data len).Sending (s.txByte data) (min len s.ep0ReqLen) s.ep0ReqLen := by
  refine ⟨?_, s.ep0Send_txPacket data len, s.ep0Send_remaining data len, fun i => ?_,
    ?_, min_le_right _ _⟩
  · simp [ep0Send, ep0TxChunk]
  · rw [ep0Send_ptr]
    exact txByte_add s data.object data.offset _ i
  · exact s.ep0Send_needZlp data len

/-- What `ep0_send` is given reaches the host whole, up to the length it has asked for, in packets
that end where the host expects them to; after that an IN completion queues nothing. -/
theorem ep0Send_packetised (s : Machine) (data : TxPtr) (len : ℕ) :
    ∃ packets, DataStage ep0MaxSize s.ep0ReqLen
        (toList (s.txByte data) (min len s.ep0ReqLen)) packets ∧
      (∀ fuel, packets.length ≤ fuel → (s.ep0Send data len).collect fuel = packets) ∧
      ∀ k, packets.length ≤ k → (collected^[k] (s.ep0Send data len)).offered = none := by
  obtain ⟨packets, hstage, hcollect, hdrained⟩ := (s.ep0Send_sending data len).collects
  exact ⟨packets, hstage, hcollect, fun k hk => (hdrained k hk).offered⟩

end Machine

end NovaBootloader
