import NovaBootloader.PacketMemory

/-!
# `pma_write` and `pma_read` with their 16-bit counters

The two copies count bytes in a `uint16_t` that advances in steps of two. The counter wraps, so such
a loop ends for every bound but the largest one, which no even counter ever reaches. For every other
length the copies end, and are the copies of the packet memory's own model; what one of them has
written the other reads back, and neither touches anything outside its packet.
-/

namespace CountedLoop

variable {σ : Type*}

def run (len : UInt16) (body : ℕ → σ → σ) : ℕ → UInt16 → σ → Option σ
  | 0, _, _ => none
  | fuel + 1, i, s => if i < len then run len body fuel (i + 2) (body i.toNat s) else some s

def iterate (body : ℕ → σ → σ) : ℕ → ℕ → σ → σ
  | 0, _, s => s
  | n + 1, i, s => iterate body n (i + 2) (body i s)

/-- Below the largest bound the loop is its body at every other index. -/
theorem run_eq_iterate {len : UInt16} (hlen : len.toNat < 65535) (body : ℕ → σ → σ) (n : ℕ)
    {fuel : ℕ} (hfuel : n < fuel) (i : UInt16) (s : σ) (hn : n = (len.toNat - i.toNat + 1) / 2) :
    run len body fuel i s = some (iterate body n i.toNat s) := by
  induction n generalizing fuel i s with
  | zero =>
    obtain ⟨fuel, rfl⟩ := Nat.exists_eq_succ_of_ne_zero (by omega : fuel ≠ 0)
    rw [run, if_neg (by rw [UInt16.lt_iff_toNat_lt]; omega), iterate]
  | succ n ih =>
    obtain ⟨fuel, rfl⟩ := Nat.exists_eq_succ_of_ne_zero (by omega : fuel ≠ 0)
    -- below the largest bound the counter stays below 2^16
    have hnext : (i + 2).toNat = i.toNat + 2 := by
      rw [UInt16.toNat_add]
      change (i.toNat + 2) % 2 ^ 16 = _
      omega
    rw [run, if_pos (by rw [UInt16.lt_iff_toNat_lt]; omega), ih (by omega) _ _ (by omega), iterate,
      hnext]

/-- An even counter passes the largest bound without ever reaching it. -/
theorem run_eq_none {len : UInt16} (hlen : len.toNat = 65535) (body : ℕ → σ → σ) (fuel : ℕ)
    (i : UInt16) (s : σ) (heven : i.toNat % 2 = 0) : run len body fuel i s = none := by
  induction fuel generalizing i s with
  | zero => rfl
  | succ fuel ih =>
    have hlt := i.toNat_lt
    rw [run, if_pos (by rw [UInt16.lt_iff_toNat_lt]; omega)]
    apply ih
    rw [UInt16.toNat_add]
    change (i.toNat + 2) % 2 ^ 16 % 2 = 0
    omega

end CountedLoop

namespace NovaBootloader
open ByteMemory

/-- `pma_write`, if it ends within the fuel. -/
def pmaWriteCounted (fuel : ℕ) (offset : UInt16) (data : ℕ → UInt8) (len : UInt16) (pma : Pma) :
    Option Pma :=
  (CountedLoop.run len (fun i (s : ℕ × Pma) =>
    (s.1 + 4, Function.update s.2 s.1 (packWord data len.toNat i))) fuel 0
    (pmaAddr offset.toNat, pma)).map Prod.snd

/-- `pma_read`, if it ends within the fuel. -/
def pmaReadCounted (fuel : ℕ) (pma : Pma) (offset : UInt16) (buf : ℕ → UInt8) (base : ℕ)
    (len : UInt16) : Option (ℕ → UInt8) :=
  (CountedLoop.run len (fun i (s : ℕ × (ℕ → UInt8)) =>
    let val := pma s.1
    let buf := Function.update s.2 (base + i) (val &&& 0xFF).toUInt8
    (s.1 + 4,
      if i + 1 < len.toNat then Function.update buf (base + i + 1) (val >>> 8).toUInt8 else buf))
    fuel 0 (pmaAddr offset.toNat, buf)).map Prod.snd

theorem pmaWriteLoop_eq_iterate (data : ℕ → UInt8) (len n i dst : ℕ) (pma : Pma) :
    (CountedLoop.iterate (fun i (s : ℕ × Pma) =>
      (s.1 + 4, Function.update s.2 s.1 (packWord data len i))) n i (dst, pma)).2 =
    pmaWriteLoop data len n i dst pma := by
  induction n generalizing i dst pma with
  | zero => rfl
  | succ n ih => exact ih _ _ _

theorem pmaReadLoop_eq_iterate (pma : Pma) (base len n i src : ℕ) (buf : ℕ → UInt8) :
    (CountedLoop.iterate (fun i (s : ℕ × (ℕ → UInt8)) =>
      let val := pma s.1
      let buf := Function.update s.2 (base + i) (val &&& 0xFF).toUInt8
      (s.1 + 4,
        if i + 1 < len then Function.update buf (base + i + 1) (val >>> 8).toUInt8 else buf))
      n i (src, buf)).2 = pmaReadLoop pma base len n i src buf := by
  induction n generalizing i src buf with
  | zero => rfl
  | succ n ih => exact ih _ _ _

section Copy
variable {len : UInt16} {fuel : ℕ}

theorem pmaWriteCounted_eq (hlen : len.toNat < 65535) (hfuel : len.toNat < fuel) (offset : UInt16)
    (data : ℕ → UInt8) (pma : Pma) :
    pmaWriteCounted fuel offset data len pma = some (pmaWrite offset.toNat data len.toNat pma) := by
  unfold pmaWriteCounted pmaWrite
  rw [CountedLoop.run_eq_iterate hlen _ ((len.toNat + 1) / 2) (by omega) 0 _ rfl, Option.map_some,
    UInt16.toNat_zero, pmaWriteLoop_eq_iterate]

theorem pmaReadCounted_eq (hlen : len.toNat < 65535) (hfuel : len.toNat < fuel) (pma : Pma)
    (offset : UInt16) (buf : ℕ → UInt8) (base : ℕ) :
    pmaReadCounted fuel pma offset buf base len =
      some (overwrite buf base len.toNat (pmaByte pma (pmaAddr offset.toNat))) := by
  rw [← pmaRead_eq]
  unfold pmaReadCounted pmaRead
  rw [CountedLoop.run_eq_iterate hlen _ ((len.toNat + 1) / 2) (by omega) 0 _ rfl, Option.map_some,
    UInt16.toNat_zero, pmaReadLoop_eq_iterate]

theorem pmaWriteCounted_eq_none (hlen : len.toNat = 65535) (fuel : ℕ) (offset : UInt16)
    (data : ℕ → UInt8) (pma : Pma) : pmaWriteCounted fuel offset data len pma = none := by
  unfold pmaWriteCounted
  rw [CountedLoop.run_eq_none hlen _ _ _ _ rfl, Option.map_none]

end Copy

/-- `pma_write` changes no slot but those of its words. -/
theorem pmaWrite_of_not_word (offset : ℕ) (data : ℕ → UInt8) (len : ℕ) (pma : Pma) {x : ℕ}
    (hx : ∀ k < (len + 1) / 2, x ≠ pmaAddr (offset + 2 * k)) :
    pmaWrite offset data len pma x = pma x := by
  apply pmaWriteLoop_of_ne
  intro k hk
  have hne := hx k hk
  simp only [pmaAddr] at hne ⊢
  omega

/-- A packet in the transmit buffer alters neither the buffer table nor the receive buffer. -/
theorem pmaWrite_tx_window (data : ℕ → UInt8) {len : ℕ} (hlen : len ≤ ep0MaxSize) (pma : Pma) :
    (∀ entry, btableOffset ≤ entry → entry < ep0TxOffset →
      (pmaWrite ep0TxOffset data len pma).read entry = pma.read entry) ∧
    ∀ j, pmaByte (pmaWrite ep0TxOffset data len pma) (pmaAddr ep0RxOffset) j =
      pmaByte pma (pmaAddr ep0RxOffset) j := by
  have htx : ep0TxOffset = 64 := rfl
  have hrx : pmaAddr ep0RxOffset = 256 := rfl
  have hsize : ep0MaxSize = 64 := rfl
  constructor
  · intro entry _ hentry
    apply pmaWrite_of_not_mem
    simp only [pmaAddr]
    omega
  · intro j
    unfold pmaByte
    rw [pmaWrite_of_not_mem]
    right
    omega

/-- A copy into packet memory is read back in full and stays in its window. -/
theorem packet_copy_lossless (offset len : UInt16) (hlen : len.toNat ≤ 65534) (data : ℕ → UInt8)
    (pma : Pma) : ∃ pma', (∀ fuel, len.toNat < fuel →
        pmaWriteCounted fuel offset data len pma = some pma' ∧
        ∀ buf base, pmaReadCounted fuel pma' offset buf base len =
          some (overwrite buf base len.toNat data)) ∧
      (∀ x, (∀ k < (len.toNat + 1) / 2, x ≠ pmaAddr (offset.toNat + 2 * k)) → pma' x = pma x) ∧
      (offset.toNat = ep0TxOffset → len.toNat ≤ ep0MaxSize →
        (∀ entry, btableOffset ≤ entry → entry < ep0TxOffset → pma'.read entry = pma.read entry) ∧
        ∀ (n : UInt16) fuel buf base, n.toNat ≤ 65534 → n.toNat < fuel →
          pmaReadCounted fuel pma' (UInt16.ofNat ep0RxOffset) buf base n =
            pmaReadCounted fuel pma (UInt16.ofNat ep0RxOffset) buf base n) := by
  refine ⟨pmaWrite offset.toNat data len.toNat pma, fun fuel hfuel => ⟨?_, fun buf base => ?_⟩,
    fun x hx => ?_, fun htx hsize => ?_⟩
  · exact pmaWriteCounted_eq (by omega) hfuel offset data pma
  · rw [pmaReadCounted_eq (by omega) hfuel]
    exact congrArg some (overwrite_congr fun j hj => pmaByte_pmaWrite _ _ _ _ hj)
  · exact pmaWrite_of_not_word _ _ _ _ hx
  · rw [htx]
    obtain ⟨hentries, hbytes⟩ := pmaWrite_tx_window data hsize pma
    refine ⟨hentries, fun n fuel buf base hn hfuel => ?_⟩
    rw [pmaReadCounted_eq (by omega) hfuel, pmaReadCounted_eq (by omega) hfuel]
    exact congrArg some (overwrite_congr fun j _ => hbytes j)

/-- Three bytes in the transmit buffer: two words, and the receive buffer keeps its packet. -/
theorem three_bytes_copied : ∃ pma', pmaWriteCounted 4 0x40 (fun i => UInt8.ofNat (i + 1)) 3
      (fun _ => 0xAAAA) = some pma' ∧
    pmaReadCounted 4 pma' 0x40 (fun _ => 0) 10 3 =
      some (overwrite (fun _ => 0) 10 3 fun i => UInt8.ofNat (i + 1)) ∧
    pma' 136 = 0xAAAA ∧ pma'.read 0 = 0xAAAA := by
  obtain ⟨pma', hcopy, hframe, htx⟩ := packet_copy_lossless 0x40 3 (by decide)
    (fun i => UInt8.ofNat (i + 1)) fun _ => 0xAAAA
  refine ⟨pma', (hcopy 4 (by decide)).1, (hcopy 4 (by decide)).2 _ _, ?_, ?_⟩
  · exact hframe 136 (by decide)
  · exact (htx rfl (by decide)).1 0 (by decide) (by decide)

/-- A copy of 65535 bytes never ends: the counter wraps from 65534 to 0. -/
theorem largest_copy_never_ends : ¬ ∃ fuel pma', pmaWriteCounted fuel 0x40 (fun _ => 0) 65535
    (fun _ => 0) = some pma' := by
  rintro ⟨fuel, pma', h⟩
  rw [pmaWriteCounted_eq_none (by decide)] at h
  exact absurd h (by simp)

end NovaBootloader
