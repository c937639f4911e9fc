import NovaBootloader.ByteMemory

/-!
# Data stored in pieces

A piece is a run of bytes and the address it goes to. Pieces that agree with one body of data can be
stored in any order, and more than once: what the memory holds at the end depends only on which
addresses they cover.
-/

namespace ByteMemory

structure Piece where
  addr : ℕ
  bytes : List UInt8

namespace Piece

def Covers (w : Piece) (x : ℕ) : Prop := w.addr ≤ x ∧ x < w.addr + w.bytes.length

instance (w : Piece) (x : ℕ) : Decidable (w.Covers x) := inferInstanceAs (Decidable (_ ∧ _))

def Of (f : ℕ → UInt8) (w : Piece) : Prop := ∀ x, w.Covers x → ofList w.bytes (x - w.addr) = f x

def store (m : ℕ → UInt8) (w : Piece) : ℕ → UInt8 :=
  overwrite m w.addr w.bytes.length (ofList w.bytes)

theorem store_of_covers {w : Piece} {x : ℕ} (m : ℕ → UInt8) (h : w.Covers x) :
    store m w x = ofList w.bytes (x - w.addr) := overwrite_of_mem h.1 h.2

theorem store_of_not_covers {w : Piece} {x : ℕ} (m : ℕ → UInt8) (h : ¬ w.Covers x) :
    store m w x = m x := overwrite_of_not_mem h

theorem store_replicate (m : ℕ → UInt8) (a n : ℕ) (v : UInt8) :
    store m ⟨a, List.replicate n v⟩ = overwrite m a n fun _ => v := by
  unfold store
  rw [List.length_replicate]
  refine overwrite_congr fun i hi => ?_
  rw [ofList, List.getD_eq_getElem _ _ (by rwa [List.length_replicate]), List.getElem_replicate]

theorem covers_replicate {a n x : ℕ} {v : UInt8} :
    Covers ⟨a, List.replicate n v⟩ x ↔ a ≤ x ∧ x < a + n := by
  unfold Covers
  rw [List.length_replicate]

theorem of_replicate (a n : ℕ) (v : UInt8) : Of (fun _ => v) ⟨a, List.replicate n v⟩ := by
  intro x hx
  have hi : x - a < (List.replicate n v).length := by
    rw [covers_replicate] at hx
    rw [List.length_replicate]
    omega
  change ofList (List.replicate n v) (x - a) = v
  rw [ofList, List.getD_eq_getElem _ _ hi, List.getElem_replicate]

end Piece

def storeAll (m : ℕ → UInt8) (ws : List Piece) : ℕ → UInt8 := ws.foldl Piece.store m

@[simp] theorem storeAll_nil (m : ℕ → UInt8) : storeAll m [] = m := rfl

@[simp] theorem storeAll_cons (m : ℕ → UInt8) (w : Piece) (ws : List Piece) :
    storeAll m (w :: ws) = storeAll (w.store m) ws := rfl

theorem storeAll_append (m : ℕ → UInt8) (ws ws' : List Piece) :
    storeAll m (ws ++ ws') = storeAll (storeAll m ws) ws' := List.foldl_append

variable {ws : List Piece} {x : ℕ}

theorem storeAll_of_not_covered (m : ℕ → UInt8) (h : ∀ w ∈ ws, ¬ w.Covers x) :
    storeAll m ws x = m x := by
  induction ws generalizing m with
  | nil => rfl
  | cons w ws ih =>
    rw [storeAll_cons, ih _ fun w' hw' => h w' (List.mem_cons_of_mem _ hw')]
    exact w.store_of_not_covers m (h w List.mem_cons_self)

/-- An address some piece covers holds the data the pieces agree with, whatever their order. -/
theorem storeAll_of_covered {f : ℕ → UInt8} (m : ℕ → UInt8) (hf : ∀ w ∈ ws, w.Of f)
    (h : ∃ w ∈ ws, w.Covers x) : storeAll m ws x = f x := by
  induction ws generalizing m with
  | nil =>
    obtain ⟨w, hw, -⟩ := h
    cases hw
  | cons w ws ih =>
    rw [storeAll_cons]
    by_cases hrest : ∃ w' ∈ ws, w'.Covers x
    · exact ih _ (fun w' hw' => hf w' (List.mem_cons_of_mem _ hw')) hrest
    · obtain ⟨w', hw', hcovers⟩ := h
      rw [storeAll_of_not_covered _ fun w'' hw'' hc => hrest ⟨w'', hw'', hc⟩]
      rcases List.mem_cons.mp hw' with rfl | hw'
      · rw [Piece.store_of_covers m hcovers]
        exact hf w' List.mem_cons_self x hcovers
      · exact absurd ⟨w', hw', hcovers⟩ hrest

end ByteMemory
