import Mathlib.Data.List.Basic

/-!
# Finite runs of a deterministic step system

A step system is a function `step : σ → ε → σ`. `run` iterates it over a list of events, `Along`
says that every step of a run meets a predicate on the state before the step and the event, and
`observed` runs a second component that watches the first. The rules below are the induction
principles for safety properties of whole runs.
-/

namespace StepSystem

variable {σ ε γ τ α : Type*} (step : σ → ε → σ)

def run (s : σ) : List ε → σ
  | [] => s
  | e :: es => run (step s e) es

@[simp] theorem run_nil (s : σ) : run step s [] = s := rfl

@[simp] theorem run_cons (s : σ) (e : ε) (es : List ε) :
    run step s (e :: es) = run step (step s e) es := rfl

theorem run_append (s : σ) (es es' : List ε) :
    run step s (es ++ es') = run step (run step s es) es' := by
  induction es generalizing s with
  | nil => rfl
  | cons e es ih => simp only [List.cons_append, run_cons, ih]

/-- `Along P s es`: every step of the run of `es` from `s` meets `P`. -/
def Along (P : σ → ε → Prop) (s : σ) : List ε → Prop
  | [] => True
  | e :: es => P s e ∧ Along P (step s e) es

instance decidableAlong (P : σ → ε → Prop) [∀ s e, Decidable (P s e)] :
    ∀ (s : σ) (es : List ε), Decidable (Along step P s es)
  | _, [] => isTrue trivial
  | s, e :: es => @instDecidableAnd _ _ _ (decidableAlong P (step s e) es)

variable {step}

@[simp] theorem along_nil (P : σ → ε → Prop) (s : σ) : Along step P s [] ↔ True := Iff.rfl

@[simp] theorem along_cons (P : σ → ε → Prop) (s : σ) (e : ε) (es : List ε) :
    Along step P s (e :: es) ↔ P s e ∧ Along step P (step s e) es := Iff.rfl

theorem along_append {P : σ → ε → Prop} (s : σ) (es es' : List ε) :
    Along step P s (es ++ es') ↔ Along step P s es ∧ Along step P (run step s es) es' := by
  induction es generalizing s with
  | nil => exact (and_iff_right trivial).symm
  | cons e es ih => rw [List.cons_append, along_cons, along_cons, ih, run_cons, and_assoc]

/-- The invariant rule: what one step preserves, a run preserves. -/
theorem run_invariant (I : σ → Prop) (hstep : ∀ s e, I s → I (step s e)) {s : σ} (hs : I s)
    (es : List ε) : I (run step s es) := by
  induction es generalizing s with
  | nil => exact hs
  | cons e es ih => exact ih (hstep s e hs)

/-- The invariant rule for a given list of events. -/
theorem run_invariant_of_mem (I : σ → Prop) {es : List ε}
    (hstep : ∀ s, ∀ e ∈ es, I s → I (step s e)) {s : σ} (hs : I s) : I (run step s es) := by
  induction es generalizing s with
  | nil => exact hs
  | cons e es ih =>
    exact ih (fun s e' he' => hstep s e' (List.mem_cons_of_mem _ he')) (hstep s e List.mem_cons_self hs)

/-- Safety of every step of a run, from an invariant kept under the same side condition. -/
theorem along_of_invariant (I : σ → Prop) {C P : σ → ε → Prop}
    (hstep : ∀ s e, I s → C s e → I (step s e)) (hsafe : ∀ s e, I s → C s e → P s e)
    {s : σ} (hs : I s) {es : List ε} (hes : Along step C s es) : Along step P s es := by
  induction es generalizing s with
  | nil => trivial
  | cons e es ih => exact ⟨hsafe s e hs hes.1, ih (hstep s e hs hes.1) hes.2⟩

theorem along_of_run_invariant (I : σ → Prop) {P : σ → ε → Prop}
    (hstep : ∀ s e, I s → I (step s e)) (hsafe : ∀ s e, I s → P s e) {s : σ} (hs : I s)
    (es : List ε) : Along step P s es := by
  induction es generalizing s with
  | nil => trivial
  | cons e es ih => exact ⟨hsafe s e hs, ih (hstep s e hs)⟩

theorem along_of_invariant_of_mem (I : σ → Prop) {C : ε → Prop} {P : σ → ε → Prop}
    (hstep : ∀ s e, I s → C e → I (step s e)) (hsafe : ∀ s e, I s → C e → P s e)
    {s : σ} (hs : I s) {es : List ε} (hes : ∀ e ∈ es, C e) : Along step P s es := by
  induction es generalizing s with
  | nil => trivial
  | cons e es ih =>
    have he : C e := hes e List.mem_cons_self
    exact ⟨hsafe s e hs he, ih (hstep s e hs he) fun e' h => hes e' (List.mem_cons_of_mem _ h)⟩

/-- Two step properties that agree wherever an invariant holds agree along every run; the invariant
has to survive only the steps that meet them. -/
theorem along_iff_of_invariant (I : σ → Prop) {P Q : σ → ε → Prop}
    (hstep : ∀ s e, I s → P s e → I (step s e)) (hiff : ∀ s e, I s → (P s e ↔ Q s e))
    {s : σ} (hs : I s) (es : List ε) : Along step P s es ↔ Along step Q s es := by
  induction es generalizing s with
  | nil => rfl
  | cons e es ih =>
    rw [along_cons, along_cons, ← hiff s e hs]
    exact and_congr_right fun hP => ih (hstep s e hs hP)

/-- A property of all states of a run, read along its steps. -/
theorem forall_take_iff_along (Q : σ → Prop) (s : σ) (es : List ε) :
    (∀ n, Q (run step s (es.take n))) ↔ Q s ∧ Along step (fun s e => Q (step s e)) s es := by
  induction es generalizing s with
  | nil => simp
  | cons e es ih =>
    rw [along_cons, ← ih]
    constructor
    · exact fun h => ⟨h 0, fun n => h (n + 1)⟩
    · rintro ⟨hs, h⟩ n
      cases n with
      | zero => exact hs
      | succ n => exact h n

/-- A functional simulation commutes with runs. -/
theorem run_simulation {δ : Type*} (step' : τ → δ → τ) (f : σ → τ) (g : ε → δ) (I : σ → Prop)
    (hstep : ∀ s e, I s → I (step s e)) (hsim : ∀ s e, I s → f (step s e) = step' (f s) (g e))
    {s : σ} (hs : I s) (es : List ε) : f (run step s es) = run step' (f s) (es.map g) := by
  induction es generalizing s with
  | nil => rfl
  | cons e es ih => rw [run_cons, ih (hstep s e hs), hsim s e hs, List.map_cons, run_cons]

/-- Only the events `g` lets through matter to a run: the others leave the state alone. -/
theorem run_filterMap {δ : Type*} (step' : σ → δ → σ) (g : ε → Option δ)
    (hsilent : ∀ s e, g e = none → step s e = s)
    (hvisible : ∀ s e d, g e = some d → step s e = step' s d) (s : σ) (es : List ε) :
    run step s es = run step' s (es.filterMap g) := by
  induction es generalizing s with
  | nil => rfl
  | cons e es ih =>
    cases hg : g e with
    | none => rw [run_cons, List.filterMap_cons_none hg, hsilent s e hg, ih]
    | some d => rw [run_cons, List.filterMap_cons_some hg, run_cons, hvisible s e d hg, ih]

section Outputs

/-- What the steps of a run put out, in order. -/
def outputs (step : σ → ε → σ) (out : σ → ε → List α) (s : σ) : List ε → List α
  | [] => []
  | e :: es => out s e ++ outputs step out (step s e) es

variable {out : σ → ε → List α}

@[simp] theorem outputs_nil (s : σ) : outputs step out s [] = [] := rfl

@[simp] theorem outputs_cons (s : σ) (e : ε) (es : List ε) :
    outputs step out s (e :: es) = out s e ++ outputs step out (step s e) es := rfl

theorem outputs_append (s : σ) (es es' : List ε) : outputs step out s (es ++ es') =
    outputs step out s es ++ outputs step out (run step s es) es' := by
  induction es generalizing s with
  | nil => rfl
  | cons e es ih => simp only [List.cons_append, outputs_cons, run_cons, ih, List.append_assoc]

theorem outputs_filterMap {δ : Type*} (step' : σ → δ → σ) (out' : σ → δ → List α)
    (g : ε → Option δ) (hsilent : ∀ s e, g e = none → step s e = s ∧ out s e = [])
    (hvisible : ∀ s e d, g e = some d → step s e = step' s d ∧ out s e = out' s d) (s : σ)
    (es : List ε) : outputs step out s es = outputs step' out' s (es.filterMap g) := by
  induction es generalizing s with
  | nil => rfl
  | cons e es ih =>
    cases hg : g e with
    | none =>
      obtain ⟨hs, ho⟩ := hsilent s e hg
      rw [outputs_cons, List.filterMap_cons_none hg, hs, ho, List.nil_append, ih]
    | some d =>
      obtain ⟨hs, ho⟩ := hvisible s e d hg
      rw [outputs_cons, List.filterMap_cons_some hg, outputs_cons, hs, ho, ih]

theorem outputs_simulation {step' : τ → ε → τ} {out' : τ → ε → List α} (f : σ → τ) (I : σ → Prop)
    (hstep : ∀ s e, I s → I (step s e)) (hsim : ∀ s e, I s → f (step s e) = step' (f s) e)
    (hout : ∀ s e, I s → out s e = out' (f s) e) {s : σ} (hs : I s) (es : List ε) :
    outputs step out s es = outputs step' out' (f s) es := by
  induction es generalizing s with
  | nil => rfl
  | cons e es ih =>
    rw [outputs_cons, outputs_cons, hout s e hs, ih (hstep s e hs), hsim s e hs]

/-- Two systems that put out the same wherever a relation holds that their steps keep. -/
theorem outputs_bisimulation {step' : τ → ε → τ} {out' : τ → ε → List α} (R : σ → τ → Prop)
    (hstep : ∀ s t e, R s t → R (step s e) (step' t e)) (hout : ∀ s t e, R s t → out s e = out' t e)
    {s : σ} {t : τ} (h : R s t) (es : List ε) :
    outputs step out s es = outputs step' out' t es ∧ R (run step s es) (run step' t es) := by
  induction es generalizing s t with
  | nil => exact ⟨rfl, h⟩
  | cons e es ih =>
    obtain ⟨hrest, hend⟩ := ih (hstep s t e h)
    refine ⟨?_, hend⟩
    rw [outputs_cons, outputs_cons, hout s t e h, hrest]

/-- No sequence of events tells the two states apart. -/
def SameOutputs (step : σ → ε → σ) (out : σ → ε → List α) (s t : σ) : Prop :=
  ∀ es, outputs step out s es = outputs step out t es

theorem SameOutputs.out_eq {s t : σ} (h : SameOutputs step out s t) (e : ε) : out s e = out t e := by
  have he := h [e]
  simp only [outputs_cons, outputs_nil, List.append_nil] at he
  exact he

theorem SameOutputs.after {s t : σ} (h : SameOutputs step out s t) (e : ε) :
    SameOutputs step out (step s e) (step t e) := by
  intro es
  have hes := h (e :: es)
  rw [outputs_cons, outputs_cons, h.out_eq e] at hes
  exact List.append_cancel_left hes

end Outputs

section Log

variable (log : σ → List α)

/-- Every entry a run adds to an append-only log is one that some step was allowed to add. -/
theorem log_forall (I : σ → Prop) (Q : α → Prop) (hstep : ∀ s e, I s → I (step s e))
    (hlog : ∀ s e, I s → ∃ new, log (step s e) = log s ++ new ∧ ∀ x ∈ new, Q x)
    {s : σ} (hs : I s) (h₀ : ∀ x ∈ log s, Q x) (es : List ε) : ∀ x ∈ log (run step s es), Q x := by
  refine (run_invariant (fun s => I s ∧ ∀ x ∈ log s, Q x) ?_ ⟨hs, h₀⟩ es).2
  rintro s e ⟨hI, hQ⟩
  refine ⟨hstep s e hI, fun x hx => ?_⟩
  obtain ⟨new, heq, hnew⟩ := hlog s e hI
  rw [heq, List.mem_append] at hx
  exact hx.elim (hQ x) (hnew x)

/-- What every step reads off the entries it adds, a run reads off its log. -/
theorem log_replay (view : σ → τ) (apply : τ → α → τ) (t : τ) (I : σ → Prop) (new : σ → ε → List α)
    (hstep : ∀ s e, I s → I (step s e)) (hlog : ∀ s e, I s → log (step s e) = log s ++ new s e)
    (hview : ∀ s e, I s → view (step s e) = (new s e).foldl apply (view s))
    {s : σ} (hs : I s) (h₀ : view s = (log s).foldl apply t) (es : List ε) :
    view (run step s es) = (log (run step s es)).foldl apply t := by
  refine (run_invariant (fun s => I s ∧ view s = (log s).foldl apply t) ?_ ⟨hs, h₀⟩ es).2
  rintro s e ⟨hI, heq⟩
  refine ⟨hstep s e hI, ?_⟩
  rw [hview s e hI, heq, hlog s e hI, List.foldl_append]

/-- All entries of an append-only log satisfy `Q` exactly when those of the first state do and
every step adds only entries that do. -/
theorem log_forall_iff (I : σ → Prop) (Q : α → Prop) (new : σ → ε → List α)
    (hstep : ∀ s e, I s → I (step s e)) (hlog : ∀ s e, I s → log (step s e) = log s ++ new s e)
    {s : σ} (hs : I s) (es : List ε) :
    (∀ x ∈ log (run step s es), Q x) ↔
      (∀ x ∈ log s, Q x) ∧ Along step (fun s e => ∀ x ∈ new s e, Q x) s es := by
  induction es generalizing s with
  | nil => simp
  | cons e es ih =>
    rw [run_cons, ih (hstep s e hs), hlog s e hs, along_cons]
    simp only [List.mem_append, or_imp, forall_and, and_assoc]

end Log

section Totals

def total (step : σ → ε → σ) (w : σ → ε → ℕ) (s : σ) : List ε → ℕ
  | [] => 0
  | e :: es => w s e + total step w (step s e) es

@[simp] theorem total_nil (w : σ → ε → ℕ) (s : σ) : total step w s [] = 0 := rfl

@[simp] theorem total_cons (w : σ → ε → ℕ) (s : σ) (e : ε) (es : List ε) :
    total step w s (e :: es) = w s e + total step w (step s e) es := rfl

/-- The credit rule: what every step spends out of its credit and what it is paid, a run spends out
of the credit it starts with and what it is paid. -/
theorem total_le_of_credit (credit : σ → ℕ) (w w' : σ → ε → ℕ) (I : σ → Prop)
    (hstep : ∀ s e, I s → I (step s e))
    (hcredit : ∀ s e, I s → w s e + credit (step s e) ≤ credit s + w' s e)
    {s : σ} (hs : I s) (es : List ε) :
    total step w s es + credit (run step s es) ≤ credit s + total step w' s es := by
  induction es generalizing s with
  | nil => exact Nat.le_of_eq (Nat.add_comm _ _)
  | cons e es ih =>
    have hfirst := hcredit s e hs
    have hrest := ih (hstep s e hs)
    rw [total_cons, total_cons, run_cons]
    omega

theorem countP_log (log : σ → List α) (p : α → Bool) (I : σ → Prop) (new : σ → ε → List α)
    (hstep : ∀ s e, I s → I (step s e)) (hlog : ∀ s e, I s → log (step s e) = log s ++ new s e)
    {s : σ} (hs : I s) (es : List ε) : (log (run step s es)).countP p =
      (log s).countP p + total step (fun s e => (new s e).countP p) s es := by
  induction es generalizing s with
  | nil => rfl
  | cons e es ih =>
    rw [run_cons, ih (hstep s e hs), hlog s e hs, List.countP_append, total_cons, Nat.add_assoc]

end Totals

section Observer

variable (step) (observe : γ → σ → ε → γ)

/-- The system together with an observer that sees the state before each step and the event. -/
def observed (p : σ × γ) (e : ε) : σ × γ := (step p.1 e, observe p.2 p.1 e)

@[simp] theorem observed_fst (p : σ × γ) (e : ε) : (observed step observe p e).1 = step p.1 e := rfl

@[simp] theorem observed_snd (p : σ × γ) (e : ε) :
    (observed step observe p e).2 = observe p.2 p.1 e := rfl

theorem run_observed_fst (p : σ × γ) (es : List ε) :
    (run (observed step observe) p es).1 = run step p.1 es := by
  induction es generalizing p with
  | nil => rfl
  | cons e es ih => rw [run_cons, ih, observed_fst, run_cons]

/-- An observer of the events alone runs by itself. -/
theorem run_observed_snd (watch : γ → ε → γ) (p : σ × γ) (es : List ε) :
    (run (observed step fun w _ e => watch w e) p es).2 = run watch p.2 es := by
  induction es generalizing p with
  | nil => rfl
  | cons e es ih => rw [run_cons, ih, observed_snd, run_cons]

theorem along_observed_fst {P : σ → ε → Prop} (p : σ × γ) (es : List ε) :
    Along (observed step observe) (fun p e => P p.1 e) p es ↔ Along step P p.1 es := by
  induction es generalizing p with
  | nil => rfl
  | cons e es ih => rw [along_cons, along_cons, ih, observed_fst]

end Observer

end StepSystem
