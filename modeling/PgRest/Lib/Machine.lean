import Mathlib.Data.List.Basic

/-! Machines that take one input after the other and give an output for each. What holds of every
turn of a run follows from what one turn keeps, and a machine that simulates another one gives the
same outputs. -/
namespace PgRest.Lib

variable {σ τ ι ο : Type}

/-- What one input does. -/
structure Turn (σ ι ο : Type) where
  before : σ
  input : ι
  output : ο
  after : σ

def turn (step : σ → ι → ο × σ) (s : σ) (i : ι) : Turn σ ι ο := ⟨s, i, (step s i).1, (step s i).2⟩

/-- The inputs of a list, one after the other. -/
def turns (step : σ → ι → ο × σ) (s : σ) : List ι → List (Turn σ ι ο)
  | [] => []
  | i :: is => turn step s i :: turns step (step s i).2 is

variable {step : σ → ι → ο × σ}

/-- Where a turn is as it should be exactly under a condition, and the invariant is kept under it, a run
is as it should be exactly when every turn meets the condition. -/
theorem turns_iff {P : σ → Prop} {ok : σ → ι → Prop} {Q : Turn σ ι ο → Prop}
    (hturn : ∀ s i, P s → (Q (turn step s i) ↔ ok s i)) (hnext : ∀ s i, P s → ok s i → P (step s i).2)
    {s : σ} (h : P s) (is : List ι) :
    (∀ t ∈ turns step s is, Q t) ↔ ∀ t ∈ turns step s is, ok t.before t.input := by
  induction is generalizing s with
  | nil => simp [turns]
  | cons i is ih =>
    rw [turns, List.forall_mem_cons, List.forall_mem_cons, hturn s i h]
    exact and_congr_right fun hok => ih (hnext s i h hok)

/-- The outputs are the same, and the states stay related, turn by turn. -/
theorem turns_simulate {step' : τ → ι → ο × τ} {R : σ → τ → Prop}
    (hstep : ∀ s t i, R s t → (step s i).1 = (step' t i).1 ∧ R (step s i).2 (step' t i).2) {s : σ} {t : τ}
    (h : R s t) (is : List ι) :
    List.Forall₂ (fun a b => a.output = b.output ∧ R a.after b.after) (turns step s is) (turns step' t is) := by
  induction is generalizing s t with
  | nil => exact .nil
  | cons i is ih => exact .cons (hstep s t i h) (ih (hstep s t i h).2)

end PgRest.Lib
