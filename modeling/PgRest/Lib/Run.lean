import Mathlib.Logic.Function.Basic

/-! Runs of a transition system that steps by labelled actions. A step that is not
enabled gives `none`. What holds at the start and is kept by every step holds in
every state of a run, also when only the runs whose steps meet a condition count. -/
namespace PgRest.Lib

variable {σ α : Type}

/-- The states that runs from `s` reach when each action `a`, taken in a state `t`,
meets `ok t a`. -/
inductive Run (step : σ → α → Option σ) (ok : σ → α → Prop) (s : σ) : σ → Prop
  | start : Run step ok s s
  | next {t t' : σ} {a : α} : Run step ok s t → ok t a → step t a = some t' → Run step ok s t'

variable {step : σ → α → Option σ} {ok : σ → α → Prop}

/-- The induction that every invariant is proved by. -/
theorem Run.invariant {P : σ → Prop} {s t : σ} (h : Run step ok s t) (start : P s)
    (next : ∀ u a u', P u → ok u a → step u a = some u' → P u') : P t := by
  induction h with
  | start => exact start
  | next _ hok hstep ih => exact next _ _ _ ih hok hstep

theorem Run.mono {ok' : σ → α → Prop} (hok : ∀ t a, ok t a → ok' t a) {s t : σ} (h : Run step ok s t) :
    Run step ok' s t := by
  induction h with
  | start => exact .start
  | next _ ha hstep ih => exact .next ih (hok _ _ ha) hstep

theorem Run.trans {s t u : σ} (h : Run step ok s t) (h' : Run step ok t u) : Run step ok s u := by
  induction h' with
  | start => exact h
  | next _ ha hstep ih => exact .next ih ha hstep

/-- Taking the actions of a list one after the other. -/
def runList (step : σ → α → Option σ) (s : σ) : List α → Option σ
  | [] => some s
  | a :: as => (step s a).bind fun t => runList step t as

/-- A run by a list of actions, each of which meets the condition where it is taken. -/
theorem Run.of_runList [∀ t a, Decidable (ok t a)] {s t u : σ} (h : Run step ok s t) {as : List α}
    (hr : runList (fun t a => if ok t a then step t a else none) t as = some u) : Run step ok s u := by
  induction as generalizing t with
  | nil =>
    cases hr
    exact h
  | cons a as ih =>
    obtain ⟨t', hstep, hrest⟩ := Option.bind_eq_some_iff.mp hr
    dsimp only at hstep
    split at hstep
    · next hok => exact ih (.next h hok hstep) hrest
    · cases hstep

end PgRest.Lib
