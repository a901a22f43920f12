import Mathlib.Data.List.TakeWhile

/-! Scanners that read a list one element at a time, keep a state between the parts of
the list they are given, and write an output. Where the list is cut makes no
difference: scanning two parts one after the other is scanning both at once. -/
namespace PgRest.Lib

/-- What a scanner does with one element. -/
inductive Move (σ β : Type) where
  /-- goes on, with what it writes -/
  | next (s : σ) (out : List β)
  /-- rejects the element -/
  | fail
  /-- is done with the element -/
  | done
deriving DecidableEq, Repr

/-- How a scan ends, with what has been written and what has not been read. -/
inductive Scanned (σ α β : Type) where
  | more (s : σ) (out : List β)
  | fail (out : List β) (rest : List α)
  | done (out : List β) (rest : List α)
deriving DecidableEq, Repr

variable {σ α β : Type}

/-- The scan has written `out` before. -/
def Scanned.after (out : List β) : Scanned σ α β → Scanned σ α β
  | .more s o => .more s (out ++ o)
  | .fail o rest => .fail (out ++ o) rest
  | .done o rest => .done (out ++ o) rest

/-- What the scan has written. -/
def Scanned.out : Scanned σ α β → List β
  | .more _ o => o
  | .fail o _ => o
  | .done o _ => o

/-- What the scan has not read. -/
def Scanned.rest : Scanned σ α β → List α
  | .more _ _ => []
  | .fail _ r => r
  | .done _ r => r

/-- An element has been rejected. -/
def Scanned.isFail : Scanned σ α β → Bool
  | .fail _ _ => true
  | _ => false

@[simp] theorem Scanned.after_nil (r : Scanned σ α β) : r.after [] = r := by cases r <;> rfl

theorem Scanned.after_after (a b : List β) (r : Scanned σ α β) :
    (r.after b).after a = r.after (a ++ b) := by
  cases r <;> simp [Scanned.after]

@[simp] theorem Scanned.out_after (a : List β) (r : Scanned σ α β) : (r.after a).out = a ++ r.out := by
  cases r <;> rfl

@[simp] theorem Scanned.rest_after (a : List β) (r : Scanned σ α β) : (r.after a).rest = r.rest := by
  cases r <;> rfl

theorem Scanned.after_eq_done {a out : List β} {rest : List α} {r : Scanned σ α β}
    (h : r.after a = .done out rest) : ∃ o, r = .done o rest ∧ out = a ++ o := by
  cases r with
  | done o r =>
    cases h
    exact ⟨o, rfl, rfl⟩
  | more s o => cases h
  | fail o r => cases h

variable (move : σ → α → Move σ β)

def scan (s : σ) : List α → Scanned σ α β
  | [] => .more s []
  | a :: l =>
    match move s a with
    | .next s out => (scan s l).after out
    | .fail => .fail [] (a :: l)
    | .done => .done [] l

/-- Where a scan ends for good, more input changes nothing but what is left. -/
def Scanned.append (l : List α) : Scanned σ α β → Scanned σ α β
  | .more s out => (scan move s l).after out
  | .fail out rest => .fail out (rest ++ l)
  | .done out rest => .done out (rest ++ l)

theorem Scanned.append_after (out : List β) (l : List α) (r : Scanned σ α β) :
    (r.after out).append move l = (r.append move l).after out := by
  cases r with
  | more s o => exact (Scanned.after_after out o _).symm
  | fail o rest => rfl
  | done o rest => rfl

theorem scan_append (s : σ) (l l' : List α) : scan move s (l ++ l') = (scan move s l).append move l' := by
  induction l generalizing s with
  | nil => simp [scan, Scanned.append]
  | cons a l ih =>
    simp only [List.cons_append, scan]
    cases move s a with
    | next s' out => simp only [ih, Scanned.append_after]
    | fail => rfl
    | done => rfl

/-- A part of a list that scans to its end: the scan is done within the part or wants more. -/
theorem scan_prefix {s : σ} {l l' rest : List α} {out : List β}
    (h : scan move s (l ++ l') = .done out rest) :
    (∃ rest', scan move s l = .done out rest' ∧ rest = rest' ++ l') ∨
      ∃ s' o o', scan move s l = .more s' o ∧ scan move s' l' = .done o' rest ∧ out = o ++ o' := by
  rw [scan_append] at h
  cases hl : scan move s l with
  | more s' o =>
    rw [hl, Scanned.append] at h
    cases hl' : scan move s' l' with
    | done o' r =>
      rw [hl', Scanned.after] at h
      cases h
      exact Or.inr ⟨s', o, o', rfl, hl', rfl⟩
    | more => simp [hl', Scanned.after] at h
    | fail => simp [hl', Scanned.after] at h
  | fail o r => simp [hl, Scanned.append] at h
  | done o r =>
    rw [hl, Scanned.append] at h
    cases h
    exact Or.inl ⟨r, rfl, rfl⟩

/-- Where a move writes at most one element, a scan writes no more than it reads. -/
theorem scan_length (hmove : ∀ s a s' out, move s a = .next s' out → out.length ≤ 1) (s : σ) (l : List α) :
    (scan move s l).out.length + (scan move s l).rest.length ≤ l.length := by
  induction l generalizing s with
  | nil => simp [scan, Scanned.out, Scanned.rest]
  | cons a l ih =>
    rw [scan]
    cases h : move s a with
    | next s' out =>
      have hout := hmove s a s' out h
      have hl := ih s'
      simp only [Scanned.out_after, Scanned.rest_after, List.length_append, List.length_cons]
      omega
    | fail => simp [Scanned.out, Scanned.rest]
    | done => simp [Scanned.out, Scanned.rest]

/-! ### Spans -/

section Span
variable {p : α → Bool} {l l₁ l₂ : List α}

theorem head_dropWhile (p : α → Bool) (l : List α) : (l.dropWhile p).head?.any p = false := by
  have h := List.head?_dropWhile_not p l
  cases hl : (l.dropWhile p).head? with
  | none => rfl
  | some a =>
    rw [hl] at h
    exact h

/-- A list is cut in two where a predicate fails for the first time. -/
theorem span_iff : (∀ a ∈ l₁, p a = true) ∧ l₂.head?.any p = false ∧ l = l₁ ++ l₂ ↔
    l₁ = l.takeWhile p ∧ l₂ = l.dropWhile p := by
  constructor
  · rintro ⟨hall, hstop, rfl⟩
    have htake : l₂.takeWhile p = [] ∧ l₂.dropWhile p = l₂ := by
      cases l₂ with
      | nil => exact ⟨rfl, rfl⟩
      | cons a l₂ =>
        have ha : ¬p a = true := Bool.eq_false_iff.mp hstop
        exact ⟨List.takeWhile_cons_of_neg ha, List.dropWhile_cons_of_neg ha⟩
    rw [List.takeWhile_append_of_pos hall, List.dropWhile_append_of_pos hall, htake.1, htake.2]
    exact ⟨(List.append_nil l₁).symm, rfl⟩
  · rintro ⟨rfl, rfl⟩
    exact ⟨fun a ha => List.mem_takeWhile_imp ha, head_dropWhile p l, List.takeWhile_append_dropWhile.symm⟩

end Span

end PgRest.Lib
