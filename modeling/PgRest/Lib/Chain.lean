import Mathlib.Data.List.Basic
import Mathlib.Data.List.Nodup
import Mathlib.Logic.Function.Basic

/-! Chains in a memory. A link's `next` is `some none` where it is NULL, and `none` where it has not been
written: nothing can be followed there. -/
namespace PgRest.Lib

variable {κ : Type} {next next' : κ → Option (Option κ)} {p q r : Option κ} {a : κ} {l m : List κ}

/-- Following `next` from `p`, one passes the links of the list and comes to `q`. -/
def Along (next : κ → Option (Option κ)) : Option κ → List κ → Option κ → Prop
  | p, [], q => p = q
  | p, a :: l, q => p = some a ∧ ∃ r, next a = some r ∧ Along next r l q

/-- The list is the NULL-terminated chain that starts at `p`. -/
def Chained (next : κ → Option (Option κ)) (p : Option κ) (l : List κ) : Prop := Along next p l none

/-- The link is met when `next` is followed from `p`. -/
def OnChain (next : κ → Option (Option κ)) (p : Option κ) (a : κ) : Prop := ∃ l, Along next p l (some a)

@[simp] theorem along_nil : Along next p [] q ↔ p = q := Iff.rfl

theorem along_cons : Along next p (a :: l) q ↔ p = some a ∧ ∃ r, next a = some r ∧ Along next r l q := Iff.rfl

theorem along_append : Along next p (l ++ m) q ↔ ∃ r, Along next p l r ∧ Along next r m q := by
  induction l generalizing p with
  | nil => simp
  | cons a l ih =>
    rw [List.cons_append, along_cons]
    constructor
    · rintro ⟨rfl, r, ha, h⟩
      obtain ⟨s, hl, hm⟩ := ih.mp h
      exact ⟨s, ⟨rfl, r, ha, hl⟩, hm⟩
    · rintro ⟨s, ⟨rfl, r, ha, hl⟩, hm⟩
      exact ⟨rfl, r, ha, ih.mpr ⟨s, hl, hm⟩⟩

/-- The last link of a way holds what the way comes to. -/
theorem along_concat : Along next p (l ++ [a]) q ↔ Along next p l (some a) ∧ next a = some q := by
  rw [along_append]
  constructor
  · rintro ⟨r, hl, rfl, s, ha, rfl⟩
    exact ⟨hl, ha⟩
  · rintro ⟨hl, ha⟩
    exact ⟨some a, hl, rfl, q, ha, rfl⟩

/-- Only the links that are passed are read. -/
theorem Along.congr (h : Along next p l q) (hsame : ∀ a ∈ l, next' a = next a) : Along next' p l q := by
  induction l generalizing p with
  | nil => exact h
  | cons a l ih =>
    obtain ⟨rfl, r, ha, h⟩ := h
    exact ⟨rfl, r, (hsame a List.mem_cons_self).trans ha, ih h fun b hb => hsame b (List.mem_cons_of_mem _ hb)⟩

theorem Along.written (h : Along next p l q) : ∀ a ∈ l, next a ≠ none := by
  induction l generalizing p with
  | nil => exact fun a ha => absurd ha List.not_mem_nil
  | cons b l ih =>
    obtain ⟨rfl, r, hb, h⟩ := h
    intro a ha
    rcases List.mem_cons.mp ha with rfl | ha
    · simp [hb]
    · exact ih h a ha

/-- A chain begins with every way that starts where it does. -/
theorem Chained.behind (h : Chained next p m) (hl : Along next p l q) : ∃ rest, m = l ++ rest ∧ Chained next q rest := by
  induction l generalizing p m with
  | nil =>
    cases hl
    exact ⟨m, rfl, h⟩
  | cons a l ih =>
    obtain ⟨rfl, r, ha, hl⟩ := hl
    cases m with
    | nil => cases h
    | cons b m =>
      obtain ⟨hb, s, hs, h⟩ := h
      cases hb
      obtain rfl : r = s := Option.some.inj (ha.symm.trans hs)
      obtain ⟨rest, rfl, hrest⟩ := ih h hl
      exact ⟨rest, rfl, hrest⟩

theorem Chained.unique (hl : Chained next p l) (hm : Chained next p m) : l = m := by
  obtain ⟨rest, rfl, hrest⟩ := hm.behind hl
  cases rest with
  | nil => exact (List.append_nil l).symm
  | cons b rest => cases hrest.1

/-- From each of its links on a chain is a chain. -/
theorem Chained.onward (h : Chained next p (l ++ a :: m)) : Chained next (some a) (a :: m) := by
  obtain ⟨r, -, hm⟩ := along_append.mp h
  obtain rfl := hm.1
  exact hm

theorem Chained.nodup (h : Chained next p l) : l.Nodup := by
  induction l generalizing p with
  | nil => exact List.nodup_nil
  | cons a l ih =>
    obtain ⟨-, r, -, hl⟩ := id h
    refine List.nodup_cons.mpr ⟨fun ha => ?_, ih hl⟩
    obtain ⟨s, t, rfl⟩ := List.append_of_mem ha
    -- the chain would be the same from the first `a` and from the second
    have hfirst : Chained next (some a) (a :: (s ++ a :: t)) := Chained.onward (l := []) h
    have hsecond : Chained next (some a) (a :: t) := Chained.onward (l := a :: s) h
    have hlen := congrArg List.length (hfirst.unique hsecond)
    simp only [List.length_cons, List.length_append] at hlen
    omega

/-- A way that comes back to one of its links comes to no end. -/
theorem Along.circle (h : Along next p l (some a)) (ha : a ∈ l) : ¬Chained next p m := by
  intro hm
  obtain ⟨rest, rfl, hrest⟩ := hm.behind h
  have hnodup := hm.nodup
  cases rest with
  | nil => cases hrest
  | cons b rest =>
    obtain rfl : a = b := Option.some.inj hrest.1
    exact List.disjoint_of_nodup_append hnodup ha List.mem_cons_self

/-- What is met on a chain is one of its links. -/
theorem Chained.mem (h : Chained next p l) (ha : OnChain next p a) : a ∈ l := by
  obtain ⟨m, hm⟩ := ha
  obtain ⟨rest, rfl, hrest⟩ := h.behind hm
  cases rest with
  | nil => cases hrest
  | cons b rest =>
    obtain rfl : a = b := Option.some.inj hrest.1
    exact List.mem_append_right _ List.mem_cons_self

theorem Along.onChain (h : Along next p l q) (ha : a ∈ l) : OnChain next p a := by
  obtain ⟨s, t, rfl⟩ := List.append_of_mem ha
  obtain ⟨r, hs, hr⟩ := along_append.mp h
  obtain rfl := hr.1
  exact ⟨s, hs⟩

variable [DecidableEq κ]

theorem Along.update (h : Along next p l q) (ha : a ∉ l) (x : Option (Option κ)) :
    Along (Function.update next a x) p l q :=
  h.congr fun _ hb => Function.update_of_ne (ne_of_mem_of_not_mem hb ha) _ _

end PgRest.Lib
