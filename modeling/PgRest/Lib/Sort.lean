import Mathlib.Data.List.Perm.Basic

/-! Insertion sort by a comparison that is not promised to be an order. The part sorted so far
is kept last first, which is the way the next entry walks through it. The comparison is only
ever asked about an earlier entry against a later one, so what it says of a pair the other way
round does not matter. -/
namespace PgRest.Lib

variable {α : Type} (cmp : α → α → Int)

/-- The inner loop: the entries that compare greater than `x` move up by one. -/
def walkLeft (x : α) : List α → List α
  | [] => [x]
  | y :: ys => if cmp y x > 0 then y :: walkLeft x ys else x :: y :: ys

/-- The outer loop, from what is sorted already. -/
def sortOnto : List α → List α → List α
  | done, [] => done.reverse
  | done, x :: xs => sortOnto (walkLeft cmp x done) xs

def insertionSort (l : List α) : List α := sortOnto cmp [] l

theorem walkLeft_perm (x : α) (done : List α) : (walkLeft cmp x done).Perm (x :: done) := by
  induction done with
  | nil => exact .refl _
  | cons y ys ih =>
    rw [walkLeft]
    split
    · exact (ih.cons y).trans (.swap x y ys)
    · exact .refl _

theorem sortOnto_perm (done l : List α) : (sortOnto cmp done l).Perm (done ++ l) := by
  induction l generalizing done with
  | nil =>
    rw [sortOnto, List.append_nil]
    exact List.reverse_perm done
  | cons x xs ih =>
    have hwalk := (walkLeft_perm cmp x done).append_right xs
    exact (ih _).trans (hwalk.trans List.perm_middle.symm)

theorem insertionSort_perm (l : List α) : (insertionSort cmp l).Perm l := sortOnto_perm cmp [] l

variable (rank : α → Nat)

/-- On an earlier entry `y` and a later entry `x` the comparison goes by rank. -/
def ByRank (y x : α) : Prop := 0 < cmp y x ↔ rank x < rank y

variable {cmp rank}

theorem walkLeft_sorted {x : α} {done : List α} (hdone : done.Pairwise fun y z => rank z ≤ rank y)
    (hx : ∀ y ∈ done, ByRank cmp rank y x) :
    (walkLeft cmp x done).Pairwise fun y z => rank z ≤ rank y := by
  induction done with
  | nil => exact List.pairwise_singleton _ x
  | cons y ys ih =>
    obtain ⟨hy, hys⟩ := List.pairwise_cons.mp hdone
    have hyx : 0 < cmp y x ↔ rank x < rank y := hx y List.mem_cons_self
    rw [walkLeft]
    split
    · next hgt =>
      refine List.pairwise_cons.mpr ⟨fun z hz => ?_, ih hys fun z hz => hx z (List.mem_cons_of_mem y hz)⟩
      rcases List.mem_cons.mp ((walkLeft_perm cmp x ys).mem_iff.mp hz) with rfl | hz
      · exact Nat.le_of_lt (hyx.mp hgt)
      · exact hy z hz
    · next hle =>
      have hrank : rank y ≤ rank x := Nat.not_lt.mp fun hlt => hle (hyx.mpr hlt)
      refine List.pairwise_cons.mpr ⟨fun z hz => ?_, hdone⟩
      rcases List.mem_cons.mp hz with rfl | hz
      · exact hrank
      · exact Nat.le_trans (hy z hz) hrank

theorem sortOnto_sorted {done l : List α} (hdone : done.Pairwise fun y z => rank z ≤ rank y)
    (hl : l.Pairwise (ByRank cmp rank)) (hsplit : ∀ y ∈ done, ∀ x ∈ l, ByRank cmp rank y x) :
    (sortOnto cmp done l).Pairwise fun y z => rank y ≤ rank z := by
  induction l generalizing done with
  | nil => exact List.pairwise_reverse.mpr hdone
  | cons x xs ih =>
    obtain ⟨hx, hxs⟩ := List.pairwise_cons.mp hl
    apply ih (walkLeft_sorted hdone fun y hy => hsplit y hy x List.mem_cons_self) hxs
    intro y hy z hz
    rcases List.mem_cons.mp ((walkLeft_perm cmp x done).mem_iff.mp hy) with rfl | hy
    · exact hx z hz
    · exact hsplit y hy z (List.mem_cons_of_mem x hz)

/-- **The result is in the order of the ranks.** -/
theorem insertionSort_sorted {l : List α} (hl : l.Pairwise (ByRank cmp rank)) :
    (insertionSort cmp l).Pairwise fun y z => rank y ≤ rank z :=
  sortOnto_sorted .nil hl (by simp)

end PgRest.Lib
