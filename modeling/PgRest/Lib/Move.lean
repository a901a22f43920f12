import Mathlib.Data.List.Basic
import Mathlib.Data.List.Perm.Basic

/-! Moving one element of a list to an earlier or later place. The other
elements keep their order, so a move is a permutation, and moving in two lists
of one length moves in the list of their pairs. -/
namespace PgRest.Lib

variable {α β : Type}

/-- The element at `pos` is taken out and put back at `new`. -/
def moveTo (l : List α) (pos new : Nat) : List α :=
  match l[pos]? with
  | none => l
  | some a => (l.eraseIdx pos).insertIdx new a

theorem moveTo_of_get {l : List α} {pos : Nat} {a : α} (h : l[pos]? = some a) (new : Nat) :
    moveTo l pos new = (l.eraseIdx pos).insertIdx new a := by
  simp [moveTo, h]

theorem moveTo_self (l : List α) (pos : Nat) : moveTo l pos pos = l := by
  unfold moveTo
  split
  · rfl
  · next a h =>
    obtain ⟨hlt, rfl⟩ := List.getElem?_eq_some_iff.mp h
    exact List.insertIdx_eraseIdx_getElem hlt

theorem moveTo_perm (l : List α) {pos new : Nat} (h : new ≤ pos) (hp : pos < l.length) :
    (moveTo l pos new).Perm l := by
  rw [moveTo_of_get (List.getElem?_eq_getElem hp)]
  have hlen : new ≤ (l.eraseIdx pos).length := by
    rw [List.length_eraseIdx_of_lt hp]
    omega
  exact (List.perm_insertIdx _ _ hlen).trans (List.getElem_cons_eraseIdx_perm hp)

theorem length_moveTo (l : List α) {pos new : Nat} (h : new ≤ pos) (hp : pos < l.length) :
    (moveTo l pos new).length = l.length :=
  (moveTo_perm l h hp).length_eq

/-- What stands at each place after a move towards the front. -/
theorem getElem?_moveTo (l : List α) {pos new : Nat} (h : new ≤ pos) (hp : pos < l.length) (k : Nat) :
    (moveTo l pos new)[k]? =
      if k = new then l[pos]? else if new < k ∧ k ≤ pos then l[k - 1]? else l[k]? := by
  rw [moveTo_of_get (List.getElem?_eq_getElem hp), List.getElem?_insertIdx]
  have hlen : (l.eraseIdx pos).length = l.length - 1 := List.length_eraseIdx_of_lt hp
  rcases Nat.lt_trichotomy k new with hk | rfl | hk
  · simp only [hk, if_true, Nat.ne_of_lt hk, if_false, List.getElem?_eraseIdx]
    rw [if_pos (by omega), if_neg (by omega)]
  · simp only [Nat.lt_irrefl, if_false, if_true, List.getElem?_eq_getElem hp]
    rw [if_pos (by omega)]
  · have hne : k ≠ new := by omega
    simp only [hne, if_false, Nat.not_lt.mpr (Nat.le_of_lt hk), List.getElem?_eraseIdx]
    by_cases hkp : k ≤ pos
    · rw [if_pos (by omega), if_pos ⟨hk, hkp⟩]
    · rw [if_neg (by omega), if_neg (by omega)]
      congr 1
      omega

/-- Swapping an element with its predecessor first moves it one place less far. -/
theorem moveTo_swap (l : List α) {pos new : Nat} {a b : α} (h : new ≤ pos)
    (ha : l[pos]? = some a) (hb : l[pos + 1]? = some b) :
    moveTo ((l.set pos b).set (pos + 1) a) pos new = moveTo l (pos + 1) new := by
  obtain ⟨hlt, hbv⟩ := List.getElem?_eq_some_iff.mp hb
  apply List.ext_getElem?
  intro k
  rw [getElem?_moveTo _ h (by simp only [List.length_set]; omega),
    getElem?_moveTo l (by omega) hlt]
  by_cases hk : k = new
  · simp only [hk, if_true]
    rw [List.getElem?_set_ne (by omega), List.getElem?_set_self (by omega), hb]
  · simp only [hk, if_false]
    by_cases hk1 : k = pos + 1
    · subst hk1
      rw [if_neg (by omega), if_pos (by omega), List.getElem?_set_self (by simp only [List.length_set]; exact hlt)]
      simp [ha]
    · by_cases hin : new < k ∧ k ≤ pos
      · rw [if_pos hin, if_pos (by omega), List.getElem?_set_ne (by omega), List.getElem?_set_ne (by omega)]
      · rw [if_neg hin, if_neg (by omega), List.getElem?_set_ne (by omega)]
        by_cases hkp : k = pos
        · omega
        · rw [List.getElem?_set_ne (by omega)]

theorem moveTo_set (l : List α) {pos new : Nat} (h : new ≤ pos) (hp : pos < l.length) (x : α) :
    moveTo (l.set pos x) pos new = (moveTo l pos new).set new x := by
  apply List.ext_getElem?
  intro k
  have hn : new < (moveTo l pos new).length := by
    rw [length_moveTo l h hp]
    omega
  rw [getElem?_moveTo _ h (by simpa using hp)]
  by_cases hk : k = new
  · subst hk
    rw [if_pos rfl, List.getElem?_set_self hp, List.getElem?_set_self hn]
  · rw [if_neg hk, List.getElem?_set_ne (Ne.symm hk), getElem?_moveTo l h hp, if_neg hk]
    by_cases hin : new < k ∧ k ≤ pos
    · rw [if_pos hin, if_pos hin, List.getElem?_set_ne (by omega)]
    · rw [if_neg hin, if_neg hin, List.getElem?_set_ne (by omega)]

/-- A move in two lists keeps what stands next to what. -/
theorem moveTo_pairs {l : List α} {m : List β} {pos new : Nat} (h : new ≤ pos) (hl : pos < l.length)
    (hm : pos < m.length) {k : Nat} {a : α} {b : β} (ha : (moveTo l pos new)[k]? = some a)
    (hb : (moveTo m pos new)[k]? = some b) : ∃ j : Nat, l[j]? = some a ∧ m[j]? = some b := by
  rw [getElem?_moveTo l h hl] at ha
  rw [getElem?_moveTo m h hm] at hb
  by_cases hk : k = new
  · rw [if_pos hk] at ha hb
    exact ⟨pos, ha, hb⟩
  · rw [if_neg hk] at ha hb
    by_cases hin : new < k ∧ k ≤ pos
    · rw [if_pos hin] at ha hb
      exact ⟨k - 1, ha, hb⟩
    · rw [if_neg hin] at ha hb
      exact ⟨k, ha, hb⟩

/-- What one element contributes more, the whole list contributes more. -/
theorem flatMap_set_perm {f : α → List β} {e : List β} {l : List α} {pos : Nat} {a a' : α}
    (h : l[pos]? = some a) (hf : (f a').Perm (e ++ f a)) :
    ((l.set pos a').flatMap f).Perm (e ++ l.flatMap f) := by
  induction l generalizing pos with
  | nil => simp at h
  | cons b l ih =>
    cases pos with
    | zero =>
      simp only [List.getElem?_cons_zero, Option.some.injEq] at h
      subst h
      simp only [List.set_cons_zero, List.flatMap_cons, ← List.append_assoc]
      exact hf.append_right _
    | succ pos =>
      simp only [List.getElem?_cons_succ] at h
      simp only [List.set_cons_succ, List.flatMap_cons]
      have hcomm : (f b ++ (e ++ l.flatMap f)).Perm (e ++ (f b ++ l.flatMap f)) := by
        simp only [← List.append_assoc]
        exact List.perm_append_comm.append_right _
      exact ((ih h).append_left _).trans hcomm

end PgRest.Lib
