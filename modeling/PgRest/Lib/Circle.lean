import Mathlib.Data.List.Basic
import Mathlib.Data.Nat.ModEq

/-! A list laid out in a circle of places: it starts at one of them, and behind the last place comes
the first. What the places hold that it does not take up is anything. -/
namespace PgRest.Lib

variable {α : Type} {places : List (Option α)} {head : Nat} {l : List α} {v : α}

/-- The list is laid out from the place `head` on. -/
structure Circle (places : List (Option α)) (head : Nat) (l : List α) : Prop where
  fits : l.length ≤ places.length
  at_place : ∀ (j : Nat) v, l[j]? = some v → places[(head + j) % places.length]? = some (some v)

theorem circle_inj {n h j k : Nat} (hj : j < n) (hk : k < n) (he : (h + j) % n = (h + k) % n) : j = k := by
  have hmod : j ≡ k [MOD n] := Nat.ModEq.add_left_cancel' h he
  rwa [Nat.ModEq, Nat.mod_eq_of_lt hj, Nat.mod_eq_of_lt hk] at hmod

theorem Circle.nil (places : List (Option α)) (head : Nat) : Circle places head [] where
  fits := Nat.zero_le _
  at_place j v h := by simp at h

theorem Circle.front (h : Circle places head (v :: l)) : places[head % places.length]? = some (some v) :=
  h.at_place 0 v rfl

theorem Circle.pop (h : Circle places head (v :: l)) : Circle places ((head + 1) % places.length) l where
  fits := Nat.le_of_succ_le h.fits
  at_place j w hw := by
    have hplace := h.at_place (j + 1) w hw
    rwa [Nat.mod_add_mod, Nat.add_assoc, Nat.add_comm 1]

theorem Circle.push (h : Circle places head l) (hroom : l.length < places.length) (v : α) :
    Circle (places.set ((head + l.length) % places.length) (some v)) head (l ++ [v]) where
  fits := by simpa using Nat.succ_le_of_lt hroom
  at_place j w hw := by
    rw [List.length_set]
    rcases Nat.lt_trichotomy j l.length with hj | rfl | hj
    · rw [List.getElem?_append_left hj] at hw
      have hne : (head + l.length) % places.length ≠ (head + j) % places.length := fun he =>
        Nat.ne_of_gt hj (circle_inj hroom (Nat.lt_trans hj hroom) he)
      rw [List.getElem?_set_ne hne]
      exact h.at_place j w hw
    · rw [List.getElem?_concat_length] at hw
      cases hw
      exact List.getElem?_set_self (Nat.mod_lt _ (Nat.lt_of_le_of_lt (Nat.zero_le _) hroom))
    · rw [List.getElem?_eq_none (by simpa using Nat.succ_le_of_lt hj)] at hw
      cases hw

end PgRest.Lib
