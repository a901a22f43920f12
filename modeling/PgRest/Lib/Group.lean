import Mathlib.Data.List.Infix

/-! Lists whose members are grouped by an index: those of one index stand next to each other. A member is
put in front of its group, or at the end where there is none yet, and any member may be taken out. -/
namespace PgRest.Lib

variable {α ι : Type} [DecidableEq ι] (idx : α → ι)

/-- The members of one index. -/
def group (i : ι) (l : List α) : List α := l.filter fun a => idx a = i

def Grouped (l : List α) : Prop := ∀ i, group idx i l <:+: l

variable {idx} {i j : ι} {l u g v : List α} {x y : α}

theorem mem_group : x ∈ group idx i l ↔ x ∈ l ∧ idx x = i := by simp [group]

theorem group_append (u v : List α) : group idx i (u ++ v) = group idx i u ++ group idx i v := List.filter_append ..

theorem group_self (h : ∀ a ∈ l, idx a = i) : group idx i l = l := List.filter_eq_self.mpr (by simpa using h)

theorem group_none (h : ∀ a ∈ l, idx a ≠ i) : group idx i l = [] := List.filter_eq_nil_iff.mpr (by simpa using h)

theorem group_cons : group idx i (x :: l) = if idx x = i then x :: group idx i l else group idx i l := by
  simp [group, List.filter_cons]

theorem group_congr {idx' : α → ι} (h : ∀ a ∈ l, idx' a = idx a) (i : ι) : group idx' i l = group idx i l :=
  List.filter_congr fun a ha => by rw [h a ha]

theorem Grouped.congr {idx' : α → ι} (hl : Grouped idx l) (h : ∀ a ∈ l, idx' a = idx a) : Grouped idx' l :=
  fun i => group_congr h i ▸ hl i

/-- A stretch without some place is on one side of it. -/
theorem infix_side {s a b : List α} (h : s <:+: a ++ y :: b) (hy : y ∉ s) : s <:+: a ∨ s <:+: b := by
  obtain ⟨u, v, h⟩ := h
  rcases List.append_eq_append_iff.mp h with ⟨c, rfl, -⟩ | ⟨c, hc, hcv⟩
  · exact Or.inl ⟨u, c, rfl⟩
  cases c with
  | nil => exact Or.inl ⟨u, [], by simpa using hc⟩
  | cons z c =>
    rw [List.cons_append, List.cons.injEq] at hcv
    obtain ⟨rfl, rfl⟩ := hcv
    rcases List.append_eq_append_iff.mp hc with ⟨d, -, hd⟩ | ⟨d, -, hd⟩
    · exact absurd (hd ▸ List.mem_append_right _ List.mem_cons_self) hy
    cases d with
    | nil =>
      obtain rfl : y :: c = s := hd
      exact absurd List.mem_cons_self hy
    | cons w d =>
      rw [List.cons_append, List.cons.injEq] at hd
      exact Or.inr ⟨d, v, by rw [hd.2]⟩

/-- The group of an index, with no member of it on either side. -/
theorem Grouped.split (h : Grouped idx l) (i : ι) :
    ∃ u v, l = u ++ group idx i l ++ v ∧ (∀ a ∈ u, idx a ≠ i) ∧ ∀ a ∈ v, idx a ≠ i := by
  obtain ⟨u, v, huv⟩ := h i
  have hsame : group idx i u ++ group idx i l ++ group idx i v = group idx i l := by
    have hg := congrArg (group idx i) huv
    rwa [group_append, group_append, group_self fun a ha => (mem_group.mp ha).2] at hg
  have hlength := congrArg List.length hsame
  simp only [List.length_append] at hlength
  have hu : group idx i u = [] := List.eq_nil_of_length_eq_zero (by omega)
  have hv : group idx i v = [] := List.eq_nil_of_length_eq_zero (by omega)
  refine ⟨u, v, huv.symm, fun a ha hi => ?_, fun a ha hi => ?_⟩
  · exact List.not_mem_nil (hu ▸ mem_group.mpr ⟨ha, hi⟩)
  · exact List.not_mem_nil (hv ▸ mem_group.mpr ⟨ha, hi⟩)

/-- A place for another member of the group: in front of it, or at the end where there is none yet. -/
theorem Grouped.spot (h : Grouped idx l) (i : ι) :
    ∃ u v, l = u ++ group idx i l ++ v ∧ (∀ a ∈ u, idx a ≠ i) ∧ (∀ a ∈ v, idx a ≠ i) ∧ (group idx i l = [] → v = []) := by
  obtain ⟨u, v, hl, hu, hv⟩ := h.split i
  cases hg : group idx i l with
  | nil =>
    refine ⟨l, [], by simp, fun a ha hi => ?_, by simp, fun _ => rfl⟩
    exact List.not_mem_nil (hg ▸ mem_group.mpr ⟨ha, hi⟩)
  | cons x g => exact ⟨u, v, hg ▸ hl, hu, hv, nofun⟩

/-- The groups when a member is put in front of its own one. -/
theorem group_put (hg : ∀ a ∈ g, idx a = idx x) (hu : ∀ a ∈ u, idx a ≠ idx x) (hv : ∀ a ∈ v, idx a ≠ idx x) (j : ι) :
    group idx j (u ++ x :: g ++ v) = if idx x = j then x :: g else group idx j (u ++ g ++ v) := by
  simp only [group_append, group_cons]
  split
  · next hj =>
    subst hj
    rw [group_none hu, group_none hv, group_self hg]
    simp
  · rfl

theorem group_of_ends (hg : ∀ a ∈ g, idx a = i) (hu : ∀ a ∈ u, idx a ≠ i) (hv : ∀ a ∈ v, idx a ≠ i) :
    group idx i (u ++ g ++ v) = g := by
  rw [group_append, group_append, group_none hu, group_none hv, group_self hg]
  simp

theorem Grouped.put (h : Grouped idx (u ++ g ++ v)) (hg : ∀ a ∈ g, idx a = idx x) (hu : ∀ a ∈ u, idx a ≠ idx x)
    (hv : ∀ a ∈ v, idx a ≠ idx x) (hend : g = [] → v = []) : Grouped idx (u ++ x :: g ++ v) := by
  intro j
  rw [group_put hg hu hv]
  split
  · exact ⟨u, v, rfl⟩
  next hj =>
  cases g with
  | nil =>
    rw [hend rfl, List.append_nil] at h ⊢
    refine (h j).trans ?_
    rw [List.append_nil, List.append_nil]
    exact List.infix_append_left
  | cons y g =>
    have hy : y ∉ group idx j (u ++ y :: g ++ v) := fun hmem =>
      hj ((hg y List.mem_cons_self).symm.trans (mem_group.mp hmem).2)
    have hside := h j
    rw [List.append_assoc, List.cons_append] at hside
    rw [List.append_assoc, List.cons_append] at hy
    rw [List.append_assoc, List.append_assoc, List.cons_append, List.cons_append]
    rcases infix_side hside hy with hs | hs
    · exact hs.trans ⟨[], x :: y :: (g ++ v), rfl⟩
    · exact hs.trans ⟨u ++ [x, y], [], by simp⟩

/-- The groups when a member is taken out. -/
theorem group_remove (j : ι) {a b : List α} :
    group idx j (a ++ b) = if idx x = j then group idx j a ++ group idx j b else group idx j (a ++ x :: b) := by
  split
  · exact group_append a b
  · next hj => rw [group_append, group_append, group_cons, if_neg hj]

theorem Grouped.remove {a b : List α} (h : Grouped idx (u ++ (a ++ x :: b) ++ v)) (hg : ∀ y ∈ a ++ x :: b, idx y = idx x)
    (hu : ∀ a ∈ u, idx a ≠ idx x) (hv : ∀ a ∈ v, idx a ≠ idx x) : Grouped idx (u ++ (a ++ b) ++ v) := by
  intro j
  have hg' : ∀ y ∈ a ++ b, idx y = idx x := fun y hy => hg y (by
    rcases List.mem_append.mp hy with hy | hy
    · exact List.mem_append_left _ hy
    · exact List.mem_append_right _ (List.mem_cons_of_mem _ hy))
  by_cases hj : idx x = j
  · subst hj
    rw [group_of_ends hg' hu hv]
    exact ⟨u, v, rfl⟩
  · have hsame : group idx j (u ++ (a ++ b) ++ v) = group idx j (u ++ (a ++ x :: b) ++ v) := by
      simp only [group_append, group_cons, if_neg hj]
    have hx : x ∉ group idx j (u ++ (a ++ x :: b) ++ v) := fun hmem => hj (mem_group.mp hmem).2
    have hside := h j
    rw [hsame]
    have hsplit : u ++ (a ++ x :: b) ++ v = (u ++ a) ++ x :: (b ++ v) := by simp
    rw [hsplit] at hside hx ⊢
    rcases infix_side hside hx with hs | hs
    · exact hs.trans ⟨[], b ++ v, by simp⟩
    · exact hs.trans ⟨u ++ a, [], by simp⟩

end PgRest.Lib
