import Mathlib.Data.List.Chain

/-! Doubly linked rings. A ring has a sentinel, from which `next` leads through the members
and back, and `prev` leads back from each member. What `prev` is at the sentinel does not
matter. A member is taken out, put in or replaced by changing the links next to it, so the
lemmas here ask of the new links only what they are there, and that the others are kept. -/
namespace PgRest.Lib

variable {ρ : Type} {next prev next' prev' : ρ → Option ρ}

/-- The members of the ring at the sentinel `s`, in the order of `next`. -/
structure Ring (next prev : ρ → Option ρ) (s : ρ) (l : List ρ) : Prop where
  nodup : (s :: l).Nodup
  fore : (s :: l ++ [s]).IsChain fun x y => next x = some y
  back : (s :: l).IsChain fun x y => prev y = some x

theorem fore_congr {l : List ρ} (h : l.IsChain fun x y => next x = some y)
    (hn : ∀ x ∈ l.dropLast, next' x = next x) : l.IsChain fun x y => next' x = some y := by
  rw [List.isChain_iff_forall_rel_of_append_cons_cons] at h ⊢
  intro a b l₁ l₂ heq
  rw [hn a ?_]
  · exact h heq
  · rw [heq, List.dropLast_append_of_ne_nil (by simp)]
    simp

theorem back_congr {l : List ρ} (h : l.IsChain fun x y => prev y = some x)
    (hp : ∀ y ∈ l.tail, prev' y = prev y) : l.IsChain fun x y => prev' y = some x :=
  h.imp_of_mem_tail_imp fun a b _ hb hab => by rw [hp b hb, hab]

/-- Only the links of the members count, and where the sentinel leads to. -/
theorem Ring.congr {s : ρ} {l : List ρ} (h : Ring next prev s l) (hn : ∀ r ∈ s :: l, next' r = next r)
    (hp : ∀ r ∈ l, prev' r = prev r) : Ring next' prev' s l where
  nodup := h.nodup
  fore := fore_congr h.fore fun r hr => hn r (by rwa [List.dropLast_concat] at hr)
  back := back_congr h.back hp

theorem ring_nil {s : ρ} (h : next s = some s) : Ring next prev s [] :=
  ⟨by simp, by simpa using h, by simp⟩

/-- Where a stretch of the ring begins and ends. -/
theorem Ring.ends (s : ρ) (l₁ l₂ : List ρ) : ∃ u p q v, s :: l₁ = u ++ [p] ∧ l₂ ++ [s] = q :: v := by
  obtain ⟨q, v, hv⟩ : ∃ q v, l₂ ++ [s] = q :: v := List.exists_cons_of_ne_nil (by simp)
  exact ⟨_, _, q, v, (List.dropLast_append_getLast (by simp)).symm, hv⟩

theorem Ring.chains {s p q : ρ} {l₁ m l₂ u v : List ρ} (h : Ring next prev s (l₁ ++ m ++ l₂))
    (hu : s :: l₁ = u ++ [p]) (hv : l₂ ++ [s] = q :: v) :
    ((u ++ [p]).IsChain fun x y => next x = some y) ∧ ((p :: m ++ [q]).IsChain fun x y => next x = some y) ∧
      ((q :: v).IsChain fun x y => next x = some y) ∧ ((u ++ [p]).IsChain fun x y => prev y = some x) ∧
      ((p :: m).IsChain fun x y => prev y = some x) ∧ l₂.IsChain fun x y => prev y = some x := by
  have hfore := h.fore
  have hback := h.back
  rw [List.append_assoc, ← List.cons_append, hu] at hback
  rw [← List.cons_append, ← List.cons_append, hu, List.append_assoc (u ++ [p] ++ m), hv, List.append_assoc,
    List.append_assoc, List.singleton_append, List.isChain_split] at hfore
  obtain ⟨hf₁, hf₂⟩ := hfore
  rw [← List.cons_append, List.isChain_split] at hf₂
  rw [List.append_assoc, List.singleton_append, List.isChain_split] at hback
  have hb : (p :: m ++ l₂).IsChain fun x y => prev y = some x := hback.2
  exact ⟨hf₁, hf₂.1, hf₂.2, hback.1, hb.left_of_append, hb.right_of_append⟩

/-- **A stretch of the ring is replaced** by linking the new one to both of its ends. -/
theorem Ring.relink {s p q : ρ} {l₁ m m' l₂ u v : List ρ} (h : Ring next prev s (l₁ ++ m ++ l₂))
    (hu : s :: l₁ = u ++ [p]) (hv : l₂ ++ [s] = q :: v) (hm : m'.Nodup) (hnew : ∀ r ∈ m', r ∉ s :: (l₁ ++ l₂))
    (fore : (p :: m' ++ [q]).IsChain fun x y => next' x = some y)
    (back : (p :: m').IsChain fun x y => prev' y = some x)
    (last : q ≠ s → ∃ r, (p :: m').getLast? = some r ∧ prev' q = some r)
    (hn : ∀ r ∈ s :: (l₁ ++ l₂), r ≠ p → next' r = next r) (hp : ∀ r ∈ l₁ ++ l₂, r ≠ q → prev' r = prev r) :
    Ring next' prev' s (l₁ ++ m' ++ l₂) := by
  obtain ⟨hf₁, -, hf₂, hb₁, -, hb₂⟩ := h.chains hu hv
  have hnodup := h.nodup
  rw [List.append_assoc, ← List.cons_append, List.nodup_append] at hnodup
  obtain ⟨hn₁, hn₂, hdisj⟩ := hnodup
  have hn₂ := (List.nodup_append.mp hn₂).2.1
  have hdisj : ∀ a ∈ s :: l₁, ∀ b ∈ l₂, a ≠ b := fun a ha b hb => hdisj a ha b (List.mem_append_right _ hb)
  have hp₁ : p ∈ s :: l₁ := by simp [hu]
  have hup : ∀ r ∈ u, r ≠ p := fun r hr => by
    rw [hu, List.nodup_append] at hn₁
    exact hn₁.2.2 r hr p (by simp)
  have hq₁ : ∀ r ∈ l₁, r ≠ q := by
    rintro r hr rfl
    have hq : r ∈ l₂ ++ [s] := by simp [hv]
    rcases List.mem_append.mp hq with hq | hq
    · exact hdisj r (List.mem_cons_of_mem _ hr) r hq rfl
    · exact (List.nodup_cons.mp hn₁).1 (List.mem_singleton.mp hq ▸ hr)
  have hq₂ : ∀ r ∈ l₂.tail, r ≠ q := by
    rintro r hr rfl
    cases l₂ with
    | nil => simp at hr
    | cons a l₂ =>
      obtain rfl : a = r := (List.cons.inj hv).1
      exact (List.nodup_cons.mp hn₂).1 hr
  constructor
  · rw [List.append_assoc, ← List.cons_append, List.nodup_append]
    refine ⟨hn₁, List.nodup_append.mpr ⟨hm, hn₂, fun a ha b hb he => ?_⟩, fun a ha b hb he => ?_⟩
    · exact hnew a ha (by simp [he, hb])
    · subst he
      rcases List.mem_append.mp hb with hb | hb
      · refine hnew a hb ?_
        rw [← List.cons_append]
        exact List.mem_append_left _ ha
      · exact hdisj a ha a hb rfl
  · rw [← List.cons_append, ← List.cons_append, hu, List.append_assoc (u ++ [p] ++ m'), hv, List.append_assoc,
      List.append_assoc, List.singleton_append, List.isChain_split]
    refine ⟨fore_congr hf₁ fun r hr => ?_, ?_⟩
    · rw [List.dropLast_concat] at hr
      refine hn r ?_ (hup r hr)
      rw [← List.cons_append, hu]
      simp [hr]
    rw [← List.cons_append, List.isChain_split]
    refine ⟨fore, fore_congr hf₂ fun r hr => ?_⟩
    rw [← hv, List.dropLast_concat] at hr
    exact hn r (by simp [hr]) fun he => hdisj p hp₁ p (he ▸ hr) rfl
  · rw [List.append_assoc, ← List.cons_append, hu, List.append_assoc, List.singleton_append, List.isChain_split]
    refine ⟨back_congr hb₁ fun r hr => ?_, ?_⟩
    · have hr₁ : r ∈ l₁ := by simpa [← hu] using hr
      exact hp r (List.mem_append_left _ hr₁) (hq₁ r hr₁)
    rw [← List.cons_append, List.isChain_append]
    refine ⟨back, back_congr hb₂ fun r hr => hp r (List.mem_append_right _ (List.mem_of_mem_tail hr)) (hq₂ r hr), ?_⟩
    intro a ha b hb
    cases l₂ with
    | nil => simp at hb
    | cons c l₂ =>
      obtain rfl : c = b := by simpa using hb
      obtain rfl : c = q := (List.cons.inj hv).1
      obtain ⟨r, hr, hprev⟩ := last fun he => hdisj s (by simp) c (by simp) he.symm
      rw [Option.mem_def, hr, Option.some.injEq] at ha
      rw [hprev, ha]

/-- A member, with its neighbours, between the others. -/
theorem Ring.around {s x : ρ} {l₁ l₂ : List ρ} (h : Ring next prev s (l₁ ++ [x] ++ l₂)) :
    ∃ u p q v, s :: l₁ = u ++ [p] ∧ l₂ ++ [s] = q :: v ∧ prev x = some p ∧ next x = some q ∧
      p ∈ s :: (l₁ ++ l₂) ∧ q ∈ s :: (l₁ ++ l₂) ∧ x ∉ s :: (l₁ ++ l₂) := by
  obtain ⟨u, p, q, v, hu, hv⟩ := Ring.ends s l₁ l₂
  obtain ⟨-, hf, -, -, hb, -⟩ := h.chains hu hv
  have hp : p ∈ s :: l₁ := by simp [hu]
  have hq : q ∈ l₂ ++ [s] := by simp [hv]
  have hf : next p = some x ∧ next x = some q := by simpa using hf
  refine ⟨u, p, q, v, hu, hv, by simpa using hb, hf.2, ?_, ?_, ?_⟩
  · rw [← List.cons_append]
    exact List.mem_append_left _ hp
  · rcases List.mem_append.mp hq with hq | hq
    · simp [hq]
    · simp [List.mem_singleton.mp hq]
  · have hnodup := h.nodup
    rw [List.append_assoc, List.singleton_append, ← List.cons_append] at hnodup
    have hnodup := List.perm_middle.nodup_iff.mp hnodup
    exact (List.nodup_cons.mp hnodup).1

/-- **Putting a new member in front.** -/
theorem Ring.push {s x : ρ} {l : List ρ} (h : Ring next prev s l) (hx : x ∉ s :: l) :
    ∃ f, next s = some f ∧ f ∈ s :: l ∧ ∀ next' prev' : ρ → Option ρ, next' s = some x → next' x = some f →
      (∀ r ∈ l, next' r = next r) → prev' x = some s → (f ≠ s → prev' f = some x) →
      (∀ r ∈ l, r ≠ f → prev' r = prev r) → Ring next' prev' s (x :: l) := by
  obtain ⟨u, p, f, v, hu, hv⟩ := Ring.ends s [] l
  obtain ⟨rfl, rfl⟩ : u = [] ∧ s = p := by
    cases u with
    | nil => exact ⟨rfl, (List.cons.inj hu).1⟩
    | cons a u => simp at hu
  have h' : Ring next prev s ([] ++ [] ++ l) := h
  obtain ⟨-, hf, -⟩ := h'.chains hu hv
  refine ⟨f, by simpa using hf, ?_, fun next' prev' hs hx' hn hpx hpf hp => ?_⟩
  · have : f ∈ l ++ [s] := by simp [hv]
    rcases List.mem_append.mp this with hm | hm
    · exact List.mem_cons_of_mem _ hm
    · simp [List.mem_singleton.mp hm]
  · have hnew : ∀ r ∈ [x], r ∉ s :: ([] ++ l) := by simpa using hx
    have hring : Ring next' prev' s ([] ++ [x] ++ l) :=
      h'.relink hu hv (by simp) hnew (by simp [hs, hx']) (by simpa using hpx) (fun hfs => ⟨x, rfl, hpf hfs⟩)
        (fun r hr hrs => hn r ((List.mem_cons.mp hr).resolve_left hrs)) fun r hr => hp r hr
    exact hring

/-- **Another member in the place of one.** -/
theorem Ring.replace {s x y : ρ} {l₁ l₂ : List ρ} (h : Ring next prev s (l₁ ++ [x] ++ l₂)) (hy : y ∉ s :: (l₁ ++ l₂)) :
    ∃ p q, prev x = some p ∧ next x = some q ∧ p ∈ s :: (l₁ ++ l₂) ∧ q ∈ s :: (l₁ ++ l₂) ∧ x ∉ s :: (l₁ ++ l₂) ∧
      ∀ next' prev' : ρ → Option ρ, next' p = some y → next' y = some q →
        (∀ r ∈ s :: (l₁ ++ l₂), r ≠ p → next' r = next r) → prev' y = some p → (q ≠ s → prev' q = some y) →
        (∀ r ∈ l₁ ++ l₂, r ≠ q → prev' r = prev r) → Ring next' prev' s (l₁ ++ [y] ++ l₂) := by
  obtain ⟨u, p, q, v, hu, hv, hprev, hnext, hp, hq, hx⟩ := h.around
  refine ⟨p, q, hprev, hnext, hp, hq, hx, fun next' prev' hnp hny hn hpy hpq hpr => ?_⟩
  exact h.relink hu hv (by simp) (by simpa using hy) (by simp [hnp, hny]) (by simpa using hpy)
    (fun hs => ⟨y, rfl, hpq hs⟩) hn hpr

variable [DecidableEq ρ]

/-- **Taking a member out** is to link its neighbours with each other. -/
theorem Ring.unlink {s x : ρ} {l : List ρ} (h : Ring next prev s l) (hx : x ∈ l) :
    ∃ p q, prev x = some p ∧ next x = some q ∧ p ∈ s :: l ∧ q ∈ s :: l ∧ p ≠ x ∧ q ≠ x ∧
      ∀ next' prev' : ρ → Option ρ, next' p = some q → (∀ r ∈ s :: l, r ≠ p → r ≠ x → next' r = next r) →
        (q ≠ s → prev' q = some p) → (∀ r ∈ l, r ≠ q → r ≠ x → prev' r = prev r) →
        Ring next' prev' s (l.erase x) := by
  obtain ⟨l₁, l₂, rfl⟩ := List.append_of_mem hx
  rw [List.append_cons] at h ⊢
  obtain ⟨u, p, q, v, hu, hv, hprev, hnext, hp, hq, hxn⟩ := h.around
  have hmem : ∀ r ∈ l₁ ++ l₂, r ∈ l₁ ++ [x] ++ l₂ := by
    intro r hr
    simp only [List.mem_append] at hr ⊢
    tauto
  have hsub : ∀ r ∈ s :: (l₁ ++ l₂), r ∈ s :: (l₁ ++ [x] ++ l₂) := fun r hr =>
    List.mem_cons.mpr ((List.mem_cons.mp hr).imp_right (hmem r))
  have hne : ∀ r ∈ s :: (l₁ ++ l₂), r ≠ x := fun r hr he => hxn (he ▸ hr)
  refine ⟨p, q, hprev, hnext, hsub p hp, hsub q hq, hne p hp, hne q hq, fun next' prev' hnp hn hpq hpr => ?_⟩
  have herase : (l₁ ++ [x] ++ l₂).erase x = l₁ ++ [] ++ l₂ := by
    have hx₁ : x ∉ l₁ := fun hm => hxn (by simp [hm])
    rw [List.append_assoc, List.erase_append_right _ hx₁, List.singleton_append, List.erase_cons_head,
      List.append_nil]
  rw [herase]
  exact h.relink hu hv List.nodup_nil (by simp) (by simpa using hnp) (by simp) (fun hs => ⟨p, rfl, hpq hs⟩)
    (fun r hr hrp => hn r (hsub r hr) hrp (hne r hr))
    fun r hr hrq => hpr r (hmem r hr) hrq (hne r (List.mem_cons_of_mem _ hr))

omit [DecidableEq ρ]

/-! ### Loops -/

/-- A ring that can be run through in both ways: at the sentinel `prev` is the last member. -/
structure Loop (next prev : ρ → ρ) (s : ρ) (l : List ρ) : Prop where
  ring : Ring (fun r => some (next r)) (fun r => some (prev r)) s l
  close : (s :: l).getLast? = some (prev s)

namespace Loop
variable {next prev next' prev' : ρ → ρ} {s p q x : ρ} {l l₁ l₂ u v : List ρ}

theorem nil (hn : next s = s) (hp : prev s = s) : Loop next prev s [] :=
  ⟨ring_nil (congrArg some hn), congrArg some hp.symm⟩

theorem congr (h : Loop next prev s l) (hn : ∀ r ∈ s :: l, next' r = next r) (hp : ∀ r ∈ s :: l, prev' r = prev r) :
    Loop next' prev' s l where
  ring := h.ring.congr (fun r hr => congrArg some (hn r hr)) fun r hr =>
    congrArg some (hp r (List.mem_cons_of_mem _ hr))
  close := by rw [hp s List.mem_cons_self, h.close]

/-- Two places next to each other, of which one may be the sentinel. -/
theorem adjacent (h : Loop next prev s (l₁ ++ l₂)) (hu : s :: l₁ = u ++ [p]) (hv : l₂ ++ [s] = q :: v) :
    next p = q ∧ prev q = p := by
  have h' : Ring (fun r => some (next r)) (fun r => some (prev r)) s (l₁ ++ [] ++ l₂) := by
    rw [List.append_nil]
    exact h.ring
  obtain ⟨-, hf, -⟩ := h'.chains hu hv
  have hnext : next p = q := by simpa using hf
  refine ⟨hnext, ?_⟩
  cases l₂ with
  | nil =>
    obtain ⟨rfl, -⟩ := List.cons.inj hv
    have hclose := h.close
    rw [List.append_nil, hu, List.getLast?_concat] at hclose
    exact (Option.some.inj hclose).symm
  | cons a l₂ =>
    obtain rfl := (List.cons.inj hv).1
    have hback := h.ring.back
    rw [← List.cons_append, hu, List.append_assoc, List.singleton_append, List.isChain_split] at hback
    simpa using (List.isChain_cons_cons.mp hback.2).1

/-- What is behind a place, and in front of the place behind that. -/
theorem next_prev (h : Loop next prev s l) (hp : p ∈ s :: l) : next p ∈ s :: l ∧ prev (next p) = p := by
  obtain ⟨u, l₂, hsplit⟩ := List.append_of_mem hp
  obtain ⟨l₁, rfl, hu⟩ : ∃ l₁, l = l₁ ++ l₂ ∧ s :: l₁ = u ++ [p] := by
    cases u with
    | nil =>
      obtain ⟨rfl, rfl⟩ := List.cons.inj hsplit
      exact ⟨[], rfl, rfl⟩
    | cons a u =>
      obtain ⟨rfl, rfl⟩ := List.cons.inj hsplit
      exact ⟨u ++ [p], by simp, rfl⟩
  obtain ⟨q, v, hv⟩ : ∃ q v, l₂ ++ [s] = q :: v := List.exists_cons_of_ne_nil (by simp)
  obtain ⟨rfl, hprev⟩ := h.adjacent hu hv
  refine ⟨?_, hprev⟩
  have hq : next p ∈ l₂ ++ [s] := hv ▸ List.mem_cons_self
  rcases List.mem_append.mp hq with hq | hq
  · exact List.mem_cons_of_mem _ (List.mem_append_right _ hq)
  · exact List.mem_singleton.mp hq ▸ List.mem_cons_self

theorem prev_mem (h : Loop next prev s l) (hq : q ∈ s :: l) : prev q ∈ s :: l := by
  rcases List.mem_cons.mp hq with rfl | hq
  · exact List.mem_of_getLast? h.close
  · obtain ⟨l₁, l₂, rfl⟩ := List.append_of_mem hq
    obtain ⟨u, p, -, -, hu, -⟩ := Ring.ends s l₁ []
    obtain ⟨-, rfl⟩ := h.adjacent (v := l₂ ++ [s]) hu rfl
    have hp : prev q ∈ s :: l₁ := hu ▸ List.mem_append_right _ List.mem_cons_self
    exact List.cons_append ▸ List.mem_append_left _ hp

/-- Members that stand next to each other. -/
theorem chain (h : Loop next prev s l) {m : List ρ} (hm : m <:+: l ++ [s]) : m.IsChain fun x y => next x = y := by
  have hfore : (l ++ [s]).IsChain fun x y => some (next x) = some y := h.ring.fore.tail
  obtain ⟨l₁, l₂, hlist⟩ := hm
  rw [← hlist] at hfore
  exact hfore.left_of_append.right_of_append.imp fun _ _ => Option.some.inj

/-- **Putting a new member in front of a place**, of a member or of the sentinel. -/
theorem insert (h : Loop next prev s (l₁ ++ l₂)) (hv : l₂ ++ [s] = q :: v) (hx : x ∉ s :: (l₁ ++ l₂))
    (hnp : next' (prev q) = x) (hnx : next' x = q) (hpx : prev' x = prev q) (hpq : prev' q = x)
    (hn : ∀ r, r ≠ prev q → r ≠ x → next' r = next r) (hp : ∀ r, r ≠ q → r ≠ x → prev' r = prev r) :
    Loop next' prev' s (l₁ ++ x :: l₂) := by
  obtain ⟨u, p, -, -, hu, -⟩ := Ring.ends s l₁ l₂
  obtain ⟨-, rfl⟩ := h.adjacent hu hv
  have hring : Ring (fun r => some (next r)) (fun r => some (prev r)) s (l₁ ++ [] ++ l₂) := by
    rw [List.append_nil]
    exact h.ring
  have hne {r : ρ} (hr : r ∈ s :: (l₁ ++ l₂)) : r ≠ x := fun he => hx (he ▸ hr)
  have hnew : Ring (fun r => some (next' r)) (fun r => some (prev' r)) s (l₁ ++ [x] ++ l₂) :=
    hring.relink hu hv (by simp) (by simpa using hx) (by simp [hnp, hnx]) (by simp [hpx])
      (fun _ => ⟨x, rfl, congrArg some hpq⟩) (fun r hr hrp => congrArg some (hn r hrp (hne hr)))
      fun r hr hrq => congrArg some (hp r hrq (hne (List.mem_cons_of_mem _ hr)))
  refine ⟨by simpa using hnew, ?_⟩
  cases l₂ with
  | nil =>
    obtain ⟨rfl, -⟩ := List.cons.inj hv
    rw [hpq, ← List.cons_append, List.getLast?_concat]
  | cons a l₂ =>
    obtain rfl := (List.cons.inj hv).1
    have hsa : s ≠ a := by
      rintro rfl
      exact (List.nodup_cons.mp h.ring.nodup).1 (by simp)
    rw [hp s hsa (hne List.mem_cons_self), ← h.close, ← List.cons_append, ← List.cons_append, List.getLast?_append_cons,
      List.getLast?_append_cons, List.getLast?_cons_cons]

/-- **Taking a member out.** -/
theorem remove (h : Loop next prev s (l₁ ++ x :: l₂)) (hnp : next' (prev x) = next x) (hpq : prev' (next x) = prev x)
    (hn : ∀ r, r ≠ prev x → next' r = next r) (hp : ∀ r, r ≠ next x → prev' r = prev r) :
    Loop next' prev' s (l₁ ++ l₂) := by
  obtain ⟨u, p, q, v, hu, hv⟩ := Ring.ends s l₁ l₂
  have hprev : prev x = p := (h.adjacent (q := x) (v := l₂ ++ [s]) hu rfl).2
  have h' : Loop next prev s ((l₁ ++ [x]) ++ l₂) := by simpa using h
  have hnext : next x = q := (h'.adjacent (u := s :: l₁) (p := x) rfl hv).1
  subst hprev hnext
  have hring : Ring (fun r => some (next' r)) (fun r => some (prev' r)) s (l₁ ++ [] ++ l₂) :=
    h'.ring.relink hu hv List.nodup_nil (by simp) (by simp [hnp]) (by simp)
      (fun _ => ⟨_, rfl, congrArg some hpq⟩) (fun r _ hrp => congrArg some (hn r hrp))
      fun r _ hrq => congrArg some (hp r hrq)
  refine ⟨by simpa using hring, ?_⟩
  cases l₂ with
  | nil =>
    have hs : next x = s := (List.cons.inj hv).1.symm
    rw [hs] at hpq
    rw [hpq, List.append_nil, hu, List.getLast?_concat]
  | cons a l₂ =>
    have ha : next x = a := (List.cons.inj hv).1.symm
    have hsa : s ≠ next x := by
      rw [ha]
      rintro rfl
      exact (List.nodup_cons.mp h.ring.nodup).1 (by simp)
    rw [hp s hsa, ← h.close, ← List.cons_append, ← List.cons_append, List.getLast?_append_cons,
      List.getLast?_append_cons, List.getLast?_cons_cons]

end Loop

end PgRest.Lib
