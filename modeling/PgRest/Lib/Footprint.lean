import Mathlib.Data.List.Perm.Basic
import Mathlib.Data.Set.Basic

/-! Operations on a state that is seen as a family of components. An operation has a footprint: some
components it may read and write, and what it does, without reading, to each of the others. Operations
whose footprints are compatible can be exchanged, and so a list of operations can be put into any
order that keeps apart those whose footprints are not. -/
namespace PgRest.Lib

section Footprint
variable {σ ε κ : Type*} {V : κ → Type*} (view : σ → (k : κ) → V k)

/-- Both fail, or both succeed and leave these components alike. -/
def AlikeOn (K : Set κ) : Except ε σ → Except ε σ → Prop
  | .ok a, .ok b => ∀ k ∈ K, view a k = view b k
  | .error _, .error _ => True
  | _, _ => False

/-- Both fail, or both succeed with the same components. -/
def Alike (x y : Except ε σ) : Prop := AlikeOn view Set.univ x y

/-- The components that are read and written, and what becomes of the others. -/
structure Usage (V : κ → Type*) where
  reads : Set κ
  puts : (k : κ) → V k → V k

/-- The operation has this footprint. -/
structure Local (u : Usage V) (f : σ → Except ε σ) : Prop where
  blind : ∀ {a b}, f a = .ok b → ∀ k, k ∉ u.reads → view b k = u.puts k (view a k)
  read : ∀ {a a'}, (∀ k ∈ u.reads, view a k = view a' k) → AlikeOn view u.reads (f a) (f a')

/-- The operation keeps to these components. -/
def Within (K : Set κ) (f : σ → Except ε σ) : Prop := Local view ⟨K, fun _ => id⟩ f

/-- What one reads the other leaves alone, and what both put somewhere can be put there in either order. -/
structure Compatible (u w : Usage V) : Prop where
  left : ∀ k ∈ u.reads, k ∉ w.reads ∧ w.puts k = id
  right : ∀ k ∈ w.reads, u.puts k = id
  both : ∀ k x, u.puts k (w.puts k x) = w.puts k (u.puts k x)

variable {view} {K K' : Set κ} {u w : Usage V} {f g : σ → Except ε σ} {x y z : Except ε σ} {a a' : σ}

/-! ### Outcomes that are alike -/

theorem Alike.refl (x : Except ε σ) : Alike view x x := by
  cases x with
  | error e => trivial
  | ok a =>
    intro k _
    rfl

theorem Alike.symm (h : Alike view x y) : Alike view y x := by
  cases x <;> cases y <;> try first | trivial | exact False.elim h
  intro k hk
  exact (h k hk).symm

theorem Alike.trans (h : Alike view x y) (h' : Alike view y z) : Alike view x z := by
  cases x <;> cases y <;> cases z <;> try first | trivial | exact False.elim h | exact False.elim h'
  intro k hk
  exact (h k hk).trans (h' k hk)

/-- Operations that do alike on states that are alike, one after the other. -/
theorem Alike.bind (h : Alike view x y)
    (hfg : ∀ a a', (∀ k, view a k = view a' k) → Alike view (f a) (g a')) :
    Alike view (x.bind f) (y.bind g) := by
  cases x <;> cases y <;> try first | trivial | exact False.elim h
  exact hfg _ _ fun k => h k trivial

/-! ### Footprints -/

/-- An operation does not tell states apart that have the same components. -/
theorem Local.congr (hf : Local view u f) (h : ∀ k, view a k = view a' k) : Alike view (f a) (f a') := by
  have hr : AlikeOn view u.reads (f a) (f a') := hf.read fun k _ => h k
  cases ha : f a <;> cases ha' : f a' <;> rw [ha, ha'] at hr <;> try first | trivial | exact False.elim hr
  intro k _
  by_cases hk : k ∈ u.reads
  · exact hr k hk
  · rw [hf.blind ha k hk, hf.blind ha' k hk, h k]

theorem local_error (e : ε) : Local view u fun _ : σ => (.error e : Except ε σ) where
  blind h := by cases h
  read _ := trivial

theorem local_ite {p : Prop} [Decidable p] (hf : p → Local view u f) (hg : ¬p → Local view u g) :
    Local view u fun a => if p then f a else g a := by
  by_cases hp : p
  · simpa only [if_pos hp] using hf hp
  · simpa only [if_neg hp] using hg hp

/-- An operation may be taken to have a wider footprint, in which nothing is put any more. -/
theorem Local.within (hf : Local view u f) (hK : u.reads ⊆ K) (hputs : ∀ k, k ∉ K → u.puts k = id) :
    Within view K f where
  blind {a b} h k hk := by
    rw [hf.blind h k fun hr => hk (hK hr), hputs k hk]
  read {a a'} h := by
    have hr : AlikeOn view u.reads (f a) (f a') := hf.read fun k hk => h k (hK hk)
    cases ha : f a <;> cases ha' : f a' <;> rw [ha, ha'] at hr <;> try first | trivial | exact False.elim hr
    intro k hk
    by_cases hkr : k ∈ u.reads
    · exact hr k hkr
    · rw [hf.blind ha k hkr, hf.blind ha' k hkr, h k hk]

theorem Within.mono (hf : Within view K f) (hK : K ⊆ K') : Within view K' f :=
  Local.within hf hK fun _ _ => rfl

theorem within_ok : Within view K fun a : σ => (.ok a : Except ε σ) where
  blind h k _ := by
    cases h
    rfl
  read h := h

theorem Within.bind (hf : Within view K f) (hg : Within view K g) : Within view K fun a => (f a).bind g where
  blind {a c} h k hk := by
    cases ha : f a with
    | error e =>
      rw [ha] at h
      cases h
    | ok b =>
      rw [ha] at h
      exact (hg.blind h k hk).trans (hf.blind ha k hk)
  read {a a'} h := by
    have hr := hf.read h
    cases ha : f a <;> cases ha' : f a' <;> rw [ha, ha'] at hr <;> try first | trivial | exact False.elim hr
    exact hg.read hr

/-- Operations whose footprints are compatible can be exchanged. -/
theorem Local.comm (hf : Local view u f) (hg : Local view w g) (hc : Compatible u w) (a : σ) :
    Alike view ((f a).bind g) ((g a).bind f) := by
  -- what `f` reads is as it was behind `g`, and the other way round
  have hfg {b : σ} (hb : g a = .ok b) : AlikeOn view u.reads (f a) (f b) := by
    refine hf.read fun k hk => ?_
    rw [hg.blind hb k (hc.left k hk).1, (hc.left k hk).2]
    rfl
  have hgf {b : σ} (hb : f a = .ok b) : AlikeOn view w.reads (g a) (g b) := by
    refine hg.read fun k hk => ?_
    rw [hf.blind hb k fun hr => (hc.left k hr).1 hk, hc.right k hk]
    rfl
  cases ha : f a with
  | error e =>
    cases hb : g a with
    | error e' => trivial
    | ok b =>
      have h := hfg hb
      rw [ha] at h
      show Alike view (.error e) (f b)
      cases hfb : f b <;> rw [hfb] at h
      · trivial
      · exact h
  | ok b =>
    have h := hgf ha
    cases hb : g a with
    | error e =>
      rw [hb] at h
      show Alike view (g b) (.error e)
      cases hgb : g b <;> rw [hgb] at h
      · trivial
      · exact h
    | ok b' =>
      have h' := hfg hb
      rw [ha] at h'
      rw [hb] at h
      show Alike view (g b) (f b')
      cases hgb : g b <;> cases hfb : f b' <;> rw [hgb] at h <;> rw [hfb] at h' <;>
        try first | trivial | exact False.elim h | exact False.elim h'
      rename_i c c'
      intro k _
      by_cases hu : k ∈ u.reads
      · rw [hg.blind hgb k (hc.left k hu).1, (hc.left k hu).2]
        exact h' k hu
      · by_cases hw : k ∈ w.reads
        · rw [hf.blind hfb k hu, hc.right k hw]
          exact (h k hw).symm
        · rw [hg.blind hgb k hw, hf.blind ha k hu, hf.blind hfb k hu, hg.blind hb k hw, hc.both k]

end Footprint

/-! ### Lists of operations -/

/-- One operation after the other, until one fails. -/
def runAll {σ ε α : Type*} (op : α → σ → Except ε σ) : List α → σ → Except ε σ
  | [], a => .ok a
  | x :: l, a => (op x a).bind (runAll op l)

/-- Two that do not go together come in the same order. -/
def Kept {α : Type*} (conflict : α → α → Prop) (l l' : List α) : Prop :=
  ∀ x y, conflict x y → [x, y].Sublist l → [x, y].Sublist l'

section Lists
variable {α : Type*} {conflict : α → α → Prop} {x y : α} {l l' p q : List α}

theorem erase_middle {m : List α} (h : m.Sublist (p ++ x :: q)) (hx : x ∉ m) : m.Sublist (p ++ q) := by
  induction p generalizing m with
  | nil =>
    cases h with
    | cons _ h => exact h
    | cons_cons _ _ => exact absurd List.mem_cons_self hx
  | cons y p ih =>
    cases h with
    | cons _ h => exact (ih h hx).cons y
    | cons_cons _ h => exact (ih h fun hm => hx (List.mem_cons_of_mem _ hm)).cons_cons y

theorem Kept.tail (h : Kept conflict (x :: l) (p ++ x :: q)) (hx : x ∉ l) : Kept conflict l (p ++ q) := by
  intro y z hyz hl
  refine erase_middle (h y z hyz (hl.cons x)) fun hm => hx (hl.subset hm)

/-- What comes in front of the first of a list in the other does go together with it. -/
theorem Kept.head (h : Kept conflict (x :: l) (p ++ x :: q)) (hn : (p ++ x :: q).Nodup) (hy : y ∈ p)
    (hl : y ∈ l) : ¬conflict x y := by
  intro hxy
  have hs := h x y hxy ((List.singleton_sublist.mpr hl).cons_cons x)
  obtain ⟨-, hq, hd⟩ := List.nodup_append.mp hn
  obtain ⟨m, m', hm, hmp, hmq⟩ := List.sublist_append_iff.mp hs
  cases m with
  | nil =>
    cases hm
    have hyq : y ∈ x :: q := hmq.subset (by simp)
    exact hd y hy y hyq rfl
  | cons z m =>
    obtain rfl : x = z := (List.cons.inj hm).1
    exact hd x (hmp.subset List.mem_cons_self) x List.mem_cons_self rfl

variable {σ ε κ : Type*} {V : κ → Type*} {view : σ → (k : κ) → V k} {op : α → σ → Except ε σ}

theorem runAll_congr (hc : ∀ x a a', (∀ k, view a k = view a' k) → Alike view (op x a) (op x a')) {a a' : σ}
    (h : ∀ k, view a k = view a' k) : Alike view (runAll op l a) (runAll op l a') := by
  induction l generalizing a a' with
  | nil => exact fun k _ => h k
  | cons x l ih => exact (hc x a a' h).bind fun _ _ => ih

/-- An operation is brought to the front past those it goes together with. -/
theorem runAll_front (hc : ∀ x a a', (∀ k, view a k = view a' k) → Alike view (op x a) (op x a'))
    (hx : ∀ y ∈ p, ∀ a, Alike view ((op x a).bind (op y)) ((op y a).bind (op x))) (a : σ) :
    Alike view (runAll op (x :: (p ++ q)) a) (runAll op (p ++ x :: q) a) := by
  induction p generalizing a with
  | nil => exact .refl _
  | cons y p ih =>
    have hswap : Alike view (runAll op (x :: y :: (p ++ q)) a) (runAll op (y :: x :: (p ++ q)) a) := by
      have h := (hx y List.mem_cons_self a).bind fun b b' hb => runAll_congr (l := p ++ q) hc hb
      simp only [runAll]
      cases hxa : op x a <;> cases hya : op y a <;> rw [hxa, hya] at h <;> exact h
    refine hswap.trans ?_
    show Alike view ((op y a).bind _) ((op y a).bind _)
    refine Alike.bind (.refl _) fun b b' hb => ?_
    refine (ih (fun z hz => hx z (List.mem_cons_of_mem _ hz)) b).trans ?_
    exact runAll_congr hc hb

/-- Operations in another order do alike, if those that do not go together come in the same order. -/
theorem runAll_perm (hc : ∀ x a a', (∀ k, view a k = view a' k) → Alike view (op x a) (op x a'))
    (hx : ∀ x y, ¬conflict x y → ∀ a, Alike view ((op x a).bind (op y)) ((op y a).bind (op x)))
    (hn : l.Nodup) (hp : l.Perm l') (hk : Kept conflict l l') (a : σ) :
    Alike view (runAll op l a) (runAll op l' a) := by
  induction l generalizing l' a with
  | nil =>
    cases hp.nil_eq
    exact .refl _
  | cons x l ih =>
    obtain ⟨p, q, rfl⟩ := List.append_of_mem (hp.subset List.mem_cons_self)
    obtain ⟨hxl, hnl⟩ := List.nodup_cons.mp hn
    have hpq : l.Perm (p ++ q) := (hp.trans List.perm_middle).cons_inv
    have hrest (b : σ) : Alike view (runAll op l b) (runAll op (p ++ q) b) := ih hnl hpq (hk.tail hxl) b
    have hfront : ∀ y ∈ p, ∀ b, Alike view ((op x b).bind (op y)) ((op y b).bind (op x)) := by
      intro y hy
      apply hx
      exact hk.head (hp.nodup hn) hy (hpq.symm.subset (List.mem_append_left q hy))
    refine Alike.trans (y := runAll op (x :: (p ++ q)) a) ?_ (runAll_front hc hfront a)
    refine Alike.bind (.refl _) fun b b' hb => ?_
    exact (hrest b).trans (runAll_congr hc hb)

end Lists

end PgRest.Lib
