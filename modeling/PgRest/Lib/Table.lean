import PgRest.Lib.Run
import Mathlib.Data.List.Nodup

/-! Tables: lists with at most one entry of a key. The entry of a key is replaced in its place or
put behind the others, and whether it can be put may depend on the one that is there. From
outside a table is a function of the keys, and after a run of such steps the entry of a key is what
the steps at this key alone have made of it. -/
namespace PgRest.Lib

section Place
variable {α κ : Type} {same : α → Bool} {a b : α} {l l' : List α}

/-- The first that is the same is replaced, or the entry goes to the end. -/
def place (same : α → Bool) (a : α) : List α → List α
  | [] => [a]
  | b :: l => if same b then a :: l else b :: place same a l

/-- Places what is made of the first that is the same, or of there being none. -/
def upsert (same : α → Bool) (put : Option α → Option α) : List α → Option (List α)
  | [] => (put none).map fun a => [a]
  | b :: l => if same b then (put (some b)).map (· :: l) else (upsert same put l).map (b :: ·)

theorem upsert_eq (put : Option α → Option α) (l : List α) :
    upsert same put l = (put (l.find? same)).map fun a => place same a l := by
  induction l with
  | nil => rfl
  | cons b l ih =>
    rw [upsert]
    by_cases hb : same b
    · rw [if_pos hb, List.find?_cons_of_pos hb]
      simp [place, hb]
    · rw [if_neg hb, List.find?_cons_of_neg hb, ih]
      simp [place, hb, Option.map_map, Function.comp_def]

theorem mem_place (h : b ∈ place same a l) : b = a ∨ b ∈ l := by
  induction l with
  | nil => exact Or.inl (List.mem_singleton.mp h)
  | cons c l ih =>
    rw [place] at h
    split at h
    · exact (List.mem_cons.mp h).imp_right (List.mem_cons_of_mem c)
    · rcases List.mem_cons.mp h with rfl | h
      · exact Or.inr List.mem_cons_self
      · exact (ih h).imp_right (List.mem_cons_of_mem c)

theorem place_ne_nil : place same a l ≠ [] := by
  cases l with
  | nil => simp [place]
  | cons b l =>
    rw [place]
    split <;> simp

theorem place_none (h : ∀ b ∈ l, same b = false) : place same a l = l ++ [a] := by
  induction l with
  | nil => rfl
  | cons b l ih =>
    obtain ⟨hb, hl⟩ := List.forall_mem_cons.mp h
    rw [place, if_neg (Bool.eq_false_iff.mp hb), ih hl]
    rfl

theorem place_middle {u v : List α} (hu : ∀ c ∈ u, same c = false) (hb : same b = true) :
    place same a (u ++ b :: v) = u ++ a :: v := by
  induction u with
  | nil => exact if_pos hb
  | cons c u ih =>
    obtain ⟨hc, hu⟩ := List.forall_mem_cons.mp hu
    rw [List.cons_append, place, if_neg (Bool.eq_false_iff.mp hc), ih hu]
    rfl

variable [DecidableEq κ] {key : α → κ} {k : κ}

/-- The keys stay, with the one that is placed behind them if it is new. -/
theorem map_place (hsame : ∀ b ∈ l, same b = true ↔ key b = k) (ha : key a = k) :
    (place same a l).map key = if k ∈ l.map key then l.map key else l.map key ++ [k] := by
  induction l with
  | nil => simp [place, ha]
  | cons b l ih =>
    obtain ⟨hb, hl⟩ := List.forall_mem_cons.mp hsame
    rw [place]
    by_cases hbk : key b = k
    · simp [hb.mpr hbk, ha, hbk]
    · rw [if_neg (mt hb.mp hbk), List.map_cons, ih hl]
      by_cases hk : k ∈ l.map key
      · simp [hk]
      · simp [hk, Ne.symm hbk]

theorem nodup_place (hsame : ∀ b ∈ l, same b = true ↔ key b = k) (ha : key a = k) (h : (l.map key).Nodup) :
    ((place same a l).map key).Nodup := by
  rw [map_place hsame ha]
  split
  · exact h
  · next hk =>
    refine List.nodup_append.mpr ⟨h, List.nodup_singleton k, ?_⟩
    rintro _ hmem _ hk' rfl
    exact hk (List.mem_singleton.mp hk' ▸ hmem)

theorem place_congr {p q : α → Bool} (h : ∀ b ∈ l, p b = q b) : place p a l = place q a l := by
  induction l with
  | nil => rfl
  | cons b l ih =>
    obtain ⟨hb, hl⟩ := List.forall_mem_cons.mp h
    rw [place, place, hb, ih hl]

theorem find_congr {p q : α → Bool} (h : ∀ b ∈ l, p b = q b) : l.find? p = l.find? q := by
  induction l with
  | nil => rfl
  | cons b l ih =>
    obtain ⟨hb, hl⟩ := List.forall_mem_cons.mp h
    rw [List.find?_cons, List.find?_cons, hb, ih hl]

/-- What is found at a key. -/
theorem find_place (hsame : ∀ b ∈ l, same b = true ↔ key b = k) (ha : key a = k) (k' : κ) :
    (place same a l).find? (fun b => key b = k') =
      if k = k' then some a else l.find? fun b => key b = k' := by
  induction l with
  | nil => by_cases hk : k = k' <;> simp [place, ha, hk]
  | cons b l ih =>
    obtain ⟨hb, hl⟩ := List.forall_mem_cons.mp hsame
    rw [place]
    by_cases hbk : key b = k
    · rw [if_pos (hb.mpr hbk)]
      by_cases hk : k = k' <;> simp [ha, hbk, hk]
    · rw [if_neg (mt hb.mp hbk), List.find?_cons, ih hl, List.find?_cons]
      by_cases hk : k = k'
      · subst hk
        simp [hbk]
      · simp [hk]

theorem find_key_eq {b : α} (h : l.find? (fun b => key b = k) = some b) : key b = k := by
  simpa using List.find?_some h

theorem find_of_nodup (h : (l.map key).Nodup) (hb : b ∈ l) : l.find? (fun c => key c = key b) = some b := by
  cases hfind : l.find? fun c => key c = key b with
  | none => exact absurd (decide_eq_true rfl) (List.find?_eq_none.mp hfind b hb)
  | some c =>
    have hkey : key c = key b := find_key_eq hfind
    rw [List.inj_on_of_nodup_map h (List.mem_of_find?_eq_some hfind) hb hkey]

end Place

/-! ### Runs -/

section Book
variable {α β κ : Type} [DecidableEq κ] (loc : β → κ) (put : β → Option α → Option α)

/-- What a step makes of the entry at its key. -/
def entryStep (e : Option α) (b : β) : Option (Option α) := (put b e).map some

/-- A table as seen from outside: nothing but the entry at the key of the step changes. -/
def bookStep (t : κ → Option α) (b : β) : Option (κ → Option α) :=
  (put b (t (loc b))).map fun a => Function.update t (loc b) (some a)

variable {loc put}

theorem runList_book {t t' : κ → Option α} {bs : List β} : runList (bookStep loc put) t bs = some t' ↔
    ∀ k, runList (entryStep put) (t k) (bs.filter fun b => loc b = k) = some (t' k) := by
  induction bs generalizing t with
  | nil => simp [runList, funext_iff]
  | cons b bs ih =>
    rw [runList, bookStep]
    cases hput : put b (t (loc b)) with
    | none =>
      refine iff_of_false (by simp) fun h => ?_
      have hb := h (loc b)
      rw [List.filter_cons_of_pos (by simp), runList, entryStep, hput] at hb
      cases hb
    | some a =>
      rw [Option.map_some, Option.bind_some, ih]
      refine forall_congr' fun k => ?_
      by_cases hk : loc b = k
      · subst hk
        rw [Function.update_self, List.filter_cons_of_pos (by simp), runList, entryStep, hput]
        rfl
      · rw [Function.update_of_ne (Ne.symm hk), List.filter_cons_of_neg (by simpa using hk)]

/-- **A run goes through exactly if it does at every key.** -/
theorem runList_book_some {t : κ → Option α} {bs : List β} : (∃ t', runList (bookStep loc put) t bs = some t') ↔
    ∀ k, ∃ e, runList (entryStep put) (t k) (bs.filter fun b => loc b = k) = some e := by
  constructor
  · rintro ⟨t', h⟩ k
    exact ⟨t' k, runList_book.mp h k⟩
  · intro h
    choose t' h using h
    exact ⟨t', runList_book.mpr h⟩

end Book

section Simulate
variable {σ τ β : Type} {step : σ → β → Option σ} {step' : τ → β → Option τ} {view : σ → τ} {Inv : σ → Prop}

/-- Where every step does what the step of the other system does to its view, a run does what the run does. -/
theorem runList_simulate (hstep : ∀ s b, Inv s → (step s b).map view = step' (view s) b)
    (hinv : ∀ s b s', Inv s → step s b = some s' → Inv s') {s : σ} (h : Inv s) (bs : List β) :
    (runList step s bs).map view = runList step' (view s) bs ∧ ∀ s', runList step s bs = some s' → Inv s' := by
  induction bs generalizing s with
  | nil => exact ⟨rfl, fun s' hs => Option.some.inj hs ▸ h⟩
  | cons b bs ih =>
    have hb := hstep s b h
    rw [runList, runList]
    cases hs : step s b with
    | none =>
      rw [hs] at hb
      rw [← hb]
      exact ⟨rfl, fun s' hs' => by cases hs'⟩
    | some s₁ =>
      rw [hs] at hb
      rw [← hb]
      exact ih (hinv s b s₁ h hs)

end Simulate

end PgRest.Lib
