import PgRest.Lib.Ring
import PgRest.Slab.Pool

/-! What the steps that only link page headers leave: the ring that is meant, and all else
as it was. -/
namespace PgRest.Slab
open Lib

/-! ### Reading and writing one header -/

theorem Pool.get_eq {pool : Pool} {r : Ref} (h : pool.has r = true) : pool.get r = some (pool.header r) :=
  if_pos h

theorem Pool.modify_eq {pool : Pool} {r : Ref} (h : pool.has r = true) (f : Header → Header) :
    pool.modify r f = some (pool.put r (f (pool.header r))) := if_pos h

theorem Pool.has_page {pool : Pool} {i : Nat} (h : i < pool.pages) : pool.has (.page i) = true := by
  simp [Pool.has, h]

section
variable (pool : Pool) (r : Ref) (h : Header)

@[simp] theorem put_has : (pool.put r h).has = pool.has := by
  funext r'
  cases r' <;> rfl
@[simp] theorem put_self : (pool.put r h).header r = h := Function.update_self ..
@[simp] theorem put_pages : (pool.put r h).pages = pool.pages := rfl
@[simp] theorem put_address : (pool.put r h).address = pool.address := rfl
@[simp] theorem put_word : (pool.put r h).word = pool.word := rfl

theorem put_of_ne {r' : Ref} (hne : r' ≠ r) : (pool.put r h).header r' = pool.header r' :=
  Function.update_of_ne hne ..

end

/-! ### Rings of headers -/

/-- The members of the ring at `s`. -/
def Linked (header : Ref → Header) (s : Ref) (l : List Ref) : Prop :=
  Ring (fun r => (header r).next) (fun r => (header r).prev) s l

/-- Only links of the ring at `s` have changed, and no types of pages. -/
structure Relinked (header header' : Ref → Header) (s : Ref) (l : List Ref) : Prop where
  slab : ∀ r, (header' r).slab = (header r).slab
  kind : ∀ r, r ≠ s → (header' r).kind = (header r).kind
  others : ∀ r, r ∉ s :: l → header' r = header r

theorem Linked.congr {header header' : Ref → Header} {s : Ref} {l : List Ref} (h : Linked header s l)
    (hs : ∀ r ∈ s :: l, header' r = header r) : Linked header' s l :=
  Ring.congr h (fun r hr => by rw [hs r hr]) fun r hr => by rw [hs r (List.mem_cons_of_mem _ hr)]

/-- A member links to another, or to the sentinel. -/
theorem Linked.next_ne {header : Ref → Header} {s x : Ref} {l : List Ref} (h : Linked header s l) (hx : x ∈ l) :
    (header x).next ≠ none := by
  obtain ⟨p, q, -, hq, -⟩ := Ring.unlink h hx
  simp [hq]

/-- A pool with other headers. -/
def Pool.withHeader (pool : Pool) (header : Ref → Header) : Pool := { pool with header := header }

section
variable (pool : Pool) (header header' : Ref → Header)

@[simp] theorem withHeader_header : (pool.withHeader header).header = header := rfl
@[simp] theorem withHeader_pages : (pool.withHeader header).pages = pool.pages := rfl
@[simp] theorem withHeader_address : (pool.withHeader header).address = pool.address := rfl
@[simp] theorem withHeader_word : (pool.withHeader header).word = pool.word := rfl
@[simp] theorem withHeader_withHeader : (pool.withHeader header).withHeader header' = pool.withHeader header' := rfl
@[simp] theorem withHeader_put (r : Ref) (h : Header) :
    (pool.withHeader header).put r h = pool.withHeader (Function.update header r h) := rfl
@[simp] theorem withHeader_has : (pool.withHeader header).has = pool.has := by
  funext r
  cases r <;> rfl

end

theorem unlink_spec {pool : Pool} {s x : Ref} {l : List Ref} (h : Linked pool.header s l) (hx : x ∈ l)
    (hk : ∀ r ∈ l, (pool.header r).kind = (pool.header x).kind) (hhas : ∀ r ∈ s :: l, pool.has r = true) :
    ∃ header, unlink pool x = some (pool.withHeader header) ∧ Linked header s (l.erase x) ∧
      Relinked pool.header header s l ∧ header x = pool.header x := by
  obtain ⟨p, q, hp, hq, hpl, hql, hpx, hqx, hring⟩ := Ring.unlink h hx
  have hpool : unlink pool x = some ((pool.put p { pool.header p with next := some q }).put q
      { (pool.put p { pool.header p with next := some q }).header q with
        prev := some p, kind := (pool.header x).kind }) := by
    simp only [unlink, Pool.get_eq (hhas x (List.mem_cons_of_mem _ hx)), hp, hq, Option.bind_eq_bind,
      Option.bind_some]
    rw [Pool.modify_eq (hhas p hpl), Option.bind_some, Pool.modify_eq (by simpa using hhas q hql)]
  refine ⟨fun r =>
    { pool.header r with
      next := if r = p then some q else (pool.header r).next
      prev := if r = q then some p else (pool.header r).prev
      kind := if r = q then (pool.header x).kind else (pool.header r).kind }, ?_, ?_, ?_, ?_⟩
  · rw [hpool, Option.some.injEq]
    simp only [Pool.withHeader, Pool.put, Pool.mk.injEq, true_and, and_true]
    funext r
    by_cases hrq : r = q
    · subst hrq
      by_cases hrp : r = p
      · subst hrp
        simp
      · simp [hrp]
    · by_cases hrp : r = p
      · subst hrp
        simp [hrq]
      · simp [hrq, hrp]
  · refine hring _ _ (if_pos rfl) (fun r _ hrp _ => if_neg hrp) (fun _ => if_pos rfl) fun r _ hrq _ => if_neg hrq
  · refine ⟨fun _ => rfl, fun r hrs => ?_, fun r hr => ?_⟩
    · dsimp only
      split
      · next hrq =>
        subst hrq
        rw [hk r ((List.mem_cons.mp hql).resolve_left hrs)]
      · rfl
    · have hrp : r ≠ p := fun he => hr (he ▸ hpl)
      have hrq : r ≠ q := fun he => hr (he ▸ hql)
      simp only [if_neg hrp, if_neg hrq]
  · simp only [if_neg (Ne.symm hpx), if_neg (Ne.symm hqx)]

/-- The headers when `x` has come to stand behind the sentinel, in front of `first`. -/
def pushed (header : Ref → Header) (s x first : Ref) (kind : Kind) (r : Ref) : Header :=
  { header r with
    next := if r = x then some first else if r = s then some x else (header r).next
    prev := if r = x then some s else if r = first then some x else (header r).prev
    kind := if r = x ∨ r = first then kind else (header r).kind }

theorem pushed_spec {header : Ref → Header} {s x : Ref} {l : List Ref} (h : Linked header s l)
    (hx : x ∉ s :: l) {k : Kind} (hk : ∀ r ∈ l, (header r).kind = k) :
    ∃ first, (header s).next = some first ∧ first ∈ s :: l ∧ Linked (pushed header s x first k) s (x :: l) ∧
      (∀ r, (pushed header s x first k r).slab = (header r).slab) ∧
      (pushed header s x first k x).kind = k ∧
      (∀ r, r ≠ s → r ≠ x → (pushed header s x first k r).kind = (header r).kind) ∧
      ∀ r, r ∉ s :: x :: l → pushed header s x first k r = header r := by
  obtain ⟨first, hfirst, hmem, hring⟩ := Ring.push h hx
  have hxs : x ≠ s := fun he => hx (by simp [he])
  have hxl : ∀ r ∈ l, r ≠ x := fun r hr he => hx (by simp [← he, hr])
  have hsl : ∀ r ∈ l, r ≠ s := fun r hr he => (List.nodup_cons.mp h.nodup).1 (he ▸ hr)
  refine ⟨first, hfirst, hmem, hring _ _ ?_ (if_pos rfl) (fun r hr => ?_) (if_pos rfl) (fun hfs => ?_)
    (fun r hr hrf => ?_), fun _ => rfl, if_pos (Or.inl rfl), fun r hrs hrx => ?_, fun r hr => ?_⟩
  · simp only [pushed, if_neg (Ne.symm hxs), if_true]
  · simp only [pushed, if_neg (hxl r hr), if_neg (hsl r hr)]
  · have hfx : first ≠ x := fun he => hx (he ▸ hmem)
    simp only [pushed, if_neg hfx, if_true]
  · simp only [pushed, if_neg (hxl r hr), if_neg hrf]
  · simp only [pushed, hrx, false_or]
    split
    · next hrf =>
      subst hrf
      rw [hk r ((List.mem_cons.mp hmem).resolve_left hrs)]
    · rfl
  · simp only [List.mem_cons, not_or] at hr
    have hrf : r ≠ first := by
      rintro rfl
      rcases List.mem_cons.mp hmem with hm | hm
      · exact hr.1 hm
      · exact hr.2.2 hm
    simp only [pushed, if_neg hr.1, hr.2.1, hrf, or_self, if_false]

/-- Headers are the pushed ones when the writes at `x`, at `first` and at the sentinel are these. -/
theorem eq_pushed {header header' : Ref → Header} {s x first : Ref} {kind : Kind} (hne : first ≠ x) (hsx : s ≠ x)
    (hx : header' x = { header x with prev := some s, next := some first, kind := kind })
    (hf : header' first = { header first with
      prev := some x, kind := kind, next := if first = s then some x else (header first).next })
    (hs : s ≠ first → header' s = { header s with next := some x })
    (hr : ∀ r, r ≠ x → r ≠ first → r ≠ s → header' r = header r) :
    header' = pushed header s x first kind := by
  funext r
  by_cases hrx : r = x
  · subst hrx
    simp [hx, pushed, Ne.symm hne]
  by_cases hrf : r = first
  · subst hrf
    simp [hf, pushed, hrx]
  by_cases hrs : r = s
  · subst hrs
    simp [hs hrf, pushed, hrx, hrf]
  · simp [hr r hrx hrf hrs, pushed, hrx, hrf, hrs]

theorem pushFree_eq {pool : Pool} {first : Ref} {i : Nat} (hfirst : (pool.header .free).next = some first)
    (hi : pool.has (.page i) = true) (hf : pool.has first = true) (hne : first ≠ .page i) :
    pushFree pool i = some (pool.withHeader (pushed pool.header .free (.page i) first .page)) := by
  have hfree : pool.has .free = true := rfl
  simp only [pushFree, Pool.get_eq hfree, hfirst, Option.bind_eq_bind, Option.bind_some]
  rw [Pool.modify_eq hi, Option.bind_some, Pool.modify_eq (by simpa using hf), Option.bind_some,
    Pool.modify_eq (by simp [Pool.has]), Option.some.injEq]
  simp only [Pool.withHeader, Pool.put, Pool.mk.injEq, true_and, and_true]
  refine eq_pushed hne (by simp) ?_ ?_ (fun hs => ?_) fun r hrx hrf hrs => ?_
  · simp [Ne.symm hne]
  · by_cases hs : first = .free
    · subst hs
      simp
    · simp [hs, hne]
  · simp [hs]
  · simp [hrx, hrf, hrs]

theorem relink_eq {pool : Pool} {first : Ref} {i shift slot : Nat} (hslot : shift - pool.minShift = slot)
    (hfirst : (pool.header (.slot slot)).next = some first) (hi : pool.has (.page i) = true)
    (hs : pool.has (.slot slot) = true) (hf : pool.has first = true) (hne : first ≠ .page i) (kind : Kind) :
    relink pool i shift kind = some (pool.withHeader (pushed pool.header (.slot slot) (.page i) first kind)) := by
  simp only [relink, hslot, Pool.get_eq hs, hfirst, Option.bind_eq_bind, Option.bind_some]
  rw [Pool.modify_eq hi, Option.bind_some, Pool.modify_eq (by simpa using hs), Option.bind_some,
    Pool.modify_eq (by simpa using hi), Option.bind_some, Pool.modify_eq (by simpa using hf), Option.some.injEq]
  simp only [Pool.withHeader, Pool.put, Pool.mk.injEq, true_and, and_true]
  refine eq_pushed hne (by simp) ?_ ?_ (fun hs => ?_) fun r hrx hrf hrs => ?_
  · simp [Ne.symm hne]
  · by_cases hs : first = .slot slot
    · subst hs
      simp
    · simp [hs, hne]
  · simp [hs]
  · simp [hrx, hrf, hrs]

/-- `n` page headers, from `i` on, that have come to be the same. -/
def filled (header : Ref → Header) (h : Header) (i n : Nat) : Ref → Header
  | .page j => if i ≤ j ∧ j < i + n then h else header (.page j)
  | r => header r

theorem setPages_spec (h : Header) {pool : Pool} {i n : Nat} (hn : i + n ≤ pool.pages) :
    setPages h i n pool = some (pool.withHeader (filled pool.header h i n)) := by
  induction n generalizing pool i with
  | zero =>
    have hsame : filled pool.header h i 0 = pool.header := by
      funext r
      cases r with
      | page j => rw [filled, if_neg (by omega)]
      | free => rfl
      | slot => rfl
    rw [setPages, hsame]
    rfl
  | succ n ih =>
    rw [setPages, Pool.modify_eq (Pool.has_page (by omega)), Option.bind_eq_bind, Option.bind_some,
      ih (by rw [put_pages]; omega), Option.some.injEq]
    simp only [Pool.withHeader, Pool.put, Pool.mk.injEq, true_and, and_true]
    funext r
    cases r with
    | page j =>
      rw [filled, filled]
      by_cases hj : j = i
      · subst hj
        rw [if_neg (by omega), if_pos (by omega), Function.update_self]
      · rw [Function.update_of_ne (by simpa using hj)]
        by_cases hin : i + 1 ≤ j ∧ j < i + 1 + n
        · rw [if_pos hin, if_pos (by omega)]
        · rw [if_neg hin, if_neg (by omega)]
    | free => rfl
    | slot => rfl

end PgRest.Slab
