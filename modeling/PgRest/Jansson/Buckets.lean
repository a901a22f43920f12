import PgRest.Jansson.Hashtable

/-! The list of a hash table by its buckets. The pairs are the members of a list in which those of a bucket stand next to
each other, and a bucket has the two ends of its group. Putting a pair into its bucket and taking one out keep this, and
within a bucket every pair that is there is found. -/
namespace PgRest.Jansson
open Lib

/-! ### Links -/

section Links
variable {links : Place → Links} {q x r : Place}

theorem listInsert_next (hxq : x ≠ q) (hpx : (links q).prev ≠ x) :
    (listInsert links q x r).next =
      if r = (links q).prev then x else if r = x then q else (links r).next := by
  simp only [listInsert, setPrev, setNext, Function.update_apply]
  grind

theorem listInsert_prev (hxq : x ≠ q) :
    (listInsert links q x r).prev =
      if r = q then x else if r = x then (links q).prev else (links r).prev := by
  simp only [listInsert, setPrev, setNext, Function.update_apply]
  grind

theorem listRemove_next :
    (listRemove links x r).next = if r = (links x).prev then (links x).next else (links r).next := by
  simp only [listRemove, setPrev, setNext, Function.update_apply]
  grind

theorem listRemove_prev (hq : (links x).prev ≠ x) :
    (listRemove links x r).prev = if r = (links x).next then (links x).prev else (links r).prev := by
  simp only [listRemove, setPrev, setNext, Function.update_apply]
  grind

end Links

/-- The places of some pairs make up a circle with that of the table. -/
def Circular (links : Place → Links) (l : List Nat) : Prop :=
  Loop (fun r => (links r).next) (fun r => (links r).prev) .table (l.map .pair)

namespace Circular
variable {links links' : Place → Links} {l u v : List Nat} {n : Nat}

theorem nodup (h : Circular links l) : l.Nodup := List.Nodup.of_map _ (List.nodup_cons.mp h.ring.nodup).2

theorem congr (h : Circular links l) (ht : links' .table = links .table)
    (hl : ∀ n ∈ l, links' (.pair n) = links (.pair n)) : Circular links' l := by
  have hsame : ∀ r ∈ Place.table :: l.map .pair, links' r = links r := by
    rintro r (_ | ⟨_, hr⟩)
    · exact ht
    · obtain ⟨n, hn, rfl⟩ := List.mem_map.mp hr
      exact hl n hn
  exact Loop.congr h (fun r hr => by rw [hsame r hr]) fun r hr => by rw [hsame r hr]

/-- A pair is put in front of the place `q`. -/
theorem insert (h : Circular links (u ++ v)) {q : Place} (hq : (v.map Place.pair ++ [Place.table]).head? = some q)
    (hn : n ∉ u ++ v) : Circular (listInsert links q (.pair n)) (u ++ n :: v) := by
  have h' : Loop (fun r => (links r).next) (fun r => (links r).prev) .table (u.map .pair ++ v.map .pair) := by
    rw [← List.map_append]
    exact h
  have hx : Place.pair n ∉ Place.table :: (u.map .pair ++ v.map .pair) := by
    rw [← List.map_append]
    simpa using hn
  obtain ⟨w, hv⟩ : ∃ w, v.map Place.pair ++ [Place.table] = q :: w := ⟨_, (List.cons_head?_tail hq).symm⟩
  have hmem : q ∈ Place.table :: (u.map .pair ++ v.map .pair) := by
    have : q ∈ v.map Place.pair ++ [Place.table] := hv ▸ List.mem_cons_self
    rcases List.mem_append.mp this with hm | hm
    · exact List.mem_cons_of_mem _ (List.mem_append_right _ hm)
    · exact List.mem_singleton.mp hm ▸ List.mem_cons_self
  have hxq : Place.pair n ≠ q := fun he => hx (he ▸ hmem)
  have hpx : (links q).prev ≠ .pair n := fun he => hx (he ▸ h'.prev_mem hmem)
  rw [Circular, List.map_append, List.map_cons]
  refine h'.insert hv hx ?_ ?_ ?_ ?_ (fun r hrp hrx => ?_) fun r hrq hrx => ?_
  · simp [listInsert_next hxq hpx]
  · simp [listInsert_next hxq hpx, hpx.symm]
  · simp [listInsert_prev hxq, hxq]
  · simp [listInsert_prev hxq]
  · simp [listInsert_next hxq hpx, hrp, hrx]
  · simp [listInsert_prev hxq, hrq, hrx]

theorem remove (h : Circular links (u ++ n :: v)) : Circular (listRemove links (.pair n)) (u ++ v) := by
  have h' : Loop (fun r => (links r).next) (fun r => (links r).prev) .table (u.map .pair ++ .pair n :: v.map .pair) := by
    rw [← List.map_cons, ← List.map_append]
    exact h
  have hself : (links (.pair n)).prev ≠ .pair n := by
    intro he
    obtain ⟨w, p, -, -, hw, -⟩ := Ring.ends Place.table (u.map .pair) []
    have hp : (links (.pair n)).prev = p := (h'.adjacent (v := v.map .pair ++ [.table]) hw rfl).2
    have hmem : Place.pair n ∈ Place.table :: u.map .pair := hw ▸ he ▸ hp ▸ List.mem_append_right _ List.mem_cons_self
    have hu : n ∈ u := by simpa using hmem
    exact (List.nodup_append.mp h.nodup).2.2 n hu n List.mem_cons_self rfl
  rw [Circular, List.map_append]
  refine h'.remove ?_ ?_ (fun r hr => ?_) fun r hr => ?_
  · simp [listRemove_next]
  · simp [listRemove_prev hself]
  · simp [listRemove_next, hr]
  · simp [listRemove_prev hself, hr]

end Circular

/-- Going by `next`, the pairs are met one after the other, and then the table. -/
def Leads (links : Place → Links) : Place → List Nat → Prop
  | r, [] => r = .table
  | r, n :: l => r = .pair n ∧ Leads links (links (.pair n)).next l

theorem Leads.congr {links links' : Place → Links} {r : Place} {l : List Nat} (h : Leads links r l)
    (hl : ∀ n ∈ l, links' (.pair n) = links (.pair n)) : Leads links' r l := by
  induction l generalizing r with
  | nil => exact h
  | cons n l ih =>
    obtain ⟨hn, hl⟩ := List.forall_mem_cons.mp hl
    exact ⟨h.1, ih (hn ▸ h.2) hl⟩

theorem leads_of_chain {links : Place → Links} {r : Place} {l : List Nat}
    (h : (r :: (l.map Place.pair ++ [Place.table])).IsChain fun x y => some (links x).next = some y) :
    Leads links (links r).next l := by
  induction l generalizing r with
  | nil => exact Option.some.inj (List.isChain_cons_cons.mp h).1
  | cons n l ih =>
    obtain ⟨hn, hrest⟩ := List.isChain_cons_cons.mp h
    exact ⟨Option.some.inj hn, ih hrest⟩

theorem Circular.leads {links : Place → Links} {l : List Nat} (h : Circular links l) :
    Leads links (links .table).next l := leads_of_chain h.ring.fore

/-- Pairs next to each other. -/
theorem Circular.adjacent {links : Place → Links} {u v : List Nat} {n m : Nat} (h : Circular links (u ++ n :: m :: v)) :
    (links (.pair n)).next = .pair m ∧ (links (.pair m)).prev = .pair n := by
  have hchain := h.chain (m := [.pair n, .pair m]) ⟨u.map .pair, v.map .pair ++ [.table], by simp⟩
  have hnext : (links (.pair n)).next = .pair m := (List.isChain_cons_cons.mp hchain).1
  have hmem : Place.pair n ∈ Place.table :: (u ++ n :: m :: v).map .pair := by simp
  have hprev := (Loop.next_prev h hmem).2
  exact ⟨hnext, hnext ▸ hprev⟩

/-! ### Buckets -/

/-- The first and the last pair of a bucket. -/
def ends (g : List Nat) : Place × Place := ((g.head?.map .pair).getD .table, (g.getLast?.map .pair).getD .table)

theorem bucketIsEmpty_ends (g : List Nat) : Hashtable.bucketIsEmpty (ends g) ↔ g = [] := by
  cases g with
  | nil => exact iff_of_true ⟨rfl, rfl⟩ rfl
  | cons n g => exact iff_of_false (fun h => nomatch h.1) nofun

theorem ends_cons (n : Nat) (g : List Nat) :
    ends (n :: g) = (.pair n, if g = [] then .pair n else (ends g).2) := by
  cases g with
  | nil => rfl
  | cons m g => simp [ends, List.getLast?_cons_cons]

namespace Hashtable
variable {β : Type}

/-- The bucket of a pair. -/
def bucketOf (t : Hashtable β) (n : Nat) : Nat := ((t.pairs n).map fun pair => t.index pair.hash).getD 0

theorem index_eq (t : Hashtable β) (h : Nat) : t.index h = h % 2 ^ t.order := Nat.and_two_pow_sub_one_eq_mod h t.order

theorem index_lt (t : Hashtable β) (h : Nat) : t.index h < 2 ^ t.order := by
  rw [index_eq]
  exact Nat.mod_lt _ (Nat.two_pow_pos _)

theorem bucketOf_eq {t : Hashtable β} {n : Nat} {pair : Pair β} (h : t.pairs n = some pair) :
    t.bucketOf n = t.index pair.hash := by rw [bucketOf, h, Option.map_some, Option.getD_some]

/-- The list of the buckets, and the buckets. -/
structure Filed (t : Hashtable β) (l : List Nat) : Prop where
  circular : Circular t.list l
  live : ∀ n ∈ l, (t.pairs n).isSome
  grouped : Grouped t.bucketOf l
  count : t.buckets.length = 2 ^ t.order
  bucket : ∀ i < 2 ^ t.order, t.buckets[i]? = some (ends (group t.bucketOf i l))

variable {t t' : Hashtable β} {l : List Nat} {n i : Nat}

theorem Filed.live_of_mem (h : Filed t l) {r : Place} (hr : r ∈ Place.table :: l.map .pair) : t.live r = true := by
  rcases List.mem_cons.mp hr with rfl | hr
  · rfl
  · obtain ⟨n, hn, rfl⟩ := List.mem_map.mp hr
    exact h.live n hn

/-- Only the pairs in the list count. -/
theorem Filed.congr (h : Filed t l) (ht : t'.list .table = t.list .table)
    (hlist : ∀ n ∈ l, t'.list (.pair n) = t.list (.pair n))
    (hpairs : ∀ n ∈ l, (t'.pairs n).map Pair.hash = (t.pairs n).map Pair.hash)
    (hbuckets : t'.buckets = t.buckets) (horder : t'.order = t.order) : Filed t' l := by
  have hbucket : ∀ n ∈ l, t'.bucketOf n = t.bucketOf n := by
    intro n hn
    have hn := hpairs n hn
    have hindex : t'.index = t.index := by
      funext h
      rw [index, index, horder]
    rw [bucketOf, bucketOf, hindex]
    cases hp : t.pairs n <;> cases hp' : t'.pairs n <;> simp_all
  refine ⟨h.circular.congr ht hlist, fun n hn => ?_, h.grouped.congr hbucket, by rw [hbuckets, horder, h.count], ?_⟩
  · have hsome := congrArg Option.isSome (hpairs n hn)
    rw [Option.isSome_map, Option.isSome_map] at hsome
    rw [hsome, h.live n hn]
  · intro i hi
    rw [horder] at hi
    rw [hbuckets, h.bucket i hi, group_congr hbucket]

/-- What else a table has is as it was, and so are the links of other pairs. -/
structure SameBut (t t' : Hashtable β) (l : List Nat) : Prop where
  size : t'.size = t.size
  order : t'.order = t.order
  orderedList : t'.orderedList = t.orderedList
  pairs : t'.pairs = t.pairs
  links : ∀ m, m ∉ l → t'.list (.pair m) = t.list (.pair m)

theorem listInsert_other {links : Place → Links} {q x r : Place} (hq : r ≠ q) (hx : r ≠ x) (hp : r ≠ (links q).prev)
    (hxq : x ≠ q) (hpx : (links q).prev ≠ x) : listInsert links q x r = links r := by
  have hnext := listInsert_next (r := r) hxq hpx
  have hprev : (listInsert links q x r).prev = if r = q then x else if r = x then (links q).prev else (links r).prev :=
    listInsert_prev hxq
  rw [if_neg hp, if_neg hx] at hnext
  rw [if_neg hq, if_neg hx] at hprev
  exact congrArg₂ Links.mk hprev hnext

/-- **A pair is put into its bucket**, in front of what is there. -/
theorem Filed.insert (h : Filed t l) (hn : n ∉ l) (hlive : (t.pairs n).isSome) :
    ∃ t' u v, t.insertToBucket (t.bucketOf n) (.pair n) = some t' ∧ l = u ++ v ∧ Filed t' (u ++ n :: v) ∧
      SameBut t t' (n :: l) := by
  obtain ⟨pair, hpair⟩ := Option.isSome_iff_exists.mp hlive
  have hi : t.bucketOf n < 2 ^ t.order := bucketOf_eq hpair ▸ t.index_lt _
  obtain ⟨u, v, hl, hu, hv, hend⟩ := h.grouped.spot (t.bucketOf n)
  have hg : ∀ a ∈ group t.bucketOf (t.bucketOf n) l, t.bucketOf a = t.bucketOf n := fun a ha => (mem_group.mp ha).2
  have hbucket := h.bucket _ hi
  generalize hgroup : group t.bucketOf (t.bucketOf n) l = g at *
  -- in front of the first of them, or of the table
  have hq : ((g ++ v).map Place.pair ++ [Place.table]).head? = some (ends g).1 := by
    cases g with
    | nil =>
      rw [hend rfl]
      rfl
    | cons m g => rfl
  have hqmem : (ends g).1 ∈ Place.table :: l.map .pair := by
    cases g with
    | nil => exact List.mem_cons_self
    | cons m g => exact List.mem_cons_of_mem _ (List.mem_map_of_mem (hl ▸ by simp))
  rw [List.append_assoc] at hl
  subst hl
  have hcirc := h.circular.insert hq hn
  have hinsert : t.insertList (ends g).1 (.pair n) = some { t with list := listInsert t.list (ends g).1 (.pair n) } :=
    if_pos ⟨h.live_of_mem hqmem, hlive, h.live_of_mem (Loop.prev_mem h.circular hqmem)⟩
  have hnew : t.insertToBucket (t.bucketOf n) (.pair n) = some { t with
      list := listInsert t.list (ends g).1 (.pair n), buckets := t.buckets.set (t.bucketOf n) (ends (n :: g)) } := by
    rw [insertToBucket, hbucket, Option.bind_some, ends_cons]
    by_cases hempty : g = []
    · subst hempty
      rw [if_pos ((bucketIsEmpty_ends []).mpr rfl), if_pos rfl]
      exact congrArg (Option.map _) hinsert
    · rw [if_neg (mt (bucketIsEmpty_ends g).mp hempty), if_neg hempty]
      exact congrArg (Option.map _) hinsert
  refine ⟨_, u, g ++ v, hnew, rfl, ⟨hcirc, ?_, ?_, ?_, ?_⟩, rfl, rfl, rfl, rfl, ?_⟩
  · intro m hm
    rcases List.mem_append.mp hm with hm | hm
    · exact h.live m (List.mem_append_left _ hm)
    · rcases List.mem_cons.mp hm with rfl | hm
      · exact hlive
      · exact h.live m (List.mem_append_right _ hm)
  · have hput := (List.append_assoc u g v ▸ h.grouped : Grouped t.bucketOf (u ++ g ++ v)).put (x := n) hg hu hv hend
    rw [List.append_assoc, List.cons_append] at hput
    exact hput
  · exact (List.length_set ..).trans h.count
  · intro j hj
    have hput := group_put hg hu hv j
    rw [List.append_assoc, List.append_assoc, List.cons_append] at hput
    show (t.buckets.set (t.bucketOf n) (ends (n :: g)))[j]? = some (ends (group t.bucketOf j (u ++ n :: (g ++ v))))
    rw [hput]
    by_cases hij : t.bucketOf n = j
    · subst hij
      rw [if_pos rfl, List.getElem?_set_self (h.count ▸ hi)]
    · rw [if_neg hij, List.getElem?_set_ne hij, h.bucket j hj]
  · intro m hm
    have hm' : Place.pair m ∉ Place.table :: (u ++ (g ++ v)).map .pair := by
      intro hmem
      have : m ∈ u ++ (g ++ v) := by simpa using hmem
      exact hm (List.mem_cons_of_mem _ this)
    have hxmem : Place.pair n ∉ Place.table :: (u ++ (g ++ v)).map .pair := by
      intro hmem
      exact hn (by simpa using hmem)
    have hpmem := Loop.prev_mem h.circular hqmem
    exact listInsert_other (fun he => hm' (he ▸ hqmem)) (fun he => hm (by cases he; exact List.mem_cons_self))
      (fun he => hm' (he ▸ hpmem)) (fun he => hxmem (he ▸ hqmem)) fun he => hxmem (he ▸ hpmem)

/-- The pair that is looked for. -/
def isAt (t : Hashtable β) (h : Nat) (key : Bytes) (n : Nat) : Bool :=
  (t.pairs n).any fun pair => pair.hash = h && pair.key = key

theorem isAt_iff {h : Nat} {key : Bytes} :
    t.isAt h key n = true ↔ ∃ pair, t.pairs n = some pair ∧ pair.hash = h ∧ pair.key = key := by
  simp [isAt, Option.any_eq_true]

/-- The walk through a bucket. -/
theorem findFrom_eq {g : List Nat} {h : Nat} {key : Bytes} {fuel : Nat}
    (hchain : (n :: g).IsChain fun x y => (t.list (.pair x)).next = .pair y) (hnodup : (n :: g).Nodup)
    (hlive : ∀ m ∈ n :: g, (t.pairs m).isSome) (hfuel : g.length < fuel) :
    t.findFrom (ends (n :: g)).2 key h fuel (.pair n) = some ((n :: g).find? (t.isAt h key)) := by
  induction g generalizing n fuel with
  | nil =>
    obtain ⟨pair, hpair⟩ := Option.isSome_iff_exists.mp (hlive n List.mem_cons_self)
    obtain ⟨fuel, rfl⟩ : ∃ k, fuel = k + 1 := ⟨fuel - 1, by omega⟩
    have hlast : Place.pair n = (ends [n]).2 := rfl
    rw [findFrom, hpair, Option.bind_some, List.find?_cons, isAt, hpair, Option.any_some]
    by_cases hmatch : pair.hash = h ∧ pair.key = key
    · simp [hmatch]
    · rw [if_neg hmatch, if_pos hlast]
      rcases not_and_or.mp hmatch with hno | hno <;> simp [hno]
  | cons m g ih =>
    obtain ⟨pair, hpair⟩ := Option.isSome_iff_exists.mp (hlive n List.mem_cons_self)
    obtain ⟨fuel, rfl⟩ : ∃ k, fuel = k + 1 := ⟨fuel - 1, by omega⟩
    obtain ⟨hn, hnodup⟩ := List.nodup_cons.mp hnodup
    obtain ⟨hnext, hchain⟩ := List.isChain_cons_cons.mp hchain
    have hsame : (ends (n :: m :: g)).2 = (ends (m :: g)).2 := by rw [ends_cons, if_neg (List.cons_ne_nil m g)]
    have hlast : Place.pair n ≠ (ends (m :: g)).2 := by
      intro he
      have hmem : (ends (m :: g)).2 ∈ (m :: g).map Place.pair := by
        rw [ends, List.getLast?_eq_some_getLast (List.cons_ne_nil m g)]
        exact List.mem_map_of_mem (List.getLast_mem _)
      rw [← he] at hmem
      exact hn (by simpa using hmem)
    have hfuel : (m :: g).length ≤ fuel := Nat.le_of_succ_le_succ hfuel
    have hrest := ih hchain hnodup (fun k hk => hlive k (List.mem_cons_of_mem _ hk)) hfuel
    rw [hsame, findFrom, hpair, Option.bind_some, List.find?_cons, isAt, hpair, Option.any_some]
    by_cases hmatch : pair.hash = h ∧ pair.key = key
    · simp [hmatch]
    · rw [if_neg hmatch, if_neg hlast, hnext, hrest]
      rcases not_and_or.mp hmatch with hno | hno <;> simp [hno]

/-- **What is found in a bucket** is the pair with the hash and the key, if there is one. -/
theorem Filed.find (h : Filed t l) (hsize : l.length ≤ t.size) (key : Bytes) (hsh : Nat) :
    ∃ found, t.buckets[t.index hsh]? = some (ends (group t.bucketOf (t.index hsh) l)) ∧
      t.findPair (ends (group t.bucketOf (t.index hsh) l)) key hsh = some found ∧
      (∀ n, found = some n → n ∈ l ∧ t.isAt hsh key n = true) ∧
      (found = none → ∀ n ∈ l, t.isAt hsh key n = false) := by
  have hsub : ∀ n ∈ group t.bucketOf (t.index hsh) l, n ∈ l := fun n hn => (mem_group.mp hn).1
  have hall : ∀ n ∈ l, t.isAt hsh key n = true → n ∈ group t.bucketOf (t.index hsh) l := by
    intro n hn hat
    obtain ⟨pair, hpair, hhash, -⟩ := isAt_iff.mp hat
    exact mem_group.mpr ⟨hn, by rw [bucketOf_eq hpair, hhash]⟩
  refine ⟨(group t.bucketOf (t.index hsh) l).find? (t.isAt hsh key), h.bucket _ (t.index_lt hsh), ?_, ?_, ?_⟩
  · have hgrouped := h.grouped (t.index hsh)
    cases hg : group t.bucketOf (t.index hsh) l with
    | nil => exact if_pos ((bucketIsEmpty_ends []).mpr rfl)
    | cons n g =>
      rw [hg] at hgrouped hsub
      rw [findPair, if_neg (mt (bucketIsEmpty_ends _).mp (List.cons_ne_nil n g))]
      refine findFrom_eq ?_ (hgrouped.sublist.nodup h.circular.nodup) (fun m hm => h.live m (hsub m hm)) ?_
      · obtain ⟨u, v, huv⟩ := hgrouped
        have hinfix : (n :: g).map Place.pair <:+: l.map Place.pair ++ [Place.table] :=
          ⟨u.map .pair, v.map .pair ++ [.table], by rw [← huv]; simp⟩
        exact (List.isChain_map _).mp (Loop.chain h.circular hinfix)
      · have hlength := hgrouped.length_le
        rw [List.length_cons] at hlength
        omega
  · intro n hn
    exact ⟨hsub n (List.mem_of_find?_eq_some hn), List.find?_some hn⟩
  · intro hnone n hn
    rw [Bool.eq_false_iff]
    intro hat
    exact List.find?_eq_none.mp hnone n (hall n hn hat) hat

/-- Pairs are moved one after the other, each into its bucket among those that are there. -/
theorem Filed.move {rest : List Nat} {cur : Place} {fuel : Nat} (h : Filed t l) (hnodup : (rest ++ l).Nodup)
    (hlive : ∀ n ∈ rest, (t.pairs n).isSome) (hleads : Leads t.list cur rest) (hfuel : rest.length ≤ fuel) :
    ∃ t' l', moveFrom fuel cur t = some t' ∧ Filed t' l' ∧ l'.Perm (rest ++ l) ∧ SameBut t t' (rest ++ l) := by
  induction rest generalizing t l cur fuel with
  | nil =>
    obtain rfl : cur = .table := hleads
    exact ⟨t, l, by rw [moveFrom], h, .refl _, rfl, rfl, rfl, rfl, fun _ _ => rfl⟩
  | cons n rest ih =>
    obtain ⟨rfl, hleads⟩ := hleads
    obtain ⟨fuel, rfl⟩ : ∃ k, fuel = k + 1 := ⟨fuel - 1, by simp only [List.length_cons] at hfuel; omega⟩
    obtain ⟨hn, hrest⟩ := List.nodup_cons.mp hnodup
    obtain ⟨hlive₀, hlive⟩ := List.forall_mem_cons.mp hlive
    obtain ⟨pair, hpair⟩ := Option.isSome_iff_exists.mp hlive₀
    obtain ⟨t₁, u, v, hinsert, rfl, hfiled, hsame⟩ := h.insert (fun hl => hn (List.mem_append_right _ hl)) hlive₀
    have hperm : (rest ++ (u ++ n :: v)).Perm (n :: rest ++ (u ++ v)) :=
      (List.perm_middle.append_left rest).trans List.perm_middle
    have hlinks : ∀ m ∈ rest, t₁.list (.pair m) = t.list (.pair m) := by
      intro m hm
      refine hsame.links m fun hmem => ?_
      rcases List.mem_cons.mp hmem with rfl | hmem
      · exact hn (List.mem_append_left _ hm)
      · exact (List.nodup_append.mp hrest).2.2 m hm m hmem rfl
    have hbucket : pair.hash % 2 ^ t.order = t.bucketOf n := by rw [bucketOf_eq hpair, index_eq]
    obtain ⟨t', l', hmove, hfiled', hperm', hsame'⟩ := ih hfiled (hperm.nodup_iff.mpr hnodup)
      (fun m hm => hsame.pairs ▸ hlive m hm) (hleads.congr hlinks) (Nat.le_of_succ_le_succ hfuel)
    refine ⟨t', l', ?_, hfiled', hperm'.trans hperm, ⟨?_, ?_, ?_, ?_, fun m hm => ?_⟩⟩
    · rw [moveFrom, hpair, Option.bind_some, hbucket, hinsert, Option.bind_some, hmove]
    · rw [hsame'.size, hsame.size]
    · rw [hsame'.order, hsame.order]
    · rw [hsame'.orderedList, hsame.orderedList]
    · rw [hsame'.pairs, hsame.pairs]
    · rw [hsame'.links m fun hmem => hm (hperm.mem_iff.mp hmem), hsame.links m fun hmem => hm ?_]
      rcases List.mem_cons.mp hmem with rfl | hmem
      · exact List.mem_cons_self
      · exact List.mem_append_right _ hmem

theorem listInit_self (links : Place → Links) (x : Place) : listInit links x x = ⟨x, x⟩ := Function.update_self ..

theorem listInit_of_ne {links : Place → Links} {x r : Place} (h : r ≠ x) : listInit links x r = links r :=
  Function.update_of_ne h ..

theorem circular_nil {links : Place → Links} (h : links .table = ⟨.table, .table⟩) : Circular links [] :=
  Loop.nil (congrArg Links.next h) (congrArg Links.prev h)

/-- A table in which no bucket has a pair. -/
theorem filed_nil (ht : t.list .table = ⟨.table, .table⟩)
    (hbuckets : t.buckets = List.replicate (2 ^ t.order) (.table, .table)) : Filed t [] := by
  refine ⟨circular_nil ht, by simp, fun i => List.nil_infix, ?_, fun i hi => ?_⟩
  · rw [hbuckets, List.length_replicate]
  · rw [hbuckets, List.getElem?_replicate, if_pos hi]
    rfl

/-- **A rehash** leaves the same pairs in more buckets. -/
theorem Filed.rehash (h : Filed t l) (hsize : l.length ≤ t.size) :
    ∃ t' l', t.doRehash = some t' ∧ Filed t' l' ∧ l'.Perm l ∧ t'.size = t.size ∧ t'.orderedList = t.orderedList ∧
      t'.pairs = t.pairs := by
  have hempty : Filed { t with
      order := t.order + 1
      buckets := List.replicate (2 ^ (t.order + 1)) (.table, .table)
      list := listInit t.list .table } [] := filed_nil (listInit_self t.list .table) rfl
  obtain ⟨t', l', hmove, hfiled, hperm, hsame⟩ := hempty.move
    (by rw [List.append_nil]; exact h.circular.nodup) h.live
    (h.circular.leads.congr fun n _ => listInit_of_ne (show Place.pair n ≠ .table from nofun)) hsize
  rw [List.append_nil] at hperm
  exact ⟨t', l', hmove, hfiled, hperm, hsame.size, hsame.orderedList, hsame.pairs⟩

/-- The ends of a bucket that a pair is taken out of. -/
theorem Filed.ends_remove (h : Filed t l) {a b : List Nat} (hg : a ++ n :: b <:+: l) :
    (if .pair n = (ends (a ++ n :: b)).1 ∧ .pair n = (ends (a ++ n :: b)).2 then (.table, .table)
      else if .pair n = (ends (a ++ n :: b)).1 then ((t.list (.pair n)).next, (ends (a ++ n :: b)).2)
      else if .pair n = (ends (a ++ n :: b)).2 then ((ends (a ++ n :: b)).1, (t.list (.pair n)).prev)
      else ends (a ++ n :: b)) = ends (a ++ b) := by
  obtain ⟨u, v, rfl⟩ := hg
  have hnodup : (a ++ n :: b).Nodup := by
    have := h.circular.nodup
    rw [List.append_assoc] at this
    exact (List.nodup_append.mp (List.nodup_append.mp this).2.1).1
  obtain ⟨-, hnb, hab⟩ := List.nodup_append.mp hnodup
  have hna : n ∉ a := fun hm => hab n hm n List.mem_cons_self rfl
  have hnb : n ∉ b := (List.nodup_cons.mp hnb).1
  have hends {g : List Nat} {m k : Nat} (hm : g.head? = some m) (hk : g.getLast? = some k) :
      ends g = (.pair m, .pair k) := by
    rw [ends, hm, hk]
    rfl
  have hne {g : List Nat} {m : Nat} (hn : n ∉ g) (hm : m ∈ g) : Place.pair n ≠ .pair m := fun he =>
    hn (Place.pair.inj he ▸ hm)
  have hcirc := h.circular
  simp only [List.append_assoc, List.cons_append] at hcirc
  rcases List.eq_nil_or_concat' a with rfl | ⟨a, m, rfl⟩
  · cases b with
    | nil => exact if_pos ⟨rfl, rfl⟩
    | cons k b =>
      obtain ⟨last, hlast⟩ : ∃ last, (k :: b).getLast? = some last := ⟨_, List.getLast?_eq_some_getLast (by simp)⟩
      have hnext := (hcirc.adjacent (u := u) (v := b ++ v)).1
      have hlast' : ([] ++ n :: k :: b).getLast? = some last := by
        rw [List.nil_append, List.getLast?_cons_cons, hlast]
      rw [hends rfl hlast', if_neg fun hboth => hne hnb (List.mem_of_getLast? hlast) hboth.2, if_pos rfl, hnext]
      exact (hends (g := k :: b) rfl hlast).symm
  · obtain ⟨first, hfirst⟩ : ∃ first, (a ++ [m]).head? = some first := ⟨_, List.head?_eq_some_head (by simp)⟩
    have hfirst' (b : List Nat) : (a ++ [m] ++ b).head? = some first := by
      rw [List.head?_append_of_ne_nil _ (by simp), hfirst]
    have hnfirst := hne hna (List.mem_of_head? hfirst)
    cases b with
    | nil =>
      have hprev := (Circular.adjacent (u := u ++ a) (n := m) (m := n) (v := v) (by simpa using hcirc)).2
      rw [hends (hfirst' [n]) (List.getLast?_concat ..), if_neg fun hboth => hnfirst hboth.1, if_neg hnfirst, if_pos rfl,
        hprev, List.append_nil]
      exact (hends hfirst (List.getLast?_concat ..)).symm
    | cons k b =>
      obtain ⟨last, hlast⟩ : ∃ last, (k :: b).getLast? = some last := ⟨_, List.getLast?_eq_some_getLast (by simp)⟩
      have hlast' : (a ++ [m] ++ n :: k :: b).getLast? = some last := by
        rw [List.getLast?_append_cons, List.getLast?_cons_cons, hlast]
      have hnlast := hne hnb (List.mem_of_getLast? hlast)
      rw [hends (hfirst' _) hlast', if_neg fun hboth => hnfirst hboth.1, if_neg hnfirst, if_neg hnlast]
      exact (hends (hfirst' (k :: b)) (by rw [List.getLast?_append_cons, hlast])).symm

/-- **A pair is taken out**, from the list and from its bucket. -/
theorem Filed.remove (h : Filed t l) (hn : n ∈ l) :
    ∃ a b u v, group t.bucketOf (t.bucketOf n) l = a ++ n :: b ∧ l = u ++ n :: v ∧
      ∀ t' : Hashtable β, t'.list = listRemove t.list (.pair n) →
        t'.buckets = t.buckets.set (t.bucketOf n) (ends (a ++ b)) → t'.pairs = Function.update t.pairs n none →
        t'.order = t.order → Filed t' (u ++ v) := by
  obtain ⟨pair, hpair⟩ := Option.isSome_iff_exists.mp (h.live n hn)
  have hi : t.bucketOf n < 2 ^ t.order := bucketOf_eq hpair ▸ t.index_lt _
  obtain ⟨u, v, hl, hu, hv⟩ := h.grouped.split (t.bucketOf n)
  have hg : ∀ m ∈ group t.bucketOf (t.bucketOf n) l, t.bucketOf m = t.bucketOf n := fun m hm => (mem_group.mp hm).2
  obtain ⟨a, b, hab⟩ := List.append_of_mem (mem_group.mpr ⟨hn, rfl⟩ : n ∈ group t.bucketOf (t.bucketOf n) l)
  rw [hab] at hl hg
  have hl' : l = (u ++ a) ++ n :: (b ++ v) := by rw [hl]; simp
  refine ⟨a, b, u ++ a, b ++ v, hab, hl', fun t' hlist hbuckets hpairs horder => ?_⟩
  have hcirc : Circular t.list ((u ++ a) ++ n :: (b ++ v)) := hl' ▸ h.circular
  have hnew : (u ++ a) ++ (b ++ v) = u ++ (a ++ b) ++ v := by simp
  have hout : n ∉ (u ++ a) ++ (b ++ v) :=
    (List.nodup_cons.mp (List.perm_middle.nodup_iff.mp hcirc.nodup)).1
  have hsub : ∀ m ∈ (u ++ a) ++ (b ++ v), m ∈ l := by
    intro m hm
    rw [hl']
    rcases List.mem_append.mp hm with hm | hm
    · exact List.mem_append_left _ hm
    · exact List.mem_append_right _ (List.mem_cons_of_mem _ hm)
  have hg' : ∀ m ∈ a ++ b, t.bucketOf m = t.bucketOf n := fun m hm => hg m (by
    rcases List.mem_append.mp hm with hm | hm
    · exact List.mem_append_left _ hm
    · exact List.mem_append_right _ (List.mem_cons_of_mem _ hm))
  have hfiled : Filed { t with list := t'.list, buckets := t'.buckets } ((u ++ a) ++ (b ++ v)) := by
    refine ⟨?_, fun m hm => h.live m (hsub m hm), ?_, ?_, fun j hj => ?_⟩
    · dsimp only
      rw [hlist]
      exact hcirc.remove
    · rw [hnew]
      exact (hl ▸ h.grouped : Grouped t.bucketOf (u ++ (a ++ n :: b) ++ v)).remove hg hu hv
    · dsimp only
      rw [hbuckets, List.length_set, h.count]
    · show t'.buckets[j]? = some (ends (group t.bucketOf j ((u ++ a) ++ (b ++ v))))
      rw [hbuckets]
      by_cases hij : t.bucketOf n = j
      · subst hij
        rw [List.getElem?_set_self (h.count ▸ hi), hnew, group_of_ends hg' hu hv]
      · rw [List.getElem?_set_ne hij, h.bucket j hj, group_remove (x := n) j, if_neg hij, ← hl']
  refine hfiled.congr rfl (fun _ _ => rfl) (fun m hm => ?_) rfl horder
  rw [hpairs, Function.update_of_ne]
  rintro rfl
  exact hout hm

end Hashtable

end PgRest.Jansson
