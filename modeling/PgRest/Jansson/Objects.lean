import PgRest.Jansson.Buckets
import PgRest.Jansson.Grammar
import PgRest.Lib.Run

/-! What the members of a JSON object are after any calls. From outside a hash table is a list of entries with different keys
in the order they came in, whatever the hash function is; a call goes through as this list has it, and it fails
only where the key is missing or there is no memory. -/
namespace PgRest.Jansson
open Lib

variable {β : Type}

/-- What a call makes of the entries, and what it returns. -/
inductive Answers (es : List (Bytes × β)) : Hashtable.Op β → Hashtable.Out β → List (Bytes × β) → Prop
  | set {key value room address} : Answers es (.set key value room address)
      (.done ((es.find? fun e => e.1 == key).map Prod.snd).toList) (place (fun e => e.1 == key) (key, value) es)
  | full {key value room address} : room = false ∨ address = none → Answers es (.set key value room address) .failed es
  | get {key} : Answers es (.get key) (.value ((es.find? fun e => e.1 == key).map Prod.snd)) es
  | del {key e} : es.find? (fun e => e.1 == key) = some e →
      Answers es (.del key) (.done [e.2]) (es.filter fun e => e.1 != key)
  | missing {key} : es.find? (fun e => e.1 == key) = none → Answers es (.del key) .failed es
  | clear {released} : released.Perm (es.map Prod.snd) → Answers es .clear (.done released) []
  | foreach : Answers es .foreach (.entries es) es

namespace Hashtable

/-- The entry in a pair. -/
def entry (t : Hashtable β) (n : Nat) : Option (Bytes × β) := (t.pairs n).map fun pair => (pair.key, pair.value)

/-- The table has these entries, in the pairs `o`; in the list of the buckets these are `l`. -/
structure Holds (hash : Bytes → Nat) (t : Hashtable β) (l o : List Nat) (es : List (Bytes × β)) : Prop where
  filed : Filed t l
  ordered : Circular t.orderedList o
  perm : l.Perm o
  size : t.size = o.length
  allocated : ∀ n, (t.pairs n).isSome → n ∈ o
  hashed : ∀ n pair, t.pairs n = some pair → pair.hash = hash pair.key
  distinct : (es.map Prod.fst).Nodup
  entries : o.map t.entry = es.map some

variable {hash : Bytes → Nat} {t t' : Hashtable β} {l o : List Nat} {es : List (Bytes × β)} {n : Nat} {key : Bytes}

theorem entry_some {e : Bytes × β} :
    t.entry n = some e ↔ ∃ pair, t.pairs n = some pair ∧ pair.key = e.1 ∧ pair.value = e.2 := by
  rw [entry, Option.map_eq_some_iff]
  exact exists_congr fun pair => and_congr_right fun _ => Prod.ext_iff

theorem Holds.live (h : Holds hash t l o es) (hn : n ∈ o) : (t.pairs n).isSome :=
  h.filed.live n (h.perm.mem_iff.mpr hn)

/-- The entries around that of a pair. -/
theorem Holds.around (h : Holds hash t l o es) (hn : n ∈ o) :
    ∃ u v pair eu ev, o = u ++ n :: v ∧ t.pairs n = some pair ∧ es = eu ++ (pair.key, pair.value) :: ev ∧
      u.map t.entry = eu.map some ∧ v.map t.entry = ev.map some ∧ (∀ e ∈ eu, e.1 ≠ pair.key) ∧
      (∀ e ∈ ev, e.1 ≠ pair.key) ∧ n ∉ u ∧ n ∉ v := by
  obtain ⟨pair, hpair⟩ := Option.isSome_iff_exists.mp (h.live hn)
  obtain ⟨u, v, rfl⟩ := List.append_of_mem hn
  have hentries := h.entries
  rw [List.map_append, List.map_cons] at hentries
  obtain ⟨eu, tail, rfl, hu, htail⟩ := List.map_eq_append_iff.mp hentries.symm
  obtain ⟨e, ev, rfl, he, hv⟩ := List.map_eq_cons_iff.mp htail
  have hent : t.entry n = some (pair.key, pair.value) := by rw [entry, hpair, Option.map_some]
  obtain rfl : e = (pair.key, pair.value) := Option.some.inj (he.trans hent)
  have hdistinct := h.distinct
  rw [List.map_append, List.map_cons] at hdistinct
  obtain ⟨hkey, -⟩ := List.nodup_cons.mp (List.perm_middle.nodup_iff.mp hdistinct)
  obtain ⟨hnn, -⟩ := List.nodup_cons.mp (List.perm_middle.nodup_iff.mp h.ordered.nodup)
  refine ⟨u, v, pair, eu, ev, rfl, hpair, rfl, hu.symm, hv.symm, ?_, ?_, ?_, ?_⟩
  · exact fun e he hk => hkey (List.mem_append_left _ (List.mem_map.mpr ⟨e, he, hk⟩))
  · exact fun e he hk => hkey (List.mem_append_right _ (List.mem_map.mpr ⟨e, he, hk⟩))
  · exact fun hm => hnn (List.mem_append_left _ hm)
  · exact fun hm => hnn (List.mem_append_right _ hm)

theorem find_middle {eu ev : List (Bytes × β)} {v : β} (hu : ∀ e ∈ eu, e.1 ≠ key) :
    (eu ++ (key, v) :: ev).find? (fun e => e.1 == key) = some (key, v) := by
  rw [List.find?_append, List.find?_eq_none.mpr (by simpa using hu), List.find?_cons]
  simp

theorem Holds.find_entry (h : Holds hash t l o es) (hn : n ∈ o) {pair : Pair β} (hpair : t.pairs n = some pair) :
    es.find? (fun e => e.1 == pair.key) = some (pair.key, pair.value) := by
  obtain ⟨u, v, pair', eu, ev, -, hpair', rfl, -, -, hneu, -⟩ := h.around hn
  obtain rfl := Option.some.inj (hpair.symm.trans hpair')
  exact find_middle hneu

/-- What `hashtable_find_pair` finds is the pair with the entry of the key. -/
theorem Holds.find (h : Holds hash t l o es) (key : Bytes) :
    ∃ bucket found, t.buckets[t.index (hash key)]? = some bucket ∧ t.findPair bucket key (hash key) = some found ∧
      (∀ n, found = some n → bucket = ends (group t.bucketOf (t.index (hash key)) l) ∧
        n ∈ o ∧ ∃ pair, t.pairs n = some pair ∧ pair.key = key) ∧
      (found = none → ∀ e ∈ es, e.1 ≠ key) := by
  obtain ⟨found, hbucket, hfind, hsome, hnone⟩ :=
    h.filed.find (Nat.le_of_eq (h.perm.length_eq.trans h.size.symm)) key (hash key)
  refine ⟨_, found, hbucket, hfind, fun n hn => ?_, fun hn e he hkey => ?_⟩
  · obtain ⟨hl, hat⟩ := hsome n hn
    obtain ⟨pair, hpair, -, hkey⟩ := isAt_iff.mp hat
    exact ⟨rfl, h.perm.mem_iff.mp hl, pair, hpair, hkey⟩
  · have hmem : some e ∈ o.map t.entry := h.entries ▸ List.mem_map_of_mem he
    obtain ⟨n, hno, hentry⟩ := List.mem_map.mp hmem
    obtain ⟨pair, hpair, hpk, -⟩ := entry_some.mp hentry
    have hat : t.isAt (hash key) key n = true :=
      isAt_iff.mpr ⟨pair, hpair, by rw [h.hashed n pair hpair, hpk, hkey], hpk.trans hkey⟩
    rw [hnone hn n (h.perm.mem_iff.mpr hno)] at hat
    cases hat

/-! ### One call -/

theorem map_entry_congr {u : List Nat} (h : ∀ m ∈ u, t'.pairs m = t.pairs m) : u.map t'.entry = u.map t.entry :=
  List.map_congr_left fun m hm => by rw [entry, entry, h m hm]

theorem filter_ne {eu ev : List (Bytes × β)} {v : β} (hu : ∀ e ∈ eu, e.1 ≠ key) (hv : ∀ e ∈ ev, e.1 ≠ key) :
    (eu ++ (key, v) :: ev).filter (fun e => e.1 != key) = eu ++ ev := by
  rw [List.filter_append, List.filter_cons, List.filter_eq_self.mpr (by simpa using hu),
    List.filter_eq_self.mpr (by simpa using hv)]
  simp

/-- Nothing but pairs has changed. -/
structure SamePlaces (t t' : Hashtable β) : Prop where
  size : t'.size = t.size
  order : t'.order = t.order
  buckets : t'.buckets = t.buckets
  list : t'.list = t.list
  orderedList : t'.orderedList = t.orderedList

/-- The value of a pair that is there is replaced. -/
theorem Holds.replace (h : Holds hash t l o es) (hn : n ∈ o) {pair : Pair β} (hpair : t.pairs n = some pair) {value : β}
    (hsame : SamePlaces t t') (hself : t'.pairs n = some { pair with value })
    (hother : ∀ m, m ≠ n → t'.pairs m = t.pairs m) :
    Holds hash t' l o (place (fun e => e.1 == pair.key) (pair.key, value) es) := by
  obtain ⟨u, v, pair', eu, ev, rfl, hpair', rfl, hu, hv, hneu, hnev, hnu, hnv⟩ := h.around hn
  obtain rfl := Option.some.inj (hpair.symm.trans hpair')
  have hplace : place (fun e : Bytes × β => e.1 == pair.key) (pair.key, value) (eu ++ (pair.key, pair.value) :: ev) =
      eu ++ (pair.key, value) :: ev := place_middle (by simpa using hneu) (by simp)
  rw [hplace]
  refine ⟨h.filed.congr (by rw [hsame.list]) (fun m _ => by rw [hsame.list]) (fun m _ => ?_) hsame.buckets hsame.order,
    hsame.orderedList ▸ h.ordered, h.perm, hsame.size.trans h.size, fun m hm => ?_, fun m p hp => ?_, ?_, ?_⟩
  · by_cases hm : m = n
    · rw [hm, hself, hpair]
      rfl
    · rw [hother m hm]
  · by_cases hmn : m = n
    · exact hmn ▸ hn
    · exact h.allocated m (hother m hmn ▸ hm)
  · by_cases hm : m = n
    · subst hm
      rw [hself] at hp
      cases hp
      exact h.hashed m pair hpair
    · exact h.hashed m p (hother m hm ▸ hp)
  · have hdistinct := h.distinct
    rw [List.map_append, List.map_cons] at hdistinct ⊢
    exact hdistinct
  · have hentry : t'.entry n = some (pair.key, value) := by rw [entry, hself, Option.map_some]
    rw [List.map_append, List.map_cons, hentry, map_entry_congr (t := t) fun m hm => hother m fun he => hnu (he ▸ hm),
      map_entry_congr (t := t) fun m hm => hother m fun he => hnv (he ▸ hm), hu, hv, List.map_append, List.map_cons]

/-- A pair is put in at a place that is not in use. -/
theorem Holds.add (h : Holds hash t l o es) (hn : t.pairs n = none) (hkey : ∀ e ∈ es, e.1 ≠ key) (value : β) :
    let t₁ : Hashtable β := { t with
      pairs := Function.update t.pairs n (some ⟨hash key, key, value⟩)
      list := listInit t.list (.pair n)
      orderedList := listInit t.orderedList (.pair n) }
    ∃ t₂ t₃ l', t₁.insertToBucket (t.index (hash key)) (.pair n) = some t₂ ∧
      t₂.insertOrdered .table (.pair n) = some t₃ ∧
      Holds hash { t₃ with size := t₃.size + 1 } l' (o ++ [n]) (es ++ [(key, value)]) := by
  intro t₁
  have hno : n ∉ o := fun hm => by
    have := h.live hm
    rw [hn] at this
    cases this
  have hnl : n ∉ l := fun hm => hno (h.perm.mem_iff.mp hm)
  have hself : t₁.pairs n = some ⟨hash key, key, value⟩ := Function.update_self ..
  have hother {m : Nat} (hm : m ≠ n) : t₁.pairs m = t.pairs m := Function.update_of_ne hm ..
  have hne {u : List Nat} (hu : n ∉ u) {m : Nat} (hm : m ∈ u) : m ≠ n := fun he => hu (he ▸ hm)
  have hplace {m : Nat} (hm : m ≠ n) : Place.pair m ≠ .pair n := fun he => hm (Place.pair.inj he)
  have htable (links : Place → Links) : listInit links (.pair n) .table = links .table := listInit_of_ne nofun
  have hfiled : Filed t₁ l := h.filed.congr (htable t.list) (fun m hm => listInit_of_ne (hplace (hne hnl hm)))
    (fun m hm => by rw [hother (hne hnl hm)]) rfl rfl
  obtain ⟨t₂, u, v, hinsert, rfl, hfiled₂, hsame⟩ := hfiled.insert hnl (by rw [hself]; rfl)
  rw [bucketOf_eq hself] at hinsert
  -- the ordered list
  have hcirc : Circular t₂.orderedList (o ++ []) := by
    rw [hsame.orderedList, List.append_nil]
    exact h.ordered.congr (htable t.orderedList) fun m hm => listInit_of_ne (hplace (hne hno hm))
  have hmem : (t₂.orderedList .table).prev ∈ Place.table :: (o ++ []).map .pair := Loop.prev_mem hcirc List.mem_cons_self
  have hlive : ∀ r ∈ Place.table :: (o ++ []).map .pair, t₂.live r = true := by
    intro r hr
    rcases List.mem_cons.mp hr with rfl | hr
    · rfl
    · obtain ⟨m, hm, rfl⟩ := List.mem_map.mp hr
      rw [List.append_nil] at hm
      show (t₂.pairs m).isSome = true
      rw [hsame.pairs, hother (hne hno hm)]
      exact h.live hm
  have hordered : t₂.insertOrdered .table (.pair n) =
      some { t₂ with orderedList := listInsert t₂.orderedList .table (.pair n) } := by
    refine if_pos ⟨rfl, ?_, hlive _ hmem⟩
    show (t₂.pairs n).isSome = true
    rw [hsame.pairs, hself]
    rfl
  refine ⟨t₂, _, u ++ n :: v, hinsert, hordered, ?_⟩
  refine ⟨hfiled₂.congr rfl (fun _ _ => rfl) (fun _ _ => rfl) rfl rfl, ?_, ?_, ?_, fun m hm => ?_, fun m p hp => ?_, ?_, ?_⟩
  · have hnew := hcirc.insert (n := n) (v := []) rfl (by rwa [List.append_nil])
    exact hnew
  · exact List.perm_middle.trans ((h.perm.cons n).trans (List.perm_append_singleton n o).symm)
  · show t₂.size + 1 = (o ++ [n]).length
    rw [hsame.size, List.length_append, List.length_singleton]
    exact congrArg (· + 1) h.size
  · by_cases hmn : m = n
    · exact hmn ▸ List.mem_append_right _ List.mem_cons_self
    · have hm : (t₂.pairs m).isSome = true := hm
      rw [hsame.pairs, hother hmn] at hm
      exact List.mem_append_left _ (h.allocated m hm)
  · have hp : t₂.pairs m = some p := hp
    rw [hsame.pairs] at hp
    by_cases hmn : m = n
    · subst hmn
      rw [hself] at hp
      cases hp
      rfl
    · exact h.hashed m p (hother hmn ▸ hp)
  · rw [List.map_append, List.map_cons, List.map_nil]
    refine List.nodup_append.mpr ⟨h.distinct, List.nodup_singleton _, ?_⟩
    rintro _ hk _ hk' rfl
    obtain ⟨e, he, rfl⟩ := List.mem_map.mp hk
    exact hkey e he (List.mem_singleton.mp hk')
  · have hentry : ∀ m, entry { t₂ with
        orderedList := listInsert t₂.orderedList .table (.pair n), size := t₂.size + 1 } m = t₁.entry m := by
      intro m
      show (t₂.pairs m).map _ = _
      rw [hsame.pairs, entry]
    rw [List.map_append, List.map_append, List.map_congr_left fun m _ => hentry m, List.map_cons, List.map_nil, hentry n,
      map_entry_congr (t := t) fun m hm => hother (hne hno hm), h.entries, entry, hself]
    rfl

/-- A rehash leaves the entries. -/
theorem Holds.rehash (h : Holds hash t l o es) : ∃ t' l', t.doRehash = some t' ∧ Holds hash t' l' o es := by
  obtain ⟨t', l', hrehash, hfiled, hperm, hsize, hordered, hpairs⟩ :=
    h.filed.rehash (Nat.le_of_eq (h.perm.length_eq.trans h.size.symm))
  refine ⟨t', l', hrehash, hfiled, hordered ▸ h.ordered, hperm.trans h.perm, hsize.trans h.size, ?_, ?_, h.distinct, ?_⟩
  · rw [hpairs]
    exact h.allocated
  · rw [hpairs]
    exact h.hashed
  · exact (map_entry_congr fun m _ => by rw [hpairs]).trans h.entries

/-- A pair is taken out and freed. -/
theorem Holds.delete (h : Holds hash t l o es) (hn : n ∈ o) {pair : Pair β} (hpair : t.pairs n = some pair) :
    ∃ a b t' l' o', group t.bucketOf (t.bucketOf n) l = a ++ n :: b ∧ t.removeLists (.pair n) = some t' ∧
      Holds hash { t' with
        buckets := t'.buckets.set (t.bucketOf n) (ends (a ++ b))
        pairs := Function.update t'.pairs n none
        size := t'.size - 1 } l' o' (es.filter fun e => e.1 != pair.key) := by
  have hl : n ∈ l := h.perm.mem_iff.mpr hn
  obtain ⟨a, b, u, v, hg, rfl, hfiled⟩ := h.filed.remove hl
  obtain ⟨x, y, pair', eu, ev, rfl, hpair', rfl, hx, hy, hneu, hnev, hnx, hny⟩ := h.around hn
  obtain rfl := Option.some.inj (hpair.symm.trans hpair')
  rw [filter_ne hneu hnev]
  have hother {m : Nat} (hm : m ≠ n) : Function.update t.pairs n none m = t.pairs m := Function.update_of_ne hm ..
  have hmem : Place.pair n ∈ Place.table :: (u ++ n :: v).map .pair := by simp
  have hmem' : Place.pair n ∈ Place.table :: (x ++ n :: y).map .pair := by simp
  have hlive : ∀ r ∈ Place.table :: (x ++ n :: y).map .pair, t.live r = true := by
    intro r hr
    rcases List.mem_cons.mp hr with rfl | hr
    · rfl
    · obtain ⟨m, hm, rfl⟩ := List.mem_map.mp hr
      exact h.live hm
  have hremove : t.removeLists (.pair n) = some { t with
      list := listRemove t.list (.pair n), orderedList := listRemove t.orderedList (.pair n) } :=
    if_pos ⟨hlive _ hmem', h.filed.live_of_mem (Loop.prev_mem h.filed.circular hmem),
      h.filed.live_of_mem (Loop.next_prev h.filed.circular hmem).1, hlive _ (Loop.prev_mem h.ordered hmem'),
      hlive _ (Loop.next_prev h.ordered hmem').1⟩
  refine ⟨a, b, _, u ++ v, x ++ y, hg, hremove, hfiled _ rfl rfl rfl rfl, h.ordered.remove, ?_, ?_, fun m hm => ?_,
    fun m p hp => ?_, ?_, ?_⟩
  · exact (List.perm_middle.symm.trans (h.perm.trans List.perm_middle)).cons_inv
  · have hsize := h.size
    simp only [List.length_append, List.length_cons] at hsize ⊢
    omega
  · have hm : (Function.update t.pairs n none m).isSome := hm
    have hmn : m ≠ n := by
      rintro rfl
      rw [Function.update_self] at hm
      cases hm
    have hm := h.allocated m (hother hmn ▸ hm)
    exact (List.mem_cons.mp (List.perm_middle.mem_iff.mp hm)).resolve_left hmn
  · have hp : Function.update t.pairs n none m = some p := hp
    have hmn : m ≠ n := by
      rintro rfl
      rw [Function.update_self] at hp
      cases hp
    exact h.hashed m p (hother hmn ▸ hp)
  · have hdistinct := h.distinct
    rw [List.map_append, List.map_cons] at hdistinct
    rw [List.map_append]
    exact (List.nodup_cons.mp (List.perm_middle.nodup_iff.mp hdistinct)).2
  · rw [List.map_append, map_entry_congr (t := t) fun m hm => hother fun he => hnx (he ▸ hm),
      map_entry_congr (t := t) fun m hm => hother fun he => hny (he ▸ hm), hx, hy, List.map_append]

/-- The walk that frees all pairs. -/
theorem clearFrom_eq {cur : Place} {fuel : Nat} (hleads : Leads t.list cur l) (hnodup : l.Nodup)
    (hlive : ∀ n ∈ l, (t.pairs n).isSome) (hfuel : l.length ≤ fuel) :
    ∃ released, clearFrom fuel cur t =
        some (released, { t with pairs := fun n => if n ∈ l then none else t.pairs n }) ∧
      l.map (fun n => (t.entry n).map Prod.snd) = released.map some := by
  induction l generalizing t cur fuel with
  | nil =>
    obtain rfl : cur = .table := hleads
    refine ⟨[], ?_, rfl⟩
    rw [clearFrom]
    simp
  | cons n l ih =>
    obtain ⟨rfl, hleads⟩ := hleads
    obtain ⟨fuel, rfl⟩ : ∃ k, fuel = k + 1 := ⟨fuel - 1, by simp only [List.length_cons] at hfuel; omega⟩
    obtain ⟨hn, hnodup⟩ := List.nodup_cons.mp hnodup
    obtain ⟨hlive₀, hlive⟩ := List.forall_mem_cons.mp hlive
    obtain ⟨pair, hpair⟩ := Option.isSome_iff_exists.mp hlive₀
    have hother {m : Nat} (hm : m ∈ l) : Function.update t.pairs n none m = t.pairs m :=
      Function.update_of_ne (fun he : m = n => hn (he ▸ hm)) ..
    obtain ⟨released, hclear, hvalues⟩ := ih (t := { t with pairs := Function.update t.pairs n none }) hleads hnodup
      (fun m hm => (congrArg Option.isSome (hother hm)).trans (hlive m hm)) (Nat.le_of_succ_le_succ hfuel)
    refine ⟨pair.value :: released, ?_, ?_⟩
    · rw [clearFrom, hpair, Option.bind_some, hclear, Option.map_some]
      have hpairs : (fun m => if m ∈ l then none else Function.update t.pairs n none m) =
          fun m => if m ∈ n :: l then none else t.pairs m := by
        funext m
        by_cases hm : m = n
        · subst hm
          simp
        · rw [Function.update_of_ne hm]
          simp [hm]
      exact congrArg (fun pairs => some (pair.value :: released, { t with pairs })) hpairs
    · rw [List.map_cons, List.map_cons, entry, hpair, ← hvalues]
      refine congrArg₂ List.cons rfl (List.map_congr_left fun m hm => ?_)
      rw [entry, entry, ← hother hm]

/-- The walk of an iterator. -/
theorem iterFrom_eq {cur : Place} {fuel : Nat} (hleads : Leads t.orderedList cur o) (hentries : o.map t.entry = es.map some)
    (hfuel : o.length ≤ fuel) : t.iterFrom fuel cur = some es := by
  induction o generalizing es cur fuel with
  | nil =>
    obtain rfl : cur = .table := hleads
    obtain rfl : es = [] := List.map_eq_nil_iff.mp hentries.symm
    rw [iterFrom]
  | cons n o ih =>
    obtain ⟨rfl, hleads⟩ := hleads
    obtain ⟨fuel, rfl⟩ : ∃ k, fuel = k + 1 := ⟨fuel - 1, by simp only [List.length_cons] at hfuel; omega⟩
    rw [List.map_cons] at hentries
    obtain ⟨e, es, rfl, he, hrest⟩ := List.map_eq_cons_iff.mp hentries.symm
    obtain ⟨pair, hpair, hkey, hvalue⟩ := entry_some.mp he.symm
    rw [iterFrom, hpair, Option.bind_some, ih hleads hrest.symm (by simp only [List.length_cons] at hfuel; omega),
      Option.map_some, hkey, hvalue]

theorem holds_init (hash : Bytes → Nat) : Holds hash (init : Hashtable β) [] [] [] where
  filed := filed_nil rfl rfl
  ordered := circular_nil rfl
  perm := .nil
  size := rfl
  allocated _ h := nomatch h
  hashed _ _ h := nomatch h
  distinct := List.nodup_nil
  entries := rfl

/-- The memory for a pair is not in use. -/
def Fresh (t : Hashtable β) : Op β → Prop
  | .set _ _ _ (some n) => t.pairs n = none
  | _ => True

/-- `hashtable_set` behind the rehash. -/
theorem Holds.setPair (h : Holds hash t l o es) (value : β) {room : Bool} {address : Option Nat}
    (hfresh : ∀ n, address = some n → t.pairs n = none) :
    ∃ out t' l' o' es', t.setPair hash key value address = some (out, t') ∧
      Answers es (.set key value room address) out es' ∧ Holds hash t' l' o' es' := by
  obtain ⟨bucket, found, hbucket, hfind, hsome, hnone⟩ := h.find key
  simp only [Hashtable.setPair, hbucket, Option.bind_some, hfind]
  cases found with
  | some n =>
    obtain ⟨-, hn, pair, hpair, rfl⟩ := hsome n rfl
    have hanswer : Answers es (.set pair.key value room address) _ _ := .set
    rw [h.find_entry hn hpair] at hanswer
    dsimp only
    rw [hpair]
    exact ⟨_, _, l, o, _, rfl, hanswer, h.replace hn hpair ⟨rfl, rfl, rfl, rfl, rfl⟩
      (Function.update_self ..) fun m hm => Function.update_of_ne hm ..⟩
  | none =>
    have hkey := hnone rfl
    cases address with
    | none => exact ⟨_, _, l, o, es, rfl, .full (Or.inr rfl), h⟩
    | some n =>
      obtain ⟨t₂, t₃, l', hinsert, hordered, hholds⟩ := h.add (hfresh n rfl) hkey value
      have hanswer : Answers es (.set key value room (some n)) _ _ := .set
      rw [List.find?_eq_none.mpr (by simpa using hkey), place_none (by simpa using hkey)] at hanswer
      dsimp only
      rw [hinsert, Option.bind_some, hordered]
      exact ⟨_, _, l', _, _, rfl, hanswer, hholds⟩

/-- **A call is defined, and it does what the list of entries has.** -/
theorem Holds.step (h : Holds hash t l o es) (op : Op β) (hfresh : t.Fresh op) :
    ∃ out t' l' o' es', t.step hash op = some (out, t') ∧ Answers es op out es' ∧ Holds hash t' l' o' es' := by
  cases op with
  | set key value room address =>
    rw [Hashtable.step, Hashtable.set]
    have hunused : ∀ n, address = some n → t.pairs n = none := by
      rintro n rfl
      exact hfresh
    split
    · split
      · obtain ⟨t₁, l₁, hrehash, h₁⟩ := h.rehash
        have hpairs : t₁.pairs = t.pairs := by
          obtain ⟨t₂, -, hrehash₂, -, -, -, -, hpairs⟩ :=
            h.filed.rehash (Nat.le_of_eq (h.perm.length_eq.trans h.size.symm))
          rw [hrehash₂] at hrehash
          exact Option.some.inj hrehash ▸ hpairs
        rw [hrehash, Option.bind_some]
        exact h₁.setPair value fun n hn => hpairs ▸ hunused n hn
      · next hroom => exact ⟨_, _, l, o, es, rfl, .full (Or.inl (Bool.eq_false_iff.mpr hroom)), h⟩
    · exact h.setPair value hunused
  | get key =>
    obtain ⟨bucket, found, hbucket, hfind, hsome, hnone⟩ := h.find key
    have hanswer : Answers es (.get key) _ _ := .get
    simp only [Hashtable.step, Hashtable.get, hbucket, Option.bind_some, hfind]
    cases found with
    | some n =>
      obtain ⟨-, hn, pair, hpair, rfl⟩ := hsome n rfl
      rw [h.find_entry hn hpair] at hanswer
      dsimp only
      rw [hpair]
      exact ⟨_, t, l, o, _, rfl, hanswer, h⟩
    | none =>
      rw [List.find?_eq_none.mpr (by simpa using hnone rfl)] at hanswer
      exact ⟨_, t, l, o, es, rfl, hanswer, h⟩
  | del key =>
    obtain ⟨bucket, found, hbucket, hfind, hsome, hnone⟩ := h.find key
    simp only [Hashtable.step, doDel, hbucket, Option.bind_some, hfind]
    cases found with
    | none => exact ⟨_, t, l, o, es, rfl, .missing (List.find?_eq_none.mpr (by simpa using hnone rfl)), h⟩
    | some n =>
      obtain ⟨rfl, hn, pair, hpair, rfl⟩ := hsome n rfl
      have hindex : t.index (hash pair.key) = t.bucketOf n := by rw [bucketOf_eq hpair, h.hashed n pair hpair]
      obtain ⟨a, b, t', l', o', hg, hremove, hholds⟩ := h.delete hn hpair
      have hinfix : a ++ n :: b <:+: l := hg ▸ h.filed.grouped _
      have hends := h.filed.ends_remove hinfix
      dsimp only
      rw [hindex, hg, hends, hpair, Option.bind_some, hremove]
      exact ⟨_, _, l', o', _, rfl, .del (h.find_entry hn hpair), hholds⟩
  | clear =>
    obtain ⟨released, hclear, hvalues⟩ := clearFrom_eq h.filed.circular.leads h.filed.circular.nodup h.filed.live
      (Nat.le_of_eq (h.perm.length_eq.trans h.size.symm))
    have hperm : released.Perm (es.map Prod.snd) := by
      have hmap := h.perm.map fun n => (t.entry n).map Prod.snd
      have hentries : o.map (fun n => (t.entry n).map Prod.snd) = (es.map Prod.snd).map some := by
        rw [← Function.comp_def, ← List.map_map, h.entries, List.map_map, List.map_map]
        rfl
      rw [hvalues, hentries] at hmap
      simpa using hmap.filterMap id
    have hempty : ∀ n, (if n ∈ l then none else t.pairs n) = none := by
      intro n
      split
      · rfl
      · next hn => exact Option.not_isSome_iff_eq_none.mp fun hp => hn (h.perm.mem_iff.mpr (h.allocated n hp))
    rw [Hashtable.step, Hashtable.clear, hclear]
    refine ⟨_, _, [], [], [], rfl, .clear hperm, ?_⟩
    refine ⟨filed_nil (listInit_self t.list .table) rfl, circular_nil (listInit_self t.orderedList .table), .nil, rfl,
      fun n hn => ?_, fun n p hp => ?_, List.nodup_nil, rfl⟩
    · have hn : (if n ∈ l then none else t.pairs n).isSome = true := hn
      rw [hempty n] at hn
      cases hn
    · have hp : (if n ∈ l then none else t.pairs n) = some p := hp
      rw [hempty n] at hp
      cases hp
  | foreach =>
    have hiter : t.iter = some es := iterFrom_eq h.ordered.leads h.entries (Nat.le_of_eq h.size.symm)
    rw [Hashtable.step, hiter]
    exact ⟨_, t, l, o, es, rfl, .foreach, h⟩

/-! ### Any calls -/

/-- A table with the calls that have been made and what they have returned, the last one first. -/
structure Logged (β : Type) where
  table : Hashtable β
  log : List (Op β × Out β)

def Logged.step (hash : Bytes → Nat) (s : Logged β) (op : Op β) : Option (Logged β) :=
  (s.table.step hash op).map fun (out, table) => ⟨table, (op, out) :: s.log⟩

end Hashtable

/-- The entries that are left behind some calls with what they have returned. -/
inductive History : List (Hashtable.Op β × Hashtable.Out β) → List (Bytes × β) → Prop
  | nil : History [] []
  | cons {log es op out es'} : History log es → Answers es op out es' → History ((op, out) :: log) es'

/-- What holds of a table after any calls. -/
structure Kept (hash : Bytes → Nat) (s : Hashtable.Logged β) (es : List (Bytes × β)) : Prop where
  history : History s.log es
  /-- the keys of the entries are different -/
  distinct : (es.map Prod.fst).Nodup
  /-- these are the entries that an iterator meets -/
  iter : s.table.iter = some es
  /-- as many pairs are allocated as there are entries -/
  allocated : ∃ pairs : List Nat, pairs.Nodup ∧ pairs.length = es.length ∧ ∀ n, (s.table.pairs n).isSome ↔ n ∈ pairs
  /-- the next call is defined as well -/
  defined : ∀ op, s.table.Fresh op → (s.step hash op).isSome

/-- **A hash table is the list of its entries.** Whatever the hash function is, after any calls every one of them has returned
what the list of entries has, the entries that are left are those that the calls leave, and no pair is lost or used
after it has been freed. -/
theorem hashtable_exact (hash : Bytes → Nat) {s : Hashtable.Logged β}
    (h : Run (Hashtable.Logged.step hash) (fun s op => s.table.Fresh op) ⟨.init, []⟩ s) : ∃ es, Kept hash s es := by
  obtain ⟨l, o, es, hholds, hhistory⟩ : ∃ l o es, s.table.Holds hash l o es ∧ History s.log es := by
    refine h.invariant (P := fun s => ∃ l o es, s.table.Holds hash l o es ∧ History s.log es)
      ⟨[], [], [], Hashtable.holds_init hash, .nil⟩ ?_
    rintro s op s' ⟨l, o, es, hholds, hhistory⟩ hfresh hstep
    obtain ⟨out, t', l', o', es', hcall, hanswer, hholds'⟩ := hholds.step op hfresh
    rw [Hashtable.Logged.step, hcall] at hstep
    cases hstep
    exact ⟨l', o', es', hholds', .cons hhistory hanswer⟩
  refine ⟨es, hhistory, hholds.distinct, ?_, ⟨o, hholds.ordered.nodup, ?_, fun n => ⟨hholds.allocated n, hholds.live⟩⟩,
    fun op hfresh => ?_⟩
  · exact Hashtable.iterFrom_eq hholds.ordered.leads hholds.entries (Nat.le_of_eq hholds.size.symm)
  · simpa using congrArg List.length hholds.entries
  · obtain ⟨out, t', -, -, -, hcall, -⟩ := hholds.step op hfresh
    rw [Hashtable.Logged.step, hcall]
    rfl

theorem hashtable_exact_set : ∃ s : Hashtable.Logged Nat, s.table.iter = some [([97], 2)] ∧ ∃ es, Kept List.length s es :=
  ⟨_, rfl, hashtable_exact List.length
    (.next (.next .start (a := .set [97] 1 true (some 5)) rfl rfl) (a := .set [97] 2 true none) trivial rfl)⟩

/-! ### The members of an object -/

/-- The calls of `parse_object`, the last one first, for members that have all been set. -/
inductive Sets : List (Hashtable.Op Json × Hashtable.Out Json) → List (Bytes × Json) → Prop
  | nil : Sets [] []
  | concat {log ms m room address released} : Sets log ms →
      Sets ((.set m.1 m.2 room address, .done released) :: log) (ms ++ [m])

theorem Sets.entries {log : List (Hashtable.Op Json × Hashtable.Out Json)} {ms es : List (Bytes × Json)} (h : Sets log ms)
    (hhistory : History log es) : es = kept ms := by
  induction h generalizing es with
  | nil =>
    cases hhistory
    rfl
  | concat _ ih =>
    obtain _ | ⟨hhistory, hanswer⟩ := hhistory
    cases hanswer
    rw [ih hhistory, kept, kept, List.foldl_concat]
    rfl

/-- An object has the members that the loader keeps, in their order. -/
theorem Kept.members {hash : Bytes → Nat} {s : Hashtable.Logged Json} {es ms : List (Bytes × Json)} (h : Kept hash s es)
    (hsets : Sets s.log ms) : s.table.iter = some (kept ms) := by
  rw [h.iter, hsets.entries h.history]

end PgRest.Jansson
