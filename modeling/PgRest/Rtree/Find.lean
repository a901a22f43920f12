import PgRest.Rtree.Add
import Mathlib.Data.List.Nodup

/-! Looking a path up: the walk goes down the one way the path allows, so it ends
at the handler of a route the path is an instance of, if there is one. -/
namespace PgRest.Rtree

variable {α : Type}

/-! ### One round of the walk -/

theorem find_here {n : Node α} {path : Bytes} (h : path = n.path) (hnul : (0 : UInt8) ∉ path) (k : Nat)
    (ps : List Param) (x : Option α) : find n path k ps x = some ⟨true, n.handler, ps⟩ := by
  have heq : strncmp path n.path path.length = true := (strncmp_iff_eq hnul (by rw [h])).mpr h
  rw [find, if_neg (by rw [h]; omega), if_pos (by simp [h] at heq ⊢; exact heq)]

/-- The path ends in the node's text, or parts from it. -/
theorem find_elsewhere {n : Node α} {path : Bytes} (h : ¬n.path <+: path) (hnul : (0 : UInt8) ∉ path)
    (k : Nat) (ps : List Param) (x : Option α) : find n path k ps x = some ⟨false, x, ps⟩ := by
  rw [find]
  split
  · next hlen =>
    rw [if_neg fun hc => h ((strncmp_iff_starts (Or.inl hnul) (by omega)).mp hc)]
  · rw [if_neg]
    intro hc
    simp only [Bool.and_eq_true, decide_eq_true_eq] at hc
    rw [strncmp_iff_eq hnul hc.1] at hc
    exact h (hc.2 ▸ List.prefix_refl _)

/-- The path goes on behind the node's text. -/
theorem find_below {n : Node α} {c : UInt8} {tail : Bytes} (hnul : (0 : UInt8) ∉ n.path ++ c :: tail)
    (k : Nat) (ps : List Param) (x : Option α) :
    find n (n.path ++ c :: tail) k ps x =
      if !n.wildChild then
        match n.indices.findIdx? (· == c) with
        | none => some ⟨false, x, ps⟩
        | some i =>
          match n.children[i]? with
          | none => none
          | some child => find child (c :: tail) k ps x
      else if ps.length = k then some ⟨false, x, ps⟩
      else
        match n.children[0]? with
        | none => none
        | some child =>
          match child.type with
          | .catchall => some ⟨true, child.handler, ps ++ [⟨child.path.drop 2, c :: tail⟩]⟩
          | .param =>
            let value := (c :: tail).takeWhile (· != slash)
            let rest := (c :: tail).dropWhile (· != slash)
            let params := ps ++ [⟨child.path.drop 1, value⟩]
            if rest.isEmpty then some ⟨true, child.handler, params⟩
            else
              match child.children[0]? with
              | none => some ⟨false, x, params⟩
              | some next => find next rest k params x
          | _ => some ⟨false, x, ps⟩ := by
  have hcmp : strncmp (n.path ++ c :: tail) n.path n.path.length = true :=
    (strncmp_iff_starts (Or.inl hnul) (by simp)).mpr (List.prefix_append _ _)
  rw [find, if_pos (by simp), if_pos hcmp, List.drop_left]
  dsimp only
  split
  · cases n.indices.findIdx? (· == c) with
    | none => rfl
    | some i =>
      dsimp only
      split <;> simp_all
  · split
    · rfl
    · split
      · simp_all
      · next child hchild =>
        simp only [hchild]
        cases child.type with
        | param =>
          dsimp only
          split
          · rfl
          · split <;> simp_all
        | static => rfl
        | root => rfl
        | catchall => rfl

/-- The path goes on at a parameter: its value is taken, and the walk goes on behind it. -/
theorem find_param {n m : Node α} {name value rest : Bytes} (hw : n.wildChild = true)
    (hch : n.children = [m]) (ht : m.type = .param) (hp : m.path = colon :: name) (hv : slash ∉ value)
    (hr : AtSegmentEnd rest) (hne : value ++ rest ≠ []) (hnul : (0 : UInt8) ∉ n.path ++ (value ++ rest))
    {k : Nat} {ps : List Param} (hk : ps.length ≠ k) (x : Option α) :
    find n (n.path ++ (value ++ rest)) k ps x =
      if rest.isEmpty then some ⟨true, m.handler, ps ++ [⟨name, value⟩]⟩
      else
        match m.children[0]? with
        | none => some ⟨false, x, ps ++ [⟨name, value⟩]⟩
        | some next => find next rest k (ps ++ [⟨name, value⟩]) x := by
  have htake := takeWhile_segment hv hr
  have hdrop := dropWhile_segment hv hr
  cases hpath : value ++ rest with
  | nil => exact absurd hpath hne
  | cons c tail =>
    rw [hpath] at hnul htake hdrop
    rw [find_below hnul]
    simp only [hw, Bool.not_true, Bool.false_eq_true, if_false, hk, hch, List.getElem?_cons_zero, ht, hp,
      htake, hdrop, List.drop_succ_cons, List.drop_zero]

/-- The path goes on at a catch-all, which takes the rest of it. -/
theorem find_catchall {n m : Node α} {name : Bytes} {c : UInt8} {tail : Bytes} (hw : n.wildChild = true)
    (hch : n.children = [m]) (ht : m.type = .catchall) (hp : m.path = slash :: star :: name)
    (hnul : (0 : UInt8) ∉ n.path ++ c :: tail) {k : Nat} {ps : List Param} (hk : ps.length ≠ k)
    (x : Option α) :
    find n (n.path ++ c :: tail) k ps x = some ⟨true, m.handler, ps ++ [⟨name, c :: tail⟩]⟩ := by
  rw [find_below hnul]
  simp only [hw, Bool.not_true, Bool.false_eq_true, if_false, hk, hch, List.getElem?_cons_zero, ht, hp,
    List.drop_succ_cons, List.drop_zero]

/-- The path goes on with the byte of a child. -/
theorem find_index {n m : Node α} {c : UInt8} {tail : Bytes} (hw : n.wildChild = false) {j : Nat}
    (hj : n.indices.findIdx? (· == c) = some j) (hm : n.children[j]? = some m)
    (hnul : (0 : UInt8) ∉ n.path ++ c :: tail) (k : Nat) (ps : List Param) (x : Option α) :
    find n (n.path ++ c :: tail) k ps x = find m (c :: tail) k ps x := by
  rw [find_below hnul]
  simp only [hw, Bool.not_false, if_true, hj, hm]

/-! ### Every route is found -/

theorem mem_routes {n : Node α} {text : Bytes} {x : α} :
    (text, x) ∈ routes n ↔ ∃ t, text = n.path ++ t ∧
      ((t = [] ∧ n.handler = some x) ∨ ∃ m ∈ n.children, (t, x) ∈ routes m) := by
  rw [routes_eq, mem_under]
  simp only [List.mem_append, List.mem_flatMap, own, List.mem_map, Option.mem_toList, Prod.mk.injEq]
  constructor
  · rintro ⟨t, rfl, ⟨y, hy, rfl, rfl⟩ | hm⟩
    · exact ⟨[], rfl, Or.inl ⟨rfl, hy⟩⟩
    · exact ⟨t, rfl, Or.inr hm⟩
  · rintro ⟨t, rfl, ⟨rfl, hx⟩ | hm⟩
    · exact ⟨[], rfl, Or.inl ⟨x, hx, rfl, rfl⟩⟩
    · exact ⟨t, rfl, Or.inr hm⟩

theorem Ok.inv_param {m : Node α} (h : Ok .param m) :
    ∃ name, NameOk name ∧ m.type = .param ∧ m.path = colon :: name ∧ m.children.length ≤ 1 ∧
      ∀ next ∈ m.children, Ok (.index slash) next := by
  cases h with
  | static starts => exact starts.elim
  | wild starts => exact starts.elim
  | param type path name _ _ few _ below => exact ⟨_, name, type, path, few, below⟩

theorem Ok.inv_catchall {m : Node α} (h : Ok .catchall m) :
    ∃ name, NameOk name ∧ m.type = .catchall ∧ m.path = slash :: star :: name ∧
      ∀ next ∈ m.children, Ok (.index slash) next := by
  cases h with
  | static starts => exact starts.elim
  | wild starts => exact starts.elim
  | @catchall _ name type path hname _ _ edges _ len below =>
    refine ⟨name, hname, type, path, fun next hnext => ?_⟩
    obtain ⟨j, hj⟩ := List.getElem?_of_mem hnext
    have hlt : j < m.indices.length := len ▸ (List.getElem?_eq_some_iff.mp hj).1
    have hc := List.getElem?_eq_getElem hlt
    exact edges _ (List.getElem_mem hlt) ▸ below j _ next hc hj

/-- The routes behind a parameter go on with the next segment, if at all. -/
theorem Ok.param_route {m : Node α} (h : Ok .param m) {t : Bytes} {x : α}
    (ht : (t = [] ∧ m.handler = some x) ∨ ∃ next ∈ m.children, (t, x) ∈ routes next) :
    AtSegmentEnd t := by
  obtain ⟨_, _, _, _, _, below⟩ := h.inv_param
  rcases ht with ⟨rfl, _⟩ | ⟨next, hnext, hr⟩
  · exact Or.inl rfl
  · exact Or.inr ((below next hnext).route_head hr)

/-- A byte is found at the only place where it stands. -/
theorem findIdx?_nodup {s : Bytes} (h : s.Nodup) {j : Nat} {c : UInt8} (hj : s[j]? = some c) :
    s.findIdx? (· == c) = some j := by
  obtain ⟨hlt, rfl⟩ := List.getElem?_eq_some_iff.mp hj
  rw [List.findIdx?_eq_some_iff_getElem]
  refine ⟨hlt, by simp, fun i hi => ?_⟩
  have hne : s[i] ≠ s[j] := fun he => absurd ((List.Nodup.getElem_inj_iff h).mp he) (by omega)
  simpa using hne

theorem find_complete {slot : Slot} {n : Node α} (h : Ok slot n)
    (hslot : slot = .root ∨ ∃ c, slot = .index c) {pattern path : Bytes} {x : α}
    (hr : (pattern, x) ∈ routes n) {b : List Param} (hi : Instance pattern path b) (hf : Ended pattern b)
    (hnul : (0 : UInt8) ∉ path) {k : Nat} {ps : List Param} (hk : ps.length + b.length ≤ k)
    (y : Option α) : find n path k ps y = some ⟨true, some x, ps ++ b⟩ := by
  induction hh : height n using Nat.strongRecOn generalizing slot n pattern path b ps with
  | ind _ ih =>
  subst hh
  obtain ⟨t, rfl, ht⟩ := mem_routes.mp hr
  cases h with
  | static starts type literal wild edges nodup len below =>
    rcases ht with ⟨rfl, hx⟩ | ⟨m, hm, hr'⟩
    · obtain ⟨rest, rfl, hrest⟩ := hi.literal_prefix literal (by simp)
      cases hrest
      rw [find_here (List.append_nil _) hnul, hx, List.append_nil]
    · obtain ⟨j, hj⟩ := List.getElem?_of_mem hm
      have hlt : j < n.indices.length := len ▸ (List.getElem?_eq_some_iff.mp hj).1
      have hc := List.getElem?_eq_getElem hlt
      generalize n.indices[j] = c at hc
      have hm' := below j c m hc hj
      have hhead := hm'.route_head hr'
      have hlit : wildcard c = false := edges c (List.mem_of_getElem? hc)
      obtain ⟨rest, rfl, hrest⟩ := hi.literal_prefix literal (by
        rw [hhead]
        rintro hs
        simp [Option.some.inj hs] at hlit)
      have hrhead := hrest.head hhead hlit
      cases rest with
      | nil => simp at hrhead
      | cons d tail =>
        obtain rfl : d = c := Option.some.inj hrhead
        rw [find_index wild (findIdx?_nodup nodup hc) hj hnul]
        exact ih (height m) (height_lt hm) hm' (Or.inr ⟨_, rfl⟩) hr' hrest (hf.behind (a := []))
          (fun hz => hnul (List.mem_append_right _ hz)) hk rfl
  | @wild _ _ m starts type literal wild edges children below =>
    rcases ht with ⟨rfl, hx⟩ | ⟨m', hm', hr'⟩
    · obtain ⟨rest, rfl, hrest⟩ := hi.literal_prefix literal (by simp)
      cases hrest
      rw [find_here (List.append_nil _) hnul, hx, List.append_nil]
    · obtain rfl : m' = m := by simpa [children] using hm'
      obtain ⟨name, hname, hmtype, hmpath, hfew, hbelow⟩ := below.inv_param
      obtain ⟨t', rfl, ht'⟩ := mem_routes.mp hr'
      have hend := below.param_route ht'
      rw [hmpath] at hi hf
      obtain ⟨tail, rfl, htail⟩ := hi.literal_prefix literal (by simp; decide)
      obtain ⟨value, rest, b', rfl, rfl, hv, hrest⟩ := htail.param_inv hname hend
      have hf' := hf.behind (a := [])
      have hne : value ++ rest ≠ [] := hf'.filled hend hrest
      have hrend : AtSegmentEnd rest := by
        rcases hend with rfl | hend
        · cases hrest
          exact Or.inl rfl
        · exact Or.inr (hrest.head hend rfl)
      simp only [List.length_cons] at hk
      rw [find_param wild children hmtype hmpath hv hrend hne hnul (by omega)]
      have hcons : ps ++ ⟨name, value⟩ :: b' = ps ++ [⟨name, value⟩] ++ b' := by simp
      rw [hcons]
      rcases ht' with ⟨rfl, hx⟩ | ⟨next, hnext, hr''⟩
      · -- the route ends at the parameter
        cases hrest
        simp [hx]
      · have hslash := (hbelow next hnext).route_head hr''
        have hne : rest.isEmpty = false := by
          have := hrest.head hslash rfl
          cases rest <;> simp at this ⊢
        have hfirst : m'.children[0]? = some next := by
          rcases hch : m'.children with _ | ⟨a, _ | ⟨b, l⟩⟩
          · simp [hch] at hnext
          · simpa [hch, eq_comm] using hnext
          · simp [hch] at hfew
        simp only [hne, Bool.false_eq_true, if_false, hfirst]
        refine ih (height next) ((height_lt hnext).trans (height_lt hm')) (hbelow next hnext)
          (Or.inr ⟨_, rfl⟩) hr'' hrest (Ended.behind (l := colon :: name) (a := [_]) hf')
          (fun hz => hnul ?_) ?_ rfl
        · exact List.mem_append_right _ (List.mem_append_right _ hz)
        · simp only [List.length_append, List.length_singleton]
          omega
  | param => simp at hslot
  | @catchallFirst _ m type hnil wild handler edges children below =>
    rcases ht with ⟨rfl, hx⟩ | ⟨m', hm', hr'⟩
    · simp [handler] at hx
    · obtain rfl : m' = m := by simpa [children] using hm'
      obtain ⟨name, hname, hmtype, hmpath, hbelow⟩ := below.inv_catchall
      obtain ⟨t', rfl, ht'⟩ := mem_routes.mp hr'
      rw [hnil, hmpath, List.nil_append] at hi
      have hcatch : Instance (slash :: star :: (name ++ t')) path b := hi
      obtain ⟨hall, hhead, rfl⟩ := hcatch.catchall_inv
      -- what was added below a catch-all is no pattern
      rcases ht' with ⟨rfl, hx⟩ | ⟨next, hnext, hr''⟩
      · cases path with
        | nil => simp at hhead
        | cons c tail =>
          have hpath : n.path ++ c :: tail = c :: tail := by rw [hnil, List.nil_append]
          have hfind := find_catchall wild children hmtype hmpath (by rwa [hpath] : (0 : UInt8) ∉ n.path ++ c :: tail)
            (by simp at hk; omega : ps.length ≠ k) y
          rw [hpath] at hfind
          rw [hfind, hx, List.append_nil]
      · have hslash := (hbelow next hnext).route_head hr''
        refine absurd (List.mem_append_right _ ?_) hall.slash
        exact List.mem_of_mem_head? hslash
  | catchall => simp at hslot

/-! ### What is found is a route -/

/-- Where a lookup ends, and what it has found there. -/
theorem find_spec {slot : Slot} {n : Node α} (h : Ok slot n) {path : Bytes}
    (hslot : slot = .root ∨ ∃ c, slot = .index c ∧ path.head? = some c) (hnul : (0 : UInt8) ∉ path) {k : Nat}
    {ps : List Param} (hroom : ps.length ≤ k) (y : Option α) :
    ∃ l, find n path k ps y = some l ∧ ∀ x, l.found = true → l.handler = some x →
      ∃ pattern b, (pattern, x) ∈ routes n ∧ Instance pattern path b ∧ Ended pattern b ∧
        l.params = ps ++ b ∧ l.params.length ≤ k := by
  induction hh : height n using Nat.strongRecOn generalizing slot n path ps with
  | ind _ ih =>
  subst hh
  have hno : ∀ {ps' : List Param} {P : α → Prop}, ∀ x, (⟨false, y, ps'⟩ : Lookup α).found = true →
      (⟨false, y, ps'⟩ : Lookup α).handler = some x → P x := fun x hf => Bool.noConfusion hf
  by_cases hp : n.path <+: path
  swap
  · exact ⟨_, find_elsewhere hp hnul k ps y, hno⟩
  obtain ⟨rest, rfl⟩ := hp
  have hlit : Literal n.path := by
    cases h with
    | static _ _ literal => exact literal
    | wild _ _ literal => exact literal
    | param => simp at hslot
    | catchallFirst _ path => simp [path]
    | catchall => simp at hslot
  cases rest with
  | nil =>
    rw [List.append_nil] at hnul ⊢
    refine ⟨_, find_here rfl hnul k ps y, fun x _ hx => ?_⟩
    refine ⟨n.path, [], mem_routes.mpr ⟨[], by simp, Or.inl ⟨rfl, hx⟩⟩, ?_, ended_nil _, by simp, hroom⟩
    simpa using Instance.nil.literal_append hlit
  | cons c tail =>
    have hrestnul : (0 : UInt8) ∉ c :: tail := fun hz => hnul (List.mem_append_right _ hz)
    cases h with
    | static starts type literal wild edges nodup len below =>
      rcases findIdx?_byte (s := n.indices) (c := c) with ⟨j, hj, hat⟩ | ⟨hj, _⟩
      · have hlt : j < n.children.length := len ▸ (List.getElem?_eq_some_iff.mp hat).1
        have hm := List.getElem?_eq_getElem hlt
        generalize n.children[j] = m at hm
        obtain ⟨l, hl, hfound⟩ := ih (height m) (height_lt (List.mem_of_getElem? hm)) (below j c m hat hm)
          (Or.inr ⟨c, rfl, rfl⟩) hrestnul hroom rfl
        refine ⟨l, by rw [find_index wild hj hm hnul, hl], fun x hf hx => ?_⟩
        obtain ⟨t, b, hr, hi, he, hps⟩ := hfound x hf hx
        exact ⟨n.path ++ t, b, mem_routes.mpr ⟨t, rfl, Or.inr ⟨m, List.mem_of_getElem? hm, hr⟩⟩,
          hi.literal_append hlit, he.literal_append hlit, hps⟩
      · refine ⟨⟨false, y, ps⟩, ?_, hno⟩
        rw [find_below hnul]
        simp [wild, hj]
    | @wild _ _ m starts type literal wild edges children below =>
      obtain ⟨name, hname, hmtype, hmpath, hfew, hbelow⟩ := below.inv_param
      by_cases hk : ps.length = k
      · refine ⟨⟨false, y, ps⟩, ?_, hno⟩
        rw [find_below hnul]
        simp [wild, hk]
      have hsplit := List.takeWhile_append_dropWhile (p := (· != slash)) (l := c :: tail)
      have hv : slash ∉ (c :: tail).takeWhile (· != slash) := fun hs => by
        simpa using List.mem_takeWhile_imp hs
      have hend := atSegmentEnd_dropWhile (c :: tail)
      generalize (c :: tail).takeWhile (· != slash) = value at hsplit hv
      generalize (c :: tail).dropWhile (· != slash) = rest at hsplit hend
      have hne : value ++ rest ≠ [] := by simp [hsplit]
      rw [← hsplit] at hnul hrestnul ⊢
      rw [find_param wild children hmtype hmpath hv hend hne hnul hk]
      have hroute : ∀ x t b, ((t = [] ∧ m.handler = some x) ∨ ∃ next ∈ m.children, (t, x) ∈ routes next) →
          Instance t rest b → Ended t b → ∀ ps', ps' = ps ++ [⟨name, value⟩] ++ b → ps'.length ≤ k →
          ∃ pattern b, (pattern, x) ∈ routes n ∧ Instance pattern (n.path ++ (value ++ rest)) b ∧
            Ended pattern b ∧ ps' = ps ++ b ∧ ps'.length ≤ k := by
        intro x t b ht hi he ps' hps hlen
        refine ⟨n.path ++ colon :: (name ++ t), ⟨name, value⟩ :: b, ?_, ?_, ?_, by simp [hps], hlen⟩
        · refine mem_routes.mpr ⟨_, rfl, Or.inr ⟨m, by simp [children], mem_routes.mpr ⟨t, ?_, ht⟩⟩⟩
          simp [hmpath]
        · exact (Instance.param hname (below.param_route ht) hv hi).literal_append hlit
        · exact (Ended.param hname (below.param_route ht) hi hne he).literal_append hlit
      have hroom' : (ps ++ [(⟨name, value⟩ : Param)]).length ≤ k := by
        rw [List.length_append, List.length_singleton]
        omega
      split
      · next hempty =>
        obtain rfl : rest = [] := by simpa using hempty
        exact ⟨_, rfl, fun x _ hx => hroute x [] [] (Or.inl ⟨rfl, hx⟩) .nil (ended_nil _) _ (by simp) hroom'⟩
      · next hnil =>
        split
        · exact ⟨_, rfl, hno⟩
        · next next hnext =>
          have hmem := List.mem_of_getElem? hnext
          have hslash : rest.head? = some slash := hend.resolve_left (by simpa using hnil)
          obtain ⟨l, hl, hfound⟩ := ih (height next) ((height_lt hmem).trans (height_lt (by simp [children])))
            (hbelow next hmem) (Or.inr ⟨_, rfl, hslash⟩) (fun hz => hrestnul (List.mem_append_right _ hz)) hroom' rfl
          refine ⟨l, hl, fun x hf hx => ?_⟩
          obtain ⟨t, b, hr, hi, he, hps, hlen⟩ := hfound x hf hx
          exact hroute x t b (Or.inr ⟨next, hmem, hr⟩) hi he _ hps hlen
    | param => simp at hslot
    | @catchallFirst _ m type hnil wild handler edges children below =>
      obtain ⟨name, hname, hmtype, hmpath, -⟩ := below.inv_catchall
      by_cases hk : ps.length = k
      · refine ⟨⟨false, y, ps⟩, ?_, hno⟩
        rw [find_below hnul]
        simp [wild, hk]
      refine ⟨_, find_catchall wild children hmtype hmpath hnul hk y, fun x _ hx => ?_⟩
      have hhead : (c :: tail).head? = some slash := by simpa [hnil, eq_comm] using hslot
      refine ⟨n.path ++ slash :: star :: name, [⟨name, c :: tail⟩], ?_, ?_, ?_, rfl, ?_⟩
      · refine mem_routes.mpr ⟨_, rfl, Or.inr ⟨m, by simp [children], mem_routes.mpr ⟨[], ?_,
          Or.inl ⟨rfl, hx⟩⟩⟩⟩
        simp [hmpath]
      · rw [hnil, List.nil_append]
        exact .catchall hname hhead
      · exact Filled.ended (by simp [Filled])
      · rw [List.length_append, List.length_singleton]
        omega
    | catchall => simp at hslot

theorem find_sound {slot : Slot} {n : Node α} (h : Ok slot n) {path : Bytes}
    (hslot : slot = .root ∨ ∃ c, slot = .index c ∧ path.head? = some c) (hnul : (0 : UInt8) ∉ path) {k : Nat}
    {ps ps' : List Param} (hroom : ps.length ≤ k) {x : α} {y : Option α}
    (hfind : find n path k ps y = some ⟨true, some x, ps'⟩) :
    ∃ pattern b, (pattern, x) ∈ routes n ∧ Instance pattern path b ∧ Ended pattern b ∧ ps' = ps ++ b ∧
      ps'.length ≤ k := by
  obtain ⟨l, hl, hfound⟩ := find_spec h hslot hnul hroom y
  obtain rfl := Option.some.inj (hl.symm.trans hfind)
  exact hfound x rfl rfl

/-! ### Route tables -/

/-- Whatever adds were made, the routes of the tree are those that were accepted. -/
theorem addAll_spec {pairs accepted : List (Bytes × α)} {n n' : Node α} (h : Ok .root n)
    (hp : ∀ p ∈ pairs, p.1 ≠ [] ∧ (0 : UInt8) ∉ p.1 ∧ p.1.countP wildcard ≤ 255)
    (he : addAll n pairs = some (n', accepted)) :
    Ok .root n' ∧ (routes n').Perm (accepted ++ routes n) := by
  induction pairs generalizing n accepted with
  | nil =>
    cases he
    exact ⟨h, List.Perm.refl _⟩
  | cons p pairs ih =>
    obtain ⟨path, x⟩ := p
    obtain ⟨⟨ok, added⟩, hadd, he⟩ := Option.bind_eq_some_iff.mp he
    obtain ⟨⟨_, rest⟩, hrest, heq⟩ := Option.map_eq_some_iff.mp he
    obtain ⟨rfl, rfl⟩ := Prod.mk.inj heq
    obtain ⟨hne, hnul, hfew⟩ := hp (path, x) (List.mem_cons_self ..)
    obtain ⟨hok, hperm⟩ := add_spec h hne hnul hfew hadd
    obtain ⟨hok', hperm'⟩ := ih hok (fun q hq => hp q (List.mem_cons_of_mem _ hq)) hrest
    refine ⟨hok', hperm'.trans ((hperm.append_left rest).trans ?_)⟩
    cases ok
    · exact List.Perm.refl _
    · simp

theorem addAll_total {pairs : List (Bytes × α)} {n : Node α} (h : Ok .root n)
    (hp : ∀ p ∈ pairs, p.1 ≠ [] ∧ (0 : UInt8) ∉ p.1 ∧ p.1.countP wildcard ≤ 255)
    (hstar : ∀ p ∈ pairs, p.1.head? ≠ some star) :
    ∃ n' accepted, addAll n pairs = some (n', accepted) := by
  induction pairs generalizing n with
  | nil => exact ⟨n, [], rfl⟩
  | cons p pairs ih =>
    obtain ⟨path, x⟩ := p
    obtain ⟨hne, hnul, hfew⟩ := hp (path, x) (List.mem_cons_self ..)
    obtain ⟨ok, added, hadd⟩ := add_total h hne hnul hfew (hstar (path, x) (List.mem_cons_self ..)) x
    obtain ⟨n', accepted, hrest⟩ := ih (add_spec h hne hnul hfew hadd).1
      (fun q hq => hp q (List.mem_cons_of_mem _ hq)) (fun q hq => hstar q (List.mem_cons_of_mem _ hq))
    exact ⟨n', _, by simp [addAll, hadd, hrest]; rfl⟩

theorem WellFormed.head_ne_star {pattern : Bytes} (h : WellFormed pattern) :
    pattern.head? ≠ some star := by
  intro hs
  cases h.shape with
  | nil => simp at hs
  | lit hc =>
    obtain rfl := Option.some.inj hs
    simp at hc
  | param => exact absurd (Option.some.inj hs) (by decide)
  | catchall => exact absurd (Option.some.inj hs) (by decide)

theorem wellFormed_param {name : Bytes} (h : NameOk name) : WellFormed (slash :: colon :: name) where
  ne := by simp
  nul := by simp [h.nul]
  few := by
    rw [List.countP_cons_of_neg (by simp), List.countP_cons_of_pos rfl, countP_literal h.literal]
    omega
  shape := .lit rfl (by simpa using Shape.param h (Or.inl rfl) .nil)

/-- A handler that is found is that of an accepted route the path is an instance of,
and the parameters are the texts its wildcards stand for. -/
theorem find_instance {pairs accepted : List (Bytes × α)} {tree : Node α}
    (hp : ∀ p ∈ pairs, p.1 ≠ [] ∧ (0 : UInt8) ∉ p.1 ∧ p.1.countP wildcard ≤ 255)
    (hadd : addAll create pairs = some (tree, accepted)) {path : Bytes} (hnul : (0 : UInt8) ∉ path)
    {maxParams : Nat} {y : Option α} {x : α} {b : List Param}
    (hfind : find tree path maxParams [] y = some ⟨true, some x, b⟩) :
    ∃ pattern, (pattern, x) ∈ accepted ∧ Instance pattern path b := by
  obtain ⟨hok, hperm⟩ := addAll_spec create_ok hp hadd
  rw [create_routes, List.append_nil] at hperm
  obtain ⟨pattern, b', hmem, hi, -, rfl, -⟩ := find_sound hok (Or.inl rfl) hnul (Nat.zero_le _) hfind
  exact ⟨pattern, hperm.mem_iff.mp hmem, by simpa using hi⟩

/-- At `/7` the handler of `/:id` is found. -/
theorem find_instance_id : ∃ tree accepted, addAll create [([47, 58, 105, 100], true)] = some (tree, accepted) ∧
    ∃ pattern, (pattern, true) ∈ accepted ∧ Instance pattern [47, 55] [⟨[105, 100], [55]⟩] := by
  have hname : NameOk [105, 100] := ⟨by decide, by simp [Literal]; decide, by decide, by decide⟩
  have hrun : ((addAll create [([47, 58, 105, 100], true)]).bind fun t => find t.1 [47, 55] 1 [] none) =
      some ⟨true, some true, [⟨[105, 100], [55]⟩]⟩ := by with_unfolding_all decide
  obtain ⟨⟨tree, accepted⟩, hadd, hfind⟩ := Option.bind_eq_some_iff.mp hrun
  exact ⟨tree, accepted, hadd, find_instance (by simpa using by decide) hadd (by decide) hfind⟩

/-- `/:a` 256 times over. -/
def crowded : Bytes := (List.replicate 256 [slash, colon, 97]).flatten

/-- `/x` 255 times over and `/:a`. -/
def crowdedPath : Bytes := (List.replicate 255 [slash, 120]).flatten ++ [slash, colon, 97]

/-- Without these conditions a lookup can go wrong: at `/a/` the walk ends at the node that
`/a/b` and `/a/c` share, which has no handler; of 256 wildcards the last is taken for
text; and a star that starts an empty tree is looked at from in front of the path. -/
theorem find_outside :
    (∃ tree accepted, addAll create [([47, 97, 47, 98], true), ([47, 97, 47, 99], false)] =
        some (tree, accepted) ∧ find tree [47, 97, 47] 0 [] none = some ⟨true, none, []⟩) ∧
      (∃ tree accepted b, addAll create [(crowded, true)] = some (tree, accepted) ∧
        find tree crowdedPath 256 [] none = some ⟨true, some true, b⟩ ∧
        ¬∃ pattern, (pattern, true) ∈ accepted ∧ Instance pattern crowdedPath b) ∧
      (addAll create [([42, 97], true)]).isNone := by
  refine ⟨?_, ?_, by decide +kernel⟩
  · have hrun : ((addAll create [([47, 97, 47, 98], true), ([47, 97, 47, 99], false)]).bind fun t =>
        find t.1 [47, 97, 47] 0 [] none) = some ⟨true, none, []⟩ := by decide +kernel
    obtain ⟨⟨tree, accepted⟩, hadd, hfind⟩ := Option.bind_eq_some_iff.mp hrun
    exact ⟨tree, accepted, hadd, hfind⟩
  · have hrun : ((addAll create [(crowded, true)]).bind fun t =>
        (find t.1 crowdedPath 256 [] none).map fun l => (t.2, l.found, l.handler, l.params.length)) =
        some ([(crowded, true)], true, some true, 255) := by decide +kernel
    obtain ⟨⟨tree, accepted⟩, hadd, hfind⟩ := Option.bind_eq_some_iff.mp hrun
    obtain ⟨⟨found, handler, b⟩, hfind, heq⟩ := Option.map_eq_some_iff.mp hfind
    simp only [Prod.mk.injEq] at heq
    obtain ⟨rfl, rfl, rfl, hlen⟩ := heq
    refine ⟨tree, _, b, hadd, hfind, ?_⟩
    rintro ⟨pattern, hmem, hi⟩
    obtain rfl : pattern = crowded := by simpa using hmem
    have hcount : crowded.countP wildcard = 256 := by decide +kernel
    have := hi.length_eq
    omega

end PgRest.Rtree
