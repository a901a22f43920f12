import PgRest.Rtree.Insert

/-! Adding a path from the root on: each round of the loop goes one node down,
splits it where the paths part, and leaves every node well placed. -/
namespace PgRest.Rtree
open Lib

variable {α : Type}

/-! ### The common prefix and the split -/

theorem commonPrefix_le (s t : Bytes) : commonPrefix s t ≤ s.length ∧ commonPrefix s t ≤ t.length := by
  induction s generalizing t with
  | nil => simp [commonPrefix]
  | cons a s ih =>
    cases t with
    | nil => simp [commonPrefix]
    | cons b t =>
      rw [commonPrefix]
      split
      · have := ih t
        simp only [List.length_cons]
        omega
      · simp

theorem take_commonPrefix (s t : Bytes) : s.take (commonPrefix s t) = t.take (commonPrefix s t) := by
  induction s generalizing t with
  | nil => simp [commonPrefix]
  | cons a s ih =>
    cases t with
    | nil => simp [commonPrefix]
    | cons b t =>
      rw [commonPrefix]
      split
      · next h =>
        obtain rfl := beq_iff_eq.mp h
        simpa using ih t
      · rfl

/-- Behind the common prefix the two go different ways. -/
theorem drop_commonPrefix {s t : Bytes} {a b : UInt8} {s' t' : Bytes}
    (hs : s.drop (commonPrefix s t) = a :: s') (ht : t.drop (commonPrefix s t) = b :: t') : a ≠ b := by
  induction s generalizing t with
  | nil => simp [commonPrefix] at hs
  | cons x s ih =>
    cases t with
    | nil => simp [commonPrefix] at ht
    | cons y t =>
      rw [commonPrefix] at hs ht
      split at hs
      · next h =>
        rw [if_pos h] at ht
        exact ih (by simpa using hs) (by simpa using ht)
      · next h =>
        rw [if_neg h] at ht
        rw [List.drop_zero, List.cons.injEq] at hs ht
        rw [← hs.1, ← ht.1]
        simpa using h

theorem commonPrefix_append (s t : Bytes) : commonPrefix (s ++ t) s = s.length := by
  induction s with
  | nil => cases t <;> rfl
  | cons a s ih => simp [commonPrefix, ih]

/-- A node with a text is either found whole in the path or split. -/
theorem commonPrefix_whole {path text : Bytes} (h : ¬commonPrefix path text < text.length) :
    ∃ rest, path = text ++ rest ∧ path.drop (commonPrefix path text) = rest ∧
      path.take (commonPrefix path text) = text := by
  have hlen : commonPrefix path text = text.length := by
    have := commonPrefix_le path text
    omega
  have htake := take_commonPrefix path text
  rw [hlen, List.take_length] at htake
  refine ⟨path.drop text.length, ?_, by rw [hlen], by rw [hlen, htake]⟩
  conv_lhs => rw [← List.take_append_drop text.length path, htake]

theorem split_routes (n : Node α) {path : Bytes} {i : Nat} (h : path.take i = n.path.take i) :
    routes (split n path i) = routes n := by
  rw [routes_eq, split]
  simp only [own_none, List.nil_append, List.flatMap_cons, List.flatMap_nil, List.append_nil]
  rw [routes_eq, under_under, h, List.take_append_drop, routes_eq]

/-- A static node is split in front of the byte at which its text and the path part. -/
theorem split_ok {slot : Slot} {n : Node α} (h : Ok slot n) {path : Bytes}
    (hi : commonPrefix path n.path < n.path.length)
    (hslot : slot = .root ∨ ∃ c, slot = .index c ∧ path.head? = some c) :
    Ok slot (split n path (commonPrefix path n.path)) ∧
      Edges (split n path (commonPrefix path n.path)) := by
  have htake := take_commonPrefix path n.path
  obtain ⟨d, below, hd⟩ : ∃ d below, n.path.drop (commonPrefix path n.path) = d :: below := by
    cases hdrop : n.path.drop (commonPrefix path n.path) with
    | nil => exact absurd (List.drop_eq_nil_iff.mp hdrop) (by omega)
    | cons d below => exact ⟨d, below, rfl⟩
  have hmain : (n.type = .static ∨ n.type = .root) → Literal n.path → Starts n slot →
      (∀ m : Node α, m.path = d :: below → m.handler = n.handler → m.type = .static →
        m.wildChild = n.wildChild → m.indices = n.indices → m.children = n.children → Ok (.index d) m) →
      Ok slot (split n path (commonPrefix path n.path)) ∧
        Edges (split n path (commonPrefix path n.path)) := by
    intro type literal starts hbelow
    have hlit : Literal (d :: below) := hd ▸ literal_of_sublist (List.drop_sublist _ _) literal
    have hedges : Edges (split n path (commonPrefix path n.path)) := by
      refine ⟨?_, ?_, ?_, ?_⟩
      · simpa [split, hd] using (literal_cons.mp hlit).1
      · simp [split, hd]
      · simp [split, hd]
      · intro j c m hc hm
        simp only [split, hd, List.take_succ_cons, List.take_zero] at hc hm
        obtain ⟨hlt, _⟩ := List.getElem?_eq_some_iff.mp hc
        obtain rfl : j = 0 := by simpa using hlt
        simp only [List.getElem?_cons_zero, Option.some.injEq] at hc hm
        subst hc hm
        exact hbelow _ rfl rfl rfl rfl rfl rfl
    refine ⟨.static ?_ type ?_ rfl hedges.edges hedges.nodup hedges.len hedges.below, hedges⟩
    · rcases hslot with rfl | ⟨c, rfl, hc⟩
      · exact fun _ => rfl
      · refine Or.inl ?_
        cases hp : n.path with
        | nil => simp [hp] at hi
        | cons e text =>
          rcases starts with hs | ⟨hs, _⟩
          · cases path with
            | nil => simp at hc
            | cons f path =>
              simp only [hp, List.head?_cons, Option.some.injEq] at hs hc
              subst hs hc
              simp [split, hp, commonPrefix]
          · simp [hs] at hp
    · show Literal (path.take _)
      rw [htake]
      exact literal_of_sublist (List.take_sublist _ _) literal
  cases h with
  | static starts type literal wild edges nodup len below' =>
    refine hmain type literal starts fun m hp hh ht hw hind hch => ?_
    exact .static (Or.inl (by rw [hp]; rfl)) (Or.inl ht)
      (by rw [hp, ← hd]; exact literal_of_sublist (List.drop_sublist _ _) literal) (hw.trans wild)
      (hind ▸ edges) (hind ▸ nodup) (by rw [hind, hch, len]) (by rw [hind, hch]; exact below')
  | wild starts type literal wild edges children below' =>
    refine hmain type literal starts fun m hp hh ht hw hind hch => ?_
    exact .wild (Or.inl (by rw [hp]; rfl)) (Or.inl ht)
      (by rw [hp, ← hd]; exact literal_of_sublist (List.drop_sublist _ _) literal) (hw.trans wild)
      (hind.trans edges) (hch.trans children) below'
  | param => simp at hslot
  | catchallFirst _ path => simp [path] at hi
  | catchall => simp at hslot

/-! ### A node with other children -/

/-- A node may get other index bytes, as far as its own text does not fix them. -/
theorem Starts.edges {slot : Slot} {n : Node α} (h : Starts n slot) {indices : Bytes}
    (hi : ∀ d ∈ indices, d ∈ n.indices ∨ ∀ c, slot = .index c → n.path = [] → d = c)
    (children : List (Node α)) : Starts { n with indices := indices, children := children } slot := by
  cases slot with
  | root => exact h
  | index c =>
    rcases h with h | ⟨hp, hh, hw, hd⟩
    · exact Or.inl h
    · refine Or.inr ⟨hp, hh, hw, fun d hmem => ?_⟩
      rcases hi d hmem with hold | hnew
      · exact hd d hold
      · exact hnew c rfl hp
  | param => exact h
  | catchall => exact h

/-- The child that `pgrest_rtree_add` appends is a new node, and the path goes on there. -/
theorem appendChild_eq {n : Node α} (h : Edges n) {c : UInt8} (hc : wildcard c = false)
    (hfree : c ∉ n.indices) (path : Bytes) (before : Option UInt8) (k : Int) (x : Option α) :
    ∃ (indices : Bytes) (children : List (Node α)) (new : Nat) (m : Node α), Fresh m ∧
      appendChild n c path before k x = (childInsert m k before [] path x).map (fun (ok, m) =>
        (ok, { n with indices := indices, children := children.set new m })) ∧
      (∀ d ∈ indices, d ∈ n.indices ∨ d = c) ∧ children.length = n.children.length + 1 ∧
      (∀ m, (children.set new m).Perm (n.children ++ [m])) ∧ ∀ m, Ok (.index c) m →
        Edges { n with indices := indices, children := children.set new m } := by
  have hfresh : Fresh ({ maxParams := k } : Node α) := ⟨rfl, Or.inl rfl, rfl, rfl, rfl, rfl⟩
  have hpush := h.push (m := { maxParams := k }) hc hfree hfresh.ok_index
  have hat : (n.indices ++ [c])[n.indices.length]? = some c := by simp
  obtain ⟨children, indices, new, m, heq, hm, -, -, hind, hlen, ⟨m', k', p, hm', rfl⟩, hset, hput⟩ :=
    hpush.descend hat
  obtain rfl : { maxParams := k } = m' := by
    simpa only [h.len, List.getElem?_concat_length, Option.some.injEq] using hm'
  refine ⟨indices, children, new, { maxParams := k', priority := p }, ⟨rfl, Or.inl rfl, rfl, rfl, rfl, rfl⟩, ?_,
    fun d hd => ?_, ?_, fun m => ?_, fun m hm => (hput m hm).1⟩
  · simp only [appendChild]
    rw [heq]
    simp only [h.len, if_true, Option.bind_some, hm]
  · simpa using hind.subset hd
  · simpa using hlen
  · have := hset m
    rwa [h.len, List.set_append_right _ _ (Nat.le_refl _), Nat.sub_self, List.set_cons_zero] at this

/-- It takes the rest of the path. -/
theorem appendChild_spec {n : Node α} (h : Edges n) {c : UInt8} {tail : Bytes} (hc : wildcard c = false)
    (hfree : c ∉ n.indices) (hnul : (0 : UInt8) ∉ c :: tail) (before : Option UInt8) (x : α) :
    ∃ ok indices children,
      appendChild n c (c :: tail) before ((c :: tail).countP wildcard) (some x) =
        some (ok, { n with indices := indices, children := children }) ∧
      Edges { n with indices := indices, children := children } ∧
      (children.flatMap routes).Perm (gain ok (c :: tail) x ++ n.children.flatMap routes) ∧
      (∀ d ∈ indices, d ∈ n.indices ∨ d = c) ∧ children.length = n.children.length + 1 := by
  obtain ⟨indices, children, new, m, hfresh, heq, hind, hlen, hset, hput⟩ :=
    appendChild_eq h hc hfree (c :: tail) before ((c :: tail).countP wildcard) (some x)
  have hready : Ready (.index c) m [] (c :: tail) :=
    { ok := hfresh.ok_index
      type := hfresh.type
      wild := hfresh.wild
      takes := by rw [hfresh.path]; exact ⟨rfl, hc⟩
      literal := literal_nil
      nul := hnul
      stand := Or.inl hfresh }
  have hguard : Guarded m before [] (c :: tail) := by
    intro hs
    obtain rfl : c = star := Option.some.inj hs
    simp at hc
  obtain ⟨ok, child, hchild⟩ := childInsert_total hguard (some x)
  obtain ⟨hok, hperm⟩ := childInsert_spec hready before hchild
  rw [hfresh.routes, hfresh.path, List.append_nil, List.nil_append, List.nil_append] at hperm
  refine ⟨ok, indices, children.set new child, by rw [heq, hchild]; rfl, hput child hok, ?_, hind,
    by simpa using hlen⟩
  have := (hset child).flatMap_right routes
  rw [List.flatMap_append, List.flatMap_singleton] at this
  exact (this.trans List.perm_append_comm).trans (hperm.append_right _)

/-! ### One round behind the node's own path -/

/-- What adding a path at a node comes to. -/
def Adds (slot : Slot) (n : Node α) (path : Bytes) (x : α) (result : Option (Bool × Node α)) : Prop :=
  ∃ ok n', result = some (ok, n') ∧ Ok slot n' ∧ (routes n').Perm (gain ok path x ++ routes n)

/-- How the loop comes to a node: what is still to be matched, and how many wildcards
it expects from there on. -/
def Enters (slot : Slot) (n : Node α) (path : Bytes) (numParams : Int) : Prop :=
  match slot with
  | .root => path ≠ [] ∧ (n.path = [] → n.children ≠ []) ∧ numParams = path.countP wildcard
  | .index c => path.head? = some c ∧ wildcard c = false ∧ numParams = path.countP wildcard
  | .param | .catchall => sameWildcard n.path path = true ∧ numParams + 1 = path.countP wildcard

theorem Adds.rejected {slot : Slot} {n n' : Node α} (hok : Ok slot n') (hr : routes n' = routes n)
    (path : Bytes) (x : α) : Adds slot n path x (some (false, n')) :=
  ⟨false, n', rfl, hok, List.Perm.of_eq hr⟩

/-- A result for one child is a result for the node. -/
theorem Adds.child {slot below : Slot} {n child : Node α} {rest : Bytes} {x : α}
    {result : Option (Bool × Node α)} (put : Node α → Node α) (h : Adds below child rest x result)
    (hput : ∀ m, Ok below m → Ok slot (put m) ∧ ∀ gained, (routes m).Perm (gained ++ routes child) →
      (routes (put m)).Perm (under n.path gained ++ routes n)) :
    Adds slot n (n.path ++ rest) x (result.map fun (ok, m) => (ok, put m)) := by
  obtain ⟨ok, m, rfl, hok, hr⟩ := h
  refine ⟨ok, put m, rfl, (hput m hok).1, ?_⟩
  rw [← under_gain]
  exact (hput m hok).2 _ hr

/-- The path ends at the node. -/
theorem addBelow_leaf {slot : Slot} {n : Node α} (h : Ok slot n)
    (hne : slot = .root ∨ (∃ c, slot = .index c) → n.path ≠ [])
    (loop : Node α → Bytes → Option UInt8 → Int → Option α → Option (Bool × Node α))
    (before : Option UInt8) (k : Int) (x : α) :
    Adds slot n (n.path ++ []) x (addBelow loop n [] before k (some x)) := by
  rw [addBelow]
  split
  · exact .rejected h rfl _ _
  next hh =>
  have hnone : n.handler = none := by simpa using hh
  refine ⟨true, _, rfl, ?_, ?_⟩
  · have hstarts : Starts n slot → Starts { n with handler := some x } slot := by
      intro hs
      cases slot with
      | root => exact fun hp => absurd hp (hne (Or.inl rfl))
      | index c => exact Or.inl (hs.resolve_right fun hold => hne (Or.inr ⟨c, rfl⟩) hold.1)
      | param => exact hs
      | catchall => exact hs
    cases h with
    | static starts type literal wild edges nodup len below =>
      exact .static (hstarts starts) type literal wild edges nodup len below
    | wild starts type literal wild edges children below =>
      exact .wild (hstarts starts) type literal wild edges children below
    | param type path name wild edges few len below =>
      exact .param type path name wild edges few len below
    | catchallFirst type path => exact absurd path (hne (Or.inr ⟨_, rfl⟩))
    | catchall _ _ _ _ handler => exact absurd hnone handler
  · simp [routes_eq, hnone]

theorem findIdx?_byte_at {s : Bytes} {c : UInt8} {j : Nat} (h : s.findIdx? (· == c) = some j) :
    s[j]? = some c := by
  obtain ⟨hlt, hj, -⟩ := List.findIdx?_eq_some_iff_getElem.mp h
  rw [List.getElem?_eq_getElem hlt, beq_iff_eq.mp hj]

theorem findIdx?_byte {s : Bytes} {c : UInt8} :
    (∃ j, s.findIdx? (· == c) = some j ∧ s[j]? = some c) ∨ (s.findIdx? (· == c) = none ∧ c ∉ s) := by
  cases h : s.findIdx? (· == c) with
  | none =>
    refine Or.inr ⟨rfl, fun hc => ?_⟩
    have := List.findIdx?_eq_none_iff.mp h c hc
    simp at this
  | some j => exact Or.inl ⟨j, rfl, findIdx?_byte_at h⟩

/-- The path goes on with a literal byte, at a node whose children are found by index bytes. -/
theorem addBelow_edges {slot : Slot} {n : Node α} (h : Edges n) (hw : n.wildChild = false) {c : UInt8}
    {tail : Bytes} (hp : (c == slash && n.children.length == 1 && n.type == .param) = false)
    (hc : wildcard c = false) (hnul : (0 : UInt8) ∉ c :: tail)
    (hput : ∀ indices children, Edges { n with indices := indices, children := children } →
      (∀ d ∈ indices, d ∈ n.indices ∨ d = c) → children.length ≤ n.children.length + 1 →
      Ok slot { n with indices := indices, children := children })
    {loop : Node α → Bytes → Option UInt8 → Int → Option α → Option (Bool × Node α)}
    {before : Option UInt8} {x : α}
    (hloop : ∀ child, c ∈ n.indices → Ok (.index c) child → height child < height n →
      Adds (.index c) child (c :: tail) x
        (loop child (c :: tail) before ((c :: tail).countP wildcard) (some x))) :
    Adds slot n (n.path ++ c :: tail) x
      (addBelow loop n (c :: tail) before ((c :: tail).countP wildcard) (some x)) := by
  rw [addBelow]
  simp only [hw, Bool.false_eq_true, if_false, hp]
  rcases findIdx?_byte (s := n.indices) (c := c) with ⟨j, hj, hat⟩ | ⟨hj, hfree⟩
  · obtain ⟨children, indices, new, child, heq, hm, hok, hheight, hind, hlen, -, -, hset⟩ := h.descend hat
    rw [hj]
    simp only [heq, Option.bind_some, hm]
    refine Adds.child (fun m => { n with children := children.set new m, indices := indices })
      (hloop child (List.mem_of_getElem? hat) hok hheight) fun m hmok => ?_
    obtain ⟨hedges, hroutes⟩ := hset m hmok
    exact ⟨hput _ _ hedges (fun d hd => Or.inl (hind.subset hd)) (by rw [List.length_set, hlen]; omega),
      fun gained hg => routes_gain rfl rfl (hroutes gained hg)⟩
  · obtain ⟨ok, indices, children, heq, hedges, hperm, hind, hlen⟩ :=
      appendChild_spec h hc hfree hnul before x
    rw [hj]
    simp only [hc, Bool.false_eq_true, if_false]
    refine ⟨ok, _, heq, hput _ _ hedges hind (by omega), ?_⟩
    rw [← under_gain]
    exact routes_gain rfl rfl hperm

/-- The path goes on below a static node without a wildcard child. -/
theorem addBelow_static {slot : Slot} {n : Node α} (h : Ok slot n)
    (htype : n.type = .static ∨ n.type = .root) (hw : n.wildChild = false) {c : UInt8} {tail : Bytes}
    (htakes : slot.Takes (n.path ++ c :: tail)) (hnul : (0 : UInt8) ∉ c :: tail)
    {before : Option UInt8} (hguard : Guarded n before [] (c :: tail))
    {loop : Node α → Bytes → Option UInt8 → Int → Option α → Option (Bool × Node α)} {x : α}
    (hloop : ∀ child, c ∈ n.indices → Ok (.index c) child → height child < height n →
      Adds (.index c) child (c :: tail) x
        (loop child (c :: tail) before ((c :: tail).countP wildcard) (some x))) :
    Adds slot n (n.path ++ c :: tail) x
      (addBelow loop n (c :: tail) before ((c :: tail).countP wildcard) (some x)) := by
  have hparam : (c == slash && n.children.length == 1 && n.type == .param) = false := by
    rcases htype with ht | ht <;> simp [ht]
  cases h with
  | static starts type literal wild edges nodup len below =>
    have h : Edges n := ⟨edges, nodup, len, below⟩
    by_cases hc : wildcard c = true
    · have hready : Ready slot n [] (c :: tail) :=
        { ok := .static starts type literal wild edges nodup len below
          type := type
          wild := wild
          takes := by simpa using htakes
          literal := literal_nil
          nul := by simpa using hnul
          stand := Or.inr ⟨rfl, c, tail, rfl, hc⟩ }
      have hj : n.indices.findIdx? (· == c) = none := by
        refine List.findIdx?_eq_none_iff.mpr fun d hd => ?_
        simp only [beq_eq_false_iff_ne, ne_eq]
        rintro rfl
        simp [edges d hd] at hc
      rw [addBelow]
      simp only [hw, Bool.false_eq_true, if_false, hparam, hj, hc, if_true]
      obtain ⟨ok, n', heq⟩ := childInsert_total hguard (some x)
      obtain ⟨hok, hperm⟩ := childInsert_spec hready before heq
      exact ⟨ok, n', heq, hok, by simpa using hperm⟩
    · have hc : wildcard c = false := by simpa using hc
      refine addBelow_edges h hw hparam hc hnul (fun indices children hedges hind _ => ?_) hloop
      refine .static (starts.edges (fun d hd => ?_) children) type literal wild hedges.edges hedges.nodup
        hedges.len hedges.below
      refine (hind d hd).imp_right ?_
      rintro rfl e rfl hnil
      rw [hnil] at htakes
      exact Option.some.inj htakes.1
  | wild _ _ _ wild => simp [wild] at hw
  | param type => simp [type] at htype
  | catchallFirst type => simp [type] at htype
  | catchall type => simp [type] at htype

theorem sameWildcard_iff {name path : Bytes} (hn : (0 : UInt8) ∉ name) :
    sameWildcard name path = true ↔ ∃ rest, path = name ++ rest ∧ AtSegmentEnd rest := by
  simp only [sameWildcard, Bool.and_eq_true, decide_eq_true_eq, Bool.or_eq_true, beq_iff_eq]
  constructor
  · rintro ⟨⟨hlen, hcmp⟩, hend⟩
    rw [strncmp_comm] at hcmp
    obtain ⟨rest, rfl⟩ := (strncmp_iff_starts (Or.inr hn) hlen).mp hcmp
    refine ⟨rest, rfl, ?_⟩
    cases rest with
    | nil => exact Or.inl rfl
    | cons c rest => exact Or.inr (by simpa [show ¬name.length + (rest.length + 1) ≤ name.length by omega] using hend)
  · rintro ⟨rest, rfl, hend⟩
    refine ⟨⟨by simp, ?_⟩, ?_⟩
    · rw [strncmp_comm]
      exact (strncmp_iff_starts (Or.inr hn) (by simp)).mpr (List.prefix_append _ _)
    · rcases hend with rfl | hend
      · simp
      · cases rest with
        | nil => simp at hend
        | cons c rest => exact Or.inr (by simpa using hend)

theorem noteParams_eq (n : Node α) (k : Int) :
    ∃ m, noteParams n k = { n with maxParams := m, priority := n.priority } := by
  rw [noteParams]
  split
  · exact ⟨k, rfl⟩
  · obtain ⟨_, _, _, m, _, _, _, _⟩ := n
    exact ⟨m, rfl⟩

/-- The path goes on with a wildcard at a node that has a wildcard child. -/
theorem addBelow_wild {slot below : Slot} {n m : Node α} (hw : n.wildChild = true)
    (hch : n.children = [m]) (hm : Ok below m)
    (hput : ∀ m', Ok below m' → Ok slot { n with children := [m'] }) {c : UInt8} {tail : Bytes}
    {loop : Node α → Bytes → Option UInt8 → Int → Option α → Option (Bool × Node α)}
    {before : Option UInt8} {k : Int} {x : α}
    (hloop : ∀ child, Ok below child → height child < height n → sameWildcard child.path (c :: tail) = true →
      Adds below child (c :: tail) x (loop child (c :: tail) before (k - 1) (some x))) :
    Adds slot n (n.path ++ c :: tail) x (addBelow loop n (c :: tail) before k (some x)) := by
  rw [addBelow, if_pos hw, hch]
  obtain ⟨p, hp⟩ := noteParams_eq { m with priority := m.priority + 1 } k
  simp only [hp]
  have hchild := hm.weigh p (m.priority + 1)
  have hroutes := routes_weigh m p (m.priority + 1)
  have hgain : ∀ m' gained, (routes m').Perm (gained ++ routes m) →
      (routes { n with children := [m'] }).Perm (under n.path gained ++ routes n) := fun m' gained hg =>
    routes_gain rfl rfl (by simpa [hch] using hg)
  split
  · next hsame =>
    refine Adds.child (fun m' => { n with children := [m'] }) (hloop _ hchild ?_ hsame) fun m' hm' => ?_
    · exact Nat.lt_of_le_of_lt (Nat.le_of_eq (height_weigh m p (m.priority + 1)))
        (height_lt (by simp [hch]))
    · exact ⟨hput m' hm', fun gained hg => hgain m' gained (hroutes ▸ hg)⟩
  · refine .rejected (hput _ hchild) ?_ _ _
    rw [routes_eq, routes_eq n, hch]
    simp only [List.flatMap_cons, hroutes]

/-- The path goes on behind a parameter. -/
theorem addBelow_param {n : Node α} (h : Ok .param n) {tail : Bytes} (hnul : (0 : UInt8) ∉ slash :: tail)
    {loop : Node α → Bytes → Option UInt8 → Int → Option α → Option (Bool × Node α)}
    {before : Option UInt8} {x : α}
    (hloop : ∀ child, Ok (.index slash) child → height child < height n →
      Adds (.index slash) child (slash :: tail) x
        (loop child (slash :: tail) before ((slash :: tail).countP wildcard) (some x))) :
    Adds .param n (n.path ++ slash :: tail) x
      (addBelow loop n (slash :: tail) before ((slash :: tail).countP wildcard) (some x)) := by
  cases h with
  | static starts => exact starts.elim
  | wild starts => exact starts.elim
  | @param _ name type path hname wild edges few len below =>
    rcases hch : n.children with _ | ⟨m, _ | ⟨m', rest⟩⟩
    · have hi : n.indices = [] := by simpa [hch] using len
      have hedges : Edges n := ⟨by simp [hi], by simp [hi], by simp [hi, hch], by simp [hi]⟩
      refine addBelow_edges hedges wild (by simp [hch]) rfl hnul (fun indices children he hind hlen => ?_)
        fun child _ => hloop child
      have hlen' : children.length ≤ 1 := by simpa [hch] using hlen
      have hil : indices.length = children.length := he.len
      have hslash : ∀ d ∈ indices, d = slash := fun d hd => by simpa [hi] using hind d hd
      refine .param type path hname wild ?_ hlen' (Nat.le_of_eq hil) fun m hm => ?_
      · rcases indices with _ | ⟨d, _ | ⟨e, rest⟩⟩
        · exact Or.inl rfl
        · exact Or.inr (by rw [hslash d (by simp)])
        · simp only [List.length_cons] at hil
          omega
      · obtain ⟨j, hj⟩ := List.getElem?_of_mem hm
        have hjl : j < indices.length := hil ▸ (List.getElem?_eq_some_iff.mp hj).1
        have hjd := List.getElem?_eq_getElem hjl
        rw [hslash _ (List.getElem_mem hjl)] at hjd
        exact he.below j slash m hjd hj
    · rw [addBelow, if_neg (by simp [wild]), if_pos (by simp [hch, type]), hch]
      have hchild := (below m (by simp [hch])).weigh m.maxParams (m.priority + 1)
      refine Adds.child (fun m' => { n with children := [m'] }) (hloop _ hchild ?_) fun m' hm' => ⟨?_, ?_⟩
      · exact Nat.lt_of_le_of_lt (Nat.le_of_eq (height_weigh m m.maxParams (m.priority + 1)))
          (height_lt (by simp [hch]))
      · exact .param type path hname wild edges (Nat.le_refl 1) (by simpa [hch] using len)
          (by simpa using hm')
      · intro gained hg
        rw [routes_weigh] at hg
        exact routes_gain rfl rfl (by simpa [hch] using hg)
    · simp [hch] at few

/-! ### The loop and the whole add -/

theorem Starts.slot_cases {slot : Slot} {n : Node α} (h : Starts n slot) : slot = .root ∨ ∃ c, slot = .index c := by
  cases slot with
  | root => exact Or.inl rfl
  | index c => exact Or.inr ⟨c, rfl⟩
  | param => exact h.elim
  | catchall => exact h.elim

theorem Enters.takes {slot : Slot} {n : Node α} {path : Bytes} {k : Int} (h : Enters slot n path k)
    (hslot : slot = .root ∨ ∃ c, slot = .index c) : slot.Takes path := by
  rcases hslot with rfl | ⟨c, rfl⟩
  · exact h.1
  · exact ⟨h.1, h.2.1⟩

/-- Behind a literal text as many wildcards are expected as there are. -/
theorem Enters.expected {slot : Slot} {n : Node α} {text rest : Bytes} {k : Int}
    (h : Enters slot n (text ++ rest) k) (hslot : slot = .root ∨ ∃ c, slot = .index c)
    (hl : Literal text) : k = rest.countP wildcard := by
  have hk : k = (text ++ rest).countP wildcard := by
    rcases hslot with rfl | ⟨c, rfl⟩
    · exact h.2.2
    · exact h.2.2
  rw [hk, List.countP_append, countP_literal hl, Nat.zero_add]

theorem Ok.inv_static {slot : Slot} {n : Node α} (h : Ok slot n)
    (hslot : slot = .root ∨ ∃ c, slot = .index c) (hp : n.path ≠ []) :
    (n.type = .static ∨ n.type = .root) ∧ Literal n.path := by
  cases h with
  | static _ type literal => exact ⟨type, literal⟩
  | wild _ type literal => exact ⟨type, literal⟩
  | param => simp at hslot
  | catchallFirst _ path => exact absurd path hp
  | catchall => simp at hslot

theorem Ok.wildcard_nul {slot : Slot} {n : Node α} (h : Ok slot n) (hs : slot = .param ∨ slot = .catchall) :
    (0 : UInt8) ∉ n.path ∧ n.path.countP wildcard = 1 := by
  cases h with
  | static starts => rcases hs with rfl | rfl <;> exact starts.elim
  | wild starts => rcases hs with rfl | rfl <;> exact starts.elim
  | param _ path name =>
    rw [path, List.countP_cons_of_pos rfl, countP_literal name.literal]
    exact ⟨by simpa using name.nul, rfl⟩
  | catchallFirst => simp at hs
  | catchall _ path name =>
    rw [path, List.countP_cons_of_neg (by simp), List.countP_cons_of_pos rfl, countP_literal name.literal]
    exact ⟨by simpa using name.nul, rfl⟩

theorem sameWildcard_whole {slot : Slot} {n : Node α} {path : Bytes} {k : Int} (h : Ok slot n)
    (he : Enters slot n path k) (hs : slot = .param ∨ slot = .catchall) :
    ∃ rest, path = n.path ++ rest ∧ AtSegmentEnd rest ∧ k = rest.countP wildcard := by
  have hboth : sameWildcard n.path path = true ∧ k + 1 = path.countP wildcard := by
    rcases hs with rfl | rfl <;> exact he
  obtain ⟨hnul, hcount⟩ := h.wildcard_nul hs
  obtain ⟨rest, rfl, hend⟩ := (sameWildcard_iff hnul).mp hboth.1
  refine ⟨rest, rfl, hend, ?_⟩
  have := hboth.2
  rw [List.countP_append, hcount] at this
  omega

/-- What stands in front of a wildcard at a node that has been matched whole. -/
theorem guarded_whole {slot : Slot} {n : Node α} {path rest : Bytes} {k : Int} {before : Option UInt8}
    (he : Enters slot n path k) (hslot : slot = .root ∨ ∃ c, slot = .index c) (hpath : path = n.path ++ rest) :
    Guarded n (n.path.getLast?.or before) [] rest := by
  intro hstar
  cases hp : n.path.getLast? with
  | some b => exact Or.inr (Or.inr ⟨b, rfl, fun hb => by rw [hb]⟩)
  | none =>
    have hnil : n.path = [] := List.getLast?_eq_none_iff.mp hp
    rcases hslot with rfl | ⟨c, rfl⟩
    · exact Or.inr (Or.inl (he.2.1 hnil))
    · obtain ⟨hc, hw, -⟩ := he
      rw [hpath, hnil, List.nil_append, hstar, Option.some.injEq] at hc
      subst hc
      simp at hw

/-- Only a static node is split. -/
theorem Enters.slot_of_split {slot : Slot} {n : Node α} {path : Bytes} {k : Int} (he : Enters slot n path k)
    (h : Ok slot n) (hi : commonPrefix path n.path < n.path.length) : slot = .root ∨ ∃ c, slot = .index c := by
  have hwhole : slot = .param ∨ slot = .catchall → False := fun hs => by
    obtain ⟨rest, rfl, -⟩ := sameWildcard_whole h he hs
    rw [commonPrefix_append] at hi
    omega
  cases slot with
  | root => exact Or.inl rfl
  | index c => exact Or.inr ⟨c, rfl⟩
  | param => exact (hwhole (Or.inl rfl)).elim
  | catchall => exact (hwhole (Or.inr rfl)).elim

/-- The path parts from the node's text: the node is split. -/
theorem round_split {slot : Slot} {n : Node α} {path : Bytes} {k : Int} (h : Ok slot n)
    (he : Enters slot n path k) (hnul : (0 : UInt8) ∉ path)
    (hi : commonPrefix path n.path < n.path.length)
    (loop : Node α → Bytes → Option UInt8 → Int → Option α → Option (Bool × Node α))
    (before : Option UInt8) (x : α) :
    Adds slot n path x (addBelow loop (split n path (commonPrefix path n.path))
      (path.drop (commonPrefix path n.path)) before k (some x)) := by
  have hslot := he.slot_of_split h hi
  have htake := take_commonPrefix path n.path
  have htakes := he.takes hslot
  obtain ⟨hok, -⟩ := split_ok h hi (by
    rcases hslot with rfl | ⟨c, rfl⟩
    · exact Or.inl rfl
    · exact Or.inr ⟨c, rfl, htakes.1⟩)
  obtain ⟨htype, hlit⟩ := h.inv_static hslot (fun hp => by simp [hp] at hi)
  have hroutes := split_routes n htake
  have hlit' : Literal (path.take (commonPrefix path n.path)) := by
    rw [htake]
    exact literal_of_sublist (List.take_sublist _ _) hlit
  suffices Adds slot (split n path (commonPrefix path n.path)) path x _ by
    obtain ⟨ok, n', heq, hok', hperm⟩ := this
    exact ⟨ok, n', heq, hok', hroutes ▸ hperm⟩
  have hwhole := List.take_append_drop (commonPrefix path n.path) path
  generalize hrest : path.drop (commonPrefix path n.path) = rest at *
  cases rest with
  | nil =>
    have hleaf := addBelow_leaf hok (fun _ hnil => ?_) loop before k x
    · have hp : (split n path (commonPrefix path n.path)).path = path := (List.append_nil _).symm.trans hwhole
      rwa [List.append_nil, hp] at hleaf
    · have hpath : path = [] := by
        rw [← hwhole, List.append_nil]
        exact hnil
      rcases hslot with rfl | ⟨c, rfl⟩
      · exact htakes hpath
      · simp [hpath, Slot.Takes] at htakes
  | cons c tail =>
    have hk := Enters.expected (by rw [hwhole]; exact he) hslot hlit'
    have hsplit : (split n path (commonPrefix path n.path)).path ++ c :: tail = path := hwhole
    suffices Adds slot (split n path (commonPrefix path n.path))
        ((split n path (commonPrefix path n.path)).path ++ c :: tail) x _ by rwa [hsplit] at this
    rw [hk]
    refine addBelow_static hok htype rfl (by rwa [hsplit])
      (fun hz => hnul (by rw [← hwhole]; exact List.mem_append_right _ hz))
      (fun _ => Or.inr (Or.inl (by simp [split]))) fun child hc => ?_
    · -- no index byte is the byte at which the path goes another way
      obtain ⟨d, below, hd⟩ : ∃ d below, n.path.drop (commonPrefix path n.path) = d :: below := by
        cases hdrop : n.path.drop (commonPrefix path n.path) with
        | nil => exact absurd (List.drop_eq_nil_iff.mp hdrop) (by omega)
        | cons d below => exact ⟨d, below, rfl⟩
      exact absurd (by simpa [split, hd] using hc) (drop_commonPrefix hrest hd)

/-- The node's text is passed whole. -/
theorem round_whole {slot : Slot} {n : Node α} {path rest : Bytes} {k : Int} (h : Ok slot n)
    (he : Enters slot n path k) (hnul : (0 : UInt8) ∉ path) (hpath : path = n.path ++ rest)
    {loop : Node α → Bytes → Option UInt8 → Int → Option α → Option (Bool × Node α)}
    (hloop : ∀ {slot : Slot} {child : Node α} {path : Bytes} {k : Int} (before : Option UInt8) (x : α),
      height child < height n → Ok slot child → Enters slot child path k → (0 : UInt8) ∉ path →
      Adds slot child path x (loop child path before k (some x)))
    (before : Option UInt8) (x : α) :
    Adds slot n path x (addBelow loop n rest (n.path.getLast?.or before) k (some x)) := by
  have hrestnul : (0 : UInt8) ∉ rest := fun hz => hnul (by rw [hpath]; exact List.mem_append_right _ hz)
  cases rest with
  | nil =>
    rw [hpath]
    refine addBelow_leaf h (fun hslot hnil => ?_) loop _ k x
    have htakes := he.takes hslot
    rw [hpath, hnil] at htakes
    rcases hslot with rfl | ⟨c, rfl⟩
    · exact htakes rfl
    · simp [Slot.Takes] at htakes
  | cons c tail =>
    -- the loop goes on below an index byte
    have hindex : wildcard c = false → ∀ child, Ok (.index c) child → height child < height n →
        Adds (.index c) child (c :: tail) x
          (loop child (c :: tail) (n.path.getLast?.or before) ((c :: tail).countP wildcard) (some x)) :=
      fun hc child hok hlt => hloop _ x hlt hok ⟨rfl, hc, rfl⟩ hrestnul
    have hstatic : (slot = .root ∨ ∃ c, slot = .index c) → Literal n.path → Edges n →
        n.wildChild = false → (n.type = .static ∨ n.type = .root) →
        Adds slot n path x (addBelow loop n (c :: tail) (n.path.getLast?.or before) k (some x)) := by
      intro hslot hlit hedges hw htype
      rw [(hpath ▸ he : Enters slot n (n.path ++ c :: tail) k).expected hslot hlit, hpath]
      refine addBelow_static h htype hw (hpath ▸ he.takes hslot) hrestnul
        (guarded_whole he hslot hpath) fun child hc => hindex (hedges.edges c hc) child
    -- behind a wildcard's name the next segment starts
    have hsegment : slot = .param ∨ slot = .catchall → c = slash ∧ k = (c :: tail).countP wildcard := by
      intro hs
      obtain ⟨rest, heq, hend, hk⟩ := sameWildcard_whole h he hs
      obtain rfl : c :: tail = rest := List.append_cancel_left (hpath.symm.trans heq)
      refine ⟨?_, hk⟩
      rcases hend with hend | hend
      · cases hend
      · exact Option.some.inj hend
    cases hcase : h with
    | static starts type literal wild edges nodup len below =>
      exact hstatic (starts.slot_cases) literal ⟨edges, nodup, len, below⟩ wild type
    | @wild _ _ m starts type literal wild edges children below =>
      rw [(hpath ▸ he : Enters slot n (n.path ++ c :: tail) k).expected (starts.slot_cases) literal, hpath]
      refine addBelow_wild wild children below (fun m' hm' => ?_) fun child hok hlt hsame => ?_
      · exact .wild (by cases slot <;> exact starts) type literal wild edges rfl hm'
      · exact hloop _ x hlt hok ⟨hsame, by omega⟩ hrestnul
    | param =>
      obtain ⟨rfl, hk⟩ := hsegment (Or.inl rfl)
      rw [hk, hpath]
      exact addBelow_param h hrestnul (hindex rfl)
    | catchallFirst type hnil wild handler edges children below =>
      rw [he.2.2, hpath]
      refine addBelow_wild wild children below (fun m' hm' => ?_) fun child hok hlt hsame => ?_
      · exact .catchallFirst type hnil wild handler edges rfl hm'
      · exact hloop _ x hlt hok ⟨hsame, by rw [hnil, List.nil_append]; omega⟩ hrestnul
    | catchall type hname name wild handler edges nodup len below =>
      obtain ⟨rfl, hk⟩ := hsegment (Or.inr rfl)
      rw [hk, hpath]
      have hlit : Literal n.indices := fun d hd => by rw [edges d hd, wildcard_slash]
      refine addBelow_edges ⟨hlit, nodup, len, below⟩ wild (by simp [type]) rfl hrestnul
        (fun indices children hedges hind _ => ?_) fun child _ => hindex rfl child
      exact .catchall type hname name wild handler (fun d hd => (hind d hd).elim (edges d) id)
        hedges.nodup hedges.len hedges.below

theorem addLoop_spec (fuel : Nat) {slot : Slot} {n : Node α} {path : Bytes} {k : Int}
    (hfuel : height n < fuel) (h : Ok slot n) (he : Enters slot n path k) (hnul : (0 : UInt8) ∉ path)
    (before : Option UInt8) (x : α) : Adds slot n path x (addLoop fuel n path before k (some x)) := by
  induction fuel generalizing slot n path k before x with
  | zero => omega
  | succ fuel ih =>
    rw [addLoop]
    obtain ⟨m, hm⟩ := noteParams_eq n k
    generalize noteParams n k = noted at hm ⊢
    have hok : Ok slot noted := hm ▸ h.weigh m n.priority
    have hroutes : routes noted = routes n := hm ▸ routes_weigh n m n.priority
    have hheight : height noted = height n := hm ▸ height_weigh n m n.priority
    have henters : Enters slot noted path k := by
      rw [hm]
      cases slot <;> exact he
    suffices Adds slot noted path x _ by
      obtain ⟨ok, n', heq, hok', hperm⟩ := this
      exact ⟨ok, n', heq, hok', hroutes ▸ hperm⟩
    by_cases hi : commonPrefix path noted.path < noted.path.length
    · rw [if_pos hi]
      exact round_split hok henters hnul hi _ _ x
    · rw [if_neg hi]
      obtain ⟨rest, hpath, hdrop, htake⟩ := commonPrefix_whole hi
      rw [hdrop, htake]
      exact round_whole hok henters hnul hpath (fun before x hlt hok he hnul => ih (by omega) hok he hnul before x) _ x

/-- The wildcards of a path, where `pgrest_count_params` counts them all. -/
theorem countParams_eq {path : Bytes} (h : path.countP wildcard ≤ 255) :
    countParams path = path.countP wildcard := by
  rw [countParams]
  split <;> omega

/-- The root is ready for a first path. -/
theorem root_fresh {n : Node α} (h : Ok .root n) (hp : n.path = []) (hc : n.children = []) (p : Int) :
    Fresh { n with type := .root, priority := p } := by
  cases h with
  | static starts _ _ wild _ _ len =>
    exact ⟨hp, Or.inr rfl, starts hp, wild, by simpa [hc] using len, hc⟩
  | wild _ _ _ _ _ children => simp [hc] at children

/-- Whatever an add returns, the tree stays well placed and has the route that was accepted. -/
theorem add_spec {n : Node α} (h : Ok .root n) {path : Bytes} (hne : path ≠ []) (hnul : (0 : UInt8) ∉ path)
    (hfew : path.countP wildcard ≤ 255) {x : α} {ok : Bool} {n' : Node α}
    (he : add n path (some x) = some (ok, n')) :
    Ok .root n' ∧ (routes n').Perm (gain ok path x ++ routes n) := by
  rw [add, countParams_eq hfew] at he
  dsimp only at he
  split at he
  · next hempty =>
    obtain ⟨hp, hc⟩ := hempty
    have hfresh := root_fresh h (List.length_eq_zero_iff.mp hp) (List.length_eq_zero_iff.mp hc)
      (n.priority + 1)
    have hready : Ready .root { n with type := .root, priority := n.priority + 1 } [] path :=
      { ok := hfresh.ok fun _ => hfresh.handler
        type := Or.inr rfl
        wild := hfresh.wild
        takes := fun hnil => hne (List.append_eq_nil_iff.mp hnil).2
        literal := literal_nil
        nul := by simpa using hnul
        stand := Or.inl hfresh }
    have hroutes : routes n = [] := by
      rw [routes_eq]
      have := hfresh.routes
      rw [routes_eq] at this
      exact this
    obtain ⟨hok, hperm⟩ := childInsert_spec hready none he
    rw [hfresh.routes, hfresh.path] at hperm
    exact ⟨hok, by simpa [hroutes] using hperm⟩
  · next hfull =>
    have hok := h.weigh n.maxParams (n.priority + 1)
    have henters : Enters .root { n with maxParams := n.maxParams, priority := n.priority + 1 } path
        (path.countP wildcard) :=
      ⟨hne, fun hp hc => hfull ⟨List.length_eq_zero_iff.mpr hp, List.length_eq_zero_iff.mpr hc⟩, rfl⟩
    obtain ⟨ok', n'', heq, hok', hperm⟩ :=
      addLoop_spec (2 * height { n with priority := n.priority + 1 } + 2) (by omega) hok henters hnul none x
    rw [he] at heq
    cases heq
    exact ⟨hok', by simpa [routes_weigh n n.maxParams] using hperm⟩

/-- An add reads nothing outside of its path, unless it starts an empty tree with a star. -/
theorem add_total {n : Node α} (h : Ok .root n) {path : Bytes} (hne : path ≠ []) (hnul : (0 : UInt8) ∉ path)
    (hfew : path.countP wildcard ≤ 255) (hstar : path.head? ≠ some star) (x : α) :
    ∃ ok n', add n path (some x) = some (ok, n') := by
  rw [add, countParams_eq hfew]
  dsimp only
  split
  · exact childInsert_total (fun hs => absurd hs hstar) (some x)
  · next hfull =>
    have henters : Enters .root { n with maxParams := n.maxParams, priority := n.priority + 1 } path
        (path.countP wildcard) :=
      ⟨hne, fun hp hc => hfull ⟨List.length_eq_zero_iff.mpr hp, List.length_eq_zero_iff.mpr hc⟩, rfl⟩
    obtain ⟨ok, n', heq, -⟩ := addLoop_spec (2 * height { n with priority := n.priority + 1 } + 2)
      (by omega) (h.weigh n.maxParams (n.priority + 1)) henters hnul none x
    exact ⟨ok, n', heq⟩

end PgRest.Rtree