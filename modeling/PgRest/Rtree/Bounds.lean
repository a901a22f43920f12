import PgRest.Rtree.Checked

/-! What `pgrest_rtree_add` does to any tree: it reads nothing outside of the path, whatever is
in the tree, but for one path in an empty tree; and a path that is accepted has had its
wildcards checked. -/
namespace PgRest.Rtree
open Lib

variable {α : Type}

/-! ### Texts that agree -/

/-- `strncmp` compares up to the end, or up to a NUL. -/
theorem strncmp_agree {t s : Bytes} (hlen : t.length ≤ s.length) (h : strncmp t s t.length = true) :
    t <+: s ∨ ∃ z z', t = z ++ 0 :: z' ∧ z ++ [0] <+: s := by
  induction t generalizing s with
  | nil => exact Or.inl (List.nil_prefix)
  | cons b t ih =>
    cases s with
    | nil => simp at hlen
    | cons a s =>
      simp only [List.length_cons, strncmp, Bool.and_eq_true, beq_iff_eq, Bool.or_eq_true] at h
      obtain ⟨rfl, hzero | hrest⟩ := h
      · subst hzero
        exact Or.inr ⟨[], t, rfl, List.cons_prefix_cons.mpr ⟨rfl, List.nil_prefix⟩⟩
      · rcases ih (Nat.le_of_succ_le_succ hlen) hrest with hp | ⟨z, z', rfl, hp⟩
        · exact Or.inl (List.cons_prefix_cons.mpr ⟨rfl, hp⟩)
        · exact Or.inr ⟨b :: z, z', rfl, List.cons_prefix_cons.mpr ⟨rfl, hp⟩⟩

theorem commonPrefix_ge {z s t : Bytes} (hs : z <+: s) (ht : z <+: t) : z.length ≤ commonPrefix s t := by
  induction z generalizing s t with
  | nil => exact Nat.zero_le _
  | cons c z ih =>
    obtain ⟨s, rfl⟩ := hs
    obtain ⟨t, rfl⟩ := ht
    simp only [List.cons_append, commonPrefix, beq_self_eq_true, if_true, List.length_cons]
    exact Nat.succ_le_succ (ih (List.prefix_append _ _) (List.prefix_append _ _))

theorem sameWildcard_agree {name path : Bytes} (h : sameWildcard name path = true) :
    name <+: path ∨ ∃ z z', name = z ++ 0 :: z' ∧ z ++ [0] <+: path := by
  simp only [sameWildcard, Bool.and_eq_true, decide_eq_true_eq] at h
  exact strncmp_agree h.1.1 h.1.2

/-- A path that is passed whole goes on with a new segment. -/
theorem sameWildcard_end {name rest : Bytes} (h : sameWildcard name (name ++ rest) = true) : AtSegmentEnd rest := by
  simp only [sameWildcard, Bool.and_eq_true, Bool.or_eq_true, decide_eq_true_eq, beq_iff_eq] at h
  cases rest with
  | nil => exact Or.inl rfl
  | cons c rest => exact Or.inr (by simpa [show ¬name.length + (rest.length + 1) ≤ name.length by omega] using h.2)

theorem Mark.count {n : Node α} {mark : Bytes} (h : Mark n mark) : mark.countP wildcard = 1 ∧ (0 : UInt8) ∉ mark := by
  rcases h with rfl | ⟨rfl, -⟩ <;> decide

/-- A path that has been found to go on with the wildcard of a node agrees with it in some of the
name, and in all of it unless there is a NUL in it. -/
theorem WildText.agree {n : Node α} {path : Bytes} (h : WildText n) (hsame : sameWildcard n.path path = true) :
    ∃ mark name j, n.path = mark ++ name ∧ Mark n mark ∧ Literal name ∧ slash ∉ name ∧
      commonPrefix path n.path = mark.length + j ∧ name.take j ≠ [] ∧
      (commonPrefix path n.path < n.path.length → (0 : UInt8) ∈ path) := by
  obtain ⟨mark, name, hpath, hmark, hne, hl, hs⟩ := h
  have hle := (commonPrefix_le path n.path).2
  have hnil : ∀ j, 0 < j → name.take j ≠ [] := by
    intro j hj hnil
    rcases List.take_eq_nil_iff.mp hnil with rfl | h
    · exact absurd hj (Nat.lt_irrefl 0)
    · exact hne h
  have hname : 0 < name.length := List.length_pos_iff.mpr hne
  rcases sameWildcard_agree hsame with hp | ⟨z, z', hz, hp⟩
  · have hge := commonPrefix_ge hp (List.prefix_refl n.path)
    refine ⟨mark, name, name.length, hpath, hmark, hl, hs, ?_, hnil _ hname, fun hlt => by omega⟩
    rw [hpath, List.length_append] at *
    omega
  · have hge := commonPrefix_ge hp (t := n.path) (by rw [hz]; exact ⟨z', by simp⟩)
    rw [List.length_append, List.length_singleton] at hge
    -- the NUL is not in the mark
    have hlen : mark.length ≤ z.length := by
      by_contra hlt
      refine hmark.count.2 (List.mem_of_getElem? (i := z.length) ?_)
      have hleft : (mark ++ name)[z.length]? = mark[z.length]? := List.getElem?_append_left (by omega)
      rw [← hleft, ← hpath, hz, List.getElem?_append_right (Nat.le_refl _)]
      simp
    refine ⟨mark, name, commonPrefix path n.path - mark.length, hpath, hmark, hl, hs, by omega, hnil _ (by omega),
      fun _ => ?_⟩
    exact hp.subset (List.mem_append_right _ (List.mem_singleton_self _))

theorem WildText.count {n : Node α} {path : Bytes} (h : WildText n) (hsame : sameWildcard n.path path = true) :
    path.countP wildcard = (path.drop (commonPrefix path n.path)).countP wildcard + 1 := by
  obtain ⟨mark, name, j, hpath, hmark, hl, -, hj, -, -⟩ := h.agree hsame
  have htake : path.take (commonPrefix path n.path) = mark ++ name.take j := by
    rw [take_commonPrefix, hj, hpath, List.take_length_add_append]
  conv_lhs => rw [← List.take_append_drop (commonPrefix path n.path) path]
  rw [htake, List.countP_append, List.countP_append, hmark.count.1,
    countP_literal (literal_of_sublist (List.take_sublist _ _) hl)]
  omega

/-! ### One round -/

/-- What is left of the path behind a node, and what is still expected of it. A path that has
both a NUL and too many wildcards is left out where the last wildcard that is counted matters. -/
structure Left (m d c : Nat) (rest : Bytes) (k : Int) : Prop where
  expected : Expected d c k
  tame : m ≤ 254 ∨ (0 : UInt8) ∉ rest ∨ d + c ≤ 255

/-- The loop comes to a node with a text, whose first wildcard the node may have been found by. -/
structure Arrives (m : Nat) (wild : Bool) (d : Nat) (n : Node α) (text : Bytes) (k : Int) : Prop where
  safe : Safe m wild d n
  left : Left m d (text.countP wildcard - if wild then 1 else 0) text k
  same : wild = true → sameWildcard n.path text = true
  start : wild = false → d < 255 → n.path = [] → n.children = [] → text.head? ≠ some star

/-- The loop comes to an end from a node on, leaves a safe node, and has checked the wildcards it accepts. -/
def Keeps (m : Nat) (wild : Bool) (d : Nat) (n : Node α) (before : Option UInt8) (text : Bytes)
    (result : Option (Bool × Node α)) : Prop :=
  ∃ ok n', result = some (ok, n') ∧ Safe m wild d n' ∧
    (ok = true → (0 : UInt8) ∉ text → Good (m + (if wild then 1 else 0) - d) (CatchallAt n) before text)

/-- The same from behind the text of a node. -/
def Ends (m : Nat) (wild : Bool) (d : Nat) (n : Node α) (before : Option UInt8) (rest : Bytes)
    (result : Option (Bool × Node α)) : Prop :=
  ∃ ok n', result = some (ok, n') ∧ Safe m wild d n' ∧
    (ok = true → (0 : UInt8) ∉ rest → Good (m - d) (fun s => CatchallAt n (n.path ++ s)) before rest)

section
variable {m d : Nat} {wild : Bool} {n : Node α} {before : Option UInt8}

theorem Ends.rejected {rest : Bytes} {n' : Node α} (h : Safe m wild d n') :
    Ends m wild d n before rest (some (false, n')) :=
  ⟨false, n', rfl, h, fun hok => absurd hok (by decide)⟩

/-- The loop goes on at a child. -/
theorem Keeps.above {rest : Bytes} {child c : Node α} {wild' : Bool} {d' : Nat} {result : Option (Bool × Node α)}
    (put : Node α → Node α) (h : Keeps m wild' d' child before rest result)
    (hr : m - d ≤ m + (if wild' then 1 else 0) - d') (hmem : c ∈ n.children)
    (hat : ∀ s, CatchallAt child s → CatchallAt c s) (hput : ∀ c, Safe m wild' d' c → Safe m wild d (put c)) :
    Ends m wild d n before rest (result.map fun r => (r.1, put r.2)) := by
  obtain ⟨ok, c', rfl, hsafe, hgood⟩ := h
  refine ⟨ok, put c', rfl, hput c' hsafe, fun hok hnul => ?_⟩
  exact (hgood hok hnul).mono hr fun s hs => .child hmem (hat s hs)

theorem addBelow_leaf_safe (h : Safe m wild d n)
    (loop : Node α → Bytes → Option UInt8 → Int → Option α → Option (Bool × Node α)) (k : Int) (x : Option α) :
    Ends m wild d n before [] (addBelow loop n [] before k x) := by
  rw [addBelow]
  split
  · exact .rejected h
  · exact ⟨true, _, rfl, h.congr rfl rfl rfl rfl rfl, fun _ _ => Good.of_literal literal_nil⟩

variable {loop : Node α → Bytes → Option UInt8 → Int → Option α → Option (Bool × Node α)} {c : UInt8} {tail : Bytes}
  {k : Int} {x : Option α}

theorem addBelow_wild_safe (hm : 254 ≤ m) (h : Safe m wild d n) (hw : n.wildChild = true)
    (hleft : Left m d ((c :: tail).countP wildcard) (c :: tail) k)
    (hloop : ∀ child, height child < height n → Arrives m true (d + 1) child (c :: tail) (k - 1) →
      Keeps m true (d + 1) child before (c :: tail) (loop child (c :: tail) before (k - 1) x)) :
    Ends m wild d n before (c :: tail) (addBelow loop n (c :: tail) before k x) := by
  obtain ⟨hd, child, hchildren, hchild⟩ := h.wild_inv hw
  have hput : ∀ m', Safe m true (d + 1) m' → Safe m wild d { n with children := [m'] } := by
    intro m' hm'
    exact .wild (h.text.congr rfl rfl rfl) h.edges (by have := h.len; rw [hchildren] at this; exact this) hw hd rfl hm'
  rw [addBelow, if_pos hw, hchildren]
  obtain ⟨p, hp⟩ := noteParams_eq { child with priority := child.priority + 1 } k
  simp only [hp]
  have hnoted : Safe m true (d + 1) { child with maxParams := p, priority := child.priority + 1 } :=
    hchild.congr rfl rfl rfl rfl rfl
  split
  · next hsame =>
    have hsame' : sameWildcard child.path (c :: tail) = true := hsame
    refine Keeps.above (c := child) (fun m' => { n with children := [m'] }) (hloop _ ?_ ?_) ?_
      (by rw [hchildren]; exact List.mem_singleton_self _) (fun s hs => hs.congr rfl rfl rfl rfl) hput
    · exact Nat.lt_of_le_of_lt (Nat.le_of_eq (height_weigh child p (child.priority + 1)))
        (height_lt (by rw [hchildren]; exact List.mem_singleton_self _))
    · refine ⟨hnoted, ⟨?_, ?_⟩, fun _ => hsame, fun hf => absurd hf (by decide)⟩
      · obtain ⟨hk, hmin⟩ := hleft.expected
        refine ⟨by push_cast; omega, fun hd' => ?_⟩
        have hcount := (hchild.text (by omega)).count hsame'
        have := hmin (by omega)
        simp only [if_true]
        push_cast
        omega
      · rcases hleft.tame with ht | ht | ht
        · exact Or.inl ht
        · exact Or.inr (Or.inl ht)
        · simp only [if_true]
          omega
    · simp only [if_true]
      omega
  · exact .rejected (hput _ hnoted)

/-- Behind a parameter the path goes on at the node below it. -/
theorem addBelow_param_safe (h : Safe m wild d n) (hw : n.wildChild = false)
    (hparam : (c == slash && n.children.length == 1 && n.type == .param) = true)
    (hleft : Left m d ((c :: tail).countP wildcard) (c :: tail) k)
    (hloop : ∀ child, (∃ c₀ ∈ n.children, height child = height c₀) → Arrives m false d child (c :: tail) k →
      Keeps m false d child before (c :: tail) (loop child (c :: tail) before k x)) :
    Ends m wild d n before (c :: tail) (addBelow loop n (c :: tail) before k x) := by
  rw [addBelow, if_neg (by simp [hw]), if_pos hparam]
  simp only [Bool.and_eq_true, beq_iff_eq] at hparam
  obtain ⟨⟨rfl, hlen⟩, -⟩ := hparam
  obtain ⟨child, hchildren⟩ := List.length_eq_one_iff.mp hlen
  have hchild := h.plain_inv hw child (by rw [hchildren]; exact List.mem_singleton_self _)
  rw [hchildren]
  refine Keeps.above (c := child) (fun m' => { n with children := [m'] }) (hloop _ ?_ ?_) ?_
    (by rw [hchildren]; exact List.mem_singleton_self _) (fun s hs => hs.congr rfl rfl rfl rfl) fun m' hm' => ?_
  · exact ⟨child, by rw [hchildren]; exact List.mem_singleton_self _, height_weigh child child.maxParams _⟩
  · exact ⟨hchild.congr rfl rfl rfl rfl rfl, hleft, fun hf => absurd hf (by decide),
      fun _ _ _ _ hstar => absurd (Option.some.inj hstar) (by decide)⟩
  · simp
  · refine .plain (h.text.congr rfl rfl rfl) h.edges (by have := h.len; rw [hchildren] at this; exact this) hw ?_
    intro m₀ hm₀
    obtain rfl := List.mem_singleton.mp hm₀
    exact hm'

/-- What comes of the children when one of them gains a priority. -/
theorem childPriority_safe {j : Nat} (hlen : n.indices.length ≤ n.children.length) {i : UInt8}
    (hi : n.indices[j]? = some i) (hsafe : ∀ c ∈ n.children, Safe m false d c) :
    ∃ children indices new child, childPriority n j = some ({ n with children := children, indices := indices }, new) ∧
      n.children[j]? = some child ∧ children[new]? = some { child with priority := child.priority + 1 } ∧ new ≤ j ∧
      indices.Perm n.indices ∧ children.length = n.children.length ∧ (∀ c ∈ children, Safe m false d c) ∧
      ∀ l, j < l → children[l]? = n.children[l]? := by
  obtain ⟨hj, -⟩ := List.getElem?_eq_some_iff.mp hi
  have hchild : n.children[j]? = some n.children[j] := List.getElem?_eq_getElem (by omega)
  generalize n.children[j] = child at hchild
  obtain ⟨new, hnew, heq⟩ := childPriority_spec n hchild hi
  have hset : j < (n.children.set j { child with priority := child.priority + 1 }).length := by
    rw [List.length_set]
    omega
  refine ⟨_, _, new, child, heq, hchild, ?_, hnew, moveTo_perm _ hnew hj, ?_, fun c hc => ?_, fun l hl => ?_⟩
  · rw [getElem?_moveTo _ hnew hset, if_pos rfl, List.getElem?_set_self (by omega)]
  · rw [length_moveTo _ hnew hset, List.length_set]
  · rcases List.mem_or_eq_of_mem_set ((moveTo_perm _ hnew hset).subset hc) with hc | rfl
    · exact hsafe c hc
    · exact (hsafe child (List.mem_of_getElem? hchild)).congr rfl rfl rfl rfl rfl
  · rw [getElem?_moveTo _ hnew hset, if_neg (by omega), if_neg (by omega), List.getElem?_set_ne (by omega)]

theorem Safe.setChild {children : List (Node α)} {indices : Bytes} (h : Safe m wild d n) (hw : n.wildChild = false)
    (hi : d < 255 → Literal indices) (hlen : indices.length ≤ children.length)
    (hc : ∀ c ∈ children, Safe m false d c) (j : Nat) {c : Node α} (hj : Safe m false d c) :
    Safe m wild d { n with indices := indices, children := children.set j c } := by
  refine .plain (h.text.congr rfl rfl rfl) hi (by rwa [List.length_set]) hw fun c' hc' => ?_
  rcases List.mem_or_eq_of_mem_set hc' with hc' | rfl
  · exact hc c' hc'
  · exact hj

/-- The path goes on at the child of an index byte. -/
theorem addBelow_edges_safe (h : Safe m wild d n) (hw : n.wildChild = false)
    (hparam : (c == slash && n.children.length == 1 && n.type == .param) = false) {j : Nat}
    (hj : n.indices.findIdx? (· == c) = some j) (hleft : Left m d ((c :: tail).countP wildcard) (c :: tail) k)
    (hloop : ∀ child, height child < height n → Arrives m false d child (c :: tail) k →
      Keeps m false d child before (c :: tail) (loop child (c :: tail) before k x)) :
    Ends m wild d n before (c :: tail) (addBelow loop n (c :: tail) before k x) := by
  have hat : n.indices[j]? = some c := by
    obtain ⟨hlt, heq, -⟩ := List.findIdx?_eq_some_iff_getElem.mp hj
    rw [List.getElem?_eq_getElem hlt, beq_iff_eq.mp heq]
  obtain ⟨children, indices, new, child, heq, hchild, hnew, hle, hperm, hlen, hsafe, -⟩ :=
    childPriority_safe h.len hat (h.plain_inv hw)
  have hmem := List.mem_of_getElem? hchild
  have hliteral : d < 255 → Literal indices := fun hd b hb => h.edges hd b (hperm.subset hb)
  rw [addBelow, if_neg (by simp [hw]), if_neg (by simp [hparam])]
  simp only [hj, heq, Option.bind_some, hnew]
  refine Keeps.above (c := child) (fun m' => { n with indices := indices, children := children.set new m' })
    (hloop { child with priority := child.priority + 1 } ?_ ?_) ?_ hmem (fun s hs => hs.congr rfl rfl rfl rfl)
    fun m' hm' => ?_
  · exact Nat.lt_of_le_of_lt (Nat.le_of_eq (height_weigh child child.maxParams _)) (height_lt hmem)
  · refine ⟨hsafe _ (List.mem_of_getElem? hnew), hleft, fun hf => absurd hf (by decide), fun _ hd _ _ hstar => ?_⟩
    obtain rfl : c = star := Option.some.inj hstar
    exact absurd (h.edges hd star (List.mem_of_getElem? hat)) (by decide)
  · simp
  · exact h.setChild hw hliteral (by rw [hperm.length_eq, hlen]; exact h.len) hsafe new hm'

/-- A new child for the rest of the path. -/
theorem appendChild_safe (hm : m ≤ 255) (h : Safe m wild d n) (hw : n.wildChild = false) (hc : wildcard c = false)
    (hk : Expected d ((c :: tail).countP wildcard) k) (before : Option UInt8) (x : Option α) :
    ∃ ok n', appendChild n c (c :: tail) before k x = some (ok, n') ∧ Safe m wild d n' ∧
      (ok = true → Good (m - d) (fun _ => False) before (c :: tail)) := by
  have hfresh : ∀ p : Int, Safe m false d ({ maxParams := k, priority := p } : Node α) := fun p =>
    Safe.fresh ⟨rfl, Or.inl rfl, rfl, rfl, rfl, rfl⟩
  have hlen := h.len
  obtain ⟨children, indices, new, child, heq, hchild, hnew, hle, hperm, hlength, hsafe, hbehind⟩ :=
    childPriority_safe (n := { n with indices := n.indices ++ [c], children := n.children ++ [{ maxParams := k }] })
      (m := m) (d := d) (j := n.indices.length) (i := c) (by simpa using hlen) (by simp) fun c' hc' => by
        rcases List.mem_append.mp hc' with hc' | hc'
        · exact h.plain_inv hw c' hc'
        · obtain rfl := List.mem_singleton.mp hc'
          exact hfresh 0
  -- the child that the rest is put into is the new one, wherever it is
  obtain ⟨p, hat⟩ : ∃ p : Int,
      children[if n.indices.length = n.children.length then new else n.children.length]? =
        some { maxParams := k, priority := p } := by
    split
    · next hsame =>
      dsimp only at hchild
      rw [hsame, List.getElem?_concat_length] at hchild
      exact ⟨_, by rw [hnew, ← Option.some.inj hchild]⟩
    · next hless =>
      exact ⟨0, by rw [hbehind _ (by omega)]; exact List.getElem?_concat_length⟩
  generalize hj : (if n.indices.length = n.children.length then new else n.children.length) = j at hat
  have hstar : c ≠ star := by
    rintro rfl
    exact absurd hc (by decide)
  obtain ⟨ok, child', hinsert, hsafe', hgood⟩ := childInsert_safe before [] hk (hfresh p) rfl (fun _ => literal_nil)
    (fun _ h => absurd (Option.some.inj h) hstar) x
  refine ⟨ok, { n with indices := indices, children := children.set j child' }, ?_,
    h.setChild hw ?_ ?_ hsafe j hsafe', fun hok => (hgood hok).mono (by omega) fun _ hf => hf⟩
  · unfold appendChild
    simp only [heq, Option.bind_some, hj, hat, hinsert, Option.map_some]
  · intro hd b hb
    rcases List.mem_append.mp (hperm.subset hb) with hb | hb
    · exact h.edges hd b hb
    · rw [List.mem_singleton.mp hb]
      exact hc
  · rw [hperm.length_eq, hlength]
    simpa using hlen

/-- Nothing goes on with the path. -/
theorem addBelow_new_safe (hm : 254 ≤ m ∧ m ≤ 255) (h : Safe m wild d n) (hw : n.wildChild = false)
    (hparam : (c == slash && n.children.length == 1 && n.type == .param) = false)
    (hnone : n.indices.findIdx? (· == c) = none) (hk : Expected d ((c :: tail).countP wildcard) k)
    (hguard : wild = false → d < 255 → Guarded n before [] (c :: tail))
    (hkept : wild = true → d ≤ m → wildcard c = true → n.children ≠ [] ∧ d < 255) :
    Ends m wild d n before (c :: tail) (addBelow loop n (c :: tail) before k x) := by
  rw [addBelow, if_neg (by simp [hw]), if_neg (by simp [hparam])]
  simp only [hnone]
  split
  · next hc =>
    cases wild with
    | false =>
      obtain ⟨ok, n', heq, hsafe, hgood⟩ := childInsert_safe before [] hk h hw (fun _ => literal_nil) (hguard rfl) x
      exact ⟨ok, n', heq, hsafe, fun hok _ => (hgood hok).mono (by omega) fun _ hf => absurd hf id⟩
    | true =>
      rcases Nat.lt_or_ge m d with hd | hd
      · -- behind the last wildcard that is counted the path is put into the node as it is
        refine ⟨true, { n with path := [] ++ c :: tail, handler := x }, ?_, ?_, fun _ _ => ?_⟩
        · have := hk.1
          rw [childInsert.eq_def, if_pos (by omega)]
        · exact .plain (fun hd' => absurd hd (by omega)) h.edges h.len hw (h.plain_inv hw)
        · rw [Nat.sub_eq_zero_of_le (by omega)]
          exact Good.zero _ _ _
      · obtain ⟨hchildren, hd'⟩ := hkept rfl hd hc
        have hpos : 0 < k := by
          have := hk.2 hd'
          rw [List.countP_cons_of_pos hc] at this
          omega
        rw [childInsert_wildcard n hpos before [] hc rfl rfl, if_pos (by simp [hchildren])]
        exact .rejected h
  · next hc =>
    obtain ⟨ok, n', heq, hsafe, hgood⟩ := appendChild_safe hm.2 h hw (by simpa using hc) hk before x
    exact ⟨ok, n', heq, hsafe, fun hok _ => (hgood hok).mono (Nat.le_refl _) fun _ hf => absurd hf id⟩

/-- One round behind the text of a node. -/
theorem addBelow_safe (hm : 254 ≤ m ∧ m ≤ 255) (h : Safe m wild d n) {rest : Bytes}
    (hleft : Left m d (rest.countP wildcard) rest k)
    (hwild : n.wildChild = true → ∀ child, height child < height n → Arrives m true (d + 1) child rest (k - 1) →
      Keeps m true (d + 1) child before rest (loop child rest before (k - 1) x))
    (hbelow : (n.type = .param ∨ ∃ c, rest.head? = some c ∧ c ∈ n.indices) → ∀ child, height child < height n →
      Arrives m false d child rest k → Keeps m false d child before rest (loop child rest before k x))
    (hguard : wild = false → d < 255 → Guarded n before [] rest)
    (hkept : wild = true → d ≤ m → ∀ c, rest.head? = some c → wildcard c = true → n.children ≠ [] ∧ d < 255) :
    Ends m wild d n before rest (addBelow loop n rest before k x) := by
  cases rest with
  | nil => exact addBelow_leaf_safe h loop k x
  | cons c tail =>
    cases hw : n.wildChild with
    | true => exact addBelow_wild_safe hm.1 h hw hleft (hwild hw)
    | false =>
      cases hparam : (c == slash && n.children.length == 1 && n.type == .param) with
      | true =>
        refine addBelow_param_safe h hw hparam hleft fun child hchild => ?_
        obtain ⟨c₀, hmem, heq⟩ := hchild
        simp only [Bool.and_eq_true, beq_iff_eq] at hparam
        exact hbelow (Or.inl hparam.2) child (heq ▸ height_lt hmem)
      | false =>
        cases hj : n.indices.findIdx? (· == c) with
        | some j =>
          refine addBelow_edges_safe h hw hparam hj hleft (hbelow (Or.inr ⟨c, rfl, ?_⟩))
          obtain ⟨hlt, heq, -⟩ := List.findIdx?_eq_some_iff_getElem.mp hj
          exact beq_iff_eq.mp heq ▸ List.getElem_mem hlt
        | none =>
          exact addBelow_new_safe hm h hw hparam hj hleft.expected hguard fun hwild hd => hkept hwild hd c rfl

end

/-! ### The loop -/

section
variable {m d : Nat} {wild : Bool} {n : Node α} {before : Option UInt8} {text : Bytes} {k : Int}

/-- What is left behind the text of a node. -/
theorem Arrives.left_rest (hm : 254 ≤ m) (h : Arrives m wild d n text k) :
    Left m d ((text.drop (commonPrefix text n.path)).countP wildcard) (text.drop (commonPrefix text n.path)) k := by
  obtain ⟨⟨hle, hmin⟩, htame⟩ := h.left
  have hnul : (0 : UInt8) ∉ text → (0 : UInt8) ∉ text.drop (commonPrefix text n.path) :=
    fun hn hmem => hn (List.mem_of_mem_drop hmem)
  cases wild with
  | false =>
    have hcount : d < 255 →
        (text.drop (commonPrefix text n.path)).countP wildcard = text.countP wildcard := fun hd => by
      conv_rhs => rw [← List.take_append_drop (commonPrefix text n.path) text]
      rw [List.countP_append, take_commonPrefix,
        countP_literal (literal_of_sublist (List.take_sublist _ _) (h.safe.text.1 hd)), Nat.zero_add]
    have hcount' := (List.drop_sublist (commonPrefix text n.path) text).countP_le (p := wildcard)
    refine ⟨⟨hle, fun hd => ?_⟩, htame.imp_right (Or.imp hnul fun ht => ?_)⟩
    · rw [hcount hd]
      exact hmin hd
    · simp only [Bool.false_eq_true, if_false] at ht
      omega
  | true =>
    simp only [if_true] at hmin htame
    have hcount : d ≤ m →
        text.countP wildcard = (text.drop (commonPrefix text n.path)).countP wildcard + 1 := fun hd =>
      (h.safe.text hd).count (h.same rfl)
    refine ⟨⟨hle, fun hd => ?_⟩, ?_⟩
    · rw [hmin hd, hcount (by omega), Nat.add_sub_cancel]
    · rcases htame with ht | ht | ht
      · exact Or.inl ht
      · exact Or.inr (Or.inl (hnul ht))
      · rcases Nat.lt_or_ge m d with hd | hd
        · exact Or.inl (by omega)
        · have := hcount hd
          exact Or.inr (Or.inr (by omega))

/-- A node that is split is safe again, if a wildcard keeps some of its name. -/
theorem Safe.split (hm : 254 ≤ m) (h : Safe m wild d n) (path : Bytes) {i : Nat} (hi : i < n.path.length)
    (hpath : path.take i = n.path.take i)
    (hcut : wild = true → d ≤ m → ∃ mark name j, n.path = mark ++ name ∧ Mark n mark ∧ Literal name ∧
      slash ∉ name ∧ i = mark.length + j ∧ name.take j ≠ []) :
    Safe m wild d (split n path i) := by
  have hrest : d < 255 → Literal (n.path.drop i) := by
    intro hd
    cases wild with
    | false => exact literal_of_sublist (List.drop_sublist _ _) (h.text.1 hd)
    | true =>
      obtain ⟨mark, name, j, heq, -, hl, -, rfl, -⟩ := hcut rfl (by omega)
      rw [heq, List.drop_length_add_append]
      exact literal_of_sublist (List.drop_sublist _ _) hl
  -- what hung below the node hangs below the rest of it
  have hchild : ∀ c ∈ (Rtree.split n path i).children, Safe m false d c := by
    intro c hc
    obtain rfl := List.mem_singleton.mp hc
    have text : TextOk m false d ({ path := n.path.drop i, wildChild := n.wildChild, type := .static } : Node α) :=
      ⟨hrest, by simp, by simp⟩
    cases hw : n.wildChild with
    | false => exact .plain (text.congr rfl rfl hw.symm) h.edges h.len rfl (h.plain_inv hw)
    | true =>
      obtain ⟨few, c, children, below⟩ := h.wild_inv hw
      exact .wild (text.congr rfl rfl hw.symm) h.edges h.len rfl few children below
  refine .plain ?_ (fun hd => literal_of_sublist (List.take_sublist _ _) (hrest hd)) ?_ rfl hchild
  · cases wild with
    | false =>
      obtain ⟨hl, hparam, hcatchall⟩ := h.text
      refine ⟨fun hd => ?_, hparam, fun hc => ?_⟩
      · show Literal (path.take i)
        rw [hpath]
        exact literal_of_sublist (List.take_sublist _ _) (hl hd)
      · rw [(hcatchall hc).2] at hi
        exact absurd hi (Nat.not_lt_zero _)
    | true =>
      intro hd
      obtain ⟨mark, name, j, heq, hmark, hl, hs, rfl, hne⟩ := hcut rfl hd
      refine ⟨mark, name.take j, ?_, hmark.imp_right fun h => ⟨h.1, h.2.1, rfl⟩, hne,
        literal_of_sublist (List.take_sublist _ _) hl, fun hmem => hs (List.mem_of_mem_take hmem)⟩
      show path.take (mark.length + j) = _
      rw [hpath, heq, List.take_length_add_append]
  · simp only [Rtree.split, List.length_take, List.length_singleton]
    omega

/-- No catch-all comes of a split that the node did not have. -/
theorem CatchallAt.of_split {path t : Bytes} {i : Nat} (hpath : path.take i = n.path.take i)
    (hcatchall : n.type ≠ .catchall) (h : CatchallAt (split n path i) t) : CatchallAt n t := by
  cases h with
  | here type => exact absurd type hcatchall
  | child mem at' =>
    obtain rfl := List.mem_singleton.mp mem
    cases at' with
    | here type => cases type
    | child mem at' =>
      rw [← List.append_assoc]
      show CatchallAt n (path.take i ++ n.path.drop i ++ _)
      rw [hpath, List.take_append_drop]
      exact .child mem at'

/-- The text of a node that no wildcard leads to is passed, whole or in part. -/
theorem Ends.keeps_plain {n' : Node α} {rest : Bytes} {result : Option (Bool × Node α)} (hm : m ≤ 255)
    (hl : d < 255 → Literal n'.path) (hat : ∀ t, CatchallAt n' t → CatchallAt n t)
    (h : Ends m false d n' (n'.path.getLast?.or before) rest result) :
    Keeps m false d n before (n'.path ++ rest) result := by
  obtain ⟨ok, c, heq, hsafe, hgood⟩ := h
  refine ⟨ok, c, heq, hsafe, fun hok hnul => ?_⟩
  rcases Nat.lt_or_ge d 255 with hd | hd
  · exact Good.literal (hl hd) ((hgood hok fun h => hnul (List.mem_append_right _ h)).mono (Nat.le_refl _)
      fun s hs => hat _ hs)
  · show Good (m - d) _ _ _
    rw [Nat.sub_eq_zero_of_le (by omega)]
    exact Good.zero _ _ _

/-- A wildcard is passed whole. -/
theorem Ends.keeps_wild {n' : Node α} {rest : Bytes} {result : Option (Bool × Node α)} (hw : d ≤ m → WildText n')
    (hend : d ≤ m → AtSegmentEnd rest) (hat : ∀ t, CatchallAt n' t → CatchallAt n t)
    (h : Ends m true d n' (n'.path.getLast?.or before) rest result) :
    Keeps m true d n before (n'.path ++ rest) result := by
  obtain ⟨ok, c, heq, hsafe, hgood⟩ := h
  refine ⟨ok, c, heq, hsafe, fun hok hnul => ?_⟩
  show Good (m + 1 - d) _ _ _
  rcases Nat.lt_or_ge m d with hd | hd
  · rw [Nat.sub_eq_zero_of_le (by omega)]
    exact Good.zero _ _ _
  · obtain ⟨mark, name, hpath, hmark, hne, hl, hs⟩ := hw hd
    have hlast : n'.path.getLast?.or before = name.getLast? := by
      rw [hpath, List.getLast?_append, List.getLast?_eq_some_getLast hne]
      rfl
    have hrest := (hgood hok fun h => hnul (List.mem_append_right _ h)).mono (Nat.le_refl _) fun s hs => hat _ hs
    rw [hlast, hpath] at hrest
    rw [hpath, show m + 1 - d = m - d + 1 by omega]
    rcases hmark with rfl | ⟨rfl, type, plain⟩
    · exact Good.wildcard rfl hne hl hs (hend hd) (fun hstar => absurd hstar (by decide)) hrest
    · have hhere : CatchallAt n ([slash] ++ star :: name) := hat _ (hpath ▸ .here type plain)
      exact Good.literal (l := [slash]) (literal_cons.mpr ⟨rfl, literal_nil⟩)
        (Good.wildcard rfl hne hl hs (hend hd) (fun _ => ⟨rfl, fun _ => hhere⟩) hrest)

theorem height_split (n : Node α) (path : Bytes) (i : Nat) : height (split n path i) = height n + 1 := by
  obtain ⟨_, _, _, _, _, _, _, _⟩ := n
  simp [split, height, heights]

/-- The round in which the node is split. -/
theorem addLoop_split_safe (hm : 254 ≤ m ∧ m ≤ 255) (h : Arrives m wild d n text k)
    (hlt : commonPrefix text n.path < n.path.length)
    {loop : Node α → Bytes → Option UInt8 → Int → Option α → Option (Bool × Node α)} {x : Option α}
    (hloop : wild = true → ∀ child rest before, height child ≤ height n → Arrives m false d child rest k →
      Keeps m false d child before rest (loop child rest before k x)) :
    Keeps m wild d n before text
      (addBelow loop (split n text (commonPrefix text n.path)) (text.drop (commonPrefix text n.path))
        ((text.take (commonPrefix text n.path)).getLast?.or before) k x) := by
  have hleft := h.left_rest hm.1
  have htake := take_commonPrefix text n.path
  -- a wildcard agrees in some of its name, and there is a NUL in the path
  have hcut : wild = true → d ≤ m → ∃ mark name j, n.path = mark ++ name ∧ Mark n mark ∧ Literal name ∧
      slash ∉ name ∧ commonPrefix text n.path = mark.length + j ∧ name.take j ≠ [] := by
    rintro rfl hd
    obtain ⟨mark, name, j, heq, hmark, hl, hs, hj, hne, -⟩ := WildText.agree (h.safe.text hd) (h.same rfl)
    exact ⟨mark, name, j, heq, hmark, hl, hs, hj, hne⟩
  have hnul : wild = true → d ≤ m → (0 : UInt8) ∈ text := by
    rintro rfl hd
    obtain ⟨-, -, -, -, -, -, -, -, -, hnul⟩ := WildText.agree (h.safe.text hd) (h.same rfl)
    exact hnul hlt
  have hsafe := h.safe.split hm.1 text hlt htake hcut
  have hends : Ends m wild d (split n text (commonPrefix text n.path))
      ((text.take (commonPrefix text n.path)).getLast?.or before) (text.drop (commonPrefix text n.path))
      (addBelow loop (split n text (commonPrefix text n.path)) (text.drop (commonPrefix text n.path))
        ((text.take (commonPrefix text n.path)).getLast?.or before) k x) := by
    apply addBelow_safe hm hsafe hleft
    · intro hw
      cases hw
    · rintro (hparam | ⟨c, hc, hmem⟩) child hheight hchild
      · cases wild with
        | false => exact absurd hparam h.safe.text.2.1
        | true =>
          rw [height_split] at hheight
          exact hloop rfl child _ _ (Nat.le_of_lt_succ hheight) hchild
      · obtain ⟨b, below, hb⟩ : ∃ b below, n.path.drop (commonPrefix text n.path) = b :: below :=
          List.exists_cons_of_ne_nil (by rw [Ne, List.drop_eq_nil_iff]; omega)
        obtain ⟨tail, hrest⟩ := List.head?_eq_some_iff.mp hc
        have hmem' : c ∈ (n.path.drop (commonPrefix text n.path)).take 1 := hmem
        rw [hb] at hmem'
        exact absurd (by simpa using hmem') (drop_commonPrefix hrest hb)
    · exact fun _ _ _ => Or.inr (Or.inl (by simp [split]))
    · intro hwild hd c hc hcard
      refine ⟨by simp [split], ?_⟩
      have hpos : 0 < (text.drop (commonPrefix text n.path)).countP wildcard :=
        List.countP_pos_iff.mpr ⟨c, List.mem_of_head? hc, hcard⟩
      subst hwild
      have hcount := WildText.count (h.safe.text hd) (h.same rfl)
      rcases h.left.tame with ht | ht | ht
      · omega
      · exact absurd (hnul rfl hd) ht
      · simp only [if_true] at ht
        omega
  cases wild with
  | false =>
    have hkeeps : Keeps m false d n before ((split n text (commonPrefix text n.path)).path ++ _) _ :=
      Ends.keeps_plain hm.2 hsafe.text.1 (fun t => CatchallAt.of_split htake fun hc => by
        rw [(h.safe.text.2.2 hc).2] at hlt
        exact absurd hlt (Nat.not_lt_zero _)) hends
    rwa [show (split n text (commonPrefix text n.path)).path ++ _ = text from List.take_append_drop _ text] at hkeeps
  | true =>
    obtain ⟨ok, c, heq, hsafe, -⟩ := hends
    refine ⟨ok, c, heq, hsafe, fun _ hn => ?_⟩
    show Good (m + 1 - d) _ _ _
    rcases Nat.lt_or_ge m d with hd | hd
    · rw [Nat.sub_eq_zero_of_le (by omega)]
      exact Good.zero _ _ _
    · exact absurd (hnul rfl hd) hn

/-- The round in which the path goes on behind the node. -/
theorem addLoop_whole_safe (hm : 254 ≤ m ∧ m ≤ 255) (h : Arrives m wild d n text k)
    (hlt : ¬commonPrefix text n.path < n.path.length)
    {loop : Node α → Bytes → Option UInt8 → Int → Option α → Option (Bool × Node α)} {x : Option α}
    (hwild : ∀ child rest before, height child < height n → Arrives m true (d + 1) child rest (k - 1) →
      Keeps m true (d + 1) child before rest (loop child rest before (k - 1) x))
    (hbelow : ∀ child rest before, height child < height n → Arrives m false d child rest k →
      Keeps m false d child before rest (loop child rest before k x)) :
    Keeps m wild d n before text
      (addBelow loop n (text.drop (commonPrefix text n.path))
        ((text.take (commonPrefix text n.path)).getLast?.or before) k x) := by
  have hleft := h.left_rest hm.1
  obtain ⟨rest, htext, hdrop, htake⟩ := commonPrefix_whole hlt
  rw [hdrop] at hleft
  rw [hdrop, htake]
  have hend : wild = true → d ≤ m → AtSegmentEnd rest := by
    rintro rfl hd
    exact sameWildcard_end (htext ▸ h.same rfl)
  have hends : Ends m wild d n (n.path.getLast?.or before) rest
      (addBelow loop n rest (n.path.getLast?.or before) k x) := by
    apply addBelow_safe hm h.safe hleft
    · exact fun _ child => hwild child _ _
    · exact fun _ child => hbelow child _ _
    · intro hwild hd hstar
      by_cases hc : n.children = []
      · have hpath : n.path ≠ [] := fun hp => by
          rw [hp, List.nil_append] at htext
          exact h.start hwild hd hp hc (htext ▸ hstar)
        refine Or.inr (Or.inr ⟨n.path.getLast hpath, ?_, fun hs => ?_⟩)
        · rw [List.getLast?_eq_some_getLast hpath]
          rfl
        · rw [List.getLast?_eq_some_getLast hpath, hs]
      · exact Or.inr (Or.inl hc)
    · intro hwild hd c hc hcard
      rcases hend hwild hd with rfl | hslash
      · cases hc
      · obtain rfl := Option.some.inj (hslash.symm.trans hc)
        cases hcard
  rw [htext]
  cases wild with
  | false => exact Ends.keeps_plain hm.2 h.safe.text.1 (fun _ => id) hends
  | true => exact Ends.keeps_wild h.safe.text (hend rfl) (fun _ => id) hends

/-- The loop ends, and has read nothing outside of the path. The induction is on its rounds: each
goes down a level, or from a wildcard into the child it has been split from. -/
theorem addLoop_safe (hm : 254 ≤ m ∧ m ≤ 255) (before : Option UInt8) (x : Option α) {fuel : Nat}
    (hfuel : 2 * height n + (if wild then 2 else 1) ≤ fuel) (h : Arrives m wild d n text k) :
    Keeps m wild d n before text (addLoop fuel n text before k x) := by
  induction fuel generalizing wild d n before text k with
  | zero => split at hfuel <;> omega
  | succ fuel ih =>
    obtain ⟨p, hp⟩ := noteParams_eq n k
    have hheight : height { n with maxParams := p } = height n := height_weigh n p n.priority
    have harrives : Arrives m wild d { n with maxParams := p } text k :=
      ⟨h.safe.congr rfl rfl rfl rfl rfl, h.left, h.same, h.start⟩
    have hkeeps : ∀ result, Keeps m wild d { n with maxParams := p } before text result →
        Keeps m wild d n before text result := by
      rintro _ ⟨ok, c, heq, hsafe, hgood⟩
      exact ⟨ok, c, heq, hsafe, fun hok hn =>
        (hgood hok hn).mono (Nat.le_refl _) fun _ hs => hs.congr rfl rfl rfl rfl⟩
    rw [addLoop]
    simp only [hp]
    apply hkeeps
    split
    · next hlt =>
      apply addLoop_split_safe hm harrives hlt
      intro hwild child rest before hle hchild
      refine ih before ?_ hchild
      simp only [hwild, if_true] at hfuel
      simp only [Bool.false_eq_true, if_false]
      omega
    · next hlt =>
      apply addLoop_whole_safe hm harrives hlt
      · intro child rest before hle hchild
        refine ih before ?_ hchild
        simp only [if_true]
        split at hfuel <;> omega
      · intro child rest before hle hchild
        refine ih before ?_ hchild
        simp only [Bool.false_eq_true, if_false]
        split at hfuel <;> omega

end

/-! ### `pgrest_rtree_add` -/

/-- A catch-all with nothing in front of it. -/
def BareCatchall (path : Bytes) : Prop := ∃ name, path = star :: name ∧ name ≠ [] ∧ Literal name ∧ slash ∉ name

/-- Nothing is in the tree. -/
def Node.Empty (n : Node α) : Prop := n.path = [] ∧ n.children = []

theorem countParams_expected (path : Bytes) : Expected 0 (path.countP wildcard) (countParams path) := by
  have heq : countParams path = if path.countP wildcard ≥ 255 then 255 else (path.countP wildcard : Int) := rfl
  rw [Expected, heq]
  split <;> omega

theorem whole_segment {name : Bytes} (hs : slash ∉ name) :
    name.takeWhile (· != slash) = name ∧ name.dropWhile (· != slash) = [] := by
  have htake := takeWhile_segment hs (Or.inl rfl : AtSegmentEnd [])
  have hdrop := dropWhile_segment hs (Or.inl rfl : AtSegmentEnd [])
  rw [List.append_nil] at htake hdrop
  exact ⟨htake, hdrop⟩

/-- What stands in front of the star is read, though there is nothing. -/
theorem childInsert_bare {n : Node α} (hempty : n.Empty) {path : Bytes} (h : BareCatchall path) (x : Option α) :
    childInsert n (countParams path) none [] path x = none := by
  obtain ⟨name, rfl, hne, hl, hs⟩ := h
  obtain ⟨htake, hdrop⟩ := whole_segment hs
  have hcount : countParams (star :: name) = 1 := by
    rw [countParams, List.countP_cons_of_pos rfl, countP_literal hl]
    rfl
  rw [hcount, childInsert_wildcard n (by decide) none [] rfl htake hdrop, if_neg, if_neg (by decide), if_neg (by decide),
    if_neg]
  · rfl
  · rw [hempty.1]
    decide
  · have hany : name.any wildcard = false := List.any_eq_false.mpr fun c hc => by simp [hl c hc]
    simpa [hany, hempty.2] using hne

/-- Another path that starts with a star is turned down before that. -/
theorem childInsert_star {n : Node α} {name : Bytes} (h : ¬BareCatchall (star :: name)) (x : Option α) :
    childInsert n (countParams (star :: name)) none [] (star :: name) x = some (false, n) := by
  have hpos : 0 < countParams (star :: name) := by
    have hcount := (countParams_expected (star :: name)).2 (by decide)
    rw [List.countP_cons_of_pos rfl] at hcount
    omega
  rw [childInsert_wildcard n hpos none [] rfl rfl rfl]
  split
  · rfl
  next hgood =>
  simp only [Bool.or_eq_true, not_or, Bool.not_eq_true, List.isEmpty_iff] at hgood
  obtain ⟨⟨hwild, -⟩, hempty⟩ := hgood
  rw [if_neg (by decide), if_pos]
  rw [Bool.or_eq_true]
  refine Or.inl ?_
  by_contra hafter
  have hs : slash ∉ name := by simpa using hafter
  rw [(whole_segment hs).1] at hwild hempty
  exact h ⟨name, rfl, hempty, literal_of_any hwild, hs⟩

/-- The first path of a tree is put into an empty root. -/
theorem Safe.root {m : Nat} {n : Node α} (h : Safe m false 0 n) (hempty : n.Empty) (p : Int) :
    Safe m false 0 { n with type := .root, priority := p } := by
  cases hw : n.wildChild with
  | false =>
    refine .plain ⟨h.text.1, by simp, by simp⟩ h.edges h.len rfl ?_
    show ∀ c ∈ n.children, _
    simp [hempty.2]
  | true =>
    obtain ⟨-, c, hc, -⟩ := h.wild_inv hw
    exact absurd (hempty.2.symm.trans hc) (by simp)

theorem add_bare {tree : Node α} (hempty : tree.Empty) {path : Bytes} (h : BareCatchall path) (x : Option α) :
    add tree path x = none := by
  rw [add]
  dsimp only
  rw [if_pos ⟨List.length_eq_zero_iff.mpr hempty.1, List.length_eq_zero_iff.mpr hempty.2⟩]
  have hroot : ({ tree with type := .root, priority := tree.priority + 1 } : Node α).Empty := hempty
  exact childInsert_bare hroot h x

theorem add_not_bare {tree : Node α} {path : Bytes} {x : Option α} {r : Bool × Node α}
    (hadd : add tree path x = some r) : ¬(tree.Empty ∧ BareCatchall path) := by
  rintro ⟨hempty, hb⟩
  rw [add_bare hempty hb] at hadd
  cases hadd

/-- Whatever `pgrest_rtree_add` returns, it leaves a safe tree and has checked what it accepts. -/
theorem add_safe {m : Nat} (hm : 254 ≤ m ∧ m ≤ 255) {tree : Node α} (h : Safe m false 0 tree) {path : Bytes}
    (htame : m ≤ 254 ∨ (0 : UInt8) ∉ path ∨ path.countP wildcard ≤ 255) (hbare : ¬(tree.Empty ∧ BareCatchall path))
    (x : Option α) : Keeps m false 0 tree none path (add tree path x) := by
  have hk := countParams_expected path
  rw [add]
  dsimp only
  split
  · next hempty =>
    have hempty : tree.Empty := ⟨List.length_eq_zero_iff.mp hempty.1, List.length_eq_zero_iff.mp hempty.2⟩
    have hroot := h.root hempty (tree.priority + 1)
    have hplain : tree.wildChild = false := by
      cases hw : tree.wildChild with
      | false => rfl
      | true =>
        obtain ⟨-, c, hc, -⟩ := h.wild_inv hw
        exact absurd (hempty.2.symm.trans hc) (by simp)
    by_cases hstar : path.head? = some star
    · obtain ⟨name, rfl⟩ := List.head?_eq_some_iff.mp hstar
      exact ⟨false, _, childInsert_star (fun hb => hbare ⟨hempty, hb⟩) x, hroot, fun hf => absurd hf (by decide)⟩
    · obtain ⟨ok, n', heq, hsafe, hgood⟩ := childInsert_safe none [] hk hroot hplain (fun _ => literal_nil)
        (fun _ hs => absurd hs hstar) x
      exact ⟨ok, n', heq, hsafe, fun hok _ => (hgood hok).mono hm.2 fun _ hf => absurd hf id⟩
  · next hfull =>
    have hweighed : Safe m false 0 { tree with priority := tree.priority + 1 } := h.congr rfl rfl rfl rfl rfl
    have harrives : Arrives m false 0 { tree with priority := tree.priority + 1 } path (countParams path) := by
      refine ⟨hweighed, ⟨hk, ?_⟩, fun hf => absurd hf (by decide), fun _ _ hp hc => ?_⟩
      · simpa using htame
      · exact absurd ⟨List.length_eq_zero_iff.mpr hp, List.length_eq_zero_iff.mpr hc⟩ hfull
    obtain ⟨ok, n', heq, hsafe, hgood⟩ := addLoop_safe hm none x (Nat.le_succ _) harrives
    exact ⟨ok, n', heq, hsafe, fun hok hn => (hgood hok hn).mono (Nat.le_refl _) fun _ hs => hs.congr rfl rfl rfl rfl⟩

/-! ### Trees that have been built -/

/-- A call of `pgrest_rtree_add`. The tree is there whether the path is accepted or not. -/
def addStep (tree : Node α) (a : Bytes × Option α) : Option (Node α) := (add tree a.1 a.2).map Prod.snd

/-- The trees that are built from the empty one, by paths of a kind. -/
abbrev Built (ok : Bytes → Prop) (tree : Node α) : Prop := Run addStep (fun _ a => ok a.1) create tree

theorem Built.safe {m : Nat} (hm : 254 ≤ m ∧ m ≤ 255) {ok : Bytes → Prop}
    (hok : ∀ path, ok path → m ≤ 254 ∨ (0 : UInt8) ∉ path ∨ path.countP wildcard ≤ 255) {tree : Node α}
    (h : Built ok tree) : Safe m false 0 tree := by
  refine h.invariant (Safe.fresh ⟨rfl, Or.inl rfl, rfl, rfl, rfl, rfl⟩) fun t a t' ht ha hstep => ?_
  obtain ⟨⟨_, _⟩, hadd, rfl⟩ := Option.map_eq_some_iff.mp hstep
  obtain ⟨ok, n', heq, hsafe, -⟩ := add_safe hm ht (hok a.1 ha) (add_not_bare hadd) a.2
  cases hadd.symm.trans heq
  exact hsafe

/-- Adding a path reads nothing outside of it and ends, whatever has been added before, but for a
catch-all that has nothing in front of it and no tree to be put below. -/
theorem add_inside {tree : Node α} (h : Built (fun _ => True) tree) (path : Bytes) (x : Option α) :
    (∃ r, add tree path x = some r) ↔ ¬(tree.Empty ∧ BareCatchall path) := by
  constructor
  · rintro ⟨r, hr⟩
    exact add_not_bare hr
  · intro hbare
    obtain ⟨ok, n', heq, -⟩ :=
      add_safe (by decide) (h.safe (m := 254) (by decide) fun _ _ => Or.inl (by decide)) (Or.inl (by decide)) hbare x
    exact ⟨_, heq⟩

/-- `/:a` can be added to the empty tree. -/
theorem add_inside_param : ∃ r, add create [slash, colon, 97] (some true) = some r := by
  refine (add_inside .start [slash, colon, 97] (some true)).mpr ?_
  rintro ⟨-, name, heq, -⟩
  exact absurd (List.head_eq_of_cons_eq heq) (by decide)

/-- `*a` is looked at from in front of its first byte. -/
theorem add_outside : ¬∀ (tree : Node Bool) (path : Bytes) (x : Option Bool), Built (fun _ => True) tree → path ≠ [] →
    ∃ r, add tree path x = some r := by
  intro h
  obtain ⟨r, hr⟩ := h create [star, 97] (some true) .start (by decide)
  have hnone : (add create [star, 97] (some true)).isNone = true := by with_unfolding_all decide
  rw [hr] at hnone
  cases hnone

/-- The paths that `pgrest_conf_http_path_set` can ask for, and those with a NUL whose wildcards are
all counted. -/
def Tame (path : Bytes) : Prop := (0 : UInt8) ∉ path ∨ path.countP wildcard ≤ 255

/-- The wildcards of a path that is accepted are checked as far as they are counted, whatever is
already in the tree. What follows the name of a catch-all is only checked if the catch-all is new. -/
theorem add_checked {tree tree' : Node α} (h : Built (fun _ => True) tree) {path : Bytes} (hnul : (0 : UInt8) ∉ path)
    {x : Option α} (hadd : add tree path x = some (true, tree')) {a b : Bytes} {c : UInt8} (heq : path = a ++ c :: b)
    (hc : wildcard c = true)
    (hcount : a.countP wildcard < 254 ∨ a.countP wildcard = 254 ∧ Built Tame tree) :
    Checked (CatchallAt tree) none a c b := by
  have hgood : ∀ m, 254 ≤ m ∧ m ≤ 255 → Safe m false 0 tree → Good m (CatchallAt tree) none path := by
    intro m hm hsafe
    have hbare : ¬(tree.Empty ∧ BareCatchall path) := add_not_bare hadd
    obtain ⟨ok, n', hadd', -, hgood⟩ := add_safe hm hsafe (Or.inr (Or.inl hnul)) hbare x
    cases hadd.symm.trans hadd'
    exact hgood rfl hnul
  rcases hcount with hcount | ⟨hcount, htame⟩
  · exact hgood 254 (by decide) (h.safe (by decide) fun _ _ => Or.inl (by decide)) a c b heq hc hcount
  · exact hgood 255 (by decide) (htame.safe (by decide) fun _ hp => Or.inr hp) a c b heq hc (by omega)

/-- `/:a/b` beside `/:a`. -/
theorem add_checked_beside : ∃ tree tree' : Node Bool,
    add tree [slash, colon, 97, slash, 98] (some true) = some (true, tree') ∧
    Checked (CatchallAt tree) none [slash] colon [97, slash, 98] := by
  have hrun : ((addStep create ([slash, colon, 97], some false)).bind fun tree =>
      (add tree [slash, colon, 97, slash, 98] (some true)).map Prod.fst) = some true := by with_unfolding_all decide
  obtain ⟨tree, hstep, hrun⟩ := Option.bind_eq_some_iff.mp hrun
  obtain ⟨⟨_, tree'⟩, hadd, rfl⟩ := Option.map_eq_some_iff.mp hrun
  exact ⟨tree, tree', hadd, add_checked (.next .start trivial hstep) (by decide) hadd rfl rfl (Or.inl (by decide))⟩

/-- `/:a` 255 times over, and a wildcard that is not counted and has no name. -/
def uncounted : Bytes := (List.replicate 255 [slash, colon, 97]).flatten ++ [slash, colon]

theorem add_unchecked : ¬∀ (tree tree' : Node Bool) (path : Bytes) (x : Option Bool), Built (fun _ => True) tree →
    path ≠ [] → (0 : UInt8) ∉ path → add tree path x = some (true, tree') →
    ∀ a c b, path = a ++ c :: b → wildcard c = true → Checked (fun _ => False) none a c b := by
  intro h
  have hrun : (add create uncounted (some true)).map Prod.fst = some true := by decide +kernel
  obtain ⟨⟨_, tree'⟩, hadd, rfl⟩ := Option.map_eq_some_iff.mp hrun
  have hchecked := h create tree' uncounted _ .start (by decide) (by decide +kernel) hadd
    ((List.replicate 255 [slash, colon, 97]).flatten ++ [slash]) colon [] (by decide +kernel) rfl
  exact hchecked.name rfl

end PgRest.Rtree
