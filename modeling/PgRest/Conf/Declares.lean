import Mathlib.Data.List.Count
import Mathlib.Data.List.Perm.Subperm
import Mathlib.Data.List.Range
import Mathlib.Data.Option.Basic
import PgRest.Conf.Order
import PgRest.Conf.Typed

/-! Which server a listener serves. Servers and listeners are pushed into two arrays while the document
is read, and `pgrest_http_init` puts together what has the same index in both. The number of
listeners that each server declares follows from the document alone. -/
namespace PgRest.Conf

open Lib

/-- The server and the listener that `pgrest_http_init` hands to `pgrest_http_add_listen`, in each round
of its loop. -/
def initListens (o : Objects) : List (Nat × Nat) :=
  (List.range (o.listeners - o.listenersFrom)).map fun i => (o.serversFrom + i, o.listenersFrom + i)

/-- Every listener is put together with the server that has declared it, and every server has one. -/
structure Paired (o : Objects) : Prop where
  declared : ∀ p ∈ initListens o, o.declaredBy p.2 = p.1
  listens : ∀ i, o.serversFrom ≤ i → i < o.servers →
    ∃ l, o.listenersFrom ≤ l ∧ l < o.listeners ∧ o.declaredBy l = i

/-! ### The declarations of a document -/

/-- What the names of a document say of the servers since the last `root`: how many there are, for each
open object the server that it is, and for each `listen` the server whose object it stands in. -/
structure Declared where
  stack : List (Option Nat)
  servers : Nat
  listens : List (Option Nat)

def Declared.step (p : Platform) (d : Declared) : Step → Declared
  | .enter name =>
    match cmdFind p name with
    | some (.object (some .setting)) => ⟨none :: d.stack.map fun _ => none, 0, []⟩
    | some (.object (some .httpServer)) => { d with stack := some d.servers :: d.stack, servers := d.servers + 1 }
    | some (.object (some .listener)) =>
      { d with stack := none :: d.stack, listens := d.listens ++ [d.stack.headD none] }
    | some (.object none) => { d with stack := d.stack.headD none :: d.stack }
    | _ => { d with stack := none :: d.stack }
  | .leave => { d with stack := d.stack.tail }
  | _ => d

def declared (p : Platform) (root : Json) : Declared := (walk root).foldl (Declared.step p) ⟨[none], 0, []⟩

/-- Every server since the last `root` has exactly one `listen`. -/
def OneListenEach (p : Platform) (root : Json) : Prop :=
  ∀ k < (declared p root).servers, (declared p root).listens.count (some k) = 1

/-! ### The arrays and the declarations -/

/-- A server by its index in the array, if it is in there. -/
def since (start i : Nat) : Option Nat := if start ≤ i then some (i - start) else none

theorem since_eq_some {start i k : Nat} : since start i = some k ↔ start ≤ i ∧ i - start = k := by
  rw [since]
  split <;> simp_all

/-- The server that an object is. -/
def serverOf (start : Nat) : Ref → Option Nat
  | .server i => since start i
  | _ => none

/-- The arrays hold what the names have declared. -/
structure Declares (d : Declared) (refs : List Ref) (o : Objects) : Prop where
  stack : d.stack = refs.map (serverOf o.serversFrom)
  servers : o.servers = o.serversFrom + d.servers
  from_le : o.listenersFrom ≤ o.listeners
  listens : d.listens = (List.range (o.listeners - o.listenersFrom)).map fun i =>
    since o.serversFrom (o.declaredBy (o.listenersFrom + i))
  /-- a server whose object is open is the last one, unless there has been a `root` since -/
  latest : ∀ i, Ref.server i ∈ refs → i < o.servers ∧ (o.serversFrom ≤ i → i + 1 = o.servers)
  /-- around the setting no server is open that is in the array -/
  setting : refs.Pairwise fun a b => a = .setting → ∀ i, b = .server i → i < o.serversFrom
  owned : ∀ l, o.listenersFrom ≤ l → l < o.listeners → o.declaredBy l < o.servers
  ordered : ∀ l l', o.listenersFrom ≤ l → l ≤ l' → l' < o.listeners → o.serversFrom ≤ o.declaredBy l' →
    o.declaredBy l ≤ o.declaredBy l'

/-- The arrays are the same. -/
structure SameArrays (o o' : Objects) : Prop where
  servers : o'.servers = o.servers
  serversFrom : o'.serversFrom = o.serversFrom
  listeners : o'.listeners = o.listeners
  listenersFrom : o'.listenersFrom = o.listenersFrom
  declaredBy : o'.declaredBy = o.declaredBy

def arrays : Set Cell := {.servers, .serversFrom, .listeners, .listenersFrom, .declaredBy}

section Steps
variable {env : Env} {d : Declared} {refs : List Ref} {o o' : Objects} {r r' : Ref}

theorem sameArrays_of (h : ∀ c ∈ arrays, o'.get c = o.get c) : SameArrays o o' :=
  ⟨h .servers (by simp [arrays]), h .serversFrom (by simp [arrays]), h .listeners (by simp [arrays]),
    h .listenersFrom (by simp [arrays]), h .declaredBy (by simp [arrays])⟩

theorem use_arrays (set : SetHandler) (v : Value) {c : Cell} (hc : c ∈ arrays) : c ∉ (set.use env v).touches := by
  rintro (hr | ⟨w, -, hw⟩)
  · rcases hc with rfl | rfl | rfl | rfl | rfl <;> cases set <;> cases v <;> simp [SetHandler.use] at hr
  · rcases hc with rfl | rfl | rfl | rfl | rfl <;> cases w <;> cases hw

theorem parseType_arrays {name : String} {v : Value} (h : parseType env name v r o = .ok o') : SameArrays o o' := by
  apply sameArrays_of
  intro c hc
  refine (parseType_within name v).blind h c ?_
  rw [scalarUse]
  split
  · exact use_arrays _ _ hc
  · rintro (hr | ⟨w, hw, -⟩)
    · exact hr
    · cases hw

theorem create_arrays {c : CreateHandler} (h : create env c r o = .ok (r', o')) (hs : c ≠ .setting)
    (hh : c ≠ .httpServer) (hl : c ≠ .listener) : SameArrays o o' := by
  apply sameArrays_of
  intro k hk
  refine create_frame h ?_
  have hf (s : Struct) : k ∉ fields s := by
    rcases hk with rfl | rfl | rfl | rfl | rfl <;> exact id
  cases c <;> first | contradiction | skip
  case upstreamServer => rcases hk with rfl | rfl | rfl | rfl | rfl <;> simp [CreateHandler.touches]
  all_goals
    rintro (hk' | hk')
    · exact hf _ hk'
    · rcases hk with rfl | rfl | rfl | rfl | rfl <;> simp at hk'

theorem Declares.same (h : Declares d refs o) (ho : SameArrays o o') : Declares d refs o' := by
  obtain ⟨hs, hsf, hl, hlf, hd⟩ := ho
  refine ⟨?_, ?_, ?_, ?_, ?_, ?_, ?_, ?_⟩
  · rw [hsf]
    exact h.stack
  · rw [hs, hsf]
    exact h.servers
  · rw [hl, hlf]
    exact h.from_le
  · rw [hl, hlf, hsf, hd]
    exact h.listens
  · rw [hs, hsf]
    exact h.latest
  · rw [hsf]
    exact h.setting
  · rw [hs, hl, hlf, hd]
    exact h.owned
  · rw [hl, hlf, hsf, hd]
    exact h.ordered

theorem headD_serverOf (start : Nat) (refs : List Ref) :
    (refs.map (serverOf start)).headD none = serverOf start (refs.headD .null) := by
  cases refs <;> rfl

/-- Opening an object by which the arrays are left alone. -/
theorem Declares.push (h : Declares d refs o) (hserver : ∀ i, r = .server i → Ref.server i ∈ refs)
    (hsetting : r = .setting → ∀ i, Ref.server i ∈ refs → i < o.serversFrom) :
    Declares { d with stack := serverOf o.serversFrom r :: d.stack } (r :: refs) o where
  stack := by rw [List.map_cons, h.stack]
  servers := h.servers
  from_le := h.from_le
  listens := h.listens
  latest i hi := by
    apply h.latest
    rcases List.mem_cons.mp hi with hr | hi
    · exact hserver i hr.symm
    · exact hi
  setting := by
    refine List.pairwise_cons.mpr ⟨?_, h.setting⟩
    intro b hb hr i hi
    subst hi
    exact hsetting hr i hb
  owned := h.owned
  ordered := h.ordered

theorem Declares.pop (h : Declares d refs o) : Declares { d with stack := d.stack.tail } refs.tail o where
  stack := by rw [h.stack, List.map_tail]
  servers := h.servers
  from_le := h.from_le
  listens := h.listens
  latest i hi := h.latest i (List.mem_of_mem_tail hi)
  setting := h.setting.sublist (List.tail_sublist refs)
  owned := h.owned
  ordered := h.ordered

/-- `root`: the arrays are empty, and no server that is open is in them. -/
theorem Declares.root (h : Declares d refs o) (hc : create env .setting r o = .ok (r', o')) :
    Declares ⟨none :: d.stack.map fun _ => none, 0, []⟩ (r' :: refs) o' := by
  obtain ⟨rfl, hs, hsf, hl, hlf⟩ : r' = .setting ∧ o'.servers = o.servers ∧ o'.serversFrom = o.servers ∧
      o'.listeners = o.listeners ∧ o'.listenersFrom = o.listeners := by
    cases hc
    exact ⟨rfl, rfl, rfl, rfl, rfl⟩
  have hold : ∀ i, Ref.server i ∈ refs → i < o.servers := fun i hi => (h.latest i hi).1
  refine ⟨?_, ?_, ?_, ?_, ?_, ?_, ?_, ?_⟩
  · rw [hsf, h.stack, List.map_map, List.map_cons]
    show none :: _ = none :: _
    congr 1
    refine List.map_congr_left fun b hb => ?_
    cases b with
    | server i => exact (if_neg (Nat.not_le.mpr (hold i hb))).symm
    | _ => rfl
  · rw [hs, hsf]
    rfl
  · rw [hl, hlf]
  · simp [hl, hlf]
  · intro i hi
    rw [hs, hsf]
    rcases List.mem_cons.mp hi with hr | hi
    · cases hr
    · exact ⟨hold i hi, fun hle => absurd (hold i hi) (Nat.not_lt.mpr hle)⟩
  · rw [hsf]
    refine List.pairwise_cons.mpr ⟨?_, ?_⟩
    · intro b hb _ i hi
      subst hi
      exact hold i hb
    · refine h.setting.imp_of_mem ?_
      intro a b _ hb _ _ i hi
      subst hi
      exact hold i hb
  · rw [hl, hlf]
    intro l hl hl'
    exact absurd hl' (Nat.not_lt.mpr hl)
  · rw [hl, hlf]
    intro l l' hl hl' hlt
    exact absurd hlt (Nat.not_lt.mpr (hl.trans hl'))

/-- `server`: it stands in the setting, so that it comes to be the only one that is open. -/
theorem Declares.server (h : Declares d refs o) (hc : create env .httpServer (refs.headD .null) o = .ok (r', o')) :
    Declares { d with stack := some d.servers :: d.stack, servers := d.servers + 1 } (r' :: refs) o' := by
  obtain ⟨rest, rfl⟩ : ∃ rest, refs = .setting :: rest := by
    cases refs with
    | nil => cases hc
    | cons b rest =>
      cases b <;> cases hc
      exact ⟨rest, rfl⟩
  obtain ⟨rfl, hs, hsf, hl, hlf, hd⟩ : r' = .server o.servers ∧ o'.servers = o.servers + 1 ∧
      o'.serversFrom = o.serversFrom ∧ o'.listeners = o.listeners ∧ o'.listenersFrom = o.listenersFrom ∧
      o'.declaredBy = o.declaredBy := by
    cases hc
    exact ⟨rfl, rfl, rfl, rfl, rfl, rfl⟩
  have hrest := (List.pairwise_cons.mp h.setting).1
  refine ⟨?_, ?_, ?_, ?_, ?_, ?_, ?_, ?_⟩
  · rw [hsf, List.map_cons, h.stack, serverOf, since, h.servers, if_pos (Nat.le_add_right _ _), Nat.add_sub_cancel_left]
  · rw [hs, hsf, h.servers]
    rfl
  · rw [hl, hlf]
    exact h.from_le
  · rw [hl, hlf, hsf, hd]
    exact h.listens
  · intro i hi
    rw [hs, hsf]
    rcases List.mem_cons.mp hi with hr | hi
    · cases hr
      omega
    · have hold : i < o.serversFrom := by
        rcases List.mem_cons.mp hi with hr | hi
        · cases hr
        · exact hrest _ hi rfl i rfl
      have := h.servers
      omega
  · rw [hsf]
    refine List.pairwise_cons.mpr ⟨?_, h.setting⟩
    intro b _ hr
    cases hr
  · rw [hs, hl, hlf, hd]
    intro l hl hl'
    exact (h.owned l hl hl').trans (Nat.lt_succ_self _)
  · rw [hl, hlf, hsf, hd]
    exact h.ordered

/-- `listen`: no server behind the one that it stands in has been created. -/
theorem Declares.listen (h : Declares d refs o) (hc : create env .listener (refs.headD .null) o = .ok (r', o')) :
    Declares { d with stack := none :: d.stack, listens := d.listens ++ [d.stack.headD none] } (r' :: refs) o' := by
  obtain ⟨i, rest, rfl⟩ : ∃ i rest, refs = .server i :: rest := by
    cases refs with
    | nil => cases hc
    | cons b rest =>
      cases b <;> cases hc
      exact ⟨_, rest, rfl⟩
  obtain ⟨rfl, hs, hsf, hl, hlf, hd⟩ : r' = .listener o.listeners ∧ o'.servers = o.servers ∧
      o'.serversFrom = o.serversFrom ∧ o'.listeners = o.listeners + 1 ∧ o'.listenersFrom = o.listenersFrom ∧
      o'.declaredBy = Function.update o.declaredBy o.listeners i := by
    cases hc
    exact ⟨rfl, rfl, rfl, rfl, rfl, rfl⟩
  have hfrom := h.from_le
  obtain ⟨hi, hlast⟩ := h.latest i List.mem_cons_self
  have hnew : o'.declaredBy o.listeners = i := by rw [hd, Function.update_self]
  have hold : ∀ l, l < o.listeners → o'.declaredBy l = o.declaredBy l := fun l hl => by
    rw [hd, Function.update_of_ne (Nat.ne_of_lt hl)]
  refine ⟨?_, ?_, ?_, ?_, ?_, ?_, ?_, ?_⟩
  · rw [hsf, List.map_cons, h.stack]
    rfl
  · rw [hs, hsf]
    exact h.servers
  · rw [hl, hlf]
    exact Nat.le_succ_of_le hfrom
  · have hn : o'.listeners - o'.listenersFrom = o.listeners - o.listenersFrom + 1 := by
      rw [hl, hlf, Nat.succ_sub hfrom]
    rw [hn, List.range_succ, List.map_append, h.stack, h.listens, hsf, hlf]
    refine congrArg₂ (· ++ ·) ?_ ?_
    · refine List.map_congr_left fun k hk => ?_
      rw [hold]
      have := List.mem_range.mp hk
      omega
    · rw [List.map_singleton, Nat.add_sub_cancel' hfrom, hnew]
      rfl
  · intro j hj
    rw [hs, hsf]
    rcases List.mem_cons.mp hj with hr | hj
    · cases hr
    · exact h.latest j hj
  · rw [hsf]
    refine List.pairwise_cons.mpr ⟨?_, h.setting⟩
    intro b _ hr
    cases hr
  · rw [hs, hl, hlf]
    intro l hl hl'
    rcases Nat.lt_succ_iff_lt_or_eq.mp hl' with hlt | rfl
    · rw [hold l hlt]
      exact h.owned l hl hlt
    · rw [hnew]
      exact hi
  · rw [hl, hlf, hsf]
    intro l l' hl hll' hl' hown
    rcases Nat.lt_succ_iff_lt_or_eq.mp hl' with hlt | rfl
    · rw [hold l' hlt] at hown ⊢
      rw [hold l (hll'.trans_lt hlt)]
      exact h.ordered l l' hl hll' hlt hown
    · rw [hnew] at hown ⊢
      rcases Nat.lt_or_eq_of_le hll' with hlt | rfl
      · rw [hold l hlt]
        have := h.owned l hl hlt
        have := hlast hown
        omega
      · rw [hnew]

/-- A directive without a handler, or one whose object is of neither array. -/
theorem Declares.enter (h : Declares d refs o) (hr : r = refs.headD .null) :
    Declares { d with stack := d.stack.headD none :: d.stack } (r :: refs) o := by
  have hd : d.stack.headD none = serverOf o.serversFrom r := by rw [h.stack, headD_serverOf, hr]
  rw [hd]
  cases refs with
  | nil =>
    subst hr
    exact h.push (fun i hi => by cases hi) (fun hs => by cases hs)
  | cons b rest =>
    obtain rfl : r = b := hr
    refine h.push ?_ ?_
    · rintro i rfl
      exact List.mem_cons_self
    · intro hs i hi
      rcases List.mem_cons.mp hi with hb | hi
      · rw [hs] at hb
        cases hb
      · exact (List.pairwise_cons.mp h.setting).1 _ hi hs i rfl

theorem Declares.other {c : CreateHandler} (h : Declares d refs o)
    (hc : create env c (refs.headD .null) o = .ok (r', o')) (hs : c ≠ .setting) (hh : c ≠ .httpServer)
    (hl : c ≠ .listener) : Declares { d with stack := none :: d.stack } (r' :: refs) o' := by
  have hr := create_struct hc
  have hserver (i : Nat) : r' ≠ .server i := by
    rintro rfl
    cases c <;> first | contradiction | cases hr
  have hsetting : r' ≠ .setting := by
    rintro rfl
    cases c <;> contradiction
  have hnone : serverOf o'.serversFrom r' = none := by
    cases r' <;> first | rfl | exact absurd rfl (hserver _)
  rw [← hnone]
  exact (h.same (create_arrays hc hs hh hl)).push (fun i hi => absurd hi (hserver i)) fun h => absurd h hsetting

theorem Declares.step {w w' : Walk} {s : Step} (h : Declares d w.stack w.objects) (hs : w.step env s = .ok w') :
    Declares (d.step env.platform s) w'.stack w'.objects := by
  cases s with
  | leave =>
    cases hs
    exact h.pop
  | find name =>
    obtain ⟨o, ho, rfl⟩ := map_eq_ok hs
    rw [findArray] at ho
    split at ho <;> cases ho
    exact h
  | set name v =>
    obtain ⟨o, ho, rfl⟩ := map_eq_ok hs
    exact h.same (parseType_arrays ho)
  | enter name =>
    obtain ⟨⟨r, o⟩, ho, rfl⟩ := map_eq_ok hs
    rw [openObject] at ho
    show Declares (d.step env.platform (.enter name)) (r :: w.stack) o
    rw [Declared.step]
    rcases hc : cmdFind env.platform name with _ | ⟨_ | c⟩ | set <;> rw [hc] at ho
    · cases ho
    · cases ho
      exact h.enter rfl
    · cases c
      case setting => exact h.root ho
      case httpServer => exact h.server ho
      case listener => exact h.listen ho
      all_goals exact h.other ho (by simp) (by simp) (by simp)
    · cases ho

/-- The names of a document that is read say what is in the arrays. -/
theorem Declares.run {w w' : Walk} {steps : List Step} (h : Declares d w.stack w.objects)
    (hs : w.run env steps = .ok w') :
    Declares (steps.foldl (Declared.step env.platform) d) w'.stack w'.objects := by
  induction steps generalizing d w with
  | nil =>
    cases hs
    exact h
  | cons s steps ih =>
    obtain ⟨w₁, hw, hs⟩ := Walk.run_cons hs
    exact ih (h.step hw) hs

theorem declares_start : Declares ⟨[none], 0, []⟩ Walk.start.stack Walk.start.objects := by
  refine ⟨rfl, rfl, le_rfl, rfl, ?_, ?_, ?_, ?_⟩
  · intro i hi
    cases List.mem_singleton.mp hi
  · exact List.pairwise_singleton _ _
  · intro l _ hl
    exact absurd hl (Nat.not_lt_zero l)
  · intro l l' _ _ hl
    exact absurd hl (Nat.not_lt_zero l')

theorem parseObject_declares {root : Json} (h : parseObject env "root" root .null .none = .ok o) :
    Declares (declared env.platform root) [.null] o := by
  have hw : Walk.run env .start (walk root) = .ok ⟨[.null], o⟩ := by
    rw [run_walk, h]
    rfl
  exact declares_start.run hw

end Steps

/-! ### Which servers are served -/

section Pairs
variable {d : Declared} {refs : List Ref} {o : Objects}

/-- As many listeners as servers, and one for each: the names have them in the order of the servers. -/
theorem listens_eq (h : Declares d refs o) (hn : d.listens.length = d.servers)
    (hone : ∀ k < d.servers, d.listens.count (some k) = 1) : d.listens = (List.range d.servers).map some := by
  have hperm : ((List.range d.servers).map some).Perm d.listens := by
    have hnodup : ((List.range d.servers).map some).Nodup :=
      List.nodup_range.map (Option.some_injective Nat)
    refine (hnodup.subperm ?_).perm_of_length_le ?_
    · intro a ha
      obtain ⟨k, hk, rfl⟩ := List.mem_map.mp ha
      apply List.count_pos_iff.mp
      rw [hone k (List.mem_range.mp hk)]
      exact Nat.one_pos
    · simp [hn]
  -- they are in ascending order, since a server is declared before what comes behind it
  have hsome : ∀ a ∈ d.listens, ∃ k, a = some k := by
    intro a ha
    obtain ⟨k, -, rfl⟩ := List.mem_map.mp (hperm.mem_iff.mpr ha)
    exact ⟨k, rfl⟩
  have hlistens : d.listens.Pairwise fun a b => ∀ x y, a = some x → b = some y → x ≤ y := by
    rw [h.listens, List.pairwise_map]
    refine List.pairwise_lt_range.imp_of_mem ?_
    intro i j _ hj hij x y hx hy
    obtain ⟨hle, rfl⟩ := since_eq_some.mp hx
    obtain ⟨hle', rfl⟩ := since_eq_some.mp hy
    have hj' := List.mem_range.mp hj
    have := h.ordered (o.listenersFrom + i) (o.listenersFrom + j) (by omega) (by omega) (by omega) hle'
    omega
  have hrange : ((List.range d.servers).map some).Pairwise fun a b => ∀ x y, a = some x → b = some y → x ≤ y := by
    rw [List.pairwise_map]
    refine List.pairwise_lt_range.imp ?_
    rintro i j hij x y ⟨⟩ ⟨⟩
    exact hij.le
  refine List.Perm.eq_of_pairwise ?_ hlistens hrange hperm.symm
  intro a b ha hb hab hba
  obtain ⟨x, rfl⟩ := hsome a ha
  obtain ⟨y, rfl⟩ := hsome b (hperm.mem_iff.mp hb)
  rw [Nat.le_antisymm (hab x y rfl rfl) (hba y x rfl rfl)]

/-- The arrays are paired as they should be exactly if every server has one listener. -/
theorem paired_iff (h : Declares d refs o) (hn : o.servers - o.serversFrom = o.listeners - o.listenersFrom) :
    Paired o ↔ ∀ k < d.servers, d.listens.count (some k) = 1 := by
  have hservers : o.servers - o.serversFrom = d.servers := by
    rw [h.servers, Nat.add_sub_cancel_left]
  have hlen : d.listens.length = d.servers := by
    rw [h.listens, List.length_map, List.length_range, ← hn, hservers]
  constructor
  · intro hp k hk
    have heq : d.listens = (List.range d.servers).map some := by
      rw [h.listens, ← hn, hservers]
      refine List.map_congr_left fun i hi => ?_
      have hi' := List.mem_range.mp hi
      have hmem : (o.serversFrom + i, o.listenersFrom + i) ∈ initListens o :=
        List.mem_map.mpr ⟨i, List.mem_range.mpr (by omega), rfl⟩
      exact since_eq_some.mpr ⟨by rw [hp.declared _ hmem]; omega, by rw [hp.declared _ hmem]; omega⟩
    rw [heq, List.count_map_of_injective _ _ (Option.some_injective Nat)]
    exact List.count_eq_one_of_mem List.nodup_range (List.mem_range.mpr hk)
  · intro hone
    have heq := listens_eq h hlen hone
    have hfrom := h.from_le
    have hdecl : ∀ i < d.servers, o.declaredBy (o.listenersFrom + i) = o.serversFrom + i := by
      intro i hi
      rw [h.listens, ← hn, hservers] at heq
      have hi' := List.map_inj_left.mp heq i (List.mem_range.mpr hi)
      obtain ⟨hle, hsub⟩ := since_eq_some.mp hi'
      omega
    refine ⟨?_, ?_⟩
    · intro p hp
      obtain ⟨i, hi, rfl⟩ := List.mem_map.mp hp
      have := List.mem_range.mp hi
      exact hdecl i (by omega)
    · intro i hle hlt
      refine ⟨o.listenersFrom + (i - o.serversFrom), by omega, by omega, ?_⟩
      rw [hdecl _ (by omega)]
      omega

/-- The server and the listener that stand in when no server is configured are one for the other. -/
theorem defaultValues_paired {env : Env} {o' : Objects} (hfrom : o.listenersFrom ≤ o.listeners)
    (hd : defaultValues env o = .ok o') (hn : o.servers = o.serversFrom)
    (hc : o'.servers - o'.serversFrom = o'.listeners - o'.listenersFrom) : Paired o' := by
  obtain ⟨hs, hsf, hl, hlf, hdecl⟩ : o'.servers = o.servers + 1 ∧ o'.serversFrom = o.serversFrom ∧
      o'.listeners = o.listeners + 1 ∧ o'.listenersFrom = o.listenersFrom ∧
      o'.declaredBy o.listeners = o.servers := by
    rw [defaultValues, if_pos hn] at hd
    cases hd
    exact ⟨rfl, rfl, rfl, rfl, Function.update_self _ _ _⟩
  refine ⟨?_, ?_⟩
  · intro p hp
    obtain ⟨i, hi, rfl⟩ := List.mem_map.mp hp
    have := List.mem_range.mp hi
    have hi' : o'.listenersFrom + i = o.listeners := by omega
    rw [hi', hdecl]
    omega
  · intro i hle hlt
    refine ⟨o.listeners, by omega, by omega, ?_⟩
    rw [hdecl]
    omega

end Pairs

/-- A document that is accepted has every listener handed over with the server that has declared it, and
leaves no server without one, exactly if every server has one `listen`. -/
theorem listeners_paired (env : Env) (root : Json) (o : Objects) (h : parse env root = .ok o) :
    Paired o ↔ OneListenEach env.platform root := by
  obtain ⟨o₁, h₁, h₂, hc⟩ := parse_ok h
  have hdecl := parseObject_declares h₁
  by_cases hn : o₁.servers = o₁.serversFrom
  · refine iff_of_true (defaultValues_paired hdecl.from_le h₂ hn hc) ?_
    intro k hk
    have := hdecl.servers
    omega
  · rw [defaultValues, if_neg hn] at h₂
    cases h₂
    exact paired_iff hdecl hc

/-- Two servers with a listener each. -/
theorem listeners_paired_two :
    ∃ o, parse .bare (.object [("http", .object [("server", .array
      [.object [("listen", .object [])], .object [("listen", .object [])]])])]) = .ok o ∧ Paired o := by
  have h : ∃ o, parse .bare (.object [("http", .object [("server", .array
      [.object [("listen", .object [])], .object [("listen", .object [])]])])]) = .ok o := ⟨_, rfl⟩
  obtain ⟨o, ho⟩ := h
  refine ⟨o, ho, (listeners_paired .bare _ o ho).mpr ?_⟩
  unfold OneListenEach
  decide

/-- Two listeners of the first of two servers: one of them is handed over with the second. -/
theorem listeners_unpaired :
    ∃ o, parse .bare (.object [("http", .object [("server", .array
      [.object [("listen", .array [.object [], .object []])], .object []])])]) = .ok o ∧ ¬Paired o := by
  refine ⟨_, rfl, fun h => ?_⟩
  cases h.declared (1, 1) (by decide)

end PgRest.Conf
