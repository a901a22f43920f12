import PgRest.Conf.Order
import PgRest.Conf.Typed
import PgRest.Rtree.Walker

/-! The routers that a document leaves behind. Each `path` is added to the router of the server its
object stands in, while objects of all kinds are opened and set around it; in the end the router
of a server holds the paths of that server, and a request is routed by them. -/
namespace PgRest.Conf

open Lib Rtree

/-- The components that the routers go by. -/
def routing : Set Cell := {.servers, .routers, .paths, .pathServer, .text .path}

/-- The routers are the same, and so are the paths. -/
structure SameRoutes (o o' : Objects) : Prop where
  servers : o'.servers = o.servers
  routers : o'.routers = o.routers
  paths : o'.paths = o.paths
  pathServer : o'.pathServer = o.pathServer
  texts : ∀ p, o'.texts (.path p) .path = o.texts (.path p) .path

/-- The router of each server is what adding its paths one after the other has made of it; they all have been
accepted, and among them is the text of every path object of the server. -/
structure Routed (given : Bytes → Prop) (refs : List Ref) (o : Objects) : Prop where
  server : ∀ i, Ref.server i ∈ refs → i < o.servers
  path : ∀ p, Ref.path p ∈ refs → p < o.paths
  owner : ∀ p < o.paths, o.pathServer p < o.servers
  routers : ∀ i, ∃ pairs, addAll Rtree.create pairs = some (o.routers i, pairs) ∧
    (∀ e ∈ pairs, given e.1 ∧ e.1 ≠ [] ∧ e.2 < o.paths ∧ o.pathServer e.2 = i) ∧
    ∀ p < o.paths, o.pathServer p = i → ∀ v, o.texts (.path p) .path = some v → (v, p) ∈ pairs

/-- One more path that is accepted. -/
theorem addAll_concat {α : Type} {n n' n'' : Node α} {pairs : List (Bytes × α)} {path : Bytes} {x : α}
    (h : addAll n pairs = some (n', pairs)) (hadd : Rtree.add n' path (some x) = some (true, n'')) :
    addAll n (pairs ++ [(path, x)]) = some (n'', pairs ++ [(path, x)]) := by
  induction pairs generalizing n with
  | nil =>
    cases h
    simp [addAll, hadd]
  | cons pair pairs ih =>
    obtain ⟨n₁, hfirst, hrest⟩ := addAll_accepted h
    simp [addAll, hfirst, ih hrest]

section Steps
variable {env : Env} {given : Bytes → Prop} {refs : List Ref} {o o' : Objects} {r r' : Ref}

theorem sameRoutes_of (h : ∀ c ∈ routing, o'.get c = o.get c) : SameRoutes o o' where
  servers := h .servers (by simp [routing])
  routers := h .routers (by simp [routing])
  paths := h .paths (by simp [routing])
  pathServer := h .pathServer (by simp [routing])
  texts p := congrFun (h (.text .path) (by simp [routing])) (.path p)

theorem Routed.same (h : Routed given refs o) (ho : SameRoutes o o') : Routed given refs o' := by
  obtain ⟨hs, hr, hp, hps, ht⟩ := ho
  refine ⟨?_, ?_, ?_, fun i => ?_⟩
  · rw [hs]
    exact h.server
  · rw [hp]
    exact h.path
  · rw [hp, hps, hs]
    exact h.owner
  · rw [hr, hp, hps]
    simp only [ht]
    exact h.routers i

theorem Routed.push (h : Routed given refs o) (hserver : ∀ i, r = .server i → i < o.servers)
    (hpath : ∀ p, r = .path p → p < o.paths) : Routed given (r :: refs) o where
  server i hi := (List.mem_cons.mp hi).elim (fun hr => hserver i hr.symm) (h.server i)
  path p hp := (List.mem_cons.mp hp).elim (fun hr => hpath p hr.symm) (h.path p)
  owner := h.owner
  routers := h.routers

theorem Routed.pop (h : Routed given refs o) : Routed given refs.tail o where
  server i hi := h.server i (List.mem_of_mem_tail hi)
  path p hp := h.path p (List.mem_of_mem_tail hp)
  owner := h.owner
  routers := h.routers

/-! ### Setting -/

/-- No directive but `path` sets the text of a path. -/
def Handler.spares : Handler → Bool
  | .scalar (.string field) | .scalar (.postgresText field) => field ≠ .path
  | _ => true

theorem cmds_spare (p : Platform) : ∀ e ∈ staticCmds p ++ dynamicCmds, e.2.spares = true := by
  unfold staticCmds
  cases p.openssl <;> decide

theorem cmdFind_spares {p : Platform} {name : String} {h : Handler} (hfind : cmdFind p name = some h) :
    h.spares = true := by
  obtain ⟨before, after, heq, -⟩ := List.lookup_eq_some_iff.mp hfind
  exact cmds_spare p (name, h) (by rw [heq]; simp)

theorem use_routing {set : SetHandler} (hset : set ≠ .httpPath) (hspares : (Handler.scalar set).spares = true)
    (v : Value) {c : Cell} (hc : c ∈ routing) : c ∉ (set.use env v).touches := by
  rintro (hr | ⟨w, hw, rfl⟩)
  · rcases hc with rfl | rfl | rfl | rfl | rfl <;> cases set <;> cases v <;> simp [SetHandler.use] at hr hset
  · have htext : w.cell = .text .path := by
      rcases hc with h | h | h | h | h <;> first | exact h | (cases w <;> cases h)
    cases w with
    | int f v => cases htext
    | bool f v => cases htext
    | text f t =>
      cases htext
      cases set <;> cases v <;>
        simp [SetHandler.use, forced, chosen, Handler.spares] at hw hset hspares <;> grind

theorem parseType_routes {name : String} {v : Value} (h : parseType env name v r o = .ok o')
    (hname : cmdFind env.platform name ≠ some (.scalar .httpPath)) : SameRoutes o o' := by
  apply sameRoutes_of
  intro c hc
  refine (parseType_within name v).blind h c ?_
  rw [scalarUse]
  split
  · next set hset => exact use_routing (fun he => hname (he ▸ hset)) (cmdFind_spares hset) v hc
  · rintro (hr | ⟨w, hw, -⟩)
    · exact hr
    · cases hw

/-- `path`: its text is added to the router of the server. -/
theorem Routed.set {name : String} {v : Bytes} {i : Nat} (h : Routed given refs o) (hi : Ref.path i ∈ refs)
    (hv : given v) (hs : httpPathSet name v i o = .ok o') : Routed given refs o' := by
  rw [httpPathSet] at hs
  split at hs
  · cases hs
  next hne =>
  dsimp only at hs
  split at hs
  · cases hs
  · cases hs
  next router hadd =>
  cases hs
  refine ⟨h.server, h.path, h.owner, fun j => ?_⟩
  obtain ⟨pairs, hpairs, hgiven, hall⟩ := h.routers j
  show ∃ pairs, addAll _ pairs = some (Function.update o.routers (o.pathServer i) router j, pairs) ∧ _
  by_cases hj : j = o.pathServer i
  · subst hj
    refine ⟨pairs ++ [(v, i)], ?_, ?_, ?_⟩
    · rw [Function.update_self]
      exact addAll_concat hpairs hadd
    · intro e he
      rcases List.mem_append.mp he with he | he
      · exact hgiven e he
      · rw [List.mem_singleton.mp he]
        exact ⟨hv, hne, h.path i hi, rfl⟩
    · intro p hp hserver w hw
      by_cases hpi : p = i
      · subst hpi
        simp only [Objects.setText, Function.update_self, Option.some.injEq] at hw
        simp [hw]
      · refine List.mem_append_left _ (hall p hp hserver w ?_)
        simpa [Objects.setText, hpi] using hw
  · refine ⟨pairs, ?_, hgiven, fun p hp hserver w hw => hall p hp hserver w ?_⟩
    · rw [Function.update_of_ne hj]
      exact hpairs
    · have hpi : p ≠ i := fun he => hj (he ▸ hserver.symm)
      simpa [Objects.setText, hpi] using hw

/-! ### Opening -/

/-- A server starts with an empty router. -/
theorem Routed.openServer (h : Routed given refs o) (hc : create env .httpServer r o = .ok (r', o')) :
    Routed given (r' :: refs) o' := by
  cases r <;> cases hc
  have hsame : Routed given refs { o.init env (.server o.servers) with
      servers := o.servers + 1
      serverNames := Function.update o.serverNames o.servers []
      routers := Function.update o.routers o.servers Rtree.create } := by
    refine ⟨fun i hi => Nat.lt_succ_of_lt (h.server i hi), h.path, fun p hp => Nat.lt_succ_of_lt (h.owner p hp),
      fun i => ?_⟩
    obtain ⟨pairs, hpairs, hgiven, hall⟩ := h.routers i
    show ∃ pairs, addAll _ pairs = some (Function.update o.routers o.servers Rtree.create i, pairs) ∧ _
    by_cases hi : i = o.servers
    · subst hi
      refine ⟨[], by rw [Function.update_self]; rfl, by simp, fun p hp hserver => ?_⟩
      exact absurd (h.owner p hp) (by have : o.pathServer p = o.servers := hserver; omega)
    · refine ⟨pairs, by rw [Function.update_of_ne hi]; exact hpairs, hgiven, fun p hp hserver v hv => ?_⟩
      exact hall p hp hserver v (by simpa [Objects.init] using hv)
  refine hsame.push ?_ ?_
  · rintro i ⟨⟩
    exact Nat.lt_succ_self _
  · rintro p ⟨⟩

/-- A path starts without a text, in the server it stands in. -/
theorem Routed.openPath (h : Routed given refs o) (hc : create env .httpPath (refs.headD .null) o = .ok (r', o')) :
    Routed given (r' :: refs) o' := by
  obtain ⟨i, rest, rfl⟩ : ∃ i rest, refs = .server i :: rest := by
    cases refs with
    | nil => cases hc
    | cons b rest =>
      cases b <;> cases hc
      exact ⟨_, rest, rfl⟩
  have hi := h.server i List.mem_cons_self
  have hserver (p : Nat) (hp : p < o.paths) : Function.update o.pathServer o.paths i p = o.pathServer p :=
    Function.update_of_ne (Nat.ne_of_lt hp) _ _
  cases hc
  have hsame : Routed given (.server i :: rest) { o.init env (.path o.paths) with
      paths := o.paths + 1
      pathServer := Function.update o.pathServer o.paths i
      handlers := Function.update o.handlers o.paths [] } := by
    refine ⟨h.server, fun p hp => Nat.lt_succ_of_lt (h.path p hp), fun p hp => ?_, fun j => ?_⟩
    · show Function.update o.pathServer o.paths i p < o.servers
      rcases Nat.lt_succ_iff_lt_or_eq.mp hp with hlt | rfl
      · rw [hserver p hlt]
        exact h.owner p hlt
      · rw [Function.update_self]
        exact hi
    · obtain ⟨pairs, hpairs, hgiven, hall⟩ := h.routers j
      refine ⟨pairs, hpairs, fun e he => ?_, fun p hp hown v hv => ?_⟩
      · obtain ⟨hv, hne, hp, hown⟩ := hgiven e he
        exact ⟨hv, hne, Nat.lt_succ_of_lt hp, (hserver e.2 hp).trans hown⟩
      · rcases Nat.lt_succ_iff_lt_or_eq.mp hp with hlt | rfl
        · refine hall p hlt ((hserver p hlt).symm.trans hown) v ?_
          simpa [Objects.init, Nat.ne_of_lt hlt] using hv
        · simp [Objects.init, textDefault] at hv
  refine hsame.push ?_ ?_
  · rintro j ⟨⟩
  · rintro p ⟨⟩
    exact Nat.lt_succ_self _

/-- Any other object leaves the routers alone. -/
theorem create_sameRoutes {c : CreateHandler} (hc : create env c r o = .ok (r', o')) (hs : c ≠ .httpServer)
    (hp : c ≠ .httpPath) : SameRoutes o o' := by
  by_cases hroot : c = .setting
  · subst hroot
    cases hc
    exact ⟨rfl, rfl, rfl, rfl, fun p => by simp [Objects.init]⟩
  · apply sameRoutes_of
    intro k hk
    refine create_frame hc ?_
    have hf (s : Struct) (hne : s ≠ .path) : k ∉ fields s := by
      rcases hk with rfl | rfl | rfl | rfl | rfl <;> first | exact id | exact fun he => hne he.symm
    cases c <;> first | contradiction | skip
    case upstreamServer => rcases hk with rfl | rfl | rfl | rfl | rfl <;> simp [CreateHandler.touches]
    all_goals
      rintro (hk' | hk')
      · exact hf _ (by decide) hk'
      · rcases hk with rfl | rfl | rfl | rfl | rfl <;> simp at hk'

theorem Routed.open {name : String} (h : Routed given refs o)
    (ho : openObject env name (refs.headD .null) o = .ok (r', o')) : Routed given (r' :: refs) o' := by
  rw [openObject] at ho
  rcases hc : cmdFind env.platform name with _ | ⟨_ | c⟩ | set <;> rw [hc] at ho
  · cases ho
  · cases ho
    -- the object is the one that is open already
    cases refs with
    | nil => exact h.push (fun i hi => by cases hi) fun p hp => by cases hp
    | cons b rest =>
      exact h.push (fun i hi => h.server i (hi ▸ List.mem_cons_self)) fun p hp => h.path p (hp ▸ List.mem_cons_self)
  · by_cases hs : c = .httpServer
    · subst hs
      exact h.openServer ho
    by_cases hp : c = .httpPath
    · subst hp
      exact h.openPath ho
    have hstruct := create_struct ho
    refine (h.same (create_sameRoutes ho hs hp)).push ?_ ?_
    · rintro i rfl
      cases c <;> first | contradiction | cases hstruct
    · rintro p rfl
      cases c <;> first | contradiction | cases hstruct
  · cases ho

end Steps

/-! ### Reading a document -/

/-- The texts that a document has at `path`. -/
def pathTexts (env : Env) (root : Json) (v : Bytes) : Prop :=
  ∃ name, Step.set name (.string v) ∈ walk root ∧ cmdFind env.platform name = some (.scalar .httpPath)

section Run
variable {env : Env} {given : Bytes → Prop}

theorem Routed.step {w w' : Walk} {s : Step} (h : Routed given w.stack w.objects)
    (hgiven : ∀ name v, s = .set name (.string v) → cmdFind env.platform name = some (.scalar .httpPath) → given v)
    (hs : w.step env s = .ok w') : Routed given w'.stack w'.objects := by
  cases s with
  | leave =>
    cases hs
    exact h.pop
  | find name =>
    obtain ⟨o, ho, rfl⟩ := map_eq_ok hs
    rw [findArray] at ho
    split at ho <;> cases ho
    exact h
  | enter name =>
    obtain ⟨⟨r, o⟩, ho, rfl⟩ := map_eq_ok hs
    exact h.open ho
  | set name v =>
    obtain ⟨o, ho, rfl⟩ := map_eq_ok hs
    by_cases hname : cmdFind env.platform name = some (.scalar .httpPath)
    · rw [parseType, hname] at ho
      dsimp only at ho
      rw [SetHandler.run] at ho
      split at ho
      · next hkind =>
        obtain ⟨hkind, hstruct⟩ := hkind
        obtain ⟨v, rfl⟩ : ∃ t, v = .string t := by
          cases v <;> first | exact ⟨_, rfl⟩ | cases hkind
        obtain ⟨i, hi⟩ : ∃ i, w.stack.headD .null = .path i := by
          cases hr : w.stack.headD .null <;> rw [hr] at hstruct <;> first | exact ⟨_, rfl⟩ | cases hstruct
        rw [hi] at ho
        refine h.set ?_ (hgiven name v rfl hname) ho
        cases hstack : w.stack with
        | nil =>
          rw [hstack] at hi
          cases hi
        | cons b rest =>
          rw [hstack] at hi
          exact hi ▸ List.mem_cons_self
      · cases ho
    · exact h.same (parseType_routes ho hname)

theorem Routed.run {w w' : Walk} {steps : List Step} (h : Routed given w.stack w.objects)
    (hgiven : ∀ name v, .set name (.string v) ∈ steps → cmdFind env.platform name = some (.scalar .httpPath) → given v)
    (hs : w.run env steps = .ok w') : Routed given w'.stack w'.objects := by
  induction steps generalizing w with
  | nil =>
    cases hs
    exact h
  | cons s steps ih =>
    obtain ⟨w₁, hw, hs⟩ := Walk.run_cons hs
    refine ih (h.step (fun name v he => hgiven name v (he ▸ List.mem_cons_self)) hw) ?_ hs
    exact fun name v hmem => hgiven name v (List.mem_cons_of_mem s hmem)

theorem routed_start : Routed given Walk.start.stack Walk.start.objects where
  server i hi := by cases List.mem_singleton.mp hi
  path p hp := by cases List.mem_singleton.mp hp
  owner p hp := absurd hp (Nat.not_lt_zero p)
  routers i := ⟨[], rfl, by simp, fun p hp => absurd hp (Nat.not_lt_zero p)⟩

/-- The defaults come without a path. -/
theorem Routed.defaults {o o' : Objects} (h : Routed given [] o) (hd : defaultValues env o = .ok o') :
    Routed given [] o' := by
  rw [defaultValues] at hd
  split at hd
  · obtain ⟨⟨server, o₁⟩, hserver, hd⟩ := bind_eq_ok hd
    obtain ⟨⟨listener, o₂⟩, hlistener, rfl⟩ := map_eq_ok hd
    exact (h.openServer hserver).pop.same (create_sameRoutes hlistener (by simp) (by simp))
  · cases hd
    exact h

theorem parse_routed {root : Json} {o : Objects} (h : parse env root = .ok o) :
    Routed (pathTexts env root) [] o := by
  obtain ⟨o₁, h₁, h₂, -⟩ := parse_ok h
  have hw : Walk.run env .start (walk root) = .ok ⟨[.null], o₁⟩ := by
    rw [run_walk, h₁]
    rfl
  exact (routed_start.run (fun name v hmem hname => ⟨name, hmem, hname⟩) hw).pop.defaults h₂

end Run

/-- A server with the location `/:id`. -/
def oneLocation : Json :=
  .object [("http", .object [("server", .array
    [.object [("listen", .object []), ("location", .object [("path", .string (ascii "/:id"))])]])])]

end PgRest.Conf
