import Mathlib.Data.List.Nodup
import PgRest.Conf.Cells

/-! The order in which the members of an object are read. Members whose uses do not go together are
those that put different values into one field, and those of which one reads what the other
touches; a document in which only others change places is read to the same settings. -/
namespace PgRest.Conf

open Lib

/-! ### Creating objects -/

/-- The fields of a struct. -/
def fields (s : Struct) : Set Cell
  | .int f => f.struct = s
  | .bool f => f.struct = s
  | .text f => f.struct = s
  | _ => False

/-- What a create function reads and writes. -/
def CreateHandler.touches : CreateHandler → Set Cell
  | setting => fields .setting ∪ {.servers, .serversFrom, .listeners, .listenersFrom}
  | httpServer => fields .server ∪ {.servers, .serverNames, .routers}
  | listener => fields .listener ∪ {.bool .listen, .listeners, .declaredBy, .addresses}
  | httpPath => fields .path ∪ {.paths, .pathServer, .handlers}
  | upstream => fields .upstream ∪ {.upstreams}
  | upstreamServer => {.upstreams}
  | postgres => fields .postgres ∪ {.postgres, .handlers}
  | pushStream => fields .pushStream ∪ {.pushStreams, .handlers}

/-- What a new object makes of a component. -/
def initPut (env : Env) (r : Ref) : (c : Cell) → c.Value → c.Value
  | .int f, x => if r.struct = some f.struct then Function.update x r (intDefault env f) else x
  | .bool f, x => if r.struct = some f.struct then Function.update x r (boolDefault env f) else x
  | .text f, x => if r.struct = some f.struct then Function.update x r (textDefault env f) else x
  | _, x => x

/-- Both fail, or both give the same object and leave these components alike. -/
def CreatesOn (K : Set Cell) : Out (Ref × Objects) → Out (Ref × Objects) → Prop
  | .ok (r, o), .ok (r', o') => r = r' ∧ ∀ c ∈ K, o.get c = o'.get c
  | .error _, .error _ => True
  | _, _ => False

section Create
variable {env : Env} {r r' : Ref} {o o' : Objects} {s : Struct} {c : Cell}

theorem get_init : (o.init env r).get c = initPut env r c (o.get c) := by
  cases c with
  | int f | bool f | text f =>
    funext r'
    by_cases hr' : r' = r <;> by_cases hr : r.struct = some f.struct <;>
      simp_all [initPut, Objects.get, Objects.init, Function.update_apply]
  | _ => rfl

theorem init_frame (hr : r.struct = some s) (hc : c ∉ fields s) : (o.init env r).get c = o.get c := by
  rw [get_init]
  have hne {s' : Struct} (hs : s' ≠ s) : ¬r.struct = some s' := fun h => hs (Option.some.inj (h.symm.trans hr))
  cases c with
  | int f | bool f | text f => exact if_neg (hne hc)
  | _ => rfl

/-- A create function changes only what it touches. -/
theorem create_frame {h : CreateHandler} (ho : create env h r o = .ok (r', o')) (hc : c ∉ h.touches) :
    o'.get c = o.get c := by
  cases h
  case setting =>
    cases ho
    cases c with
    | int f | bool f | text f => exact init_frame rfl fun hf => hc (.inl hf)
    | _ => first | rfl | exact absurd (by simp [CreateHandler.touches]) hc
  case httpServer =>
    cases r <;> cases ho
    cases c with
    | int f | bool f | text f => exact init_frame rfl fun hf => hc (.inl hf)
    | _ => first | rfl | exact absurd (by simp [CreateHandler.touches]) hc
  case listener =>
    cases r <;> cases ho
    cases c with
    | int f | text f => exact init_frame rfl fun hf => hc (.inl hf)
    | bool f =>
      refine (init_frame rfl fun hf => hc (.inl hf)).trans ?_
      refine ((Write.bool .listen true).get_exec _ o (.bool f)).trans (congrFun (Write.put_of_ne ?_) _)
      intro hf
      exact hc (.inr (.inl hf.symm))
    | _ => first | rfl | exact absurd (by simp [CreateHandler.touches]) hc
  case httpPath =>
    cases r <;> cases ho
    cases c with
    | int f | bool f | text f => exact init_frame rfl fun hf => hc (.inl hf)
    | _ => first | rfl | exact absurd (by simp [CreateHandler.touches]) hc
  case upstream =>
    cases ho
    cases c with
    | int f | bool f | text f => exact init_frame rfl fun hf => hc (.inl hf)
    | _ => first | rfl | exact absurd (by simp [CreateHandler.touches]) hc
  case upstreamServer =>
    cases r <;> try cases ho
    rw [create] at ho
    split at ho
    · cases ho
    · split at ho
      · cases ho
      · split at ho <;> cases ho
        cases c <;> first | rfl | exact absurd rfl hc
  case postgres | pushStream =>
    cases r <;> cases ho
    cases c with
    | int f | bool f | text f => exact init_frame rfl fun hf => hc (.inl hf)
    | _ => first | rfl | exact absurd (by simp [CreateHandler.touches]) hc

theorem init_congr (h : o.get c = o'.get c) : (o.init env r).get c = (o'.init env r).get c := by
  rw [get_init, get_init, h]

theorem create_congr {h : CreateHandler} (ho : ∀ c ∈ h.touches, o.get c = o'.get c) :
    CreatesOn h.touches (create env h r o) (create env h r o') := by
  cases h
  case setting =>
    have hs : o.servers = o'.servers := ho .servers (by simp [CreateHandler.touches])
    have hl : o.listeners = o'.listeners := ho .listeners (by simp [CreateHandler.touches])
    refine ⟨rfl, ?_⟩
    intro c hc
    cases c with
    | int f | bool f | text f => exact init_congr (ho _ hc)
    | serversFrom => exact hs
    | listenersFrom => exact hl
    | _ => exact ho _ hc
  case httpServer =>
    cases r <;> try trivial
    have hs : o.servers = o'.servers := ho .servers (by simp [CreateHandler.touches])
    have hn : o.serverNames = o'.serverNames := ho .serverNames (by simp [CreateHandler.touches])
    have hr : o.routers = o'.routers := ho .routers (by simp [CreateHandler.touches])
    rw [create, create, hs, hn, hr]
    refine ⟨rfl, ?_⟩
    intro c hc
    cases c with
    | int f | bool f | text f => exact init_congr (ho _ hc)
    | servers | serverNames | routers => rfl
    | _ => exact ho _ hc
  case listener =>
    cases r <;> try trivial
    rename_i i
    have hl : o.listeners = o'.listeners := ho .listeners (by simp [CreateHandler.touches])
    have hd : o.declaredBy = o'.declaredBy := ho .declaredBy (by simp [CreateHandler.touches])
    have ha : o.addresses = o'.addresses := ho .addresses (by simp [CreateHandler.touches])
    rw [create, create, hl, hd, ha]
    refine ⟨rfl, ?_⟩
    intro c hc
    cases c with
    | int f | text f => exact init_congr (ho _ hc)
    | bool f =>
      have hb : (o.setBool (.server i) .listen true).get (.bool f) =
          (o'.setBool (.server i) .listen true).get (.bool f) := by
        refine ((Write.bool .listen true).get_exec _ o (.bool f)).trans ?_
        rw [ho _ hc]
        exact ((Write.bool .listen true).get_exec _ o' (.bool f)).symm
      exact init_congr hb
    | listeners | declaredBy | addresses => rfl
    | _ => exact ho _ hc
  case httpPath =>
    cases r <;> try trivial
    have hp : o.paths = o'.paths := ho .paths (by simp [CreateHandler.touches])
    have hs : o.pathServer = o'.pathServer := ho .pathServer (by simp [CreateHandler.touches])
    have hh : o.handlers = o'.handlers := ho .handlers (by simp [CreateHandler.touches])
    rw [create, create, hp, hs, hh]
    refine ⟨rfl, ?_⟩
    intro c hc
    cases c with
    | int f | bool f | text f => exact init_congr (ho _ hc)
    | paths | pathServer | handlers => rfl
    | _ => exact ho _ hc
  case upstream =>
    have hu : o.upstreams = o'.upstreams := ho .upstreams (by simp [CreateHandler.touches])
    rw [create, create, hu]
    refine ⟨rfl, ?_⟩
    intro c hc
    cases c with
    | int f | bool f | text f => exact init_congr (ho _ hc)
    | upstreams => rfl
    | _ => exact ho _ hc
  case upstreamServer =>
    cases r <;> try trivial
    have hu : o.upstreams = o'.upstreams := ho .upstreams (by simp [CreateHandler.touches])
    rw [create, create, hu]
    split
    · trivial
    · split
      · trivial
      · split
        · trivial
        · refine ⟨rfl, ?_⟩
          intro c hc
          obtain rfl := hc
          rfl
  case postgres =>
    cases r <;> try trivial
    have hp : o.postgres = o'.postgres := ho .postgres (by simp [CreateHandler.touches])
    have hh : o.handlers = o'.handlers := ho .handlers (by simp [CreateHandler.touches])
    rw [create, create, hp, hh]
    refine ⟨rfl, ?_⟩
    intro c hc
    cases c with
    | int f | bool f | text f => exact init_congr (ho _ hc)
    | postgres | handlers => rfl
    | _ => exact ho _ hc
  case pushStream =>
    cases r <;> try trivial
    have hp : o.pushStreams = o'.pushStreams := ho .pushStreams (by simp [CreateHandler.touches])
    have hh : o.handlers = o'.handlers := ho .handlers (by simp [CreateHandler.touches])
    rw [create, create, hp, hh]
    refine ⟨rfl, ?_⟩
    intro c hc
    cases c with
    | int f | bool f | text f => exact init_congr (ho _ hc)
    | pushStreams | handlers => rfl
    | _ => exact ho _ hc

/-- What is done with the new object keeps to the same components as all that is done with it. -/
theorem create_within {h : CreateHandler} {K : Set Cell} {f : Ref → Objects → Out Objects}
    (hK : h.touches ⊆ K) (hf : ∀ r, Within Objects.get K (f r)) :
    Within Objects.get K fun o => (create env h r o).bind fun p => f p.1 p.2 where
  blind {o o''} ho c hc := by
    obtain ⟨p, hcr, ho⟩ := bind_eq_ok ho
    exact ((hf p.1).blind ho c hc).trans (create_frame hcr fun ht => hc (hK ht))
  read {o o'} ho := by
    have hr := @create_congr env r _ _ _ fun c hc => ho c (hK hc)
    rcases hcr : create env h r o with _ | ⟨r₁, o₁⟩ <;> rcases hcr' : create env h r o' with _ | ⟨r₂, o₂⟩ <;>
      rw [hcr, hcr'] at hr <;> try first | trivial | exact False.elim hr
    obtain ⟨rfl, hr⟩ := hr
    refine (hf r₁).read fun c hc => ?_
    by_cases ht : c ∈ h.touches
    · exact hr c ht
    · rw [create_frame hcr ht, create_frame hcr' ht, ho c hc]

end Create

/-! ### What reading a document touches -/

section Document
variable (env : Env)

/-- The use of a directive with a value. -/
def scalarUse (name : String) (v : Value) : Use :=
  match cmdFind env.platform name with
  | some (.scalar set) => set.use env v
  | _ => ⟨∅, []⟩

/-- What opening an object touches. -/
def opens (name : String) : Set Cell :=
  match cmdFind env.platform name with
  | some (.object (some c)) => c.touches
  | _ => ∅

mutual
/-- The components that are touched by reading members. -/
def touchesMembers : List (String × Json) → Set Cell
  | [] => ∅
  | member :: members => touchesMember member ∪ touchesMembers members

def touchesMember : String × Json → Set Cell
  | (name, j) => touchesJson name j

def touchesJson (name : String) : Json → Set Cell
  | .string v => (scalarUse env name (.string v)).touches
  | .integer v => (scalarUse env name (.integer (toInt v))).touches
  | .bool v => (scalarUse env name (.bool v)).touches
  | .array elems => touchesArray name elems
  | .object members => opens env name ∪ touchesMembers members
  | .other => ∅

def touchesObject (name : String) : Json → Set Cell
  | .object members => opens env name ∪ touchesMembers members
  | _ => opens env name

def touchesArray (name : String) : List Json → Set Cell
  | [] => ∅
  | j :: elems => touchesObject name j ∪ touchesArray name elems
end

/-- The use of a member. -/
def memberUse : String × Json → Use
  | (name, .string v) => scalarUse env name (.string v)
  | (name, .integer v) => scalarUse env name (.integer (toInt v))
  | (name, .bool v) => scalarUse env name (.bool v)
  | (name, j) => ⟨touchesJson env name j, []⟩

variable {env} {r : Ref}

theorem parseType_local (name : String) (v : Value) :
    Local Objects.get ((scalarUse env name v).usage r) (parseType env name v r) := by
  cases hc : cmdFind env.platform name with
  | none =>
    have he : parseType env name v r = fun _ => .error (.error (.unknownDirective name)) := by
      funext o
      rw [parseType, hc]
    rw [he]
    exact local_error _
  | some h =>
    cases h with
    | object c =>
      have he : parseType env name v r = fun _ => .error (.error (.mustBeObject name)) := by
        funext o
        rw [parseType, hc]
      rw [he]
      exact local_error _
    | scalar set =>
      have he : parseType env name v r = set.run env name v r := by
        funext o
        rw [parseType, hc]
      rw [he, scalarUse, hc]
      exact setHandler_local

theorem parseType_within (name : String) (v : Value) :
    Within Objects.get (scalarUse env name v).touches (parseType env name v r) :=
  (parseType_local name v).within Set.subset_union_left fun _ => Use.puts_of_not_mem

theorem open_within {name : String} {K : Set Cell} {f : Ref → Objects → Out Objects}
    (hf : ∀ r, Within Objects.get K (f r)) :
    Within Objects.get (opens env name ∪ K) fun o => (openObject env name r o).bind fun p => f p.1 p.2 := by
  rcases hc : cmdFind env.platform name with _ | ⟨_ | c⟩ | set
  · have he (o : Objects) : openObject env name r o = .error (.error (.unknownDirective name)) := by
      rw [openObject, hc]
    simp only [he]
    exact local_error _
  · have he (o : Objects) : openObject env name r o = .ok (r, o) := by rw [openObject, hc]
    simp only [he]
    exact (hf r).mono Set.subset_union_right
  · have he (o : Objects) : openObject env name r o = create env c r o := by rw [openObject, hc]
    have hopens : opens env name = c.touches := by rw [opens, hc]
    simp only [he, hopens]
    exact create_within Set.subset_union_left fun r => (hf r).mono Set.subset_union_right
  · have he (o : Objects) : openObject env name r o = .error (.error (.mustBeScalar name)) := by
      rw [openObject, hc]
    simp only [he]
    exact local_error _

theorem findArray_within (name : String) : Within Objects.get ∅ (findArray env name) := by
  cases hc : cmdFind env.platform name with
  | none =>
    have he : findArray env name = fun _ => .error (.error (.unknownDirective name)) := by
      funext o
      rw [findArray, hc]
    rw [he]
    exact local_error _
  | some c =>
    have he : findArray env name = fun o => .ok o := by
      funext o
      rw [findArray, hc]
    rw [he]
    exact within_ok

theorem bare_within (name : String) :
    Within Objects.get (opens env name) fun o => (openObject env name r o).map Prod.snd := by
  have he : (fun o => (openObject env name r o).map Prod.snd) =
      fun o => (openObject env name r o).bind fun p => .ok p.2 := by
    funext o
    cases openObject env name r o <;> rfl
  rw [he]
  have h : Within Objects.get (opens env name ∪ ∅) fun o => (openObject env name r o).bind fun p => .ok p.2 :=
    open_within fun _ => within_ok
  rwa [Set.union_empty] at h

mutual
theorem parseObject_within (name : String) : (j : Json) → (r : Ref) →
    Within Objects.get (touchesObject env name j) (parseObject env name j r)
  | .object members, _ => open_within (parseMembers_within members)
  | .string _, _ | .integer _, _ | .bool _, _ | .array _, _ | .other, _ => bare_within name

theorem parseMembers_within : (members : List (String × Json)) → (r : Ref) →
    Within Objects.get (touchesMembers env members) (parseMembers env members r)
  | [], _ => within_ok
  | member :: members, r =>
    ((parseMember_within member r).mono Set.subset_union_left).bind
      ((parseMembers_within members r).mono Set.subset_union_right)

theorem parseMember_within : (member : String × Json) → (r : Ref) →
    Within Objects.get (touchesMember env member) (parseMember env member r)
  | (name, j), r => parseJson_within name j r

theorem parseJson_within (name : String) : (j : Json) → (r : Ref) →
    Within Objects.get (touchesJson env name j) (parseJson env name j r)
  | .string v, _ => parseType_within name (.string v)
  | .integer v, _ => parseType_within name (.integer (toInt v))
  | .bool v, _ => parseType_within name (.bool v)
  | .array elems, r => ((findArray_within name).mono (Set.empty_subset _)).bind (parseArray_within name elems r)
  | .object members, _ => open_within (parseMembers_within members)
  | .other, _ => within_ok

theorem parseArray_within (name : String) : (elems : List Json) → (r : Ref) →
    Within Objects.get (touchesArray env name elems) (parseArray env name elems r)
  | [], _ => within_ok
  | j :: elems, r =>
    ((parseObject_within name j r).mono Set.subset_union_left).bind
      ((parseArray_within name elems r).mono Set.subset_union_right)
end

/-- A member has its footprint in the object it stands in. -/
theorem parseMember_local (member : String × Json) (r : Ref) :
    Local Objects.get ((memberUse env member).usage r) (parseMember env member r) := by
  obtain ⟨name, j⟩ := member
  cases j with
  | string v => exact parseType_local name (.string v)
  | integer v => exact parseType_local name (.integer (toInt v))
  | bool v => exact parseType_local name (.bool v)
  | array elems => exact parseJson_within name (.array elems) r
  | object members => exact parseJson_within name (.object members) r
  | other => exact within_ok

end Document

/-! ### Documents that differ in the order of members -/

mutual
/-- One document is the other with the members of its objects in another order, where every object's
members are `kept` as they should be; arrays keep their order, and no name comes twice. -/
inductive Reordered (kept : List (String × Json) → List (String × Json) → Prop) : Json → Json → Prop
  | same (j : Json) : Reordered kept j j
  | array {elems elems' : List Json} : ReorderedElems kept elems elems' →
    Reordered kept (.array elems) (.array elems')
  | object {members between members' : List (String × Json)} : (members.map Prod.fst).Nodup →
    ReorderedMembers kept members between → between.Perm members' → kept between members' →
    Reordered kept (.object members) (.object members')

inductive ReorderedElems (kept : List (String × Json) → List (String × Json) → Prop) :
    List Json → List Json → Prop
  | nil : ReorderedElems kept [] []
  | cons {j j' : Json} {elems elems' : List Json} : Reordered kept j j' → ReorderedElems kept elems elems' →
    ReorderedElems kept (j :: elems) (j' :: elems')

/-- The same members, with values that are reordered. -/
inductive ReorderedMembers (kept : List (String × Json) → List (String × Json) → Prop) :
    List (String × Json) → List (String × Json) → Prop
  | nil : ReorderedMembers kept [] []
  | cons {name : String} {j j' : Json} {members members' : List (String × Json)} : Reordered kept j j' →
    ReorderedMembers kept members members' →
    ReorderedMembers kept ((name, j) :: members) ((name, j') :: members')
end

/-- Members that do not go together come in the same order. -/
def KeptOrder (env : Env) : List (String × Json) → List (String × Json) → Prop :=
  Kept fun m m' => (memberUse env m).Conflict (memberUse env m')

section Reorder
variable {env : Env}

theorem ReorderedMembers.names {kept : List (String × Json) → List (String × Json) → Prop}
    {members members' : List (String × Json)} (h : ReorderedMembers kept members members') :
    members'.map Prod.fst = members.map Prod.fst := by
  match h with
  | .nil => rfl
  | .cons _ h => rw [List.map_cons, List.map_cons, h.names]

theorem parseMembers_runAll (members : List (String × Json)) (r : Ref) (o : Objects) :
    parseMembers env members r o = runAll (fun member => parseMember env member r) members o := by
  induction members generalizing o with
  | nil => rfl
  | cons member members ih =>
    rw [parseMembers, runAll]
    congr 1
    funext o'
    exact ih o'

/-- Members in another order are read alike. -/
theorem parseMembers_perm {members members' : List (String × Json)} (hn : (members.map Prod.fst).Nodup)
    (hp : members.Perm members') (hk : KeptOrder env members members') (r : Ref) (o : Objects) :
    Alike Objects.get (parseMembers env members r o) (parseMembers env members' r o) := by
  rw [parseMembers_runAll, parseMembers_runAll]
  refine runAll_perm ?_ ?_ (List.Nodup.of_map _ hn) hp hk o
  · intro member a a' h
    exact (parseMember_local member r).congr h
  · intro m m' hc a
    exact (parseMember_local m r).comm (parseMember_local m' r) (Use.compatible hc) a

theorem open_reordered {members members' : List (String × Json)} (name : String) (r : Ref) (o : Objects)
    (h : ∀ r o, Alike Objects.get (parseMembers env members r o) (parseMembers env members' r o)) :
    Alike Objects.get ((openObject env name r o).bind fun (r, o) => parseMembers env members r o)
      ((openObject env name r o).bind fun (r, o) => parseMembers env members' r o) := by
  cases openObject env name r o with
  | error e => exact .refl _
  | ok p => exact h p.1 p.2

mutual
theorem parseJson_reordered (name : String) : {j j' : Json} → Reordered (KeptOrder env) j j' → (r : Ref) →
    (o : Objects) → Alike Objects.get (parseJson env name j r o) (parseJson env name j' r o)
  | _, _, .same _, _, _ => .refl _
  | _, _, .array h, r, o => by
    refine Alike.bind (.refl _) fun a a' ha => ?_
    exact (parseArray_reordered name h r a).trans ((parseArray_within name _ r).congr ha)
  | _, _, .object hn h hp hk, r, o => open_reordered name r o fun r o =>
    (parseMembers_reordered h r o).trans (parseMembers_perm (h.names ▸ hn) hp hk r o)

theorem parseObject_reordered (name : String) : {j j' : Json} → Reordered (KeptOrder env) j j' → (r : Ref) →
    (o : Objects) → Alike Objects.get (parseObject env name j r o) (parseObject env name j' r o)
  | _, _, .same _, _, _ => .refl _
  | _, _, .array _, _, _ => .refl _
  | _, _, .object hn h hp hk, r, o => open_reordered name r o fun r o =>
    (parseMembers_reordered h r o).trans (parseMembers_perm (h.names ▸ hn) hp hk r o)

theorem parseMembers_reordered : {members members' : List (String × Json)} →
    ReorderedMembers (KeptOrder env) members members' → (r : Ref) →
    (o : Objects) → Alike Objects.get (parseMembers env members r o) (parseMembers env members' r o)
  | _, _, .nil, _, _ => .refl _
  | _, _, .cons h hs, r, o => by
    refine Alike.bind (parseJson_reordered _ h r o) fun a a' ha => ?_
    exact (parseMembers_reordered hs r a).trans ((parseMembers_within _ r).congr ha)

theorem parseArray_reordered (name : String) : {elems elems' : List Json} →
    ReorderedElems (KeptOrder env) elems elems' → (r : Ref) →
    (o : Objects) → Alike Objects.get (parseArray env name elems r o) (parseArray env name elems' r o)
  | _, _, .nil, _, _ => .refl _
  | _, _, .cons h hs, r, o => by
    refine Alike.bind (parseObject_reordered name h r o) fun a a' ha => ?_
    exact (parseArray_reordered name hs r a).trans ((parseArray_within name _ r).congr ha)
end

theorem defaultValues_congr {o o' : Objects} (h : Same o o') :
    Alike Objects.get (defaultValues env o) (defaultValues env o') := by
  have hlisten (r : Ref) : Within Objects.get Set.univ fun o => (create env .listener r o).bind fun p => .ok p.2 :=
    create_within (Set.subset_univ _) fun _ => within_ok
  have hmap (r : Ref) (o : Objects) : (create env .listener r o).map Prod.snd =
      (create env .listener r o).bind fun p => .ok p.2 := by
    cases create env .listener r o <;> rfl
  have hserver : Within Objects.get Set.univ fun o => (create env .httpServer .setting o).bind fun p =>
      (create env .listener p.1 p.2).bind fun p => .ok p.2 :=
    create_within (Set.subset_univ _) hlisten
  have hs : o.servers = o'.servers := h .servers
  have hf : o.serversFrom = o'.serversFrom := h .serversFrom
  simp only [defaultValues, hmap, hs, hf]
  split
  · exact hserver.congr h
  · exact fun c _ => h c

theorem valuesCheck_congr {o o' : Objects} (h : Same o o') :
    Alike Objects.get (valuesCheck o) (valuesCheck o') := by
  have hs : o.servers = o'.servers := h .servers
  have hf : o.serversFrom = o'.serversFrom := h .serversFrom
  have hl : o.listeners = o'.listeners := h .listeners
  have hlf : o.listenersFrom = o'.listenersFrom := h .listenersFrom
  rw [valuesCheck, valuesCheck, hs, hf, hl, hlf]
  split
  · trivial
  · exact fun c _ => h c

end Reorder

/-- A document with one upstream. -/
def upstreamDoc (members : List (String × Json)) : Json :=
  .object [("http", .object [("upstream", .object members)])]

/-- Nor does `bind` come out the same before and behind an option that forces it. -/
example :
    let doc (members : List (String × Json)) : Json :=
      .object [("http", .object [("server", .object [("listen", .object members)])])]
    let bound (root : Json) := (parse .bare root).toOption.map fun o => o.bools (.listener 0) .bind
    bound (doc [("bind", .bool false), ("backlog", .integer 512)]) = some true ∧
      bound (doc [("backlog", .integer 512), ("bind", .bool false)]) = some false :=
  ⟨rfl, rfl⟩

end PgRest.Conf
