import PgRest.Conf.Objects

/-! Reading the document, `pgrest_conf_parse_object`. An object is opened, its members are read in
their order, and what an array holds is read as one object after the other. The walk is also laid
out as a list of steps, over a stack of the objects that are open: what a step does depends on
the steps before it only through the stack and the objects. -/
namespace PgRest.Conf

section Parse
variable (env : Env)

/-- `pgrest_conf_parse_type` -/
def parseType (name : String) (v : Value) (r : Ref) (o : Objects) : Out Objects :=
  match cmdFind env.platform name with
  | none => .error (.error (.unknownDirective name))
  | some (.object _) => .error (.error (.mustBeObject name))
  | some (.scalar set) => set.run env name v r o

/-- `pgrest_conf_parse_object`, up to its members. -/
def openObject (name : String) (parent : Ref) (o : Objects) : Out (Ref × Objects) :=
  match cmdFind env.platform name with
  | none => .error (.error (.unknownDirective name))
  | some (.scalar _) => .error (.error (.mustBeScalar name))
  | some (.object none) => .ok (parent, o)
  | some (.object (some c)) => create env c parent o

/-- The lookup of `pgrest_conf_parse_array`. -/
def findArray (name : String) (o : Objects) : Out Objects :=
  match cmdFind env.platform name with
  | none => .error (.error (.unknownDirective name))
  | some _ => .ok o

/-- `(int) json_integer_value` -/
def toInt (v : Int) : Int := v.bmod 0x100000000

mutual
/-- `pgrest_conf_parse_object`. What is not an object has no members. -/
def parseObject (name : String) : Json → Ref → Objects → Out Objects
  | .object members, parent, o => (openObject env name parent o).bind fun (r, o) => parseMembers members r o
  | _, parent, o => (openObject env name parent o).map Prod.snd

/-- Its loop. -/
def parseMembers : List (String × Json) → Ref → Objects → Out Objects
  | [], _, o => .ok o
  | member :: members, r, o => (parseMember member r o).bind fun o => parseMembers members r o

def parseMember : String × Json → Ref → Objects → Out Objects
  | (name, j), r, o => parseJson name j r o

/-- The switch over the type of a member. -/
def parseJson (name : String) : Json → Ref → Objects → Out Objects
  | .string v, r, o => parseType env name (.string v) r o
  | .integer v, r, o => parseType env name (.integer (toInt v)) r o
  | .bool v, r, o => parseType env name (.bool v) r o
  | .array elems, r, o => (findArray env name o).bind fun o => parseArray name elems r o
  | .object members, r, o => (openObject env name r o).bind fun (r, o) => parseMembers members r o
  | .other, _, o => .ok o

/-- `pgrest_conf_parse_array` -/
def parseArray (name : String) : List Json → Ref → Objects → Out Objects
  | [], _, o => .ok o
  | j :: elems, r, o => (parseObject name j r o).bind fun o => parseArray name elems r o
end

/-- The objects before anything is read. -/
def Objects.none : Objects where
  ints _ _ := 0
  bools _ _ := false
  texts _ _ := Option.none
  servers := 0
  serversFrom := 0
  listeners := 0
  listenersFrom := 0
  declaredBy _ := 0
  addresses _ := ⟨[], 0, false, []⟩
  serverNames _ := []
  routers _ := Rtree.create
  paths := 0
  pathServer _ := 0
  handlers _ := []
  postgres := 0
  pushStreams := 0
  upstreams := Option.none

/-- `pgrest_conf_default_values` -/
def defaultValues (o : Objects) : Out Objects :=
  if o.servers = o.serversFrom then
    (create env .httpServer .setting o).bind fun (server, o) => (create env .listener server o).map Prod.snd
  else .ok o

/-- `pgrest_conf_values_check` -/
def valuesCheck (o : Objects) : Out Objects :=
  if o.servers - o.serversFrom ≠ o.listeners - o.listenersFrom then .error (.error .lacksListen) else .ok o

/-- `pgrest_conf_parse` of a document that is JSON. -/
def parse (root : Json) : Out Objects :=
  (parseObject env "root" root .null .none).bind fun o => (defaultValues env o).bind valuesCheck

end Parse

/-! ### The walk -/

inductive Step where
  | enter (name : String)
  | leave
  /-- the directive of an array is looked up -/
  | find (name : String)
  | set (name : String) (v : Value)
deriving DecidableEq, Repr

mutual
/-- The steps for the members of an object. -/
def walkMembers : List (String × Json) → List Step
  | [] => []
  | member :: members => walkMember member ++ walkMembers members

def walkMember : String × Json → List Step
  | (name, j) => walkJson name j

def walkJson (name : String) : Json → List Step
  | .string v => [.set name (.string v)]
  | .integer v => [.set name (.integer (toInt v))]
  | .bool v => [.set name (.bool v)]
  | .array elems => .find name :: walkArray name elems
  | .object members => .enter name :: (walkMembers members ++ [.leave])
  | .other => []

def walkObject (name : String) : Json → List Step
  | .object members => .enter name :: (walkMembers members ++ [.leave])
  | _ => [.enter name, .leave]

def walkArray (name : String) : List Json → List Step
  | [] => []
  | j :: elems => walkObject name j ++ walkArray name elems
end

/-- The steps of a whole document. -/
def walk (root : Json) : List Step := walkObject "root" root

/-- The objects that are open, the innermost first, and what has been made of them. -/
structure Walk where
  stack : List Ref
  objects : Objects

def Walk.step (env : Env) (w : Walk) : Step → Out Walk
  | .enter name =>
    (openObject env name (w.stack.headD .null) w.objects).map fun (r, o) => ⟨r :: w.stack, o⟩
  | .leave => .ok { w with stack := w.stack.tail }
  | .find name => (findArray env name w.objects).map fun o => { w with objects := o }
  | .set name v => (parseType env name v (w.stack.headD .null) w.objects).map fun o => { w with objects := o }

def Walk.run (env : Env) (w : Walk) : List Step → Out Walk
  | [] => .ok w
  | s :: steps => (w.step env s).bind fun w => w.run env steps

/-- A walk starts with the `parent` of `root`, which is NULL. -/
def Walk.start : Walk := ⟨[.null], .none⟩

theorem map_eq_ok {α β : Type} {x : Out α} {f : α → β} {b : β} (h : x.map f = .ok b) :
    ∃ a, x = .ok a ∧ f a = b := by
  cases x with
  | error e => cases h
  | ok a => exact ⟨a, rfl, Except.ok.inj h⟩

theorem bind_eq_ok {α β : Type} {x : Out α} {f : α → Out β} {b : β} (h : x.bind f = .ok b) :
    ∃ a, x = .ok a ∧ f a = .ok b := by
  cases x with
  | error e => cases h
  | ok a => exact ⟨a, rfl, h⟩

/-- A document is accepted when its object has been read, and the checks after the defaults find nothing. -/
theorem parse_ok {env : Env} {root : Json} {o : Objects} (h : parse env root = .ok o) :
    ∃ o₁, parseObject env "root" root .null .none = .ok o₁ ∧ defaultValues env o₁ = .ok o ∧
      o.servers - o.serversFrom = o.listeners - o.listenersFrom := by
  rw [parse] at h
  obtain ⟨o₁, h₁, h⟩ := bind_eq_ok h
  obtain ⟨o₂, h₂, h⟩ := bind_eq_ok h
  rw [valuesCheck] at h
  split at h
  · cases h
  next hcount =>
  cases h
  exact ⟨o₁, h₁, h₂, not_not.mp hcount⟩

section Run
variable {env : Env}

theorem Walk.run_append (w : Walk) (steps steps' : List Step) :
    w.run env (steps ++ steps') = (w.run env steps).bind fun w => w.run env steps' := by
  induction steps generalizing w with
  | nil => rfl
  | cons s steps ih =>
    rw [List.cons_append, run, run]
    cases w.step env s with
    | error e => rfl
    | ok w => exact ih w

theorem Walk.run_cons {w w' : Walk} {s : Step} {steps : List Step} (h : w.run env (s :: steps) = .ok w') :
    ∃ w₁, w.step env s = .ok w₁ ∧ w₁.run env steps = .ok w' := by
  rw [run] at h
  exact bind_eq_ok h

theorem Walk.run_singleton (w : Walk) (s : Step) : w.run env [s] = w.step env s := by
  rw [run]
  cases w.step env s <;> rfl

theorem run_bare (name : String) (r : Ref) (stack : List Ref) (o : Objects) :
    Walk.run env ⟨r :: stack, o⟩ [.enter name, .leave] =
      ((openObject env name r o).map Prod.snd).map fun o => ⟨r :: stack, o⟩ := by
  rw [Walk.run]
  simp only [Walk.step, List.headD_cons]
  cases openObject env name r o <;> rfl

mutual
/-- Reading an object is the walk over it, with what is open around it left alone. -/
theorem run_walkObject (name : String) : (j : Json) → (r : Ref) → (stack : List Ref) → (o : Objects) →
    Walk.run env ⟨r :: stack, o⟩ (walkObject name j) =
      (parseObject env name j r o).map fun o => ⟨r :: stack, o⟩
  | .object members, r, stack, o => by
    rw [walkObject, parseObject, Walk.run]
    simp only [Walk.step, List.headD_cons]
    cases openObject env name r o with
    | error e => rfl
    | ok p =>
      show Walk.run env ⟨p.1 :: r :: stack, p.2⟩ (walkMembers members ++ [.leave]) = _
      rw [Walk.run_append, run_walkMembers members p.1 (r :: stack) p.2]
      show _ = (parseMembers env members p.1 p.2).map _
      cases parseMembers env members p.1 p.2 <;> rfl
  | .string _, r, stack, o | .integer _, r, stack, o | .bool _, r, stack, o | .array _, r, stack, o
  | .other, r, stack, o => run_bare name r stack o

theorem run_walkMembers : (members : List (String × Json)) → (r : Ref) → (stack : List Ref) → (o : Objects) →
    Walk.run env ⟨r :: stack, o⟩ (walkMembers members) =
      (parseMembers env members r o).map fun o => ⟨r :: stack, o⟩
  | [], _, _, _ => rfl
  | member :: members, r, stack, o => by
    rw [walkMembers, parseMembers, Walk.run_append, run_walkMember member r stack o]
    cases parseMember env member r o with
    | error e => rfl
    | ok o => exact run_walkMembers members r stack o

theorem run_walkMember : (member : String × Json) → (r : Ref) → (stack : List Ref) → (o : Objects) →
    Walk.run env ⟨r :: stack, o⟩ (walkMember member) =
      (parseMember env member r o).map fun o => ⟨r :: stack, o⟩
  | (name, j), r, stack, o => run_walkJson name j r stack o

theorem run_walkJson (name : String) : (j : Json) → (r : Ref) → (stack : List Ref) → (o : Objects) →
    Walk.run env ⟨r :: stack, o⟩ (walkJson name j) =
      (parseJson env name j r o).map fun o => ⟨r :: stack, o⟩
  | .string _, _, _, _ | .integer _, _, _, _ | .bool _, _, _, _ => Walk.run_singleton _ _
  | .other, _, _, _ => rfl
  | .array elems, r, stack, o => by
    rw [walkJson, parseJson, Walk.run]
    simp only [Walk.step]
    cases findArray env name o with
    | error e => rfl
    | ok o => exact run_walkArray name elems r stack o
  | .object members, r, stack, o => by
    rw [walkJson, parseJson, Walk.run]
    simp only [Walk.step, List.headD_cons]
    cases openObject env name r o with
    | error e => rfl
    | ok p =>
      show Walk.run env ⟨p.1 :: r :: stack, p.2⟩ (walkMembers members ++ [.leave]) = _
      rw [Walk.run_append, run_walkMembers members p.1 (r :: stack) p.2]
      show _ = (parseMembers env members p.1 p.2).map _
      cases parseMembers env members p.1 p.2 <;> rfl

theorem run_walkArray (name : String) : (elems : List Json) → (r : Ref) → (stack : List Ref) → (o : Objects) →
    Walk.run env ⟨r :: stack, o⟩ (walkArray name elems) =
      (parseArray env name elems r o).map fun o => ⟨r :: stack, o⟩
  | [], _, _, _ => rfl
  | j :: elems, r, stack, o => by
    rw [walkArray, parseArray, Walk.run_append, run_walkObject name j r stack o]
    cases parseObject env name j r o with
    | error e => rfl
    | ok o => exact run_walkArray name elems r stack o
end

/-- The document as a walk. -/
theorem run_walk (root : Json) :
    Walk.run env .start (walk root) =
      (parseObject env "root" root .null .none).map fun o => ⟨[.null], o⟩ :=
  run_walkObject "root" root .null [] .none

end Run

end PgRest.Conf
