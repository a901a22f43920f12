import PgRest.Conf.Parse

/-! Which documents have every handler called with what it takes its arguments for. The structs of
the objects that are open follow from the names alone, and so does whether a directive fits where
it stands; but reading stops where a directive is refused, and what comes behind is not handled. -/
namespace PgRest.Conf

/-- A directive fits the innermost open object, and its value the handler. A directive that there
is not, or that has the wrong shape, is refused before its handler is called. -/
def Step.Typed (p : Platform) (top : Option Struct) : Step → Prop
  | .enter name => ∀ c s, cmdFind p name = some (.object (some c)) → c.parent = some s → top = some s
  | .set name v => ∀ set, cmdFind p name = some (.scalar set) → v.kind = set.kind ∧ top = some set.struct
  | _ => True

/-- The structs of the open objects after a step that has been taken. -/
def place (p : Platform) (stack : List (Option Struct)) : Step → List (Option Struct)
  | .enter name =>
    (match cmdFind p name with
    | some (.object (some c)) => some c.struct
    | _ => stack.headD none) :: stack
  | .leave => stack.tail
  | _ => stack

/-- The struct of the innermost object that is open after these steps. -/
def topAfter (p : Platform) (steps : List Step) : Option Struct := (steps.foldl (place p) [none]).headD none

/-- Nothing in these steps has been refused. -/
def Accepted (env : Env) (steps : List Step) : Prop := ∃ w, Walk.run env .start steps = .ok w

section Handlers
variable {env : Env} {name : String} {r : Ref} {o : Objects}

theorem integerSet_typed {field : IntField} {minVal maxVal v : Int} :
    integerSet name field minVal maxVal v r o ≠ .error .illTyped := by
  rw [integerSet]
  split <;> simp

theorem choiceSet_typed {field : IntField} {choice : Option Int} {v : Bytes} :
    choiceSet name field choice v r o ≠ .error .illTyped := by
  cases choice <;> simp [choiceSet]

theorem addressSet_typed {v : Bytes} {i : Nat} : addressSet env name v i o ≠ .error .illTyped := by
  rw [addressSet]
  dsimp only
  split <;> simp

theorem httpPathSet_typed {v : Bytes} {i : Nat} : httpPathSet name v i o ≠ .error .illTyped := by
  rw [httpPathSet]
  split
  · simp
  · dsimp only
    split <;> simp

theorem httpUpstreamName_typed {v : Bytes} {i : Nat} : httpUpstreamName name v i o ≠ .error .illTyped := by
  rw [httpUpstreamName]
  split
  · simp
  · split <;> simp

theorem httpUpstreamSaddress_typed {v : Bytes} {i k : Nat} :
    httpUpstreamSaddress env name v i k o ≠ .error .illTyped := by
  unfold httpUpstreamSaddress
  dsimp only
  split <;> simp

theorem httpPostgresPgpass_typed {v : Bytes} : httpPostgresPgpass env v r o ≠ .error .illTyped := by
  unfold httpPostgresPgpass
  dsimp only
  split
  · simp
  · split
    · simp
    · split <;> simp

theorem keepalive_typed {v : Bytes} :
    (choiceSet name .soKeepalive (keepaliveValue v) v r o).map (bindSet true r) ≠ .error .illTyped := by
  cases keepaliveValue v <;> simp [choiceSet, Except.map]

variable {set : SetHandler}

theorem apply_integer_typed {v : Int} (hv : set.kind = .integer) :
    set.apply env name (.integer v) r o ≠ .error .illTyped := by
  cases set <;> cases hv
  case integer | integer2 => exact integerSet_typed
  case keepaliveOpt field minVal maxVal =>
    show (if _ then _ else _) ≠ _
    split
    · exact integerSet_typed
    · simp

theorem apply_bool_typed {v : Bool} (hv : set.kind = .bool) :
    set.apply env name (.bool v) r o ≠ .error .illTyped := by
  cases set <;> cases hv
  case bool | bool2 | pushStreamStor => simp [SetHandler.apply]
  all_goals
    show (if _ then _ else _) ≠ _
    split <;> simp

theorem apply_string_typed {v : Bytes} (hv : set.kind = .string) (hr : r.struct = some set.struct) :
    set.apply env name (.string v) r o ≠ .error .illTyped := by
  cases set <;> cases hv
  case string | postgresText | pushStreamName => simp [SetHandler.apply]
  case keepalive => exact keepalive_typed
  case lc | upstreamAlgorithm | pushStreamMode | pushStreamTunnel => exact choiceSet_typed
  case postgresPgpass => exact httpPostgresPgpass_typed
  case afilter | tbpath =>
    show (if _ then _ else _) ≠ _
    split <;> simp
  case serverName =>
    cases r <;> cases hr
    show (if _ then _ else _) ≠ _
    split
    · simp
    · cases env.splitIdentifier v <;> simp
  case address =>
    cases r <;> cases hr
    exact addressSet_typed
  case httpPath =>
    cases r <;> cases hr
    exact httpPathSet_typed
  case upstreamName =>
    cases r <;> cases hr
    exact httpUpstreamName_typed
  case upstreamSaddress =>
    cases r <;> cases hr
    exact httpUpstreamSaddress_typed

/-- A handler that is given what it takes is not ill-typed. -/
theorem apply_typed {v : Value} (hv : v.kind = set.kind) (hr : r.struct = some set.struct) :
    set.apply env name v r o ≠ .error .illTyped := by
  cases v with
  | integer v => exact apply_integer_typed hv.symm
  | bool v => exact apply_bool_typed hv.symm
  | string v => exact apply_string_typed hv.symm hr

theorem setHandler_typed {v : Value} :
    set.run env name v r o = .error .illTyped ↔ ¬(v.kind = set.kind ∧ r.struct = some set.struct) := by
  rw [SetHandler.run]
  split
  · next h => exact iff_of_false (apply_typed h.1 h.2) (not_not.mpr h)
  · next h => exact iff_of_true rfl h

theorem create_struct {c : CreateHandler} {r' : Ref} {o' : Objects} (h : create env c r o = .ok (r', o')) :
    r'.struct = some c.struct := by
  cases c
  case setting | upstream =>
    cases h
    rfl
  case httpServer | listener | httpPath | postgres | pushStream =>
    cases r <;> cases h
    rfl
  case upstreamServer =>
    cases r <;> try cases h
    rw [create] at h
    split at h
    · cases h
    · split at h
      · cases h
      · split at h
        · cases h
        · cases h
          rfl

/-- A create function is given an object of the struct it casts to, if it casts at all. -/
theorem create_typed {c : CreateHandler} :
    create env c r o = .error .illTyped ↔ ∃ s, c.parent = some s ∧ r.struct ≠ some s := by
  cases c
  case setting | upstream => simp [create, CreateHandler.parent]
  case httpServer | listener | httpPath | postgres | pushStream =>
    cases r <;> simp [create, CreateHandler.parent, Ref.struct]
  case upstreamServer =>
    cases r
    case upstream =>
      rw [create]
      split
      · simp [CreateHandler.parent, Ref.struct]
      · split
        · simp [CreateHandler.parent, Ref.struct]
        · split <;> simp [CreateHandler.parent, Ref.struct]
    all_goals simp [create, CreateHandler.parent, Ref.struct]

end Handlers

/-! ### Steps and runs -/

section Runs
variable {env : Env} {w w' : Walk}

theorem headD_struct (stack : List Ref) :
    (stack.map Ref.struct).headD none = (stack.headD .null).struct := by
  cases stack <;> rfl

/-- A step calls a handler with what it is not for exactly if it does not fit. -/
theorem step_typed {s : Step} :
    w.step env s = .error .illTyped ↔ ¬s.Typed env.platform (w.stack.headD .null).struct := by
  have hmap {α β : Type} (f : α → β) (x : Out α) : x.map f = .error .illTyped ↔ x = .error .illTyped := by
    cases x <;> simp [Except.map]
  cases s with
  | leave => simp [Walk.step, Step.Typed]
  | find name =>
    rw [Walk.step, hmap, findArray]
    cases cmdFind env.platform name <;> simp [Step.Typed]
  | enter name =>
    rw [Walk.step, hmap, openObject, Step.Typed]
    rcases cmdFind env.platform name with _ | ⟨_ | c⟩ | set
    · simp
    · simp
    · simp [create_typed]
    · simp
  | set name v =>
    rw [Walk.step, hmap, parseType, Step.Typed]
    rcases cmdFind env.platform name with _ | c | set
    · simp
    · simp
    · simp [setHandler_typed]

/-- The structs of the open objects are what the names make them. -/
theorem step_place {s : Step} (h : w.step env s = .ok w') :
    w'.stack.map Ref.struct = place env.platform (w.stack.map Ref.struct) s := by
  cases s with
  | leave =>
    cases h
    show w.stack.tail.map Ref.struct = (w.stack.map Ref.struct).tail
    exact List.map_tail
  | find name | set name v =>
    obtain ⟨o, -, rfl⟩ := map_eq_ok h
    rfl
  | enter name =>
    obtain ⟨⟨r, o⟩, ho, rfl⟩ := map_eq_ok h
    rw [openObject] at ho
    show r.struct :: w.stack.map Ref.struct = place env.platform (w.stack.map Ref.struct) (.enter name)
    rw [place, headD_struct]
    rcases hc : cmdFind env.platform name with _ | ⟨_ | c⟩ | set <;> rw [hc] at ho
    · cases ho
    · cases ho
      rfl
    · exact congrArg (· :: _) (create_struct ho)
    · cases ho

theorem run_place {steps : List Step} (h : w.run env steps = .ok w') :
    w'.stack.map Ref.struct = steps.foldl (place env.platform) (w.stack.map Ref.struct) := by
  induction steps generalizing w with
  | nil =>
    cases h
    rfl
  | cons s steps ih =>
    obtain ⟨w₁, hs, h⟩ := Walk.run_cons h
    rw [List.foldl_cons, ← step_place hs]
    exact ih h

/-- A run fails where one of its steps is the first to fail. -/
theorem run_error {steps : List Step} {e : Fault} :
    w.run env steps = .error e ↔ ∃ before s after w', steps = before ++ s :: after ∧
      w.run env before = .ok w' ∧ w'.step env s = .error e := by
  constructor
  · intro h
    induction steps generalizing w with
    | nil => cases h
    | cons s steps ih =>
      rw [Walk.run] at h
      cases hs : w.step env s with
      | error e' =>
        rw [hs] at h
        cases h
        exact ⟨[], s, steps, w, rfl, rfl, hs⟩
      | ok w₁ =>
        rw [hs] at h
        obtain ⟨before, s', after, w', rfl, hb, hs'⟩ := ih h
        refine ⟨s :: before, s', after, w', rfl, ?_, hs'⟩
        rw [Walk.run, hs]
        exact hb
  · rintro ⟨before, s, after, w', rfl, hb, hs⟩
    rw [Walk.run_append, hb]
    show w'.run env (s :: after) = _
    rw [Walk.run, hs]
    rfl

end Runs

end PgRest.Conf
