import PgRest.Conf.Declares
import PgRest.Conf.Outline
import PgRest.Conf.Range

/-! What holds of every configuration that is accepted, whatever is in the document and wherever it stands: the numbers
are in the ranges of their directives, those that the document says nothing of included, and the texts that are
copied into arrays fit them. -/
namespace PgRest.Conf

open Lib

/-- The range of the directive that sets a field. -/
def IntField.range : IntField → Option (Int × Int)
  | workerProcesses => some (1, 128)
  | workerPriority => some (-20, 20)
  | workerNofile => some (-1, 65535)
  | workerNoconn => some (1, 65535)
  | acceptorMutexDelay => some (500, 600000)
  | backlog => some (1, 65535)
  | sndbuf | rcvbuf => some (-1, 65535)
  | tcpKeepidle | tcpKeepintvl | tcpKeepcnt => some (0, intMax)
  | setfib | fastopen => some (-1, intMax)
  | sslSessionTimeout => some (60000, 3600000)
  | keepaliveTimeout | clientHeaderTimeout | clientBodyTimeout | lingeringTime | lingeringTimeout =>
    some (1000, 3600000)
  | clientHeaderBufferSize | clientBodyBufferSize => some (1024, 1024 * 8)
  | clientMaxHeaderSize => some (4096, 1024 * 1024)
  | clientMaxBodySize => some (4096, 2 * 1024 * 1024)
  | soKeepalive | lingeringClose | policy | mode => none

/-- A directive with a range has that of its field, and none that just copies its text sets an array. -/
def Handler.Confined : Handler → Prop
  | .scalar (.integer field minVal maxVal) | .scalar (.integer2 field minVal maxVal)
  | .scalar (.keepaliveOpt field minVal maxVal) => field.range = some (minVal, maxVal)
  | .scalar (.string field) | .scalar (.postgresText field) => field ≠ .acceptFilter ∧ field ≠ .tempBufferPath
  | _ => True

instance (h : Handler) : Decidable h.Confined := by
  unfold Handler.Confined
  split <;> infer_instance

theorem cmds_confined (p : Platform) : ∀ e ∈ staticCmds p ++ dynamicCmds, e.2.Confined := by
  unfold staticCmds
  cases p.openssl <;> decide

theorem cmdFind_confined {p : Platform} {name : String} {h : Handler} (hfind : cmdFind p name = some h) :
    h.Confined := by
  obtain ⟨before, after, heq, -⟩ := List.lookup_eq_some_iff.mp hfind
  exact cmds_confined p (name, h) (by rw [heq]; simp)

/-- An object has been created that has numbers with a range. -/
def Objects.Made (o : Objects) : Ref → Prop
  | .setting => True
  | .server i => i < o.servers
  | .listener l => l < o.listeners
  | _ => False

section
variable (env : Env)

/-- The default is in the range. The number of workers is that of the processors, of which there may be more. -/
def IntField.Fits : IntField → Prop
  | workerProcesses => 1 ≤ env.ncpu ∧ env.ncpu ≤ 128
  | _ => True

/-- A number that is put into a field is in its range, and a text fits its array. -/
def Write.Sane : Write → Prop
  | .int f v => ∀ minVal maxVal, f.range = some (minVal, maxVal) → minVal ≤ v ∧ v ≤ maxVal
  | .text .acceptFilter v => v.length ≤ 15
  | .text .tempBufferPath v => v.length < env.maxPgPath
  | _ => True

/-- So it is in every object that has been created. -/
def Cell.Sane (made : Ref → Prop) : (c : Cell) → c.Value → Prop
  | .int f, x => f.Fits env → ∀ r, made r → r.struct = some f.struct →
    ∀ minVal maxVal, f.range = some (minVal, maxVal) → minVal ≤ x r ∧ x r ≤ maxVal
  | .text .acceptFilter, x => ∀ r, made r → r.struct = some .listener → ∃ v, x r = some v ∧ v.length ≤ 15
  | .text .tempBufferPath, x => ∀ r, made r → r.struct = some .setting → ∃ v, x r = some v ∧ v.length < env.maxPgPath
  | _, _ => True

def Sane (o : Objects) : Prop := ∀ c : Cell, c.Sane env o.Made (o.get c)

end

section Steps
variable {env : Env} {o o' : Objects} {r r' : Ref} {made made' : Ref → Prop}

/-! ### Setting -/

theorem update_keeps {α : Type} {P : Ref → α → Prop} {x : Ref → α} {v : α} {p : Prop} [Decidable p] (hv : P r v)
    (hx : ∀ q, P q (x q)) (q : Ref) : P q ((if p then Function.update x r v else x) q) := by
  split
  · by_cases hqr : q = r
    · subst hqr
      rwa [Function.update_self]
    · rw [Function.update_of_ne hqr]
      exact hx q
  · exact hx q

theorem Write.Sane.put {w : Write} (hw : w.Sane env) (r : Ref) {c : Cell} {x : c.Value} (hx : c.Sane env made x) :
    c.Sane env made (w.put r c x) := by
  by_cases hc : w.cell = c
  · subst hc
    cases w with
    | int f v =>
      exact fun hf => update_keeps (P := fun q n => made q → q.struct = some f.struct →
        ∀ minVal maxVal, f.range = some (minVal, maxVal) → minVal ≤ n ∧ n ≤ maxVal) (fun _ _ => hw) (hx hf)
    | bool f v => trivial
    | text f v =>
      cases f
      case acceptFilter =>
        exact update_keeps
          (P := fun q (t : Option Bytes) => made q → q.struct = some .listener → ∃ v, t = some v ∧ v.length ≤ 15)
          (fun _ _ => ⟨v, rfl, hw⟩) hx
      case tempBufferPath =>
        exact update_keeps (P := fun q (t : Option Bytes) => made q → q.struct = some .setting →
          ∃ v, t = some v ∧ v.length < env.maxPgPath) (fun _ _ => ⟨v, rfl, hw⟩) hx
      all_goals trivial
  · rw [Write.put_of_ne hc]
    exact hx

theorem integerSet_sane {name : String} {field : IntField} {minVal maxVal v : Int}
    (h : integerSet name field minVal maxVal v r o = .ok o') (hrange : field.range = some (minVal, maxVal)) :
    (Write.int field v).Sane env := by
  rw [integerSet] at h
  split at h
  · cases h
  next hin =>
  rintro minVal' maxVal' hrange'
  obtain ⟨rfl, rfl⟩ := Prod.mk.inj (Option.some.inj (hrange.symm.trans hrange'))
  omega

theorem forced_sane : ∀ w ∈ forced, w.Sane env := by
  simp [forced, Write.Sane]

theorem chosen_sane {field : IntField} {choice : Option Int} (h : field.range = none) :
    ∀ w ∈ chosen field choice, w.Sane env := by
  intro w hw
  obtain ⟨v, -, rfl⟩ : ∃ v, choice = some v ∧ Write.int field v = w := by
    cases choice <;> simp [chosen] at hw ⊢
    exact hw.symm
  intro minVal maxVal hrange
  cases h.symm.trans hrange

theorem sane_ite {p : Prop} [Decidable p] {ws ws' : List Write} (h : p → ∀ w ∈ ws, w.Sane env)
    (h' : ¬p → ∀ w ∈ ws', w.Sane env) : ∀ w ∈ (if p then ws else ws'), w.Sane env := by
  split
  · next hp => exact h hp
  · next hp => exact h' hp

/-- **What a directive puts into fields when it is accepted is sane.** -/
theorem use_sane {set : SetHandler} {name : String} {v : Value} (h : set.run env name v r o = .ok o')
    (hset : (Handler.scalar set).Confined) : ∀ w ∈ (set.use env v).writes, w.Sane env := by
  obtain ⟨hkind, -, happly⟩ := run_ok h
  have hbind (v : Bool) : ∀ w ∈ (if v then forced else []), w.Sane env := by
    cases v
    · exact List.forall_mem_nil _
    · exact forced_sane
  cases set
  case integer field minVal maxVal =>
    cases v <;> cases hkind
    exact List.forall_mem_singleton.mpr (integerSet_sane happly hset)
  case integer2 field minVal maxVal =>
    cases v <;> cases hkind
    exact List.forall_mem_append.mpr ⟨forced_sane, List.forall_mem_singleton.mpr (integerSet_sane happly hset)⟩
  case keepaliveOpt field minVal maxVal =>
    cases v <;> cases hkind
    rw [SetHandler.apply] at happly
    refine sane_ite (fun htunable => ?_) fun _ => List.forall_mem_nil _
    rw [if_pos htunable] at happly
    refine List.forall_mem_cons.mpr ⟨by simp [Write.Sane, IntField.range], ?_⟩
    exact List.forall_mem_append.mpr ⟨forced_sane, List.forall_mem_singleton.mpr (integerSet_sane happly hset)⟩
  case string field | postgresText field =>
    cases v <;> cases hkind
    refine List.forall_mem_singleton.mpr ?_
    obtain ⟨hfilter, htemp⟩ := hset
    cases field <;> trivial
  case afilter =>
    cases v <;> cases hkind
    refine sane_ite (fun _ => List.forall_mem_nil _) fun _ => ?_
    exact List.forall_mem_append.mpr ⟨forced_sane, List.forall_mem_singleton.mpr (List.length_take_le _ _)⟩
  case tbpath =>
    cases v <;> cases hkind
    rename_i v
    refine List.forall_mem_singleton.mpr ?_
    rw [SetHandler.apply] at happly
    split at happly
    · cases happly
    next hlen =>
    show (v ++ env.tempName).length < env.maxPgPath
    rw [List.length_append]
    exact Nat.not_le.mp hlen
  case keepalive =>
    cases v <;> cases hkind
    exact List.forall_mem_append.mpr ⟨chosen_sane rfl, forced_sane⟩
  case lc | upstreamAlgorithm | pushStreamMode | pushStreamTunnel =>
    cases v <;> cases hkind
    exact chosen_sane rfl
  case bool2 | ipv6only =>
    cases v <;> cases hkind
    exact List.forall_mem_append.mpr ⟨hbind _, List.forall_mem_singleton.mpr trivial⟩
  case deferred | reuse =>
    cases v <;> cases hkind
    refine sane_ite (fun _ => List.forall_mem_nil _) fun _ => ?_
    exact List.forall_mem_append.mpr ⟨hbind _, List.forall_mem_singleton.mpr trivial⟩
  case bool | ssl | pushStreamStor | pushStreamName =>
    cases v <;> cases hkind
    exact List.forall_mem_singleton.mpr trivial
  all_goals exact List.forall_mem_nil _

/-! ### Creating -/

theorem intDefault_range {f : IntField} (h : f.Fits env) {minVal maxVal : Int} (hrange : f.range = some (minVal, maxVal)) :
    minVal ≤ intDefault env f ∧ intDefault env f ≤ maxVal := by
  cases f <;> cases hrange
  case workerProcesses => exact h
  case setfib | fastopen =>
    rw [intDefault]
    split <;> decide
  all_goals exact ⟨by simp only [intDefault]; decide, by simp only [intDefault]; decide⟩

theorem Cell.Sane.mono {c : Cell} {x : c.Value} (h : c.Sane env made x) (hmade : ∀ q, made' q → made q) :
    c.Sane env made' x := by
  cases c with
  | int f => exact fun hf q hq => h hf q (hmade q hq)
  | text f => cases f <;> first | trivial | exact fun q hq => h q (hmade q hq)
  | _ => trivial

theorem init_keeps {α : Type} {x : Ref → α} {v : α} {s : Struct} {P : α → Prop} (hv : P v)
    (hx : ∀ q, made q → q.struct = some s → P (x q)) (q : Ref) (hq : made q ∨ q = r) (hs : q.struct = some s) :
    P ((if r.struct = some s then Function.update x r v else x) q) := by
  by_cases hqr : q = r
  · subst hqr
    rwa [if_pos hs, Function.update_self]
  · have hold := hx q (hq.resolve_right hqr) hs
    split
    · rwa [Function.update_of_ne hqr]
    · exact hold

/-- A new object is sane. -/
theorem Cell.Sane.init (htemp : env.tempPath.length < env.maxPgPath) {c : Cell} {x : c.Value} (h : c.Sane env made x)
    (r : Ref) :
    c.Sane env (fun q => made q ∨ q = r) (initPut env r c x) := by
  cases c with
  | int f =>
    exact fun hf => init_keeps (P := fun n => ∀ minVal maxVal, f.range = some (minVal, maxVal) → minVal ≤ n ∧ n ≤ maxVal)
      (fun _ _ => intDefault_range hf) (h hf)
  | text f =>
    cases f
    case acceptFilter =>
      exact init_keeps (P := fun t : Option Bytes => ∃ v, t = some v ∧ v.length ≤ 15) ⟨[], rfl, Nat.zero_le _⟩ h
    case tempBufferPath =>
      exact init_keeps (P := fun t : Option Bytes => ∃ v, t = some v ∧ v.length < env.maxPgPath)
        ⟨env.tempPath, rfl, htemp⟩ h
    all_goals trivial
  | _ => trivial

/-- The numbers and the texts of a new object are the defaults, and those of the others are as they were. -/
theorem create_field {h : CreateHandler} (ho : create env h r o = .ok (r', o')) :
    (∀ f, o'.get (.int f) = initPut env r' (.int f) (o.get (.int f))) ∧
      ∀ f, o'.get (.text f) = initPut env r' (.text f) (o.get (.text f)) := by
  have hinit (r : Ref) : (∀ f, (o.init env r).get (.int f) = initPut env r (.int f) (o.get (.int f))) ∧
      ∀ f, (o.init env r).get (.text f) = initPut env r (.text f) (o.get (.text f)) :=
    ⟨fun _ => get_init (c := .int _), fun _ => get_init (c := .text _)⟩
  cases h
  case setting | upstream =>
    cases ho
    exact hinit _
  case upstreamServer =>
    have hstruct := create_struct ho
    have hframe : (∀ f, o'.get (.int f) = o.get (.int f)) ∧ ∀ f, o'.get (.text f) = o.get (.text f) :=
      ⟨fun f => create_frame ho nofun, fun f => create_frame ho nofun⟩
    refine ⟨fun f => (hframe.1 f).trans (if_neg ?_).symm, fun f => (hframe.2 f).trans (if_neg ?_).symm⟩
    · rw [hstruct]
      cases f <;> nofun
    · rw [hstruct]
      cases f <;> nofun
  all_goals
    cases r <;> cases ho
    exact hinit _

theorem Objects.Made.of_le {q : Ref} (h : o'.Made q) (hservers : o'.servers ≤ o.servers)
    (hlisteners : o'.listeners ≤ o.listeners) : o.Made q := by
  cases q with
  | server i => exact Nat.lt_of_lt_of_le h hservers
  | listener l => exact Nat.lt_of_lt_of_le h hlisteners
  | _ => exact h

theorem create_made {h : CreateHandler} (ho : create env h r o = .ok (r', o')) (q : Ref) (hq : o'.Made q) :
    o.Made q ∨ q = r' := by
  cases h
  case setting | upstream =>
    cases ho
    exact Or.inl (hq.of_le le_rfl le_rfl)
  case upstreamServer =>
    have hs : o'.servers = o.servers := create_frame (c := .servers) ho nofun
    have hl : o'.listeners = o.listeners := create_frame (c := .listeners) ho nofun
    exact Or.inl (hq.of_le hs.le hl.le)
  case httpServer =>
    cases r <;> cases ho
    cases q with
    | server i =>
      rcases Nat.lt_succ_iff_lt_or_eq.mp hq with hlt | rfl
      · exact Or.inl hlt
      · exact Or.inr rfl
    | _ => exact Or.inl hq
  case listener =>
    cases r <;> cases ho
    cases q with
    | listener l =>
      rcases Nat.lt_succ_iff_lt_or_eq.mp hq with hlt | rfl
      · exact Or.inl hlt
      · exact Or.inr rfl
    | _ => exact Or.inl hq
  all_goals
    cases r <;> cases ho
    exact Or.inl (hq.of_le le_rfl le_rfl)

theorem Sane.create (htemp : env.tempPath.length < env.maxPgPath) {h : CreateHandler} (hs : Sane env o)
    (ho : create env h r o = .ok (r', o')) : Sane env o' := by
  obtain ⟨hints, htexts⟩ := create_field ho
  intro c
  refine Cell.Sane.mono ?_ (create_made ho)
  cases c with
  | int f =>
    rw [hints]
    exact (hs (.int f)).init htemp r'
  | text f =>
    rw [htexts]
    exact (hs (.text f)).init htemp r'
  | _ => trivial

/-! ### Runs -/

/-- What a handler looks at is no number, and no text that is copied into an array. -/
theorem reads_sane {set : SetHandler} {v : Value} {c : Cell} (hc : c ∈ (set.use env v).reads) (x : c.Value) :
    c.Sane env made x := by
  cases c with
  | int f => exact absurd hc (by cases set <;> cases v <;> simp [SetHandler.use])
  | text f =>
    cases f
    case acceptFilter | tempBufferPath => exact absurd hc (by cases set <;> cases v <;> simp [SetHandler.use])
    all_goals trivial
  | _ => trivial

/-- **What is put into a sane component by writes that are sane leaves it sane.** -/
theorem foldl_sane {ws : List Write} (hws : ∀ w ∈ ws, w.Sane env) (r : Ref) {c : Cell} {x : c.Value}
    (hx : c.Sane env made x) : c.Sane env made (ws.foldl (fun x w => w.put r c x) x) := by
  induction ws generalizing x with
  | nil => exact hx
  | cons w ws ih =>
    obtain ⟨hw, hws⟩ := List.forall_mem_cons.mp hws
    exact ih hws (hw.put r hx)

theorem Sane.set {name : String} {v : Value} (h : Sane env o) (ho : parseType env name v r o = .ok o') :
    Sane env o' := by
  obtain ⟨hservers, -, hlisteners, -⟩ := parseType_arrays ho
  rw [parseType] at ho
  rcases hc : cmdFind env.platform name with _ | c | set <;> rw [hc] at ho
  · cases ho
  · cases ho
  intro c
  by_cases hread : c ∈ (set.use env v).reads
  · exact reads_sane hread _
  · rw [run_writes ho hread, foldl_writes]
    refine Cell.Sane.mono ?_ fun q hq => hq.of_le hservers.le hlisteners.le
    exact foldl_sane (use_sane ho (cmdFind_confined hc)) r (h c)

/-- **Every step leaves the configuration sane.** -/
theorem Sane.step (htemp : env.tempPath.length < env.maxPgPath) {w w' : Walk} {s : Step} (h : Sane env w.objects)
    (hs : w.step env s = .ok w') : Sane env w'.objects := by
  cases s with
  | leave =>
    cases hs
    exact h
  | find name =>
    obtain ⟨o, ho, rfl⟩ := map_eq_ok hs
    rw [findArray] at ho
    split at ho <;> cases ho
    exact h
  | enter name =>
    obtain ⟨⟨r, o⟩, ho, rfl⟩ := map_eq_ok hs
    rw [openObject] at ho
    rcases hc : cmdFind env.platform name with _ | ⟨_ | c⟩ | set <;> rw [hc] at ho
    · cases ho
    · cases ho
      exact h
    · exact h.create htemp ho
    · cases ho
  | set name v =>
    obtain ⟨o, ho, rfl⟩ := map_eq_ok hs
    exact h.set ho

theorem Sane.run (htemp : env.tempPath.length < env.maxPgPath) {w w' : Walk} {steps : List Step} (h : Sane env w.objects)
    (hs : w.run env steps = .ok w') : Sane env w'.objects := by
  induction steps generalizing w with
  | nil =>
    cases hs
    exact h
  | cons s steps ih =>
    obtain ⟨w₁, hw, hs⟩ := Walk.run_cons hs
    exact ih (h.step htemp hw) hs

/-- A walk creates the setting first. -/
theorem walk_root (root : Json) : ∃ steps, walk root = .enter "root" :: steps := by
  cases root <;> exact ⟨_, rfl⟩

theorem no_sane {c : Cell} (x : c.Value) : c.Sane env (fun _ => False) x := by
  cases c with
  | int f => exact fun _ q hq => hq.elim
  | text f => cases f <;> first | trivial | exact fun q hq => hq.elim
  | _ => trivial

theorem root_sane (htemp : env.tempPath.length < env.maxPgPath) {w : Walk}
    (hs : Walk.start.step env (.enter "root") = .ok w) : Sane env w.objects := by
  have hroot : cmdFind env.platform "root" = some (.object (some .setting)) := rfl
  rw [Walk.step] at hs
  obtain ⟨⟨r, o⟩, ho, rfl⟩ := map_eq_ok hs
  rw [openObject, hroot] at ho
  obtain ⟨hints, htexts⟩ := create_field ho
  intro c
  have hsane : c.Sane env (fun q => False ∨ q = r) (o.get c) := by
    cases c with
    | int f =>
      rw [hints]
      exact (no_sane _).init htemp r
    | text f =>
      rw [htexts]
      exact (no_sane _).init htemp r
    | _ => trivial
  -- of the objects there are only the setting, which is new
  refine hsane.mono fun q hq => ?_
  cases ho
  cases q <;> first | exact Or.inr rfl | exact absurd hq (Nat.not_lt_zero _) | exact hq.elim

theorem parse_sane (htemp : env.tempPath.length < env.maxPgPath) {root : Json} (h : parse env root = .ok o) :
    Sane env o := by
  obtain ⟨o₁, h₁, h₂, -⟩ := parse_ok h
  have hw : Walk.run env .start (walk root) = .ok ⟨[.null], o₁⟩ := by
    rw [run_walk, h₁]
    rfl
  obtain ⟨steps, hsteps⟩ := walk_root root
  rw [hsteps] at hw
  obtain ⟨w, hroot, hw⟩ := Walk.run_cons hw
  have hsane : Sane env o₁ := (root_sane htemp hroot).run htemp hw
  rw [defaultValues] at h₂
  split at h₂
  · obtain ⟨⟨server, o₂⟩, hserver, hd⟩ := bind_eq_ok h₂
    obtain ⟨⟨listener, o₃⟩, hlistener, rfl⟩ := map_eq_ok hd
    exact (hsane.create htemp hserver).create htemp hlistener
  · cases h₂
    exact hsane

/-- A directive with a range has that of its field. -/
theorem Directive.range_eq (d : Directive env) : d.field.range = some (d.minVal, d.maxVal) := by
  obtain ⟨name, set, field, minVal, maxVal, object, found, reaches, placed⟩ := d
  have hconfined := cmdFind_confined found
  cases reaches <;> exact hconfined

theorem Directive.object_struct (d : Directive env) : d.object.struct = some d.field.struct := by
  obtain ⟨name, set, field, minVal, maxVal, object, found, reaches, placed⟩ := d
  cases reaches <;> exact placed

end Steps

end PgRest.Conf
