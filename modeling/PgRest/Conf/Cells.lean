import Mathlib.Data.Set.Insert
import PgRest.Lib.Footprint
import PgRest.Conf.Parse

/-! What the handlers read and write, in terms of the components of the configuration. Most setters
put constants into fields of their object and look at nothing; the others, and creating an object,
read and write what they touch. A field counts in the objects of its own struct only. -/
namespace PgRest.Conf

open Lib

inductive Cell where
  | int (f : IntField)
  | bool (f : BoolField)
  | text (f : TextField)
  | servers | serversFrom | listeners | listenersFrom | declaredBy | addresses | serverNames | routers
  | paths | pathServer | handlers | postgres | pushStreams | upstreams
deriving DecidableEq

def Cell.Value : Cell → Type
  | int _ => Ref → Int
  | bool _ => Ref → Bool
  | text _ => Ref → Option Bytes
  | servers | serversFrom | listeners | listenersFrom | paths | postgres | pushStreams => Nat
  | declaredBy | pathServer => Nat → Nat
  | addresses => Nat → Address
  | serverNames => Nat → List Bytes
  | routers => Nat → Rtree.Node Nat
  | handlers => Nat → List Ref
  | upstreams => Option (List Upstream)

def Objects.get (o : Objects) : (c : Cell) → c.Value
  | .int f => fun r => if r.struct = some f.struct then o.ints r f else 0
  | .bool f => fun r => if r.struct = some f.struct then o.bools r f else false
  | .text f => fun r => if r.struct = some f.struct then o.texts r f else .none
  | .servers => o.servers
  | .serversFrom => o.serversFrom
  | .listeners => o.listeners
  | .listenersFrom => o.listenersFrom
  | .declaredBy => o.declaredBy
  | .addresses => o.addresses
  | .serverNames => o.serverNames
  | .routers => o.routers
  | .paths => o.paths
  | .pathServer => o.pathServer
  | .handlers => o.handlers
  | .postgres => o.postgres
  | .pushStreams => o.pushStreams
  | .upstreams => o.upstreams

/-- The same settings, and the same numbers for what is created next. -/
def Same (o o' : Objects) : Prop := ∀ c, o.get c = o'.get c

/-! ### Constants that are put into fields -/

inductive Write where
  | int (f : IntField) (v : Int)
  | bool (f : BoolField) (v : Bool)
  | text (f : TextField) (v : Bytes)
deriving DecidableEq

namespace Write

def cell : Write → Cell
  | int f _ => .int f
  | bool f _ => .bool f
  | text f _ => .text f

def exec (r : Ref) (o : Objects) : Write → Objects
  | int f v => o.setInt r f v
  | bool f v => o.setBool r f v
  | text f v => o.setText r f v

/-- What it does to a component. -/
def put (r : Ref) : Write → (c : Cell) → c.Value → c.Value
  | int f v, .int f', x => if f = f' ∧ r.struct = some f.struct then Function.update x r v else x
  | bool f v, .bool f', x => if f = f' ∧ r.struct = some f.struct then Function.update x r v else x
  | text f v, .text f', x => if f = f' ∧ r.struct = some f.struct then Function.update x r (some v) else x
  | _, _, x => x

theorem get_exec (w : Write) (r : Ref) (o : Objects) (c : Cell) :
    (w.exec r o).get c = w.put r c (o.get c) := by
  cases w with
  | int f v =>
    cases c with
    | int f' =>
      funext r'
      by_cases hf : f = f' <;> by_cases hr' : r' = r <;> by_cases hr : r.struct = some f.struct <;>
        simp_all [exec, put, Objects.get, Objects.setInt, Function.update_apply, eq_comm]
    | _ => rfl
  | bool f v =>
    cases c with
    | bool f' =>
      funext r'
      by_cases hf : f = f' <;> by_cases hr' : r' = r <;> by_cases hr : r.struct = some f.struct <;>
        simp_all [exec, put, Objects.get, Objects.setBool, Function.update_apply, eq_comm]
    | _ => rfl
  | text f v =>
    cases c with
    | text f' =>
      funext r'
      by_cases hf : f = f' <;> by_cases hr' : r' = r <;> by_cases hr : r.struct = some f.struct <;>
        simp_all [exec, put, Objects.get, Objects.setText, Function.update_apply, eq_comm]
    | _ => rfl

theorem put_of_ne {w : Write} {r : Ref} {c : Cell} (h : w.cell ≠ c) : w.put r c = id := by
  funext x
  cases w <;> cases c <;> try rfl
  all_goals exact if_neg fun hf => h (congrArg _ hf.1)

/-- Two constants that are put into one field are the same, or come in an order. -/
theorem put_comm {w w' : Write} {r : Ref} (h : w.cell = w'.cell → w = w') (c : Cell) (x : c.Value) :
    w.put r c (w'.put r c x) = w'.put r c (w.put r c x) := by
  by_cases hc : w.cell = c
  · by_cases hc' : w'.cell = c
    · rw [h (hc.trans hc'.symm)]
    · rw [put_of_ne hc']
      rfl
  · rw [put_of_ne hc]
    rfl

end Write

/-- Several writes to one object. -/
def execAll (r : Ref) (ws : List Write) (o : Objects) : Objects := ws.foldl (Write.exec r) o

theorem execAll_get (ws : List Write) (r : Ref) (o : Objects) (c : Cell) :
    (execAll r ws o).get c = ws.foldl (fun x w => w.put r c x) (o.get c) := by
  induction ws generalizing o with
  | nil => rfl
  | cons w ws ih =>
    rw [execAll, List.foldl_cons, List.foldl_cons, ← Write.get_exec]
    exact ih (w.exec r o)

theorem execAll_append (ws ws' : List Write) (r : Ref) (o : Objects) :
    execAll r (ws ++ ws') o = execAll r ws' (execAll r ws o) := by
  rw [execAll, List.foldl_append]
  rfl

/-! ### The use of components -/

/-- What reading a member does: components that it reads and writes, and constants that it puts into
fields of the object it stands in. -/
structure Use where
  reads : Set Cell
  writes : List Write

namespace Use

/-- Its footprint, in an object. -/
def usage (u : Use) (r : Ref) : Usage Cell.Value where
  reads := u.reads
  puts c x := u.writes.foldl (fun x w => w.put r c x) x

/-- All components that it may change. -/
def touches (u : Use) : Set Cell := u.reads ∪ {c | ∃ w ∈ u.writes, w.cell = c}

/-- Two members do not go together if one reads what the other touches, or they put different
constants into one field. -/
def Conflict (u u' : Use) : Prop :=
  (∃ c ∈ u.reads, c ∈ u'.touches) ∨ (∃ c ∈ u'.reads, c ∈ u.touches) ∨
    ∃ w ∈ u.writes, ∃ w' ∈ u'.writes, w.cell = w'.cell ∧ w ≠ w'

theorem puts_of_not_mem {u : Use} {r : Ref} {c : Cell} (h : c ∉ u.touches) : (u.usage r).puts c = id := by
  have hw : ∀ w ∈ u.writes, w.cell ≠ c := fun w hw hc => h (.inr ⟨w, hw, hc⟩)
  funext x
  show u.writes.foldl (fun x w => w.put r c x) x = x
  generalize u.writes = ws at hw
  induction ws with
  | nil => rfl
  | cons w ws ih =>
    rw [List.foldl_cons, Write.put_of_ne (hw w List.mem_cons_self)]
    exact ih fun w' h => hw w' (List.mem_cons_of_mem w h)

theorem put_foldl {w : Write} {ws : List Write} {r : Ref} (h : ∀ w' ∈ ws, w.cell = w'.cell → w = w') (c : Cell)
    (x : c.Value) :
    w.put r c (ws.foldl (fun x w => w.put r c x) x) = ws.foldl (fun x w => w.put r c x) (w.put r c x) := by
  induction ws generalizing x with
  | nil => rfl
  | cons w' ws ih =>
    rw [List.foldl_cons, List.foldl_cons, ih fun w'' hw => h w'' (List.mem_cons_of_mem w' hw)]
    rw [Write.put_comm (h w' List.mem_cons_self)]

theorem compatible {u u' : Use} {r : Ref} (h : ¬u.Conflict u') : Compatible (u.usage r) (u'.usage r) where
  left c hc := by
    have hn : c ∉ u'.touches := fun hc' => h (.inl ⟨c, hc, hc'⟩)
    exact ⟨fun hr => hn (.inl hr), puts_of_not_mem hn⟩
  right c hc := puts_of_not_mem fun hc' => h (.inr (.inl ⟨c, hc, hc'⟩))
  both c x := by
    have hw : ∀ w ∈ u.writes, ∀ w' ∈ u'.writes, w.cell = w'.cell → w = w' := fun w hw w' hw' hc =>
      not_not.mp fun hne => h (.inr (.inr ⟨w, hw, w', hw', hc, hne⟩))
    show u.writes.foldl _ (u'.writes.foldl _ x) = u'.writes.foldl _ (u.writes.foldl _ x)
    generalize u.writes = ws at hw
    induction ws generalizing x with
    | nil => rfl
    | cons w ws ih =>
      rw [List.foldl_cons, List.foldl_cons, put_foldl (hw w List.mem_cons_self)]
      exact ih _ fun w' h => hw w' (List.mem_cons_of_mem w h)

end Use

/-! ### The setters -/

/-- The writes of `pgrest_conf_bind_set` with true. -/
def forced : List Write := [.bool .set true, .bool .bind true]

/-- One of the values that a text can stand for. -/
def chosen (field : IntField) (choice : Option Int) : List Write := (choice.map (Write.int field)).toList

/-- What a handler does with a value that it accepts. -/
def SetHandler.use (env : Env) (set : SetHandler) (v : Value) : Use :=
  let p := env.platform
  match set, v with
  | .integer field _ _, .integer v => ⟨∅, [.int field v]⟩
  | .integer2 field _ _, .integer v => ⟨∅, forced ++ [.int field v]⟩
  | .keepaliveOpt field _ _, .integer v =>
    ⟨∅, if p.keepaliveTunable then .int .soKeepalive 1 :: forced ++ [.int field v] else []⟩
  | .bool field, .bool v => ⟨∅, [.bool field v]⟩
  | .bool2 field, .bool v => ⟨∅, (if v then forced else []) ++ [.bool field v]⟩
  | .deferred, .bool v =>
    ⟨∅, if v && !p.deferAccept then [] else (if v then forced else []) ++ [.bool .deferredAccept v]⟩
  | .ipv6only, .bool v => ⟨∅, (if v then forced else []) ++ [.bool .ipv6only v]⟩
  | .reuse, .bool v =>
    ⟨∅, if v && !p.reuseport then [] else (if v then forced else []) ++ [.bool .reuseport v]⟩
  | .ssl, .bool v => ⟨∅, [.bool .ssl v]⟩
  | .pushStreamStor, .bool v => ⟨∅, [.bool .storeMessage v]⟩
  | .string field, .string v => ⟨∅, [.text field v]⟩
  | .address, _ => ⟨{.addresses}, []⟩
  | .afilter, .string v =>
    ⟨∅, if v ≠ [] && !p.acceptFilter then [] else forced ++ [.text .acceptFilter (v.take 15)]⟩
  | .tbpath, .string v => ⟨∅, [.text .tempBufferPath (v ++ env.tempName)]⟩
  | .keepalive, .string v => ⟨∅, chosen .soKeepalive (keepaliveValue v) ++ forced⟩
  | .serverName, _ => ⟨{.serverNames}, []⟩
  | .lc, .string v => ⟨∅, chosen .lingeringClose (lingeringValue v)⟩
  | .httpPath, _ => ⟨{.text .path, .pathServer, .routers}, []⟩
  | .upstreamName, _ => ⟨{.upstreams}, []⟩
  | .upstreamAlgorithm, .string v => ⟨∅, chosen .policy (policyValue v)⟩
  | .upstreamSaddress, _ => ⟨{.upstreams}, []⟩
  | .postgresPgpass, _ => ⟨{.upstreams, .text .pgPass}, []⟩
  | .postgresText field, .string v => ⟨∅, [.text field v]⟩
  | .pushStreamMode, .string v => ⟨∅, chosen .mode (modeValue v)⟩
  | .pushStreamName, .string v => ⟨∅, [.text .paramName v]⟩
  | .pushStreamTunnel, .string v => ⟨∅, chosen .mode (tunnelValue v)⟩
  | _, _ => ⟨∅, []⟩

/-! ### The footprints of the setters -/

section Setters
variable {env : Env} {name : String} {r : Ref}

theorem local_writes (ws : List Write) :
    Local Objects.get (Use.usage ⟨∅, ws⟩ r) fun o => (.ok (execAll r ws o) : Out Objects) where
  blind h c _ := by
    cases h
    exact execAll_get ws r _ c
  read _ c hc := hc.elim

theorem writes_ite {p : Prop} [Decidable p] {ws ws' : List Write} {f g : Objects → Out Objects}
    (hf : Local Objects.get (Use.usage ⟨∅, ws⟩ r) f) (hg : Local Objects.get (Use.usage ⟨∅, ws'⟩ r) g) :
    Local Objects.get (Use.usage ⟨∅, if p then ws else ws'⟩ r) fun o => if p then f o else g o := by
  refine local_ite ?_ ?_
  · intro hp
    simpa only [if_pos hp] using hf
  · intro hp
    simpa only [if_neg hp] using hg

/-- Only what a set of components is made to be counts, and it depends on them alone. -/
theorem local_reads {K : Set Cell} {f : Objects → Out Objects}
    (blind : ∀ {o o'}, f o = .ok o' → ∀ c, c ∉ K → o'.get c = o.get c)
    (read : ∀ {o o'}, (∀ c ∈ K, o.get c = o'.get c) → AlikeOn Objects.get K (f o) (f o')) :
    Local Objects.get (Use.usage ⟨K, []⟩ r) f := ⟨blind, read⟩

theorem integerSet_local (ws : List Write) {field : IntField} {minVal maxVal v : Int} :
    Local Objects.get (Use.usage ⟨∅, ws ++ [.int field v]⟩ r)
      fun o => integerSet name field minVal maxVal v r (execAll r ws o) := by
  by_cases h : v < minVal ∨ maxVal < v
  · simp only [integerSet, if_pos h]
    exact local_error _
  · have he (o : Objects) : execAll r (ws ++ [.int field v]) o = (execAll r ws o).setInt r field v :=
      execAll_append ws [.int field v] r o
    simp only [integerSet, if_neg h, ← he]
    exact local_writes _

theorem boolSet2_local {field : BoolField} {v : Bool} :
    Local Objects.get (Use.usage ⟨∅, (if v then forced else []) ++ [.bool field v]⟩ r)
      fun o => (.ok (boolSet2 field v r o) : Out Objects) := by
  cases v <;> exact local_writes _

theorem choiceSet_local {field : IntField} {choice : Option Int} {v : Bytes} :
    Local Objects.get (Use.usage ⟨∅, chosen field choice⟩ r) (choiceSet name field choice v r) := by
  cases choice with
  | none => exact local_error _
  | some i => exact local_writes _

variable {set : SetHandler}

theorem apply_integer_local {v : Int} (hv : set.kind = .integer) :
    Local Objects.get ((set.use env (.integer v)).usage r) (set.apply env name (.integer v) r) := by
  cases set <;> cases hv
  case integer field minVal maxVal => exact integerSet_local []
  case integer2 field minVal maxVal => exact integerSet_local forced
  case keepaliveOpt field minVal maxVal =>
    exact writes_ite (integerSet_local (.int .soKeepalive 1 :: forced)) (local_writes [])

theorem apply_bool_local {v : Bool} (hv : set.kind = .bool) :
    Local Objects.get ((set.use env (.bool v)).usage r) (set.apply env name (.bool v) r) := by
  cases set <;> cases hv
  case bool | pushStreamStor => exact local_writes _
  case bool2 => exact boolSet2_local
  case deferred | reuse => exact writes_ite (local_writes []) boolSet2_local
  case ipv6only => exact local_ite (fun _ => local_error _) fun _ => boolSet2_local
  case ssl => exact local_ite (fun _ => local_error _) fun _ => local_writes _

theorem keepalive_local {v : Bytes} :
    Local Objects.get (Use.usage ⟨∅, chosen .soKeepalive (keepaliveValue v) ++ forced⟩ r)
      fun o => (choiceSet name .soKeepalive (keepaliveValue v) v r o).map (bindSet true r) := by
  cases keepaliveValue v with
  | none => exact local_error _
  | some i => exact local_writes _

theorem addressSet_local {v : Bytes} {i : Nat} :
    Local Objects.get (Use.usage ⟨{.addresses}, []⟩ r) (addressSet env name v i) := by
  refine local_ite (fun _ => local_error _) fun _ => local_reads ?_ ?_
  · intro o o' h c hc
    cases h
    cases c <;> first | rfl | exact absurd rfl hc
  · intro o o' h c hc
    obtain rfl := hc
    have ha : o.addresses = o'.addresses := h _ rfl
    show Function.update o.addresses _ _ = Function.update o'.addresses _ _
    rw [ha]

theorem serverName_local {v : Bytes} {i : Nat} :
    Local Objects.get (Use.usage ⟨{.serverNames}, []⟩ r)
      (SetHandler.serverName.apply env name (.string v) (.server i)) := by
  refine local_ite (fun _ => within_ok) fun _ => ?_
  cases env.splitIdentifier v with
  | none => exact local_error _
  | some names =>
    apply local_reads
    · intro o o' h c hc
      cases h
      cases c <;> first | rfl | exact absurd rfl hc
    · intro o o' h c hc
      obtain rfl := hc
      have hs : o.serverNames = o'.serverNames := h _ rfl
      show Function.update o.serverNames i (o.serverNames i ++ names) = Function.update o'.serverNames i _
      rw [hs]

theorem httpPathSet_local {v : Bytes} {i : Nat} :
    Local Objects.get (Use.usage ⟨{.text .path, .pathServer, .routers}, []⟩ r) (httpPathSet name v i) := by
  refine local_ite (fun _ => local_error _) fun _ => local_reads ?_ ?_
  · intro o o' h c hc
    dsimp only at h
    split at h <;> cases h
    cases c with
    | text f =>
      have hf : Write.cell (.text .path v) ≠ .text f := by
        rintro ⟨⟩
        exact hc (.inl rfl)
      exact ((Write.text .path v).get_exec (.path i) o (.text f)).trans (congrFun (Write.put_of_ne hf) _)
    | pathServer => exact absurd (.inr (.inl rfl)) hc
    | routers => exact absurd (.inr (.inr rfl)) hc
    | _ => rfl
  · intro o o' h
    have hp : o.pathServer = o'.pathServer := h .pathServer (.inr (.inl rfl))
    have hr : o.routers = o'.routers := h .routers (.inr (.inr rfl))
    have ht : o.get (.text .path) = o'.get (.text .path) := h (.text .path) (.inl rfl)
    dsimp only
    rw [hp, hr]
    split
    · trivial
    · trivial
    · intro c hc
      rcases hc with rfl | rfl | rfl
      · show (o.setText (.path i) .path v).get (.text .path) = (o'.setText (.path i) .path v).get (.text .path)
        refine ((Write.text .path v).get_exec (.path i) o (.text .path)).trans ?_
        rw [ht]
        exact ((Write.text .path v).get_exec (.path i) o' (.text .path)).symm
      · exact hp
      · rfl

theorem httpUpstreamName_local {v : Bytes} {i : Nat} :
    Local Objects.get (Use.usage ⟨{.upstreams}, []⟩ r) (httpUpstreamName name v i) := by
  apply local_reads
  · intro o o' h c hc
    rw [httpUpstreamName] at h
    split at h
    · cases h
    · split at h <;> cases h
      cases c <;> first | rfl | exact absurd rfl hc
  · intro o o' h
    have hu : o.upstreams = o'.upstreams := h .upstreams rfl
    rw [httpUpstreamName, httpUpstreamName, hu]
    split
    · trivial
    · split
      · trivial
      · intro c hc
        obtain rfl := hc
        rfl

theorem httpUpstreamSaddress_local {v : Bytes} {i k : Nat} :
    Local Objects.get (Use.usage ⟨{.upstreams}, []⟩ r) (httpUpstreamSaddress env name v i k) := by
  refine local_ite (fun _ => local_error _) fun _ => local_reads ?_ ?_
  · intro o o' h c hc
    cases h
    cases c <;> first | rfl | exact absurd rfl hc
  · intro o o' h c hc
    obtain rfl := hc
    have hu : o.upstreams = o'.upstreams := h .upstreams rfl
    show o.upstreams.map _ = o'.upstreams.map _
    rw [hu]

theorem httpPostgresPgpass_local {v : Bytes} :
    Local Objects.get (Use.usage ⟨{.upstreams, .text .pgPass}, []⟩ r) (httpPostgresPgpass env v r) := by
  refine local_ite (fun _ => local_error _) fun _ => local_reads ?_ ?_
  · intro o o' h c hc
    split at h
    · cases h
    · split at h <;> cases h
      cases c with
      | text f =>
        have hf : Write.cell (.text .pgPass v) ≠ .text f := by
          rintro ⟨⟩
          exact hc (.inr rfl)
        exact ((Write.text .pgPass v).get_exec r o (.text f)).trans (congrFun (Write.put_of_ne hf) _)
      | upstreams => exact absurd (.inl rfl) hc
      | _ => rfl
  · intro o o' h
    have hu : o.upstreams = o'.upstreams := h .upstreams (.inl rfl)
    have ht : o.get (.text .pgPass) = o'.get (.text .pgPass) := h (.text .pgPass) (.inr rfl)
    rw [hu]
    split
    · trivial
    · split
      · trivial
      · intro c hc
        rcases hc with rfl | rfl
        · rfl
        · show (o.setText r .pgPass v).get (.text .pgPass) = (o'.setText r .pgPass v).get (.text .pgPass)
          refine ((Write.text .pgPass v).get_exec r o (.text .pgPass)).trans ?_
          rw [ht]
          exact ((Write.text .pgPass v).get_exec r o' (.text .pgPass)).symm

theorem apply_string_local {v : Bytes} (hv : set.kind = .string) :
    Local Objects.get ((set.use env (.string v)).usage r) (set.apply env name (.string v) r) := by
  cases set <;> cases hv
  case string | postgresText | pushStreamName => exact local_writes _
  case keepalive => exact keepalive_local
  case lc | upstreamAlgorithm | pushStreamMode | pushStreamTunnel => exact choiceSet_local
  case afilter => exact writes_ite (local_writes []) (local_writes _)
  case tbpath => exact local_ite (fun _ => local_error _) fun _ => local_writes _
  case postgresPgpass => exact httpPostgresPgpass_local
  case address =>
    cases r with
    | listener i => exact addressSet_local
    | _ => exact local_error _
  case serverName =>
    cases r with
    | server i => exact serverName_local
    | _ => exact local_error _
  case httpPath =>
    cases r with
    | path i => exact httpPathSet_local
    | _ => exact local_error _
  case upstreamName =>
    cases r with
    | upstream i => exact httpUpstreamName_local
    | _ => exact local_error _
  case upstreamSaddress =>
    cases r with
    | userver i k => exact httpUpstreamSaddress_local
    | _ => exact local_error _

/-- Every handler has its footprint. -/
theorem setHandler_local {v : Value} :
    Local Objects.get ((set.use env v).usage r) (set.run env name v r) := by
  by_cases h : v.kind = set.kind ∧ r.struct = some set.struct
  · have he : set.run env name v r = set.apply env name v r := by
      funext o
      rw [SetHandler.run, if_pos h]
    rw [he]
    cases v with
    | integer v => exact apply_integer_local h.1.symm
    | bool v => exact apply_bool_local h.1.symm
    | string v => exact apply_string_local h.1.symm
  · have he : set.run env name v r = fun _ => .error .illTyped := by
      funext o
      rw [SetHandler.run, if_neg h]
    rw [he]
    exact local_error _

end Setters

end PgRest.Conf
