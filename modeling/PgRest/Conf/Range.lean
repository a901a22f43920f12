import PgRest.Conf.Parse

/-! The directives with integers: which numbers of the file they take, and what they store. A number of
the file has 64 bits, what a handler gets is an `int`.

Where a handler raises an error the objects are as it has left them. -/
namespace PgRest.Conf

/-! ### What is stored -/

section
variable (name : String)

/-- `pgrest_conf_integer_set`, with the objects where it raises an error. -/
def integerStore (field : IntField) (minVal maxVal v : Int) (r : Ref) (o : Objects) :
    Objects × Option ConfError :=
  if v < minVal ∨ maxVal < v then (o, some (.outOfRange name v minVal maxVal)) else (o.setInt r field v, none)

/-- The handlers that come to `pgrest_conf_integer_set`, with the objects where they raise an error. -/
def SetHandler.store (set : SetHandler) (v : Int) (r : Ref) (o : Objects) : Objects × Option ConfError :=
  match set with
  | .integer field minVal maxVal => integerStore name field minVal maxVal v r o
  | .integer2 field minVal maxVal => integerStore name field minVal maxVal v r (bindSet true r o)
  | .keepaliveOpt field minVal maxVal =>
    integerStore name field minVal maxVal v r (bindSet true r (o.setInt r .soKeepalive 1))
  | _ => (o, none)

end

/-- A handler that comes to `pgrest_conf_integer_set`, with the range of its directive. -/
inductive Reaches (p : Platform) : SetHandler → IntField → Int → Int → Prop where
  | integer {field minVal maxVal} : Reaches p (.integer field minVal maxVal) field minVal maxVal
  | integer2 {field minVal maxVal} : Reaches p (.integer2 field minVal maxVal) field minVal maxVal
  | keepaliveOpt {field minVal maxVal} : p.keepaliveTunable = true →
      Reaches p (.keepaliveOpt field minVal maxVal) field minVal maxVal

/-- A directive of the table that takes an integer, in an object of its struct. -/
structure Directive (env : Env) where
  name : String
  set : SetHandler
  field : IntField
  minVal : Int
  maxVal : Int
  object : Ref
  found : cmdFind env.platform name = some (.scalar set)
  reaches : Reaches env.platform set field minVal maxVal
  placed : object.struct = some set.struct

namespace Directive

variable {env : Env} (d : Directive env)

/-- The number is in the range. -/
def Within (v : Int) : Prop := d.minVal ≤ v ∧ v ≤ d.maxVal

instance (v : Int) : Decidable (d.Within v) := inferInstanceAs (Decidable (_ ∧ _))

/-- The number `v` of the file is checked against the range, and stored. -/
def RangeChecked (v : Int) (o : Objects) : Prop :=
  (d.Within v → ∃ o', parseJson env d.name (.integer v) d.object o = .ok o' ∧ o'.ints d.object d.field = v) ∧
    (¬d.Within v → ∃ o' e, d.set.store d.name (toInt v) d.object o = (o', some e) ∧
      parseJson env d.name (.integer v) d.object o = .error (.error e) ∧
      o'.ints d.object d.field = o.ints d.object d.field)

end Directive

/-! ### The table -/

/-- The bounds of a directive are of type `int`, and what comes to `pgrest_conf_integer_set` by way of
`pgrest_conf_keepalive_opt_set` sets a field of its own. -/
def SetHandler.Bounded : SetHandler → Prop
  | .integer _ minVal maxVal | .integer2 _ minVal maxVal => -intMax - 1 ≤ minVal ∧ maxVal ≤ intMax
  | .keepaliveOpt field minVal maxVal => field ≠ .soKeepalive ∧ -intMax - 1 ≤ minVal ∧ maxVal ≤ intMax
  | _ => True

instance (set : SetHandler) : Decidable set.Bounded := by
  cases set <;> unfold SetHandler.Bounded <;> infer_instance

def Handler.Bounded : Handler → Prop
  | .scalar set => set.Bounded
  | .object _ => True

instance (h : Handler) : Decidable h.Bounded := by
  cases h <;> unfold Handler.Bounded <;> infer_instance

theorem cmds_bounded (p : Platform) : ∀ e ∈ staticCmds p ++ dynamicCmds, e.2.Bounded := by
  unfold staticCmds
  cases p.openssl <;> decide

theorem cmdFind_bounded {p : Platform} {name : String} {set : SetHandler}
    (h : cmdFind p name = some (.scalar set)) : set.Bounded := by
  have hmem : (name, Handler.scalar set) ∈ staticCmds p ++ dynamicCmds := by
    obtain ⟨before, after, heq, -⟩ := List.lookup_eq_some_iff.mp h
    rw [heq]
    simp
  exact cmds_bounded p _ hmem

namespace Directive

variable {env : Env} (d : Directive env)

/-! ### The handlers -/

/-- What is stored for an `int`, and the error where it is not in the range. -/
theorem store_eq (v : Int) (o : Objects) : ∃ o', o'.ints d.object d.field = o.ints d.object d.field ∧
    d.set.store d.name v d.object o =
      if d.Within v then (o'.setInt d.object d.field v, none)
      else (o', some (.outOfRange d.name v d.minVal d.maxVal)) := by
  obtain ⟨name, set, field, minVal, maxVal, object, found, reaches, placed⟩ := d
  have hstore : ∀ o', integerStore name field minVal maxVal v object o' =
      if minVal ≤ v ∧ v ≤ maxVal then (o'.setInt object field v, none)
      else (o', some (.outOfRange name v minVal maxVal)) := by
    intro o'
    unfold integerStore
    by_cases h : minVal ≤ v ∧ v ≤ maxVal
    · rw [if_neg (by omega), if_pos h]
    · rw [if_pos (by omega), if_neg h]
  cases reaches with
  | integer => exact ⟨o, rfl, hstore o⟩
  | integer2 => exact ⟨bindSet true object o, rfl, hstore _⟩
  | keepaliveOpt =>
    refine ⟨bindSet true object (o.setInt object .soKeepalive 1), ?_, hstore _⟩
    have hne : field ≠ .soKeepalive := (cmdFind_bounded found).1
    show Function.update o.ints object (Function.update (o.ints object) .soKeepalive 1) object field = _
    rw [Function.update_self, Function.update_of_ne hne]

/-- The handler raises an error, and so does the document; or what it stores is read on with. -/
theorem parse_eq (v : Int) (o : Objects) : parseJson env d.name (.integer v) d.object o =
    (d.set.store d.name (toInt v) d.object o).2.elim (.ok (d.set.store d.name (toInt v) d.object o).1)
      fun e => .error (.error e) := by
  obtain ⟨name, set, field, minVal, maxVal, object, found, reaches, placed⟩ := d
  have hkind : set.kind = .integer := by
    cases reaches <;> rfl
  have hrun : parseJson env name (.integer v) object o = set.apply env name (.integer (toInt v)) object o := by
    rw [parseJson, parseType, found]
    exact if_pos ⟨hkind.symm, placed⟩
  have hset : ∀ o', integerSet name field minVal maxVal (toInt v) object o' =
      (integerStore name field minVal maxVal (toInt v) object o').2.elim
        (.ok (integerStore name field minVal maxVal (toInt v) object o').1) fun e => .error (.error e) := by
    intro o'
    unfold integerSet integerStore
    split
    · rfl
    · rfl
  rw [hrun]
  cases reaches with
  | integer => exact hset o
  | integer2 => exact hset _
  | keepaliveOpt hp => exact (if_pos hp).trans (hset _)

/-- A number in the range is an `int`. -/
theorem toInt_within {v : Int} (h : d.Within v) : toInt v = v := by
  obtain ⟨name, set, field, minVal, maxVal, object, found, reaches, placed⟩ := d
  have hbounds : -intMax - 1 ≤ minVal ∧ maxVal ≤ intMax := by
    have hbounded := cmdFind_bounded found
    cases reaches with
    | integer => exact hbounded
    | integer2 => exact hbounded
    | keepaliveOpt => exact hbounded.2
  obtain ⟨hlow, hhigh⟩ := h
  have hmin : -2147483648 ≤ v := Int.le_trans hbounds.1 hlow
  have hmax : v ≤ 2147483647 := Int.le_trans hhigh hbounds.2
  exact Int.bmod_eq_of_le (by omega) (by omega)

/-- **Numbers are checked against the range** where they are an `int`, and where the `int` they are cut
to is not in the range. -/
theorem rangeChecked_iff (v : Int) (o : Objects) : d.RangeChecked v o ↔ toInt v = v ∨ ¬d.Within (toInt v) := by
  obtain ⟨o', hkept, hstore⟩ := d.store_eq (toInt v) o
  have hparse := d.parse_eq v o
  by_cases hin : d.Within (toInt v)
  · rw [if_pos hin] at hstore
    rw [hstore] at hparse
    have hset : (o'.setInt d.object d.field (toInt v)).ints d.object d.field = toInt v := by
      show Function.update o'.ints d.object (Function.update (o'.ints d.object) d.field (toInt v)) d.object
        d.field = _
      rw [Function.update_self, Function.update_self]
    constructor
    · rintro ⟨hwithin, hout⟩
      refine Or.inl ?_
      by_cases hv : d.Within v
      · obtain ⟨o'', hok, hfield⟩ := hwithin hv
        obtain rfl := Except.ok.inj (hparse.symm.trans hok)
        exact hset.symm.trans hfield
      · obtain ⟨o'', e, -, herror, -⟩ := hout hv
        cases hparse.symm.trans herror
    · rintro (heq | hnot)
      · refine ⟨fun _ => ⟨_, hparse, hset.trans heq⟩, fun hout => ?_⟩
        rw [heq] at hin
        exact absurd hin hout
      · exact absurd hin hnot
  · rw [if_neg hin] at hstore
    rw [hstore] at hparse
    refine iff_of_true ⟨fun hv => absurd ?_ hin, fun _ => ⟨_, _, hstore, hparse, hkept⟩⟩ (Or.inr hin)
    rw [d.toInt_within hv]
    exact hv

/-- The directive `worker_connections`. -/
def workerConnections : Directive .bare where
  name := "worker_connections"
  set := .integer .workerNoconn 1 65535
  field := .workerNoconn
  minVal := 1
  maxVal := 65535
  object := .setting
  found := rfl
  reaches := .integer
  placed := rfl

/-- 2^32 and 1024 more is taken for 1024. -/
theorem cut_not_checked : ¬workerConnections.RangeChecked 4294968320 .none := by
  rintro ⟨-, hout⟩
  obtain ⟨o', e, -, herror, -⟩ := hout (by decide)
  have hok : parseJson Env.bare "worker_connections" (.integer 4294968320) .setting .none =
    .ok (Objects.none.setInt .setting .workerNoconn 1024) := rfl
  cases hok.symm.trans herror

end Directive

end PgRest.Conf
