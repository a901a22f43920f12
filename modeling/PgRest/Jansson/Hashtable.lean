import Mathlib
import PgRest.Bytes
import PgRest.Lib.Group
import PgRest.Lib.Ring
import PgRest.Lib.Table

/-! `hashtable.c`, in which the members of a JSON object are kept. Every pair is in two lists that run in a circle through the
table: in the one the pairs of a bucket stand next to each other, and the bucket has the first and the last of them; in
the other they stand in the order they came in. What is read or written of a pair that has been freed is undefined
here, and so is a walk that does not come to an end. -/
namespace PgRest.Jansson
open Lib

/-- A `list_t`: that of the table, or that of the pair at an address. -/
inductive Place
  | table
  | pair (n : Nat)
deriving DecidableEq

/-- `hashtable_list` -/
structure Links where
  prev : Place
  next : Place

/-- `hashtable_pair`, without its links. -/
structure Pair (β : Type) where
  hash : Nat
  key : Bytes
  value : β

/-- `hashtable_t`, with the pairs that are allocated and the links of all of them. -/
structure Hashtable (β : Type) where
  size : Nat
  order : Nat
  /-- `first` and `last` -/
  buckets : List (Place × Place)
  list : Place → Links
  orderedList : Place → Links
  pairs : Nat → Option (Pair β)

/-! ### Lists -/

def setNext (links : Place → Links) (r x : Place) : Place → Links :=
  Function.update links r { links r with next := x }

def setPrev (links : Place → Links) (r x : Place) : Place → Links :=
  Function.update links r { links r with prev := x }

/-- `list_init` -/
def listInit (links : Place → Links) (list : Place) : Place → Links := Function.update links list ⟨list, list⟩

/-- `list_insert` -/
def listInsert (links : Place → Links) (list node : Place) : Place → Links :=
  let links := setNext links node list
  let links := setPrev links node (links list).prev
  let links := setNext links (links list).prev node
  setPrev links list node

/-- `list_remove` -/
def listRemove (links : Place → Links) (list : Place) : Place → Links :=
  let links := setNext links (links list).prev (links list).next
  setPrev links (links list).next (links list).prev

namespace Hashtable
variable {β : Type}

/-- It may be read and written. -/
def live (t : Hashtable β) : Place → Bool
  | .table => true
  | .pair n => (t.pairs n).isSome

/-- `list_insert(list, node)` in the list of the buckets. -/
def insertList (t : Hashtable β) (list node : Place) : Option (Hashtable β) :=
  if t.live list ∧ t.live node ∧ t.live (t.list list).prev then
    some { t with list := listInsert t.list list node }
  else none

/-- `list_insert(list, node)` in the ordered list. -/
def insertOrdered (t : Hashtable β) (list node : Place) : Option (Hashtable β) :=
  if t.live list ∧ t.live node ∧ t.live (t.orderedList list).prev then
    some { t with orderedList := listInsert t.orderedList list node }
  else none

/-- `list_remove(&pair->list); list_remove(&pair->ordered_list);` -/
def removeLists (t : Hashtable β) (node : Place) : Option (Hashtable β) :=
  if t.live node ∧ t.live (t.list node).prev ∧ t.live (t.list node).next ∧ t.live (t.orderedList node).prev ∧
      t.live (t.orderedList node).next then
    some { t with list := listRemove t.list node, orderedList := listRemove t.orderedList node }
  else none

/-! ### Buckets -/

/-- `hash & hashmask(hashtable->order)` -/
def index (t : Hashtable β) (hash : Nat) : Nat := hash &&& (2 ^ t.order - 1)

/-- `bucket_is_empty` -/
def bucketIsEmpty (bucket : Place × Place) : Prop := bucket.1 = .table ∧ bucket.1 = bucket.2

instance (bucket : Place × Place) : Decidable (bucketIsEmpty bucket) := inferInstanceAs (Decidable (_ ∧ _))

/-- `insert_to_bucket` -/
def insertToBucket (t : Hashtable β) (i : Nat) (list : Place) : Option (Hashtable β) :=
  t.buckets[i]?.bind fun bucket =>
    if bucketIsEmpty bucket then
      (t.insertList .table list).map fun t => { t with buckets := t.buckets.set i (list, list) }
    else
      (t.insertList bucket.1 list).map fun t => { t with buckets := t.buckets.set i (list, bucket.2) }

/-- The loop of `hashtable_find_pair`. -/
def findFrom (t : Hashtable β) (last : Place) (key : Bytes) (hash : Nat) : Nat → Place → Option (Option Nat)
  | fuel + 1, .pair n =>
    (t.pairs n).bind fun pair =>
      if pair.hash = hash ∧ pair.key = key then some (some n)
      else if .pair n = last then some none
      else findFrom t last key hash fuel (t.list (.pair n)).next
  | _, _ => none

/-- `hashtable_find_pair`: the pair that is returned, if it is not NULL. -/
def findPair (t : Hashtable β) (bucket : Place × Place) (key : Bytes) (hash : Nat) : Option (Option Nat) :=
  if bucketIsEmpty bucket then some none
  else t.findFrom bucket.2 key hash t.size bucket.1

/-- The loop of `hashtable_do_rehash`. -/
def moveFrom : Nat → Place → Hashtable β → Option (Hashtable β)
  | _, .table, t => some t
  | 0, .pair _, _ => none
  | fuel + 1, .pair n, t =>
    let next := (t.list (.pair n)).next
    (t.pairs n).bind fun pair =>
      (t.insertToBucket (pair.hash % 2 ^ t.order) (.pair n)).bind (moveFrom fuel next)

/-- `hashtable_do_rehash`, when there is memory for the buckets. -/
def doRehash (t : Hashtable β) : Option (Hashtable β) :=
  let t := { t with order := t.order + 1, buckets := List.replicate (2 ^ (t.order + 1)) (.table, .table) }
  let list := (t.list .table).next
  moveFrom t.size list { t with list := listInit t.list .table }

/-! ### Calls -/

/-- A call. For `hashtable_set`, `room` says whether there is memory for more buckets, and `address` where there is
memory for a pair. -/
inductive Op (β : Type)
  | set (key : Bytes) (value : β) (room : Bool) (address : Option Nat)
  | get (key : Bytes)
  | del (key : Bytes)
  | clear
  /-- `json_object_foreach` -/
  | foreach

/-- What a call returns. -/
inductive Out (β : Type)
  /-- 0, and the values it has released -/
  | done (released : List β)
  /-- -1 -/
  | failed
  | value (value : Option β)
  | entries (entries : List (Bytes × β))

/-- `hashtable_init` -/
def init : Hashtable β where
  size := 0
  order := 3
  buckets := List.replicate (2 ^ 3) (.table, .table)
  list _ := ⟨.table, .table⟩
  orderedList _ := ⟨.table, .table⟩
  pairs _ := none

section Calls
variable (hash : Bytes → Nat)

/-- `hashtable_set` behind the rehash. -/
def setPair (t : Hashtable β) (key : Bytes) (value : β) (address : Option Nat) : Option (Out β × Hashtable β) :=
  let h := hash key
  let i := t.index h
  t.buckets[i]?.bind fun bucket => (t.findPair bucket key h).bind fun found =>
    match found, address with
    | some n, _ =>
      (t.pairs n).map fun pair =>
        (.done [pair.value], { t with pairs := Function.update t.pairs n (some { pair with value }) })
    | none, none => some (.failed, t)
    | none, some n =>
      let t := { t with
        pairs := Function.update t.pairs n (some ⟨h, key, value⟩)
        list := listInit t.list (.pair n)
        orderedList := listInit t.orderedList (.pair n) }
      (t.insertToBucket i (.pair n)).bind fun t =>
        (t.insertOrdered .table (.pair n)).map fun t => (.done [], { t with size := t.size + 1 })

/-- `hashtable_set` -/
def set (t : Hashtable β) (key : Bytes) (value : β) (room : Bool) (address : Option Nat) :
    Option (Out β × Hashtable β) :=
  if t.size ≥ 2 ^ t.order then
    if room then t.doRehash.bind fun t => t.setPair hash key value address
    else some (.failed, t)
  else t.setPair hash key value address

/-- `hashtable_get` -/
def get (t : Hashtable β) (key : Bytes) : Option (Option β) :=
  let h := hash key
  t.buckets[t.index h]?.bind fun bucket => (t.findPair bucket key h).bind fun found =>
    match found with
    | some n => (t.pairs n).map fun pair => some pair.value
    | none => some none

/-- `hashtable_do_del` -/
def doDel (t : Hashtable β) (key : Bytes) (h : Nat) : Option (Out β × Hashtable β) :=
  let i := t.index h
  t.buckets[i]?.bind fun bucket => (t.findPair bucket key h).bind fun found =>
    match found with
    | none => some (.failed, t)
    | some n =>
      let bucket :=
        if .pair n = bucket.1 ∧ .pair n = bucket.2 then (.table, .table)
        else if .pair n = bucket.1 then ((t.list (.pair n)).next, bucket.2)
        else if .pair n = bucket.2 then (bucket.1, (t.list (.pair n)).prev)
        else bucket
      (t.pairs n).bind fun pair => (t.removeLists (.pair n)).map fun t =>
        (.done [pair.value], { t with
          buckets := t.buckets.set i bucket
          pairs := Function.update t.pairs n none
          size := t.size - 1 })

/-- `hashtable_do_clear`: the values that are released. -/
def clearFrom : Nat → Place → Hashtable β → Option (List β × Hashtable β)
  | _, .table, t => some ([], t)
  | 0, .pair _, _ => none
  | fuel + 1, .pair n, t =>
    let next := (t.list (.pair n)).next
    (t.pairs n).bind fun pair =>
      (clearFrom fuel next { t with pairs := Function.update t.pairs n none }).map fun (released, t) =>
        (pair.value :: released, t)

/-- `hashtable_clear` -/
def clear (t : Hashtable β) : Option (Out β × Hashtable β) :=
  (clearFrom t.size (t.list .table).next t).map fun (released, t) =>
    (.done released, { t with
      buckets := List.replicate (2 ^ t.order) (.table, .table)
      list := listInit t.list .table
      orderedList := listInit t.orderedList .table
      size := 0 })

/-- The steps of an iterator from a place of the ordered list on, with `hashtable_iter_key` and `hashtable_iter_value`
at each of them. -/
def iterFrom (t : Hashtable β) : Nat → Place → Option (List (Bytes × β))
  | _, .table => some []
  | 0, .pair _ => none
  | fuel + 1, .pair n =>
    (t.pairs n).bind fun pair =>
      (t.iterFrom fuel (t.orderedList (.pair n)).next).map ((pair.key, pair.value) :: ·)

/-- A loop by `hashtable_iter` and `hashtable_iter_next`. -/
def iter (t : Hashtable β) : Option (List (Bytes × β)) := t.iterFrom t.size (t.orderedList .table).next

/-- A call, `none` where it is undefined what happens. -/
def step (t : Hashtable β) : Op β → Option (Out β × Hashtable β)
  | .set key value room address => t.set hash key value room address
  | .get key => (t.get hash key).map fun v => (.value v, t)
  | .del key => t.doDel key (hash key)
  | .clear => t.clear
  | .foreach => t.iter.map fun es => (.entries es, t)

end Calls

end Hashtable

end PgRest.Jansson
