import PgRest.Bytes

/-! The URL router: a radix tree of path segments with parameters (`:name`) and
catch-alls (`*name`). A node is the C record, children and all; a C pointer into
the tree is the node it points to, and what the code writes through it is what
the functions here return. `palloc` and its relatives do not fail, and lengths,
counts and priorities stay within the C `int` that holds them.

A result of `none` is a read outside of an array: of the path in front of its
first or behind its last byte, or of `children` and `indices` past their end. -/
namespace PgRest.Rtree

/-- `pgrest_rtree_nodetype_e` -/
inductive NodeType where
  | static
  | root
  | param
  | catchall
deriving DecidableEq, Repr

/-- `pgrest_rtree_node_s`; a record of defaults is what `palloc0` leaves. -/
structure Node (α : Type) where
  path : Bytes := []
  wildChild : Bool := false
  type : NodeType := .static
  maxParams : Int := 0
  indices : Bytes := []
  children : List (Node α) := []
  handler : Option α := none
  priority : Int := 0

variable {α : Type}

def create : Node α := {}

/-- `':'` or `'*'` -/
def wildcard (c : UInt8) : Bool := c == colon || c == star

/-- `pgrest_count_params` -/
def countParams (path : Bytes) : Int :=
  let n := path.countP wildcard
  if n ≥ 255 then 255 else n

/-! ### The order of the children -/

/-- The child at `newPos` moves in front of every lighter child before it. -/
def bubble (priority : Int) : List (Node α) → Nat → List (Node α) × Nat
  | children, 0 => (children, 0)
  | children, newPos + 1 =>
    match children[newPos]?, children[newPos + 1]? with
    | some t, some c =>
      if t.priority < priority then
        bubble priority ((children.set newPos c).set (newPos + 1) t) newPos
      else (children, newPos + 1)
    | _, _ => (children, newPos + 1)

/-- The bytes from `newPos` on move up by one, as far as `pos`. -/
def shiftUp (newPos : Nat) : Bytes → Nat → Bytes
  | s, 0 => s
  | s, pos + 1 =>
    if newPos < pos + 1 then
      match s[pos]? with
      | some b => shiftUp newPos (s.set (pos + 1) b) pos
      | none => s
    else s

/-- `pgrest_rtree_child_priority`: the child at `pos` gains a priority and its
new place, and its index byte moves along. -/
def childPriority (node : Node α) (pos : Nat) : Option (Node α × Nat) :=
  match node.children[pos]?, node.indices[pos]? with
  | some child, some c =>
    let child := { child with priority := child.priority + 1 }
    let (children, newPos) := bubble child.priority (node.children.set pos child) pos
    let indices := if newPos = pos then node.indices
      else (shiftUp newPos node.indices pos).set newPos c
    some ({ node with children := children, indices := indices }, newPos)
  | _, _ => none

/-! ### Adding a path -/

/-- `pgrest_rtree_child_insert`, from the byte the scan has come to: `seen` is
what lies between the offset of the current node and that byte, `text` the byte
and all that follows it, and `before` the byte in front of `seen`. The scan has
no bound but the number of parameters still expected. -/
def childInsert (node : Node α) (numParams : Int) (before : Option UInt8) (seen text : Bytes)
    (handler : Option α) : Option (Bool × Node α) :=
  if numParams ≤ 0 then
    -- insert remaining path part and handler to the leaf
    some (true, { node with path := seen ++ text, handler := handler })
  else
    match text with
    | [] => none
    | c :: rest =>
      if !wildcard c then childInsert node numParams before (seen ++ [c]) rest handler
      else
        let name := rest.takeWhile (· != slash)
        let after := rest.dropWhile (· != slash)
        -- one wildcard per segment, no children it would hide, a name
        if name.any wildcard || !node.children.isEmpty || name.isEmpty then some (false, node)
        else if c == colon then
          let node := if seen.isEmpty then node else { node with path := seen }
          let param : Node α := { type := .param, maxParams := numParams, priority := 1 }
          if after.isEmpty then
            (childInsert param (numParams - 1) before (c :: name) [] handler).map fun (ok, param) =>
              (ok, { node with children := [param], wildChild := true })
          else
            let child : Node α := { maxParams := numParams - 1, priority := 1 }
            (childInsert child (numParams - 1) name.getLast? [] after handler).map fun (ok, child) =>
              let param := { param with path := c :: name, children := [child] }
              (ok, { node with children := [param], wildChild := true })
        else if !after.isEmpty || numParams > 1 then some (false, node)
        else if node.path.getLast? = some slash then some (false, node)
        else
          match seen.getLast?.or before with
          | none => none
          | some b =>
            if b != slash then some (false, node)
            else if seen.isEmpty then none
            else
              let leaf : Node α :=
                { type := .catchall, maxParams := 1, handler := handler, priority := 1
                  path := slash :: text }
              let first : Node α :=
                { wildChild := true, type := .catchall, maxParams := 1, priority := 1
                  children := [leaf] }
              some (true, { node with path := seen.dropLast, indices := [slash], children := [first] })
termination_by text.length
decreasing_by
  · simp
  · simp
  · have := (List.dropWhile_suffix (l := rest) (· != slash)).length_le
    simp only [List.length_cons]
    omega

/-- The length of the longest common prefix. -/
def commonPrefix : Bytes → Bytes → Nat
  | a :: s, b :: t => if a == b then commonPrefix s t + 1 else 0
  | _, _ => 0

/-- The node keeps the first `i` bytes of its path; the rest of it, with all that
hung below, becomes its only child. -/
def split (node : Node α) (path : Bytes) (i : Nat) : Node α :=
  let child : Node α :=
    { path := node.path.drop i, wildChild := node.wildChild, type := .static
      maxParams := node.children.foldl (fun m c => max m c.maxParams) 0
      indices := node.indices, children := node.children, handler := node.handler
      priority := node.priority - 1 }
  { node with
    wildChild := false, path := path.take i, indices := (node.path.drop i).take 1
    children := [child], handler := none }

def noteParams (node : Node α) (numParams : Int) : Node α :=
  if numParams > node.maxParams then { node with maxParams := numParams } else node

/-- Whether the wildcard `name` is the one the path goes on with. -/
def sameWildcard (name path : Bytes) : Bool :=
  path.length ≥ name.length && strncmp name path name.length &&
    (name.length ≥ path.length || path[name.length]? == some slash)

/-- A new child at the index byte `c`, with what is left of the path. It is the last of the
children, and moves only where it gains the priority. -/
def appendChild (node : Node α) (c : UInt8) (path : Bytes) (before : Option UInt8) (numParams : Int)
    (handler : Option α) : Option (Bool × Node α) :=
  let child : Node α := { maxParams := numParams }
  let last := node.children.length
  let pos := node.indices.length
  let node := { node with indices := node.indices ++ [c], children := node.children ++ [child] }
  (childPriority node pos).bind fun (node, new) =>
    let j := if pos = last then new else last
    node.children[j]?.bind fun child =>
      (childInsert child numParams before [] path handler).map fun (ok, child) =>
        (ok, { node with children := node.children.set j child })

/-- One round of the loop of `pgrest_rtree_add` behind the node's own path, with
`path` what follows there. Where the code continues at a node below, that is `loop`. -/
def addBelow (loop : Node α → Bytes → Option UInt8 → Int → Option α → Option (Bool × Node α))
    (node : Node α) (path : Bytes) (before : Option UInt8) (numParams : Int) (handler : Option α) :
    Option (Bool × Node α) :=
  match path with
  | [] =>
    -- make node a (in-path) leaf
    if node.handler.isSome then some (false, node) else some (true, { node with handler := handler })
  | c :: _ =>
    if node.wildChild then
      match node.children with
      | [] => none
      | child :: siblings =>
        let child := noteParams { child with priority := child.priority + 1 } numParams
        if sameWildcard child.path path then
          (loop child path before (numParams - 1) handler).map fun (ok, child) =>
            (ok, { node with children := child :: siblings })
        else some (false, { node with children := child :: siblings })
    else if c == slash && node.children.length == 1 && node.type == .param then
      match node.children with
      | [] => none
      | child :: siblings =>
        let child := { child with priority := child.priority + 1 }
        (loop child path before numParams handler).map fun (ok, child) =>
          (ok, { node with children := child :: siblings })
    else
      match node.indices.findIdx? (· == c) with
      | some j =>
        (childPriority node j).bind fun (node, j) =>
          node.children[j]?.bind fun child =>
            (loop child path before numParams handler).map fun (ok, child) =>
              (ok, { node with children := node.children.set j child })
      | none =>
        if wildcard c then childInsert node numParams before [] path handler
        else appendChild node c path before numParams handler

/-- The loop of `pgrest_rtree_add`, from one node on. -/
def addLoop : Nat → Node α → Bytes → Option UInt8 → Int → Option α → Option (Bool × Node α)
  | 0, _, _, _, _, _ => none
  | fuel + 1, node, path, before, numParams, handler =>
    let node := noteParams node numParams
    let i := commonPrefix path node.path
    let node := if i < node.path.length then split node path i else node
    addBelow (addLoop fuel) node (path.drop i) ((path.take i).getLast?.or before) numParams handler

mutual
/-- The number of levels below a node. -/
def height : Node α → Nat
  | ⟨_, _, _, _, _, children, _, _⟩ => heights children
def heights : List (Node α) → Nat
  | [] => 0
  | c :: children => max (height c + 1) (heights children)
end

/-- `pgrest_rtree_add`. The loop goes down one level at a time, or into the child that a
node has been split off, which has the levels of the node: two rounds for each level are enough. -/
def add (node : Node α) (path : Bytes) (handler : Option α) : Option (Bool × Node α) :=
  let numParams := countParams path
  let node := { node with priority := node.priority + 1 }
  if node.path.length = 0 ∧ node.children.length = 0 then
    childInsert { node with type := .root } numParams none [] path handler
  else addLoop (2 * height node + 2) node path none numParams handler

/-! ### Looking a path up -/

/-- What `pgrest_rtree_find` leaves: its result, `*handler`, and the filled part of `params`. -/
structure Lookup (α : Type) where
  found : Bool
  handler : Option α
  params : List Param
deriving DecidableEq, Repr

theorem height_lt {child node : Node α} (h : child ∈ node.children) : height child < height node := by
  obtain ⟨_, _, _, _, _, children, _, _⟩ := node
  simp only at h
  simp only [height]
  induction children with
  | nil => cases h
  | cons c cs ih =>
    simp only [heights]
    rcases List.mem_cons.mp h with rfl | h
    · omega
    · have := ih h
      omega

/-- `pgrest_rtree_find`: `maxParams` is the capacity of `params`, whose filled
part is `params`, and `handler` is what `*handler` held before. -/
def find (node : Node α) (path : Bytes) (maxParams : Nat) (params : List Param) (handler : Option α) :
    Option (Lookup α) :=
  if path.length > node.path.length then
    if strncmp path node.path node.path.length then
      match path.drop node.path.length with
      | [] => none
      | c :: tail =>
        if !node.wildChild then
          match node.indices.findIdx? (· == c) with
          | none => some ⟨false, handler, params⟩
          | some i =>
            match _h : node.children[i]? with
            | none => none
            | some child => find child (c :: tail) maxParams params handler
        else if params.length = maxParams then some ⟨false, handler, params⟩
        else
          match _h : node.children[0]? with
          | none => none
          | some child =>
            match child.type with
            | .catchall => some ⟨true, child.handler, params ++ [⟨child.path.drop 2, c :: tail⟩]⟩
            | .param =>
              let value := (c :: tail).takeWhile (· != slash)
              let rest := (c :: tail).dropWhile (· != slash)
              let params := params ++ [⟨child.path.drop 1, value⟩]
              if rest.isEmpty then some ⟨true, child.handler, params⟩
              else
                match _h' : child.children[0]? with
                | none => some ⟨false, handler, params⟩
                | some next => find next rest maxParams params handler
            | _ => some ⟨false, handler, params⟩
    else some ⟨false, handler, params⟩
  else if path.length = node.path.length && strncmp path node.path path.length then
    -- we should have reached the node containing the handler
    some ⟨true, node.handler, params⟩
  else some ⟨false, handler, params⟩
termination_by height node
decreasing_by
  · exact height_lt (List.mem_of_getElem? _h)
  · exact Nat.lt_trans (height_lt (List.mem_of_getElem? _h')) (height_lt (List.mem_of_getElem? _h))

/-- A route table built by adding the pairs one after the other: the tree, and the
pairs whose `add` returned true. -/
def addAll (node : Node α) : List (Bytes × α) → Option (Node α × List (Bytes × α))
  | [] => some (node, [])
  | (path, handler) :: pairs =>
    (add node path (some handler)).bind fun (ok, node) =>
      (addAll node pairs).map fun (node, accepted) =>
        (node, if ok then (path, handler) :: accepted else accepted)

end PgRest.Rtree
