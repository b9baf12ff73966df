import Mathlib.Data.List.Basic
import Mathlib.Logic.Function.Basic

/-!
# The task graph

A vertex is a task or a resource, and each has the list of those it waits for. The array of
vertices is as long as `num` says, and a vertex more than `MAX` is `none`.

The search for a cycle keeps three globals: `visited`, the stack `path` with its height `k`,
and the verdict `deadlock`. Whatever touches `path` outside its `MAX + 1` entries, or takes
`k` below 0, is `none` too.
-/

namespace CppTrack.Locks

/-- `enum Type`. -/
inductive SourceType
  | process
  | resource
  deriving DecidableEq

/-- `struct source_type` of a vertex. -/
structure Source where
  id : Nat
  type : SourceType
  deriving DecidableEq

/-- The task of a thread. -/
def task (id : Nat) : Source := ⟨id, .process⟩

/-- `struct vertex` of the array, with the vertices behind its `next`. -/
structure Vertex where
  s : Source
  next : List Source
  deriving DecidableEq

/-- `MAX`. -/
def maxVertices : Nat := 100

/-- `tg->list`, up to `tg->num`. -/
structure Graph where
  list : List Vertex

/-- `search_vertex`, with `none` for -1. -/
def searchVertex (g : Graph) (type : Source) : Option Nat :=
  g.list.findIdx? fun v => v.s.type = type.type ∧ v.s.id = type.id

/-- `add_vertex`. -/
def addVertex (g : Graph) (type : Source) : Option Graph :=
  if (searchVertex g type).isNone then
    if g.list.length < maxVertices then some ⟨g.list ++ [⟨type, []⟩]⟩ else none
  else some g

/-- `add_edge`. The new edge goes to the end of the list. -/
def addEdge (g : Graph) (src dst : Source) : Option Graph := do
  let g ← addVertex g src
  let g ← addVertex g dst
  let idx ← searchVertex g src
  some ⟨g.list.modify idx fun v => { v with next := v.next ++ [dst] }⟩

/-- `verify_edge`, which starts at the vertex itself and compares nothing but the ids. -/
def verifyEdge (g : Graph) (i j : Source) : Bool :=
  match (searchVertex g i).bind (g.list[·]?) with
  | none => false
  | some v => (v.s :: v.next).any fun w => w.id = j.id

/-- `remove_edge`. The first edge with the id goes. -/
def removeEdge (g : Graph) (src dst : Source) : Graph :=
  match searchVertex g src, searchVertex g dst with
  | some idx, some _ =>
      ⟨g.list.modify idx fun v => { v with next := v.next.eraseP fun w => w.id = dst.id }⟩
  | _, _ => g

inductive GraphOp
  | vertex (type : Source)
  | edge (src dst : Source)
  | remove (src dst : Source)

def graphStep (g : Graph) : GraphOp → Option Graph
  | .vertex type => addVertex g type
  | .edge src dst => addEdge g src dst
  | .remove src dst => some (removeEdge g src dst)

def emptyGraph : Graph := ⟨[]⟩

/-! ## The search -/

/-- The globals, where an entry -1 of `path` is `none`, and what was printed. -/
structure Search where
  visited : Nat → Bool
  path : Nat → Option Nat
  k : Nat
  deadlock : Bool
  out : List (List Nat)

/-- `path[k++] = idx`. -/
def Search.push (s : Search) (idx : Nat) : Option Search :=
  if s.k ≤ maxVertices then
    some { s with path := Function.update s.path s.k (some idx), k := s.k + 1 }
  else none

/-- `k--`. -/
def Search.pop (s : Search) : Option Search :=
  if s.k = 0 then none else some { s with k := s.k - 1 }

/-- The ids that `print_deadlock` prints. -/
def printDeadlock (g : Graph) (s : Search) : Option (List Nat) :=
  (List.range s.k).mapM fun i => ((s.path i).bind (g.list[·]?)).map (·.s.id)

/-- `DFS`, at most `fuel` calls deep. -/
def dfs (g : Graph) : (fuel : Nat) → (idx : Nat) → Search → Option Search
  | 0, _, _ => none
  | fuel + 1, idx, s => do
      let ver ← g.list[idx]?
      if s.visited idx then
        let s ← s.push idx
        let line ← printDeadlock g s
        some { s with out := s.out ++ [line], deadlock := true }
      else
        let s ← { s with visited := Function.update s.visited idx true }.push idx
        ver.next.foldlM (fun s next => do
          let i ← searchVertex g next
          let s ← dfs g fuel i s
          s.pop) s

/-- Before each edge of `idx` the marks of the others are taken back. -/
def Search.restart (s : Search) (g : Graph) (idx : Nat) : Search :=
  { s with
    visited := fun i => if i < g.list.length ∧ i ≠ idx then false else s.visited i
    path := fun i => if 1 ≤ i ∧ i ≤ maxVertices then none else s.path i
    k := 1 }

/-- `search_for_cycle`. -/
def searchForCycle (g : Graph) (fuel idx : Nat) (s : Search) : Option Search := do
  let ver ← g.list[idx]?
  let s ← { s with visited := Function.update s.visited idx true, k := 0 }.push idx
  ver.next.foldlM (fun s next => do
    let i ← searchVertex g next
    dfs g fuel i (s.restart g idx)) s

/-- `check_dead_lock`. -/
def checkDeadLock (g : Graph) (fuel : Nat) (s : Search) : Option Search :=
  (List.range g.list.length).foldlM
    (fun s i => if s.deadlock then some s else searchForCycle g fuel i s)
    { s with deadlock := false }

end CppTrack.Locks
