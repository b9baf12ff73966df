import Mathlib.Algebra.Group.Nat.Defs
import Mathlib.Data.List.Basic
import CppTrack.Lib.Heap
import CppTrack.Lib.Run

/-!
# The timers' skip list (`skiplist.c`)

Nodes are records of a heap. A node is allocated with room for as many `forward`
pointers as its level says, and none of them is written by the allocation; `none` is a
read or a write beyond that room, a read of a pointer never written, or any access
through a pointer to no node. The level of a new node is drawn at random in the source
and is an argument here. `length` is an `int`, whose overflow C leaves undefined: it is
taken to wrap.
-/

namespace CppTrack.SkipList

open Lib

/-- `ZSKIPLIST_MAXLEVEL`. -/
def maxLevel : Nat := 32

/-- `zskiplistNode`. A pointer is `some none` when it is `NULL`. -/
structure ZskiplistNode where
  score : Nat
  handler : Nat
  levels : Nat
  forward : Nat → Option (Option Nat)

abbrev NodeHeap := Heap ZskiplistNode

/-- `zskiplist`, with the memory its nodes are in. -/
structure Zskiplist where
  heap : NodeHeap
  header : Nat
  length : Int32
  level : Nat

/-- `x->level[i].forward`. -/
def forward (h : NodeHeap) (x i : Nat) : Option (Option Nat) :=
  (h.get x).bind fun n => if i < n.levels then n.forward i else none

/-- `x->level[i].forward = y`. -/
def setForward (h : NodeHeap) (x i : Nat) (y : Option Nat) : Option NodeHeap :=
  (h.get x).bind fun n =>
    if i < n.levels then some (h.put x { n with forward := Function.update n.forward i (some y) })
    else none

/-- `x->score`. -/
def score (h : NodeHeap) (x : Nat) : Option Nat := (h.get x).map ZskiplistNode.score

/-- `zslCreateNode`. -/
def zslCreateNode (h : NodeHeap) (level score handler : Nat) : Nat × NodeHeap :=
  h.alloc { score := score, handler := handler, levels := level, forward := fun _ => none }

/-- `defaultHandler`. -/
def defaultHandler : Nat := 0

/-- `zslCreate`. -/
def zslCreate : Option Zskiplist := do
  let (header, h) := zslCreateNode Heap.empty maxLevel 0 defaultHandler
  let h ← forUp (fun j h => setForward h header j none) 0 maxLevel h
  some { heap := h, header := header, length := 0, level := 1 }

/-- The inner loop of the search, on level `i`. -/
def advance (h : NodeHeap) (sc i : Nat) : (fuel x : Nat) → Option Nat
  | 0, _ => none
  | fuel + 1, x => do
      match ← forward h x i with
      | none => some x
      | some y =>
          let sy ← score h y
          if sy < sc then advance h sc i fuel y else some x

/-- The search that `zslInsert` and `zslDelete` begin with. It fills `update`. -/
def search (s : Zskiplist) (sc : Nat) : Option (Nat × (Nat → Option Nat)) :=
  forDown (fun i st => (advance s.heap sc i s.heap.next st.1).map
    fun x => (x, Function.update st.2 i (some x))) 0 s.level (s.header, fun _ => none)

/-- `zslInsert`, with the level `zslRandomLevel` draws. -/
def zslInsert (s : Zskiplist) (level sc handler : Nat) : Option (Nat × Zskiplist) := do
  let (_, update) ← search s sc
  let update := fun i => if s.level ≤ i ∧ i < level then some s.header else update i
  let top := if s.level < level then level else s.level
  let (x, h) := zslCreateNode s.heap level sc handler
  let h ← forUp (fun i h => do
    let u ← update i
    let h ← setForward h x i (← forward h u i)
    setForward h u i (some x)) 0 level h
  some (x, { s with heap := h, level := top, length := s.length + 1 })

/-- `zslMin`. -/
def zslMin (s : Zskiplist) : Option (Option Nat) := forward s.heap s.header 0

/-- `if (u->level[i].forward == x) u->level[i].forward = x->level[i].forward`. -/
def unlinkAt (x u i : Nat) (h : NodeHeap) : Option NodeHeap := do
  if (← forward h u i) = some x then setForward h u i (← forward h x i) else some h

/-- `while (level > 1 && header->level[level - 1].forward == NULL) level--`. -/
def lowerLevel (h : NodeHeap) (header : Nat) : Nat → Option Nat
  | 0 => some 0
  | level + 1 =>
      if level + 1 > 1 then do
        if (← forward h header level) = none then lowerLevel h header level
        else some (level + 1)
      else some (level + 1)

/-- `zslDeleteHead`. -/
def zslDeleteHead (s : Zskiplist) : Option Zskiplist := do
  match ← zslMin s with
  | none => some s
  | some x =>
      let h ← forDown (unlinkAt x s.header) 0 s.level s.heap
      let level ← lowerLevel h s.header s.level
      some { s with heap := h, level := level, length := s.length - 1 }

/-- `zslDeleteNode`. -/
def zslDeleteNode (s : Zskiplist) (x : Nat) (update : Nat → Option Nat) : Option Zskiplist := do
  let h ← forUp (fun i h => do unlinkAt x (← update i) i h) 0 s.level s.heap
  let level ← lowerLevel h s.header s.level
  some { s with heap := h, level := level, length := s.length - 1 }

/-- `zslDelete`. -/
def zslDelete (s : Zskiplist) (zn : Nat) : Option Zskiplist := do
  let sc ← score s.heap zn
  let (x, update) ← search s sc
  match ← forward s.heap x 0 with
  | none => some s
  | some x =>
      if sc = (← score s.heap x) then do
        let s ← zslDeleteNode s x update
        let h ← s.heap.free x
        some { s with heap := h }
      else some s

/-! ## What is in the list -/

def readChain (h : NodeHeap) (i : Nat) : (fuel x : Nat) → Option (List Nat)
  | 0, _ => none
  | fuel + 1, x => do
      match ← forward h x i with
      | none => some []
      | some y => (readChain h i fuel y).map (y :: ·)

/-- The nodes of level `i`, found by following the pointers from the header. -/
def Zskiplist.chain (s : Zskiplist) (i : Nat) : Option (List Nat) :=
  readChain s.heap i s.heap.next s.header

/-- The scores and handlers of the nodes of level 0, in order. -/
def Zskiplist.contents (s : Zskiplist) : Option (List (Nat × Nat)) :=
  (s.chain 0).map fun xs => xs.filterMap fun x =>
    (s.heap.get x).map fun n => (n.score, n.handler)

/-! ## Histories -/

/-- One call; `level` is what the call drew. -/
inductive Op
  | insert (level sc handler : Nat)
  | delete (zn : Nat)
  | deleteHead

def step (s : Zskiplist) : Op → Option Zskiplist
  | .insert level sc handler => (zslInsert s level sc handler).map Prod.snd
  | .delete zn => zslDelete s zn
  | .deleteHead => zslDeleteHead s

end CppTrack.SkipList
