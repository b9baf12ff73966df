import CppTrack.Locks.TaskGraph

/-!
# The hooks around the mutex

Every `pthread_mutex_lock` is preceded by `lock_before` and followed by `lock_after`, and
every `pthread_mutex_unlock` is followed by `unlock_after`. They keep a table of the locks
with their holders, and from it the edges of the task graph.

An access to the table outside its `MAX` entries is `none`.
-/

namespace CppTrack.Locks

/-- `struct source_type` of `locklist`. -/
structure Lock where
  id : Nat
  lockId : Nat
  degress : Int
  deriving DecidableEq

/-- `struct task_graph`. -/
structure TaskGraph where
  graph : Graph
  locklist : Nat → Lock
  lockidx : Nat

/-- The graph as `start_check` leaves it in memory that was zero. -/
def emptyTaskGraph : TaskGraph := ⟨emptyGraph, fun _ => ⟨0, 0, 0⟩, 0⟩

/-- The first of `n` entries from `i` on that passes the test, with `none` for none. -/
def scan (locklist : Nat → Lock) (p : Lock → Bool) : (n i : Nat) → Option (Option Nat)
  | 0, _ => some none
  | n + 1, i =>
      if i < maxVertices then
        if p (locklist i) then some (some i) else scan locklist p n (i + 1)
      else none

/-- `search_lock`, with `none` for -1. -/
def searchLock (tg : TaskGraph) (lock : Nat) : Option (Option Nat) :=
  scan tg.locklist (fun l => l.lockId = lock) tg.lockidx 0

/-- `search_empty_lock`. -/
def searchEmptyLock (tg : TaskGraph) : Option Nat :=
  (scan tg.locklist (fun l => l.lockId = 0) tg.lockidx 0).map fun idx => idx.getD tg.lockidx

/-- Write the entry `idx`. -/
def TaskGraph.setLock (tg : TaskGraph) (idx : Nat) (l : Lock) : TaskGraph :=
  { tg with locklist := Function.update tg.locklist idx l }

/-- One turn of the loop of `lock_before`. -/
def beforeEntry (threadId lockaddr : Nat) (tg : TaskGraph) (idx : Nat) : Option TaskGraph :=
  if idx < maxVertices then
    let l := tg.locklist idx
    if l.lockId = lockaddr then do
      let src := task threadId
      let dst := task l.id
      let g ← addVertex tg.graph src
      let tg := tg.setLock idx { l with degress := l.degress + 1 }
      let g ← addVertex g dst
      if verifyEdge g src dst then some { tg with graph := g }
      else (addEdge g src dst).map fun g => { tg with graph := g }
    else some tg
  else none

/-- `lock_before`. -/
def lockBefore (tg : TaskGraph) (threadId lockaddr : Nat) : Option TaskGraph :=
  (List.range tg.lockidx).foldlM (beforeEntry threadId lockaddr) tg

/-- `lock_after`. -/
def lockAfter (tg : TaskGraph) (threadId lockaddr : Nat) : Option TaskGraph := do
  match ← searchLock tg lockaddr with
  | none =>
      let eidx ← searchEmptyLock tg
      if eidx < maxVertices then
        let tg := tg.setLock eidx { tg.locklist eidx with id := threadId, lockId := lockaddr }
        -- also where the entry is not a new one
        some { tg with lockidx := tg.lockidx + 1 }
      else none
  | some idx =>
      let l := tg.locklist idx
      let src := task threadId
      let dst := task l.id
      let g := if verifyEdge tg.graph src dst then removeEdge tg.graph src dst else tg.graph
      some { tg.setLock idx { l with degress := l.degress - 1, id := threadId } with graph := g }

/-- `unlock_after`. It does not look at the thread. -/
def unlockAfter (tg : TaskGraph) (lockaddr : Nat) : Option TaskGraph := do
  match ← searchLock tg lockaddr with
  | none => none
  | some idx =>
      let l := tg.locklist idx
      if l.degress = 0 then some (tg.setLock idx { l with id := 0, lockId := 0 }) else some tg

end CppTrack.Locks
