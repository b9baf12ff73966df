import CppTrack.Lib.Threads
import CppTrack.Lib.Word

/-!
# The array lock-free queue (`ArrayLockFreeQueueImp.h`)

Three indices count through an array taken modulo its size. A producer reserves a slot by
advancing `m_writeIndex`, fills it, and waits for its turn to advance
`m_maximumReadIndex` past it. A consumer copies the slot at `m_readIndex` and keeps the
copy if it is the one to advance that index.

Every load, store and compare-and-swap of a shared variable is a move of its own;
tests of local variables go with the load before them. `QUEUE_INT` is a 64-bit word.
The logs and flags of `Shared` are not in the source: they record what happened.
-/

namespace CppTrack.ArrayQueue

open Lib

/-- `ArrayLockFreeQueue`. -/
structure Queue (α : Type) where
  thequeue : Nat → α
  count : Nat
  writeIndex : Nat
  readIndex : Nat
  maximumReadIndex : Nat

/-- `countToIndex`. -/
def countToIndex (size count : Nat) : Nat := count % size

/-- The queue and what happened to it. -/
structure Shared (α : Type) extends Queue α where
  /-- the values enqueued, in the order of the CAS on `m_writeIndex` -/
  enqueued : List α
  /-- the values dequeued, in the order of the CAS on `m_readIndex` -/
  dequeued : List α
  /-- how many calls were begun -/
  calls : Nat
  /-- whether the queue was full, or empty, since a thread's call began -/
  sawFull : Nat → Bool
  sawEmpty : Nat → Bool
  /-- for every call that returned `false`, whether it had seen the queue full, or empty -/
  refusedFull : List Bool
  refusedEmpty : List Bool

/-- Where a thread is, with its local variables: what it does next. -/
inductive Pc (α : Type)
  | idle
  /-- `currentWriteIndex = m_writeIndex` -/
  | enqLoadWrite (a : α)
  /-- `currentReadIndex = m_readIndex`, and the test for a full queue -/
  | enqLoadRead (a : α) (w : Nat)
  /-- `CAS(&m_writeIndex, currentWriteIndex, currentWriteIndex + 1)` -/
  | enqCas (a : α) (w : Nat)
  /-- `m_thequeue[countToIndex(currentWriteIndex)] = a_data` -/
  | enqStore (a : α) (w : Nat)
  /-- `CAS(&m_maximumReadIndex, currentWriteIndex, currentWriteIndex + 1)` -/
  | enqCommit (w : Nat)
  /-- `AtomicAdd(&m_count, 1)` -/
  | enqCount
  /-- `currentReadIndex = m_readIndex` -/
  | deqLoadRead
  /-- `currentMaximumReadIndex = m_maximumReadIndex`, and the test for an empty queue -/
  | deqLoadMax (r : Nat)
  /-- `a_data = m_thequeue[countToIndex(currentReadIndex)]` -/
  | deqCopy (r : Nat)
  /-- `CAS(&m_readIndex, currentReadIndex, currentReadIndex + 1)` -/
  | deqCas (r : Nat) (a : α)
  /-- `AtomicSub(&m_count, 1)` -/
  | deqCount

/-- A thread begins a call, or goes on with it. -/
inductive Act (α : Type)
  | enqueue (a : α)
  | dequeue
  | go

section

variable {α : Type} (size : Nat)

/-- `m_writeIndex - m_readIndex = Q_SIZE - 1`. -/
def Shared.isFull (g : Shared α) : Bool := g.writeIndex + 1 == g.readIndex + size

/-- `m_readIndex = m_maximumReadIndex`. -/
def Shared.isEmpty (g : Shared α) : Bool := g.readIndex == g.maximumReadIndex

/-- Every thread takes note of the state it is in. -/
def Shared.observe (g : Shared α) : Shared α :=
  { g with
    sawFull := fun t => g.sawFull t || g.isFull size
    sawEmpty := fun t => g.sawEmpty t || g.isEmpty }

/-- A call begins: nothing was seen since. -/
def Shared.begin (g : Shared α) (t : Nat) : Shared α :=
  { g with
    calls := g.calls + 1
    sawFull := Function.update g.sawFull t false
    sawEmpty := Function.update g.sawEmpty t false }

/-- One move of a thread. -/
def act (t : Nat) (g : Shared α) : Pc α → Act α → Option (Shared α × Pc α)
  | .idle, .enqueue a => some (g.begin t, .enqLoadWrite a)
  | .idle, .dequeue => some (g.begin t, .deqLoadRead)
  | .enqLoadWrite a, .go => some (g, .enqLoadRead a g.writeIndex)
  | .enqLoadRead a w, .go =>
      let r := g.readIndex
      if countToIndex size (addU64 w 1) = countToIndex size r then
        some ({ g with refusedFull := g.sawFull t :: g.refusedFull }, .idle)
      else some (g, .enqCas a w)
  | .enqCas a w, .go =>
      if g.writeIndex = w then
        some ({ g with writeIndex := addU64 w 1, enqueued := g.enqueued ++ [a] }, .enqStore a w)
      else some (g, .enqLoadWrite a)
  | .enqStore a w, .go =>
      some ({ g with thequeue := Function.update g.thequeue (countToIndex size w) a },
        .enqCommit w)
  | .enqCommit w, .go =>
      if g.maximumReadIndex = w then
        some ({ g with maximumReadIndex := addU64 w 1 }, .enqCount)
      else some (g, .enqCommit w)
  | .enqCount, .go => some ({ g with count := addU64 g.count 1 }, .idle)
  | .deqLoadRead, .go => some (g, .deqLoadMax g.readIndex)
  | .deqLoadMax r, .go =>
      let m := g.maximumReadIndex
      if countToIndex size r = countToIndex size m then
        some ({ g with refusedEmpty := g.sawEmpty t :: g.refusedEmpty }, .idle)
      else some (g, .deqCopy r)
  | .deqCopy r, .go => some (g, .deqCas r (g.thequeue (countToIndex size r)))
  | .deqCas r a, .go =>
      if g.readIndex = r then
        some ({ g with readIndex := addU64 r 1, dequeued := g.dequeued ++ [a] }, .deqCount)
      else some (g, .deqLoadRead)
  | .deqCount, .go => some ({ g with count := subU64 g.count 1 }, .idle)
  | _, _ => none

def move (t : Nat) (g : Shared α) (p : Pc α) (i : Act α) : Option (Shared α × Pc α) :=
  (act size t g p i).map fun x => (x.1.observe size, x.2)

/-- The constructor, over memory that holds anything; nobody is calling. -/
def start (mem : Nat → α) : Threads (Shared α) (Pc α) where
  shared :=
    { thequeue := mem, count := 0, writeIndex := 0, readIndex := 0, maximumReadIndex := 0,
      enqueued := [], dequeued := [], calls := 0, sawFull := fun _ => false,
      sawEmpty := fun _ => true, refusedFull := [], refusedEmpty := [] }
  pc := fun _ => .idle

/-- The threads make these moves, in this order. -/
def runs (mem : Nat → α) (moves : List (Nat × Act α)) : Option (Threads (Shared α) (Pc α)) :=
  run (Threads.step (move size)) (start mem) moves

end

end CppTrack.ArrayQueue
