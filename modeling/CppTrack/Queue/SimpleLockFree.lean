import CppTrack.Lib.Threads
import Mathlib.Algebra.Group.Nat.Defs

/-!
# The simple lock-free queue (`SimpleLockFreeQueue.h`)

A linked list of nodes. `head` points to the first, with a bit that says whether its item
was consumed already; `tail` points to the last. A node that leaves the list goes to a free
list, and the pointer it is next known by has a version one higher.

An `idx_t` is a word of three fields that are only ever taken apart by masks: bits 40 to 63
are the version, bits 1 to 39 the number of the node, bit 0 the consumed flag. It is kept as
a record. Blocks of nodes are found by the node's number alone and are left out. Every
access to a shared variable, to a node's `next` or to its item is a move of its own; a weak
compare-and-swap may also fail for no reason. An item is taken by copying it.

An item carries the number of the call that enqueued it, which the source does not know.
The fields of `Ghost` are not in the source either: what was enqueued and returned, and the
books that the proof keeps.
-/

namespace CppTrack.SimpleQueue

open Lib

/-- `idx_t`. -/
structure Idx where
  version : Nat
  node : Nat
  consumed : Bool
  deriving DecidableEq

/-- `0`. -/
def Idx.null : Idx := ⟨0, 0, false⟩

/-- `set_consumed_flag`. -/
def setConsumedFlag (i : Idx) : Idx := { i with consumed := true }

/-- `clear_consumed_flag`. -/
def clearConsumedFlag (i : Idx) : Idx := { i with consumed := false }

/-- `(head & ~VERSION_MASK) | ((head + VERSION_INCR) & VERSION_MASK)`. -/
def incrVersion (i : Idx) : Idx := { i with version := (i.version + 1) % 2 ^ 24 }

/-- The word `k << BLOCK_SHIFT`. -/
def idxOfCount (k : Nat) : Idx :=
  { version := k / 2 ^ 39 % 2 ^ 24, node := k % 2 ^ 39, consumed := false }

/-- An item, and the number of the call that enqueued it. -/
abbrev Item (α : Type) := Nat × α

/-- Who a node belongs to. -/
inductive Place
  | unused
  | producer (t : Nat)
  | queue
  | consumer (t : Nat)
  | free
  deriving DecidableEq

/-- Who has the right to an item. -/
inductive Owner
  | nobody
  | thread (t : Nat)
  | node (n : Nat)
  | returned
  deriving DecidableEq

/-- What happened, and the books. -/
structure Ghost (α : Type) where
  enqueued : List (Item α)
  returned : List (Item α)
  /-- the nodes of the queue after the first, and those of the free list -/
  rest : List Idx
  free : List Idx
  /-- the nodes that have left the queue -/
  gone : List Idx
  place : Nat → Place
  /-- how often a node came from the free list -/
  reuses : Nat → Nat
  owner : Nat → Owner
  /-- the thread that has yet to store a node's `next`, and what it will store -/
  linker : Nat → Option (Nat × Idx)

/-- `SimpleLockFreeQueue`. `nextNode` is `nextNodeIdx >> BLOCK_SHIFT`. -/
structure Shared (α : Type) extends Ghost α where
  nextNode : Nat
  head : Idx
  tail : Idx
  freeListHead : Idx
  next : Nat → Idx
  item : Nat → Option (Item α)

/-- Where a thread is, with its local variables: what it does next. -/
inductive Pc (α : Type)
  | idle
  /-- `try_get_node_from_free_list`: `head = freeListHead` -/
  | popLoad (e : Item α)
  /-- `get_node_at(head)->next` -/
  | popNext (e : Item α) (head : Idx)
  /-- `freeListHead.compare_exchange_weak(head, next)` -/
  | popSwap (e : Item α) (head next : Idx)
  /-- `new_node_address`: `nextNodeIdx.fetch_add` -/
  | newNode (e : Item α)
  /-- `node->next = 0` -/
  | clearNext (e : Item α) (idx : Idx)
  /-- `new (node->item()) T(item)` -/
  | fill (e : Item α) (idx : Idx)
  /-- `enqueue`: `tail_ = tail` -/
  | loadTail (e : Item α) (idx : Idx)
  /-- `tail.compare_exchange_weak(tail_, nodeIdx)` -/
  | swapTail (e : Item α) (idx tail : Idx)
  /-- `get_node_at(tail_)->next = nodeIdx` -/
  | link (idx tail : Idx)
  /-- `try_dequeue`: `rawHead_ = head` -/
  | loadHead
  /-- `headNode->next` -/
  | loadNext (raw : Idx)
  /-- `head.compare_exchange_strong(head_, set_consumed_flag(head_))` -/
  | mark (raw : Idx)
  /-- `item = *headNode->item()`, after the flag was set -/
  | take (raw : Idx)
  /-- `head.compare_exchange_weak(rawHead_, next)` -/
  | advance (raw next : Idx)
  /-- `item = *headNode->item()`, after the head was moved -/
  | read (raw : Idx)
  /-- `add_node_to_free_list`: `head = freeListHead` -/
  | pushLoad (raw : Idx) (got : Option (Item α))
  /-- `node->next = head` -/
  | pushNext (raw head : Idx) (got : Option (Item α))
  /-- `freeListHead.compare_exchange_weak(head, idx)` -/
  | pushSwap (raw head : Idx) (got : Option (Item α))

/-- A thread begins a call, goes on with it, or has a weak compare-and-swap fail. -/
inductive Act (α : Type)
  | enqueue (x : α)
  | tryDequeue
  | go
  | fail

section

variable {α : Type}

/-- The loop of `try_get_node_from_free_list` goes on with what was in `freeListHead`. -/
def popFrom (e : Item α) (head : Idx) : Pc α := if head = .null then .newNode e else .popNext e head

/-- `try_dequeue` returns `true`. -/
def Shared.give (g : Shared α) (e : Item α) : Shared α :=
  { g with
    returned := g.returned ++ [e]
    owner := Function.update g.owner e.1 .returned }

/-- One move of a thread. -/
def act (t : Nat) (g : Shared α) : Pc α → Act α → Option (Shared α × Pc α)
  | .idle, .enqueue x =>
      let e := (g.enqueued.length, x)
      some ({ g with
        enqueued := g.enqueued ++ [e]
        owner := Function.update g.owner e.1 (.thread t) }, .popLoad e)
  | .idle, .tryDequeue => some (g, .loadHead)
  | .popLoad e, .go => some (g, popFrom e g.freeListHead)
  | .popNext e head, .go => some (g, .popSwap e head (g.next head.node))
  | .popSwap e head next, .go =>
      if g.freeListHead = head then
        some ({ g with
          freeListHead := next
          free := g.free.tail
          place := Function.update g.place head.node (.producer t)
          reuses := Function.update g.reuses head.node (g.reuses head.node + 1) },
          .clearNext e (incrVersion head))
      else some (g, popFrom e g.freeListHead)
  | .popSwap e _ _, .fail => some (g, popFrom e g.freeListHead)
  | .newNode e, .go =>
      let idx := idxOfCount g.nextNode
      some ({ g with
        nextNode := g.nextNode + 1
        place := Function.update g.place idx.node (.producer t) }, .clearNext e idx)
  | .clearNext e idx, .go =>
      some ({ g with next := Function.update g.next idx.node .null }, .fill e idx)
  | .fill e idx, .go =>
      some ({ g with item := Function.update g.item idx.node (some e) }, .loadTail e idx)
  | .loadTail e idx, .go => some (g, .swapTail e idx g.tail)
  | .swapTail e idx tail, .go =>
      if g.tail = tail then
        some ({ g with
          tail := idx
          rest := g.rest ++ [idx]
          place := Function.update g.place idx.node .queue
          owner := Function.update g.owner e.1 (.node idx.node)
          linker := Function.update g.linker tail.node (some (t, idx)) }, .link idx tail)
      else some (g, .swapTail e idx g.tail)
  | .swapTail e idx _, .fail => some (g, .swapTail e idx g.tail)
  | .link idx tail, .go =>
      some ({ g with
        next := Function.update g.next tail.node idx
        linker := Function.update g.linker tail.node none }, .idle)
  | .loadHead, .go => some (g, .loadNext g.head)
  | .loadNext raw, .go =>
      let next := g.next raw.node
      if next = .null then
        if raw.consumed then some (g, .idle) else some (g, .mark raw)
      else some (g, .advance raw next)
  | .mark raw, .go =>
      if g.head = clearConsumedFlag raw then
        match g.item raw.node with
        | some e => some ({ g with
            head := setConsumedFlag raw
            owner := Function.update g.owner e.1 (.thread t) }, .take raw)
        | none => none
      else some (g, .loadHead)
  | .take raw, .go => (g.item raw.node).map fun e => (g.give e, .idle)
  | .advance raw next, .go =>
      if g.head = raw then
        let g' := { g with
          head := next
          rest := g.rest.tail
          gone := clearConsumedFlag raw :: g.gone
          place := Function.update g.place raw.node (.consumer t) }
        if raw.consumed then some (g', .pushLoad raw none)
        else (g.item raw.node).map fun e =>
          ({ g' with owner := Function.update g.owner e.1 (.thread t) }, .read raw)
      else some (g, .loadHead)
  | .advance _ _, .fail => some (g, .loadHead)
  | .read raw, .go => (g.item raw.node).map fun e => (g, .pushLoad raw (some e))
  | .pushLoad raw got, .go => some (g, .pushNext raw g.freeListHead got)
  | .pushNext raw head got, .go =>
      some ({ g with next := Function.update g.next raw.node head }, .pushSwap raw head got)
  | .pushSwap raw head got, .go =>
      if g.freeListHead = head then
        let g' := { g with
          freeListHead := clearConsumedFlag raw
          free := clearConsumedFlag raw :: g.free
          place := Function.update g.place raw.node .free }
        match got with
        | some e => some (g'.give e, .idle)
        | none => some (g', .loadHead)
      else some (g, .pushNext raw g.freeListHead got)
  | .pushSwap raw _ got, .fail => some (g, .pushNext raw g.freeListHead got)
  | _, _ => none

-- Where no compare-and-swap is made none fails. Proved here, where it makes the equations of `act`
-- once: the proofs that need them do not wait for each other.
example (t : Nat) (g : Shared α) : act t g .idle .fail = none := by simp only [act]

/-- The constructor: one node, consumed already. -/
def start : Threads (Shared α) (Pc α) where
  shared :=
    { nextNode := 2, head := setConsumedFlag (idxOfCount 1), tail := idxOfCount 1,
      freeListHead := .null, next := fun _ => .null, item := fun _ => none,
      enqueued := [], returned := [], rest := [], free := [], gone := [],
      place := Function.update (fun _ => .unused) 1 .queue, reuses := fun _ => 0,
      owner := fun _ => .nobody, linker := fun _ => none }
  pc := fun _ => .idle

/-- The threads make these moves, in this order. -/
def runs (moves : List (Nat × Act α)) : Option (Threads (Shared α) (Pc α)) :=
  run (Threads.step act) start moves

/-- Every value returned was enqueued, and none twice. -/
def Delivered (g : Shared α) : Prop :=
  (∀ e ∈ g.returned, e ∈ g.enqueued) ∧ (g.returned.map Prod.fst).Nodup

end

end CppTrack.SimpleQueue
