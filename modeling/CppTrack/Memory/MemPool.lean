import CppTrack.Lib.Alloc
import CppTrack.Lib.Word

/-!
# The memory pool

A pool is one allocation that starts with `mp_pool_s` and the head `mp_node_s`, and a chain
of further blocks, each with a node of its own. Small requests are cut off the blocks from
the bottom up, large ones go to `malloc` and are kept on a list whose records are cut off
the blocks too.

The chain is kept as the list of its nodes, head first, and `current` as a position in it.
What is not a list is its end: `mp_create_pool` does not write the `next` of the head, so
that is whatever the memory held (`junk`), and to follow it when it is not null is `none`.
So is a write outside the block a pointer was cut off, and giving back what is not handed
out.
-/

namespace CppTrack.Memory

open Lib

/-- `sizeof(struct mp_pool_s)`, `sizeof(struct mp_node_s)` and `sizeof(struct mp_large_s)`. -/
def sizeofPool : Nat := 24
def sizeofNode : Nat := 32
def sizeofLarge : Nat := 16

/-- `MP_ALIGNMENT`. -/
def mpAlignment : Nat := 32

/-- `MP_MAX_ALLOC_FROM_POOL`. -/
def mpMaxAllocFromPool : Nat := 4096 - 1

/-- `malloc` aligns for any type. -/
def mallocAlignment : Nat := 16

/-- `mp_align_ptr` with `MP_ALIGNMENT`, where the mask rounds down. -/
def mpAlignPtr (p : Nat) : Nat := addU64 p (mpAlignment - 1) / mpAlignment * mpAlignment

/-- `mp_node_s` at `addr`. -/
structure Node where
  addr : Nat
  last : Nat
  end_ : Nat
  failed : Nat

/-- `mp_large_s` at `addr`. -/
structure Large where
  addr : Nat
  alloc : Nat

/-- `mp_pool_s` at `addr`, where `next` is what the last of the nodes says. -/
structure Pool where
  addr : Nat
  max : Nat
  current : Nat
  large : List Large
  nodes : List Node
  next : Nat

/--
A pool, the allocator, and two histories: the regions cut off the blocks since the last
reset, and what `mp_alloc` and `mp_calloc` returned.
-/
structure State where
  pool : Pool
  calls : Nat
  live : List Region
  handed : List Region
  results : List Nat

/-- A pointer, with the end of the memory it was cut off. -/
structure Ptr where
  addr : Nat
  bound : Nat

def null : Ptr := ⟨0, 0⟩

/-- `size` bytes may be written at the pointer. -/
def Ptr.Writable (p : Ptr) (size : Nat) : Prop := size = 0 ∨ p.addr + size ≤ p.bound

instance (p : Ptr) (size : Nat) : Decidable (p.Writable size) := inferInstanceAs (Decidable (_ ∨ _))

/-- Ask the allocator. -/
def request (M : Malloc) (s : State) (align size : Nat) : Option (Nat × State) :=
  (M.take s.calls s.live align size).map fun p =>
    (p, { s with calls := s.calls + 1, live := handOut s.live p size })

/-- The allocator had nothing. -/
def State.refused (s : State) : State := { s with calls := s.calls + 1 }

/-- `mp_create_pool`, where the inner `none` is the null pointer. -/
def mpCreatePool (M : Malloc) (junk size : Nat) : Option (Option State) :=
  let psize := addU64 (addU64 size sizeofPool) sizeofNode
  match M.take 0 [] mpAlignment psize with
  | none => some none
  | some p =>
      -- the two headers are written whatever came out for the size
      if sizeofPool + sizeofNode ≤ psize then
        some (some
          { pool :=
              { addr := p
                max := if size < mpMaxAllocFromPool then size else mpMaxAllocFromPool
                current := 0
                large := []
                nodes :=
                  [{ addr := p + sizeofPool
                     last := p + sizeofPool + sizeofNode
                     end_ := p + sizeofPool + sizeofNode + size
                     failed := 0 }]
                next := junk }
            calls := 1
            live := handOut [] p psize
            handed := []
            results := [] })
      else none

/-! ## Small requests -/

/-- The test of a node: the room behind `f last` is enough for `size`. -/
def Node.room (f : Nat → Nat) (size : Nat) (b : Node) : Bool := size ≤ subU64 b.end_ (f b.last)

/-- The walk over the nodes of `mp_alloc` and `mp_nalloc`. -/
def walk (f : Nat → Nat) (size : Nat) : List Node → Option (Ptr × List Node)
  | [] => none
  | b :: bs =>
      if b.room f size then
        some (⟨f b.last, b.end_⟩, { b with last := addU64 (f b.last) size } :: bs)
      else (walk f size bs).map fun x => (x.1, b :: x.2)

/-- The loop of `mp_alloc_block`, which is at node `i`: the nodes up to the last but one failed
once more, and `current` moves on behind those that fail too often. -/
def passOver : (i current : Nat) → List Node → Nat × List Node
  | i, current, b :: c :: bs =>
      let x := passOver (i + 1) (if b.failed > 4 then i + 1 else current) (c :: bs)
      (x.1, { b with failed := b.failed + 1 } :: x.2)
  | _, current, bs => (current, bs)

/-- `mp_alloc_block`. -/
def mpAllocBlock (M : Malloc) (size : Nat) (s : State) : Option (Ptr × State) :=
  match s.pool.nodes with
  | [] => none
  | head :: _ =>
      let psize := subU64 head.end_ head.addr
      match request M s mpAlignment psize with
      | none => some (null, s.refused)
      | some (m, s) =>
          if s.pool.next = 0 then
            let start := mpAlignPtr (m + sizeofNode)
            let x := passOver s.pool.current s.pool.current (s.pool.nodes.drop s.pool.current)
            some (⟨start, m + psize⟩,
              { s with
                pool :=
                  { s.pool with
                    current := x.1
                    nodes := s.pool.nodes.take s.pool.current ++ x.2 ++
                      [{ addr := m, last := addU64 start size, end_ := m + psize, failed := 0 }] }
                handed := ⟨start, size⟩ :: s.handed })
          else none

/-- What `mp_alloc` and `mp_nalloc` do for a size up to `max`. -/
def fromBlocks (M : Malloc) (f : Nat → Nat) (size : Nat) (s : State) : Option (Ptr × State) :=
  match walk f size (s.pool.nodes.drop s.pool.current) with
  | some (m, bs) =>
      some (m,
        { s with
          pool := { s.pool with nodes := s.pool.nodes.take s.pool.current ++ bs }
          handed := ⟨m.addr, size⟩ :: s.handed })
  | none => if s.pool.next = 0 then mpAllocBlock M size s else none

/-! ## Large requests -/

/-- The record of a large allocation, which comes from `mp_alloc`. When a record is itself too
large for the blocks, that call needs another, without end. -/
def newRecord (M : Malloc) (p : Nat) (s : State) : Option (Nat × State) :=
  if sizeofLarge ≤ s.pool.max then
    (fromBlocks M mpAlignPtr sizeofLarge s).bind fun (r, s) =>
      if r.addr = 0 then (free s.live p).map fun live => (0, { s with live := live })
      else if r.Writable sizeofLarge then
        some (p, { s with pool := { s.pool with large := ⟨r.addr, p⟩ :: s.pool.large } })
      else none
  else none

/-- The first five records are searched for one that is not in use. -/
def reuse (p : Nat) : (n : Nat) → List Large → Option (List Large)
  | _, [] => none
  | n, l :: ls =>
      if l.alloc = 0 then some ({ l with alloc := p } :: ls)
      else if n > 3 then none
      else (reuse p (n + 1) ls).map (l :: ·)

/-- `mp_alloc_large`. -/
def mpAllocLarge (M : Malloc) (size : Nat) (s : State) : Option (Ptr × State) :=
  match request M s mallocAlignment size with
  | none => some (null, s.refused)
  | some (p, s) =>
      match reuse p 0 s.pool.large with
      | some large => some (⟨p, p + size⟩, { s with pool := { s.pool with large := large } })
      | none => (newRecord M p s).map fun x => (⟨x.1, x.1 + size⟩, x.2)

/-- `mp_memalign`. -/
def mpMemalign (M : Malloc) (size alignment : Nat) (s : State) : Option (Ptr × State) :=
  match request M s alignment size with
  | none => some (null, s.refused)
  | some (p, s) => (newRecord M p s).map fun x => (⟨x.1, x.1 + size⟩, x.2)

/-- `mp_alloc`. -/
def mpAlloc (M : Malloc) (size : Nat) (s : State) : Option (Ptr × State) :=
  if size ≤ s.pool.max then fromBlocks M mpAlignPtr size s else mpAllocLarge M size s

/-- `mp_nalloc`. -/
def mpNalloc (M : Malloc) (size : Nat) (s : State) : Option (Ptr × State) :=
  if size ≤ s.pool.max then fromBlocks M id size s else mpAllocLarge M size s

/-- `mp_calloc`. -/
def mpCalloc (M : Malloc) (size : Nat) (s : State) : Option (Ptr × State) :=
  (mpAlloc M size s).bind fun (p, s) =>
    if p.addr = 0 ∨ p.Writable size then some (p, s) else none

/-! ## Giving back -/

/-- `mp_free`. -/
def mpFree (p : Nat) (s : State) : Option State :=
  if s.pool.large.any fun l => l.alloc = p then
    (free s.live p).map fun live =>
      { s with
        live := live
        pool := { s.pool with
          large := s.pool.large.replaceF fun l =>
            if l.alloc = p then some { l with alloc := 0 } else none } }
  else some s

/-- The allocations on the list. -/
def Pool.allocs (pool : Pool) : List Nat := (pool.large.map Large.alloc).filter (· ≠ 0)

/-- `mp_reset_pool`. -/
def mpResetPool (s : State) : Option State :=
  (freeAll s.live s.pool.allocs).bind fun live =>
    if s.pool.next = 0 then
      some { s with
        live := live
        pool :=
          { s.pool with
            large := []
            nodes := s.pool.nodes.map fun h => { h with last := h.addr + sizeofNode } }
        handed := [] }
    else none

/-- `mp_destory_pool`. It leaves what is still handed out. -/
def mpDestoryPool (s : State) : Option (List Region) := do
  let live ← freeAll s.live s.pool.allocs
  if s.pool.next = 0 then
    let live ← freeAll live (s.pool.nodes.tail.map Node.addr)
    free live s.pool.addr
  else none

/-! ## Calls -/

inductive Call
  | alloc (size : Nat)
  | nalloc (size : Nat)
  | calloc (size : Nat)
  | memalign (size alignment : Nat)
  | free (p : Nat)
  | reset

/-- The result is noted down, if there is one. -/
def State.returned (s : State) (p : Ptr) : State :=
  { s with results := if p.addr = 0 then s.results else p.addr :: s.results }

def step (M : Malloc) (s : State) : Call → Option State
  | .alloc size => (mpAlloc M size s).map fun x => x.2.returned x.1
  | .nalloc size => (mpNalloc M size s).map Prod.snd
  | .calloc size => (mpCalloc M size s).map fun x => x.2.returned x.1
  | .memalign size alignment => (mpMemalign M size alignment s).map Prod.snd
  | .free p => mpFree p s
  | .reset => mpResetPool s

end CppTrack.Memory
