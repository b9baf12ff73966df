import Mathlib.Logic.Function.Basic
import Mathlib.Data.List.Basic
import CppTrack.Lib.Run
import CppTrack.Lib.Word

/-!
# The timers' min-heap (`minheap.c`)

The heap is an array `p` of pointers to timer entries. Each entry in it also knows
its place, `min_heap_idx`, which is how it is found again when it is to be erased or
its time has changed; `(uint32_t)-1` is the place of an entry that is not in the heap.

Entries belong to the caller and are named here by numbers. `none` is a read or write
of `p` outside its `a` elements, or a read of an element never written. The fields
`handler` and `privdata` are not used by the heap and are left out.
-/

namespace CppTrack.TimerHeap

open Lib

/-- `timer_entry_t`. -/
structure TimerEntry where
  time : Nat
  minHeapIdx : Nat

/-- `min_heap_t`, with the entries its pointers point to. -/
structure MinHeap where
  p : Nat → Option Nat
  n : Nat
  a : Nat
  entry : Nat → TimerEntry

/-- `(uint32_t)-1`. -/
def noIdx : Nat := wordSize - 1

namespace MinHeap

/-- `s->p[i]`. -/
def slot (s : MinHeap) (i : Nat) : Option Nat := if i < s.a then s.p i else none

def time (s : MinHeap) (e : Nat) : Nat := (s.entry e).time

def idx (s : MinHeap) (e : Nat) : Nat := (s.entry e).minHeapIdx

def setIdx (s : MinHeap) (e i : Nat) : MinHeap :=
  { s with entry := Function.update s.entry e { s.entry e with minHeapIdx := i } }

/-- `e->time = t`. -/
def setTime (s : MinHeap) (e t : Nat) : MinHeap :=
  { s with entry := Function.update s.entry e { s.entry e with time := t } }

/-- `(s->p[i] = e)->min_heap_idx = i`. -/
def place (s : MinHeap) (i e : Nat) : Option MinHeap :=
  if i < s.a then some ({ s with p := Function.update s.p i (some e) }.setIdx e i) else none

/-- `min_heap_elem_greater`. -/
def greater (s : MinHeap) (e e' : Nat) : Bool := s.time e > s.time e'

end MinHeap

/-- `min_heap_ctor_`. -/
def minHeapCtor (entry : Nat → TimerEntry) : MinHeap :=
  { p := fun _ => none, n := 0, a := 0, entry := entry }

/-- `min_heap_elem_init_`. -/
def minHeapElemInit (s : MinHeap) (e : Nat) : MinHeap := s.setIdx e noIdx

/-- `min_heap_reserve_`; `mem` says whether `realloc` succeeds. -/
def minHeapReserve (mem : Bool) (s : MinHeap) (n : Nat) : Int × MinHeap :=
  if s.a < n then
    let a := if s.a ≠ 0 then s.a * 2 % wordSize else 8
    let a := if a < n then n else a
    if mem then (0, { s with a := a }) else (-1, s)
  else (0, s)

/-! ## Sifting -/

/-- The loop of `min_heap_shift_up_`, with the store after it. -/
def shiftUpLoop (e : Nat) : (fuel : Nat) → MinHeap → (hole : Nat) → Option MinHeap
  | fuel, s, hole =>
      let parent := subU32 hole 1 / 2
      if hole = 0 then s.place hole e
      else do
        let x ← s.slot parent
        if s.greater x e then do
          let s ← s.place hole x
          match fuel with
          | 0 => none
          | fuel + 1 => shiftUpLoop e fuel s parent
        else s.place hole e

/-- `min_heap_shift_up_`. -/
def minHeapShiftUp (s : MinHeap) (hole e : Nat) : Option MinHeap := shiftUpLoop e hole s hole

/-- `min_heap_shift_up_unconditional_`: the loop's first round is not tested. -/
def minHeapShiftUpUnconditional (s : MinHeap) (hole e : Nat) : Option MinHeap := do
  let parent := subU32 hole 1 / 2
  let x ← s.slot parent
  let s ← s.place hole x
  shiftUpLoop e parent s parent

/-- `min_child == s->n || min_heap_elem_greater(s->p[min_child], s->p[min_child - 1])`. -/
def takesLeft (s : MinHeap) (minChild : Nat) : Option Bool :=
  if minChild = s.n then some true
  else do
    let r ← s.slot minChild
    let l ← s.slot (minChild - 1)
    some (s.greater r l)

/-- The loop of `min_heap_shift_down_`, with the store after it. -/
def shiftDownLoop (e : Nat) : (fuel : Nat) → MinHeap → (hole : Nat) → Option MinHeap
  | fuel, s, hole =>
      let minChild := 2 * addU32 hole 1 % wordSize
      if minChild ≤ s.n then do
        let dec ← takesLeft s minChild
        let minChild := minChild - dec.toNat
        let x ← s.slot minChild
        if s.greater e x then do
          let s ← s.place hole x
          match fuel with
          | 0 => none
          | fuel + 1 => shiftDownLoop e fuel s minChild
        else s.place hole e
      else s.place hole e

/-- `min_heap_shift_down_`. -/
def minHeapShiftDown (s : MinHeap) (hole e : Nat) : Option MinHeap := shiftDownLoop e s.n s hole

/-! ## The operations -/

/-- `min_heap_push_`. -/
def minHeapPush (mem : Bool) (s : MinHeap) (e : Nat) : Option (Int × MinHeap) := do
  let (r, s) := minHeapReserve mem s (addU32 s.n 1)
  if r ≠ 0 then some (-1, s)
  else do
    let s ← minHeapShiftUp { s with n := addU32 s.n 1 } s.n e
    some (0, s)

/-- `min_heap_pop_`. -/
def minHeapPop (s : MinHeap) : Option (Option Nat × MinHeap) :=
  if s.n ≠ 0 then do
    let e ← s.slot 0
    let s := { s with n := subU32 s.n 1 }
    let last ← s.slot s.n
    let s ← minHeapShiftDown s 0 last
    some (some e, s.setIdx e noIdx)
  else some (none, s)

/-- `e->min_heap_idx > 0 && min_heap_elem_greater(s->p[parent], last)`. -/
def belowParent (s : MinHeap) (idx last : Nat) : Option Bool :=
  let parent := subU32 idx 1 / 2
  if idx > 0 then (s.slot parent).map (fun x => s.greater x last) else some false

/-- The two ways an element is put down at a place in the middle. -/
def minHeapReplace (s : MinHeap) (idx last : Nat) : Option MinHeap := do
  let up ← belowParent s idx last
  if up then minHeapShiftUpUnconditional s idx last else minHeapShiftDown s idx last

/-- `min_heap_erase_`. -/
def minHeapErase (s : MinHeap) (e : Nat) : Option (Int × MinHeap) :=
  if noIdx ≠ s.idx e then do
    let s := { s with n := subU32 s.n 1 }
    let last ← s.slot s.n
    let s ← minHeapReplace s (s.idx e) last
    some (0, s.setIdx e noIdx)
  else some (-1, s)

/-- `min_heap_adjust_`. -/
def minHeapAdjust (mem : Bool) (s : MinHeap) (e : Nat) : Option (Int × MinHeap) :=
  if noIdx = s.idx e then minHeapPush mem s e
  else do
    let s ← minHeapReplace s (s.idx e) e
    some (0, s)

/-- The entries in the heap, in the order of their places. -/
def MinHeap.contents (s : MinHeap) : List Nat := (List.range s.n).filterMap s.p

/-! ## Histories -/

/-- The heap, and which entries were ever initialised: by `min_heap_elem_init_` or by a push. -/
structure World where
  heap : MinHeap
  known : List Nat

inductive Op
  /-- `min_heap_elem_init_(e)` -/
  | init (e : Nat)
  /-- `e->time = t; min_heap_push_(s, e)` -/
  | push (e t : Nat)
  | pop
  | erase (e : Nat)
  /-- `e->time = t; min_heap_adjust_(s, e)` -/
  | adjust (e t : Nat)

/-- What a call returns. -/
inductive Ret
  | void
  | code (r : Int)
  | entry (e : Option Nat)

/-- One call, with allocation succeeding. -/
def exec (w : World) : Op → Option (Ret × World)
  | .init e => some (.void, { heap := minHeapElemInit w.heap e, known := e :: w.known })
  | .push e t => (minHeapPush true (w.heap.setTime e t) e).map
      (fun r => (.code r.1, { heap := r.2, known := e :: w.known }))
  | .pop => (minHeapPop w.heap).map (fun r => (.entry r.1, { w with heap := r.2 }))
  | .erase e => (minHeapErase w.heap e).map (fun r => (.code r.1, { w with heap := r.2 }))
  | .adjust e t => (minHeapAdjust true (w.heap.setTime e t) e).map
      (fun r => (.code r.1, { w with heap := r.2 }))

def step (w : World) (op : Op) : Option World := (exec w op).map Prod.snd

/-- An empty heap, and entries nothing is known about. -/
def start (entry : Nat → TimerEntry) : World := { heap := minHeapCtor entry, known := [] }

end CppTrack.TimerHeap
