import CppTrack.Timers.MinHeap

/-!
# Timers in the min-heap (`mh-timer.h`)

A timer is the address `malloc` gave for it, and `known` are those that have been allocated and
not freed. `del_timer` takes a timer out of the heap and does not free it; `expire_timer` frees
what it has fired.

What a handler does is a list of calls of `add_timer` and `del_timer`.
-/

namespace CppTrack.TimerHeap

open Lib

/-- The `int` with the bits of this `uint32_t`. -/
def int32 (x : Nat) : Int := if x < 2 ^ 31 then x else x - 2 ^ 32

/-- `min_heap_top_`. -/
def minHeapTop (s : MinHeap) : Option (Option Nat) :=
  if s.n ≠ 0 then (s.slot 0).map some else some none

/-- The `memset` of `add_timer`. -/
def MinHeap.cleared (s : MinHeap) (e : Nat) : MinHeap :=
  { s with entry := Function.update s.entry e ⟨0, 0⟩ }

/-- `add_timer`, which gets its memory at `e`. -/
def addTimer (w : World) (e msec clock : Nat) : Option World :=
  step { w with heap := w.heap.cleared e } (.push e (addU32 clock msec))

/-- `del_timer`. -/
def delTimer (w : World) (e : Nat) : Option World := step w (.erase e)

/-- `find_nearest_expire_timer`. The difference of two `int`s wraps round. -/
def findNearestExpireTimer (s : MinHeap) (clock : Nat) : Option Int := do
  match ← minHeapTop s with
  | none => some (-1)
  | some te =>
      let diff := int32 (subU32 (s.time te) clock)
      some (if diff > 0 then diff else 0)

/-- The tests of the loop of `expire_timer`: which timer to fire now, if any. -/
def nextExpired (s : MinHeap) (cur : Nat) : Option (Option Nat) := do
  match ← minHeapTop s with
  | none => some none
  | some te => if s.time te > cur then some none else some (some te)

/-- A call of the interface. -/
inductive Call
  | add (e msec clock : Nat)
  | del (e : Nat)

/-- `malloc` does not give what is in use, a timer that is deleted has not been freed, and the
heap stays below `2 ^ 31` entries. -/
def call (w : World) : Call → Option World
  | .add e msec clock =>
      if e ∉ w.known ∧ w.heap.n + 1 < 2 ^ 31 then addTimer w e msec clock else none
  | .del e => if e ∈ w.known then delTimer w e else none

/-- `free(te)`. -/
def freed (w : World) (te : Nat) : World := { w with known := w.known.filter (· ≠ te) }

/-- What comes after the handler: whatever is at the top is popped, and `te` is freed. -/
def afterHandler (w : World) (te : Nat) : Option World :=
  (step w .pop).map fun w => freed w te

/-- One round of `expire_timer`, whose handler makes these calls; it says which timer fired. -/
def expireOnce (w : World) (cur : Nat) (calls : List Call) : Option (Option Nat × World) := do
  match ← nextExpired w.heap cur with
  | none => some (none, w)
  | some te => do
      let w ← run call w calls
      let w ← afterHandler w te
      some (some te, w)

/-- A call from outside, or a round of `expire_timer`. -/
inductive TimerOp
  | call (c : Call)
  | expire (cur : Nat) (calls : List Call)

def timerStep (w : World) : TimerOp → Option World
  | .call c => call w c
  | .expire cur calls => (expireOnce w cur calls).map Prod.snd

/-! ## What they should do -/

/-- `expire_timer` at this time would fire at least one timer. -/
def Fires (s : MinHeap) (cur : Nat) : Prop := ∃ te, nextExpired s cur = some (some te)

/-- `find_nearest_expire_timer` and `expire_timer` agree: 0 means that a timer would fire now, -1
that there is none, and otherwise the answer is the time until the first would fire. -/
def Agrees (s : MinHeap) (now : Nat) : Prop :=
  ∃ r, findNearestExpireTimer s now = some r ∧ (r = 0 ↔ Fires s now) ∧
    (r = -1 ↔ s.contents = []) ∧
    (s.contents ≠ [] → ∃ d : Nat, r = d ∧ Fires s (addU32 now d) ∧
      ∀ d' < d, ¬ Fires s (addU32 now d'))

/-- The timer at the top is no more than half a turn of the clock away. -/
def SleepFits (s : MinHeap) (now : Nat) : Prop :=
  ∀ te, minHeapTop s = some (some te) →
    (s.time te ≤ now → now - s.time te ≤ 2 ^ 31) ∧ (now < s.time te → s.time te - now < 2 ^ 31)

/-- A round of `expire_timer` takes the timer it has fired out of the heap, and no other, and
nothing that is in the heap has been freed. -/
def RoundRight (w : World) : TimerOp → Prop
  | .call _ => True
  | .expire cur calls => ∀ te w', expireOnce w cur calls = some (some te, w') →
      ∃ w₁, run call w calls = some w₁ ∧ te ∉ w'.heap.contents ∧
        (∀ x, x ≠ te → (x ∈ w'.heap.contents ↔ x ∈ w₁.heap.contents)) ∧
        ∀ x ∈ w'.heap.contents, x ∈ w'.known

/-- When the handler returns, the timer it belongs to is at the top, or the heap is empty. -/
def KeepsTop (w : World) : TimerOp → Prop
  | .call _ => True
  | .expire cur calls => ∀ te w₁, nextExpired w.heap cur = some (some te) →
      run call w calls = some w₁ →
        minHeapTop w₁.heap = some (some te) ∨ w₁.heap.contents = []

end CppTrack.TimerHeap
