import Mathlib.Data.Fintype.Sum
import Mathlib.Data.Fintype.Prod
import Mathlib.Logic.Function.Basic
import CppTrack.Lib.Run
import CppTrack.Lib.Word

/-!
# The hierarchical timing wheel (`timewheel.c`)

Five wheels: `near`, one slot per tick for the next 256 ticks, and four levels of
64 slots, each slot of level `i` standing for a block of `2 ^ (8 + 6 * i)` ticks.
A node is filed once by `add_timer`; from then on `timer_shift` re-files ("cascades")
the slot of a level whose block the clock has just entered, and `timer_execute`
hands over whatever sits in the `near` slot of the current tick.

A slot's singly linked list with a tail pointer is a `List`: `link` appends,
`link_clear` takes the whole list. A node is an address; addresses are never
reused here, so an address names one call of `malloc`.

The lock is released while callbacks run, so callbacks (and, meanwhile, other
threads) may call `add_timer` and `del_timer`. Which calls are made is a
parameter of each tick.
-/

namespace CppTrack.TimeWheel

open Lib

/-! ## Constants of `timewheel.h` -/

def timeNearShift : Nat := 8
def timeNear : Nat := 1 <<< timeNearShift
def timeLevelShift : Nat := 6
def timeLevel : Nat := 1 <<< timeLevelShift
def timeNearMask : Nat := timeNear - 1
def timeLevelMask : Nat := timeLevel - 1

/-- What `timer_node_t` holds once linked, apart from `cancel`, which `World` keeps by address. -/
structure TimerNode (α : Type) where
  addr : Nat
  expire : Nat
  callback : α
  id : Int
  deriving DecidableEq

/-- A list head of the wheel: `near[j]` or `t[i][j]`. -/
abbrev Slot : Type := Fin timeNear ⊕ Fin 4 × Fin timeLevel

/-- `s_timer_t`, less the lock and the two wall clock fields. -/
structure STimer (α : Type) where
  near : Fin timeNear → List (TimerNode α)
  t : Fin 4 → Fin timeLevel → List (TimerNode α)
  time : Nat

variable {α : Type}

namespace STimer

/-- The list a slot denotes. -/
def slot (T : STimer α) : Slot → List (TimerNode α)
  | .inl j => T.near j
  | .inr (i, j) => T.t i j

/-- Overwrite the list of one slot. -/
def setSlot (T : STimer α) : Slot → List (TimerNode α) → STimer α
  | .inl j, l => { T with near := Function.update T.near j l }
  | .inr (i, j), l => { T with t := Function.update T.t i (Function.update (T.t i) j l) }

/-- `link_clear`: the list taken out, and the wheel with that slot empty. -/
def linkClear (T : STimer α) (s : Slot) : List (TimerNode α) × STimer α :=
  (T.slot s, T.setSlot s [])

/-- `link`: append at the tail. -/
def link (T : STimer α) (s : Slot) (node : TimerNode α) : STimer α :=
  T.setSlot s (T.slot s ++ [node])

end STimer

/-- `time & TIME_NEAR_MASK`. -/
def nearIdx (time : Nat) : Fin timeNear :=
  ⟨time &&& timeNearMask, Nat.lt_succ_of_le Nat.and_le_right⟩

/-- `time & TIME_LEVEL_MASK`. -/
def levelIdx (time : Nat) : Fin timeLevel :=
  ⟨time &&& timeLevelMask, Nat.lt_succ_of_le Nat.and_le_right⟩

/-- Where `add_node` files a node that expires at `time`, `msec` ticks away. -/
def fileSlot (msec time : Nat) : Slot :=
  if msec < 256 then .inl (nearIdx time)
  else if msec < 16384 then .inr (0, levelIdx (time >>> 8))
  else if msec < 1048576 then .inr (1, levelIdx (time >>> 14))
  else if msec < 67108864 then .inr (2, levelIdx (time >>> 20))
  else .inr (3, levelIdx (time >>> 26))

namespace STimer

/-- `add_node`: the slot depends on how far away the expiry is. -/
def addNode (T : STimer α) (node : TimerNode α) : STimer α :=
  let time := node.expire
  let currentTime := T.time
  let msec := subU32 time currentTime
  if msec < timeNear then
    T.link (.inl (nearIdx time)) node
  else if msec < 1 <<< (timeNearShift + timeLevelShift) then
    T.link (.inr (0, levelIdx (time >>> timeNearShift))) node
  else if msec < 1 <<< (timeNearShift + 2 * timeLevelShift) then
    T.link (.inr (1, levelIdx (time >>> (timeNearShift + timeLevelShift)))) node
  else if msec < 1 <<< (timeNearShift + 3 * timeLevelShift) then
    T.link (.inr (2, levelIdx (time >>> (timeNearShift + 2 * timeLevelShift)))) node
  else
    T.link (.inr (3, levelIdx (time >>> (timeNearShift + 3 * timeLevelShift)))) node

/-- `move_list`: take a slot's list and file each of its nodes again. -/
def moveList (T : STimer α) (level : Fin 4) (idx : Fin timeLevel) : STimer α :=
  let (current, T') := T.linkClear (.inr (level, idx))
  current.foldl addNode T'

/--
The `while` loop of `timer_shift`. `t` has four levels and `mask` is an `int`: a
fifth round would shift it past its sign bit, so running out of rounds is `none`.
-/
def shiftLoop (T : STimer α) (ct : Nat) : (rounds i mask time : Nat) → Option (STimer α)
  | 0, _, _, _ => none
  | rounds + 1, i, mask, time =>
      if ct &&& (mask - 1) = 0 then
        let idx := levelIdx time
        if idx.val ≠ 0 then
          if h : i < 4 then some (T.moveList ⟨i, h⟩ idx) else none
        else
          shiftLoop T ct rounds (i + 1) (mask <<< timeLevelShift) (time >>> timeLevelShift)
      else some T

/-- `timer_shift`: advance the clock and cascade the block it enters. -/
def timerShift (T : STimer α) : Option (STimer α) :=
  let ct := addU32 T.time 1
  let T' := { T with time := ct }
  if ct = 0 then some (T'.moveList 3 ⟨0, by decide⟩)
  else shiftLoop T' ct 4 0 timeNear (ct >>> timeNearShift)

/-- `timer_create_timer`: every list empty, the clock at zero. -/
def timerCreateTimer : STimer α where
  near := fun _ => []
  t := fun _ _ => []
  time := 0

end STimer

/-! ## The wheel in its surroundings -/

/-- What `add_timer` was asked for, and the tick it was asked at. -/
structure Added (α : Type) where
  node : TimerNode α
  /-- Ticks since `timer_create_timer` when `add_timer` was called. -/
  now : Nat
  /-- The relative time it was called with. -/
  time : Nat

/-- The tick the node was asked to fire at, not wrapped. -/
def Added.deadline (e : Added α) : Nat := e.now + e.time

/-- A call a client of the wheel may make. -/
inductive Call (α : Type) where
  /-- `garbage` is what `malloc` left in the `cancel` byte, which `add_timer` does not set. -/
  | addTimer (time : CInt) (func : α) (threadid : Int) (garbage : Nat)
  | delTimer (addr : Nat)

/-- The wheel, the `cancel` bytes, and a record of what happened. -/
structure World (α : Type) where
  T : STimer α
  /-- The address the next `malloc` returns. -/
  brk : Nat
  /-- `node->cancel` by address. -/
  cancel : Nat → Nat
  /-- Ticks so far, not wrapped. -/
  ticks : Nat
  /-- Everything `add_timer` filed, in order. -/
  added : List (Added α)
  /-- Everything given to `dispatch_list`, with `T->time` at that moment. -/
  handed : List (TimerNode α × Nat)
  /-- Callbacks run, in order. -/
  ran : List (TimerNode α)

namespace World

def init : World α :=
  { T := STimer.timerCreateTimer, brk := 0, cancel := fun _ => 0, ticks := 0,
    added := [], handed := [], ran := [] }

/-- `malloc` of a node: a fresh address, `cancel` holding whatever was there. -/
def malloc (w : World α) (garbage : Nat) : World α :=
  { w with brk := w.brk + 1, cancel := Function.update w.cancel w.brk garbage }

/-- The wheel becomes `T'`, and the record says what was filed in it. -/
def filed (w : World α) (T' : STimer α) (e : Added α) : World α :=
  { w with T := T', added := w.added ++ [e] }

/--
`add_timer`. With `time <= 0` the callback runs at once, under the lock, and
nothing is filed.
-/
def addTimer (w : World α) (time : CInt) (func : α) (threadid : Int) (garbage : Nat) :
    World α × Option (TimerNode α) :=
  let node : TimerNode α :=
    { addr := w.brk, expire := ((time.val + w.T.time) % wordSize).toNat,
      callback := func, id := threadid }
  let w' := w.malloc garbage
  if time.val ≤ 0 then ({ w' with ran := w'.ran ++ [node] }, none)
  else (w'.filed (w.T.addNode node) ⟨node, w.ticks, time.val.toNat⟩, some node)

/-- `del_timer`. -/
def delTimer (w : World α) (addr : Nat) : World α :=
  { w with cancel := Function.update w.cancel addr 1 }

def call (w : World α) : Call α → World α
  | .addTimer time func threadid garbage => (w.addTimer time func threadid garbage).1
  | .delTimer addr => w.delTimer addr

/-- `dispatch_list`; `calls` is what a node's callback does when it runs. -/
def dispatchList (calls : TimerNode α → List (Call α)) : List (TimerNode α) → World α → World α
  | [], w => w
  | temp :: current, w =>
      let w' := if w.cancel temp.addr = 0
        then (calls temp).foldl call { w with ran := w.ran ++ [temp] } else w
      dispatchList calls current w'

/-- `timer_execute`: the loop runs until the slot of the current tick is found empty. -/
def timerExecute (calls : TimerNode α → List (Call α)) : Nat → World α → Option (World α)
  | 0, _ => none
  | fuel + 1, w =>
      let idx := nearIdx w.T.time
      if (w.T.near idx).isEmpty then some w
      else
        let (current, T') := w.T.linkClear (.inl idx)
        let handed := w.handed ++ current.map (fun node => (node, T'.time))
        timerExecute calls fuel (dispatchList calls current { w with T := T', handed := handed })

/-- `timer_shift` on the wheel of `w`. -/
def timerShift (w : World α) : Option (World α) :=
  w.T.timerShift.map (fun T' => { w with T := T', ticks := w.ticks + 1 })

/-- `timer_update`; the two lists of calls belong to its two `timer_execute`. -/
def timerUpdate (fuel : Nat) (calls calls' : TimerNode α → List (Call α)) (w : World α) :
    Option (World α) := do
  let w₁ ← timerExecute calls fuel w
  let w₂ ← w₁.timerShift
  timerExecute calls' fuel w₂

end World

/-- One operation of a run. -/
inductive Op (α : Type) where
  | call (c : Call α)
  | tick (calls calls' : TimerNode α → List (Call α))

/-- `fuel` bounds the rounds of the loop in `timer_execute`. -/
def step (fuel : Nat) (w : World α) : Op α → Option (World α)
  | .call c => some (w.call c)
  | .tick calls calls' => w.timerUpdate fuel calls calls'

end CppTrack.TimeWheel
