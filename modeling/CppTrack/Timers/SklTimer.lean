import CppTrack.Lib.Word
import CppTrack.Timers.SkipListQueue

/-!
# Timers in the skip list (`skl-timer.c`)

A timer is its node. What a handler does is a list of calls of `add_timer`, each with what the
clock shows at that moment and the level it draws. The clock does not go back and does not wrap.
-/

namespace CppTrack.SklTimer

open Lib SkipList

/-- A call of `add_timer`. -/
structure Add where
  level : Nat
  msec : Nat
  clock : Nat
  handler : Nat

/-- The skip list, what the clock last showed, the `now` of a call of `expire_timer` in progress,
and the timers whose handlers have been run. -/
structure Timers where
  zsl : Zskiplist
  clock : Nat
  now : Option Nat
  ran : List Nat

/-- `init_timer`. -/
def initTimer : Option Timers :=
  zslCreate.map fun zsl => { zsl := zsl, clock := 0, now := none, ran := [] }

/-- `add_timer`. -/
def addTimer (w : Timers) (a : Add) : Option Timers :=
  if w.clock ≤ a.clock ∧ a.clock < wordSize ∧ 1 ≤ a.level ∧ a.level ≤ maxLevel then
    (zslInsert w.zsl a.level (addU32 a.msec a.clock) a.handler).map fun r =>
      { w with zsl := r.2, clock := a.clock }
  else none

/-- The tests of the loop of `expire_timer`: which timer to run now, if any. -/
def nextDue (w : Timers) (now : Nat) : Option (Option Nat) := do
  match ← zslMin w.zsl with
  | none => some none
  | some x => if (← score w.zsl.heap x) > now then some none else some (some x)

/-- `x->handler(x)`. -/
def runHandler (w : Timers) (x : Nat) (adds : List Add) : Option Timers :=
  run addTimer { w with ran := x :: w.ran } adds

/-- One round of `expire_timer`, whose handler makes these calls. -/
def expireRound (w : Timers) (now : Nat) (adds : List Add) : Option Timers := do
  match ← nextDue w now with
  | none => some { w with now := none }
  | some x => do
      let w ← runHandler w x adds
      let zsl ← zslDeleteHead w.zsl
      some { w with zsl := zsl }

inductive TimerOp
  | add (a : Add)
  /-- `del_timer` -/
  | del (zn : Nat)
  /-- `expire_timer` reads the clock -/
  | expire (clock : Nat)
  | round (adds : List Add)

/-- A step. Calls from outside are made while `expire_timer` does not run. -/
def timerStep (w : Timers) : TimerOp → Option Timers
  | .add a => if w.now = none then addTimer w a else none
  | .del zn =>
      if w.now = none ∧ zn ∈ (w.zsl.chain 0).getD [] then
        (zslDelete w.zsl zn).map fun zsl => { w with zsl := zsl }
      else none
  | .expire clock =>
      if w.now = none ∧ w.clock ≤ clock ∧ clock < wordSize then
        some { w with clock := clock, now := some clock }
      else none
  | .round adds => w.now.bind fun now => expireRound w now adds

/-! ## What a round should do -/

/-- A round takes just the timer out whose handler it ran, and had not run before. -/
def RoundRight (w : Timers) : TimerOp → Prop
  | .round adds => ∀ now x w', w.now = some now → nextDue w now = some (some x) →
      expireRound w now adds = some w' →
        x ∉ w.ran ∧ ∃ w₁ l, runHandler w x adds = some w₁ ∧ w₁.zsl.chain 0 = some l ∧ x ∈ l ∧
          w'.zsl.chain 0 = some (l.erase x)
  | _ => True

/-- Each timer that the handler adds is due later than the one it belongs to. -/
def Later (w : Timers) : TimerOp → Prop
  | .round adds => ∀ now x sx, w.now = some now → nextDue w now = some (some x) →
      score w.zsl.heap x = some sx → ∀ a ∈ adds, sx < addU32 a.msec a.clock
  | _ => True

end CppTrack.SklTimer
