import Mathlib.Data.List.MinMax
import Mathlib.Logic.Function.Basic
import CppTrack.Lib.Word

/-!
# The coroutine scheduler (`nty_schedule.c`, `nty_coroutine.c`)

A coroutine can be linked in three structures at once: the ready queue, the sleeping tree by its
`sleep_usecs` and the waiting tree by its `fd`. One step is one turn of a loop of
`nty_schedule_run`, up to where it resumes a coroutine, or one call that the running coroutine
makes, up to its yield. The clock and what `epoll_wait` reports are in the labels, so a run is one
order in which timers expire and descriptors become ready.

A coroutine is an address that is never used again. The trees are lists of addresses: the keys are
in the records, and `RB_INSERT` refuses a key that is there. A wait for a descriptor is
`nty_schedule_sched_wait`, a yield and `nty_schedule_desched_wait`, as in `nty_poll_inner`.

A null pointer that is followed, an assertion that fails and a queue element that is inserted
twice have no next state. Neither has a state in which a record that was freed is still linked,
since the next walk over the structure may come to it.
-/

namespace CppTrack.NtyCo

open Lib

/-- `nty_coroutine_status`, what is used of it. -/
inductive Status where
  | waitRead
  | waitWrite
  | new
  | ready
  | exited
  | sleeping
  | expired
  | fdeof
  | detach
  deriving DecidableEq

/-- A status word by its bits. -/
abbrev StatusWord := Status → Bool

namespace StatusWord

def zero : StatusWord := fun _ => false

/-- `w | BIT(x)`. -/
def set (w : StatusWord) (x : Status) : StatusWord := Function.update w x true

/-- `w & CLEARBIT(x)`. -/
def clear (w : StatusWord) (x : Status) : StatusWord := Function.update w x false

end StatusWord

/-- `nty_coroutine`. -/
structure Co where
  status : StatusWord
  fd : Int
  sleepUsecs : Nat
  /-- It stands at the yield of a wait for this descriptor. -/
  waits : Option Int

/-- Where `nty_schedule_run` is. -/
inductive Phase where
  /-- It has not been called. -/
  | main
  | expired
  /-- The second loop, with `last_co_ready`. -/
  | ready (last : Option Nat)
  | epoll
  /-- The third loop: the descriptors left, and whether `EPOLLHUP` was reported. -/
  | events (evs : List (Int × Bool))
  | done

structure State where
  /-- The records that have not been freed. -/
  cos : Nat → Option Co
  /-- How many were created. -/
  spawned : Nat
  ready : List Nat
  sleeping : List Nat
  waiting : List Nat
  /-- `curr_thread`. -/
  curr : Option Nat
  phase : Phase

namespace State

def init : State where
  cos := fun _ => none
  spawned := 0
  ready := []
  sleeping := []
  waiting := []
  curr := none
  phase := .main

def set (s : State) (c : Nat) (co : Co) : State :=
  { s with cos := Function.update s.cos c (some co) }

/-- `nty_coroutine_free`. -/
def coroutineFree (s : State) (c : Nat) : State :=
  { s with cos := Function.update s.cos c none }

def sleepUsecs (s : State) (c : Nat) : Nat := ((s.cos c).map Co.sleepUsecs).getD 0

def fd (s : State) (c : Nat) : Option Int := (s.cos c).map Co.fd

/-- No record that was freed is linked. -/
def Linked (s : State) : Prop := ∀ c ∈ s.ready ++ s.sleeping ++ s.waiting, (s.cos c).isSome

instance (s : State) : Decidable s.Linked := inferInstanceAs (Decidable (∀ c ∈ _, _))

/-! ## The sleeping tree -/

/-- `RB_FIND` in the sleeping tree. -/
def findSleeping (s : State) (usecs : Nat) : Option Nat :=
  s.sleeping.find? fun c => s.sleepUsecs c = usecs

/-- `RB_REMOVE` from the sleeping tree. -/
def removeSleeping (s : State) (c : Nat) : State :=
  { s with sleeping := s.sleeping.filter (· ≠ c) }

/-- `RB_MIN` of the sleeping tree. -/
def minSleeping (s : State) : Option Nat := s.sleeping.argmin s.sleepUsecs

/-- What is found under a key is taken out, whoever it is. -/
def removeFound (s : State) (usecs : Nat) : State :=
  match s.findSleeping usecs with
  | some tmp => s.removeSleeping tmp
  | none => s

/-- The `while` loop of `nty_schedule_sched_sleepdown`: the next key that is not taken. -/
def freeUsecs (taken : List Nat) : (rounds usecs : Nat) → Option Nat
  | 0, _ => none
  | rounds + 1, usecs =>
      if usecs ∈ taken then freeUsecs taken rounds (addU64 usecs 1) else some usecs

/-- `nty_schedule_sched_sleepdown`, where `now` is the time since the scheduler's birth. -/
def schedSleepdown (s : State) (c : Nat) (co : Co) (msecs now : Nat) : Option State :=
  let usecs := msecs * 1000 % 2 ^ 64
  let s := s.removeFound co.sleepUsecs
  if msecs = 0 then some (s.set c { co with sleepUsecs := addU64 now usecs })
  else
    (freeUsecs (s.sleeping.map s.sleepUsecs) (s.sleeping.length + 1) (addU64 now usecs)).map
      fun usecs =>
        { s.set c { co with sleepUsecs := usecs, status := co.status.set .sleeping } with
          sleeping := c :: s.sleeping }

/-- `nty_schedule_desched_sleepdown`. -/
def deschedSleepdown (s : State) (c : Nat) (co : Co) : State :=
  if co.status .sleeping then
    (s.removeSleeping c).set c
      { co with status := ((co.status.clear .sleeping).set .ready).clear .expired }
  else s

/-! ## The waiting tree -/

/-- `RB_FIND` in the waiting tree. -/
def findWaiting (s : State) (fd : Int) : Option Nat := s.waiting.find? fun c => s.fd c = some fd

/-- `RB_REMOVE` from the waiting tree. -/
def removeWaiting (s : State) (c : Nat) : State :=
  { s with waiting := s.waiting.filter (· ≠ c) }

/-- `nty_schedule_search_wait`. It does not ask whether there was one. -/
def searchWait (s : State) (fd : Int) : Option (Nat × State) :=
  (s.findWaiting fd).bind fun c =>
    (s.cos c).map fun co => (c, s.set c { co with status := .zero })

/-- `nty_schedule_desched_wait`, the same. -/
def deschedWait (s : State) (fd : Int) : Option (Nat × State) :=
  (s.findWaiting fd).bind fun c =>
    (s.cos c).map fun co =>
      let co := { co with status := .zero }
      (c, ((s.removeWaiting c).set c co).deschedSleepdown c co)

/-- `POLLIN` and `POLLOUT`. -/
def pollin : Nat := 1
def pollout : Nat := 4

/--
`nty_schedule_sched_wait`. It ors the values of `nty_coroutine_status` into the word, not their
bits: that of `WAIT_READ` is 0, that of `WAIT_WRITE` is 1, which is the bit of `WAIT_READ`.
-/
def schedWait (s : State) (c : Nat) (co : Co) (fd : Int) (events timeout now : Nat) :
    Option State :=
  if co.status .waitRead ∨ co.status .waitWrite then none
  else
    let status := if events &&& pollin ≠ 0 then some co.status
      else if events &&& pollout ≠ 0 then some (co.status.set .waitRead) else none
    status.bind fun status =>
      let co := { co with status := status, fd := fd }
      if (s.findWaiting fd).isSome then none
      else
        let s := { s.set c co with waiting := c :: s.waiting }
        if timeout = 1 then some s else s.schedSleepdown c co timeout now

/-! ## Coroutines -/

/-- `nty_coroutine_create`. -/
def coroutineCreate (s : State) : State :=
  { s.set s.spawned
      { status := StatusWord.zero.set .new, fd := -1, sleepUsecs := 0, waits := none } with
    spawned := s.spawned + 1
    ready := s.ready ++ [s.spawned] }

/-- `nty_coroutine_init`, of a coroutine that is new. -/
def coroutineInit (co : Co) : Co :=
  if co.status .new then { co with status := StatusWord.zero.set .ready } else co

/-- `nty_coroutine_resume`, up to where the coroutine goes on. Behind the yield of a wait that is
after `nty_schedule_desched_wait`. -/
def coroutineResume (s : State) (c : Nat) : Option State :=
  (s.cos c).bind fun co =>
    let s := { s.set c { coroutineInit co with waits := none } with curr := some c }
    match co.waits with
    | some fd => (s.deschedWait fd).map Prod.snd
    | none => some s

/-- `nty_coroutine_resume`, when the coroutine has yielded. -/
def coroutineResumed (s : State) (c : Nat) : State :=
  let s' := { s with curr := none }
  if (s.cos c).any fun co => co.status .exited && co.status .detach then s'.coroutineFree c
  else s'

/-! ## `nty_schedule_run` -/

def isdone (s : State) : Bool := s.waiting.isEmpty && s.sleeping.isEmpty && s.ready.isEmpty

/-- The head of the outer loop. -/
def again (s : State) : State := { s with phase := if s.isdone then .done else .expired }

/-- One turn of the first loop: `nty_schedule_expired`, and `last_co_ready` when there is none. -/
def expireOne (s : State) (now : Nat) : Option State :=
  let later := { s with phase := .ready s.ready.getLast? }
  match s.minSleeping with
  | some c => if s.sleepUsecs c ≤ now then (s.removeSleeping c).coroutineResume c else some later
  | none => some later

/-- One turn of the second loop. -/
def readyOne (s : State) (last : Option Nat) : Option State :=
  match s.ready with
  | [] => some { s with phase := .epoll }
  | c :: rest =>
      (s.cos c).bind fun co =>
        if co.status .fdeof then
          some ({ s with ready := rest, phase := .epoll }.coroutineFree c)
        else
          -- back from the coroutine, the loop breaks after the last one
          { s with
            ready := rest
            phase := if last = some c then .epoll else s.phase }.coroutineResume c

/-- `default_timeout`. -/
def defaultTimeout : Nat := 3000000

/-- `nty_schedule_min_timeout`. -/
def minTimeout (s : State) (now : Nat) : Nat :=
  match s.minSleeping with
  | some c => if s.sleepUsecs c > now then s.sleepUsecs c - now else 0
  | none => defaultTimeout

/-- `nty_schedule_epoll`: descriptors that are waited for, each at most once, in the order in which
they are gone through. -/
def epoll (s : State) (now : Nat) (evs : List (Int × Bool)) : Option State :=
  if s.minTimeout now ≠ 0 ∧ s.ready = [] then
    if (evs.map Prod.fst).Nodup ∧ ∀ ev ∈ evs, (s.findWaiting ev.1).isSome then
      some { s with phase := .events evs }
    else none
  else if evs = [] then some { s with phase := .events [] } else none

/-- One turn of the third loop. -/
def eventOne (s : State) : List (Int × Bool) → Option State
  | [] => some s.again
  | (fd, isEof) :: evs =>
      (s.searchWait fd).bind fun (c, s) =>
        let s := { s with phase := .events evs }
        (s.cos c).bind fun co =>
          (if isEof then s.set c { co with status := co.status.set .fdeof }
            else s).coroutineResume c

end State

/-! ## Steps -/

inductive Label where
  | create
  | start
  | expire (now : Nat)
  | ready
  | epoll (now : Nat) (evs : List (Int × Bool))
  | event
  /-- `nty_coroutine_sleep`. -/
  | sleep (msecs now : Nat)
  | wait (fd : Int) (events timeout now : Nat)
  /-- The coroutine's function returns. -/
  | finish

namespace State

/-- What the running coroutine does up to its yield. -/
def yieldAt (s : State) (c : Nat) : Label → Option State
  | .sleep msecs _ =>
      if msecs = 0 ∧ c ∉ s.ready then some { s with ready := s.ready ++ [c] } else none
  | .wait fd events timeout now =>
      (s.cos c).bind fun co => s.schedWait c { co with waits := some fd } fd events timeout now
  | .finish =>
      (s.cos c).map fun co =>
        s.set c { co with status := ((co.status.set .exited).set .fdeof).set .detach }
  | _ => none

/-- A coroutine runs. `nty_coroutine_sleep` yields if it is given no time. -/
def running (s : State) (c : Nat) : Label → Option State
  | .create => some s.coroutineCreate
  | .sleep msecs now =>
      if msecs = 0 then (s.yieldAt c (.sleep msecs now)).map fun s => s.coroutineResumed c
      else (s.cos c).bind fun co => s.schedSleepdown c co msecs now
  | l => (s.yieldAt c l).map fun s => s.coroutineResumed c

/-- None runs. -/
def scheduling (s : State) : Label → Phase → Option State
  | .create, .main => some s.coroutineCreate
  | .start, .main => some s.again
  | .expire now, .expired => s.expireOne now
  | .ready, .ready last => s.readyOne last
  | .epoll now evs, .epoll => s.epoll now evs
  | .event, .events evs => s.eventOne evs
  | _, _ => none

end State

def step (s : State) (l : Label) : Option State :=
  if s.Linked then
    match s.curr with
    | some c => s.running c l
    | none => s.scheduling l s.phase
  else none

end CppTrack.NtyCo
