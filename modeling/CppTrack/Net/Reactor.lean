import CppTrack.Net.RingBuf

/-!
# The reactor (`reactor.h`)

A table of events, one for each connection, with a ring buffer for what was read and one
for what is still to be written. What the kernel answers to the `read`s and `write`s of a
call is given as a list, which the call uses up; a call that needs more answers than there
are has not returned. `none` is also an access outside the table. The callbacks are left
out, and so is what is printed.
-/

namespace CppTrack.Net

open Lib RingBuf

/-- `event_t`. -/
structure Event where
  fd : Nat
  input : RingBuffer
  output : RingBuffer

/-- What the kernel knows: the events registered with epoll (readable, writable), the
client descriptors that are open, those closed so far, and the bytes taken on each. -/
structure Kernel where
  interest : Nat → Option (Bool × Bool)
  opened : List Nat
  closed : List Nat
  sent : Nat → List UInt8

/-- The answers to `read`. -/
inductive Received
  | data (buf : List UInt8)
  | endOfFile
  | eintr
  | ewouldblock
  | error
  deriving DecidableEq

/-- The answers to `write`. -/
inductive Written
  | accepted (n : Nat)
  | eintr
  | ewouldblock
  | error
  deriving DecidableEq

/-- `close`. -/
def Kernel.close (k : Kernel) (fd : Nat) : Kernel :=
  { k with
    interest := Function.update k.interest fd none
    opened := k.opened.erase fd
    closed := k.closed ++ [fd] }

/-! ## Events -/

/-- `free_event`. -/
def freeEvent (e : Event) : Event :=
  { fd := 0, input := rbFree e.input, output := rbFree e.output }

/-- `add_event`. -/
def addEvent (k : Kernel) (e : Event) (events : Bool × Bool) : Kernel :=
  if (k.interest e.fd).isSome then k
  else { k with interest := Function.update k.interest e.fd (some events) }

/-- `del_event`. -/
def delEvent (k : Kernel) (e : Event) : Event × Kernel :=
  (freeEvent e, { k with interest := Function.update k.interest e.fd none })

/-- `enable_event`. -/
def enableEvent (k : Kernel) (e : Event) (readable writeable : Bool) : Kernel :=
  if (k.interest e.fd).isSome then
    { k with interest := Function.update k.interest e.fd (some (readable, writeable)) }
  else k

/-! ## The table -/

/-- `MAX_CONN`. -/
def maxConn : Nat := 2 ^ 16 - 1

/-- `reactor_t`. -/
structure Reactor where
  events : Nat → Event
  iter : Nat

/-- `while (r->events[r->iter & MAX_CONN].fd > 0) r->iter++`. -/
def scan (events : Nat → Event) : (fuel iter : Nat) → Option Nat
  | fuel, iter =>
      if iter &&& maxConn < maxConn then
        if (events (iter &&& maxConn)).fd > 0 then
          match fuel with
          | 0 => none
          | fuel + 1 => scan events fuel (iter + 1)
        else some iter
      else none

/-- `_get_event_t`. -/
def getEvent (r : Reactor) : Option Nat := scan r.events (maxConn + 1) (r.iter + 1)

/-- `new_event`. The rings get their memory from `malloc`. -/
def newEvent (r : Reactor) (fd : Nat) (memIn memOut : Nat → UInt8) : Option (Nat × Reactor) := do
  let iter ← getEvent r
  let input ← rbInit memIn (1024 * 16)
  let output ← rbInit memOut (1024 * 16)
  if iter < maxConn then
    some (iter, { events := Function.update r.events iter ⟨fd, input, output⟩, iter := iter })
  else none

/-! ## Reading and writing -/

/-- `read_socket`, which has read `num` bytes so far. -/
def readLoop : (num : Nat) → Event → Kernel → List Received →
    Option (Nat × Event × Kernel × List Received)
  | _, _, _, [] => none
  | _, e, k, .endOfFile :: rest =>
      let x := delEvent k e
      some (0, x.1, x.2.close e.fd, rest)
  | num, e, k, .eintr :: rest => readLoop num e k rest
  | num, e, k, .ewouldblock :: rest => some (num, e, k, rest)
  | _, e, k, .error :: rest =>
      let x := delEvent k e
      some (0, x.1, x.2.close e.fd, rest)
  | num, e, k, .data buf :: rest =>
      if 1 ≤ buf.length ∧ buf.length ≤ 1024 then
        (rbWrite e.input buf buf.length).bind fun x =>
          readLoop (num + buf.length) { e with input := x.2 } k rest
      else none

/-- `read_socket`. -/
def readSocket (e : Event) (k : Kernel) (answers : List Received) :
    Option (Nat × Event × Kernel × List Received) :=
  readLoop 0 e k answers

/-- `write_socket_`. -/
def writeSocket_ (e : Event) (k : Kernel) (buf : List UInt8) :
    List Written → Option (Int × Event × Kernel × List Written)
  | [] => none
  | .eintr :: rest => writeSocket_ e k buf rest
  | .ewouldblock :: rest => some (0, e, k, rest)
  | .error :: rest =>
      let x := delEvent k e
      -- the event has no descriptor any more when `close(e->fd)` is called
      some (-1, x.1, x.2.close x.1.fd, rest)
  | .accepted n :: rest =>
      if (1 ≤ n ∨ buf = []) ∧ n ≤ buf.length then
        some (n, e,
          { k with sent := Function.update k.sent e.fd (k.sent e.fd ++ buf.take n) }, rest)
      else none

/-- One of the loops of `flush_socket`, with `len` bytes to go: what `flush_socket` returns if
it returns from there. -/
def flushLoop : (fuel len : Nat) → Event → Kernel → List Written →
    Option (Option Int × Event × Kernel × List Written)
  | fuel, len, e, k, answers =>
      if len = 0 then some (none, e, k, answers)
      else match fuel with
        | 0 => none
        | fuel + 1 => do
            let buf ← copyOut e.output (e.output.place e.output.readPos) len
            let (n, e, k, answers) ← writeSocket_ e k buf answers
            if n = 0 then some (some 0, e, enableEvent k e true true, answers)
            else if n < 0 then some (some (-1), e, k, answers)
            else
              let output :=
                { e.output with readPos := addU32 e.output.readPos n.toNat }
              flushLoop fuel (len - n.toNat) { e with output := output } k answers

/-- After a loop `flush_socket` returns from it, or everything was written. -/
def flushReturn (x : Option Int × Event × Kernel × List Written) :
    Int × Event × Kernel × List Written :=
  match x with
  | (some n, e, k, answers) => (n, e, k, answers)
  | (none, e, k, answers) => (1, e, enableEvent k e true false, answers)

/-- `flush_socket`. -/
def flushSocket (e : Event) (k : Kernel) (answers : List Written) :
    Option (Int × Event × Kernel × List Written) :=
  if rbIsempty e.output then some (0, e, k, answers)
  else
    let len := rbLen e.output
    let dis := subU32 e.output.size (e.output.place e.output.readPos)
    if dis ≥ len then (flushLoop len len e k answers).map flushReturn
    else do
      let remain := len - dis
      let (ret, e, k, answers) ← flushLoop dis dis e k answers
      match ret with
      | some n => some (n, e, k, answers)
      | none => (flushLoop remain remain e k answers).map flushReturn

/-- `write_socket`. -/
def writeSocket (e : Event) (k : Kernel) (buf : List UInt8) (answers : List Written) :
    Option (Int × Event × Kernel × List Written) := do
  let (n, e, k, answers) ← writeSocket_ e k buf answers
  if n = 0 ∧ buf.length > 0 then
    let (_, output) ← rbWrite e.output buf buf.length
    some (n, { e with output := output }, enableEvent k e true true, answers)
  else if n > 0 then some (n, e, enableEvent k e true false, answers)
  else some (n, e, k, answers)

end CppTrack.Net
