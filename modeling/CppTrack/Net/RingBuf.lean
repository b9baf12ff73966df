import Mathlib.Data.Nat.Basic
import CppTrack.Lib.Ring
import CppTrack.Lib.Run
import CppTrack.Lib.Word

/-!
# The ring buffer (`ringbuf.h`)

`read_pos` and `write_pos` count bytes and run freely through the 32-bit words; a mask
brings them into the array. `none` is a copy that leaves the array or the caller's
buffer, or a shift by the width of a word. What `malloc` returns is an argument.
-/

namespace CppTrack.RingBuf

open Lib

/-- `ringbuffer_t`. -/
structure RingBuffer where
  buf : Nat → UInt8
  size : Nat
  writePos : Nat
  readPos : Nat

/-- `is_power_of_two`. -/
def isPowerOfTwo (num : Nat) : Bool := if num < 2 then false else num &&& (num - 1) == 0

/-- `for (; num != 0; i++) num >>= 1`. -/
def shiftOut : (fuel num i : Nat) → Option Nat
  | fuel, num, i =>
      if num = 0 then some i
      else match fuel with
        | 0 => none
        | fuel + 1 => shiftOut fuel (num >>> 1) (i + 1)

/-- `roundup_power_of_two`. -/
def roundupPowerOfTwo (num : Nat) : Option Nat :=
  if num = 0 then some 2
  else do
    let i ← shiftOut 32 num 0
    if i < 32 then some (2 ^ i) else none

/-- `rb_init`. -/
def rbInit (mem : Nat → UInt8) (sz : Nat) : Option RingBuffer := do
  let sz ← if isPowerOfTwo sz then some sz else roundupPowerOfTwo sz
  some { buf := mem, size := sz, writePos := 0, readPos := 0 }

/-- `rb_free`. -/
def rbFree (r : RingBuffer) : RingBuffer := { r with size := 0, writePos := 0, readPos := 0 }

/-- `rb_isempty`. -/
def rbIsempty (r : RingBuffer) : Bool := r.readPos == r.writePos

/-- `rb_len`. -/
def rbLen (r : RingBuffer) : Nat := subU32 r.writePos r.readPos

/-- `rb_remain`. -/
def rbRemain (r : RingBuffer) : Nat := addU32 (subU32 r.size r.writePos) r.readPos

/-- `pos & (size - 1)`. -/
def RingBuffer.place (r : RingBuffer) (pos : Nat) : Nat := pos &&& subU32 r.size 1

/-- `memcpy(r->buf + off, buf + from, n)`. -/
def copyIn (r : RingBuffer) (off : Nat) (buf : List UInt8) (start n : Nat) : Option RingBuffer :=
  if off + n ≤ r.size ∧ start + n ≤ buf.length then
    some { r with buf := blit r.buf off ((buf.drop start).take n) }
  else none

/-- `memcpy(_, r->buf + off, n)`. -/
def copyOut (r : RingBuffer) (off n : Nat) : Option (List UInt8) :=
  if off + n ≤ r.size then some (slice r.buf off n) else none

/-- `rb_write`. -/
def rbWrite (r : RingBuffer) (buf : List UInt8) (sz : Nat) : Option (Nat × RingBuffer) :=
  if sz > rbRemain r then some (0, r)
  else do
    let i := min sz (subU32 r.size (r.place r.writePos))
    let r ← copyIn r (r.place r.writePos) buf 0 i
    let r ← copyIn r 0 buf i (subU32 sz i)
    some (sz, { r with writePos := addU32 r.writePos sz })

/-- `rb_read`, with the bytes it leaves in the caller's buffer. -/
def rbRead (r : RingBuffer) (sz : Nat) : Option (Nat × List UInt8 × RingBuffer) :=
  if rbIsempty r then some (0, [], r)
  else do
    let sz := min sz (subU32 r.writePos r.readPos)
    let i := min sz (subU32 r.size (r.place r.readPos))
    let first ← copyOut r (r.place r.readPos) i
    let second ← copyOut r 0 (subU32 sz i)
    some (sz, first ++ second, { r with readPos := addU32 r.readPos sz })

/-- The unread bytes, oldest first. -/
def contents (r : RingBuffer) : List UInt8 := window r.buf r.size r.readPos (rbLen r)

/-! ## Histories -/

inductive Op
  | write (buf : List UInt8) (sz : Nat)
  | read (sz : Nat)

/-- What a call returns, and the bytes it hands to its caller. -/
def exec (r : RingBuffer) : Op → Option (Nat × List UInt8 × RingBuffer)
  | .write buf sz => (rbWrite r buf sz).map fun x => (x.1, [], x.2)
  | .read sz => rbRead r sz

def step (r : RingBuffer) (op : Op) : Option RingBuffer := (exec r op).map fun x => x.2.2

end CppTrack.RingBuf
