import CppTrack.Lib.Base64
import CppTrack.Net.WebServer

/-!
# The handshake (`websocket_server.c`)

The first data of a connection is taken for an HTTP request: `handshark` looks through its lines for
`Sec-WebSocket-Key`, and puts the response in place of the request. What comes later is a frame.

OpenSSL's `SHA1` and the filter that `BIO_f_base64` gives are not in the repository. An access
outside an array is `none`, and where a loop can go on for ever there is fuel.
-/

namespace CppTrack.WebSocket

open Lib WebServer

/-- `linebuf + WEBSOCK_KEY_LENGTH` is behind `Sec-WebSocket-Key: `. -/
def websockKeyLength : Nat := 19

/-- `GUID`, `"258EAFA5-E914-47DA-95CA-C5AB0DC85B11"`. -/
def guid : List UInt8 :=
  [50, 53, 56, 69, 65, 70, 65, 53, 45, 69, 57, 49, 52, 45, 52, 55, 68, 65, 45, 57, 53, 67, 65, 45,
    67, 53, 65, 66, 48, 68, 67, 56, 53, 66, 49, 49]

/-- `"Sec-WebSocket-Key"`. -/
def secWebSocketKey : List UInt8 :=
  [83, 101, 99, 45, 87, 101, 98, 83, 111, 99, 107, 101, 116, 45, 75, 101, 121]

/-- `status_machine`. -/
inductive StatusMachine where
  | wsHandshark
  | wsTranmission
  | wsEnd
  deriving DecidableEq

/-- `char buffer[BUFFER_LENGTH]`. -/
structure Buffer where
  cells : List UInt8
  size : cells.length = bufferLength

namespace Buffer

/-- What `memset` makes of one. -/
def zero : Buffer := ⟨List.replicate bufferLength 0, List.length_replicate⟩

def get (b : Buffer) (i : Int) : Option UInt8 :=
  if i < 0 then none else b.cells[i.toNat]?

def write (b : Buffer) (off : Nat) (cells : List UInt8) : Option Buffer :=
  match h : copyTo b.cells off cells with
  | some cells => some ⟨cells, (length_copyTo h).trans b.size⟩
  | none => none

end Buffer

/-- `struct ntyevent`. -/
structure NtyEvent where
  fd : Nat
  events : Nat
  callback : Option Callback
  status : Nat
  buffer : Buffer
  length : Int
  statusMachine : StatusMachine

/-- `nty_event_set`. -/
def ntyEventSet (ev : NtyEvent) (fd : Nat) (callback : Callback) : NtyEvent :=
  { ev with fd, callback := some callback, events := 0 }

/-- `nty_event_add`. -/
def ntyEventAdd (events : Nat) (ev : NtyEvent) : NtyEvent := { ev with events, status := 1 }

/-- `nty_event_del`. -/
def ntyEventDel (ev : NtyEvent) : NtyEvent :=
  if ev.status ≠ 1 then ev else { ev with status := 0 }

/-- What the server gets from OpenSSL. -/
structure OpenSsl where
  /-- `SHA1`. -/
  sha1 : List UInt8 → List UInt8
  sha1_length : ∀ s, (sha1 s).length = 20
  /-- What is in the memory behind the filter once it is flushed. -/
  filter : List UInt8 → List UInt8
  /-- A line has 64 digits. -/
  filter_eq : ∀ s, s ≠ [] → s.length ≤ 48 → filter s = Base64.encode s ++ [lf]
  filter_nil : filter [] = [] ∨ filter [] = [lf]

/-! ## Strings -/

/-- The string in an array, as `strlen` finds it. -/
def cstr (block : List UInt8) : Option (List UInt8) :=
  if 0 ∈ block then some (block.takeWhile (· ≠ 0)) else none

/-- `readline`. -/
def readline (allbuf : Buffer) (idx : Nat) (linebuf : List UInt8) :
    Option (Int × List UInt8) := do
  let s ← cstr allbuf.cells
  WebServer.readline (s.drop idx) idx linebuf 0

/-- `base64_encode`; `inStr` is the `in_len` bytes. -/
def base64Encode (ssl : OpenSsl) (inStr outStr : List UInt8) : Option (List UInt8) := do
  let data := ssl.filter inStr
  let outStr ← copyTo outStr 0 data
  -- the zero is put in place of the last byte, if there is one
  if data = [] then none else copyTo outStr (data.length - 1) [0]

/-! ## The handshake -/

/-- The response that says `accept`. -/
def response (accept : List UInt8) : List UInt8 :=
  bytesOf ("HTTP/1.1 101 Switching Protocols\r\n" ++
    "Upgrade: websocket\r\n" ++
    "Connection: Upgrade\r\n" ++
    "Sec-WebSocket-Accept: ") ++ accept ++ bytesOf "\r\n\r\n"

/-- What `handshark` does with a line that has the word in it. -/
def accept (ssl : OpenSsl) (ev : NtyEvent) (linebuf : List UInt8) : Option NtyEvent := do
  let line ← cstr linebuf
  let linebuf ← copyTo linebuf line.length (guid ++ [0])
  let key ← cstr (linebuf.drop websockKeyLength)
  let secData ← copyTo (List.replicate 128 0) 0 (ssl.sha1 key)
  let digest ← cstr secData
  let secAccept ← base64Encode ssl digest (List.replicate 32 0)
  let value ← cstr secAccept
  let buffer ← Buffer.zero.write 0 (response value ++ [0])
  some { ev with buffer, length := (response value).length }

/-- The first part of the condition of the loop, negated: a blank line is next. -/
def blankAt (b : Buffer) (idx : Int) : Option Bool := do
  let c ← b.get idx
  if c ≠ cr then some false
  else do
    let d ← b.get (idx + 1)
    some (decide (d = lf))

/-- What becomes of a call. -/
inductive Outcome (α : Type) where
  | done (a : α)
  | outOfBounds
  | outOfFuel

def Outcome.ofOption {α : Type} : Option α → Outcome α
  | some a => .done a
  | none => .outOfBounds

/-- The loop of `handshark`. -/
def handsharkLoop (ssl : OpenSsl) (ev : NtyEvent) : (fuel idx : Nat) → Outcome NtyEvent
  | 0, _ => .outOfFuel
  | fuel + 1, idx =>
      match readline ev.buffer idx (List.replicate linebufSize 0) with
      | none => .outOfBounds
      | some (idx', linebuf) =>
          match strstr linebuf secWebSocketKey with
          | none => .outOfBounds
          | some true => .ofOption (accept ssl ev linebuf)
          | some false =>
              -- that there is no next line is asked only behind the look at the buffer
              match blankAt ev.buffer idx' with
              | none => .outOfBounds
              | some true => .done ev
              | some false =>
                  if idx' = -1 then .done ev else handsharkLoop ssl ev fuel idx'.toNat

/-- `handshark`. -/
def handshark (ssl : OpenSsl) (fuel : Nat) (ev : NtyEvent) : Outcome NtyEvent :=
  handsharkLoop ssl ev fuel 0

/-! ## Frames -/

/-- `umask` of the payload that starts at `pos`, with `n` turns of the loop to go. -/
def umask (maskKey : List UInt8) (pos : Nat) : (i n : Nat) → (b : Buffer) → Option Buffer
  | _, 0, b => some b
  | i, n + 1, b => do
      let c ← b.get (pos + i)
      let m ← maskKey[i % 4]?
      let b ← b.write (pos + i) [c ^^^ m]
      umask maskKey pos (i + 1) n b

/-- `transmission`. -/
def transmission (ev : NtyEvent) : Option NtyEvent := do
  let hdr ← ev.buffer.get 1
  let plLen := hdr.toNat % 128
  if plLen < 126 then do
    let key ← copyOut ev.buffer.cells 2 4
    let turns := if hdr.toNat / 128 = 1 then plLen else 0
    let buffer ← umask key 6 0 turns ev.buffer
    -- the payload is printed as a string
    let _ ← cstr (buffer.cells.drop 6)
    some { ev with buffer }
  else some ev

/-! ## Callbacks -/

/-- `websocket_request`. -/
def websocketRequest (ssl : OpenSsl) (fuel : Nat) (ev : NtyEvent) : Outcome NtyEvent :=
  match ev.statusMachine with
  | .wsHandshark => handshark ssl fuel { ev with statusMachine := .wsTranmission }
  | .wsTranmission => .ofOption (transmission ev)
  | .wsEnd => .done ev

/-- The element with the data in its buffer, and the zero behind it. -/
def received (ev : NtyEvent) (bytes : List UInt8) : Option NtyEvent := do
  let buffer ← ev.buffer.write 0 bytes
  let buffer ← buffer.write bytes.length [0]
  some { ev with buffer, length := bytes.length }

/-- `recv_cb`: the new element, and whether the descriptor is closed. -/
def recvCb (ssl : OpenSsl) (fuel fd : Nat) (ev : NtyEvent) : Received → Outcome (NtyEvent × Bool)
  | .data bytes =>
      match received ev bytes with
      | none => .outOfBounds
      | some ev =>
          match websocketRequest ssl fuel ev with
          | .done ev => .done (ntyEventAdd epollout (ntyEventSet (ntyEventDel ev) fd .send), false)
          | .outOfBounds => .outOfBounds
          | .outOfFuel => .outOfFuel
  | .closed => .done (ntyEventDel ev, true)
  | .failed _ => .done (ntyEventDel ev, true)

/-- `accept_cb`, of the element of the new descriptor. -/
def acceptCb (fd : Nat) (ev : NtyEvent) : NtyEvent :=
  ntyEventAdd epollin (ntyEventSet { ev with statusMachine := .wsHandshark } fd .recv)

/-- What `send_cb` hands to `send`. -/
def sent (ev : NtyEvent) : List UInt8 := ev.buffer.cells.take ev.length.toNat

end CppTrack.WebSocket
