import CppTrack.Proto.ImPdu

/-!
# A stream of typed values (`CByteStream` of `UtilPdu.cc`)

A stream is made over plain memory, which must not be left, or over a `CSimpleBuffer`, which grows.
Numbers are put most significant byte first, strings and data behind their length. A write for
which the memory has no room does nothing; a read or a skip past the end throws.
-/

namespace CppTrack.IM

open Lib

/-- A string as C has it: no byte of it is 0, the one after it is. -/
def CString : Type := { str : List UInt8 // 0 ∉ str }

def CString.memory (str : CString) : List Cell := str.val.map some ++ [some 0]

/-- `strlen`. -/
def strlen : List Cell → Except Fault Nat
  | [] => throw .undefined
  | none :: _ => throw .undefined
  | some c :: str => if c = 0 then pure 0 else do pure (1 + (← strlen str))

/-- What a read returns. The bytes of a string or of data stay where they are in the stream, and
the caller finds them there. -/
inductive Value
  | int8 (data : Int8)
  | uint8 (data : UInt8)
  | int16 (data : Int16)
  | uint16 (data : UInt16)
  | int32 (data : Int32)
  | uint32 (data : UInt32)
  | string (str : List Cell)
  | data (data : List Cell)
  deriving DecidableEq

/-- A call that reads. -/
inductive Get
  | int8
  | uint8
  | int16
  | uint16
  | int32
  | uint32
  | string
  | data

/-- A call that writes. -/
inductive Put
  | int8 (data : Int8)
  | uint8 (data : UInt8)
  | int16 (data : Int16)
  | uint16 (data : UInt16)
  | int32 (data : Int32)
  | uint32 (data : UInt32)
  /-- `WriteString(str)`, perhaps of a null pointer. -/
  | cstring (str : Option CString)
  /-- `WriteString(str, len)`. -/
  | string (str : List UInt8)
  | data (data : List UInt8)

/-! ## Reading -/

namespace CByteStream

/-- `Skip`. -/
def skip (s : CByteStream) (len : Nat) : Except Fault CByteStream :=
  let s := { s with pos := addU32 s.pos len }
  if s.pos > s.len then
    throw (.thrown ⟨0, 0, errorCodeParseFailed, "parase packet failed!"⟩)
  else pure s

/-- The one byte of an `int8_t` or a `uint8_t`. -/
def joinUint8 : List Cell → Except Fault UInt8
  | [some a] => pure a
  | _ => throw .undefined

/-- `operator >>` into a `uint8_t`. -/
def getUint8 (s : CByteStream) : Except Fault (UInt8 × CByteStream) := do
  let (bytes, s) ← s.readByte 1
  let data ← joinUint8 bytes
  pure (data, s)

/-- `operator >>` into an `int8_t`. -/
def getInt8 (s : CByteStream) : Except Fault (Int8 × CByteStream) := do
  let (data, s) ← s.getUint8
  pure (data.toInt8, s)

/-- `operator >>` into an `int16_t`. The `int` that is joined is cut to its low half. -/
def getInt16 (s : CByteStream) : Except Fault (Int16 × CByteStream) := do
  let (bytes, s) ← s.readByte 2
  let data ← joinUint16 bytes
  pure (Int16.ofNat data, s)

/-- `operator >>` into an `int32_t`. -/
def getInt32 (s : CByteStream) : Except Fault (Int32 × CByteStream) := do
  let (bytes, s) ← s.readByte 4
  let data ← joinUint32 bytes
  pure (Int32.ofNat data, s)

/-- `ReadString`, `ReadData`: a length, and then that many bytes from where the stream is. -/
def readBlob (s : CByteStream) : Except Fault (List Cell × CByteStream) := do
  let (len, s) ← s.getUint32
  let pos := s.pos
  let s ← s.skip len
  let blob ← defined (copyOut s.buf pos len)
  pure (blob, s)

/-- `ReadString`. -/
def readString (s : CByteStream) : Except Fault (List Cell × CByteStream) := s.readBlob

/-- `ReadData`. -/
def readData (s : CByteStream) : Except Fault (List Cell × CByteStream) := s.readBlob

def get (s : CByteStream) : Get → Except Fault (Value × CByteStream)
  | .int8 => do let (data, s) ← s.getInt8; pure (.int8 data, s)
  | .uint8 => do let (data, s) ← s.getUint8; pure (.uint8 data, s)
  | .int16 => do let (data, s) ← s.getInt16; pure (.int16 data, s)
  | .uint16 => do let (data, s) ← s.getUint16; pure (.uint16 (UInt16.ofNat data), s)
  | .int32 => do let (data, s) ← s.getInt32; pure (.int32 data, s)
  | .uint32 => do let (data, s) ← s.getUint32; pure (.uint32 (UInt32.ofNat data), s)
  | .string => do let (str, s) ← s.readString; pure (.string str, s)
  | .data => do let (data, s) ← s.readData; pure (.data data, s)

/-- Calls that read, one after the other, with what they return. -/
def getAll (s : CByteStream) : List Get → Except Fault (List Value × CByteStream)
  | [] => pure ([], s)
  | g :: gets => do
      let (v, s) ← s.get g
      let (vs, s) ← getAll s gets
      pure (v :: vs, s)

end CByteStream

/-! ## Writing -/

/-- A stream to write to. `m_pBuf` of one over a buffer is null. -/
inductive OutStream
  | memory (s : CByteStream)
  | buffer (b : CSimpleBuffer) (pos : Nat)

namespace OutStream

/-- `CByteStream(buf, len)`. -/
def ofMemory (buf : List Cell) (len : Nat) : OutStream :=
  .memory { buf := buf, len := len, pos := 0 }

/-- `CByteStream(pSimpBuf, pos)`. -/
def ofBuffer (b : CSimpleBuffer) (pos : Nat) : OutStream := .buffer b pos

/-- `_WriteByte`. Through a null pointer no byte can be read. -/
def writeByte (out : OutStream) (buf : Option (List Cell)) (len : Nat) : Except Fault OutStream :=
  match out with
  | .memory s =>
      if addU32 s.pos len > s.len then pure (.memory s)
      else do
        let mem ← defined ((copyOut (buf.getD []) 0 len).bind (copyTo s.buf s.pos))
        pure (.memory { s with buf := mem, pos := addU32 s.pos len })
  | .buffer b pos => do
      let b ← b.write buf len
      pure (.buffer b (addU32 pos len))

/-- `_WriteByte` of an array of the caller's. -/
def writeBytes (out : OutStream) (bytes : List UInt8) : Except Fault OutStream :=
  out.writeByte (some (bytes.map some)) bytes.length

/-- `operator <<` of a `uint8_t`. -/
def putUint8 (out : OutStream) (data : UInt8) : Except Fault OutStream := out.writeBytes [data]

/-- `operator <<` of an `int8_t`. -/
def putInt8 (out : OutStream) (data : Int8) : Except Fault OutStream :=
  out.writeBytes [data.toUInt8]

/-- `operator <<` of a `uint16_t`. -/
def putUint16 (out : OutStream) (data : UInt16) : Except Fault OutStream :=
  out.writeBytes [(data >>> 8).toUInt8, (data &&& 0xFF).toUInt8]

/-- `operator <<` of an `int16_t`. The shift keeps the sign. -/
def putInt16 (out : OutStream) (data : Int16) : Except Fault OutStream :=
  out.writeBytes [(data >>> 8).toUInt16.toUInt8, (data &&& 0xFF).toUInt16.toUInt8]

/-- `operator <<` of a `uint32_t`. -/
def putUint32 (out : OutStream) (data : UInt32) : Except Fault OutStream :=
  out.writeBytes [(data >>> 24).toUInt8, (data >>> 16 &&& 0xFF).toUInt8,
    (data >>> 8 &&& 0xFF).toUInt8, (data &&& 0xFF).toUInt8]

/-- `operator <<` of an `int32_t`. -/
def putInt32 (out : OutStream) (data : Int32) : Except Fault OutStream :=
  out.writeBytes [(data >>> 24).toUInt32.toUInt8, (data >>> 16 &&& 0xFF).toUInt32.toUInt8,
    (data >>> 8 &&& 0xFF).toUInt32.toUInt8, (data &&& 0xFF).toUInt32.toUInt8]

/-- `WriteString(str, len)`, `WriteData`: the length, and then that many bytes. -/
def writeBlob (out : OutStream) (blob : Option (List Cell)) (len : UInt32) :
    Except Fault OutStream := do
  let out ← out.putUint32 len
  out.writeByte blob len.toNat

/-- `WriteString(str)`. -/
def writeCString (out : OutStream) (str : Option (List Cell)) : Except Fault OutStream := do
  let size ← match str with
    | some str => strlen str
    | none => pure 0
  out.writeBlob str (UInt32.ofNat size)

/-- `WriteString(str, len)`. -/
def writeString (out : OutStream) (str : List Cell) (len : UInt32) : Except Fault OutStream :=
  out.writeBlob (some str) len

/-- `WriteData`. -/
def writeData (out : OutStream) (data : List Cell) (len : UInt32) : Except Fault OutStream :=
  out.writeBlob (some data) len

def put (out : OutStream) : Put → Except Fault OutStream
  | .int8 data => out.putInt8 data
  | .uint8 data => out.putUint8 data
  | .int16 data => out.putInt16 data
  | .uint16 data => out.putUint16 data
  | .int32 data => out.putInt32 data
  | .uint32 data => out.putUint32 data
  | .cstring str => out.writeCString (str.map CString.memory)
  | .string str => out.writeString (str.map some) (UInt32.ofNat str.length)
  | .data data => out.writeData (data.map some) (UInt32.ofNat data.length)

/-- The memory that the stream writes to. -/
def mem : OutStream → List Cell
  | .memory s => s.buf
  | .buffer b _ => b.buffer

end OutStream

end CppTrack.IM
