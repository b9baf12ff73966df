import CppTrack.Proto.SimpleBuffer

/-!
# A PDU of the IM server (`ImPduBase.cc`)

A PDU is a header of 16 bytes and a body. The header is written at fixed offsets into the buffer
of the PDU and read as a stream; both put the most significant byte first. `ReadPdu` makes a PDU of
the first bytes of a buffer when, going by the length they start with, all of it is there.
-/

namespace CppTrack.IM

open Lib

def imPduHeaderLen : Nat := 16
def imPduVersion : Nat := 1
def sidOther : Nat := 7
def errorCodeParseFailed : Nat := 1

/-! ## `CByteStream` -/

/-- `static_cast<uchar_t>`. -/
def uchar (n : Nat) : UInt8 := UInt8.ofNat n

def joinUint16 : List Cell → Except Fault Nat
  | [some a, some b] => pure (a.toNat <<< 8 ||| b.toNat)
  | _ => throw .undefined

def joinUint32 : List Cell → Except Fault Nat
  | [some a, some b, some c, some d] =>
      pure (a.toNat <<< 24 ||| b.toNat <<< 16 ||| c.toNat <<< 8 ||| d.toNat)
  | _ => throw .undefined

/-- `ReadUint16`. -/
def readUint16 (buf : List Cell) (off : Nat) : Except Fault Nat := do
  joinUint16 (← defined (copyOut buf off 2))

/-- `ReadUint32`. -/
def readUint32 (buf : List Cell) (off : Nat) : Except Fault Nat := do
  joinUint32 (← defined (copyOut buf off 4))

/-- `WriteUint16`. -/
def writeUint16 (buf : List Cell) (off data : Nat) : Except Fault (List Cell) :=
  defined (copyTo buf off [some (uchar (data >>> 8)), some (uchar (data &&& 0xFF))])

/-- `WriteInt32`. The bytes are the same for the `uint32_t` it is called with. -/
def writeInt32 (buf : List Cell) (off data : Nat) : Except Fault (List Cell) :=
  defined (copyTo buf off [some (uchar (data >>> 24)), some (uchar (data >>> 16 &&& 0xFF)),
    some (uchar (data >>> 8 &&& 0xFF)), some (uchar (data &&& 0xFF))])

/-- A `CByteStream` over plain memory. -/
structure CByteStream where
  buf : List Cell
  len : Nat
  pos : Nat

namespace CByteStream

/-- `_ReadByte`. -/
def readByte (s : CByteStream) (len : Nat) : Except Fault (List Cell × CByteStream) :=
  if addU32 s.pos len > s.len then
    throw (.thrown ⟨0, 0, errorCodeParseFailed, "parase packet failed!"⟩)
  else do
    let bytes ← defined (copyOut s.buf s.pos len)
    pure (bytes, { s with pos := addU32 s.pos len })

/-- `operator >>` into a `uint16_t`. -/
def getUint16 (s : CByteStream) : Except Fault (Nat × CByteStream) := do
  let (bytes, s) ← s.readByte 2
  let data ← joinUint16 bytes
  pure (data, s)

/-- `operator >>` into a `uint32_t`. -/
def getUint32 (s : CByteStream) : Except Fault (Nat × CByteStream) := do
  let (bytes, s) ← s.readByte 4
  let data ← joinUint32 bytes
  pure (data, s)

end CByteStream

/-! ## `CImPdu` -/

/-- `PduHeader_t`. The constructor of a PDU leaves `length` unset. -/
structure PduHeader where
  length : Option Nat
  version : Nat
  flag : Nat
  serviceId : Nat
  commandId : Nat
  seqNum : Nat
  reversed : Nat
  deriving DecidableEq

structure CImPdu where
  buf : CSimpleBuffer
  header : PduHeader
  deriving DecidableEq

namespace CImPdu

/-- The constructor. -/
def new : CImPdu where
  buf := CSimpleBuffer.new
  header :=
    { length := none, version := imPduVersion, flag := 0, serviceId := sidOther, commandId := 0,
      seqNum := 0, reversed := 0 }

/-- `GetLength`. -/
def getLength (p : CImPdu) : Nat := p.buf.writeOffset

/-- `GetBodyLength`. -/
def getBodyLength (p : CImPdu) : Nat := subU32 p.buf.writeOffset imPduHeaderLen

/-- The bytes from `GetBodyData` on, as many as `GetBodyLength` says. -/
def body (p : CImPdu) : Option (List Cell) := copyOut p.buf.buffer imPduHeaderLen p.getBodyLength

/-- `WriteHeader`. -/
def writeHeader (p : CImPdu) : Except Fault CImPdu := do
  let buf ← writeInt32 p.buf.buffer 0 p.getLength
  let buf ← writeUint16 buf 4 p.header.version
  let buf ← writeUint16 buf 6 p.header.flag
  let buf ← writeUint16 buf 8 p.header.serviceId
  let buf ← writeUint16 buf 10 p.header.commandId
  let buf ← writeUint16 buf 12 p.header.seqNum
  let buf ← writeUint16 buf 14 p.header.reversed
  pure { p with buf := { p.buf with buffer := buf } }

/-- What the setters do: the field is written into the buffer only. -/
def setField (p : CImPdu) (off data : Nat) : Except Fault CImPdu := do
  let buf ← writeUint16 p.buf.buffer off data
  pure { p with buf := { p.buf with buffer := buf } }

/-- `SetVersion`. -/
def setVersion (p : CImPdu) (version : UInt16) : Except Fault CImPdu :=
  p.setField 4 version.toNat

/-- `SetFlag`. -/
def setFlag (p : CImPdu) (flag : UInt16) : Except Fault CImPdu := p.setField 6 flag.toNat

/-- `SetServiceId`. -/
def setServiceId (p : CImPdu) (serviceId : UInt16) : Except Fault CImPdu :=
  p.setField 8 serviceId.toNat

/-- `SetCommandId`. -/
def setCommandId (p : CImPdu) (commandId : UInt16) : Except Fault CImPdu :=
  p.setField 10 commandId.toNat

/-- `SetSeqNum`. -/
def setSeqNum (p : CImPdu) (seqNum : UInt16) : Except Fault CImPdu := p.setField 12 seqNum.toNat

/-- `SetReversed`. `WriteUint16` takes the low half of its `uint32_t`. -/
def setReversed (p : CImPdu) (reversed : UInt32) : Except Fault CImPdu :=
  p.setField 14 reversed.toUInt16.toNat

/-- `ReadPduHeader`, with the header it leaves. -/
def readPduHeader (p : CImPdu) (buf : List Cell) (len : Nat) : Except Fault (Int × CImPdu) :=
  if imPduHeaderLen ≤ len ∧ buf ≠ [] then do
    let (length, is) ← CByteStream.getUint32 { buf := buf, len := len, pos := 0 }
    let (version, is) ← is.getUint16
    let (flag, is) ← is.getUint16
    let (serviceId, is) ← is.getUint16
    let (commandId, is) ← is.getUint16
    let (seqNum, is) ← is.getUint16
    let (reversed, _) ← is.getUint16
    pure (0, { p with
      header := ⟨some length, version, flag, serviceId, commandId, seqNum, reversed⟩ })
  else pure (-1, p)

/-- `IsPduAvailable`, with `pdu_len` when it is. -/
def isPduAvailable (buf : List Cell) (len : Nat) : Except Fault (Option Nat) :=
  if len < imPduHeaderLen then pure none
  else do
    let pduLen ← readUint32 buf 0
    if pduLen > len then pure none
    else if 0 = pduLen then throw (.thrown ⟨0, 0, 1, "pdu_len is 0"⟩)
    else pure (some pduLen)

/-- `ReadPdu`. -/
def readPdu (buf : List Cell) (len : Nat) : Except Fault (Option CImPdu) := do
  match ← isPduAvailable buf len with
  | none => pure none
  | some pduLen => do
      let _ ← readUint16 buf 8
      let _ ← readUint16 buf 10
      let pBuf ← new.buf.write (some buf) pduLen
      let (_, pdu) ← readPduHeader { new with buf := pBuf } buf imPduHeaderLen
      pure (some pdu)

/-- `SetPBMsg`, of a message that `SerializeToArray` writes as these `ByteSize()` bytes. -/
def setPBMsg (p : CImPdu) (msg : List UInt8) : Except Fault CImPdu := do
  let (_, buf) ← p.buf.read p.buf.writeOffset
  let buf ← buf.write none imPduHeaderLen
  let buf ← buf.write (some (msg.map some)) msg.length
  writeHeader { p with buf := buf }

end CImPdu

end CppTrack.IM
