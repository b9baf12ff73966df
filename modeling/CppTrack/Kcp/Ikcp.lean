import CppTrack.Lib.Clock
import CppTrack.Lib.LittleEndian
import CppTrack.Lib.Word

/-!
# KCP (`ikcp.c`)

A reliable stream over datagrams. `ikcp_send` cuts what it is given into segments and queues them;
`ikcp_flush` gives the queued segments sequence numbers as far as the windows allow, and sends
those that are new, late or passed over; `ikcp_input` takes a datagram apart; `ikcp_recv` hands out
what has arrived in order. Two ends that talk to each other each have one `ikcpcb`.

The numbers are the `IUINT32` of the source. An `IINT32` has the same bits, and its sums and
products wrap: C leaves that undefined for an `IINT32`, and what comes of it here are the round trip
times of `ikcp_update_ack`, which are taken from what has arrived. The queues are lists of
segments, and the output callback is what `ikcp_flush` returns: the datagrams in the order they are
sent. A write past the end of `kcp->buffer` is `none`.
-/

namespace CppTrack.Kcp

open Lib

/-- `IUINT32`. -/
abbrev IUINT32 : Type := BitVec 32

def ikcpRtoNdl : IUINT32 := 30
def ikcpRtoMin : IUINT32 := 100
def ikcpRtoDef : IUINT32 := 200
def ikcpRtoMax : IUINT32 := 60000
def ikcpCmdPush : IUINT32 := 81
def ikcpCmdAck : IUINT32 := 82
def ikcpCmdWask : IUINT32 := 83
def ikcpCmdWins : IUINT32 := 84
def ikcpAskSend : IUINT32 := 1
def ikcpAskTell : IUINT32 := 2
def ikcpWndSnd : IUINT32 := 32
def ikcpWndRcv : IUINT32 := 128
def ikcpMtuDef : IUINT32 := 1400
def ikcpInterval : IUINT32 := 100
def ikcpOverhead : Nat := 24
def ikcpDeadlink : IUINT32 := 20
def ikcpThreshInit : IUINT32 := 2
def ikcpThreshMin : IUINT32 := 2
def ikcpProbeInit : IUINT32 := 7000
def ikcpProbeLimit : IUINT32 := 120000
def ikcpFastackLimit : IUINT32 := 5

/-- `_imin_`. -/
def imin (a b : IUINT32) : IUINT32 := if a ≤ b then a else b

/-- `_imax_`. -/
def imax (a b : IUINT32) : IUINT32 := if a ≥ b then a else b

/-- `_ibound_`. -/
def ibound (lower middle upper : IUINT32) : IUINT32 := imin (imax lower middle) upper

/-- `_itimediff`. -/
def itimediff (later earlier : IUINT32) : Int := ahead earlier later

/-! ## Segments -/

/-- `IKCPSEG`; its `len` is the length of the data. A field that the source has not set yet is 0. -/
structure Ikcpseg where
  conv : IUINT32 := 0
  cmd : IUINT32 := 0
  frg : IUINT32 := 0
  wnd : IUINT32 := 0
  ts : IUINT32 := 0
  sn : IUINT32 := 0
  una : IUINT32 := 0
  resendts : IUINT32 := 0
  rto : IUINT32 := 0
  fastack : IUINT32 := 0
  xmit : IUINT32 := 0
  data : List UInt8 := []
  deriving DecidableEq

def Ikcpseg.len (seg : Ikcpseg) : Nat := seg.data.length

/-- `ikcp_encode8u`. -/
def ikcpEncode8u (c : IUINT32) : List UInt8 := toLittleEndian 1 c.toNat

/-- `ikcp_encode16u`. -/
def ikcpEncode16u (w : IUINT32) : List UInt8 := toLittleEndian 2 w.toNat

/-- `ikcp_encode32u`. -/
def ikcpEncode32u (l : IUINT32) : List UInt8 := toLittleEndian 4 l.toNat

/-- `ikcp_decode8u`. -/
def ikcpDecode8u (p : List UInt8) : IUINT32 × List UInt8 :=
  (BitVec.ofNat 32 (littleEndian (p.take 1)), p.drop 1)

/-- `ikcp_decode16u`. -/
def ikcpDecode16u (p : List UInt8) : IUINT32 × List UInt8 :=
  (BitVec.ofNat 32 (littleEndian (p.take 2)), p.drop 2)

/-- `ikcp_decode32u`. -/
def ikcpDecode32u (p : List UInt8) : IUINT32 × List UInt8 :=
  (BitVec.ofNat 32 (littleEndian (p.take 4)), p.drop 4)

/-- `ikcp_encode_seg`. -/
def ikcpEncodeSeg (seg : Ikcpseg) : List UInt8 :=
  ikcpEncode32u seg.conv ++ ikcpEncode8u seg.cmd ++ ikcpEncode8u seg.frg ++
    ikcpEncode16u seg.wnd ++ ikcpEncode32u seg.ts ++ ikcpEncode32u seg.sn ++
    ikcpEncode32u seg.una ++ ikcpEncode32u (BitVec.ofNat 32 seg.len)

/-- The header of the next segment as `ikcp_input` reads it, the `len` in it, and what follows. -/
def decodeHeader (data : List UInt8) : Ikcpseg × IUINT32 × List UInt8 :=
  let (conv, data) := ikcpDecode32u data
  let (cmd, data) := ikcpDecode8u data
  let (frg, data) := ikcpDecode8u data
  let (wnd, data) := ikcpDecode16u data
  let (ts, data) := ikcpDecode32u data
  let (sn, data) := ikcpDecode32u data
  let (una, data) := ikcpDecode32u data
  let (len, data) := ikcpDecode32u data
  ({ conv, cmd, frg, wnd, ts, sn, una }, len, data)

/-- `IKCPCB`, less what only logging or nothing at all uses. `acklist` holds the `ackcount` pairs
of a sequence number and a timestamp. -/
structure Ikcpcb where
  conv : IUINT32
  mtu : IUINT32
  mss : IUINT32
  state : IUINT32
  sndUna : IUINT32
  sndNxt : IUINT32
  rcvNxt : IUINT32
  ssthresh : IUINT32
  rxRttval : IUINT32
  rxSrtt : IUINT32
  rxRto : IUINT32
  rxMinrto : IUINT32
  sndWnd : IUINT32
  rcvWnd : IUINT32
  rmtWnd : IUINT32
  cwnd : IUINT32
  probe : IUINT32
  current : IUINT32
  interval : IUINT32
  tsFlush : IUINT32
  xmit : IUINT32
  nrcvBuf : IUINT32
  nsndBuf : IUINT32
  nrcvQue : IUINT32
  nsndQue : IUINT32
  nodelay : IUINT32
  updated : IUINT32
  tsProbe : IUINT32
  probeWait : IUINT32
  deadLink : IUINT32
  incr : IUINT32
  sndQueue : List Ikcpseg
  rcvQueue : List Ikcpseg
  sndBuf : List Ikcpseg
  rcvBuf : List Ikcpseg
  acklist : List (IUINT32 × IUINT32)
  fastresend : IUINT32
  fastlimit : IUINT32
  nocwnd : IUINT32
  stream : IUINT32
  deriving DecidableEq

/-- `ikcp_create`, where no allocation fails. -/
def ikcpCreate (conv : IUINT32) : Ikcpcb where
  conv := conv
  sndUna := 0
  sndNxt := 0
  rcvNxt := 0
  tsProbe := 0
  probeWait := 0
  sndWnd := ikcpWndSnd
  rcvWnd := ikcpWndRcv
  rmtWnd := ikcpWndRcv
  cwnd := 0
  incr := 0
  probe := 0
  mtu := ikcpMtuDef
  mss := ikcpMtuDef - BitVec.ofNat 32 ikcpOverhead
  stream := 0
  sndQueue := []
  rcvQueue := []
  sndBuf := []
  rcvBuf := []
  nrcvBuf := 0
  nsndBuf := 0
  nrcvQue := 0
  nsndQue := 0
  state := 0
  acklist := []
  rxSrtt := 0
  rxRttval := 0
  rxRto := ikcpRtoDef
  rxMinrto := ikcpRtoMin
  current := 0
  interval := ikcpInterval
  tsFlush := ikcpInterval
  nodelay := 0
  updated := 0
  ssthresh := ikcpThreshInit
  fastresend := 0
  fastlimit := ikcpFastackLimit
  nocwnd := 0
  xmit := 0
  deadLink := ikcpDeadlink

/-! ## Sending and receiving -/

/-- The segments that a loop over `rcv_queue` comes to, which ends behind the first one with
`frg` 0. -/
def message : List Ikcpseg → List Ikcpseg
  | [] => []
  | seg :: segs => if seg.frg = 0 then [seg] else seg :: message segs

/-- The data of the segments, one after the other. -/
def merged (segs : List Ikcpseg) : List UInt8 := segs.flatMap Ikcpseg.data

/-- `ikcp_peeksize`. -/
def ikcpPeeksize (kcp : Ikcpcb) : Int :=
  match kcp.rcvQueue with
  | [] => -1
  | seg :: _ =>
      if seg.frg = 0 then seg.len
      else if kcp.nrcvQue < seg.frg + 1 then -1
      else (merged (message kcp.rcvQueue)).length

/-- `// move available data from rcv_buf -> rcv_queue` -/
def moveAvailable (kcp : Ikcpcb) : (rcvBuf : List Ikcpseg) → Ikcpcb
  | [] => { kcp with rcvBuf := [] }
  | seg :: rcvBuf =>
      if seg.sn = kcp.rcvNxt ∧ kcp.nrcvQue < kcp.rcvWnd then
        moveAvailable
          { kcp with
            nrcvBuf := kcp.nrcvBuf - 1
            rcvQueue := kcp.rcvQueue ++ [seg]
            nrcvQue := kcp.nrcvQue + 1
            rcvNxt := kcp.rcvNxt + 1 } rcvBuf
      else { kcp with rcvBuf := seg :: rcvBuf }

/-- `// merge fragment`: its segments leave `rcv_queue`, unless they are only looked at. -/
def mergeFragment (kcp : Ikcpcb) (ispeek : Bool) : Ikcpcb :=
  if ispeek then kcp
  else
    let count := (message kcp.rcvQueue).length
    { kcp with
      rcvQueue := kcp.rcvQueue.drop count
      nrcvQue := kcp.nrcvQue - BitVec.ofNat 32 count }

/-- `ikcp_recv`: the value returned, what is in the buffer, and the new state. `none` is a failed
`assert`. -/
def ikcpRecv (kcp : Ikcpcb) (len : Int) : Option (Int × List UInt8 × Ikcpcb) :=
  if kcp.rcvQueue = [] then some (-1, [], kcp)
  else
    let peeksize := ikcpPeeksize kcp
    if peeksize < 0 then some (-2, [], kcp)
    else if peeksize > len.natAbs then some (-3, [], kcp)
    else
      let recover := kcp.nrcvQue ≥ kcp.rcvWnd
      let buffer := merged (message kcp.rcvQueue)
      let kcp := mergeFragment kcp (len < 0)
      if (buffer.length : Int) = peeksize then
        let kcp := moveAvailable kcp kcp.rcvBuf
        let kcp :=
          if kcp.nrcvQue < kcp.rcvWnd ∧ recover then
            { kcp with probe := kcp.probe ||| ikcpAskTell }
          else kcp
        some (buffer.length, buffer, kcp)
      else none

/-- The fragments of `ikcp_send`, of which `count` are still to be made. -/
def fragment (kcp : Ikcpcb) : (count : Nat) → (buffer : List UInt8) → List Ikcpseg
  | 0, _ => []
  | count + 1, buffer =>
      let frg := if kcp.stream = 0 then BitVec.ofNat 32 count else 0
      { frg, data := buffer.take kcp.mss.toNat } :: fragment kcp count (buffer.drop kcp.mss.toNat)

/-- In streaming mode `ikcp_send` fills up the last segment of the queue first. -/
def appendToPrevious (kcp : Ikcpcb) (buffer : List UInt8) : Ikcpcb × List UInt8 :=
  match kcp.sndQueue.getLast? with
  | none => (kcp, buffer)
  | some old =>
      if old.len < kcp.mss.toNat then
        let extend := min buffer.length (kcp.mss.toNat - old.len)
        ({ kcp with
            sndQueue := kcp.sndQueue.dropLast ++ [{ data := old.data ++ buffer.take extend }] },
          buffer.drop extend)
      else (kcp, buffer)

/-- The rest of `ikcp_send`. -/
def sendFragments (kcp : Ikcpcb) (buffer : List UInt8) : Int × Ikcpcb :=
  let mss := kcp.mss.toNat
  let count := if buffer.length ≤ mss then 1 else (buffer.length + mss - 1) / mss
  if count ≥ ikcpWndRcv.toNat then (-2, kcp)
  else
    (0, { kcp with
          sndQueue := kcp.sndQueue ++ fragment kcp count buffer
          nsndQue := kcp.nsndQue + BitVec.ofNat 32 count })

/-- `ikcp_send`. -/
def ikcpSend (kcp : Ikcpcb) (buffer : List UInt8) : Int × Ikcpcb :=
  if kcp.stream = 0 then sendFragments kcp buffer
  else
    let (kcp, buffer) := appendToPrevious kcp buffer
    if buffer.length ≤ 0 then (0, kcp) else sendFragments kcp buffer

/-! ## What arrives -/

/-- `ikcp_update_ack`. -/
def ikcpUpdateAck (kcp : Ikcpcb) (rtt : IUINT32) : Ikcpcb :=
  let kcp :=
    if kcp.rxSrtt = 0 then { kcp with rxSrtt := rtt, rxRttval := rtt.sdiv 2 }
    else
      let delta := (rtt - kcp.rxSrtt).toInt.natAbs
      let rxRttval := BitVec.ofInt 32 (((3 * kcp.rxRttval).toInt + delta).tdiv 4)
      let rxSrtt := (7 * kcp.rxSrtt + rtt).sdiv 8
      { kcp with rxRttval, rxSrtt := if rxSrtt.toInt < 1 then 1 else rxSrtt }
  let rto := kcp.rxSrtt + imax kcp.interval (4 * kcp.rxRttval)
  { kcp with rxRto := ibound kcp.rxMinrto rto ikcpRtoMax }

/-- `ikcp_shrink_buf`. -/
def ikcpShrinkBuf (kcp : Ikcpcb) : Ikcpcb :=
  match kcp.sndBuf with
  | [] => { kcp with sndUna := kcp.sndNxt }
  | seg :: _ => { kcp with sndUna := seg.sn }

/-- The loop of `ikcp_parse_ack`: whether it deletes a segment, and what it leaves. -/
def ackLoop (sn : IUINT32) : List Ikcpseg → Bool × List Ikcpseg
  | [] => (false, [])
  | seg :: segs =>
      if sn = seg.sn then (true, segs)
      else if itimediff sn seg.sn < 0 then (false, seg :: segs)
      else
        let r := ackLoop sn segs
        (r.1, seg :: r.2)

/-- `ikcp_parse_ack`. -/
def ikcpParseAck (kcp : Ikcpcb) (sn : IUINT32) : Ikcpcb :=
  if itimediff sn kcp.sndUna < 0 ∨ itimediff sn kcp.sndNxt ≥ 0 then kcp
  else
    let r := ackLoop sn kcp.sndBuf
    { kcp with sndBuf := r.2, nsndBuf := if r.1 then kcp.nsndBuf - 1 else kcp.nsndBuf }

/-- The loop of `ikcp_parse_una`. -/
def unaLoop (una : IUINT32) (kcp : Ikcpcb) : (sndBuf : List Ikcpseg) → Ikcpcb
  | [] => { kcp with sndBuf := [] }
  | seg :: sndBuf =>
      if itimediff una seg.sn > 0 then
        unaLoop una { kcp with nsndBuf := kcp.nsndBuf - 1 } sndBuf
      else { kcp with sndBuf := seg :: sndBuf }

/-- `ikcp_parse_una`. -/
def ikcpParseUna (kcp : Ikcpcb) (una : IUINT32) : Ikcpcb := unaLoop una kcp kcp.sndBuf

/-- The loop of `ikcp_parse_fastack`. -/
def fastackLoop (sn : IUINT32) : List Ikcpseg → List Ikcpseg
  | [] => []
  | seg :: segs =>
      if itimediff sn seg.sn < 0 then seg :: segs
      else if sn ≠ seg.sn then { seg with fastack := seg.fastack + 1 } :: fastackLoop sn segs
      else seg :: fastackLoop sn segs

/-- `ikcp_parse_fastack`. -/
def ikcpParseFastack (kcp : Ikcpcb) (sn : IUINT32) : Ikcpcb :=
  if itimediff sn kcp.sndUna < 0 ∨ itimediff sn kcp.sndNxt ≥ 0 then kcp
  else { kcp with sndBuf := fastackLoop sn kcp.sndBuf }

/-- `ikcp_ack_push`. -/
def ikcpAckPush (kcp : Ikcpcb) (sn ts : IUINT32) : Ikcpcb :=
  { kcp with acklist := kcp.acklist ++ [(sn, ts)] }

/-- The segments of `rcv_buf` from the last to the first, with the new one in its place. `none` if
it is there already. -/
def insertBack (newseg : Ikcpseg) : List Ikcpseg → Option (List Ikcpseg)
  | [] => some [newseg]
  | seg :: segs =>
      if seg.sn = newseg.sn then none
      else if itimediff newseg.sn seg.sn > 0 then some (newseg :: seg :: segs)
      else (insertBack newseg segs).map (seg :: ·)

/-- `ikcp_parse_data`. -/
def ikcpParseData (kcp : Ikcpcb) (newseg : Ikcpseg) : Ikcpcb :=
  if itimediff newseg.sn (kcp.rcvNxt + kcp.rcvWnd) ≥ 0 ∨ itimediff newseg.sn kcp.rcvNxt < 0 then kcp
  else
    let kcp :=
      match insertBack newseg kcp.rcvBuf.reverse with
      | none => kcp
      | some segs => { kcp with rcvBuf := segs.reverse, nrcvBuf := kcp.nrcvBuf + 1 }
    moveAvailable kcp kcp.rcvBuf

/-- What the loop of `ikcp_input` goes on with. -/
structure InputState where
  kcp : Ikcpcb
  flag : Bool
  maxack : IUINT32

/-- What every segment tells is the window and what has been received without a gap. -/
def inputUna (kcp : Ikcpcb) (seg : Ikcpseg) : Ikcpcb :=
  ikcpShrinkBuf (ikcpParseUna { kcp with rmtWnd := seg.wnd } seg.una)

/-- `if (cmd == IKCP_CMD_ACK)` -/
def inputAck (st : InputState) (seg : Ikcpseg) : InputState :=
  let kcp :=
    if itimediff st.kcp.current seg.ts ≥ 0 then ikcpUpdateAck st.kcp (st.kcp.current - seg.ts)
    else st.kcp
  let kcp := ikcpShrinkBuf (ikcpParseAck kcp seg.sn)
  if st.flag = false then { kcp, flag := true, maxack := seg.sn }
  else if itimediff seg.sn st.maxack > 0 then { st with kcp, maxack := seg.sn }
  else { st with kcp }

/-- `else if (cmd == IKCP_CMD_PUSH)` -/
def inputPush (kcp : Ikcpcb) (seg : Ikcpseg) : Ikcpcb :=
  if itimediff seg.sn (kcp.rcvNxt + kcp.rcvWnd) < 0 then
    let kcp := ikcpAckPush kcp seg.sn seg.ts
    if itimediff seg.sn kcp.rcvNxt ≥ 0 then ikcpParseData kcp seg else kcp
  else kcp

/-- What `ikcp_input` does with one segment, once its `cmd` is known to be a valid one. -/
def inputSegment (st : InputState) (seg : Ikcpseg) : InputState :=
  let kcp := inputUna st.kcp seg
  if seg.cmd = ikcpCmdAck then inputAck { st with kcp } seg
  else if seg.cmd = ikcpCmdPush then { st with kcp := inputPush kcp seg }
  else if seg.cmd = ikcpCmdWask then
    { st with kcp := { kcp with probe := kcp.probe ||| ikcpAskTell } }
  else { st with kcp }

/-- The loop of `ikcp_input`, which leaves the function where a segment is wrong. A turn takes 24
bytes or more. -/
def inputLoop : (fuel : Nat) → (data : List UInt8) → InputState → Except (Int × Ikcpcb) InputState
  | 0, _, st => .ok st
  | fuel + 1, data, st =>
      if data.length < ikcpOverhead then .ok st
      else
        let (seg, len, data) := decodeHeader data
        if seg.conv ≠ st.kcp.conv then .error (-1, st.kcp)
        else if data.length < len.toNat ∨ len.toInt < 0 then .error (-2, st.kcp)
        else if seg.cmd ≠ ikcpCmdPush ∧ seg.cmd ≠ ikcpCmdAck ∧ seg.cmd ≠ ikcpCmdWask ∧
            seg.cmd ≠ ikcpCmdWins then .error (-3, st.kcp)
        else
          inputLoop fuel (data.drop len.toNat)
            (inputSegment st { seg with data := data.take len.toNat })

/-- `ikcp_input` opens the congestion window when something new was acknowledged. -/
def openWindow (kcp : Ikcpcb) : Ikcpcb :=
  if kcp.cwnd < kcp.rmtWnd then
    let mss := kcp.mss
    let kcp : Ikcpcb :=
      if kcp.cwnd < kcp.ssthresh then { kcp with cwnd := kcp.cwnd + 1, incr := kcp.incr + mss }
      else
        let incr := if kcp.incr < mss then mss else kcp.incr
        let incr := incr + (mss * mss / incr + mss / 16)
        if (kcp.cwnd + 1) * mss ≤ incr then
          { kcp with incr, cwnd := (incr + mss - 1) / (if mss > 0 then mss else 1) }
        else { kcp with incr }
    if kcp.cwnd > kcp.rmtWnd then { kcp with cwnd := kcp.rmtWnd, incr := kcp.rmtWnd * mss } else kcp
  else kcp

/-- `ikcp_input`. -/
def ikcpInput (kcp : Ikcpcb) (data : List UInt8) : Int × Ikcpcb :=
  if data.length < ikcpOverhead then (-1, kcp)
  else
    match inputLoop data.length data { kcp, flag := false, maxack := 0 } with
    | .error r => r
    | .ok st =>
        let kcp' := if st.flag then ikcpParseFastack st.kcp st.maxack else st.kcp
        (0, if itimediff kcp'.sndUna kcp.sndUna > 0 then openWindow kcp' else kcp')

/-! ## What is sent -/

/-- `ikcp_wnd_unused`. -/
def ikcpWndUnused (kcp : Ikcpcb) : IUINT32 :=
  if kcp.nrcvQue < kcp.rcvWnd then kcp.rcvWnd - kcp.nrcvQue else 0

/-- `kcp->buffer` up to `ptr`, and what was given to the output callback. -/
structure Outbox where
  buffer : List UInt8
  sent : List (List UInt8)
  deriving DecidableEq

/-- `ikcp_output`, and `ptr = buffer`. -/
def Outbox.output (o : Outbox) : Outbox :=
  if o.buffer.length = 0 then o else ⟨[], o.sent ++ [o.buffer]⟩

/-- What `ikcp_create` and `ikcp_setmtu` allocate for `kcp->buffer`, a product on `IUINT32`. -/
def bufferSize (mtu : Nat) : Nat := (mtu + ikcpOverhead) * 3 % 2 ^ 32

/-- Room is made for the bytes if there is too little before the `mtu`, and they are written.
`none` if they do not fit into `kcp->buffer`. -/
def Outbox.put (mtu : Nat) (o : Outbox) (bytes : List UInt8) : Option Outbox :=
  let o := if o.buffer.length + bytes.length > mtu then o.output else o
  if o.buffer.length + bytes.length ≤ bufferSize mtu then
    some { o with buffer := o.buffer ++ bytes }
  else none

/-- `// flush acknowledges`, with the segment they are written with. -/
def flushAcks (mtu : Nat) : List (IUINT32 × IUINT32) → Ikcpseg → Outbox →
    Option (Ikcpseg × Outbox)
  | [], seg, o => some (seg, o)
  | (sn, ts) :: acklist, seg, o => do
      let seg := { seg with sn, ts }
      let o ← o.put mtu (ikcpEncodeSeg seg)
      flushAcks mtu acklist seg o

/-- `// probe window size (if remote window size equals zero)` -/
def probeWindow (kcp : Ikcpcb) : Ikcpcb :=
  if kcp.rmtWnd = 0 then
    if kcp.probeWait = 0 then
      { kcp with probeWait := ikcpProbeInit, tsProbe := kcp.current + ikcpProbeInit }
    else if itimediff kcp.current kcp.tsProbe ≥ 0 then
      let probeWait := if kcp.probeWait < ikcpProbeInit then ikcpProbeInit else kcp.probeWait
      let probeWait := probeWait + probeWait / 2
      let probeWait := if probeWait > ikcpProbeLimit then ikcpProbeLimit else probeWait
      { kcp with probeWait, tsProbe := kcp.current + probeWait, probe := kcp.probe ||| ikcpAskSend }
    else kcp
  else { kcp with tsProbe := 0, probeWait := 0 }

/-- `// flush window probing commands`, for one of the two. -/
def flushProbe (mtu : Nat) (asked : Prop) [Decidable asked] (cmd : IUINT32) (seg : Ikcpseg)
    (o : Outbox) : Option Outbox :=
  if asked then o.put mtu (ikcpEncodeSeg { seg with cmd }) else some o

/-- `// calculate window size` -/
def sendWindow (kcp : Ikcpcb) : IUINT32 :=
  let cwnd := imin kcp.sndWnd kcp.rmtWnd
  if kcp.nocwnd = 0 then imin kcp.cwnd cwnd else cwnd

/-- A segment with its number and the header that goes with it. -/
def numbered (kcp : Ikcpcb) (wnd : IUINT32) (newseg : Ikcpseg) : Ikcpseg :=
  { newseg with
    conv := kcp.conv
    cmd := ikcpCmdPush
    wnd
    ts := kcp.current
    sn := kcp.sndNxt
    una := kcp.rcvNxt
    resendts := kcp.current
    rto := kcp.rxRto
    fastack := 0
    xmit := 0 }

/-- `// move data from snd_queue to snd_buf` -/
def moveQueue (cwnd wnd : IUINT32) (kcp : Ikcpcb) : (sndQueue : List Ikcpseg) → Ikcpcb
  | [] => { kcp with sndQueue := [] }
  | newseg :: sndQueue =>
      if itimediff kcp.sndNxt (kcp.sndUna + cwnd) < 0 then
        moveQueue cwnd wnd
          { kcp with
            sndBuf := kcp.sndBuf ++ [numbered kcp wnd newseg]
            nsndQue := kcp.nsndQue - 1
            nsndBuf := kcp.nsndBuf + 1
            sndNxt := kcp.sndNxt + 1 } sndQueue
      else { kcp with sndQueue := newseg :: sndQueue }

/-- What the loop over `snd_buf` goes on with. -/
structure FlushState where
  out : Outbox
  xmit : IUINT32
  state : IUINT32
  change : Nat
  lost : Bool

/-- Whether and why a segment is sent. -/
inductive Due where
  | first
  | late
  | skipped
  | no
  deriving DecidableEq

/-- The tests in the loop over `snd_buf`. -/
def due (kcp : Ikcpcb) (resent : IUINT32) (segment : Ikcpseg) : Due :=
  if segment.xmit = 0 then .first
  else if itimediff kcp.current segment.resendts ≥ 0 then .late
  else if segment.fastack ≥ resent then
    if segment.xmit.toInt ≤ kcp.fastlimit.toInt ∨ kcp.fastlimit.toInt ≤ 0 then .skipped else .no
  else .no

/-- What becomes of its timers and counters. -/
def marked (kcp : Ikcpcb) (rtomin : IUINT32) (segment : Ikcpseg) : Due → Ikcpseg
  | .first =>
      { segment with
        xmit := segment.xmit + 1
        rto := kcp.rxRto
        resendts := kcp.current + kcp.rxRto + rtomin }
  | .late =>
      let rto :=
        if kcp.nodelay = 0 then segment.rto + imax segment.rto kcp.rxRto
        else segment.rto + (if kcp.nodelay < 2 then segment.rto else kcp.rxRto).sdiv 2
      { segment with xmit := segment.xmit + 1, rto, resendts := kcp.current + rto }
  | .skipped =>
      { segment with
        xmit := segment.xmit + 1
        fastack := 0
        resendts := kcp.current + segment.rto }
  | .no => segment

/-- One turn of the loop over `snd_buf`. -/
def flushSegment (kcp : Ikcpcb) (wnd resent rtomin : IUINT32) (st : FlushState)
    (segment : Ikcpseg) : Option (FlushState × Ikcpseg) :=
  let why := due kcp resent segment
  let segment := marked kcp rtomin segment why
  let st :=
    { st with
      xmit := if why = .late then st.xmit + 1 else st.xmit
      lost := st.lost || why = .late
      change := if why = .skipped then st.change + 1 else st.change }
  if why = .no then some (st, segment)
  else do
    let segment := { segment with ts := kcp.current, wnd, una := kcp.rcvNxt }
    let out ← st.out.put kcp.mtu.toNat (ikcpEncodeSeg segment ++ segment.data)
    let state := if segment.xmit ≥ kcp.deadLink then -1 else st.state
    return ({ st with out, state }, segment)

/-- `// flush data segments` -/
def flushSegments (kcp : Ikcpcb) (wnd resent rtomin : IUINT32) : FlushState → List Ikcpseg →
    Option (FlushState × List Ikcpseg)
  | st, [] => some (st, [])
  | st, segment :: segments => do
      let (st, segment) ← flushSegment kcp wnd resent rtomin st segment
      let (st, segments) ← flushSegments kcp wnd resent rtomin st segments
      return (st, segment :: segments)

/-- `// update ssthresh`, and what follows it. -/
def updateWindow (cwnd resent : IUINT32) (change : Nat) (lost : Bool) (kcp : Ikcpcb) : Ikcpcb :=
  let atLeast (ssthresh : IUINT32) := if ssthresh < ikcpThreshMin then ikcpThreshMin else ssthresh
  let kcp :=
    if change ≠ 0 then
      let ssthresh := atLeast ((kcp.sndNxt - kcp.sndUna) / 2)
      { kcp with ssthresh, cwnd := ssthresh + resent, incr := (ssthresh + resent) * kcp.mss }
    else kcp
  let kcp :=
    if lost then { kcp with ssthresh := atLeast (cwnd / 2), cwnd := 1, incr := kcp.mss } else kcp
  if kcp.cwnd < 1 then { kcp with cwnd := 1, incr := kcp.mss } else kcp

/-- `// calculate resent` -/
def resentLimit (kcp : Ikcpcb) : IUINT32 := if kcp.fastresend.toInt > 0 then kcp.fastresend else -1

/-- `ikcp_flush`: the new state and the datagrams it sends. -/
def ikcpFlush (kcp : Ikcpcb) : Option (Ikcpcb × List (List UInt8)) :=
  if kcp.updated = 0 then some (kcp, [])
  else do
    let mtu := kcp.mtu.toNat
    let wnd := ikcpWndUnused kcp
    let seg : Ikcpseg := { conv := kcp.conv, cmd := ikcpCmdAck, wnd, una := kcp.rcvNxt }
    let (seg, out) ← flushAcks mtu kcp.acklist seg ⟨[], []⟩
    let kcp := probeWindow { kcp with acklist := [] }
    let out ← flushProbe mtu (kcp.probe &&& ikcpAskSend ≠ 0) ikcpCmdWask seg out
    let out ← flushProbe mtu (kcp.probe &&& ikcpAskTell ≠ 0) ikcpCmdWins seg out
    let kcp := { kcp with probe := 0 }
    let cwnd := sendWindow kcp
    let kcp := moveQueue cwnd wnd kcp kcp.sndQueue
    let resent := resentLimit kcp
    let rtomin := if kcp.nodelay = 0 then kcp.rxRto >>> 3 else 0
    let st : FlushState := ⟨out, kcp.xmit, kcp.state, 0, false⟩
    let (st, sndBuf) ← flushSegments kcp wnd resent rtomin st kcp.sndBuf
    let out := st.out.output
    let kcp := { kcp with sndBuf, xmit := st.xmit, state := st.state }
    return (updateWindow cwnd resent st.change st.lost kcp, out.sent)

/-- `ikcp_update`. -/
def ikcpUpdate (kcp : Ikcpcb) (current : IUINT32) : Option (Ikcpcb × List (List UInt8)) :=
  let kcp := { kcp with current }
  let kcp := if kcp.updated = 0 then { kcp with updated := 1, tsFlush := current } else kcp
  let slap := itimediff kcp.current kcp.tsFlush
  let jumped := slap ≥ 10000 ∨ slap < -10000
  let kcp := if jumped then { kcp with tsFlush := current } else kcp
  if jumped ∨ slap ≥ 0 then
    let tsFlush := kcp.tsFlush + kcp.interval
    let tsFlush := if itimediff current tsFlush ≥ 0 then current + kcp.interval else tsFlush
    ikcpFlush { kcp with tsFlush }
  else some (kcp, [])

/-- The loop of `ikcp_check`: the time to the next `resendts`, or `none` if one has come. -/
def checkLoop (current : IUINT32) : (tmPacket : Int) → List Ikcpseg → Option Int
  | tmPacket, [] => some tmPacket
  | tmPacket, seg :: segs =>
      let diff := itimediff seg.resendts current
      if diff ≤ 0 then none
      else checkLoop current (if diff < tmPacket then diff else tmPacket) segs

/-- `ikcp_check`. -/
def ikcpCheck (kcp : Ikcpcb) (current : IUINT32) : IUINT32 :=
  if kcp.updated = 0 then current
  else
    let slap := itimediff current kcp.tsFlush
    let tsFlush := if slap ≥ 10000 ∨ slap < -10000 then current else kcp.tsFlush
    if itimediff current tsFlush ≥ 0 then current
    else
      let tmFlush := itimediff tsFlush current
      match checkLoop current 0x7fffffff kcp.sndBuf with
      | none => current
      | some tmPacket =>
          let minimal := BitVec.ofInt 32 (if tmPacket < tmFlush then tmPacket else tmFlush)
          current + (if minimal ≥ kcp.interval then kcp.interval else minimal)

/-! ## Settings -/

/-- `ikcp_setmtu`, where no allocation fails. -/
def ikcpSetmtu (kcp : Ikcpcb) (mtu : CInt) : Int × Ikcpcb :=
  if mtu.1 < 50 ∨ mtu.1 < ikcpOverhead then (-1, kcp)
  else
    let mtu := BitVec.ofInt 32 mtu.1
    (0, { kcp with mtu, mss := mtu - BitVec.ofNat 32 ikcpOverhead })

/-- An interval is at least 10 and at most 5000. -/
def clampInterval (interval : CInt) : IUINT32 :=
  if interval.1 > 5000 then 5000 else if interval.1 < 10 then 10 else BitVec.ofInt 32 interval.1

/-- `ikcp_interval`. -/
def ikcpSetInterval (kcp : Ikcpcb) (interval : CInt) : Ikcpcb :=
  { kcp with interval := clampInterval interval }

/-- `ikcp_nodelay`. -/
def ikcpNodelay (kcp : Ikcpcb) (nodelay interval resend nc : CInt) : Ikcpcb :=
  let kcp :=
    if nodelay.1 ≥ 0 then
      { kcp with
        nodelay := BitVec.ofInt 32 nodelay.1
        rxMinrto := if nodelay.1 ≠ 0 then ikcpRtoNdl else ikcpRtoMin }
    else kcp
  let kcp := if interval.1 ≥ 0 then { kcp with interval := clampInterval interval } else kcp
  let kcp := if resend.1 ≥ 0 then { kcp with fastresend := BitVec.ofInt 32 resend.1 } else kcp
  if nc.1 ≥ 0 then { kcp with nocwnd := BitVec.ofInt 32 nc.1 } else kcp

/-- `ikcp_wndsize`. -/
def ikcpWndsize (kcp : Ikcpcb) (sndwnd rcvwnd : CInt) : Ikcpcb :=
  let kcp := if sndwnd.1 > 0 then { kcp with sndWnd := BitVec.ofInt 32 sndwnd.1 } else kcp
  if rcvwnd.1 > 0 then { kcp with rcvWnd := imax (BitVec.ofInt 32 rcvwnd.1) ikcpWndRcv } else kcp

/-- `ikcp_waitsnd`. -/
def ikcpWaitsnd (kcp : Ikcpcb) : IUINT32 := kcp.nsndBuf + kcp.nsndQue

/-! ## Calls -/

/-- What an application and the network do with one end. An application sets some fields itself. -/
inductive Call where
  | send (buffer : List UInt8)
  | recv (len : CInt)
  | input (data : List UInt8)
  | update (current : IUINT32)
  | flush
  | setmtu (mtu : CInt)
  | setInterval (interval : CInt)
  | nodelay (nodelay interval resend nc : CInt)
  | wndsize (sndwnd rcvwnd : CInt)
  | fields (stream rxMinrto fastresend : IUINT32)

/-- The state after a call. -/
def Ikcpcb.call (kcp : Ikcpcb) : Call → Option Ikcpcb
  | .send buffer => some (ikcpSend kcp buffer).2
  | .recv len => (ikcpRecv kcp len.1).map fun r => r.2.2
  | .input data => some (ikcpInput kcp data).2
  | .update current => (ikcpUpdate kcp current).map fun r => r.1
  | .flush => (ikcpFlush kcp).map fun r => r.1
  | .setmtu mtu => some (ikcpSetmtu kcp mtu).2
  | .setInterval interval => some (ikcpSetInterval kcp interval)
  | .nodelay nodelay interval resend nc => some (ikcpNodelay kcp nodelay interval resend nc)
  | .wndsize sndwnd rcvwnd => some (ikcpWndsize kcp sndwnd rcvwnd)
  | .fields stream rxMinrto fastresend => some { kcp with stream, rxMinrto, fastresend }

end CppTrack.Kcp
