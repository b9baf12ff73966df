import CppTrack.Kcp.Ikcp
import CppTrack.Lib.SerialOrder

/-!
# The two sides of an `ikcpcb`

Receiving and sending share little: most of what the calls do leaves one of the two sides alone,
and a datagram is worked off one segment at a time. What is said here about each call once is what
the invariants of both sides are derived from.
-/

namespace CppTrack.Kcp

open Lib

/-- The fields of an `ikcpcb` that receiving is about. -/
structure RcvSide where
  rcvNxt : IUINT32
  rcvWnd : IUINT32
  nrcvBuf : IUINT32
  nrcvQue : IUINT32
  rcvQueue : List Ikcpseg
  rcvBuf : List Ikcpseg

def Ikcpcb.rcvSide (kcp : Ikcpcb) : RcvSide :=
  ⟨kcp.rcvNxt, kcp.rcvWnd, kcp.nrcvBuf, kcp.nrcvQue, kcp.rcvQueue, kcp.rcvBuf⟩

/-- The fields of an `ikcpcb` that sending is about. -/
structure SndSide where
  sndUna : IUINT32
  sndNxt : IUINT32
  rmtWnd : IUINT32
  nsndBuf : IUINT32
  nsndQue : IUINT32
  sndQueue : List Ikcpseg
  sndBuf : List Ikcpseg

def Ikcpcb.sndSide (kcp : Ikcpcb) : SndSide :=
  ⟨kcp.sndUna, kcp.sndNxt, kcp.rmtWnd, kcp.nsndBuf, kcp.nsndQue, kcp.sndQueue, kcp.sndBuf⟩

/-- What only settings change. -/
def Ikcpcb.settings (kcp : Ikcpcb) : IUINT32 × IUINT32 × IUINT32 × IUINT32 :=
  (kcp.conv, kcp.mtu, kcp.mss, kcp.stream)

/-- The sequence numbers of segments. -/
def sns (segs : List Ikcpseg) : List IUINT32 := segs.map Ikcpseg.sn

/-- A segment without its timers and what is filled in anew each time it is sent. -/
def Ikcpseg.core (seg : Ikcpseg) : Ikcpseg :=
  { conv := seg.conv, cmd := seg.cmd, frg := seg.frg, sn := seg.sn, data := seg.data }

/-- What a segment carries of a message. -/
def Ikcpseg.piece (seg : Ikcpseg) : IUINT32 × List UInt8 := (seg.frg, seg.data)

theorem sns_of_core {segs segs' : List Ikcpseg}
    (h : segs.map Ikcpseg.core = segs'.map Ikcpseg.core) : sns segs = sns segs' := by
  have hsns : ∀ segs : List Ikcpseg, sns segs = (segs.map Ikcpseg.core).map Ikcpseg.sn := by
    intro segs
    rw [List.map_map]
    rfl
  rw [hsns, h, ← hsns]

theorem pieces_of_core {segs segs' : List Ikcpseg}
    (h : segs.map Ikcpseg.core = segs'.map Ikcpseg.core) :
    segs.map Ikcpseg.piece = segs'.map Ikcpseg.piece := by
  have hpieces : ∀ segs : List Ikcpseg,
      segs.map Ikcpseg.piece = (segs.map Ikcpseg.core).map Ikcpseg.piece := by
    intro segs
    rw [List.map_map]
    rfl
  rw [hpieces, h, ← hpieces]

/-! ## What a received segment does -/

theorem unaLoop_rcvSide (una : IUINT32) (kcp : Ikcpcb) (sndBuf : List Ikcpseg) :
    (unaLoop una kcp sndBuf).rcvSide = kcp.rcvSide := by
  induction sndBuf generalizing kcp with
  | nil => rfl
  | cons seg sndBuf ih =>
      rw [unaLoop]
      split
      case isTrue => rw [ih]; rfl
      case isFalse => rfl

@[simp] theorem ikcpParseUna_rcvSide (kcp : Ikcpcb) (una : IUINT32) :
    (ikcpParseUna kcp una).rcvSide = kcp.rcvSide := unaLoop_rcvSide una kcp kcp.sndBuf

@[simp] theorem ikcpShrinkBuf_rcvSide (kcp : Ikcpcb) :
    (ikcpShrinkBuf kcp).rcvSide = kcp.rcvSide := by
  unfold ikcpShrinkBuf
  split <;> rfl

@[simp] theorem ikcpParseAck_rcvSide (kcp : Ikcpcb) (sn : IUINT32) :
    (ikcpParseAck kcp sn).rcvSide = kcp.rcvSide := by
  unfold ikcpParseAck
  split <;> rfl

@[simp] theorem ikcpParseFastack_rcvSide (kcp : Ikcpcb) (sn : IUINT32) :
    (ikcpParseFastack kcp sn).rcvSide = kcp.rcvSide := by
  unfold ikcpParseFastack
  split <;> rfl

@[simp] theorem ikcpUpdateAck_rcvSide (kcp : Ikcpcb) (rtt : IUINT32) :
    (ikcpUpdateAck kcp rtt).rcvSide = kcp.rcvSide := by
  simp only [ikcpUpdateAck]
  split <;> rfl

@[simp] theorem ikcpUpdateAck_sndSide (kcp : Ikcpcb) (rtt : IUINT32) :
    (ikcpUpdateAck kcp rtt).sndSide = kcp.sndSide := by
  simp only [ikcpUpdateAck]
  split <;> rfl

theorem moveAvailable_sndSide (kcp : Ikcpcb) (rcvBuf : List Ikcpseg) :
    (moveAvailable kcp rcvBuf).sndSide = kcp.sndSide := by
  induction rcvBuf generalizing kcp with
  | nil => rfl
  | cons seg rcvBuf ih =>
      rw [moveAvailable]
      split
      case isTrue => rw [ih]; rfl
      case isFalse => rfl

@[simp] theorem ikcpParseData_sndSide (kcp : Ikcpcb) (newseg : Ikcpseg) :
    (ikcpParseData kcp newseg).sndSide = kcp.sndSide := by
  unfold ikcpParseData
  split
  case isTrue => rfl
  case isFalse =>
    simp only []
    split <;> exact moveAvailable_sndSide _ _

@[simp] theorem openWindow_rcvSide (kcp : Ikcpcb) : (openWindow kcp).rcvSide = kcp.rcvSide := by
  simp only [openWindow]
  split_ifs <;> rfl

@[simp] theorem openWindow_sndSide (kcp : Ikcpcb) : (openWindow kcp).sndSide = kcp.sndSide := by
  simp only [openWindow]
  split_ifs <;> rfl

/-- The loop of `ikcp_parse_una` takes segments from the front. -/
theorem unaLoop_eq (una : IUINT32) (kcp : Ikcpcb) (sndBuf : List Ikcpseg) : ∃ gone rest,
    sndBuf = gone ++ rest ∧ (∀ seg ∈ gone, itimediff una seg.sn > 0) ∧
    (∀ seg ∈ rest.head?, ¬ itimediff una seg.sn > 0) ∧
    unaLoop una kcp sndBuf =
      { kcp with sndBuf := rest, nsndBuf := kcp.nsndBuf - BitVec.ofNat 32 gone.length } := by
  induction sndBuf generalizing kcp with
  | nil => exact ⟨[], [], rfl, by simp, by simp, by simp [unaLoop]⟩
  | cons seg sndBuf ih =>
      rw [unaLoop]
      split
      case isTrue hbefore =>
        obtain ⟨gone, rest, rfl, hgone, hrest, heq⟩ := ih { kcp with nsndBuf := kcp.nsndBuf - 1 }
        refine ⟨seg :: gone, rest, rfl, fun s hs => ?_, hrest, ?_⟩
        · rcases List.mem_cons.mp hs with rfl | hs
          · exact hbefore
          · exact hgone s hs
        · rw [heq, List.length_cons, ofNat_succ, add_comm, sub_add_eq_sub_sub]
      case isFalse hnot => exact ⟨[], seg :: sndBuf, rfl, by simp, by simpa using hnot, by simp⟩

/-- The loop of `ikcp_parse_ack` takes at most one segment, and only one with the number. -/
theorem ackLoop_eq (sn : IUINT32) (segs : List Ikcpseg) :
    ackLoop sn segs = (false, segs) ∨
    ∃ front seg back, segs = front ++ seg :: back ∧ seg.sn = sn ∧
      ackLoop sn segs = (true, front ++ back) := by
  induction segs with
  | nil => exact .inl rfl
  | cons seg segs ih =>
      rw [ackLoop]
      split
      case isTrue heq => exact .inr ⟨[], seg, segs, rfl, heq.symm, rfl⟩
      case isFalse =>
        split
        case isTrue => exact .inl rfl
        case isFalse =>
          rcases ih with hno | ⟨front, s, back, rfl, hs, hyes⟩
          · rw [hno]
            exact .inl rfl
          · rw [hyes]
            exact .inr ⟨seg :: front, s, back, rfl, hs, rfl⟩

theorem fastackLoop_core (sn : IUINT32) (segs : List Ikcpseg) :
    (fastackLoop sn segs).map Ikcpseg.core = segs.map Ikcpseg.core := by
  induction segs with
  | nil => rfl
  | cons seg segs ih =>
      rw [fastackLoop]
      split
      case isTrue => rfl
      case isFalse =>
        split
        · exact congrArg (seg.core :: ·) ih
        · exact congrArg (seg.core :: ·) ih

theorem ikcpShrinkBuf_congr {kcp kcp' : Ikcpcb} (h : kcp.sndSide = kcp'.sndSide) :
    (ikcpShrinkBuf kcp).sndSide = (ikcpShrinkBuf kcp').sndSide := by
  simp only [Ikcpcb.sndSide, SndSide.mk.injEq] at h
  obtain ⟨huna, hnxt, hrmt, hbuf, hque, hqueue, hsnd⟩ := h
  unfold ikcpShrinkBuf
  rw [hsnd]
  split <;> simp only [Ikcpcb.sndSide, hnxt, hrmt, hbuf, hque, hqueue]

theorem ikcpParseAck_congr {kcp kcp' : Ikcpcb} (h : kcp.sndSide = kcp'.sndSide) (sn : IUINT32) :
    (ikcpParseAck kcp sn).sndSide = (ikcpParseAck kcp' sn).sndSide := by
  have hside := h
  simp only [Ikcpcb.sndSide, SndSide.mk.injEq] at h
  obtain ⟨huna, hnxt, hrmt, hbuf, hque, hqueue, hsnd⟩ := h
  simp only [ikcpParseAck, huna, hnxt, hsnd, hbuf]
  split
  case isTrue => exact hside
  case isFalse => simp only [Ikcpcb.sndSide, hrmt, hque, hqueue]

theorem moveAvailable_settings (kcp : Ikcpcb) (rcvBuf : List Ikcpseg) :
    (moveAvailable kcp rcvBuf).settings = kcp.settings := by
  induction rcvBuf generalizing kcp with
  | nil => rfl
  | cons seg rcvBuf ih =>
      rw [moveAvailable]
      split
      case isTrue => rw [ih]; rfl
      case isFalse => rfl

theorem ikcpParseData_settings (kcp : Ikcpcb) (newseg : Ikcpseg) :
    (ikcpParseData kcp newseg).settings = kcp.settings := by
  unfold ikcpParseData
  split
  case isTrue => rfl
  case isFalse =>
    simp only
    split <;> exact moveAvailable_settings _ _

theorem ikcpShrinkBuf_settings (kcp : Ikcpcb) : (ikcpShrinkBuf kcp).settings = kcp.settings := by
  unfold ikcpShrinkBuf
  split <;> rfl

theorem inputUna_settings (kcp : Ikcpcb) (seg : Ikcpseg) :
    (inputUna kcp seg).settings = kcp.settings := by
  obtain ⟨gone, rest, -, -, -, heq⟩ :=
    unaLoop_eq seg.una { kcp with rmtWnd := seg.wnd } kcp.sndBuf
  rw [inputUna, ikcpShrinkBuf_settings, ikcpParseUna, heq]
  rfl

theorem inputAck_settings (st : InputState) (seg : Ikcpseg) :
    (inputAck st seg).kcp.settings = st.kcp.settings := by
  have hack : ∀ kcp : Ikcpcb, (ikcpParseAck kcp seg.sn).settings = kcp.settings := by
    intro kcp
    unfold ikcpParseAck
    split <;> rfl
  have hrtt : ∀ rtt, (ikcpUpdateAck st.kcp rtt).settings = st.kcp.settings := by
    intro rtt
    simp only [ikcpUpdateAck]
    split <;> rfl
  have hkcp : (inputAck st seg).kcp = ikcpShrinkBuf (ikcpParseAck
      (if itimediff st.kcp.current seg.ts ≥ 0 then
        ikcpUpdateAck st.kcp (st.kcp.current - seg.ts) else st.kcp) seg.sn) := by
    simp only [inputAck]
    split_ifs <;> rfl
  rw [hkcp, ikcpShrinkBuf_settings, hack]
  split
  · exact hrtt _
  · rfl

theorem inputSegment_settings (st : InputState) (seg : Ikcpseg) :
    (inputSegment st seg).kcp.settings = st.kcp.settings := by
  have huna : (inputUna st.kcp seg).settings = st.kcp.settings := inputUna_settings st.kcp seg
  have hpush : ∀ kcp : Ikcpcb, (inputPush kcp seg).settings = kcp.settings := by
    intro kcp
    simp only [inputPush]
    split
    · split
      · exact ikcpParseData_settings _ seg
      · rfl
    · rfl
  simp only [inputSegment]
  split
  · exact (inputAck_settings _ seg).trans huna
  · split
    · exact (hpush _).trans huna
    · split
      · exact huna
      · exact huna

@[simp] theorem inputUna_rcvSide (kcp : Ikcpcb) (seg : Ikcpseg) :
    (inputUna kcp seg).rcvSide = kcp.rcvSide := by
  rw [inputUna, ikcpShrinkBuf_rcvSide, ikcpParseUna_rcvSide]
  rfl

theorem inputAck_kcp (st : InputState) (seg : Ikcpseg) : ∃ kcp : Ikcpcb,
    kcp.sndSide = st.kcp.sndSide ∧ kcp.rcvSide = st.kcp.rcvSide ∧
    (inputAck st seg).kcp = ikcpShrinkBuf (ikcpParseAck kcp seg.sn) := by
  have hkcp : ∀ kcp : Ikcpcb, (inputAck { st with kcp } seg).kcp = ikcpShrinkBuf (ikcpParseAck
      (if itimediff kcp.current seg.ts ≥ 0 then ikcpUpdateAck kcp (kcp.current - seg.ts) else kcp)
      seg.sn) := by
    intro kcp
    simp only [inputAck]
    split_ifs <;> rfl
  refine ⟨_, ?_, ?_, hkcp st.kcp⟩
  · split
    · exact ikcpUpdateAck_sndSide _ _
    · rfl
  · split
    · exact ikcpUpdateAck_rcvSide _ _
    · rfl

theorem inputPush_sndSide (kcp : Ikcpcb) (seg : Ikcpseg) :
    (inputPush kcp seg).sndSide = kcp.sndSide := by
  simp only [inputPush]
  split
  · split
    · exact ikcpParseData_sndSide _ seg
    · rfl
  · rfl

theorem inputPush_rcvSide (kcp : Ikcpcb) (seg : Ikcpseg) :
    (inputPush kcp seg).rcvSide = kcp.rcvSide ∨ ∃ kcp' : Ikcpcb, kcp'.rcvSide = kcp.rcvSide ∧
      inputPush kcp seg = ikcpParseData kcp' seg := by
  simp only [inputPush]
  split
  · split
    · exact .inr ⟨ikcpAckPush kcp seg.sn seg.ts, rfl, rfl⟩
    · exact .inl rfl
  · exact .inl rfl

/-- What a segment does to the sending side. -/
theorem inputSegment_sndSide (st : InputState) (seg : Ikcpseg) :
    (inputSegment st seg).kcp.sndSide =
      if seg.cmd = ikcpCmdAck then
        (ikcpShrinkBuf (ikcpParseAck (inputUna st.kcp seg) seg.sn)).sndSide
      else (inputUna st.kcp seg).sndSide := by
  simp only [inputSegment]
  split
  case isTrue =>
    obtain ⟨kcp, hsnd, -, heq⟩ := inputAck_kcp { st with kcp := inputUna st.kcp seg } seg
    rw [heq]
    exact ikcpShrinkBuf_congr (ikcpParseAck_congr hsnd seg.sn)
  case isFalse =>
    split
    · exact inputPush_sndSide _ seg
    · split <;> rfl

/-- What a segment does to the receiving side: only one with data can change it. -/
theorem inputSegment_rcvSide (st : InputState) (seg : Ikcpseg) :
    (inputSegment st seg).kcp.rcvSide = st.kcp.rcvSide ∨
    seg.cmd = ikcpCmdPush ∧ ∃ kcp : Ikcpcb, kcp.rcvSide = st.kcp.rcvSide ∧
      (inputSegment st seg).kcp = ikcpParseData kcp seg := by
  have huna : (inputUna st.kcp seg).rcvSide = st.kcp.rcvSide := inputUna_rcvSide st.kcp seg
  simp only [inputSegment]
  split
  case isTrue =>
    obtain ⟨kcp, -, hrcv, heq⟩ := inputAck_kcp { st with kcp := inputUna st.kcp seg } seg
    rw [heq, ikcpShrinkBuf_rcvSide, ikcpParseAck_rcvSide, hrcv]
    exact .inl huna
  case isFalse =>
    split
    case isTrue hcmd =>
      rcases inputPush_rcvSide (inputUna st.kcp seg) seg with hsame | ⟨kcp, hrcv, heq⟩
      · exact .inl (hsame.trans huna)
      · exact .inr ⟨hcmd, kcp, hrcv.trans huna, heq⟩
    case isFalse =>
      split
      · exact .inl huna
      · exact .inl huna

/-! ## Whole datagrams -/

theorem ikcpDecode16u_lt (p : List UInt8) : (ikcpDecode16u p).1.toNat < 2 ^ 16 := by
  have hlen : (p.take 2).length ≤ 2 := List.length_take_le 2 p
  have hle : littleEndian (p.take 2) < 256 ^ 2 :=
    (littleEndian_lt (p.take 2)).trans_le (Nat.pow_le_pow_right (by omega) hlen)
  rw [ikcpDecode16u, BitVec.toNat_ofNat]
  omega

/-- The window in a header has 16 bits. -/
theorem decodeHeader_wnd_lt (data : List UInt8) : (decodeHeader data).1.wnd.toNat < 2 ^ 16 :=
  ikcpDecode16u_lt _

variable (P : Ikcpcb → Prop)

/-- What every segment keeps, the loop over a datagram keeps. -/
theorem inputLoop_keeps
    (hseg : ∀ st seg, seg.wnd.toNat < 2 ^ 16 → P st.kcp → P (inputSegment st seg).kcp)
    (fuel : Nat) (data : List UInt8) (st : InputState) (h : P st.kcp) :
    (∀ r, inputLoop fuel data st = .error r → P r.2) ∧
    ∀ st', inputLoop fuel data st = .ok st' → P st'.kcp := by
  induction fuel generalizing data st with
  | zero =>
      refine ⟨fun r hr => ?_, fun st' hst => ?_⟩
      · exact absurd hr (by simp [inputLoop])
      · obtain rfl := Except.ok.inj hst
        exact h
  | succ fuel ih =>
      have herror : ∀ (n : Int), (∀ r, (Except.error (n, st.kcp) : Except _ InputState) = .error r →
          P r.2) ∧ ∀ st', (Except.error (n, st.kcp) : Except _ InputState) = .ok st' →
            P st'.kcp := by
        intro n
        refine ⟨fun r hr => ?_, fun st' hst => ?_⟩
        · obtain rfl := Except.error.inj hr
          exact h
        · exact absurd hst (by simp)
      rw [inputLoop]
      split
      case isTrue =>
        refine ⟨fun r hr => absurd hr (by simp), fun st' hst => ?_⟩
        obtain rfl := Except.ok.inj hst
        exact h
      case isFalse =>
        have hwnd := decodeHeader_wnd_lt data
        rcases hheader : decodeHeader data with ⟨seg, len, rest⟩
        rw [hheader] at hwnd
        simp only
        split
        case isTrue => exact herror (-1)
        case isFalse =>
          split
          case isTrue => exact herror (-2)
          case isFalse =>
            split
            case isTrue => exact herror (-3)
            case isFalse => exact ih _ _ (hseg st _ hwnd h)

/-- What every segment keeps, and the two steps behind the loop, `ikcp_input` keeps. -/
theorem ikcpInput_keeps
    (hseg : ∀ st seg, seg.wnd.toNat < 2 ^ 16 → P st.kcp → P (inputSegment st seg).kcp)
    (hfast : ∀ kcp sn, P kcp → P (ikcpParseFastack kcp sn))
    (hopen : ∀ kcp, P kcp → P (openWindow kcp)) {kcp : Ikcpcb} (h : P kcp) (data : List UInt8) :
    P (ikcpInput kcp data).2 := by
  obtain ⟨herror, hok⟩ := inputLoop_keeps P hseg data.length data ⟨kcp, false, 0⟩ h
  rw [ikcpInput]
  split
  case isTrue => exact h
  case isFalse =>
    cases hloop : inputLoop data.length data ⟨kcp, false, 0⟩ with
    | error r => exact herror r hloop
    | ok st =>
        have hend : ∀ kcp' : Ikcpcb, P kcp' →
            P (if itimediff kcp'.sndUna kcp.sndUna > 0 then openWindow kcp' else kcp') := by
          intro kcp' hkcp'
          split
          · exact hopen kcp' hkcp'
          · exact hkcp'
        refine hend (if st.flag then ikcpParseFastack st.kcp st.maxack else st.kcp) ?_
        split
        · exact hfast st.kcp st.maxack (hok st hloop)
        · exact hok st hloop

/-! ## Flushing -/

/-- The state from which `ikcp_flush` sends the segments: the acknowledgements and the probes are
out, and what the windows allow has left `snd_queue`. -/
def queued (kcp : Ikcpcb) : Ikcpcb :=
  let probed := { probeWindow { kcp with acklist := [] } with probe := 0 }
  moveQueue (sendWindow probed) (ikcpWndUnused kcp) probed probed.sndQueue

/-- The parts of an `ikcp_flush` that does something. -/
theorem ikcpFlush_cases {kcp kcp' : Ikcpcb} {sent : List (List UInt8)}
    (h : ikcpFlush kcp = some (kcp', sent)) : (kcp.updated = 0 ∧ kcp' = kcp ∧ sent = []) ∨
    ∃ seg acked asked told wnd resent rtomin st sndBuf cwnd, wnd = ikcpWndUnused kcp ∧
      resent = resentLimit (queued kcp) ∧
      flushAcks kcp.mtu.toNat kcp.acklist
        { conv := kcp.conv, cmd := ikcpCmdAck, wnd, una := kcp.rcvNxt } ⟨[], []⟩ =
          some (seg, acked) ∧
      flushProbe kcp.mtu.toNat ((probeWindow { kcp with acklist := [] }).probe &&& ikcpAskSend ≠ 0)
        ikcpCmdWask seg acked = some asked ∧
      flushProbe kcp.mtu.toNat ((probeWindow { kcp with acklist := [] }).probe &&& ikcpAskTell ≠ 0)
        ikcpCmdWins seg asked = some told ∧
      flushSegments (queued kcp) wnd resent rtomin
        ⟨told, (queued kcp).xmit, (queued kcp).state, 0, false⟩ (queued kcp).sndBuf =
          some (st, sndBuf) ∧
      sent = st.out.output.sent ∧
      kcp' = updateWindow cwnd resent st.change st.lost
        { queued kcp with sndBuf, xmit := st.xmit, state := st.state } := by
  rw [ikcpFlush] at h
  split at h
  case isTrue hupdated =>
    obtain ⟨rfl, rfl⟩ := Prod.mk.inj (Option.some.inj h)
    exact .inl ⟨hupdated, rfl, rfl⟩
  case isFalse =>
    obtain ⟨⟨seg, acked⟩, hacks, h⟩ := Option.bind_eq_some_iff.mp h
    obtain ⟨asked, hask, h⟩ := Option.bind_eq_some_iff.mp h
    obtain ⟨told, htell, h⟩ := Option.bind_eq_some_iff.mp h
    obtain ⟨⟨st, sndBuf⟩, hsegs, h⟩ := Option.bind_eq_some_iff.mp h
    obtain ⟨rfl, rfl⟩ := Prod.mk.inj (Option.some.inj h)
    exact .inr ⟨seg, acked, asked, told, _, _, _, st, sndBuf, _, rfl, rfl, hacks, hask,
      htell, hsegs,
      rfl, rfl⟩

theorem moveQueue_rcvSide (cwnd wnd : IUINT32) (kcp : Ikcpcb) (sndQueue : List Ikcpseg) :
    (moveQueue cwnd wnd kcp sndQueue).rcvSide = kcp.rcvSide := by
  induction sndQueue generalizing kcp with
  | nil => rfl
  | cons newseg sndQueue ih =>
      rw [moveQueue]
      split
      case isTrue => rw [ih]; rfl
      case isFalse => rfl

/-- What moving one segment to `snd_buf` does. -/
def Ikcpcb.enqueue (kcp : Ikcpcb) (wnd : IUINT32) (newseg : Ikcpseg) (sndQueue : List Ikcpseg) :
    Ikcpcb :=
  { kcp with
    sndBuf := kcp.sndBuf ++ [numbered kcp wnd newseg]
    nsndQue := kcp.nsndQue - 1
    nsndBuf := kcp.nsndBuf + 1
    sndNxt := kcp.sndNxt + 1
    sndQueue }

/-- What every turn of the loop keeps, the loop keeps. -/
theorem moveQueue_keeps (P : Ikcpcb → Prop) (cwnd wnd : IUINT32)
    (hmove : ∀ (kcp : Ikcpcb) newseg sndQueue, P { kcp with sndQueue := newseg :: sndQueue } →
      itimediff kcp.sndNxt (kcp.sndUna + cwnd) < 0 → P (kcp.enqueue wnd newseg sndQueue))
    (kcp : Ikcpcb) (sndQueue : List Ikcpseg) (h : P { kcp with sndQueue }) :
    P (moveQueue cwnd wnd kcp sndQueue) := by
  induction sndQueue generalizing kcp with
  | nil => exact h
  | cons newseg sndQueue ih =>
      rw [moveQueue]
      split
      case isTrue hroom => exact ih _ (hmove kcp newseg sndQueue h hroom)
      case isFalse => exact h

theorem marked_core (kcp : Ikcpcb) (rtomin : IUINT32) (segment : Ikcpseg) (why : Due) :
    (marked kcp rtomin segment why).core = segment.core := by
  cases why with
  | first => rfl
  | late => rfl
  | skipped => rfl
  | no => rfl

theorem flushSegment_core {kcp : Ikcpcb} {wnd resent rtomin : IUINT32} {st st' : FlushState}
    {segment segment' : Ikcpseg}
    (h : flushSegment kcp wnd resent rtomin st segment = some (st', segment')) :
    segment'.core = segment.core := by
  rw [flushSegment] at h
  split at h
  case isTrue =>
    obtain ⟨-, rfl⟩ := Prod.mk.inj (Option.some.inj h)
    exact marked_core kcp rtomin segment _
  case isFalse =>
    obtain ⟨out, -, h⟩ := Option.bind_eq_some_iff.mp h
    obtain ⟨-, rfl⟩ := Prod.mk.inj (Option.some.inj h)
    exact marked_core kcp rtomin segment _

theorem flushSegments_core {kcp : Ikcpcb} {wnd resent rtomin : IUINT32} {st st' : FlushState}
    {segs segs' : List Ikcpseg}
    (h : flushSegments kcp wnd resent rtomin st segs = some (st', segs')) :
    segs'.map Ikcpseg.core = segs.map Ikcpseg.core := by
  induction segs generalizing st st' segs' with
  | nil =>
      obtain ⟨-, rfl⟩ := Prod.mk.inj (Option.some.inj h)
      rfl
  | cons segment segs ih =>
      rw [flushSegments] at h
      obtain ⟨⟨st₁, segment₁⟩, hsegment, h⟩ := Option.bind_eq_some_iff.mp h
      obtain ⟨⟨st₂, segs₂⟩, hsegs, h⟩ := Option.bind_eq_some_iff.mp h
      obtain ⟨-, rfl⟩ := Prod.mk.inj (Option.some.inj h)
      rw [List.map_cons, List.map_cons, flushSegment_core hsegment, ih hsegs]

theorem probeWindow_rcvSide (kcp : Ikcpcb) : (probeWindow kcp).rcvSide = kcp.rcvSide := by
  simp only [probeWindow]
  split_ifs <;> simp only [Ikcpcb.rcvSide]

theorem probeWindow_sndSide (kcp : Ikcpcb) : (probeWindow kcp).sndSide = kcp.sndSide := by
  simp only [probeWindow]
  split_ifs <;> simp only [Ikcpcb.sndSide]

theorem updateWindow_rcvSide (cwnd resent : IUINT32) (change : Nat) (lost : Bool) (kcp : Ikcpcb) :
    (updateWindow cwnd resent change lost kcp).rcvSide = kcp.rcvSide := by
  simp only [updateWindow]
  split_ifs <;> rfl

theorem updateWindow_sndSide (cwnd resent : IUINT32) (change : Nat) (lost : Bool) (kcp : Ikcpcb) :
    (updateWindow cwnd resent change lost kcp).sndSide = kcp.sndSide := by
  simp only [updateWindow]
  split_ifs <;> rfl

theorem moveQueue_settings (cwnd wnd : IUINT32) (kcp : Ikcpcb) (sndQueue : List Ikcpseg) :
    (moveQueue cwnd wnd kcp sndQueue).settings = kcp.settings := by
  induction sndQueue generalizing kcp with
  | nil => rfl
  | cons newseg sndQueue ih =>
      rw [moveQueue]
      split
      case isTrue => rw [ih]; rfl
      case isFalse => rfl

theorem probeWindow_settings (kcp : Ikcpcb) : (probeWindow kcp).settings = kcp.settings := by
  simp only [probeWindow]
  split_ifs <;> simp only [Ikcpcb.settings]

theorem updateWindow_settings (cwnd resent : IUINT32) (change : Nat) (lost : Bool)
    (kcp : Ikcpcb) : (updateWindow cwnd resent change lost kcp).settings = kcp.settings := by
  simp only [updateWindow]
  split_ifs <;> rfl

theorem queued_settings (kcp : Ikcpcb) : (queued kcp).settings = kcp.settings :=
  (moveQueue_settings _ _ _ _).trans (probeWindow_settings { kcp with acklist := [] })

theorem ikcpFlush_settings {kcp kcp' : Ikcpcb} {sent : List (List UInt8)}
    (h : ikcpFlush kcp = some (kcp', sent)) : kcp'.settings = kcp.settings := by
  rcases ikcpFlush_cases h with
    ⟨-, rfl, -⟩ | ⟨-, -, -, -, -, -, -, -, -, -, -, -, -, -, -, -, -, rfl⟩
  · rfl
  · rw [updateWindow_settings]
    exact queued_settings kcp

theorem queued_rcvSide (kcp : Ikcpcb) : (queued kcp).rcvSide = kcp.rcvSide :=
  (moveQueue_rcvSide _ _ _ _).trans (probeWindow_rcvSide { kcp with acklist := [] })

theorem ikcpFlush_rcvSide {kcp kcp' : Ikcpcb} {sent : List (List UInt8)}
    (h : ikcpFlush kcp = some (kcp', sent)) : kcp'.rcvSide = kcp.rcvSide := by
  rcases ikcpFlush_cases h with
    ⟨-, rfl, -⟩ | ⟨-, -, -, -, -, -, -, -, -, -, -, -, -, -, -, -, -, rfl⟩
  · rfl
  · rw [updateWindow_rcvSide]
    exact queued_rcvSide kcp

/-- `ikcp_update` sets the clock, and flushes if the time has come. -/
theorem ikcpUpdate_cases {kcp kcp' : Ikcpcb} {current : IUINT32} {sent : List (List UInt8)}
    (h : ikcpUpdate kcp current = some (kcp', sent)) : ∃ updated tsFlush,
      (kcp' = { kcp with current, updated, tsFlush } ∧ sent = []) ∨
      ikcpFlush { kcp with current, updated, tsFlush } = some (kcp', sent) := by
  simp only [ikcpUpdate] at h
  split_ifs at h
  all_goals first
    | exact ⟨_, _, .inr h⟩
    | obtain ⟨rfl, rfl⟩ := Prod.mk.inj (Option.some.inj h)
      exact ⟨_, _, .inl ⟨rfl, rfl⟩⟩

/-! ## The other calls -/

/-- An `ikcp_recv` that returns what is in front hands out a whole message, and goes on with what
has been waiting in `rcv_buf`. -/
theorem ikcpRecv_cases {kcp kcp' : Ikcpcb} {len n : Int} {buffer : List UInt8}
    (h : ikcpRecv kcp len = some (n, buffer, kcp')) :
    (n < 0 ∧ ¬ (0 ≤ ikcpPeeksize kcp ∧ ikcpPeeksize kcp ≤ len.natAbs) ∧ buffer = [] ∧
      kcp' = kcp) ∨
    (0 ≤ ikcpPeeksize kcp ∧ ikcpPeeksize kcp ≤ len.natAbs ∧ kcp.rcvQueue ≠ [] ∧
      n = buffer.length ∧ n = ikcpPeeksize kcp ∧ buffer = merged (message kcp.rcvQueue) ∧ ∃ probe,
      kcp' = { moveAvailable (mergeFragment kcp (len < 0)) (mergeFragment kcp (len < 0)).rcvBuf with
        probe }) := by
  rw [ikcpRecv] at h
  split at h
  case isTrue hempty =>
    obtain ⟨rfl, rfl, rfl⟩ := by simpa using h
    have hpeek : ikcpPeeksize kcp = -1 := by
      unfold ikcpPeeksize
      rw [hempty]
    exact .inl ⟨by decide, by omega, rfl, rfl⟩
  case isFalse hne =>
    simp only at h
    split at h
    case isTrue =>
      obtain ⟨rfl, rfl, rfl⟩ := by simpa using h
      exact .inl ⟨by decide, by omega, rfl, rfl⟩
    case isFalse hpeek =>
      split at h
      case isTrue =>
        obtain ⟨rfl, rfl, rfl⟩ := by simpa using h
        exact .inl ⟨by decide, by omega, rfl, rfl⟩
      case isFalse hfits =>
        split at h
        case isFalse => exact absurd h.symm (Option.some_ne_none _)
        case isTrue hlen =>
          obtain ⟨rfl, hrest⟩ := Prod.mk.inj (Option.some.inj h)
          obtain ⟨rfl, rfl⟩ := Prod.mk.inj hrest
          refine .inr ⟨by omega, by omega, hne, rfl, hlen, rfl, ?_⟩
          split
          · exact ⟨_, rfl⟩
          · exact ⟨_, rfl⟩

theorem mergeFragment_sndSide (kcp : Ikcpcb) (ispeek : Bool) :
    (mergeFragment kcp ispeek).sndSide = kcp.sndSide := by
  unfold mergeFragment
  split <;> rfl

theorem ikcpRecv_sndSide {kcp kcp' : Ikcpcb} {len n : Int} {buffer : List UInt8}
    (h : ikcpRecv kcp len = some (n, buffer, kcp')) : kcp'.sndSide = kcp.sndSide := by
  rcases ikcpRecv_cases h with ⟨-, -, -, rfl⟩ | ⟨-, -, -, -, -, -, probe, rfl⟩
  · rfl
  · exact (moveAvailable_sndSide _ _).trans (mergeFragment_sndSide kcp _)

/-- `ikcp_send` queues the fragments, unless there are too many of them. -/
theorem sendFragments_cases (kcp : Ikcpcb) (buffer : List UInt8) :
    sendFragments kcp buffer = (-2, kcp) ∨ ∃ count, count < ikcpWndRcv.toNat ∧
      count = (if buffer.length ≤ kcp.mss.toNat then 1
        else (buffer.length + kcp.mss.toNat - 1) / kcp.mss.toNat) ∧
      sendFragments kcp buffer =
        (0, { kcp with
              sndQueue := kcp.sndQueue ++ fragment kcp count buffer
              nsndQue := kcp.nsndQue + BitVec.ofNat 32 count }) := by
  unfold sendFragments
  extract_lets mss count
  split
  case isTrue => exact .inl rfl
  case isFalse hfew => exact .inr ⟨count, Nat.not_le.mp hfew, rfl, rfl⟩

/-- In streaming mode the last segment of the queue may grow. -/
theorem appendToPrevious_cases (kcp : Ikcpcb) (buffer : List UInt8) :
    appendToPrevious kcp buffer = (kcp, buffer) ∨ ∃ front old extend,
      kcp.sndQueue = front ++ [old] ∧ old.len + extend ≤ kcp.mss.toNat ∧
      appendToPrevious kcp buffer =
        ({ kcp with sndQueue := front ++ [{ data := old.data ++ buffer.take extend }] },
          buffer.drop extend) := by
  unfold appendToPrevious
  cases hlast : kcp.sndQueue.getLast? with
  | none => exact .inl rfl
  | some old =>
      obtain ⟨front, hfront⟩ := List.getLast?_eq_some_iff.mp hlast
      simp only
      split
      case isTrue hlen =>
        refine .inr ⟨front, old, _, hfront, ?_, by rw [hfront, List.dropLast_concat]⟩
        omega
      case isFalse => exact .inl rfl

theorem ikcpSend_rcvSide (kcp : Ikcpcb) (buffer : List UInt8) :
    (ikcpSend kcp buffer).2.rcvSide = kcp.rcvSide := by
  have hrest : ∀ (kcp : Ikcpcb) (buffer : List UInt8),
      (sendFragments kcp buffer).2.rcvSide = kcp.rcvSide := by
    intro kcp buffer
    rcases sendFragments_cases kcp buffer with hmany | ⟨count, -, -, hsome⟩
    · rw [hmany]
    · rw [hsome]
      rfl
  have hprevious : (appendToPrevious kcp buffer).1.rcvSide = kcp.rcvSide := by
    rcases appendToPrevious_cases kcp buffer with hnone | ⟨front, old, extend, -, -, hgrown⟩
    · rw [hnone]
    · rw [hgrown]
      rfl
  unfold ikcpSend
  split
  · exact hrest kcp buffer
  · simp only
    split
    · exact hprevious
    · exact (hrest _ _).trans hprevious

theorem ikcpSetmtu_rcvSide (kcp : Ikcpcb) (mtu : CInt) :
    (ikcpSetmtu kcp mtu).2.rcvSide = kcp.rcvSide := by
  simp only [ikcpSetmtu]
  split <;> rfl

theorem ikcpSetmtu_sndSide (kcp : Ikcpcb) (mtu : CInt) :
    (ikcpSetmtu kcp mtu).2.sndSide = kcp.sndSide := by
  simp only [ikcpSetmtu]
  split <;> rfl

theorem ikcpNodelay_rcvSide (kcp : Ikcpcb) (nodelay interval resend nc : CInt) :
    (ikcpNodelay kcp nodelay interval resend nc).rcvSide = kcp.rcvSide := by
  simp only [ikcpNodelay]
  split_ifs <;> rfl

theorem ikcpNodelay_sndSide (kcp : Ikcpcb) (nodelay interval resend nc : CInt) :
    (ikcpNodelay kcp nodelay interval resend nc).sndSide = kcp.sndSide := by
  simp only [ikcpNodelay]
  split_ifs <;> rfl

theorem toNat_ofInt_lt (x : CInt) (hpos : 0 < x.1) : (BitVec.ofInt 32 x.1).toNat < 2 ^ 31 := by
  have hlt := x.2.2
  rw [BitVec.toNat_ofInt]
  omega

/-- A window that is set is less than half of all numbers. -/
theorem ikcpWndsize_rcvSide (kcp : Ikcpcb) (sndwnd rcvwnd : CInt) : ∃ rcvWnd : IUINT32,
    (rcvWnd = kcp.rcvWnd ∨ rcvWnd.toNat < 2 ^ 31) ∧
    (ikcpWndsize kcp sndwnd rcvwnd).rcvSide = { kcp.rcvSide with rcvWnd } := by
  have hside : ∀ kcp' : Ikcpcb, kcp'.rcvSide = kcp.rcvSide → ∃ rcvWnd : IUINT32,
      (rcvWnd = kcp.rcvWnd ∨ rcvWnd.toNat < 2 ^ 31) ∧
      (if rcvwnd.1 > 0 then
        { kcp' with rcvWnd := imax (BitVec.ofInt 32 rcvwnd.1) ikcpWndRcv }
      else kcp').rcvSide = { kcp.rcvSide with rcvWnd } := by
    intro kcp' h
    split
    case isTrue hpos =>
      refine ⟨imax (BitVec.ofInt 32 rcvwnd.1) ikcpWndRcv, .inr ?_, by rw [← h]; rfl⟩
      unfold imax
      split
      · exact toNat_ofInt_lt rcvwnd hpos
      · decide
    case isFalse => exact ⟨kcp.rcvWnd, .inl rfl, h⟩
  refine hside _ ?_
  split <;> rfl

theorem ikcpWndsize_sndSide (kcp : Ikcpcb) (sndwnd rcvwnd : CInt) :
    (ikcpWndsize kcp sndwnd rcvwnd).sndSide = kcp.sndSide := by
  simp only [ikcpWndsize]
  split_ifs <;> rfl

/-! ## Settings -/

theorem ikcpInput_settings (kcp : Ikcpcb) (data : List UInt8) :
    (ikcpInput kcp data).2.settings = kcp.settings := by
  refine ikcpInput_keeps (fun k => k.settings = kcp.settings) ?_ ?_ ?_ rfl data
  · intro st seg _ hst
    exact (inputSegment_settings st seg).trans hst
  · intro k sn hk
    unfold ikcpParseFastack
    split
    · exact hk
    · exact hk
  · intro k hk
    rw [← hk]
    simp only [openWindow]
    split_ifs <;> rfl

theorem ikcpSend_settings (kcp : Ikcpcb) (buffer : List UInt8) :
    (ikcpSend kcp buffer).2.settings = kcp.settings := by
  have hrest : ∀ (k : Ikcpcb) (bytes : List UInt8),
      (sendFragments k bytes).2.settings = k.settings := by
    intro k bytes
    rcases sendFragments_cases k bytes with hmany | ⟨count, -, -, hsome⟩
    · rw [hmany]
    · rw [hsome]
      rfl
  have hprevious : (appendToPrevious kcp buffer).1.settings = kcp.settings := by
    rcases appendToPrevious_cases kcp buffer with hnone | ⟨front, old, extend, -, -, hgrown⟩
    · rw [hnone]
    · rw [hgrown]
      rfl
  unfold ikcpSend
  split
  · exact hrest kcp buffer
  · simp only
    split
    · exact hprevious
    · exact (hrest _ _).trans hprevious

theorem ikcpRecv_settings {kcp kcp' : Ikcpcb} {len n : Int} {buffer : List UInt8}
    (h : ikcpRecv kcp len = some (n, buffer, kcp')) : kcp'.settings = kcp.settings := by
  have hmerge : (mergeFragment kcp (len < 0)).settings = kcp.settings := by
    unfold mergeFragment
    split <;> rfl
  rcases ikcpRecv_cases h with ⟨-, -, -, rfl⟩ | ⟨-, -, -, -, -, -, probe, rfl⟩
  · rfl
  · exact (moveAvailable_settings _ _).trans hmerge

/-- An `mtu` that `ikcp_setmtu` takes leaves room for more than a header. -/
theorem ikcpSetmtu_cases (kcp : Ikcpcb) (mtu : CInt) :
    ikcpSetmtu kcp mtu = (-1, kcp) ∨ 50 ≤ mtu.1 ∧ ∃ m : IUINT32, (m.toNat : Int) = mtu.1 ∧
      ikcpSetmtu kcp mtu = (0, { kcp with mtu := m, mss := m - BitVec.ofNat 32 ikcpOverhead }) := by
  unfold ikcpSetmtu
  split
  case isTrue => exact .inl rfl
  case isFalse hbig =>
    refine .inr ⟨by omega, BitVec.ofInt 32 mtu.1, ?_, rfl⟩
    have hlt := mtu.2.2
    rw [BitVec.toNat_ofInt]
    omega

/-- What a call may do to the settings. -/
inductive Resettled (kcp kcp' : Ikcpcb) : Call → Prop where
  | same (call : Call) (h : kcp'.settings = kcp.settings) : Resettled kcp kcp' call
  | mtu (mtu : CInt) (hbig : 50 ≤ mtu.1) (hmtu : (kcp'.mtu.toNat : Int) = mtu.1)
      (hmss : kcp'.mss = kcp'.mtu - BitVec.ofNat 32 ikcpOverhead) (hconv : kcp'.conv = kcp.conv)
      (hstream : kcp'.stream = kcp.stream) : Resettled kcp kcp' (.setmtu mtu)
  | stream (stream rxMinrto fastresend : IUINT32) (hstream : kcp'.stream = stream)
      (hconv : kcp'.conv = kcp.conv) (hmtu : kcp'.mtu = kcp.mtu) (hmss : kcp'.mss = kcp.mss) :
      Resettled kcp kcp' (.fields stream rxMinrto fastresend)

theorem call_settings {kcp kcp' : Ikcpcb} {call : Call} (hcall : kcp.call call = some kcp') :
    Resettled kcp kcp' call := by
  cases call with
  | setmtu mtu =>
      obtain rfl := Option.some.inj hcall
      rcases ikcpSetmtu_cases kcp mtu with hno | ⟨hbig, m, hm, hset⟩
      · rw [hno]
        exact .same _ rfl
      · rw [hset]
        exact .mtu mtu hbig hm rfl rfl rfl
  | fields stream rxMinrto fastresend =>
      obtain rfl := Option.some.inj hcall
      exact .stream stream rxMinrto fastresend rfl rfl rfl rfl
  | send buffer =>
      obtain rfl := Option.some.inj hcall
      exact .same _ (ikcpSend_settings kcp buffer)
  | input data =>
      obtain rfl := Option.some.inj hcall
      exact .same _ (ikcpInput_settings kcp data)
  | flush =>
      obtain ⟨⟨kcp₁, sent⟩, hflush, rfl⟩ := Option.map_eq_some_iff.mp hcall
      exact .same _ (ikcpFlush_settings hflush)
  | update current =>
      obtain ⟨⟨kcp₁, sent⟩, hupdate, rfl⟩ := Option.map_eq_some_iff.mp hcall
      obtain ⟨updated, tsFlush, ⟨rfl, -⟩ | hflush⟩ := ikcpUpdate_cases hupdate
      · exact .same _ rfl
      · have hsettings := ikcpFlush_settings hflush
        exact .same _ hsettings
  | recv len =>
      obtain ⟨⟨n, buffer, kcp₁⟩, hrecv, rfl⟩ := Option.map_eq_some_iff.mp hcall
      exact .same _ (ikcpRecv_settings hrecv)
  | nodelay nodelay interval resend nc =>
      obtain rfl := Option.some.inj hcall
      refine .same _ ?_
      simp only [ikcpNodelay]
      split_ifs <;> rfl
  | wndsize sndwnd rcvwnd =>
      obtain rfl := Option.some.inj hcall
      refine .same _ ?_
      simp only [ikcpWndsize]
      split_ifs <;> rfl
  | setInterval interval =>
      obtain rfl := Option.some.inj hcall
      exact .same _ rfl

/-- No call changes the conversation. -/
theorem call_conv {kcp kcp' : Ikcpcb} {call : Call} (hcall : kcp.call call = some kcp') :
    kcp'.conv = kcp.conv := by
  cases call_settings hcall with
  | same call h => exact congrArg Prod.fst h
  | mtu mtu hbig hmtu hmss hconv hstream => exact hconv
  | stream stream rxMinrto fastresend hstream hconv hmtu hmss => exact hconv

/-- Only `ikcp_setmtu` changes the `mtu`. -/
theorem call_mtu {kcp kcp' : Ikcpcb} {call : Call} (hcall : kcp.call call = some kcp') :
    (kcp'.mtu = kcp.mtu ∧ kcp'.mss = kcp.mss) ∨ ∃ mtu : CInt, call = .setmtu mtu ∧ 50 ≤ mtu.1 ∧
      (kcp'.mtu.toNat : Int) = mtu.1 ∧ kcp'.mss = kcp'.mtu - BitVec.ofNat 32 ikcpOverhead := by
  cases call_settings hcall with
  | same call h =>
      simp only [Ikcpcb.settings, Prod.mk.injEq] at h
      exact .inl ⟨h.2.1, h.2.2.1⟩
  | mtu mtu hbig hmtu hmss hconv hstream => exact .inr ⟨mtu, rfl, hbig, hmtu, hmss⟩
  | stream stream rxMinrto fastresend hstream hconv hmtu hmss => exact .inl ⟨hmtu, hmss⟩

/-- Only the application changes the mode. -/
theorem call_stream {kcp kcp' : Ikcpcb} {call : Call} (hcall : kcp.call call = some kcp')
    (hmode : ∀ stream rxMinrto fastresend, call = .fields stream rxMinrto fastresend →
      stream = kcp.stream) : kcp'.stream = kcp.stream := by
  cases call_settings hcall with
  | same call h =>
      simp only [Ikcpcb.settings, Prod.mk.injEq] at h
      exact h.2.2.2
  | mtu mtu hbig hmtu hmss hconv hstream => exact hstream
  | stream stream rxMinrto fastresend hstream hconv hmtu hmss =>
      exact hstream.trans (hmode stream rxMinrto fastresend rfl)

/-! ## The segments that wait to be sent -/

/-- Where the waiting segments after a call come from. -/
structure Follows (kcp kcp' : Ikcpcb) : Prop where
  buf : ∀ s' ∈ kcp'.sndBuf, (∃ s ∈ kcp.sndBuf, s'.core = s.core) ∨
    s'.cmd = ikcpCmdPush ∧ s'.conv = kcp.conv ∧ ∃ s ∈ kcp.sndQueue, s'.piece = s.piece
  queue : ∀ s' ∈ kcp'.sndQueue, s' ∈ kcp.sndQueue ∨
    s'.len ≤ kcp.mss.toNat ∧ s'.frg.toNat < ikcpWndRcv.toNat

theorem follows_of_sndSide {kcp kcp' : Ikcpcb} (h : kcp'.sndSide = kcp.sndSide) :
    Follows kcp kcp' := by
  simp only [Ikcpcb.sndSide, SndSide.mk.injEq] at h
  obtain ⟨-, -, -, -, -, hqueue, hbuf⟩ := h
  refine ⟨fun s hs => .inl ⟨s, hbuf ▸ hs, rfl⟩, fun s hs => .inl (hqueue ▸ hs)⟩

/-- A datagram only takes segments out of `snd_buf`. -/
theorem inputSegment_sndBuf (st : InputState) (seg : Ikcpseg) :
    List.Sublist (inputSegment st seg).kcp.sndBuf st.kcp.sndBuf ∧
    (inputSegment st seg).kcp.sndQueue = st.kcp.sndQueue ∧
    (inputSegment st seg).kcp.sndNxt = st.kcp.sndNxt := by
  have hside := inputSegment_sndSide st seg
  have hshrink : ∀ kcp : Ikcpcb, (ikcpShrinkBuf kcp).sndBuf = kcp.sndBuf ∧
      (ikcpShrinkBuf kcp).sndQueue = kcp.sndQueue ∧ (ikcpShrinkBuf kcp).sndNxt = kcp.sndNxt := by
    intro kcp
    unfold ikcpShrinkBuf
    split <;> exact ⟨rfl, rfl, rfl⟩
  have huna : List.Sublist (inputUna st.kcp seg).sndBuf st.kcp.sndBuf ∧
      (inputUna st.kcp seg).sndQueue = st.kcp.sndQueue ∧
      (inputUna st.kcp seg).sndNxt = st.kcp.sndNxt := by
    obtain ⟨gone, rest, hsplit, -, -, heq⟩ :=
      unaLoop_eq seg.una { st.kcp with rmtWnd := seg.wnd } st.kcp.sndBuf
    obtain ⟨hbuf, hqueue, hnxt⟩ := hshrink (ikcpParseUna { st.kcp with rmtWnd := seg.wnd } seg.una)
    rw [inputUna, hbuf, hqueue, hnxt, ikcpParseUna, heq, hsplit]
    exact ⟨List.sublist_append_right gone rest, rfl, rfl⟩
  have hack : ∀ kcp : Ikcpcb, List.Sublist (ikcpParseAck kcp seg.sn).sndBuf kcp.sndBuf ∧
      (ikcpParseAck kcp seg.sn).sndQueue = kcp.sndQueue ∧
      (ikcpParseAck kcp seg.sn).sndNxt = kcp.sndNxt := by
    intro kcp
    unfold ikcpParseAck
    split
    case isTrue => exact ⟨List.Sublist.refl _, rfl, rfl⟩
    case isFalse =>
      refine ⟨?_, rfl, rfl⟩
      rcases ackLoop_eq seg.sn kcp.sndBuf with hno | ⟨front, s, back, hsplit, -, hyes⟩
      · simp only [hno]
        exact List.Sublist.refl _
      · simp only [hyes]
        rw [hsplit]
        exact List.Sublist.append (List.Sublist.refl front) (List.sublist_cons_self s back)
  have hbuf := congrArg SndSide.sndBuf hside
  have hqueue := congrArg SndSide.sndQueue hside
  have hnxt := congrArg SndSide.sndNxt hside
  by_cases hcmd : seg.cmd = ikcpCmdAck
  · rw [if_pos hcmd] at hbuf hqueue hnxt
    obtain ⟨hbuf', hqueue', hnxt'⟩ := hshrink (ikcpParseAck (inputUna st.kcp seg) seg.sn)
    obtain ⟨hsub, hsameq, hsamen⟩ := hack (inputUna st.kcp seg)
    refine ⟨?_, ?_, ?_⟩
    · have heq : (inputSegment st seg).kcp.sndBuf =
          (ikcpParseAck (inputUna st.kcp seg) seg.sn).sndBuf :=
        hbuf.trans hbuf'
      rw [heq]
      exact hsub.trans huna.1
    · exact hqueue.trans (hqueue'.trans (hsameq.trans huna.2.1))
    · exact hnxt.trans (hnxt'.trans (hsamen.trans huna.2.2))
  · rw [if_neg hcmd] at hbuf hqueue hnxt
    refine ⟨?_, hqueue.trans huna.2.1, hnxt.trans huna.2.2⟩
    have heq : (inputSegment st seg).kcp.sndBuf = (inputUna st.kcp seg).sndBuf := hbuf
    rw [heq]
    exact huna.1

theorem ikcpInput_sndBuf (kcp : Ikcpcb) (data : List UInt8) :
    (∀ s' ∈ (ikcpInput kcp data).2.sndBuf, ∃ s ∈ kcp.sndBuf, s'.core = s.core) ∧
    (ikcpInput kcp data).2.sndQueue = kcp.sndQueue ∧
      (ikcpInput kcp data).2.sndNxt = kcp.sndNxt := by
  refine ikcpInput_keeps (fun k => (∀ s' ∈ k.sndBuf, ∃ s ∈ kcp.sndBuf, s'.core = s.core) ∧
    k.sndQueue = kcp.sndQueue ∧ k.sndNxt = kcp.sndNxt) ?_ ?_ ?_
      ⟨fun s hs => ⟨s, hs, rfl⟩, rfl, rfl⟩ data
  · intro st seg _ hst
    obtain ⟨hsub, hqueue, hnxt⟩ := inputSegment_sndBuf st seg
    exact ⟨fun s hs => hst.1 s (hsub.subset hs), hqueue.trans hst.2.1, hnxt.trans hst.2.2⟩
  · intro k sn hk
    unfold ikcpParseFastack
    split
    case isTrue => exact hk
    case isFalse =>
      refine ⟨fun s' hs' => ?_, hk.2⟩
      have hmem : s'.core ∈ (fastackLoop sn k.sndBuf).map Ikcpseg.core := List.mem_map_of_mem hs'
      rw [fastackLoop_core] at hmem
      obtain ⟨s, hs, hcore⟩ := List.mem_map.mp hmem
      obtain ⟨s₀, hs₀, hcore₀⟩ := hk.1 s hs
      exact ⟨s₀, hs₀, hcore.symm.trans hcore₀⟩
  · intro k hk
    have hside := openWindow_sndSide k
    have hbuf : (openWindow k).sndBuf = k.sndBuf := congrArg SndSide.sndBuf hside
    have hqueue : (openWindow k).sndQueue = k.sndQueue := congrArg SndSide.sndQueue hside
    have hnxt : (openWindow k).sndNxt = k.sndNxt := congrArg SndSide.sndNxt hside
    rw [hbuf, hqueue, hnxt]
    exact hk

theorem follows_input (kcp : Ikcpcb) (data : List UInt8) : Follows kcp (ikcpInput kcp data).2 := by
  obtain ⟨hbuf, hqueue, -⟩ := ikcpInput_sndBuf kcp data
  exact ⟨fun s hs => .inl (hbuf s hs), fun s hs => .inl (hqueue ▸ hs)⟩

/-- Segments move from `snd_queue` to `snd_buf`. -/
theorem follows_queued (kcp : Ikcpcb) : Follows kcp (queued kcp) := by
  have hall : ∀ (cwnd wnd : IUINT32) (k : Ikcpcb) (queue : List Ikcpseg), k.conv = kcp.conv →
      Follows kcp { k with sndQueue := queue } → (∀ s ∈ queue, s ∈ kcp.sndQueue) →
      Follows kcp (moveQueue cwnd wnd k queue) := by
    intro cwnd wnd k queue hconv hk hqueue
    refine (moveQueue_keeps (fun k => k.conv = kcp.conv ∧ Follows kcp k ∧
      ∀ s ∈ k.sndQueue, s ∈ kcp.sndQueue) cwnd wnd ?_ k queue ⟨hconv, hk, hqueue⟩).2.1
    intro k newseg rest hk _
    obtain ⟨hconv, hfollows, hqueue⟩ := hk
    refine ⟨hconv, ⟨fun s' hs' => ?_, fun s' hs' => ?_⟩, fun s hs => ?_⟩
    · rcases List.mem_append.mp hs' with hs' | hs'
      · exact hfollows.buf s' hs'
      · rw [List.mem_singleton.mp hs']
        exact .inr ⟨rfl, hconv, newseg, hqueue newseg List.mem_cons_self, rfl⟩
    · exact .inl (hqueue s' (List.mem_cons_of_mem newseg hs'))
    · exact hqueue s (List.mem_cons_of_mem newseg hs)
  have hside := probeWindow_sndSide { kcp with acklist := [] }
  have hqueue : (probeWindow { kcp with acklist := [] }).sndQueue = kcp.sndQueue :=
    congrArg SndSide.sndQueue hside
  have hconv : (probeWindow { kcp with acklist := [] }).conv = kcp.conv :=
    congrArg Prod.fst (probeWindow_settings { kcp with acklist := [] })
  refine hall _ _ { probeWindow { kcp with acklist := [] } with probe := 0 } _ hconv ?_ ?_
  · exact follows_of_sndSide hside
  · intro s hs
    exact hqueue ▸ hs

theorem follows_flush {kcp kcp' : Ikcpcb} {sent : List (List UInt8)}
    (h : ikcpFlush kcp = some (kcp', sent)) : Follows kcp kcp' := by
  rcases ikcpFlush_cases h with ⟨-, rfl, -⟩ |
    ⟨seg, acked, asked, told, wnd, resent, rtomin, st, sndBuf, cwnd, -, -, -, -, -, hsegs, -, rfl⟩
  · exact follows_of_sndSide rfl
  · have hside := updateWindow_sndSide cwnd resent st.change st.lost
      { queued kcp with sndBuf, xmit := st.xmit, state := st.state }
    simp only [Ikcpcb.sndSide, SndSide.mk.injEq] at hside
    obtain ⟨-, -, -, -, -, hqueue, hbuf⟩ := hside
    have hqueued := follows_queued kcp
    refine ⟨fun s' hs' => ?_, fun s' hs' => ?_⟩
    · rw [hbuf] at hs'
      have hmem : s'.core ∈ sndBuf.map Ikcpseg.core := List.mem_map_of_mem hs'
      rw [flushSegments_core hsegs] at hmem
      obtain ⟨s₁, hs₁, hcore₁⟩ := List.mem_map.mp hmem
      rcases hqueued.buf s₁ hs₁ with ⟨s, hs, hcore⟩ | ⟨hcmd, hconv, s, hs, hpiece⟩
      · exact .inl ⟨s, hs, hcore₁.symm.trans hcore⟩
      · exact .inr ⟨(congrArg Ikcpseg.cmd hcore₁.symm :).trans hcmd,
          (congrArg Ikcpseg.conv hcore₁.symm :).trans hconv, s, hs,
          (congrArg Ikcpseg.piece hcore₁.symm :).trans hpiece⟩
    · rw [hqueue] at hs'
      exact hqueued.queue s' hs'

theorem mem_fragment {kcp : Ikcpcb} {count : Nat} {buffer : List UInt8} {seg : Ikcpseg}
    (h : seg ∈ fragment kcp count buffer) (hcount : count < 2 ^ 32) :
    seg.len ≤ kcp.mss.toNat ∧ seg.frg.toNat < count := by
  induction count generalizing buffer with
  | zero => exact absurd h List.not_mem_nil
  | succ count ih =>
      rw [fragment] at h
      rcases List.mem_cons.mp h with rfl | h
      · refine ⟨List.length_take_le _ _, ?_⟩
        simp only
        split
        · rw [BitVec.toNat_ofNat, Nat.mod_eq_of_lt (by omega)]
          omega
        · exact Nat.succ_pos count
      · have hrest := ih h (by omega)
        omega

theorem follows_send (kcp : Ikcpcb) (buffer : List UInt8) :
    Follows kcp (ikcpSend kcp buffer).2 := by
  have hrest : ∀ (k : Ikcpcb) (bytes : List UInt8), k.mss = kcp.mss → Follows kcp k →
      Follows kcp (sendFragments k bytes).2 := by
    intro k bytes hmss hk
    rcases sendFragments_cases k bytes with hmany | ⟨count, hfew, -, hsome⟩
    · rw [hmany]
      exact hk
    · rw [hsome]
      refine ⟨hk.buf, fun s' hs' => ?_⟩
      rcases List.mem_append.mp hs' with hs' | hs'
      · exact hk.queue s' hs'
      · have hlt : ikcpWndRcv.toNat < 2 ^ 32 := ikcpWndRcv.isLt
        have hseg := mem_fragment hs' (by omega)
        exact .inr ⟨hmss ▸ hseg.1, hseg.2.trans hfew⟩
  have hprevious : (appendToPrevious kcp buffer).1.mss = kcp.mss ∧
      Follows kcp (appendToPrevious kcp buffer).1 := by
    rcases appendToPrevious_cases kcp buffer with hnone | ⟨front, old, extend, hqueue, hlen, hgrown⟩
    · rw [hnone]
      exact ⟨rfl, follows_of_sndSide rfl⟩
    · rw [hgrown]
      refine ⟨rfl, fun s hs => .inl ⟨s, hs, rfl⟩, fun s' hs' => ?_⟩
      rcases List.mem_append.mp hs' with hs' | hs'
      · exact .inl (hqueue ▸ List.mem_append_left [old] hs')
      · rw [List.mem_singleton.mp hs']
        have hzero : (0 : IUINT32).toNat < ikcpWndRcv.toNat := by decide
        refine .inr ⟨?_, hzero⟩
        have htake := List.length_take_le extend buffer
        change (old.data ++ buffer.take extend).length ≤ kcp.mss.toNat
        rw [List.length_append]
        exact (Nat.add_le_add_left htake _).trans hlen
  unfold ikcpSend
  split
  · exact hrest kcp buffer rfl (follows_of_sndSide rfl)
  · simp only
    split
    · exact hprevious.2
    · exact hrest _ _ hprevious.1 hprevious.2

theorem follows_call {kcp kcp' : Ikcpcb} {call : Call} (hcall : kcp.call call = some kcp') :
    Follows kcp kcp' := by
  cases call with
  | send buffer =>
      obtain rfl := Option.some.inj hcall
      exact follows_send kcp buffer
  | input data =>
      obtain rfl := Option.some.inj hcall
      exact follows_input kcp data
  | flush =>
      obtain ⟨⟨kcp₁, sent⟩, hflush, rfl⟩ := Option.map_eq_some_iff.mp hcall
      exact follows_flush hflush
  | update current =>
      obtain ⟨⟨kcp₁, sent⟩, hupdate, rfl⟩ := Option.map_eq_some_iff.mp hcall
      obtain ⟨updated, tsFlush, ⟨rfl, -⟩ | hflush⟩ := ikcpUpdate_cases hupdate
      · exact follows_of_sndSide rfl
      · have hfollows := follows_flush hflush
        exact ⟨hfollows.buf, hfollows.queue⟩
  | recv len =>
      obtain ⟨⟨n, buffer, kcp₁⟩, hrecv, rfl⟩ := Option.map_eq_some_iff.mp hcall
      exact follows_of_sndSide (ikcpRecv_sndSide hrecv)
  | setmtu mtu =>
      obtain rfl := Option.some.inj hcall
      exact follows_of_sndSide (ikcpSetmtu_sndSide kcp mtu)
  | nodelay nodelay interval resend nc =>
      obtain rfl := Option.some.inj hcall
      exact follows_of_sndSide (ikcpNodelay_sndSide kcp nodelay interval resend nc)
  | wndsize sndwnd rcvwnd =>
      obtain rfl := Option.some.inj hcall
      exact follows_of_sndSide (ikcpWndsize_sndSide kcp sndwnd rcvwnd)
  | setInterval interval =>
      obtain rfl := Option.some.inj hcall
      exact follows_of_sndSide rfl
  | fields stream rxMinrto fastresend =>
      obtain rfl := Option.some.inj hcall
      exact follows_of_sndSide rfl

end CppTrack.Kcp
