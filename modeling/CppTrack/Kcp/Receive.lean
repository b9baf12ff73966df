import CppTrack.Kcp.Sides
import CppTrack.Lib.Run

/-!
# What one end of KCP hands out

Whatever bytes arrive, `rcv_buf` stays in the order of the sequence numbers and has no number
twice, and what `ikcp_recv` takes from `rcv_queue` carries the numbers 0, 1, 2 and so on without a
gap. Nothing is assumed about who sent the datagrams.
-/

namespace CppTrack.Kcp

open Lib

/-- The counters are right and `rcv_buf` is in order. -/
structure Receiving (r : RcvSide) : Prop where
  window : r.rcvWnd.toNat < 2 ^ 31
  room : r.rcvQueue.length < 2 ^ 31
  bufCount : r.nrcvBuf = BitVec.ofNat 32 r.rcvBuf.length
  queCount : r.nrcvQue = BitVec.ofNat 32 r.rcvQueue.length
  ordered : InOrder r.rcvNxt (sns r.rcvBuf)

/-- The segments in `rcv_queue` go on where those taken from it ended. -/
structure Handed (taken : List Ikcpseg) (r : RcvSide) : Prop where
  next : r.rcvNxt = BitVec.ofNat 32 (taken ++ r.rcvQueue).length
  numbers : sns (taken ++ r.rcvQueue) = counting 0 (taken ++ r.rcvQueue).length

/-! ## Moving what is available -/

/-- What one turn of the loop that moves segments does to the receiving side. -/
def RcvSide.move (r : RcvSide) (seg : Ikcpseg) (rcvBuf : List Ikcpseg) : RcvSide :=
  ⟨r.rcvNxt + 1, r.rcvWnd, r.nrcvBuf - 1, r.nrcvQue + 1, r.rcvQueue ++ [seg], rcvBuf⟩

/-- What every turn keeps, the loop keeps. -/
theorem moveAvailable_keeps (P : RcvSide → Prop)
    (hmove : ∀ (r : RcvSide) seg rcvBuf, P { r with rcvBuf := seg :: rcvBuf } → seg.sn = r.rcvNxt →
      r.nrcvQue < r.rcvWnd → P (r.move seg rcvBuf))
    (kcp : Ikcpcb) (rcvBuf : List Ikcpseg) (h : P { kcp.rcvSide with rcvBuf }) :
    P (moveAvailable kcp rcvBuf).rcvSide := by
  induction rcvBuf generalizing kcp with
  | nil => exact h
  | cons seg rcvBuf ih =>
      rw [moveAvailable]
      split
      case isTrue hnext => exact ih _ (hmove kcp.rcvSide seg rcvBuf h hnext.1 hnext.2)
      case isFalse => exact h

theorem receiving_move (r : RcvSide) (seg : Ikcpseg) (rcvBuf : List Ikcpseg)
    (h : Receiving { r with rcvBuf := seg :: rcvBuf }) (hsn : seg.sn = r.rcvNxt)
    (hroom : r.nrcvQue < r.rcvWnd) : Receiving (r.move seg rcvBuf) where
  window := h.window
  room := by
    have hwindow := h.window
    have hlen := h.room
    have hcount : r.nrcvQue = BitVec.ofNat 32 r.rcvQueue.length := h.queCount
    rw [BitVec.lt_def, hcount, BitVec.toNat_ofNat, Nat.mod_eq_of_lt (by simp only at hlen; omega)]
      at hroom
    simp only [RcvSide.move, List.length_append, List.length_singleton] at hwindow ⊢
    omega
  bufCount := by
    have hcount : r.nrcvBuf = BitVec.ofNat 32 (rcvBuf.length + 1) := h.bufCount
    simp only [RcvSide.move]
    rw [hcount, ofNat_succ, add_sub_cancel_right]
  queCount := by
    have hcount : r.nrcvQue = BitVec.ofNat 32 r.rcvQueue.length := h.queCount
    simp only [RcvSide.move]
    rw [hcount, List.length_append, List.length_singleton, ofNat_succ]
  ordered := by
    have hordered : InOrder r.rcvNxt (seg.sn :: sns rcvBuf) := h.ordered
    rw [hsn] at hordered
    exact hordered.next

theorem handed_move (taken : List Ikcpseg) (r : RcvSide) (seg : Ikcpseg) (rcvBuf : List Ikcpseg)
    (h : Handed taken { r with rcvBuf := seg :: rcvBuf }) (hsn : seg.sn = r.rcvNxt) :
    Handed taken (r.move seg rcvBuf) := by
  have hnext : r.rcvNxt = BitVec.ofNat 32 (taken ++ r.rcvQueue).length := h.next
  have hnumbers : sns (taken ++ r.rcvQueue) = counting 0 (taken ++ r.rcvQueue).length := h.numbers
  constructor
  · simp only [RcvSide.move]
    rw [← List.append_assoc, List.length_append, List.length_singleton, ofNat_succ, hnext]
  · simp only [RcvSide.move]
    rw [← List.append_assoc, List.length_append, List.length_singleton, counting_succ, ← hnumbers,
      zero_add, ← hnext, ← hsn]
    exact List.map_append

/-! ## Putting a segment into `rcv_buf` -/

/-- A new segment goes behind the last one with a smaller number, if its number is not met. -/
theorem insertBack_some {newseg : Ikcpseg} {segs r : List Ikcpseg}
    (h : insertBack newseg segs = some r) : ∃ front back, segs = front ++ back ∧
      r = front ++ newseg :: back ∧
      (∀ seg ∈ front, seg.sn ≠ newseg.sn ∧ ¬ itimediff newseg.sn seg.sn > 0) ∧
      ∀ seg ∈ back.head?, itimediff newseg.sn seg.sn > 0 := by
  induction segs generalizing r with
  | nil =>
      obtain rfl := Option.some.inj h
      exact ⟨[], [], rfl, rfl, by simp, by simp⟩
  | cons seg segs ih =>
      rw [insertBack] at h
      split at h
      case isTrue => exact absurd h.symm (Option.some_ne_none r)
      case isFalse hne =>
        split at h
        case isTrue hlt =>
          obtain rfl := Option.some.inj h
          exact ⟨[], seg :: segs, rfl, rfl, by simp, by simpa using hlt⟩
        case isFalse hge =>
          obtain ⟨r', hr', rfl⟩ := Option.map_eq_some_iff.mp h
          obtain ⟨front, back, rfl, rfl, hfront, hback⟩ := ih hr'
          refine ⟨seg :: front, back, rfl, rfl, fun s hs => ?_, hback⟩
          rcases List.mem_cons.mp hs with rfl | hs
          · exact ⟨hne, hge⟩
          · exact hfront s hs

theorem insertBack_none {newseg : Ikcpseg} {segs : List Ikcpseg}
    (h : insertBack newseg segs = none) : ∃ seg ∈ segs, seg.sn = newseg.sn := by
  induction segs with
  | nil => exact absurd h (Option.some_ne_none _)
  | cons seg segs ih =>
      rw [insertBack] at h
      split at h
      case isTrue heq => exact ⟨seg, List.mem_cons_self, heq⟩
      case isFalse =>
        split at h
        case isTrue => exact absurd h (Option.some_ne_none _)
        case isFalse =>
          obtain ⟨s, hs, hsame⟩ := ih (Option.map_eq_none_iff.mp h)
          exact ⟨s, List.mem_cons_of_mem seg hs, hsame⟩

/-- What is put into a `rcv_buf` in order leaves it in order. -/
theorem inOrder_insertBack {base : IUINT32} {newseg : Ikcpseg} {rcvBuf r : List Ikcpseg}
    (hordered : InOrder base (sns rcvBuf)) (hwithin : Within base newseg.sn)
    (h : insertBack newseg rcvBuf.reverse = some r) : InOrder base (sns r.reverse) := by
  obtain ⟨front, back, hsplit, rfl, hfront, hback⟩ := insertBack_some h
  have hbuf : rcvBuf = back.reverse ++ front.reverse := by
    rw [← List.reverse_append, ← hsplit, List.reverse_reverse]
  have hsns : sns rcvBuf = sns back.reverse ++ sns front.reverse := by
    rw [hbuf]
    exact List.map_append
  rw [hsns] at hordered
  have hput : sns (front ++ newseg :: back).reverse =
      sns back.reverse ++ newseg.sn :: sns front.reverse := by
    simp [sns]
  rw [hput]
  refine inOrder_insert hordered hwithin ?_ ?_
  · -- the last segment before it is smaller, and the others are smaller still
    intro t ht
    obtain ⟨seg, hseg, rfl⟩ := List.mem_map.mp ht
    cases back with
    | nil => simp at hseg
    | cons last back =>
        have hlast : 0 < ahead last.sn newseg.sn := hback last rfl
        have hpart := (List.pairwise_append.mp hordered.sorted).1
        have hw : ∀ s ∈ last :: back, Within base s.sn := fun s hs =>
          hordered.within s.sn (List.mem_append_left _
            (List.mem_map_of_mem (List.mem_reverse.mpr hs)))
        rw [ahead_sub (hw last List.mem_cons_self) hwithin] at hlast
        rcases List.mem_cons.mp (List.mem_reverse.mp hseg) with rfl | hmem
        · omega
        · rw [List.reverse_cons, sns, List.map_append, List.pairwise_append] at hpart
          have hless := hpart.2.2 seg.sn (List.mem_map_of_mem (List.mem_reverse.mpr hmem)) last.sn
            (by simp)
          omega
  · intro t ht
    obtain ⟨seg, hseg, rfl⟩ := List.mem_map.mp ht
    obtain ⟨hne, hle⟩ := hfront seg (List.mem_reverse.mp hseg)
    have hw : Within base seg.sn := hordered.within seg.sn (List.mem_append_right _ ht)
    have hdiff : ¬ ahead base newseg.sn - ahead base seg.sn > 0 := by
      rw [← ahead_sub hw hwithin]
      exact hle
    have hdist : ahead base newseg.sn ≠ ahead base seg.sn := fun heq =>
      hne (eq_of_ahead_eq heq).symm
    omega

theorem length_insertBack {newseg : Ikcpseg} {segs r : List Ikcpseg}
    (h : insertBack newseg segs = some r) : r.length = segs.length + 1 := by
  obtain ⟨front, back, rfl, rfl, -, -⟩ := insertBack_some h
  rw [List.length_append, List.length_append, List.length_cons]
  omega

/-! ## Calls -/

/-- Both of what is kept of the receiving side. -/
def InTurn (taken : List Ikcpseg) (r : RcvSide) : Prop := Receiving r ∧ Handed taken r

theorem inTurn_move (taken : List Ikcpseg) (kcp : Ikcpcb) (rcvBuf : List Ikcpseg)
    (h : InTurn taken { kcp.rcvSide with rcvBuf }) :
    InTurn taken (moveAvailable kcp rcvBuf).rcvSide := by
  refine moveAvailable_keeps (InTurn taken) ?_ kcp rcvBuf h
  intro r seg rest hr hsn hroom
  exact ⟨receiving_move r seg rest hr.1 hsn hroom, handed_move taken r seg rest hr.2 hsn⟩

theorem inTurn_parseData {taken : List Ikcpseg} {kcp : Ikcpcb} (h : InTurn taken kcp.rcvSide)
    (newseg : Ikcpseg) : InTurn taken (ikcpParseData kcp newseg).rcvSide := by
  unfold ikcpParseData
  split
  case isTrue => exact h
  case isFalse hwindow =>
    have hwithin : Within kcp.rcvNxt newseg.sn := by
      rw [within_iff]
      exact Int.not_lt.mp fun hlt => hwindow (.inr hlt)
    simp only
    cases hput : insertBack newseg kcp.rcvBuf.reverse with
    | none => exact inTurn_move taken kcp kcp.rcvBuf h
    | some segs =>
        refine inTurn_move taken _ segs.reverse ⟨?_, h.2.next, h.2.numbers⟩
        refine ⟨h.1.window, h.1.room, ?_, h.1.queCount, ?_⟩
        · have hcount : kcp.nrcvBuf = BitVec.ofNat 32 kcp.rcvBuf.length := h.1.bufCount
          simp only [Ikcpcb.rcvSide]
          rw [hcount, List.length_reverse, length_insertBack hput, List.length_reverse, ofNat_succ]
        · exact inOrder_insertBack h.1.ordered hwithin hput

theorem inTurn_input {taken : List Ikcpseg} {kcp : Ikcpcb} (h : InTurn taken kcp.rcvSide)
    (data : List UInt8) : InTurn taken (ikcpInput kcp data).2.rcvSide := by
  refine ikcpInput_keeps (fun kcp => InTurn taken kcp.rcvSide) ?_ ?_ ?_ h data
  · intro st seg hwnd hst
    rcases inputSegment_rcvSide st seg with hsame | ⟨-, kcp', hkcp', heq⟩
    · rw [hsame]
      exact hst
    · rw [heq]
      exact inTurn_parseData (hkcp' ▸ hst) seg
  · intro kcp' sn hkcp'
    rw [ikcpParseFastack_rcvSide]
    exact hkcp'
  · intro kcp' hkcp'
    rw [openWindow_rcvSide]
    exact hkcp'

theorem message_front (segs : List Ikcpseg) : message segs <+: segs := by
  induction segs with
  | nil => exact List.prefix_refl []
  | cons seg segs ih =>
      rw [message]
      split
      · exact List.cons_prefix_cons.mpr ⟨rfl, List.nil_prefix⟩
      · exact List.cons_prefix_cons.mpr ⟨rfl, ih⟩

theorem message_append_drop (segs : List Ikcpseg) :
    message segs ++ segs.drop (message segs).length = segs :=
  List.prefix_iff_eq_append.mp (message_front segs)

/-- The segments that a call takes from `rcv_queue`. -/
def handedOut (kcp : Ikcpcb) : Call → List Ikcpseg
  | .recv len =>
      if 0 ≤ len.1 ∧ 0 ≤ ikcpPeeksize kcp ∧ ikcpPeeksize kcp ≤ len.1 then message kcp.rcvQueue
      else []
  | _ => []

theorem inTurn_mergeFragment {taken : List Ikcpseg} {kcp : Ikcpcb} (h : InTurn taken kcp.rcvSide) :
    InTurn (taken ++ message kcp.rcvQueue) (mergeFragment kcp false).rcvSide := by
  have hsplit := message_append_drop kcp.rcvQueue
  have hall : taken ++ message kcp.rcvQueue ++ (mergeFragment kcp false).rcvSide.rcvQueue =
      taken ++ kcp.rcvQueue := by
    rw [List.append_assoc]
    exact congrArg (taken ++ ·) hsplit
  have hlen := congrArg List.length hsplit
  rw [List.length_append] at hlen
  refine ⟨⟨h.1.window, ?_, h.1.bufCount, ?_, h.1.ordered⟩, ?_, ?_⟩
  · have hroom : kcp.rcvQueue.length < 2 ^ 31 := h.1.room
    change (kcp.rcvQueue.drop (message kcp.rcvQueue).length).length < 2 ^ 31
    omega
  · have hcount : kcp.nrcvQue = BitVec.ofNat 32 kcp.rcvQueue.length := h.1.queCount
    change kcp.nrcvQue - BitVec.ofNat 32 (message kcp.rcvQueue).length =
      BitVec.ofNat 32 (kcp.rcvQueue.drop (message kcp.rcvQueue).length).length
    rw [hcount, ← hlen, BitVec.ofNat_add, add_sub_cancel_left]
  · rw [hall]
    exact h.2.next
  · rw [hall]
    exact h.2.numbers

theorem inTurn_recv {taken : List Ikcpseg} {kcp kcp' : Ikcpcb} {len : CInt}
    {n : Int} {buffer : List UInt8} (h : InTurn taken kcp.rcvSide)
    (hrecv : ikcpRecv kcp len.1 = some (n, buffer, kcp')) :
    InTurn (taken ++ handedOut kcp (.recv len)) kcp'.rcvSide := by
  simp only [handedOut]
  rcases ikcpRecv_cases hrecv with ⟨-, hno, -, rfl⟩ | ⟨hpeek, hfits, -, -, -, -, probe, rfl⟩
  · rw [if_neg (by omega), List.append_nil]
    exact h
  · -- a negative length only looks at the message
    by_cases hlen : len.1 < 0
    · rw [if_neg (by omega), List.append_nil, decide_eq_true hlen]
      exact inTurn_move taken kcp kcp.rcvBuf h
    · rw [if_pos (by omega), decide_eq_false hlen]
      exact inTurn_move _ (mergeFragment kcp false) kcp.rcvBuf (inTurn_mergeFragment h)

theorem inTurn_nothing {taken : List Ikcpseg} {r : RcvSide} (h : InTurn taken r) :
    InTurn (taken ++ []) r := by
  rw [List.append_nil]
  exact h

/-- Every call keeps the receiving side in turn. -/
theorem inTurn_call {taken : List Ikcpseg} {kcp kcp' : Ikcpcb} {call : Call}
    (h : InTurn taken kcp.rcvSide) (hcall : kcp.call call = some kcp') :
    InTurn (taken ++ handedOut kcp call) kcp'.rcvSide := by
  cases call with
  | recv len =>
      obtain ⟨⟨n, buffer, kcp₁⟩, hrecv, rfl⟩ := Option.map_eq_some_iff.mp hcall
      exact inTurn_recv h hrecv
  | wndsize sndwnd rcvwnd =>
      obtain rfl := Option.some.inj hcall
      obtain ⟨rcvWnd, hwnd, hside⟩ := ikcpWndsize_rcvSide kcp sndwnd rcvwnd
      have hlt : rcvWnd.toNat < 2 ^ 31 := hwnd.elim (fun heq => heq ▸ h.1.window) id
      rw [hside]
      exact inTurn_nothing ⟨⟨hlt, h.1.room, h.1.bufCount, h.1.queCount, h.1.ordered⟩,
        h.2.next, h.2.numbers⟩
  | input data =>
      obtain rfl := Option.some.inj hcall
      exact inTurn_nothing (inTurn_input h data)
  | flush =>
      obtain ⟨⟨kcp₁, sent⟩, hflush, rfl⟩ := Option.map_eq_some_iff.mp hcall
      refine inTurn_nothing ?_
      rw [ikcpFlush_rcvSide hflush]
      exact h
  | update current =>
      obtain ⟨⟨kcp₁, sent⟩, hupdate, rfl⟩ := Option.map_eq_some_iff.mp hcall
      refine inTurn_nothing ?_
      obtain ⟨updated, tsFlush, ⟨rfl, -⟩ | hflush⟩ := ikcpUpdate_cases hupdate
      · exact h
      · rw [ikcpFlush_rcvSide hflush]
        exact h
  | send buffer =>
      obtain rfl := Option.some.inj hcall
      refine inTurn_nothing ?_
      rw [ikcpSend_rcvSide]
      exact h
  | setmtu mtu =>
      obtain rfl := Option.some.inj hcall
      refine inTurn_nothing ?_
      rw [ikcpSetmtu_rcvSide]
      exact h
  | nodelay nodelay interval resend nc =>
      obtain rfl := Option.some.inj hcall
      refine inTurn_nothing ?_
      rw [ikcpNodelay_rcvSide]
      exact h
  | setInterval interval =>
      obtain rfl := Option.some.inj hcall
      exact inTurn_nothing h
  | fields stream rxMinrto fastresend =>
      obtain rfl := Option.some.inj hcall
      exact inTurn_nothing h

/-- An end together with the segments that `ikcp_recv` has taken from `rcv_queue`. -/
abbrev callTaking : Ikcpcb × List Ikcpseg → Call → Option (Ikcpcb × List Ikcpseg) :=
  recorded Ikcpcb.call fun kcp call taken => taken ++ handedOut kcp call

theorem inTurn_create (conv : IUINT32) : InTurn [] (ikcpCreate conv).rcvSide :=
  have hwindow : ikcpWndRcv.toNat < 2 ^ 31 := by decide
  ⟨⟨hwindow, Nat.two_pow_pos 31, rfl, rfl, inOrder_nil _⟩, rfl, rfl⟩

/-- Whatever calls are made and whatever bytes come in, the segments that have been handed out and
those that wait in `rcv_queue` carry the numbers from 0 on without a gap, the number behind them is
`rcv_nxt`, and `rcv_buf` is in order behind it. -/
theorem ikcp_receives_in_turn (conv : IUINT32) (calls : List Call) (kcp : Ikcpcb)
    (taken : List Ikcpseg) (hrun : run callTaking (ikcpCreate conv, []) calls = some (kcp, taken)) :
    Receiving kcp.rcvSide ∧ Handed taken kcp.rcvSide := by
  refine @run_keeps _ _ _ (fun r : Ikcpcb × List Ikcpseg => InTurn r.2 r.1.rcvSide) ?_ calls _ _
    (inTurn_create conv) hrun
  intro r call r' hr hstep
  obtain ⟨kcp', hcall, rfl⟩ := Option.map_eq_some_iff.mp hstep
  exact inTurn_call hr hcall

/-- A segment that comes before its turn, twice, and then the one before it. -/
def outOfTurn : List Call :=
  let push (sn : IUINT32) (data : List UInt8) : List UInt8 :=
    let seg : Ikcpseg := { conv := 7, cmd := ikcpCmdPush, wnd := 128, sn, data }
    ikcpEncodeSeg seg ++ seg.data
  [.input (push 1 [66]), .input (push 1 [66]), .input (push 0 [65]), .recv (.ofBits 8)]

theorem ikcp_receives_outOfTurn : ∃ kcp taken,
    run callTaking (ikcpCreate 7, []) outOfTurn = some (kcp, taken) ∧
    merged taken = [65] ∧ Receiving kcp.rcvSide ∧ Handed taken kcp.rcvSide :=
  ⟨_, _, rfl, rfl, ikcp_receives_in_turn 7 outOfTurn _ _ rfl⟩

end CppTrack.Kcp
