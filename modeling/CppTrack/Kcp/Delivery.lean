import CppTrack.Kcp.Network

/-!
# KCP delivers what was sent, in order

An end hands out the messages that the other end has accepted, each once and in the order in which
they were accepted, whatever the network loses, delays, reorders and repeats. This holds as long as
the numbers do not come round: after 2 ^ 32 segments an old datagram would pass for a new one.
-/

namespace CppTrack.Kcp

open Lib

variable {pieces pieces' : List Piece}

theorem Honest.mono {seg : Ikcpseg} (h : Honest pieces seg) (more : List Piece) :
    Honest (pieces ++ more) seg := by
  obtain ⟨k, hk, hsn⟩ := h
  obtain ⟨hlt, -⟩ := List.getElem?_eq_some_iff.mp hk
  exact ⟨k, by rw [List.getElem?_append_left hlt]; exact hk, hsn⟩

theorem Honest.of_core {seg seg' : Ikcpseg} (h : Honest pieces seg) (hcore : seg'.core = seg.core) :
    Honest pieces seg' := by
  obtain ⟨k, hk, hsn⟩ := h
  have hpiece : seg'.piece = seg.piece := (congrArg Ikcpseg.piece hcore :)
  have hsame : seg'.sn = seg.sn := (congrArg Ikcpseg.sn hcore :)
  exact ⟨k, by rw [hpiece]; exact hk, hsame.trans hsn⟩

/-- The pieces of one message, as `ikcp_send` cuts it. -/
structure IsMessage (g : List Piece) : Prop where
  countdown : IsCountdown pieceTag g
  few : g.length < ikcpWndRcv.toNat

/-! ## The end that sends -/

/-- What has been numbered and what waits in `snd_queue` are the pieces of the accepted messages. -/
structure SndLink (accepted : List (List UInt8)) (pieces : List Piece) (s : SndSide) : Prop where
  next : s.sndNxt = BitVec.ofNat 32 pieces.length
  buf : ∀ seg ∈ s.sndBuf, Honest pieces seg
  cut : ∃ gs : List (List Piece), pieces ++ s.sndQueue.map Ikcpseg.piece = gs.flatten ∧
    (∀ g ∈ gs, IsMessage g) ∧ accepted = gs.map joined

/-- The segments that move up are given the next numbers. -/
theorem queued_numbered {kcp : Ikcpcb} (hnext : kcp.sndNxt = BitVec.ofNat 32 pieces.length)
    (hbuf : ∀ seg ∈ kcp.sndBuf, Honest pieces seg) : ∃ moved : List Ikcpseg,
    kcp.sndQueue = moved ++ (queued kcp).sndQueue ∧
    (queued kcp).sndNxt = BitVec.ofNat 32 (pieces ++ moved.map Ikcpseg.piece).length ∧
    ∀ seg ∈ (queued kcp).sndBuf, Honest (pieces ++ moved.map Ikcpseg.piece) seg := by
  have hside := probeWindow_sndSide { kcp with acklist := [] }
  simp only [Ikcpcb.sndSide, SndSide.mk.injEq] at hside
  obtain ⟨-, hnxt, -, -, -, hqueue, hsnd⟩ := hside
  refine moveQueue_keeps (fun k => ∃ moved : List Ikcpseg, kcp.sndQueue = moved ++ k.sndQueue ∧
    k.sndNxt = BitVec.ofNat 32 (pieces ++ moved.map Ikcpseg.piece).length ∧
    ∀ seg ∈ k.sndBuf, Honest (pieces ++ moved.map Ikcpseg.piece) seg) _ _ ?_ _ _
    ⟨[], hqueue.symm, ?_, fun seg hseg => ?_⟩
  · intro k newseg rest hk _
    obtain ⟨moved, hsplit, hk, hhonest⟩ := hk
    have hpieces : pieces ++ (moved ++ [newseg]).map Ikcpseg.piece =
        pieces ++ moved.map Ikcpseg.piece ++ [newseg.piece] := by
      rw [List.map_append, List.append_assoc]
      rfl
    refine ⟨moved ++ [newseg], by rw [hsplit, List.append_assoc]; rfl, ?_, fun seg hseg => ?_⟩
    · rw [hpieces, List.length_append, List.length_singleton, ofNat_succ, ← hk]
      rfl
    · rw [hpieces]
      rcases List.mem_append.mp hseg with hseg | hseg
      · exact (hhonest seg hseg).mono _
      · rw [List.mem_singleton.mp hseg]
        exact ⟨_, List.getElem?_concat_length, hk⟩
  · rw [List.map_nil, List.append_nil]
    exact hnxt.trans hnext
  · rw [List.map_nil, List.append_nil]
    exact hbuf seg (hsnd ▸ hseg)

/-- What a datagram is made of: the segments of one conversation, those with data under the numbers
that their pieces have. -/
def Genuine (conv : IUINT32) (pieces : List Piece) (d : List UInt8) : Prop :=
  ∃ segs : List Ikcpseg, d = segs.flatMap encoded ∧ ∀ seg ∈ segs,
    seg.IsCmd ∧ seg.conv = conv ∧ seg.len < 2 ^ 31 ∧ seg.frg.toNat < ikcpWndRcv.toNat ∧
    (seg.cmd = ikcpCmdPush → Honest pieces seg)

theorem Genuine.mono {conv : IUINT32} {d : List UInt8} (h : Genuine conv pieces d)
    (more : List Piece) : Genuine conv (pieces ++ more) d := by
  obtain ⟨segs, hd, hsegs⟩ := h
  refine ⟨segs, hd, fun seg hseg => ?_⟩
  obtain ⟨hcmd, hconv, hlen, hfrg, hhonest⟩ := hsegs seg hseg
  exact ⟨hcmd, hconv, hlen, hfrg, fun hpush => (hhonest hpush).mono more⟩

/-- A flush numbers the pieces that leave the queue, and sends only numbered pieces. -/
theorem flush_numbered {kcp kcp' : Ikcpcb} {sent accepted : List (List UInt8)} (hbuilt : Built kcp)
    (h : SndLink accepted pieces kcp.sndSide) (hflush : ikcpFlush kcp = some (kcp', sent)) :
    SndLink accepted (pieces ++ leftQueue kcp kcp') kcp'.sndSide ∧
    ∀ d ∈ sent, Genuine kcp.conv (pieces ++ leftQueue kcp kcp') d := by
  rcases ikcpFlush_cases hflush with ⟨-, rfl, rfl⟩ |
    ⟨seg, acked, asked, told, wnd, resent, rtomin, st, sndBuf, cwnd, -, -, -, -, -, hsegs, -, rfl⟩
  · have hnone : leftQueue kcp' kcp' = [] := by
      rw [leftQueue, Nat.sub_self]
      rfl
    rw [hnone, List.append_nil]
    exact ⟨h, fun d hd => absurd hd List.not_mem_nil⟩
  · obtain ⟨moved, hsplit, hnext, hbuf⟩ := queued_numbered h.next h.buf
    have hside := updateWindow_sndSide cwnd resent st.change st.lost
      { queued kcp with sndBuf, xmit := st.xmit, state := st.state }
    have hqueue := congrArg SndSide.sndQueue hside
    have hleft : leftQueue kcp (updateWindow cwnd resent st.change st.lost
        { queued kcp with sndBuf, xmit := st.xmit, state := st.state }) =
          moved.map Ikcpseg.piece := by
      have hlen := congrArg List.length hsplit
      rw [List.length_append] at hlen
      have htaken : kcp.sndQueue.take (kcp.sndQueue.length - (queued kcp).sndQueue.length) =
          moved := by
        rw [hlen, Nat.add_sub_cancel, hsplit, List.take_left' rfl]
      refine (congrArg (fun q : List Ikcpseg => (kcp.sndQueue.take (kcp.sndQueue.length -
        q.length)).map Ikcpseg.piece) hqueue).trans ?_
      exact congrArg (List.map Ikcpseg.piece) htaken
    rw [hleft, hside]
    refine ⟨⟨hnext, fun s' hs' => ?_, ?_⟩, fun d hd => ?_⟩
    · have hmem : s'.core ∈ sndBuf.map Ikcpseg.core := List.mem_map_of_mem hs'
      rw [flushSegments_core hsegs] at hmem
      obtain ⟨s, hs, hcore⟩ := List.mem_map.mp hmem
      exact (hbuf s hs).of_core hcore.symm
    · obtain ⟨gs, hgs, hcount, haccepted⟩ := h.cut
      refine ⟨gs, ?_, hcount, haccepted⟩
      rw [← hgs, List.append_assoc, ← List.map_append]
      exact congrArg (fun q => pieces ++ q.map Ikcpseg.piece) hsplit.symm
    · obtain ⟨segs, -, hd', hemitted⟩ := ikcpFlush_emits hflush hd
      refine ⟨segs, hd', fun s hs => ?_⟩
      obtain ⟨hcmd, hconv, hlen, hfrg⟩ := emitted_built hbuilt (hemitted s hs)
      refine ⟨hcmd, hconv, hlen, hfrg, fun hpush => ?_⟩
      rcases (hemitted s hs).kind with ⟨-, -, -, hother⟩ | ⟨s₀, hs₀, hcore⟩
      · rw [hpush] at hother
        rcases hother with ⟨hack, -⟩ | hwask | hwins
        · exact absurd hack (by decide)
        · exact absurd hwask (by decide)
        · exact absurd hwins (by decide)
      · exact (hbuf s₀ hs₀).of_core hcore

/-! ### `ikcp_send` -/

theorem fragment_countdown {kcp : Ikcpcb} (hstream : kcp.stream = 0) {count : Nat}
    (hpos : 0 < count) (hlt : count < 2 ^ 32) (buffer : List UInt8) :
    IsCountdown pieceTag ((fragment kcp count buffer).map Ikcpseg.piece) := by
  have htags : ∀ (n : Nat) (bytes : List UInt8), n < 2 ^ 32 →
      ((fragment kcp n bytes).map Ikcpseg.piece).map pieceTag = (List.range n).reverse := by
    intro n
    induction n with
    | zero => exact fun _ _ => rfl
    | succ n ih =>
        intro bytes hn
        have hfrg : (BitVec.ofNat 32 n).toNat = n := by
          rw [BitVec.toNat_ofNat, Nat.mod_eq_of_lt (by omega)]
        rw [fragment, List.map_cons, List.map_cons, ih _ (by omega), List.range_succ,
          List.reverse_append, if_pos hstream]
        exact congrArg (· :: (List.range n).reverse) hfrg
  have hlen : ((fragment kcp count buffer).map Ikcpseg.piece).length = count := by
    rw [List.length_map, length_fragment]
  refine ⟨List.ne_nil_of_length_pos (hlen.symm ▸ hpos), ?_⟩
  rw [htags count buffer hlt, hlen]

theorem joined_fragment (kcp : Ikcpcb) (count : Nat) (buffer : List UInt8)
    (hfits : buffer.length ≤ count * kcp.mss.toNat) :
    joined ((fragment kcp count buffer).map Ikcpseg.piece) = buffer := by
  induction count generalizing buffer with
  | zero =>
      rw [Nat.zero_mul] at hfits
      rw [List.length_eq_zero_iff.mp (Nat.le_zero.mp hfits)]
      rfl
  | succ count ih =>
      have hrest : (buffer.drop kcp.mss.toNat).length ≤ count * kcp.mss.toNat := by
        rw [List.length_drop]
        rw [Nat.succ_mul] at hfits
        omega
      have hjoined := ih _ hrest
      rw [joined] at hjoined
      rw [fragment, List.map_cons, joined, List.flatMap_cons, hjoined]
      exact List.take_append_drop _ _

theorem le_count_mul {len mss : Nat} (hmss : 0 < mss) :
    len ≤ (if len ≤ mss then 1 else (len + mss - 1) / mss) * mss := by
  split
  case isTrue hle => rwa [Nat.one_mul]
  case isFalse =>
    have hdiv := Nat.div_add_mod (len + mss - 1) mss
    have hmod := Nat.mod_lt (len + mss - 1) hmss
    rw [Nat.mul_comm] at hdiv
    omega

theorem send_cut {kcp : Ikcpcb} {accepted : List (List UInt8)} (hbuilt : Built kcp)
    (hstream : kcp.stream = 0) (h : SndLink accepted pieces kcp.sndSide) (buffer : List UInt8) :
    SndLink (accepted ++ takenMessage kcp (.send buffer)) pieces (ikcpSend kcp buffer).2.sndSide ∧
    leftQueue kcp (ikcpSend kcp buffer).2 = [] := by
  have hover : ikcpOverhead = 24 := rfl
  have hmss : 0 < kcp.mss.toNat := by
    have hsum := hbuilt.mtu
    have hroom := hbuilt.room.1
    omega
  have hsend : ikcpSend kcp buffer = sendFragments kcp buffer := if_pos hstream
  rw [takenMessage, hsend]
  rcases sendFragments_cases kcp buffer with hmany | ⟨count, hfew, hcount, hsome⟩
  · rw [hmany, if_neg (by decide : ¬ (-2 : Int) = 0), List.append_nil]
    refine ⟨h, ?_⟩
    rw [leftQueue, Nat.sub_self]
    rfl
  · have hfits : buffer.length ≤ count * kcp.mss.toNat := hcount ▸ le_count_mul hmss
    have hpos : 0 < count := by
      rw [hcount]
      split
      · exact Nat.one_pos
      · exact Nat.div_pos (by omega) hmss
    have hlt : count < 2 ^ 32 := hfew.trans ikcpWndRcv.isLt
    rw [hsome, if_pos rfl]
    obtain ⟨gs, hgs, hcountdown, haccepted⟩ := h.cut
    refine ⟨⟨h.next, h.buf, gs ++ [(fragment kcp count buffer).map Ikcpseg.piece], ?_, ?_, ?_⟩, ?_⟩
    · rw [List.flatten_append, ← hgs, List.append_assoc, List.flatten_singleton, ← List.map_append]
      rfl
    · intro g hg
      rcases List.mem_append.mp hg with hg | hg
      · exact hcountdown g hg
      · rw [List.mem_singleton.mp hg]
        refine ⟨fragment_countdown hstream hpos hlt buffer, ?_⟩
        rw [List.length_map, length_fragment]
        exact hfew
    · rw [haccepted, List.map_append, List.map_singleton, joined_fragment kcp count buffer hfits]
    · have hnone :
          kcp.sndQueue.length - (kcp.sndQueue ++ fragment kcp count buffer).length = 0 := by
        rw [List.length_append]
        omega
      rw [leftQueue]
      simp only [hnone]
      rfl

/-! ## The end that receives -/

/-- What has been handed out and what waits in `rcv_queue` are the first numbered pieces. -/
structure RcvLink (pieces : List Piece) (got : List (List UInt8)) (r : RcvSide) : Prop where
  buf : ∀ seg ∈ r.rcvBuf, Honest pieces seg
  read : ∃ (n : Nat) (hs : List (List Piece)), n ≤ pieces.length ∧ r.rcvNxt = BitVec.ofNat 32 n ∧
    hs.flatten ++ r.rcvQueue.map Ikcpseg.piece = pieces.take n ∧
    (∀ g ∈ hs, IsMessage g) ∧ got = hs.map joined

theorem RcvLink.mono {got : List (List UInt8)} {r : RcvSide} (h : RcvLink pieces got r)
    (more : List Piece) : RcvLink (pieces ++ more) got r := by
  obtain ⟨n, hs, hn, hnext, hread, hcount, hgot⟩ := h.read
  refine ⟨fun seg hseg => (h.buf seg hseg).mono more, n, hs, ?_, hnext, ?_, hcount, hgot⟩
  · rw [List.length_append]
    omega
  · rw [hread, List.take_append_of_le_length hn]

/-- The segment with the next number is the next piece, while the numbers have not come round. -/
theorem Honest.next {seg : Ikcpseg} {n : Nat} (h : Honest pieces seg) (hlt : pieces.length < 2 ^ 32)
    (hn : n ≤ pieces.length) (hsn : seg.sn = BitVec.ofNat 32 n) : pieces[n]? = some seg.piece := by
  obtain ⟨k, hk, hsn'⟩ := h
  obtain ⟨hklt, -⟩ := List.getElem?_eq_some_iff.mp hk
  have hnat := congrArg BitVec.toNat (hsn'.symm.trans hsn)
  rw [BitVec.toNat_ofNat, BitVec.toNat_ofNat, Nat.mod_eq_of_lt (by omega),
    Nat.mod_eq_of_lt (by omega)] at hnat
  exact hnat ▸ hk

theorem rcvLink_move (hlt : pieces.length < 2 ^ 32) {got : List (List UInt8)} (r : RcvSide)
    (seg : Ikcpseg) (rcvBuf : List Ikcpseg)
    (h : RcvLink pieces got { r with rcvBuf := seg :: rcvBuf }) (hsn : seg.sn = r.rcvNxt) :
    RcvLink pieces got (r.move seg rcvBuf) := by
  obtain ⟨n, hs, hn, hnext, hread, hcount, hgot⟩ := h.read
  have hpiece := (h.buf seg List.mem_cons_self).next hlt hn (hsn.trans hnext)
  obtain ⟨hnlt, hget⟩ := List.getElem?_eq_some_iff.mp hpiece
  refine ⟨fun s hs => h.buf s (List.mem_cons_of_mem seg hs), n + 1, hs, hnlt, ?_, ?_, hcount, hgot⟩
  · change r.rcvNxt + 1 = BitVec.ofNat 32 (n + 1)
    rw [ofNat_succ]
    exact congrArg (· + 1) hnext
  · change hs.flatten ++ (r.rcvQueue ++ [seg]).map Ikcpseg.piece = pieces.take (n + 1)
    rw [List.map_append, ← List.append_assoc, List.take_add_one, hpiece]
    exact congrArg (· ++ [seg.piece]) hread

theorem rcvLink_moveAvailable (hlt : pieces.length < 2 ^ 32) {got : List (List UInt8)}
    (kcp : Ikcpcb) (rcvBuf : List Ikcpseg) (h : RcvLink pieces got { kcp.rcvSide with rcvBuf }) :
    RcvLink pieces got (moveAvailable kcp rcvBuf).rcvSide :=
  moveAvailable_keeps (RcvLink pieces got)
    (fun r seg rest hr hsn _ => rcvLink_move hlt r seg rest hr hsn) kcp rcvBuf h

theorem rcvLink_parseData (hlt : pieces.length < 2 ^ 32) {got : List (List UInt8)} {kcp : Ikcpcb}
    {seg : Ikcpseg} (h : RcvLink pieces got kcp.rcvSide) (hseg : Honest pieces seg) :
    RcvLink pieces got (ikcpParseData kcp seg).rcvSide := by
  unfold ikcpParseData
  split
  case isTrue => exact h
  case isFalse =>
    cases hput : insertBack seg kcp.rcvBuf.reverse with
    | none => exact rcvLink_moveAvailable hlt kcp kcp.rcvBuf h
    | some segs =>
        refine rcvLink_moveAvailable hlt { kcp with
          rcvBuf := segs.reverse, nrcvBuf := kcp.nrcvBuf + 1 } segs.reverse ⟨fun s hs => ?_, h.read⟩
        obtain ⟨front, back, hsplit, rfl, -, -⟩ := insertBack_some hput
        have hold : ∀ s ∈ front ++ back, Honest pieces s := fun s hs =>
          h.buf s (List.mem_reverse.mp (hsplit ▸ hs))
        rcases List.mem_append.mp (List.mem_reverse.mp hs) with hs | hs
        · exact hold s (List.mem_append_left back hs)
        · rcases List.mem_cons.mp hs with rfl | hs
          · exact hseg
          · exact hold s (List.mem_append_right front hs)

theorem Honest.wire {seg : Ikcpseg} (h : Honest pieces seg)
    (hfrg : seg.frg.toNat < ikcpWndRcv.toNat) : Honest pieces (wire seg) := by
  obtain ⟨k, hk, hsn⟩ := h
  have hbyte : lowBytes 1 seg.frg = seg.frg :=
    lowBytes_of_lt (hfrg.trans (by decide : ikcpWndRcv.toNat < 256 ^ 1))
  have hpiece : (Kcp.wire seg).piece = seg.piece := Prod.ext hbyte rfl
  exact ⟨k, by rw [hpiece]; exact hk, hsn⟩

/-- A datagram of the other end brings only numbered pieces. -/
theorem rcvLink_input (hlt : pieces.length < 2 ^ 32) {got : List (List UInt8)} {conv : IUINT32}
    {d : List UInt8} (hd : Genuine conv pieces d) {kcp : Ikcpcb}
    (h : RcvLink pieces got kcp.rcvSide) : RcvLink pieces got (ikcpInput kcp d).2.rcvSide := by
  obtain ⟨segs, rfl, hsegs⟩ := hd
  refine ikcpInput_encoded (R := fun kcp => RcvLink pieces got kcp.rcvSide)
    (fun seg hseg => (hsegs seg hseg).2.1) (fun seg hseg => (hsegs seg hseg).1)
    (fun seg hseg => (hsegs seg hseg).2.2.1) ?_ ?_ ?_ h
  · intro seg hseg st hst
    obtain ⟨hcmd, -, -, hfrg, hhonest⟩ := hsegs seg hseg
    rcases inputSegment_rcvSide st (wire seg) with hsame | ⟨hpush, kcp', hkcp', heq⟩
    · rw [hsame]
      exact hst
    · rw [wire_cmd hcmd] at hpush
      rw [heq]
      exact rcvLink_parseData hlt (hkcp' ▸ hst) ((hhonest hpush).wire hfrg)
  · intro kcp' sn hkcp'
    rw [ikcpParseFastack_rcvSide]
    exact hkcp'
  · intro kcp' hkcp'
    rw [openWindow_rcvSide]
    exact hkcp'

/-! ### `ikcp_recv` -/

theorem message_append {front rest : List Ikcpseg} {z : Ikcpseg} (hz : z.frg = 0)
    (hfront : ∀ x ∈ front, x.frg ≠ 0) : message (front ++ z :: rest) = front ++ [z] := by
  induction front with
  | nil => exact if_pos hz
  | cons x front ih =>
      have hx := hfront x List.mem_cons_self
      rw [List.cons_append, message, if_neg hx, ih fun y hy => hfront y (List.mem_cons_of_mem x hy)]
      rfl

theorem pieceTag_eq_zero {seg : Ikcpseg} : pieceTag seg.piece = 0 ↔ seg.frg = 0 :=
  (BitVec.toNat_eq (y := 0)).symm

/-- `ikcp_recv` takes the pieces of the first message, if they are all there. -/
theorem message_of_countdown {segs : List Ikcpseg} {m : Nat}
    (h : IsCountdown pieceTag ((segs.take m).map Ikcpseg.piece)) : message segs = segs.take m := by
  obtain ⟨front, z, hsplit, hz, hfront⟩ := h.last
  obtain ⟨segs₁, segs₂, htake, rfl, hlast⟩ := List.map_eq_append_iff.mp hsplit
  obtain ⟨seg, rfl, rfl⟩ := List.map_eq_singleton_iff.mp hlast
  have hall : segs = segs₁ ++ seg :: segs.drop m := by
    conv => lhs; rw [← List.take_append_drop m segs, htake, List.append_assoc]
    rfl
  rw [htake]
  conv => lhs; rw [hall]
  refine message_append (pieceTag_eq_zero.mp hz) fun x hx => ?_
  exact mt pieceTag_eq_zero.mpr (hfront x.piece (List.mem_map_of_mem hx))

/-- `ikcp_peeksize` finds a message only if all its pieces are there. -/
theorem ikcpPeeksize_whole {kcp : Ikcpcb} (h : Receiving kcp.rcvSide) (hpeek : 0 ≤ ikcpPeeksize kcp)
    {seg : Ikcpseg} {segs : List Ikcpseg} (hqueue : kcp.rcvQueue = seg :: segs)
    (hfrg : seg.frg.toNat < ikcpWndRcv.toNat) : seg.frg.toNat < (seg :: segs).length := by
  have hcount : kcp.nrcvQue = BitVec.ofNat 32 (seg :: segs).length := hqueue ▸ h.queCount
  have hroom : (seg :: segs).length < 2 ^ 31 := hqueue ▸ h.room
  have hwnd : ikcpWndRcv.toNat = 128 := rfl
  have hone : (1 : IUINT32).toNat = 1 := rfl
  unfold ikcpPeeksize at hpeek
  rw [hqueue] at hpeek
  simp only at hpeek
  split at hpeek
  case isTrue hzero =>
    rw [hzero]
    exact Nat.succ_pos _
  case isFalse =>
    split at hpeek
    case isTrue => exact absurd hpeek (by decide)
    case isFalse hfew =>
      rw [BitVec.lt_def, hcount, BitVec.toNat_add, BitVec.toNat_ofNat, hone,
        Nat.mod_eq_of_lt (by omega), Nat.mod_eq_of_lt (by omega)] at hfew
      omega

theorem rcvLink_recv (hlt : pieces.length < 2 ^ 32) {more : List Piece} {gs : List (List Piece)}
    (hgs : pieces ++ more = gs.flatten) (hmessages : ∀ g ∈ gs, IsMessage g)
    {got : List (List UInt8)} {kcp kcp' : Ikcpcb} {len : CInt} (h : RcvLink pieces got kcp.rcvSide)
    (hreceiving : Receiving kcp.rcvSide) (hcall : kcp.call (.recv len) = some kcp') :
    RcvLink pieces (got ++ givenMessage kcp (.recv len)) kcp'.rcvSide := by
  obtain ⟨⟨n, buffer, kcp₁⟩, hrecv, rfl⟩ := Option.map_eq_some_iff.mp hcall
  have hgiven : givenMessage kcp (.recv len) = if 0 ≤ len.1 ∧ 0 ≤ n then [buffer] else [] := by
    rw [givenMessage, hrecv]
  rw [hgiven]
  rcases ikcpRecv_cases hrecv with ⟨hneg, -, -, rfl⟩ | ⟨hpeek, -, hne, hn, -, hbuffer, probe, rfl⟩
  · rw [if_neg (by omega), List.append_nil]
    exact h
  · by_cases hlen : len.1 < 0
    · rw [if_neg (by omega), List.append_nil, decide_eq_true hlen]
      exact rcvLink_moveAvailable hlt kcp kcp.rcvBuf h
    · rw [if_pos (by omega), decide_eq_false hlen]
      refine rcvLink_moveAvailable hlt (mergeFragment kcp false) kcp.rcvBuf ⟨h.buf, ?_⟩
      obtain ⟨k, hs, hle, hnext, hread, hcount, hgot⟩ := h.read
      change hs.flatten ++ kcp.rcvQueue.map Ikcpseg.piece = pieces.take k at hread
      -- the messages handed out are the first ones that were cut
      have hfront : hs.flatten ++ kcp.rcvQueue.map Ikcpseg.piece <+: gs.flatten := by
        rw [hread, ← hgs]
        exact (List.take_prefix k pieces).trans (List.prefix_append pieces more)
      obtain ⟨gs', rfl⟩ := prefix_of_flatten (fun g hg => (hcount g hg).countdown)
        (fun g hg => (hmessages g hg).countdown) ((List.prefix_append _ _).trans hfront)
      rw [List.flatten_append, List.prefix_append_right_inj] at hfront
      have hnew : ∀ g ∈ gs', IsMessage g := fun g hg => hmessages g (List.mem_append_right hs hg)
      obtain ⟨seg, segs, hqueue⟩ := List.exists_cons_of_ne_nil hne
      rw [hqueue, List.map_cons] at hfront
      obtain ⟨g, gs'', rfl, hlength, htake⟩ :=
        first_countdown (fun g hg => (hnew g hg).countdown) hfront
      have hmessage := hnew g List.mem_cons_self
      have hfrg : seg.frg.toNat < ikcpWndRcv.toNat := by
        have hfew := hmessage.few
        change g.length = seg.frg.toNat + 1 at hlength
        omega
      have hwhole := ikcpPeeksize_whole hreceiving hpeek hqueue hfrg
      have hg : g = (kcp.rcvQueue.take (seg.frg.toNat + 1)).map Ikcpseg.piece := by
        rw [hqueue, List.map_take]
        refine htake ?_
        rw [List.length_cons, List.length_map]
        exact hwhole
      have htaken : message kcp.rcvQueue = kcp.rcvQueue.take (seg.frg.toNat + 1) :=
        message_of_countdown (hg ▸ hmessage.countdown)
      refine ⟨k, hs ++ [g], hle, hnext, ?_, fun g' hg' => ?_, ?_⟩
      · rw [List.flatten_append, List.flatten_singleton, List.append_assoc, ← hread, hg, ← htaken,
          ← List.map_append]
        exact congrArg (fun q => hs.flatten ++ List.map Ikcpseg.piece q)
          (message_append_drop kcp.rcvQueue)
      · rcases List.mem_append.mp hg' with hg' | hg'
        · exact hcount g' hg'
        · rw [List.mem_singleton.mp hg']
          exact hmessage
      · rw [hgot, List.map_append, List.map_singleton, hbuffer, merged_eq_joined, htaken, ← hg]

/-! ## Calls -/

theorem leftQueue_same {kcp kcp' : Ikcpcb} (h : kcp'.sndQueue = kcp.sndQueue) :
    leftQueue kcp kcp' = [] := by
  rw [leftQueue, h, Nat.sub_self]
  rfl

/-- What a call does to the sending end. -/
theorem sndLink_call {kcp kcp' : Ikcpcb} {accepted : List (List UInt8)} {call : Call}
    (hbuilt : Built kcp) (hstream : kcp.stream = 0) (h : SndLink accepted pieces kcp.sndSide)
    (hcall : kcp.call call = some kcp') :
    SndLink (accepted ++ takenMessage kcp call) (pieces ++ leftQueue kcp kcp') kcp'.sndSide ∧
    ∀ d ∈ datagrams kcp call, Genuine kcp.conv (pieces ++ leftQueue kcp kcp') d := by
  have hidle : ∀ k : Ikcpcb, k.sndSide = kcp.sndSide →
      SndLink (accepted ++ []) (pieces ++ leftQueue kcp k) k.sndSide := by
    intro k hk
    have hqueue : k.sndQueue = kcp.sndQueue := congrArg SndSide.sndQueue hk
    rw [leftQueue_same hqueue, List.append_nil, List.append_nil, hk]
    exact h
  have hnone : ∀ d ∈ ([] : List (List UInt8)), Genuine kcp.conv (pieces ++ leftQueue kcp kcp') d :=
    fun d hd => absurd hd List.not_mem_nil
  cases call with
  | send buffer =>
      obtain rfl := Option.some.inj hcall
      obtain ⟨hlink, hleft⟩ := send_cut hbuilt hstream h buffer
      rw [hleft, List.append_nil] at hnone ⊢
      exact ⟨hlink, hnone⟩
  | flush =>
      obtain ⟨⟨kcp₁, sent⟩, hflush, rfl⟩ := Option.map_eq_some_iff.mp hcall
      have hsent : datagrams kcp .flush = sent := by
        rw [datagrams, hflush]
        rfl
      rw [hsent, takenMessage, List.append_nil]
      · exact flush_numbered hbuilt h hflush
      · simp
  | update current =>
      obtain ⟨⟨kcp₁, sent⟩, hupdate, rfl⟩ := Option.map_eq_some_iff.mp hcall
      have hsent : datagrams kcp (.update current) = sent := by
        rw [datagrams, hupdate]
        rfl
      rw [hsent]
      obtain ⟨updated, tsFlush, ⟨rfl, rfl⟩ | hflush⟩ := ikcpUpdate_cases hupdate
      · exact ⟨hidle _ rfl, hnone⟩
      · have hticked : Built { kcp with current, updated, tsFlush } :=
          ⟨hbuilt.mtu, hbuilt.room, hbuilt.queue, hbuilt.buf⟩
        have hnumbered := flush_numbered hticked h hflush
        rw [takenMessage, List.append_nil]
        · exact hnumbered
        · simp
  | input data =>
      obtain rfl := Option.some.inj hcall
      obtain ⟨hbuf, hqueue, hnxt⟩ := ikcpInput_sndBuf kcp data
      rw [leftQueue_same hqueue, List.append_nil]
      obtain ⟨gs, hgs, hmessages, haccepted⟩ := h.cut
      refine ⟨⟨hnxt.trans h.next, fun s' hs' => ?_, gs, ?_, hmessages, ?_⟩,
        fun d hd => absurd hd List.not_mem_nil⟩
      · obtain ⟨s, hs, hcore⟩ := hbuf s' hs'
        exact (h.buf s hs).of_core hcore
      · rw [← hgs]
        exact congrArg (fun q => pieces ++ List.map Ikcpseg.piece q) hqueue
      · rw [← haccepted]
        exact List.append_nil accepted
  | recv len =>
      obtain ⟨⟨n, buffer, kcp₁⟩, hrecv, rfl⟩ := Option.map_eq_some_iff.mp hcall
      exact ⟨hidle _ (ikcpRecv_sndSide hrecv), hnone⟩
  | setmtu mtu =>
      obtain rfl := Option.some.inj hcall
      exact ⟨hidle _ (ikcpSetmtu_sndSide kcp mtu), hnone⟩
  | nodelay nodelay interval resend nc =>
      obtain rfl := Option.some.inj hcall
      exact ⟨hidle _ (ikcpNodelay_sndSide kcp nodelay interval resend nc), hnone⟩
  | wndsize sndwnd rcvwnd =>
      obtain rfl := Option.some.inj hcall
      exact ⟨hidle _ (ikcpWndsize_sndSide kcp sndwnd rcvwnd), hnone⟩
  | setInterval interval =>
      obtain rfl := Option.some.inj hcall
      exact ⟨hidle _ rfl, hnone⟩
  | fields stream rxMinrto fastresend =>
      obtain rfl := Option.some.inj hcall
      exact ⟨hidle _ rfl, hnone⟩

/-- What a call does to the receiving end. -/
theorem rcvLink_call (hlt : pieces.length < 2 ^ 32) {more : List Piece} {gs : List (List Piece)}
    (hgs : pieces ++ more = gs.flatten) (hmessages : ∀ g ∈ gs, IsMessage g) {conv : IUINT32}
    {kcp kcp' : Ikcpcb} {got : List (List UInt8)} {call : Call}
    (hreceiving : Receiving kcp.rcvSide) (h : RcvLink pieces got kcp.rcvSide)
    (hinput : ∀ data, call = .input data → Genuine conv pieces data)
    (hcall : kcp.call call = some kcp') :
    RcvLink pieces (got ++ givenMessage kcp call) kcp'.rcvSide := by
  have hidle : ∀ k : Ikcpcb, k.rcvSide = kcp.rcvSide → RcvLink pieces (got ++ []) k.rcvSide := by
    intro k hk
    rw [List.append_nil, hk]
    exact h
  cases call with
  | recv len => exact rcvLink_recv hlt hgs hmessages h hreceiving hcall
  | input data =>
      obtain rfl := Option.some.inj hcall
      have hgot : got ++ givenMessage kcp (.input data) = got := List.append_nil got
      rw [hgot]
      exact rcvLink_input hlt (hinput data rfl) h
  | wndsize sndwnd rcvwnd =>
      obtain rfl := Option.some.inj hcall
      obtain ⟨rcvWnd, -, hside⟩ := ikcpWndsize_rcvSide kcp sndwnd rcvwnd
      have hgot : got ++ givenMessage kcp (.wndsize sndwnd rcvwnd) = got := List.append_nil got
      rw [hside, hgot]
      exact ⟨h.buf, h.read⟩
  | flush =>
      obtain ⟨⟨kcp₁, sent⟩, hflush, rfl⟩ := Option.map_eq_some_iff.mp hcall
      exact hidle _ (ikcpFlush_rcvSide hflush)
  | update current =>
      obtain ⟨⟨kcp₁, sent⟩, hupdate, rfl⟩ := Option.map_eq_some_iff.mp hcall
      obtain ⟨updated, tsFlush, ⟨rfl, -⟩ | hflush⟩ := ikcpUpdate_cases hupdate
      · exact hidle _ rfl
      · have hside := ikcpFlush_rcvSide hflush
        exact hidle _ hside
  | send buffer =>
      obtain rfl := Option.some.inj hcall
      exact hidle _ (ikcpSend_rcvSide kcp buffer)
  | setmtu mtu =>
      obtain rfl := Option.some.inj hcall
      exact hidle _ (ikcpSetmtu_rcvSide kcp mtu)
  | nodelay nodelay interval resend nc =>
      obtain rfl := Option.some.inj hcall
      exact hidle _ (ikcpNodelay_rcvSide kcp nodelay interval resend nc)
  | setInterval interval =>
      obtain rfl := Option.some.inj hcall
      exact hidle _ rfl
  | fields stream rxMinrto fastresend =>
      obtain rfl := Option.some.inj hcall
      exact hidle _ rfl

/-! ## Runs of the network -/

/-- What holds of one end by itself. -/
structure EndOk (kcp : Ikcpcb) : Prop where
  inTurn : ∃ taken, InTurn taken kcp.rcvSide
  built : Built kcp
  stream : kcp.stream = 0

/-- What holds between the end `i` as a sender and the other one as a receiver. -/
structure Linked (net : Net) (i : Bool) : Prop where
  snd : SndLink (net.accepted i) (net.numbered i) (net.node i).sndSide
  wire : ∀ d ∈ net.wire i, Genuine (net.node i).conv (net.numbered i) d
  rcv : (net.numbered i).length < 2 ^ 32 →
    RcvLink (net.numbered i) (net.got (!i)) (net.node (!i)).rcvSide

structure NetInv (net : Net) : Prop where
  ends : ∀ i, EndOk (net.node i)
  links : ∀ i, Linked net i

theorem Net.step_cases {net net' : Net} {j : Bool} {call : Call}
    (h : net.step (j, call) = some net') : (∀ data, call = .input data → data ∈ net.wire (!j)) ∧
    ∃ kcp, (net.node j).call call = some kcp ∧ net' = net.after j call kcp := by
  unfold Net.step at h
  split at h
  case isFalse => exact absurd h.symm (Option.some_ne_none net')
  case isTrue hallowed =>
    obtain ⟨kcp, hcall, rfl⟩ := Option.map_eq_some_iff.mp h
    refine ⟨fun data hdata => ?_, kcp, hcall, rfl⟩
    simp only at hdata hallowed
    rw [hdata] at hallowed
    exact of_decide_eq_true hallowed

theorem endOk_call {kcp kcp' : Ikcpcb} {call : Call} (h : EndOk kcp)
    (hmode : ∀ stream rxMinrto fastresend, call = .fields stream rxMinrto fastresend → stream = 0)
    (hcall : kcp.call call = some kcp') : EndOk kcp' := by
  obtain ⟨taken, htaken⟩ := h.inTurn
  refine ⟨⟨_, inTurn_call htaken hcall⟩, built_call h.built hcall, ?_⟩
  have hsame := call_stream hcall fun stream rxMinrto fastresend heq =>
    (hmode stream rxMinrto fastresend heq).trans h.stream.symm
  exact hsame.trans h.stream

/-- The end that makes a call, as a sender. -/
theorem linked_sender {net : Net} {j : Bool} {call : Call} {kcp : Ikcpcb} (h : Linked net j)
    (hend : EndOk (net.node j)) (hcall : (net.node j).call call = some kcp) :
    Linked (net.after j call kcp) j := by
  obtain ⟨hsnd, hnew⟩ := sndLink_call hend.built hend.stream h.snd hcall
  have hother : (!j) ≠ j := Bool.not_ne_self j
  have hconv := call_conv hcall
  refine ⟨?_, fun d hd => ?_, fun hfew => ?_⟩
  · simp only [Net.after, Function.update_self]
    exact hsnd
  · simp only [Net.after, Function.update_self] at hd ⊢
    rw [hconv]
    rcases List.mem_append.mp hd with hd | hd
    · exact (h.wire d hd).mono _
    · exact hnew d hd
  · simp only [Net.after, Function.update_self, Function.update_of_ne hother] at hfew ⊢
    rw [List.length_append] at hfew
    exact (h.rcv (by omega)).mono _

/-- The end that makes a call, as a receiver. -/
theorem linked_receiver {net : Net} {j : Bool} {call : Call} {kcp : Ikcpcb} (h : Linked net (!j))
    (hend : EndOk (net.node j)) (hinput : ∀ data, call = .input data → data ∈ net.wire (!j))
    (hcall : (net.node j).call call = some kcp) : Linked (net.after j call kcp) (!j) := by
  have hother : (!j) ≠ j := Bool.not_ne_self j
  obtain ⟨gs, hgs, hmessages, -⟩ := h.snd.cut
  obtain ⟨taken, htaken⟩ := hend.inTurn
  refine ⟨?_, ?_, fun hfew => ?_⟩
  · simp only [Net.after, Function.update_of_ne hother]
    exact h.snd
  · simp only [Net.after, Function.update_of_ne hother]
    exact h.wire
  · have hrcv := h.rcv
    simp only [Net.after, Function.update_of_ne hother, Bool.not_not, Function.update_self]
      at hfew hrcv ⊢
    exact rcvLink_call hfew hgs hmessages htaken.1 (hrcv hfew)
      (fun data heq => h.wire data (hinput data heq)) hcall

theorem netInv_step (net : Net) (e : Bool × Call) (net' : Net) (h : NetInv net)
    (hmode : MessageMode e) (hstep : net.step e = some net') : NetInv net' := by
  obtain ⟨j, call⟩ := e
  obtain ⟨hinput, kcp, hcall, rfl⟩ := Net.step_cases hstep
  have hboth : ∀ i, i = j ∨ i = !j := by
    intro i
    cases i <;> cases j <;> simp
  refine ⟨fun i => ?_, fun i => ?_⟩
  · rcases hboth i with rfl | rfl
    · simp only [Net.after, Function.update_self]
      exact endOk_call (h.ends i) hmode hcall
    · simp only [Net.after, Function.update_of_ne (Bool.not_ne_self j)]
      exact h.ends (!j)
  · rcases hboth i with rfl | rfl
    · exact linked_sender (h.links i) (h.ends i) hcall
    · exact linked_receiver (h.links (!j)) (h.ends j) hinput hcall

theorem netInv_start (conv : Bool → IUINT32) : NetInv (Net.start conv) := by
  refine ⟨fun i => ⟨⟨[], inTurn_create (conv i)⟩, built_create (conv i), rfl⟩, fun i => ?_⟩
  have hempty : ∀ seg ∈ ([] : List Ikcpseg), Honest [] seg := fun seg h => absurd h List.not_mem_nil
  refine ⟨⟨rfl, hempty, [], rfl, by simp, rfl⟩, fun d hd => absurd hd List.not_mem_nil, fun _ => ?_⟩
  exact ⟨hempty, 0, [], le_refl 0, rfl, rfl, by simp, rfl⟩

theorem netInv_run {conv : Bool → IUINT32} {events : List (Bool × Call)} {net : Net}
    (hrun : run Net.step (Net.start conv) events = some net)
    (hmode : ∀ e ∈ events, MessageMode e) : NetInv net :=
  run_keeps_meets (fun _ => MessageMode) netInv_step events (netInv_start conv)
    (meets_of_forall events _ hmode) hrun

/-- A receiving end that is linked has handed out the first of the accepted messages. -/
theorem Linked.delivered {net : Net} {i : Bool} (h : Linked net i)
    (hfew : (net.numbered i).length < 2 ^ 32) : net.got (!i) <+: net.accepted i := by
  obtain ⟨gs, hgs, hmessages, haccepted⟩ := h.snd.cut
  obtain ⟨k, hs, -, -, hread, hcount, hgot⟩ := (h.rcv hfew).read
  have hfront : hs.flatten <+: gs.flatten := by
    have hfirst : hs.flatten <+: (net.numbered i).take k := hread ▸ List.prefix_append _ _
    rw [← hgs]
    exact hfirst.trans ((List.take_prefix k _).trans (List.prefix_append _ _))
  rw [hgot, haccepted]
  exact (prefix_of_flatten (fun g hg => (hcount g hg).countdown)
    (fun g hg => (hmessages g hg).countdown) hfront).map joined

/-- In message mode, whatever calls the two ends make and whatever the network does with their
datagrams, each end has handed out the first messages that the other has accepted, whole and in
their order, as long as the other has not numbered 2 ^ 32 segments. -/
theorem kcp_delivers_in_order (conv : Bool → IUINT32) (events : List (Bool × Call)) (net : Net)
    (hrun : run Net.step (Net.start conv) events = some net)
    (hmode : ∀ e ∈ events, MessageMode e) (i : Bool)
    (hfew : (net.numbered i).length < 2 ^ 32) : net.got (!i) <+: net.accepted i :=
  ((netInv_run hrun hmode).links i).delivered hfew

/-- Two messages whose datagrams overtake each other, and one of them comes twice. -/
def overtaken : List (Bool × Call) :=
  let push (sn : IUINT32) (data : List UInt8) : List UInt8 :=
    encoded { conv := 7, cmd := ikcpCmdPush, wnd := 128, sn, data }
  [(false, .nodelay (.ofBits 1) (.ofBits 10) (.ofBits 2) (.ofBits 1)),
    (false, .send [1]), (false, .update 0), (false, .send [2]), (false, .flush),
    (true, .input (push 1 [2])), (true, .input (push 1 [2])), (true, .input (push 0 [1])),
    (true, .recv (.ofBits 8))]

theorem kcp_delivers_overtaken : ∃ net, run Net.step (Net.start fun _ => 7) overtaken = some net ∧
    net.got true = [[1]] ∧ net.accepted false = [[1], [2]] ∧
      net.got true <+: net.accepted false := by
  have hmode : ∀ e ∈ overtaken, MessageMode e := by
    intro e he stream rxMinrto fastresend heq
    simp only [overtaken, List.mem_cons, List.not_mem_nil, or_false] at he
    rcases he with rfl | rfl | rfl | rfl | rfl | rfl | rfl | rfl | rfl <;>
      exact absurd heq (by simp)
  obtain ⟨net, hrun, hgot, haccepted, hfew⟩ : ∃ net,
      run Net.step (Net.start fun _ => 7) overtaken = some net ∧ net.got true = [[1]] ∧
      net.accepted false = [[1], [2]] ∧ (net.numbered false).length = 2 :=
    ⟨_, rfl, rfl, rfl, rfl⟩
  exact ⟨net, hrun, hgot, haccepted,
    kcp_delivers_in_order (fun _ => 7) overtaken net hrun hmode false (by omega)⟩

end CppTrack.Kcp
