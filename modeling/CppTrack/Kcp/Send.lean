import CppTrack.Kcp.Sides
import CppTrack.Lib.Run

/-!
# What one end of KCP keeps until it is acknowledged

Whatever bytes arrive, `snd_buf` stays in the order of the sequence numbers, `snd_una` is the first
number in it, or `snd_nxt` if there is none, and no more segments are under way than the window of
the other end allowed. That the loops over `snd_buf` stop early is then no loss.
-/

namespace CppTrack.Kcp

open Lib

/-- The numbers in `snd_buf`, and the one that comes next. -/
def SndSide.outstanding (s : SndSide) : List IUINT32 := sns s.sndBuf ++ [s.sndNxt]

/-- The counters are right, and `snd_buf` is in order between `snd_una` and `snd_nxt`. -/
structure Sending (s : SndSide) : Prop where
  window : s.rmtWnd.toNat < 2 ^ 16
  bufCount : s.nsndBuf = BitVec.ofNat 32 s.sndBuf.length
  queCount : s.nsndQue = BitVec.ofNat 32 s.sndQueue.length
  first : s.outstanding.head? = some s.sndUna
  ordered : InOrder s.sndUna s.outstanding
  inFlight : (s.sndNxt - s.sndUna).toNat < 2 ^ 16

/-! ## Acknowledged segments -/

/-- `snd_una` is made the first number that is still outstanding. -/
def SndSide.shrink (s : SndSide) : SndSide := { s with sndUna := s.outstanding.headD s.sndNxt }

theorem ikcpShrinkBuf_sndSide (kcp : Ikcpcb) :
    (ikcpShrinkBuf kcp).sndSide = kcp.sndSide.shrink := by
  unfold ikcpShrinkBuf SndSide.shrink SndSide.outstanding
  cases hbuf : kcp.sndBuf with
  | nil => simp [Ikcpcb.sndSide, hbuf, sns]
  | cons seg segs => simp [Ikcpcb.sndSide, hbuf, sns]

theorem head?_outstanding (s : SndSide) :
    s.outstanding.head? = some (s.outstanding.headD s.sndNxt) := by
  unfold SndSide.outstanding
  cases sns s.sndBuf with
  | nil => rfl
  | cons t l => rfl

/-- Numbers may go from an order that begins with the base, if the next one becomes the base. -/
theorem inOrder_shrink {base una nxt : IUINT32} {l l' : List IUINT32}
    (h : InOrder base (l ++ [nxt])) (hsub : List.Sublist l' l)
    (huna : (l' ++ [nxt]).head? = some una) :
    InOrder una (l' ++ [nxt]) ∧ (nxt - una).toNat ≤ (nxt - base).toNat := by
  have hsublist : InOrder base (l' ++ [nxt]) :=
    h.sublist (List.Sublist.append hsub (List.Sublist.refl [nxt]))
  have hmem : una ∈ l' ++ [nxt] := List.mem_of_mem_head? huna
  have hordered : InOrder una (l' ++ [nxt]) := by
    cases hl : l' ++ [nxt] with
    | nil => rw [hl] at hmem; exact absurd hmem (List.not_mem_nil)
    | cons t rest =>
        rw [hl] at huna hsublist
        obtain rfl := Option.some.inj huna
        exact hsublist.rebase
  refine ⟨hordered, ?_⟩
  -- the new base is not before the old one, and both are before the next number
  have hnxt : nxt ∈ l' ++ [nxt] := List.mem_append_right l' List.mem_cons_self
  have hfar := (hordered.within nxt hnxt).ahead_eq
  have hold := (hsublist.within nxt hnxt).ahead_eq
  have hstep := (hsublist.within una hmem).ahead_eq
  rw [ahead_sub (hsublist.within una hmem) (hsublist.within nxt hnxt)] at hfar
  omega

/-- Segments may leave `snd_buf` before `snd_una` is set. -/
theorem sending_shrink {s s' : SndSide} (h : Sending s) (hwindow : s'.rmtWnd.toNat < 2 ^ 16)
    (hnxt : s'.sndNxt = s.sndNxt) (hsub : List.Sublist (sns s'.sndBuf) (sns s.sndBuf))
    (hcount : s'.nsndBuf = BitVec.ofNat 32 s'.sndBuf.length)
    (hqueue : s'.nsndQue = BitVec.ofNat 32 s'.sndQueue.length) : Sending s'.shrink := by
  have hordered : InOrder s.sndUna (sns s.sndBuf ++ [s'.sndNxt]) := hnxt ▸ h.ordered
  obtain ⟨horder, hflight⟩ := inOrder_shrink hordered hsub (head?_outstanding s')
  refine ⟨hwindow, hcount, hqueue, head?_outstanding s', horder, ?_⟩
  have hbound := h.inFlight
  rw [← hnxt] at hbound
  exact hflight.trans_lt hbound

theorem sns_sublist {segs segs' : List Ikcpseg} (h : List.Sublist segs segs') :
    List.Sublist (sns segs) (sns segs') := h.map Ikcpseg.sn

theorem sending_inputUna {kcp : Ikcpcb} (h : Sending kcp.sndSide) {seg : Ikcpseg}
    (hwnd : seg.wnd.toNat < 2 ^ 16) : Sending (inputUna kcp seg).sndSide := by
  obtain ⟨gone, rest, hsplit, -, -, heq⟩ :=
    unaLoop_eq seg.una { kcp with rmtWnd := seg.wnd } kcp.sndBuf
  rw [inputUna, ikcpShrinkBuf_sndSide, ikcpParseUna, heq]
  refine sending_shrink h hwnd rfl (sns_sublist ?_) ?_ h.queCount
  · change List.Sublist rest kcp.sndBuf
    rw [hsplit]
    exact List.sublist_append_right gone rest
  · have hcount : kcp.nsndBuf = BitVec.ofNat 32 kcp.sndBuf.length := h.bufCount
    change kcp.nsndBuf - BitVec.ofNat 32 gone.length = BitVec.ofNat 32 rest.length
    rw [hcount, hsplit, List.length_append, BitVec.ofNat_add, add_sub_cancel_left]

theorem sending_parseAck {kcp : Ikcpcb} (h : Sending kcp.sndSide) (sn : IUINT32) :
    Sending (ikcpShrinkBuf (ikcpParseAck kcp sn)).sndSide := by
  rw [ikcpShrinkBuf_sndSide]
  unfold ikcpParseAck
  split
  case isTrue => exact sending_shrink h h.window rfl (List.Sublist.refl _) h.bufCount h.queCount
  case isFalse =>
    rcases ackLoop_eq sn kcp.sndBuf with hno | ⟨front, seg, back, hsplit, -, hyes⟩
    · simp only [hno]
      exact sending_shrink h h.window rfl (List.Sublist.refl _) h.bufCount h.queCount
    · simp only [hyes]
      refine sending_shrink h h.window rfl (sns_sublist ?_) ?_ h.queCount
      · change List.Sublist (front ++ back) kcp.sndBuf
        rw [hsplit]
        exact List.Sublist.append (List.Sublist.refl front) (List.sublist_cons_self seg back)
      · have hcount : kcp.nsndBuf = BitVec.ofNat 32 kcp.sndBuf.length := h.bufCount
        change kcp.nsndBuf - 1 = BitVec.ofNat 32 (front ++ back).length
        rw [hcount, hsplit, List.length_append, List.length_cons, ← Nat.add_assoc, ofNat_succ,
          add_sub_cancel_right, List.length_append]

/-- What is changed in the segments but not in their numbers does not matter. -/
theorem sending_congr {s s' : SndSide} (h : Sending s) (hwindow : s'.rmtWnd.toNat < 2 ^ 16)
    (hbuf : s'.nsndBuf = s.nsndBuf) (hqueue : s'.nsndQue = BitVec.ofNat 32 s'.sndQueue.length)
    (huna : s'.sndUna = s.sndUna) (hnxt : s'.sndNxt = s.sndNxt)
    (hsns : sns s'.sndBuf = sns s.sndBuf) :
    Sending s' := by
  have hlen : s'.sndBuf.length = s.sndBuf.length := by
    have hlens := congrArg List.length hsns
    simpa [sns] using hlens
  have hout : s'.outstanding = s.outstanding := by
    unfold SndSide.outstanding
    rw [hsns, hnxt]
  refine ⟨hwindow, ?_, hqueue, ?_, ?_, ?_⟩
  · rw [hbuf, h.bufCount, hlen]
  · rw [hout, h.first, huna]
  · rw [hout, huna]
    exact h.ordered
  · rw [hnxt, huna]
    exact h.inFlight

theorem sending_parseFastack {kcp : Ikcpcb} (h : Sending kcp.sndSide) (sn : IUINT32) :
    Sending (ikcpParseFastack kcp sn).sndSide := by
  unfold ikcpParseFastack
  split
  case isTrue => exact h
  case isFalse =>
    exact sending_congr h h.window rfl h.queCount rfl rfl
      (sns_of_core (fastackLoop_core sn kcp.sndBuf))

theorem sending_input {kcp : Ikcpcb} (h : Sending kcp.sndSide) (data : List UInt8) :
    Sending (ikcpInput kcp data).2.sndSide := by
  refine ikcpInput_keeps (fun kcp => Sending kcp.sndSide) ?_ ?_ ?_ h data
  · intro st seg hwnd hst
    have huna := sending_inputUna hst hwnd
    rw [inputSegment_sndSide]
    split
    · exact sending_parseAck huna seg.sn
    · exact huna
  · intro kcp' sn hkcp'
    exact sending_parseFastack hkcp' sn
  · intro kcp' hkcp'
    rw [openWindow_sndSide]
    exact hkcp'

/-! ## Flushing -/

theorem imin_le (a b : IUINT32) : (imin a b).toNat ≤ a.toNat ∧ (imin a b).toNat ≤ b.toNat := by
  unfold imin
  split
  case isTrue h => exact ⟨le_refl _, h⟩
  case isFalse h => exact ⟨by rw [BitVec.le_def] at h; omega, le_refl _⟩

/-- The window is none of the three that make it up exceeded. -/
theorem sendWindow_le (kcp : Ikcpcb) : (sendWindow kcp).toNat ≤ kcp.sndWnd.toNat ∧
    (sendWindow kcp).toNat ≤ kcp.rmtWnd.toNat ∧
    (kcp.nocwnd = 0 → (sendWindow kcp).toNat ≤ kcp.cwnd.toNat) := by
  have hboth := imin_le kcp.sndWnd kcp.rmtWnd
  have hall := imin_le kcp.cwnd (imin kcp.sndWnd kcp.rmtWnd)
  simp only [sendWindow]
  split
  case isTrue => exact ⟨hall.2.trans hboth.1, hall.2.trans hboth.2, fun _ => hall.1⟩
  case isFalse h => exact ⟨hboth.1, hboth.2, fun h' => absurd h' h⟩

/-- The test of the loop compares what is under way with the window. -/
theorem room_iff {una nxt cwnd : IUINT32} (hflight : (nxt - una).toNat < 2 ^ 16)
    (hcwnd : cwnd.toNat < 2 ^ 16) :
    itimediff nxt (una + cwnd) < 0 ↔ (nxt - una).toNat < cwnd.toNat := by
  have hedge : una + cwnd - una = cwnd := add_sub_cancel_left una cwnd
  have hnxt : Within una nxt := by
    unfold Within
    omega
  have hend : Within una (una + cwnd) := by
    unfold Within
    rw [hedge]
    omega
  rw [itimediff, ahead_sub hend hnxt, hnxt.ahead_eq, hend.ahead_eq, hedge]
  omega

theorem toNat_succ_sub {una nxt : IUINT32} (hflight : (nxt - una).toNat < 2 ^ 31) :
    (nxt + 1 - una).toNat = (nxt - una).toNat + 1 := by
  have hone : (1 : IUINT32).toNat = 1 := rfl
  rw [add_sub_right_comm, BitVec.toNat_add, hone, Nat.mod_eq_of_lt (by omega)]

theorem sending_enqueue {kcp : Ikcpcb} {newseg : Ikcpseg} {sndQueue : List Ikcpseg}
    (h : Sending { kcp.sndSide with sndQueue := newseg :: sndQueue }) (wnd : IUINT32)
    (hroom : (kcp.sndNxt - kcp.sndUna).toNat + 1 < 2 ^ 16) :
    Sending (kcp.enqueue wnd newseg sndQueue).sndSide := by
  have hordered : InOrder kcp.sndUna (sns kcp.sndBuf ++ [kcp.sndNxt]) := h.ordered
  have hsns : sns (kcp.sndBuf ++ [numbered kcp wnd newseg]) = sns kcp.sndBuf ++ [kcp.sndNxt] := by
    rw [sns, List.map_append]
    rfl
  have hout : (kcp.enqueue wnd newseg sndQueue).sndSide.outstanding =
      sns kcp.sndBuf ++ [kcp.sndNxt] ++ [kcp.sndNxt + 1] := by
    change sns (kcp.sndBuf ++ [numbered kcp wnd newseg]) ++ [kcp.sndNxt + 1] = _
    rw [hsns]
  refine ⟨h.window, ?_, ?_, ?_, ?_, ?_⟩
  · have hcount : kcp.nsndBuf = BitVec.ofNat 32 kcp.sndBuf.length := h.bufCount
    change kcp.nsndBuf + 1 = BitVec.ofNat 32 (kcp.sndBuf ++ [numbered kcp wnd newseg]).length
    rw [hcount, List.length_append, List.length_singleton, ofNat_succ]
  · have hcount : kcp.nsndQue = BitVec.ofNat 32 (sndQueue.length + 1) := h.queCount
    change kcp.nsndQue - 1 = BitVec.ofNat 32 sndQueue.length
    rw [hcount, ofNat_succ, add_sub_cancel_right]
  · have hfirst : (sns kcp.sndBuf ++ [kcp.sndNxt]).head? = some kcp.sndUna := h.first
    rw [hout, List.head?_append, hfirst]
    rfl
  · rw [hout]
    exact hordered.succ (by omega)
  · change (kcp.sndNxt + 1 - kcp.sndUna).toNat < 2 ^ 16
    rw [toNat_succ_sub (by omega)]
    exact hroom

/-- The loop keeps the order, as the window that the other end told has 16 bits. -/
theorem sending_moveQueue {cwnd : IUINT32} (hcwnd : cwnd.toNat < 2 ^ 16) (wnd : IUINT32)
    {kcp : Ikcpcb} (sndQueue : List Ikcpseg) (h : Sending { kcp.sndSide with sndQueue }) :
    Sending (moveQueue cwnd wnd kcp sndQueue).sndSide := by
  refine moveQueue_keeps (fun kcp => Sending kcp.sndSide) cwnd wnd ?_ kcp sndQueue h
  intro kcp newseg rest hkcp hroom
  have hlt : (kcp.sndNxt - kcp.sndUna).toNat < cwnd.toNat := (room_iff hkcp.inFlight hcwnd).mp hroom
  exact sending_enqueue hkcp wnd (by omega)

/-- Segments leave `snd_queue` until it is empty or the window is full, and get the next numbers. -/
structure Moved (k : Nat) (kcp : Ikcpcb) (queue : List Ikcpseg) (kcp' : Ikcpcb) : Prop where
  sndQueue : kcp'.sndQueue = queue.drop k
  sndNxt : kcp'.sndNxt = kcp.sndNxt + BitVec.ofNat 32 k
  sndUna : kcp'.sndUna = kcp.sndUna
  numbers : sns kcp'.sndBuf = sns kcp.sndBuf ++ counting kcp.sndNxt k
  pieces : kcp'.sndBuf.map Ikcpseg.piece =
    kcp.sndBuf.map Ikcpseg.piece ++ (queue.take k).map Ikcpseg.piece

theorem moved_none (kcp : Ikcpcb) (sndQueue : List Ikcpseg) :
    Moved 0 kcp sndQueue { kcp with sndQueue } where
  sndQueue := rfl
  sndNxt := (add_zero kcp.sndNxt).symm
  sndUna := rfl
  numbers := (List.append_nil _).symm
  pieces := (List.append_nil _).symm

theorem moveQueue_moved {cwnd : IUINT32} (hcwnd : cwnd.toNat < 2 ^ 16) (wnd : IUINT32)
    (kcp : Ikcpcb) (sndQueue : List Ikcpseg) (hflight : (kcp.sndNxt - kcp.sndUna).toNat < 2 ^ 16) :
    Moved (min sndQueue.length (cwnd.toNat - (kcp.sndNxt - kcp.sndUna).toNat)) kcp sndQueue
      (moveQueue cwnd wnd kcp sndQueue) := by
  induction sndQueue generalizing kcp with
  | nil =>
      rw [List.length_nil, Nat.zero_min]
      exact moved_none kcp []
  | cons newseg sndQueue ih =>
      have hiff := room_iff hflight hcwnd
      rw [moveQueue]
      split
      case isTrue hroom =>
        have hlt := hiff.mp hroom
        have hnext : (kcp.sndNxt + 1 - kcp.sndUna).toNat = (kcp.sndNxt - kcp.sndUna).toNat + 1 :=
          toNat_succ_sub (by omega)
        have hrest := ih (kcp.enqueue wnd newseg kcp.sndQueue)
          (by change (kcp.sndNxt + 1 - kcp.sndUna).toNat < 2 ^ 16; omega)
        change Moved (min _ (cwnd.toNat - (kcp.sndNxt + 1 - kcp.sndUna).toNat)) _ _ _ at hrest
        have hcount : min (newseg :: sndQueue).length
            (cwnd.toNat - (kcp.sndNxt - kcp.sndUna).toNat) =
              min sndQueue.length (cwnd.toNat - (kcp.sndNxt + 1 - kcp.sndUna).toNat) + 1 := by
          rw [List.length_cons]
          omega
        rw [hcount]
        refine ⟨hrest.sndQueue, ?_, hrest.sndUna, ?_, ?_⟩
        · refine hrest.sndNxt.trans ?_
          rw [ofNat_succ, add_comm (BitVec.ofNat 32 _), ← add_assoc]
          rfl
        · refine hrest.numbers.trans ?_
          rw [counting_succ', List.append_cons]
          simp [Ikcpcb.enqueue, sns, numbered]
        · refine hrest.pieces.trans ?_
          simp [Ikcpcb.enqueue, numbered, Ikcpseg.piece]
      case isFalse hfull =>
        have hge := mt hiff.mpr hfull
        have hcount : min (newseg :: sndQueue).length
            (cwnd.toNat - (kcp.sndNxt - kcp.sndUna).toNat) = 0 := by omega
        rw [hcount]
        exact moved_none kcp (newseg :: sndQueue)

theorem probeWindow_windows (kcp : Ikcpcb) : sendWindow (probeWindow kcp) = sendWindow kcp := by
  simp only [probeWindow]
  split_ifs <;> simp only [sendWindow]

theorem Moved.congr {k : Nat} {kcp kcp' kcp'' : Ikcpcb} {queue : List Ikcpseg}
    (h : Moved k kcp queue kcp'') (hside : kcp.sndSide = kcp'.sndSide) :
    Moved k kcp' queue kcp'' := by
  simp only [Ikcpcb.sndSide, SndSide.mk.injEq] at hside
  obtain ⟨huna, hnxt, -, -, -, -, hbuf⟩ := hside
  exact ⟨h.sndQueue, hnxt ▸ h.sndNxt, huna ▸ h.sndUna, hbuf ▸ hnxt ▸ h.numbers, hbuf ▸ h.pieces⟩

theorem queued_moved {kcp : Ikcpcb} (h : Sending kcp.sndSide) :
    Sending (queued kcp).sndSide ∧ Moved (min kcp.sndQueue.length
      ((sendWindow kcp).toNat - (kcp.sndNxt - kcp.sndUna).toNat)) kcp kcp.sndQueue
        (queued kcp) := by
  have hall : ∀ probed : Ikcpcb, probed.sndSide = kcp.sndSide → sendWindow probed = sendWindow kcp →
      Sending (moveQueue (sendWindow probed) (ikcpWndUnused kcp) probed probed.sndQueue).sndSide ∧
      Moved (min kcp.sndQueue.length ((sendWindow kcp).toNat - (kcp.sndNxt - kcp.sndUna).toNat))
        kcp kcp.sndQueue
        (moveQueue (sendWindow probed) (ikcpWndUnused kcp) probed probed.sndQueue) := by
    intro probed hside hwindow
    have hcwnd : (sendWindow kcp).toNat < 2 ^ 16 := (sendWindow_le kcp).2.1.trans_lt h.window
    have hprobed : Sending probed.sndSide := hside.symm ▸ h
    have hqueue : probed.sndQueue = kcp.sndQueue := congrArg SndSide.sndQueue hside
    have hnxt : probed.sndNxt = kcp.sndNxt := congrArg SndSide.sndNxt hside
    have huna : probed.sndUna = kcp.sndUna := congrArg SndSide.sndUna hside
    have hmoved := moveQueue_moved hcwnd (ikcpWndUnused kcp) probed probed.sndQueue hprobed.inFlight
    rw [hwindow]
    refine ⟨sending_moveQueue hcwnd _ probed.sndQueue hprobed, ?_⟩
    rw [hqueue, hnxt, huna] at hmoved
    rw [hqueue]
    exact hmoved.congr hside
  exact hall { probeWindow { kcp with acklist := [] } with probe := 0 } (probeWindow_sndSide _)
    (probeWindow_windows _)

/-- What `ikcp_flush` does to the sending side: segments move up, and only timers change. -/
theorem ikcpFlush_moved {kcp kcp' : Ikcpcb} {sent : List (List UInt8)} (h : Sending kcp.sndSide)
    (hupdated : kcp.updated ≠ 0) (hflush : ikcpFlush kcp = some (kcp', sent)) :
    Sending kcp'.sndSide ∧ Moved (min kcp.sndQueue.length
      ((sendWindow kcp).toNat - (kcp.sndNxt - kcp.sndUna).toNat)) kcp kcp.sndQueue kcp' := by
  obtain ⟨hsending, hmoved⟩ := queued_moved h
  rcases ikcpFlush_cases hflush with ⟨hzero, -, -⟩ |
    ⟨seg, acked, asked, told, wnd, resent, rtomin, st, sndBuf, cwnd, -, -, -, -, -, hsegs, -, rfl⟩
  · exact absurd hzero hupdated
  · have hcore := flushSegments_core hsegs
    have hside := updateWindow_sndSide cwnd resent st.change st.lost
      { queued kcp with sndBuf, xmit := st.xmit, state := st.state }
    refine ⟨?_, ?_⟩
    · rw [hside]
      exact sending_congr hsending hsending.window rfl hsending.queCount rfl rfl (sns_of_core hcore)
    · have hmarked : Moved (min kcp.sndQueue.length
          ((sendWindow kcp).toNat - (kcp.sndNxt - kcp.sndUna).toNat)) kcp kcp.sndQueue
          { queued kcp with sndBuf, xmit := st.xmit, state := st.state } :=
        ⟨hmoved.sndQueue, hmoved.sndNxt, hmoved.sndUna, (sns_of_core hcore).trans hmoved.numbers,
          (pieces_of_core hcore).trans hmoved.pieces⟩
      simp only [Ikcpcb.sndSide, SndSide.mk.injEq] at hside
      obtain ⟨huna, hnxt, -, -, -, hqueue, hbuf⟩ := hside
      exact ⟨hqueue.trans hmarked.sndQueue, hnxt.trans hmarked.sndNxt, huna.trans hmarked.sndUna,
        (congrArg sns hbuf).trans hmarked.numbers,
        (congrArg (List.map Ikcpseg.piece) hbuf).trans hmarked.pieces⟩

theorem sending_flush {kcp kcp' : Ikcpcb} {sent : List (List UInt8)} (h : Sending kcp.sndSide)
    (hflush : ikcpFlush kcp = some (kcp', sent)) : Sending kcp'.sndSide := by
  by_cases hupdated : kcp.updated = 0
  · rcases ikcpFlush_cases hflush with ⟨-, rfl, -⟩ | hcases
    · exact h
    · rw [ikcpFlush, if_pos hupdated] at hflush
      obtain ⟨rfl, -⟩ := Prod.mk.inj (Option.some.inj hflush)
      exact h
  · exact (ikcpFlush_moved h hupdated hflush).1

/-! ## Calls -/

theorem length_fragment (kcp : Ikcpcb) (count : Nat) (buffer : List UInt8) :
    (fragment kcp count buffer).length = count := by
  induction count generalizing buffer with
  | zero => rfl
  | succ count ih => rw [fragment, List.length_cons, ih]

theorem sending_sendFragments {kcp : Ikcpcb} (h : Sending kcp.sndSide) (buffer : List UInt8) :
    Sending (sendFragments kcp buffer).2.sndSide := by
  rcases sendFragments_cases kcp buffer with hmany | ⟨count, -, -, hsome⟩
  · rw [hmany]
    exact h
  · rw [hsome]
    refine sending_congr h h.window rfl ?_ rfl rfl rfl
    have hcount : kcp.nsndQue = BitVec.ofNat 32 kcp.sndQueue.length := h.queCount
    simp only [Ikcpcb.sndSide]
    rw [hcount, List.length_append, length_fragment, BitVec.ofNat_add]

theorem sending_send {kcp : Ikcpcb} (h : Sending kcp.sndSide) (buffer : List UInt8) :
    Sending (ikcpSend kcp buffer).2.sndSide := by
  have hprevious : Sending (appendToPrevious kcp buffer).1.sndSide := by
    rcases appendToPrevious_cases kcp buffer with hnone | ⟨front, old, extend, hqueue, -, hgrown⟩
    · rw [hnone]
      exact h
    · rw [hgrown]
      refine sending_congr h h.window rfl ?_ rfl rfl rfl
      have hcount : kcp.nsndQue = BitVec.ofNat 32 kcp.sndQueue.length := h.queCount
      simp only [Ikcpcb.sndSide]
      rw [hcount, hqueue, List.length_append, List.length_append, List.length_singleton,
        List.length_singleton]
  unfold ikcpSend
  split
  · exact sending_sendFragments h buffer
  · simp only
    split
    · exact hprevious
    · exact sending_sendFragments hprevious _

theorem sending_call {kcp kcp' : Ikcpcb} {call : Call} (h : Sending kcp.sndSide)
    (hcall : kcp.call call = some kcp') : Sending kcp'.sndSide := by
  cases call with
  | send buffer =>
      obtain rfl := Option.some.inj hcall
      exact sending_send h buffer
  | input data =>
      obtain rfl := Option.some.inj hcall
      exact sending_input h data
  | flush =>
      obtain ⟨⟨kcp₁, sent⟩, hflush, rfl⟩ := Option.map_eq_some_iff.mp hcall
      exact sending_flush h hflush
  | update current =>
      obtain ⟨⟨kcp₁, sent⟩, hupdate, rfl⟩ := Option.map_eq_some_iff.mp hcall
      obtain ⟨updated, tsFlush, ⟨rfl, -⟩ | hflush⟩ := ikcpUpdate_cases hupdate
      · exact h
      · refine sending_flush ?_ hflush
        exact h
  | recv len =>
      obtain ⟨⟨n, buffer, kcp₁⟩, hrecv, rfl⟩ := Option.map_eq_some_iff.mp hcall
      rw [ikcpRecv_sndSide hrecv]
      exact h
  | setmtu mtu =>
      obtain rfl := Option.some.inj hcall
      rw [ikcpSetmtu_sndSide]
      exact h
  | nodelay nodelay interval resend nc =>
      obtain rfl := Option.some.inj hcall
      rw [ikcpNodelay_sndSide]
      exact h
  | wndsize sndwnd rcvwnd =>
      obtain rfl := Option.some.inj hcall
      rw [ikcpWndsize_sndSide]
      exact h
  | setInterval interval =>
      obtain rfl := Option.some.inj hcall
      exact h
  | fields stream rxMinrto fastresend =>
      obtain rfl := Option.some.inj hcall
      exact h

theorem sending_create (conv : IUINT32) : Sending (ikcpCreate conv).sndSide where
  window := by
    have hwindow : ikcpWndRcv.toNat < 2 ^ 16 := by decide
    exact hwindow
  bufCount := rfl
  queCount := rfl
  first := rfl
  ordered := by
    have hone : InOrder (0 : IUINT32) [0] :=
      inOrder_cons.mpr ⟨by decide, by simp, inOrder_nil 0⟩
    exact hone
  inFlight := by
    have hzero : ((0 : IUINT32) - 0).toNat < 2 ^ 16 := by decide
    exact hzero

theorem sending_of_run {conv : IUINT32} {calls : List Call} {kcp : Ikcpcb}
    (hrun : run Ikcpcb.call (ikcpCreate conv) calls = some kcp) : Sending kcp.sndSide :=
  @run_keeps _ _ _ (fun kcp : Ikcpcb => Sending kcp.sndSide)
    (fun _ _ _ h hcall => sending_call h hcall) calls _ _ (sending_create conv) hrun

/-- Whatever calls are made and whatever bytes come in, `snd_buf` is in order from `snd_una` to
`snd_nxt`, its first number is `snd_una`, and no more than 65535 segments are under way. -/
theorem ikcp_sends_in_turn (conv : IUINT32) (calls : List Call) (kcp : Ikcpcb)
    (hrun : run Ikcpcb.call (ikcpCreate conv) calls = some kcp) : Sending kcp.sndSide :=
  sending_of_run hrun

/-- Three messages without congestion control, and two of them flushed. -/
def threeSent : List Call :=
  [.nodelay (.ofBits 1) (.ofBits 10) (.ofBits 2) (.ofBits 1),
    .send [1], .send [2], .update 0, .send [3]]

theorem ikcp_sends_threeSent : ∃ kcp, run Ikcpcb.call (ikcpCreate 7) threeSent = some kcp ∧
    sns kcp.sndBuf = [0, 1] ∧ Sending kcp.sndSide :=
  ⟨_, rfl, rfl, ikcp_sends_in_turn 7 threeSent _ rfl⟩

/-- In every state that calls lead to, `ikcp_flush` gives numbers to as many segments as the queue
has and the window has room for, from the front and in turn. -/
theorem ikcp_flush_fills_window (conv : IUINT32) (calls : List Call) (kcp kcp' : Ikcpcb)
    (sent : List (List UInt8)) (hrun : run Ikcpcb.call (ikcpCreate conv) calls = some kcp)
    (hupdated : kcp.updated ≠ 0) (hflush : ikcpFlush kcp = some (kcp', sent)) :
    Moved (min kcp.sndQueue.length ((sendWindow kcp).toNat - (kcp.sndNxt - kcp.sndUna).toNat))
      kcp kcp.sndQueue kcp' :=
  (ikcpFlush_moved (sending_of_run hrun) hupdated hflush).2

theorem ikcp_flush_threeSent : ∃ kcp kcp' sent,
    run Ikcpcb.call (ikcpCreate 7) threeSent = some kcp ∧ ikcpFlush kcp = some (kcp', sent) ∧
    Moved 1 kcp kcp.sndQueue kcp' :=
  ⟨_, _, _, rfl, rfl, ikcp_flush_fills_window 7 threeSent _ _ _ rfl (by decide) rfl⟩

/-! ## Loops that stop early -/

/-- The loop of `ikcp_parse_ack` stops where no later number can be the right one. -/
theorem ackLoop_filter {base sn : IUINT32} {segs : List Ikcpseg} (h : InOrder base (sns segs))
    (hsn : Within base sn) : (ackLoop sn segs).2 = segs.filter fun seg => seg.sn ≠ sn := by
  induction segs with
  | nil => rfl
  | cons seg segs ih =>
      obtain ⟨hseg, hlater, hrest⟩ := inOrder_cons.mp h
      have hnone : ahead base sn ≤ ahead base seg.sn →
          segs.filter (fun seg => seg.sn ≠ sn) = segs := by
        intro hle
        refine List.filter_eq_self.mpr fun s hs => ?_
        have hlt := hlater s.sn (List.mem_map_of_mem hs)
        refine decide_eq_true fun heq => ?_
        rw [heq] at hlt
        omega
      rw [ackLoop]
      split
      case isTrue heq =>
        rw [List.filter_cons_of_neg (by simp [heq]), hnone (by rw [heq])]
      case isFalse hne =>
        have hkeep : (seg :: segs).filter (fun seg => seg.sn ≠ sn) =
            seg :: segs.filter fun seg => seg.sn ≠ sn :=
          List.filter_cons_of_pos (by simpa using fun heq => hne heq.symm)
        rw [hkeep]
        split
        case isTrue hbefore =>
          rw [itimediff, ahead_sub hseg hsn] at hbefore
          rw [hnone (by omega)]
        case isFalse => exact congrArg (seg :: ·) (ih hrest)

theorem sndBuf_before {s : SndSide} (h : Sending s) {seg : Ikcpseg} (hseg : seg ∈ s.sndBuf) :
    Within s.sndUna seg.sn ∧ ahead s.sndUna seg.sn < ahead s.sndUna s.sndNxt ∧
    ahead s.sndUna s.sndNxt < 2 ^ 16 := by
  have hmem : seg.sn ∈ sns s.sndBuf := List.mem_map_of_mem hseg
  have hnxt : s.sndNxt ∈ s.outstanding := List.mem_append_right _ List.mem_cons_self
  have hfar := (h.ordered.within s.sndNxt hnxt).ahead_eq
  have hflight := h.inFlight
  refine ⟨h.ordered.within seg.sn (List.mem_append_left _ hmem), ?_, by omega⟩
  exact (List.pairwise_append.mp h.ordered.sorted).2.2 seg.sn hmem s.sndNxt List.mem_cons_self

/-- Differences with what is under way do not wrap round, unless a number is half a turn off. -/
theorem itimediff_sub {una base sn : IUINT32} (hsn : Within base sn)
    (hnear : ahead base sn < 2 ^ 16)
    (huna : -(2 ^ 31 - 2 ^ 16) ≤ itimediff una base) :
    itimediff una sn = itimediff una base - ahead base sn := by
  have hsplit : una - sn = (una - base) - (sn - base) := (sub_sub_sub_cancel_right una sn base).symm
  have hdist := hsn.ahead_eq
  have hhigh : (una - base).toInt < 2 ^ 31 := BitVec.toInt_lt
  unfold itimediff ahead at *
  rw [hsplit, BitVec.toInt_sub]
  refine Int.bmod_eq_of_le_mul_two ?_ ?_
  · omega
  · omega

theorem inputUna_filter {kcp : Ikcpcb} (h : Sending kcp.sndSide) (seg : Ikcpseg)
    (huna : -(2 ^ 31 - 2 ^ 16) ≤ itimediff seg.una kcp.sndUna) :
    (inputUna kcp seg).sndBuf = kcp.sndBuf.filter fun s => ¬ itimediff seg.una s.sn > 0 := by
  obtain ⟨gone, rest, hsplit, hgone, hhead, heq⟩ :=
    unaLoop_eq seg.una { kcp with rmtWnd := seg.wnd } kcp.sndBuf
  have hbuf : (inputUna kcp seg).sndBuf = rest := by
    have hside := ikcpShrinkBuf_sndSide (ikcpParseUna { kcp with rmtWnd := seg.wnd } seg.una)
    refine (congrArg SndSide.sndBuf hside).trans ?_
    rw [ikcpParseUna, heq]
    rfl
  have hdist : ∀ s ∈ kcp.sndBuf,
      itimediff seg.una s.sn = itimediff seg.una kcp.sndUna - ahead kcp.sndUna s.sn := by
    intro s hs
    obtain ⟨hwithin, hbefore, hflight⟩ := sndBuf_before h hs
    exact itimediff_sub hwithin (hbefore.trans hflight) huna
  have hordered : InOrder kcp.sndUna (sns (gone ++ rest)) :=
    hsplit ▸ h.ordered.sublist (List.sublist_append_left _ _)
  rw [hbuf, hsplit, List.filter_append]
  have hout : gone.filter (fun s => ¬ itimediff seg.una s.sn > 0) = [] := by
    refine List.filter_eq_nil_iff.mpr fun s hs => ?_
    simpa using hgone s hs
  have hin : rest.filter (fun s => ¬ itimediff seg.una s.sn > 0) = rest := by
    refine List.filter_eq_self.mpr fun s hs => decide_eq_true ?_
    cases rest with
    | nil => exact absurd hs List.not_mem_nil
    | cons first rest =>
        have hfirst := hhead first rfl
        rcases List.mem_cons.mp hs with rfl | hs'
        · exact hfirst
        · -- the numbers behind the first one are further ahead
          have hmem : ∀ t ∈ first :: rest, t ∈ kcp.sndBuf := fun t ht =>
            hsplit ▸ List.mem_append_right gone ht
          have hlater := (inOrder_cons.mp (hordered.sublist
            (sns_sublist (List.sublist_append_right gone (first :: rest))))).2.1 s.sn
              (List.mem_map_of_mem hs')
          rw [hdist first (hmem first List.mem_cons_self)] at hfirst
          rw [hdist s (hmem s hs)]
          omega
  rw [hout, hin, List.nil_append]

theorem parseAck_filter {kcp : Ikcpcb} (h : Sending kcp.sndSide) (sn : IUINT32) :
    (ikcpShrinkBuf (ikcpParseAck kcp sn)).sndBuf = kcp.sndBuf.filter fun s => s.sn ≠ sn := by
  have hshrink : (ikcpShrinkBuf (ikcpParseAck kcp sn)).sndBuf = (ikcpParseAck kcp sn).sndBuf :=
    congrArg SndSide.sndBuf (ikcpShrinkBuf_sndSide (ikcpParseAck kcp sn))
  have hnone : (∀ s ∈ kcp.sndBuf, s.sn ≠ sn) → kcp.sndBuf = kcp.sndBuf.filter fun s => s.sn ≠ sn :=
    fun hall => (List.filter_eq_self.mpr fun s hs => decide_eq_true (hall s hs)).symm
  rw [hshrink]
  unfold ikcpParseAck
  split
  case isTrue hoff =>
    refine hnone fun s hs heq => ?_
    obtain ⟨hwithin, hbefore, hflight⟩ := sndBuf_before h hs
    have hnxt : Within kcp.sndUna kcp.sndNxt :=
      h.ordered.within kcp.sndNxt (List.mem_append_right _ List.mem_cons_self)
    rw [← heq] at hoff
    rcases hoff with hneg | hpos
    · exact absurd (within_iff.mp hwithin) (Int.not_le.mpr hneg)
    · rw [itimediff, ahead_sub hnxt hwithin] at hpos
      change ahead kcp.sndUna s.sn < ahead kcp.sndUna kcp.sndNxt at hbefore
      omega
  case isFalse hon =>
    have hsn : Within kcp.sndUna sn := within_iff.mpr (Int.not_lt.mp fun hlt => hon (.inl hlt))
    exact ackLoop_filter (h.ordered.sublist (List.sublist_append_left _ _)) hsn

/-- In every state that calls lead to, a segment takes from `snd_buf` just those that come before
its `una` and, if it is an acknowledgement, the one that it names, though both loops stop early.
Only an `una` half of all numbers behind is taken for one that is ahead. -/
theorem ikcp_input_takes_acknowledged (conv : IUINT32) (calls : List Call) (kcp : Ikcpcb)
    (hrun : run Ikcpcb.call (ikcpCreate conv) calls = some kcp) (flag : Bool) (maxack : IUINT32)
    (seg : Ikcpseg) (hwnd : seg.wnd.toNat < 2 ^ 16)
    (huna : -(2 ^ 31 - 2 ^ 16) ≤ itimediff seg.una kcp.sndUna) :
    (inputSegment ⟨kcp, flag, maxack⟩ seg).kcp.sndBuf = kcp.sndBuf.filter fun s =>
      ¬ itimediff seg.una s.sn > 0 ∧ (seg.cmd = ikcpCmdAck → s.sn ≠ seg.sn) := by
  have h := sending_of_run hrun
  have hbuf := congrArg SndSide.sndBuf (inputSegment_sndSide ⟨kcp, flag, maxack⟩ seg)
  refine hbuf.trans ?_
  split
  case isTrue hack =>
    refine (parseAck_filter (sending_inputUna h hwnd) seg.sn).trans ?_
    rw [inputUna_filter h seg huna, List.filter_filter]
    refine List.filter_congr fun s _ => ?_
    simp [hack, and_comm]
  case isFalse hack =>
    refine (inputUna_filter h seg huna).trans ?_
    refine List.filter_congr fun s _ => ?_
    simp [hack]

theorem ikcp_input_threeSent : ∃ kcp, run Ikcpcb.call (ikcpCreate 7) threeSent = some kcp ∧
    sns (inputSegment ⟨kcp, false, 0⟩ { cmd := ikcpCmdAck, sn := 1, wnd := 128 }).kcp.sndBuf =
      [0] := by
  refine ⟨_, rfl, ?_⟩
  rw [ikcp_input_takes_acknowledged 7 threeSent _ rfl false 0
    { cmd := ikcpCmdAck, sn := 1, wnd := 128 }
    (by decide) (by decide)]
  decide

end CppTrack.Kcp
