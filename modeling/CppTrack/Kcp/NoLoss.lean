import CppTrack.Kcp.Acknowledged
import Mathlib.Data.List.Sort

/-!
# KCP loses nothing

An end keeps a numbered segment until the other end has it. So when nothing is left to send,
everything that was accepted has arrived, whatever the network has done.
-/

namespace CppTrack.Kcp

open Lib

variable {pieces : List Piece} {Q : Nat → Prop}

/-! ## What an end tells the other -/

/-- What a segment says has been received has been received. -/
structure Truthful (pieces : List Piece) (r : RcvSide) (seg : Ikcpseg) : Prop where
  una : ∃ m ≤ pieces.length, seg.una = BitVec.ofNat 32 m ∧ ∀ k < m, Received r k
  ack : seg.cmd = ikcpCmdAck → AckOk pieces r seg.sn

/-- A datagram of truthful segments of one conversation. -/
def Told (conv : IUINT32) (pieces : List Piece) (r : RcvSide) (d : List UInt8) : Prop :=
  ∃ segs : List Ikcpseg, d = segs.flatMap encoded ∧ ∀ seg ∈ segs,
    seg.IsCmd ∧ seg.conv = conv ∧ seg.len < 2 ^ 31 ∧ Truthful pieces r seg

theorem Truthful.mono {r r' : RcvSide} {seg : Ikcpseg} (h : Truthful pieces r seg)
    (hlt : pieces.length < 2 ^ 31) (hr : Keeping pieces (Received r) r') :
    Truthful pieces r' seg := by
  obtain ⟨m, hm, huna, hreceived⟩ := h.una
  refine ⟨⟨m, hm, huna, fun k hk => ?_⟩, fun hack => (h.ack hack).mono hlt hr⟩
  exact hr.received k (by omega) (hreceived k hk)

theorem Told.mono {conv : IUINT32} {r r' : RcvSide} {d : List UInt8} (h : Told conv pieces r d)
    (hlt : pieces.length < 2 ^ 31) (hr : Keeping pieces (Received r) r') :
    Told conv pieces r' d := by
  obtain ⟨segs, hd, hsegs⟩ := h
  refine ⟨segs, hd, fun seg hseg => ?_⟩
  obtain ⟨hcmd, hconv, hlen, htruthful⟩ := hsegs seg hseg
  exact ⟨hcmd, hconv, hlen, htruthful.mono hlt hr⟩

theorem AckOk.more {r : RcvSide} {sn : IUINT32} (h : AckOk pieces r sn) (more : List Piece) :
    AckOk (pieces ++ more) r sn := by
  obtain ⟨k, hk, hsn, hreceived⟩ := h
  exact ⟨k, by rw [List.length_append]; omega, hsn, hreceived⟩

theorem Told.more {conv : IUINT32} {r : RcvSide} {d : List UInt8} (h : Told conv pieces r d)
    (more : List Piece) : Told conv (pieces ++ more) r d := by
  obtain ⟨segs, hd, hsegs⟩ := h
  refine ⟨segs, hd, fun seg hseg => ?_⟩
  obtain ⟨hcmd, hconv, hlen, ⟨m, hm, huna, hreceived⟩, hack⟩ := hsegs seg hseg
  refine ⟨hcmd, hconv, hlen, ⟨m, ?_, huna, hreceived⟩, fun hcmd => (hack hcmd).more more⟩
  rw [List.length_append]
  omega

/-- A flush tells only what is so. -/
theorem told_flush {kcp kcp' : Ikcpcb} {sent : List (List UInt8)} (hbuilt : Built kcp)
    (h : Acking pieces Q kcp) (hflush : ikcpFlush kcp = some (kcp', sent)) :
    ∀ d ∈ sent, Told kcp.conv pieces kcp.rcvSide d := by
  intro d hd
  obtain ⟨segs, -, rfl, hemitted⟩ := ikcpFlush_emits hflush hd
  refine ⟨segs, rfl, fun seg hseg => ?_⟩
  have hseg := hemitted seg hseg
  obtain ⟨hcmd, hconv, hlen, -⟩ := emitted_built hbuilt hseg
  refine ⟨hcmd, hconv, hlen, ⟨kcp.rcvNxt.toNat, h.keeping.near.next, ?_, fun k hk => .inl hk⟩,
    fun hack => ?_⟩
  · rw [hseg.una, BitVec.ofNat_toNat, BitVec.setWidth_eq]
  · rcases hseg.kind with ⟨-, -, -, hkind⟩ | ⟨s, hs, hcore⟩
    · rcases hkind with ⟨-, hmem⟩ | hwask | hwins
      · exact h.acks _ hmem
      · exact absurd (hack.symm.trans hwask) (by decide)
      · exact absurd (hack.symm.trans hwins) (by decide)
    · have hpush : seg.cmd = ikcpCmdPush :=
        (congrArg Ikcpseg.cmd hcore :).trans ((built_queued hbuilt).buf s hs).2.2.1
      exact absurd (hack.symm.trans hpush) (by decide)

theorem told_call {kcp kcp' : Ikcpcb} {call : Call} (hbuilt : Built kcp) (h : Acking pieces Q kcp)
    (hcall : kcp.call call = some kcp') :
    ∀ d ∈ datagrams kcp call, Told kcp.conv pieces kcp.rcvSide d := by
  have hnone : ∀ d ∈ ([] : List (List UInt8)), Told kcp.conv pieces kcp.rcvSide d :=
    fun d hd => absurd hd List.not_mem_nil
  cases call with
  | flush =>
      obtain ⟨⟨kcp₁, sent⟩, hflush, rfl⟩ := Option.map_eq_some_iff.mp hcall
      have hsent : datagrams kcp .flush = sent := by
        rw [datagrams, hflush]
        rfl
      rw [hsent]
      exact told_flush hbuilt h hflush
  | update current =>
      obtain ⟨⟨kcp₁, sent⟩, hupdate, rfl⟩ := Option.map_eq_some_iff.mp hcall
      have hsent : datagrams kcp (.update current) = sent := by
        rw [datagrams, hupdate]
        rfl
      rw [hsent]
      obtain ⟨updated, tsFlush, ⟨-, rfl⟩ | hflush⟩ := ikcpUpdate_cases hupdate
      · exact hnone
      · have hticked : Built { kcp with current, updated, tsFlush } :=
          ⟨hbuilt.mtu, hbuilt.room, hbuilt.queue, hbuilt.buf⟩
        have htold := told_flush hticked (acking_of_same h rfl rfl) hflush
        exact htold
  | send buffer => exact hnone
  | recv len => exact hnone
  | input data => exact hnone
  | setmtu mtu => exact hnone
  | setInterval interval => exact hnone
  | nodelay nodelay interval resend nc => exact hnone
  | wndsize sndwnd rcvwnd => exact hnone
  | fields stream rxMinrto fastresend => exact hnone

/-! ## What an end keeps -/

/-- A numbered segment is kept, or the other end has it. -/
def Kept (count : Nat) (r : RcvSide) (sndBuf : List Ikcpseg) : Prop :=
  ∀ k < count, (∃ s ∈ sndBuf, s.sn = BitVec.ofNat 32 k) ∨ Received r k

/-- A segment is forgotten only if it is acknowledged, alone or with all before it. -/
theorem inputSegment_forgets (st : InputState) (seg s : Ikcpseg) (hs : s ∈ st.kcp.sndBuf) :
    s ∈ (inputSegment st seg).kcp.sndBuf ∨ itimediff seg.una s.sn > 0 ∨
    seg.cmd = ikcpCmdAck ∧ s.sn = seg.sn := by
  have hshrink : ∀ kcp : Ikcpcb, (ikcpShrinkBuf kcp).sndBuf = kcp.sndBuf := by
    intro kcp
    unfold ikcpShrinkBuf
    split <;> rfl
  have hside := congrArg SndSide.sndBuf (inputSegment_sndSide st seg)
  have huna : s ∈ (inputUna st.kcp seg).sndBuf ∨ itimediff seg.una s.sn > 0 := by
    obtain ⟨gone, rest, hsplit, hgone, -, heq⟩ :=
      unaLoop_eq seg.una { st.kcp with rmtWnd := seg.wnd } st.kcp.sndBuf
    rw [inputUna, hshrink, ikcpParseUna, heq]
    rcases List.mem_append.mp (hsplit ▸ hs) with hs | hs
    · exact .inr (hgone s hs)
    · exact .inl hs
  rcases huna with huna | huna
  · by_cases hcmd : seg.cmd = ikcpCmdAck
    · rw [if_pos hcmd] at hside
      have hack : s ∈ (ikcpParseAck (inputUna st.kcp seg) seg.sn).sndBuf ∨ s.sn = seg.sn := by
        unfold ikcpParseAck
        split
        case isTrue => exact .inl huna
        case isFalse =>
          rcases ackLoop_eq seg.sn (inputUna st.kcp seg).sndBuf with
            hno | ⟨front, acked, back, hsplit, hsn, hyes⟩
          · simp only [hno]
            exact .inl huna
          · simp only [hyes]
            rw [hsplit, List.mem_append, List.mem_cons] at huna
            rcases huna with huna | rfl | huna
            · exact .inl (List.mem_append_left back huna)
            · exact .inr hsn
            · exact .inl (List.mem_append_right front huna)
      rcases hack with hack | hack
      · left
        have hbuf : (inputSegment st seg).kcp.sndBuf =
            (ikcpParseAck (inputUna st.kcp seg) seg.sn).sndBuf := hside.trans (hshrink _)
        rwa [hbuf]
      · exact .inr (.inr ⟨hcmd, hack⟩)
    · rw [if_neg hcmd] at hside
      have hbuf : (inputSegment st seg).kcp.sndBuf = (inputUna st.kcp seg).sndBuf := hside
      left
      rwa [hbuf]
  · exact .inr (.inl huna)

theorem kept_core {count : Nat} {r : RcvSide} {sndBuf sndBuf' : List Ikcpseg}
    (h : Kept count r sndBuf) (hsns : sns sndBuf' = sns sndBuf) : Kept count r sndBuf' := by
  intro k hk
  rcases h k hk with ⟨s, hs, hsn⟩ | hreceived
  · have hmem : s.sn ∈ sns sndBuf' := hsns ▸ List.mem_map_of_mem hs
    obtain ⟨s', hs', hsame⟩ := List.mem_map.mp hmem
    exact .inl ⟨s', hs', hsame.trans hsn⟩
  · exact .inr hreceived

theorem kept_inputSegment (hlt : pieces.length < 2 ^ 31) {r : RcvSide} {st : InputState}
    {seg : Ikcpseg} (h : Kept pieces.length r st.kcp.sndBuf) (hseg : Truthful pieces r seg) :
    Kept pieces.length r (inputSegment st seg).kcp.sndBuf := by
  intro k hk
  rcases h k hk with ⟨s, hs, hsn⟩ | hreceived
  · rcases inputSegment_forgets st seg s hs with hkept | hpast | ⟨hcmd, hsame⟩
    · exact .inl ⟨s, hkept, hsn⟩
    · -- the numbers before `una` have been received
      obtain ⟨m, hm, huna, hall⟩ := hseg.una
      rw [huna, hsn, ahead_ofNat (by omega) (by omega)] at hpast
      exact .inr (hall k (by omega))
    · obtain ⟨n, hn, hsn', hreceived⟩ := hseg.ack hcmd
      have heq : k = n := ofNat_inj (by omega) (by omega) (hsn.symm.trans (hsame.trans hsn'))
      exact .inr (heq ▸ hreceived)
  · exact .inr hreceived

theorem kept_input (hlt : pieces.length < 2 ^ 31) {conv : IUINT32} {r : RcvSide} {kcp : Ikcpcb}
    {d : List UInt8} (h : Kept pieces.length r kcp.sndBuf) (hd : Told conv pieces r d) :
    Kept pieces.length r (ikcpInput kcp d).2.sndBuf := by
  obtain ⟨segs, rfl, hsegs⟩ := hd
  refine ikcpInput_encoded (R := fun kcp => Kept pieces.length r kcp.sndBuf)
    (fun seg hseg => (hsegs seg hseg).2.1) (fun seg hseg => (hsegs seg hseg).1)
    (fun seg hseg => (hsegs seg hseg).2.2.1) ?_ ?_ ?_ h
  · intro seg hseg st hst
    obtain ⟨hcmd, -, -, htruthful⟩ := hsegs seg hseg
    refine kept_inputSegment hlt hst ⟨htruthful.una, fun hack => ?_⟩
    rw [wire_cmd hcmd] at hack
    exact htruthful.ack hack
  · intro kcp' sn hkcp'
    refine kept_core hkcp' ?_
    unfold ikcpParseFastack
    split
    · rfl
    · exact sns_of_core (fastackLoop_core sn kcp'.sndBuf)
  · intro kcp' hkcp'
    have hbuf : (openWindow kcp').sndBuf = kcp'.sndBuf :=
      congrArg SndSide.sndBuf (openWindow_sndSide kcp')
    rw [hbuf]
    exact hkcp'

theorem length_leftQueue (kcp kcp' : Ikcpcb) :
    (leftQueue kcp kcp').length = kcp.sndQueue.length - kcp'.sndQueue.length := by
  rw [leftQueue, List.length_map, List.length_take]
  exact Nat.min_eq_left (Nat.sub_le _ _)

/-- What is numbered is put into `snd_buf`. -/
theorem queued_kept {n : Nat} {r : RcvSide} {kcp : Ikcpcb} (hnext : kcp.sndNxt = BitVec.ofNat 32 n)
    (h : Kept n r kcp.sndBuf) : ∃ m, kcp.sndQueue.length = m + (queued kcp).sndQueue.length ∧
    Kept (n + m) r (queued kcp).sndBuf := by
  have hside := probeWindow_sndSide { kcp with acklist := [] }
  simp only [Ikcpcb.sndSide, SndSide.mk.injEq] at hside
  obtain ⟨-, hnxt, -, -, -, hqueue, hsnd⟩ := hside
  have hstart : Kept n r (probeWindow { kcp with acklist := [] }).sndBuf := by
    rw [hsnd]
    exact h
  obtain ⟨m, hlen, -, hkept⟩ : ∃ m, kcp.sndQueue.length = m + (queued kcp).sndQueue.length ∧
      (queued kcp).sndNxt = BitVec.ofNat 32 (n + m) ∧ Kept (n + m) r (queued kcp).sndBuf := by
    refine moveQueue_keeps (fun k => ∃ m, kcp.sndQueue.length = m + k.sndQueue.length ∧
      k.sndNxt = BitVec.ofNat 32 (n + m) ∧ Kept (n + m) r k.sndBuf) _ _ ?_ _ _
      ⟨0, ?_, hnxt.trans hnext, hstart⟩
    · intro k newseg rest hk _
      obtain ⟨m, hlen, hk, hkept⟩ := hk
      refine ⟨m + 1, ?_, ?_, fun i hi => ?_⟩
      · rw [hlen, List.length_cons]
        simp only [Ikcpcb.enqueue]
        omega
      · rw [← Nat.add_assoc, ofNat_succ, ← hk]
        rfl
      · rcases Nat.lt_succ_iff_lt_or_eq.mp hi with hi | rfl
        · rcases hkept i hi with ⟨s, hs, hsn⟩ | hreceived
          · exact .inl ⟨s, List.mem_append_left _ hs, hsn⟩
          · exact .inr hreceived
        · exact .inl ⟨_, List.mem_append_right _ List.mem_cons_self, hk⟩
    · rw [Nat.zero_add]
      exact congrArg List.length hqueue.symm
  exact ⟨m, hlen, hkept⟩

theorem kept_flush {n : Nat} {r : RcvSide} {kcp kcp' : Ikcpcb} {sent : List (List UInt8)}
    (hnext : kcp.sndNxt = BitVec.ofNat 32 n) (h : Kept n r kcp.sndBuf)
    (hflush : ikcpFlush kcp = some (kcp', sent)) :
    Kept (n + (leftQueue kcp kcp').length) r kcp'.sndBuf := by
  rcases ikcpFlush_cases hflush with ⟨-, rfl, -⟩ |
    ⟨seg, acked, asked, told, wnd, resent, rtomin, st, sndBuf, cwnd, -, -, -, -, -, hsegs, -, rfl⟩
  · rw [length_leftQueue, Nat.sub_self]
    exact h
  · obtain ⟨m, hlen, hkept⟩ := queued_kept hnext h
    have hside := updateWindow_sndSide cwnd resent st.change st.lost
      { queued kcp with sndBuf, xmit := st.xmit, state := st.state }
    have hqueue := congrArg SndSide.sndQueue hside
    have hbuf := congrArg SndSide.sndBuf hside
    simp only [Ikcpcb.sndSide] at hqueue hbuf
    rw [length_leftQueue, hqueue, hbuf, hlen, Nat.add_sub_cancel]
    exact kept_core hkept (sns_of_core (flushSegments_core hsegs))

theorem kept_call (hlt : pieces.length < 2 ^ 31) {conv : IUINT32} {r : RcvSide}
    {kcp kcp' : Ikcpcb} {call : Call} (hstream : kcp.stream = 0)
    (hnext : kcp.sndNxt = BitVec.ofNat 32 pieces.length) (h : Kept pieces.length r kcp.sndBuf)
    (hinput : ∀ data, call = .input data → Told conv pieces r data)
    (hcall : kcp.call call = some kcp') :
    Kept (pieces ++ leftQueue kcp kcp').length r kcp'.sndBuf := by
  have hidle : ∀ k : Ikcpcb, k.sndSide = kcp.sndSide →
      Kept (pieces ++ leftQueue kcp k).length r k.sndBuf := by
    intro k hk
    have hqueue : k.sndQueue = kcp.sndQueue := congrArg SndSide.sndQueue hk
    have hbuf : k.sndBuf = kcp.sndBuf := congrArg SndSide.sndBuf hk
    rw [leftQueue_same hqueue, List.append_nil, hbuf]
    exact h
  cases call with
  | send buffer =>
      obtain rfl := Option.some.inj hcall
      have hsend : ikcpSend kcp buffer = sendFragments kcp buffer := if_pos hstream
      rw [hsend, List.length_append, length_leftQueue]
      rcases sendFragments_cases kcp buffer with hmany | ⟨count, -, -, hsome⟩
      · rw [hmany, Nat.sub_self]
        exact h
      · rw [hsome]
        simp only [List.length_append]
        rw [Nat.sub_eq_zero_of_le (Nat.le_add_right _ _)]
        exact h
  | flush =>
      obtain ⟨⟨kcp₁, sent⟩, hflush, rfl⟩ := Option.map_eq_some_iff.mp hcall
      rw [List.length_append]
      exact kept_flush hnext h hflush
  | update current =>
      obtain ⟨⟨kcp₁, sent⟩, hupdate, rfl⟩ := Option.map_eq_some_iff.mp hcall
      obtain ⟨updated, tsFlush, ⟨rfl, -⟩ | hflush⟩ := ikcpUpdate_cases hupdate
      · exact hidle _ rfl
      · have hkept := @kept_flush pieces.length r { kcp with current, updated, tsFlush } kcp₁ sent
          hnext h hflush
        rw [List.length_append]
        exact hkept
  | input data =>
      obtain rfl := Option.some.inj hcall
      obtain ⟨-, hqueue, -⟩ := ikcpInput_sndBuf kcp data
      rw [leftQueue_same hqueue, List.append_nil]
      exact kept_input hlt h (hinput data rfl)
  | recv len =>
      obtain ⟨⟨n, buffer, kcp₁⟩, hrecv, rfl⟩ := Option.map_eq_some_iff.mp hcall
      exact hidle _ (ikcpRecv_sndSide hrecv)
  | setmtu mtu =>
      obtain rfl := Option.some.inj hcall
      exact hidle _ (ikcpSetmtu_sndSide kcp mtu)
  | nodelay nodelay interval resend nc =>
      obtain rfl := Option.some.inj hcall
      exact hidle _ (ikcpNodelay_sndSide kcp nodelay interval resend nc)
  | wndsize sndwnd rcvwnd =>
      obtain rfl := Option.some.inj hcall
      exact hidle _ (ikcpWndsize_sndSide kcp sndwnd rcvwnd)
  | setInterval interval =>
      obtain rfl := Option.some.inj hcall
      exact hidle _ rfl
  | fields stream rxMinrto fastresend =>
      obtain rfl := Option.some.inj hcall
      exact hidle _ rfl

/-! ## Both ends -/

/-- What holds between the end `i` and what the other one has and acknowledges. -/
structure Backed (net : Net) (i : Bool) : Prop where
  kept : Kept (net.numbered i).length (net.node (!i)).rcvSide (net.node i).sndBuf
  acking : Acking (net.numbered i) (Received (net.node (!i)).rcvSide) (net.node (!i))
  told : ∀ d ∈ net.wire (!i), Told (net.node (!i)).conv (net.numbered i) (net.node (!i)).rcvSide d

theorem Acking.more {kcp : Ikcpcb} (h : Acking pieces Q kcp) (more : List Piece) :
    Acking (pieces ++ more) Q kcp := by
  have hnext := h.keeping.near.next
  refine ⟨⟨⟨fun seg hseg => (h.keeping.near.buf seg hseg).mono more, ?_⟩, h.keeping.received⟩,
    fun p hp => (h.acks p hp).more more⟩
  rw [List.length_append]
  omega

/-- The end that makes a call, as a sender. -/
theorem backed_sender {net : Net} {j : Bool} {call : Call} {kcp : Ikcpcb} (h : Backed net j)
    (hlinked : Linked net j) (hend : EndOk (net.node j))
    (hinput : ∀ data, call = .input data → data ∈ net.wire (!j))
    (hcall : (net.node j).call call = some kcp) (hfew : (net.numbered j).length < 2 ^ 31) :
    Backed (net.after j call kcp) j := by
  have hother : (!j) ≠ j := Bool.not_ne_self j
  refine ⟨?_, ?_, fun d hd => ?_⟩
  · simp only [Net.after, Function.update_self, Function.update_of_ne hother]
    exact kept_call hfew hend.stream hlinked.snd.next h.kept
      (fun data heq => h.told data (hinput data heq)) hcall
  · simp only [Net.after, Function.update_self, Function.update_of_ne hother]
    exact h.acking.more _
  · simp only [Net.after, Function.update_self, Function.update_of_ne hother] at hd ⊢
    exact (h.told d hd).more _

/-- The end that makes a call, as a receiver. -/
theorem backed_receiver {net : Net} {j : Bool} {call : Call} {kcp : Ikcpcb} (h : Backed net (!j))
    (hlinked : Linked net (!j)) (hend : EndOk (net.node j))
    (hinput : ∀ data, call = .input data → data ∈ net.wire (!j))
    (hcall : (net.node j).call call = some kcp) (hfew : (net.numbered (!j)).length < 2 ^ 31) :
    Backed (net.after j call kcp) (!j) := by
  have hother : (!j) ≠ j := Bool.not_ne_self j
  obtain ⟨hkept, hacking, htold⟩ := h
  rw [Bool.not_not] at hkept hacking htold
  have hnext := acking_call hfew hacking
    (fun data heq => hlinked.wire data (hinput data heq)) hcall
  have hconv := call_conv hcall
  refine ⟨fun k hk => ?_, ?_, fun d hd => ?_⟩
  · simp only [Net.after, Bool.not_not, Function.update_self, Function.update_of_ne hother] at hk ⊢
    rcases hkept k hk with hs | hreceived
    · exact .inl hs
    · exact .inr (hnext.keeping.received k (by omega) hreceived)
  · simp only [Net.after, Bool.not_not, Function.update_self, Function.update_of_ne hother]
    exact ⟨keeping_refl hnext.keeping.near, hnext.acks⟩
  · simp only [Net.after, Bool.not_not, Function.update_self, Function.update_of_ne hother] at hd ⊢
    rw [hconv]
    rcases List.mem_append.mp hd with hd | hd
    · exact (htold d hd).mono hfew hnext.keeping
    · exact (told_call hend.built hacking hcall d hd).mono hfew hnext.keeping

/-- What holds in every state while the numbers can be compared. -/
structure LossInv (net : Net) : Prop where
  links : NetInv net
  backed : ∀ i, (net.numbered i).length < 2 ^ 31 → Backed net i

theorem lossInv_step (net : Net) (e : Bool × Call) (net' : Net) (h : LossInv net)
    (hmode : MessageMode e) (hstep : net.step e = some net') : LossInv net' := by
  refine ⟨netInv_step net e net' h.links hmode hstep, fun i hfew => ?_⟩
  obtain ⟨j, call⟩ := e
  obtain ⟨hinput, kcp, hcall, rfl⟩ := Net.step_cases hstep
  have hboth : i = j ∨ i = !j := by
    cases i <;> cases j <;> simp
  rcases hboth with rfl | rfl
  · simp only [Net.after, Function.update_self, List.length_append] at hfew
    have hold : (net.numbered i).length < 2 ^ 31 := by omega
    exact backed_sender (h.backed i hold) (h.links.links i) (h.links.ends i) hinput hcall hold
  · simp only [Net.after, Function.update_of_ne (Bool.not_ne_self j)] at hfew
    exact backed_receiver (h.backed (!j) hfew) (h.links.links (!j)) (h.links.ends j)
      hinput hcall hfew

theorem lossInv_start (conv : Bool → IUINT32) : LossInv (Net.start conv) := by
  refine ⟨netInv_start conv, fun i _ => ⟨fun k hk => absurd hk (Nat.not_lt_zero k),
    ⟨keeping_refl ⟨fun seg hseg => absurd hseg List.not_mem_nil, Nat.zero_le _⟩,
      fun p hp => absurd hp List.not_mem_nil⟩, fun d hd => absurd hd List.not_mem_nil⟩⟩

theorem lossInv_run {conv : Bool → IUINT32} {events : List (Bool × Call)} {net : Net}
    (hrun : run Net.step (Net.start conv) events = some net)
    (hmode : ∀ e ∈ events, MessageMode e) : LossInv net :=
  run_keeps_meets (fun _ => MessageMode) lossInv_step events (lossInv_start conv)
    (meets_of_forall events _ hmode) hrun

/-- In message mode, whatever calls the two ends make and whatever the network does with their
datagrams: each segment that an end has numbered is still in its `snd_buf`, to be sent again, or
the other end has it, read on or in `rcv_buf`, as long as fewer than 2 ^ 31 have been numbered. -/
theorem kcp_keeps_until_received (conv : Bool → IUINT32) (events : List (Bool × Call)) (net : Net)
    (hrun : run Net.step (Net.start conv) events = some net)
    (hmode : ∀ e ∈ events, MessageMode e) (i : Bool) (hfew : (net.numbered i).length < 2 ^ 31)
    (k : Nat) (hk : k < (net.numbered i).length) :
    (∃ seg ∈ (net.node i).sndBuf, seg.sn = BitVec.ofNat 32 k) ∨
      Received (net.node (!i)).rcvSide k :=
  ((lossInv_run hrun hmode).backed i hfew).kept k hk

/-- The two messages that overtake each other, and the datagram that acknowledges them. -/
def acknowledged : List (Bool × Call) :=
  let ack (sn : IUINT32) : List UInt8 :=
    encoded { conv := 7, cmd := ikcpCmdAck, wnd := 127, una := 2, sn }
  overtaken ++ [(true, .update 0), (false, .input (ack 1 ++ ack 1 ++ ack 0))]

theorem messageMode_acknowledged : ∀ e ∈ acknowledged, MessageMode e := by
  intro e he stream rxMinrto fastresend heq
  simp only [acknowledged, overtaken, List.cons_append, List.nil_append, List.mem_cons,
    List.not_mem_nil, or_false] at he
  rcases he with rfl | rfl | rfl | rfl | rfl | rfl | rfl | rfl | rfl | rfl | rfl <;>
    exact absurd heq (by simp)

theorem kcp_keeps_acknowledged : ∃ net,
    run Net.step (Net.start fun _ => 7) acknowledged = some net ∧ (net.node false).sndBuf = [] ∧
    ((∃ seg ∈ (net.node false).sndBuf, seg.sn = 1) ∨ Received (net.node true).rcvSide 1) := by
  obtain ⟨net, hrun, hbuf, hlen⟩ : ∃ net,
      run Net.step (Net.start fun _ => 7) acknowledged = some net ∧
      (net.node false).sndBuf = [] ∧ (net.numbered false).length = 2 := ⟨_, rfl, rfl, rfl⟩
  exact ⟨net, hrun, hbuf, kcp_keeps_until_received (fun _ => 7) acknowledged net hrun
    messageMode_acknowledged false (by omega) 1 (by omega)⟩

/-! ## When nothing is left to send -/

/-- The segments in `rcv_buf` go on from `rcv_nxt` to the last one, if all have been received. -/
theorem rcvBuf_numbers (hlt : pieces.length < 2 ^ 31) {r : RcvSide} (h : Near pieces r)
    (hreceiving : Receiving r) (hall : ∀ k < pieces.length, Received r k) :
    (sns r.rcvBuf).map BitVec.toNat =
      List.range' r.rcvNxt.toNat (pieces.length - r.rcvNxt.toNat) := by
  have hnext := h.next
  have hself : BitVec.ofNat 32 r.rcvNxt.toNat = r.rcvNxt := by
    rw [BitVec.ofNat_toNat, BitVec.setWidth_eq]
  have hnat : ∀ k < 2 ^ 31, (BitVec.ofNat 32 k).toNat = k := by
    intro k hk
    rw [BitVec.toNat_ofNat, Nat.mod_eq_of_lt (by omega)]
  -- each number is as far ahead as it is greater
  have hgap : ∀ t ∈ sns r.rcvBuf, t.toNat < pieces.length ∧ r.rcvNxt.toNat ≤ t.toNat ∧
      ahead r.rcvNxt t = t.toNat - r.rcvNxt.toNat := by
    intro t ht
    obtain ⟨seg, hseg, rfl⟩ := List.mem_map.mp ht
    obtain ⟨k, hk, hsn⟩ := h.buf seg hseg
    obtain ⟨hklt, -⟩ := List.getElem?_eq_some_iff.mp hk
    have hpos := (hreceiving.ordered.within _ ht).ahead_eq
    have hahead := ahead_ofNat (show k < 2 ^ 31 by omega)
      (show r.rcvNxt.toNat < 2 ^ 31 by omega)
    rw [hself, itimediff] at hahead
    rw [hsn, hahead] at hpos
    rw [hsn, hahead, hnat k (by omega)]
    omega
  have hsorted : ((sns r.rcvBuf).map BitVec.toNat).Pairwise (· < ·) := by
    refine List.pairwise_map.mpr (hreceiving.ordered.sorted.imp_of_mem fun hs ht hlt => ?_)
    rw [(hgap _ hs).2.2, (hgap _ ht).2.2] at hlt
    omega
  refine hsorted.eq_of_mem_iff (List.pairwise_lt_range' _ Nat.one_pos) fun k => ?_
  rw [List.mem_range'_1]
  constructor
  · intro hk
    obtain ⟨t, ht, rfl⟩ := List.mem_map.mp hk
    obtain ⟨hlast, hfirst, -⟩ := hgap t ht
    omega
  · intro hk
    rcases hall k (by omega) with hread | ⟨seg, hseg, hsn⟩
    · omega
    · refine List.mem_map.mpr ⟨seg.sn, List.mem_map_of_mem hseg, ?_⟩
      rw [hsn, hnat k (by omega)]

/-- So its pieces are all that have not been read on. -/
theorem rcvBuf_pieces (hlt : pieces.length < 2 ^ 31) {r : RcvSide} (h : Near pieces r)
    (hreceiving : Receiving r) (hall : ∀ k < pieces.length, Received r k) :
    r.rcvBuf.map Ikcpseg.piece = pieces.drop r.rcvNxt.toNat := by
  have hnumbers := rcvBuf_numbers hlt h hreceiving hall
  have hpiece : ∀ seg ∈ r.rcvBuf, some seg.piece = pieces[seg.sn.toNat]? := by
    intro seg hseg
    obtain ⟨k, hk, hsn⟩ := h.buf seg hseg
    obtain ⟨hklt, -⟩ := List.getElem?_eq_some_iff.mp hk
    rw [hsn, BitVec.toNat_ofNat, Nat.mod_eq_of_lt (by omega), hk]
  have hsome : (r.rcvBuf.map Ikcpseg.piece).map some = (pieces.drop r.rcvNxt.toNat).map some := by
    calc (r.rcvBuf.map Ikcpseg.piece).map some
        = r.rcvBuf.map fun seg => pieces[seg.sn.toNat]? := by
          rw [List.map_map]
          exact List.map_congr_left hpiece
      _ = ((sns r.rcvBuf).map BitVec.toNat).map fun k => pieces[k]? := by
          rw [sns, List.map_map, List.map_map]
          rfl
      _ = (pieces.drop r.rcvNxt.toNat).map some := by
          rw [hnumbers]
          refine List.ext_getElem (by simp) fun j hj hj' => ?_
          simp only [List.getElem_map, List.getElem_range', List.getElem_drop]
          simp only [List.length_map, List.length_drop] at hj'
          rw [Nat.one_mul, List.getElem?_eq_getElem]
  exact List.map_injective_iff.mpr (Option.some_injective _) hsome

/-- In message mode, whatever calls the two ends make and whatever the network does with their
datagrams: when an end has nothing left to send, every message that it has accepted has been handed
out by the other end or waits there, whole and in order, as long as fewer than 2 ^ 31 segments have
been numbered. -/
theorem kcp_loses_nothing (conv : Bool → IUINT32) (events : List (Bool × Call)) (net : Net)
    (hrun : run Net.step (Net.start conv) events = some net)
    (hmode : ∀ e ∈ events, MessageMode e) (i : Bool) (hfew : (net.numbered i).length < 2 ^ 31)
    (hbuf : (net.node i).sndBuf = []) (hqueue : (net.node i).sndQueue = []) :
    ∃ rest : List (List Piece), net.accepted i = net.got (!i) ++ rest.map joined ∧
      (∀ g ∈ rest, IsMessage g) ∧
      ((net.node (!i)).rcvQueue ++ (net.node (!i)).rcvBuf).map Ikcpseg.piece = rest.flatten := by
  have hinv := lossInv_run hrun hmode
  have hlinked := hinv.links.links i
  have hbacked := hinv.backed i hfew
  obtain ⟨taken, hreceiving, -⟩ := (hinv.links.ends (!i)).inTurn
  have hall : ∀ k < (net.numbered i).length, Received (net.node (!i)).rcvSide k := by
    intro k hk
    rcases hbacked.kept k hk with ⟨seg, hseg, -⟩ | hreceived
    · rw [hbuf] at hseg
      exact absurd hseg List.not_mem_nil
    · exact hreceived
  have hpieces := rcvBuf_pieces hfew hbacked.acking.keeping.near hreceiving hall
  obtain ⟨gs, hgs, hmessages, haccepted⟩ := hlinked.snd.cut
  obtain ⟨n, hs, hn, hnext, hread, hcount, hgot⟩ := (hlinked.rcv (by omega)).read
  have hnat : (net.node (!i)).rcvSide.rcvNxt.toNat = n := by
    rw [hnext, BitVec.toNat_ofNat, Nat.mod_eq_of_lt (by omega)]
  rw [hnat] at hpieces
  have hwhole : hs.flatten ++ ((net.node (!i)).rcvQueue ++ (net.node (!i)).rcvBuf).map
      Ikcpseg.piece = gs.flatten := by
    have hnone : (net.node i).sndSide.sndQueue = [] := hqueue
    rw [hnone, List.map_nil, List.append_nil] at hgs
    rw [← hgs, List.map_append, ← List.append_assoc]
    conv => rhs; rw [← List.take_append_drop n (net.numbered i), ← hread, ← hpieces]
    rfl
  obtain ⟨rest, rfl⟩ := prefix_of_flatten (fun g hg => (hcount g hg).countdown)
    (fun g hg => (hmessages g hg).countdown) ⟨_, hwhole⟩
  refine ⟨rest, ?_, fun g hg => hmessages g (List.mem_append_right hs hg), ?_⟩
  · rw [haccepted, hgot, List.map_append]
  · rw [List.flatten_append] at hwhole
    exact List.append_cancel_left hwhole

theorem kcp_loses_nothing_acknowledged : ∃ net,
    run Net.step (Net.start fun _ => 7) acknowledged = some net ∧ net.got true = [[1]] ∧
    ∃ rest : List (List Piece), net.accepted false = net.got true ++ rest.map joined ∧
      (∀ g ∈ rest, IsMessage g) ∧
      ((net.node true).rcvQueue ++ (net.node true).rcvBuf).map Ikcpseg.piece = rest.flatten := by
  obtain ⟨net, hrun, hgot, hbuf, hqueue, hlen⟩ : ∃ net,
      run Net.step (Net.start fun _ => 7) acknowledged = some net ∧ net.got true = [[1]] ∧
      (net.node false).sndBuf = [] ∧ (net.node false).sndQueue = [] ∧
      (net.numbered false).length = 2 := ⟨_, rfl, rfl, rfl, rfl, rfl⟩
  exact ⟨net, hrun, hgot, kcp_loses_nothing (fun _ => 7) acknowledged net hrun
    messageMode_acknowledged false (by omega) hbuf hqueue⟩

end CppTrack.Kcp
