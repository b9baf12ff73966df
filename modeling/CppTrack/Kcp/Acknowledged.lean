import CppTrack.Kcp.Delivery

/-!
# KCP loses nothing

An end forgets a segment only when the other end has it: acknowledgements name only what has been
received, and are old when they arrive but never wrong. So when nothing is left to send, everything
that was accepted has arrived. Here the numbers must stay below 2 ^ 31, as they are compared.
-/

namespace CppTrack.Kcp

open Lib

variable {pieces : List Piece}

/-- The piece with number `k` has come, and has been read on or waits in `rcv_buf`. -/
def Received (r : RcvSide) (k : Nat) : Prop :=
  k < r.rcvNxt.toNat ∨ ∃ seg ∈ r.rcvBuf, seg.sn = BitVec.ofNat 32 k

/-! ## Numbers that are compared -/

theorem ahead_ofNat {k n : Nat} (hk : k < 2 ^ 31) (hn : n < 2 ^ 31) :
    itimediff (BitVec.ofNat 32 k) (BitVec.ofNat 32 n) = k - n := by
  have htoInt : ∀ m : Nat, m < 2 ^ 31 → (BitVec.ofNat 32 m).toInt = m := by
    intro m hm
    have hnat : (BitVec.ofNat 32 m).toNat = m := by
      rw [BitVec.toNat_ofNat, Nat.mod_eq_of_lt (by omega)]
    rw [BitVec.toInt_eq_toNat_of_lt (by omega), hnat]
  unfold itimediff ahead
  rw [BitVec.toInt_sub, htoInt k hk, htoInt n hn]
  refine Int.bmod_eq_of_le_mul_two ?_ ?_
  · omega
  · omega

theorem ofNat_inj {k n : Nat} (hk : k < 2 ^ 31) (hn : n < 2 ^ 31)
    (h : (BitVec.ofNat 32 k : IUINT32) = BitVec.ofNat 32 n) : k = n := by
  have hdiff := ahead_ofNat hk hn
  rw [h, itimediff, ahead_self] at hdiff
  omega

/-! ## What has been received stays received -/

theorem received_move (r : RcvSide) (seg : Ikcpseg) (rcvBuf : List Ikcpseg) {k : Nat}
    (hfew : r.rcvNxt.toNat < 2 ^ 31) (hk : k < 2 ^ 31)
    (h : Received { r with rcvBuf := seg :: rcvBuf } k) (hsn : seg.sn = r.rcvNxt) :
    Received (r.move seg rcvBuf) k := by
  have hone : (1 : IUINT32).toNat = 1 := rfl
  have hnext : (r.rcvNxt + 1).toNat = r.rcvNxt.toNat + 1 := by
    rw [BitVec.toNat_add, hone, Nat.mod_eq_of_lt (by omega)]
  rcases h with hlt | ⟨s, hs, hsk⟩
  · refine .inl ?_
    change k < (r.rcvNxt + 1).toNat
    change k < r.rcvNxt.toNat at hlt
    omega
  · rcases List.mem_cons.mp hs with rfl | hs
    · -- it is the segment that is read on
      have heq : k = r.rcvNxt.toNat := by
        refine ofNat_inj hk hfew ?_
        rw [← hsk, hsn, BitVec.ofNat_toNat, BitVec.setWidth_eq]
      refine .inl ?_
      change k < (r.rcvNxt + 1).toNat
      omega
    · exact .inr ⟨s, hs, hsk⟩

/-- What waits in `rcv_buf` are numbered pieces, and no more have been read on than there are. -/
structure Near (pieces : List Piece) (r : RcvSide) : Prop where
  buf : ∀ seg ∈ r.rcvBuf, Honest pieces seg
  next : r.rcvNxt.toNat ≤ pieces.length

theorem RcvLink.near {got : List (List UInt8)} {r : RcvSide} (h : RcvLink pieces got r)
    (hlt : pieces.length < 2 ^ 32) : Near pieces r := by
  obtain ⟨n, hs, hn, hnext, -⟩ := h.read
  refine ⟨h.buf, ?_⟩
  rw [hnext, BitVec.toNat_ofNat, Nat.mod_eq_of_lt (by omega)]
  exact hn

theorem near_move (hlt : pieces.length < 2 ^ 31) (r : RcvSide) (seg : Ikcpseg)
    (rcvBuf : List Ikcpseg) (h : Near pieces { r with rcvBuf := seg :: rcvBuf })
    (hsn : seg.sn = r.rcvNxt) : Near pieces (r.move seg rcvBuf) := by
  obtain ⟨k, hk, hsk⟩ := h.buf seg List.mem_cons_self
  obtain ⟨hklt, -⟩ := List.getElem?_eq_some_iff.mp hk
  have hnext : r.rcvNxt.toNat ≤ pieces.length := h.next
  have hone : (1 : IUINT32).toNat = 1 := rfl
  have heq : k = r.rcvNxt.toNat := by
    refine ofNat_inj (by omega) (by omega) ?_
    rw [← hsk, hsn, BitVec.ofNat_toNat, BitVec.setWidth_eq]
  refine ⟨fun s hs => h.buf s (List.mem_cons_of_mem seg hs), ?_⟩
  change (r.rcvNxt + 1).toNat ≤ pieces.length
  rw [BitVec.toNat_add, hone, Nat.mod_eq_of_lt (by omega)]
  omega

/-- The pieces with a property have been received. -/
structure Keeping (pieces : List Piece) (Q : Nat → Prop) (r : RcvSide) : Prop where
  near : Near pieces r
  received : ∀ k < 2 ^ 31, Q k → Received r k

variable {Q : Nat → Prop}

theorem keeping_moveAvailable (hlt : pieces.length < 2 ^ 31) (kcp : Ikcpcb)
    (rcvBuf : List Ikcpseg) (h : Keeping pieces Q { kcp.rcvSide with rcvBuf }) :
    Keeping pieces Q (moveAvailable kcp rcvBuf).rcvSide := by
  refine moveAvailable_keeps (Keeping pieces Q) ?_ kcp rcvBuf h
  intro r seg rest hr hsn _
  refine ⟨near_move hlt r seg rest hr.near hsn, fun k hk hq => ?_⟩
  have hnext : r.rcvNxt.toNat ≤ pieces.length := hr.near.next
  exact received_move r seg rest (by omega) hk (hr.received k hk hq) hsn

/-- A segment that is not outside the window is received, if it has not been before. -/
theorem keeping_parseData (hlt : pieces.length < 2 ^ 31) {kcp : Ikcpcb} {seg : Ikcpseg}
    (h : Keeping pieces Q kcp.rcvSide) (hseg : Honest pieces seg) :
    Keeping pieces (fun k => Q k ∨ seg.sn = BitVec.ofNat 32 k ∧
      ¬ (itimediff seg.sn (kcp.rcvNxt + kcp.rcvWnd) ≥ 0 ∨ itimediff seg.sn kcp.rcvNxt < 0))
      (ikcpParseData kcp seg).rcvSide := by
  unfold ikcpParseData
  split
  case isTrue hout =>
    refine ⟨h.near, fun k hk hq => ?_⟩
    rcases hq with hq | ⟨-, hin⟩
    · exact h.received k hk hq
    · exact absurd hout hin
  case isFalse =>
    cases hput : insertBack seg kcp.rcvBuf.reverse with
    | none =>
        refine keeping_moveAvailable hlt kcp kcp.rcvBuf ⟨h.near, fun k hk hq => ?_⟩
        rcases hq with hq | ⟨hsn, -⟩
        · exact h.received k hk hq
        · obtain ⟨s, hs, hsame⟩ := insertBack_none hput
          exact .inr ⟨s, List.mem_reverse.mp hs, hsame.trans hsn⟩
    | some segs =>
        obtain ⟨front, back, hsplit, rfl, -, -⟩ := insertBack_some hput
        have hold : ∀ s ∈ kcp.rcvBuf, s ∈ front ++ back := fun s hs =>
          hsplit ▸ List.mem_reverse.mpr hs
        have hnew : ∀ s, s ∈ (front ++ seg :: back).reverse ↔ s = seg ∨ s ∈ front ++ back := by
          intro s
          rw [List.mem_reverse, List.mem_append, List.mem_cons, List.mem_append]
          exact or_left_comm
        refine keeping_moveAvailable hlt { kcp with
          rcvBuf := (front ++ seg :: back).reverse, nrcvBuf := kcp.nrcvBuf + 1 }
          (front ++ seg :: back).reverse ⟨⟨fun s hs => ?_, h.near.next⟩, fun k hk hq => ?_⟩
        · rcases (hnew s).mp hs with rfl | hs
          · exact hseg
          · exact h.near.buf s (List.mem_reverse.mp (hsplit ▸ hs))
        · rcases hq with hq | ⟨hsn, -⟩
          · rcases h.received k hk hq with hlow | ⟨s, hs, hsk⟩
            · exact .inl hlow
            · exact .inr ⟨s, (hnew s).mpr (.inr (hold s hs)), hsk⟩
          · exact .inr ⟨seg, (hnew seg).mpr (.inl rfl), hsn⟩

/-! ## The acknowledgements that wait -/

theorem moveAvailable_acklist (kcp : Ikcpcb) (rcvBuf : List Ikcpseg) :
    (moveAvailable kcp rcvBuf).acklist = kcp.acklist := by
  induction rcvBuf generalizing kcp with
  | nil => rfl
  | cons seg rcvBuf ih =>
      rw [moveAvailable]
      split
      case isTrue => rw [ih]
      case isFalse => rfl

theorem ikcpParseData_acklist (kcp : Ikcpcb) (seg : Ikcpseg) :
    (ikcpParseData kcp seg).acklist = kcp.acklist := by
  unfold ikcpParseData
  split
  case isTrue => rfl
  case isFalse =>
    simp only
    split <;> exact moveAvailable_acklist _ _

theorem ikcpShrinkBuf_acklist (kcp : Ikcpcb) : (ikcpShrinkBuf kcp).acklist = kcp.acklist := by
  unfold ikcpShrinkBuf
  split <;> rfl

theorem inputUna_acklist (kcp : Ikcpcb) (seg : Ikcpseg) :
    (inputUna kcp seg).acklist = kcp.acklist := by
  obtain ⟨gone, rest, -, -, -, heq⟩ :=
    unaLoop_eq seg.una { kcp with rmtWnd := seg.wnd } kcp.sndBuf
  rw [inputUna, ikcpShrinkBuf_acklist, ikcpParseUna, heq]

theorem inputAck_acklist (st : InputState) (seg : Ikcpseg) :
    (inputAck st seg).kcp.acklist = st.kcp.acklist := by
  have hack : ∀ kcp : Ikcpcb, (ikcpParseAck kcp seg.sn).acklist = kcp.acklist := by
    intro kcp
    unfold ikcpParseAck
    split <;> rfl
  have hkcp : (inputAck st seg).kcp = ikcpShrinkBuf (ikcpParseAck
      (if itimediff st.kcp.current seg.ts ≥ 0 then
        ikcpUpdateAck st.kcp (st.kcp.current - seg.ts) else st.kcp) seg.sn) := by
    simp only [inputAck]
    split_ifs <;> rfl
  rw [hkcp, ikcpShrinkBuf_acklist, hack]
  split
  · simp only [ikcpUpdateAck]
    split <;> rfl
  · rfl

/-- A number of a piece that has been received. -/
def AckOk (pieces : List Piece) (r : RcvSide) (sn : IUINT32) : Prop :=
  ∃ k < pieces.length, sn = BitVec.ofNat 32 k ∧ Received r k

theorem AckOk.mono {r r' : RcvSide} {sn : IUINT32} (h : AckOk pieces r sn)
    (hlt : pieces.length < 2 ^ 31) (hr : Keeping pieces (Received r) r') : AckOk pieces r' sn := by
  obtain ⟨k, hk, hsn, hreceived⟩ := h
  exact ⟨k, hk, hsn, hr.received k (by omega) hreceived⟩

theorem keeping_refl {r : RcvSide} (h : Near pieces r) : Keeping pieces (Received r) r :=
  ⟨h, fun _ _ hk => hk⟩

/-- Only numbers of received pieces are put on the list of acknowledgements. -/
structure Acking (pieces : List Piece) (Q : Nat → Prop) (kcp : Ikcpcb) : Prop where
  keeping : Keeping pieces Q kcp.rcvSide
  acks : ∀ p ∈ kcp.acklist, AckOk pieces kcp.rcvSide p.1

theorem acking_inputPush (hlt : pieces.length < 2 ^ 31) {kcp : Ikcpcb} {seg : Ikcpseg}
    (h : Acking pieces Q kcp) (hseg : Honest pieces seg) : Acking pieces Q (inputPush kcp seg) := by
  unfold inputPush
  split
  case isFalse => exact h
  case isTrue hwindow =>
    obtain ⟨k, hk, hsn⟩ := hseg
    obtain ⟨hklt, -⟩ := List.getElem?_eq_some_iff.mp hk
    simp only
    split
    case isTrue hnew =>
      have hin : ¬ (itimediff seg.sn (kcp.rcvNxt + kcp.rcvWnd) ≥ 0 ∨
          itimediff seg.sn kcp.rcvNxt < 0) := by
        intro hout
        rcases hout with hout | hout
        · exact absurd hout (Int.not_le.mpr hwindow)
        · exact absurd hnew (Int.not_le.mpr hout)
      have hparsed := @keeping_parseData pieces _ hlt (ikcpAckPush kcp seg.sn seg.ts) seg
        (keeping_refl h.keeping.near) ⟨k, hk, hsn⟩
      refine ⟨⟨hparsed.near, fun n hn hq => ?_⟩, fun p hp => ?_⟩
      · exact hparsed.received n hn (.inl (h.keeping.received n hn hq))
      · rw [ikcpParseData_acklist] at hp
        rcases List.mem_append.mp hp with hp | hp
        · obtain ⟨n, hn, hpn, hreceived⟩ := h.acks p hp
          exact ⟨n, hn, hpn, hparsed.received n (by omega) (.inl hreceived)⟩
        · rw [List.mem_singleton.mp hp]
          exact ⟨k, hklt, hsn, hparsed.received k (by omega) (.inr ⟨hsn, hin⟩)⟩
    case isFalse hold =>
      refine ⟨h.keeping, fun p hp => ?_⟩
      rcases List.mem_append.mp hp with hp | hp
      · exact h.acks p hp
      · -- what is behind `rcv_nxt` has been read on
        rw [List.mem_singleton.mp hp]
        have hnext := h.keeping.near.next
        have hbehind : itimediff (BitVec.ofNat 32 k)
            (BitVec.ofNat 32 kcp.rcvNxt.toNat) < 0 := by
          rw [BitVec.ofNat_toNat, BitVec.setWidth_eq, ← hsn]
          exact Int.not_le.mp hold
        change kcp.rcvNxt.toNat ≤ pieces.length at hnext
        rw [ahead_ofNat (by omega) (by omega)] at hbehind
        exact ⟨k, hklt, hsn, .inl (by change k < kcp.rcvNxt.toNat; omega)⟩

theorem acking_of_same {kcp kcp' : Ikcpcb} (h : Acking pieces Q kcp)
    (hside : kcp'.rcvSide = kcp.rcvSide) (hacks : kcp'.acklist = kcp.acklist) :
    Acking pieces Q kcp' := by
  refine ⟨hside ▸ h.keeping, fun p hp => ?_⟩
  rw [hacks] at hp
  exact hside ▸ h.acks p hp

theorem acking_inputSegment (hlt : pieces.length < 2 ^ 31) {st : InputState} {seg : Ikcpseg}
    (h : Acking pieces Q st.kcp) (hseg : seg.cmd = ikcpCmdPush → Honest pieces seg) :
    Acking pieces Q (inputSegment st seg).kcp := by
  have huna : Acking pieces Q (inputUna st.kcp seg) :=
    acking_of_same h (inputUna_rcvSide st.kcp seg) (inputUna_acklist st.kcp seg)
  simp only [inputSegment]
  split
  case isTrue =>
    obtain ⟨kcp, -, hrcv, heq⟩ := inputAck_kcp { st with kcp := inputUna st.kcp seg } seg
    refine acking_of_same huna ?_ (inputAck_acklist _ seg)
    rw [heq, ikcpShrinkBuf_rcvSide, ikcpParseAck_rcvSide, hrcv]
  case isFalse =>
    split
    case isTrue hpush => exact acking_inputPush hlt huna (hseg hpush)
    case isFalse =>
      split
      · exact acking_of_same huna rfl rfl
      · exact huna

/-- A flush sends off the acknowledgements that wait. -/
theorem ikcpFlush_acklist {kcp kcp' : Ikcpcb} {sent : List (List UInt8)}
    (h : ikcpFlush kcp = some (kcp', sent)) : kcp' = kcp ∨ kcp'.acklist = [] := by
  rcases ikcpFlush_cases h with ⟨-, rfl, -⟩ |
    ⟨seg, acked, asked, told, wnd, resent, rtomin, st, sndBuf, cwnd, -, -, -, -, -, hsegs, -, rfl⟩
  · exact .inl rfl
  · refine .inr ?_
    have hprobe : ∀ k : Ikcpcb, (probeWindow k).acklist = k.acklist := by
      intro k
      simp only [probeWindow]
      split_ifs <;> simp only
    have hupdate : ∀ (k : Ikcpcb) (change : Nat) (lost : Bool),
        (updateWindow cwnd resent change lost k).acklist = k.acklist := by
      intro k change lost
      simp only [updateWindow]
      split_ifs <;> rfl
    rw [hupdate]
    exact moveQueue_keeps (fun k => k.acklist = []) _ _ (fun _ _ _ hk _ => hk) _ _ (hprobe _)

theorem ikcpSend_acklist (kcp : Ikcpcb) (buffer : List UInt8) :
    (ikcpSend kcp buffer).2.acklist = kcp.acklist := by
  have hrest : ∀ (k : Ikcpcb) (bytes : List UInt8),
      (sendFragments k bytes).2.acklist = k.acklist := by
    intro k bytes
    rcases sendFragments_cases k bytes with hmany | ⟨count, -, -, hsome⟩
    · rw [hmany]
    · rw [hsome]
  have hprevious : (appendToPrevious kcp buffer).1.acklist = kcp.acklist := by
    rcases appendToPrevious_cases kcp buffer with hnone | ⟨front, old, extend, -, -, hgrown⟩
    · rw [hnone]
    · rw [hgrown]
  unfold ikcpSend
  split
  · exact hrest kcp buffer
  · simp only
    split
    · exact hprevious
    · exact (hrest _ _).trans hprevious

theorem acking_recv (hlt : pieces.length < 2 ^ 31) {kcp kcp' : Ikcpcb} {len n : Int}
    {buffer : List UInt8} (h : Acking pieces Q kcp)
    (hrecv : ikcpRecv kcp len = some (n, buffer, kcp')) : Acking pieces Q kcp' := by
  rcases ikcpRecv_cases hrecv with ⟨-, -, -, rfl⟩ | ⟨-, -, -, -, -, -, probe, rfl⟩
  · exact h
  · -- taking a message changes neither `rcv_nxt` nor `rcv_buf`
    have hmerged : ∀ {q : Nat → Prop}, Keeping pieces q kcp.rcvSide →
        Keeping pieces q (mergeFragment kcp (len < 0)).rcvSide := by
      intro q hq
      unfold mergeFragment
      split
      · exact hq
      · exact ⟨⟨hq.near.buf, hq.near.next⟩, hq.received⟩
    have hmoved : ∀ {q : Nat → Prop}, Keeping pieces q kcp.rcvSide → Keeping pieces q
        (moveAvailable (mergeFragment kcp (len < 0))
          (mergeFragment kcp (len < 0)).rcvBuf).rcvSide :=
      fun hq => keeping_moveAvailable hlt _ _ (hmerged hq)
    have hacks : (mergeFragment kcp (len < 0)).acklist = kcp.acklist := by
      unfold mergeFragment
      split <;> rfl
    refine ⟨hmoved h.keeping, fun p hp => ?_⟩
    have hold : p ∈ kcp.acklist := hacks ▸ moveAvailable_acklist _ _ ▸ hp
    exact (h.acks p hold).mono hlt (hmoved (keeping_refl h.keeping.near))

/-- Every call of the receiving end keeps what has been received, and acknowledges nothing else. -/
theorem acking_call (hlt : pieces.length < 2 ^ 31) {conv : IUINT32} {kcp kcp' : Ikcpcb}
    {call : Call} (h : Acking pieces Q kcp)
    (hinput : ∀ data, call = .input data → Genuine conv pieces data)
    (hcall : kcp.call call = some kcp') : Acking pieces Q kcp' := by
  cases call with
  | recv len =>
      obtain ⟨⟨n, buffer, kcp₁⟩, hrecv, rfl⟩ := Option.map_eq_some_iff.mp hcall
      exact acking_recv hlt h hrecv
  | input data =>
      obtain rfl := Option.some.inj hcall
      obtain ⟨segs, rfl, hsegs⟩ := hinput data rfl
      refine ikcpInput_encoded (R := Acking pieces Q) (fun seg hseg => (hsegs seg hseg).2.1)
        (fun seg hseg => (hsegs seg hseg).1) (fun seg hseg => (hsegs seg hseg).2.2.1) ?_ ?_ ?_ h
      · intro seg hseg st hst
        obtain ⟨hcmd, -, -, hfrg, hhonest⟩ := hsegs seg hseg
        refine acking_inputSegment hlt hst fun hpush => ?_
        rw [wire_cmd hcmd] at hpush
        exact (hhonest hpush).wire hfrg
      · intro k sn hk
        refine acking_of_same hk (ikcpParseFastack_rcvSide k sn) ?_
        unfold ikcpParseFastack
        split <;> rfl
      · intro k hk
        refine acking_of_same hk (openWindow_rcvSide k) ?_
        simp only [openWindow]
        split_ifs <;> rfl
  | wndsize sndwnd rcvwnd =>
      obtain rfl := Option.some.inj hcall
      obtain ⟨rcvWnd, -, hside⟩ := ikcpWndsize_rcvSide kcp sndwnd rcvwnd
      have hacks : (ikcpWndsize kcp sndwnd rcvwnd).acklist = kcp.acklist := by
        simp only [ikcpWndsize]
        split_ifs <;> rfl
      refine ⟨?_, fun p hp => ?_⟩
      · rw [hside]
        exact ⟨⟨h.keeping.near.buf, h.keeping.near.next⟩, h.keeping.received⟩
      · rw [hside]
        exact h.acks p (hacks ▸ hp)
  | flush =>
      obtain ⟨⟨kcp₁, sent⟩, hflush, rfl⟩ := Option.map_eq_some_iff.mp hcall
      have hside := ikcpFlush_rcvSide hflush
      rcases ikcpFlush_acklist hflush with rfl | hnone
      · exact h
      · refine ⟨hside ▸ h.keeping, fun p hp => ?_⟩
        rw [hnone] at hp
        exact absurd hp List.not_mem_nil
  | update current =>
      obtain ⟨⟨kcp₁, sent⟩, hupdate, rfl⟩ := Option.map_eq_some_iff.mp hcall
      obtain ⟨updated, tsFlush, ⟨rfl, -⟩ | hflush⟩ := ikcpUpdate_cases hupdate
      · exact acking_of_same h rfl rfl
      · have hside := ikcpFlush_rcvSide hflush
        have hticked : Acking pieces Q { kcp with current, updated, tsFlush } :=
          acking_of_same h rfl rfl
        rcases ikcpFlush_acklist hflush with heq | hnone
        · rw [heq]
          exact hticked
        · refine ⟨hside ▸ hticked.keeping, fun p hp => ?_⟩
          rw [hnone] at hp
          exact absurd hp List.not_mem_nil
  | send buffer =>
      obtain rfl := Option.some.inj hcall
      exact acking_of_same h (ikcpSend_rcvSide kcp buffer) (ikcpSend_acklist kcp buffer)
  | setmtu mtu =>
      obtain rfl := Option.some.inj hcall
      refine acking_of_same h (ikcpSetmtu_rcvSide kcp mtu) ?_
      simp only [ikcpSetmtu]
      split <;> rfl
  | nodelay nodelay interval resend nc =>
      obtain rfl := Option.some.inj hcall
      refine acking_of_same h (ikcpNodelay_rcvSide kcp nodelay interval resend nc) ?_
      simp only [ikcpNodelay]
      split_ifs <;> rfl
  | setInterval interval =>
      obtain rfl := Option.some.inj hcall
      exact acking_of_same h rfl rfl
  | fields stream rxMinrto fastresend =>
      obtain rfl := Option.some.inj hcall
      exact acking_of_same h rfl rfl

end CppTrack.Kcp
