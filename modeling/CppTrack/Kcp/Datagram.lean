import CppTrack.Kcp.Sides
import CppTrack.Lib.Run

/-!
# The datagrams of KCP

`ikcp_flush` packs whole segments into datagrams, and `ikcp_input` takes a datagram apart again into
the same segments, but for what does not fit into its field of the header.
-/

namespace CppTrack.Kcp

open Lib

/-! ## Headers -/

/-- The `k` low bytes of a number. -/
def lowBytes (k : Nat) (n : IUINT32) : IUINT32 := BitVec.ofNat 32 (n.toNat % 256 ^ k)

theorem lowBytes_of_lt {k : Nat} {n : IUINT32} (h : n.toNat < 256 ^ k) : lowBytes k n = n := by
  rw [lowBytes, Nat.mod_eq_of_lt h, BitVec.ofNat_toNat, BitVec.setWidth_eq]

theorem lowBytes_four (n : IUINT32) : lowBytes 4 n = n := lowBytes_of_lt n.isLt

/-- A segment with its data, as it is written. -/
def encoded (seg : Ikcpseg) : List UInt8 := ikcpEncodeSeg seg ++ seg.data

/-- A segment as it arrives: the command and the fragment have one byte and the window two, and
the timers do not travel. -/
def wire (seg : Ikcpseg) : Ikcpseg where
  conv := seg.conv
  cmd := lowBytes 1 seg.cmd
  frg := lowBytes 1 seg.frg
  wnd := lowBytes 2 seg.wnd
  ts := seg.ts
  sn := seg.sn
  una := seg.una
  data := seg.data

theorem read_toLittleEndian (k : Nat) (n : IUINT32) (rest : List UInt8) :
    (BitVec.ofNat 32 (littleEndian ((toLittleEndian k n.toNat ++ rest).take k)) : IUINT32) =
      lowBytes k n ∧ (toLittleEndian k n.toNat ++ rest).drop k = rest := by
  have hlen := length_toLittleEndian k n.toNat
  rw [List.take_left' hlen, List.drop_left' hlen, littleEndian_toLittleEndian]
  exact ⟨rfl, rfl⟩

theorem ikcpDecode8u_encode (n : IUINT32) (rest : List UInt8) :
    ikcpDecode8u (ikcpEncode8u n ++ rest) = (lowBytes 1 n, rest) :=
  Prod.ext (read_toLittleEndian 1 n rest).1 (read_toLittleEndian 1 n rest).2

theorem ikcpDecode16u_encode (n : IUINT32) (rest : List UInt8) :
    ikcpDecode16u (ikcpEncode16u n ++ rest) = (lowBytes 2 n, rest) :=
  Prod.ext (read_toLittleEndian 2 n rest).1 (read_toLittleEndian 2 n rest).2

theorem ikcpDecode32u_encode (n : IUINT32) (rest : List UInt8) :
    ikcpDecode32u (ikcpEncode32u n ++ rest) = (n, rest) :=
  Prod.ext ((read_toLittleEndian 4 n rest).1.trans (lowBytes_four n))
    (read_toLittleEndian 4 n rest).2

/-- What `ikcp_encode_seg` wrote is read back. -/
theorem decodeHeader_encode (seg : Ikcpseg) (rest : List UInt8) :
    decodeHeader (ikcpEncodeSeg seg ++ rest) =
      ({ wire seg with data := [] }, BitVec.ofNat 32 seg.len, rest) := by
  simp only [ikcpEncodeSeg, List.append_assoc, decodeHeader, ikcpDecode32u_encode,
    ikcpDecode8u_encode, ikcpDecode16u_encode, wire]

theorem length_ikcpEncodeSeg (seg : Ikcpseg) : (ikcpEncodeSeg seg).length = ikcpOverhead := by
  simp [ikcpEncodeSeg, ikcpEncode32u, ikcpEncode8u, ikcpEncode16u, ikcpOverhead]

theorem length_encoded (seg : Ikcpseg) : (encoded seg).length = ikcpOverhead + seg.len := by
  rw [encoded, List.length_append, length_ikcpEncodeSeg]
  rfl

/-! ## Taking a datagram apart -/

/-- One of the four commands. -/
def Ikcpseg.IsCmd (seg : Ikcpseg) : Prop :=
  seg.cmd = ikcpCmdPush ∨ seg.cmd = ikcpCmdAck ∨ seg.cmd = ikcpCmdWask ∨ seg.cmd = ikcpCmdWins

theorem wire_cmd {seg : Ikcpseg} (h : seg.IsCmd) : (wire seg).cmd = seg.cmd := by
  refine lowBytes_of_lt ?_
  rcases h with h | h | h | h <;> rw [h] <;> decide

/-- Segments that follow each other are worked off one after the other. -/
theorem inputLoop_encoded {segs : List Ikcpseg} {st : InputState} {fuel : Nat}
    (hfuel : segs.length ≤ fuel) (hconv : ∀ seg ∈ segs, seg.conv = st.kcp.conv)
    (hcmd : ∀ seg ∈ segs, seg.IsCmd) (hlen : ∀ seg ∈ segs, seg.len < 2 ^ 31) :
    inputLoop fuel (segs.flatMap encoded) st =
      .ok (segs.foldl (fun st seg => inputSegment st (wire seg)) st) := by
  induction segs generalizing st fuel with
  | nil =>
      cases fuel with
      | zero => rfl
      | succ fuel => rfl
  | cons seg segs ih =>
      obtain ⟨fuel, rfl⟩ : ∃ n, fuel = n + 1 := ⟨fuel - 1, by rw [List.length_cons] at hfuel; omega⟩
      have hseg := hconv seg List.mem_cons_self
      have hsize := hlen seg List.mem_cons_self
      have hbytes : (seg :: segs).flatMap encoded =
          ikcpEncodeSeg seg ++ (seg.data ++ segs.flatMap encoded) := by
        rw [List.flatMap_cons, encoded, List.append_assoc]
      have hnat : (BitVec.ofNat 32 seg.len).toNat = seg.len := by
        rw [BitVec.toNat_ofNat, Nat.mod_eq_of_lt (by omega)]
      have hint : ¬ (BitVec.ofNat 32 seg.len).toInt < 0 := by
        rw [BitVec.toInt_eq_toNat_of_lt (by omega)]
        omega
      have htake : (seg.data ++ segs.flatMap encoded).take seg.len = seg.data := List.take_left' rfl
      have hdrop : (seg.data ++ segs.flatMap encoded).drop seg.len = segs.flatMap encoded :=
        List.drop_left' rfl
      have hsame : ¬ (wire seg).conv ≠ st.kcp.conv := not_not_intro hseg
      have hfits : ¬ ((seg.data ++ segs.flatMap encoded).length < seg.len ∨
          (BitVec.ofNat 32 seg.len).toInt < 0) := by
        intro h
        rcases h with h | h
        · rw [List.length_append] at h
          exact absurd h (by unfold Ikcpseg.len; omega)
        · exact hint h
      have hknown : ¬ ((wire seg).cmd ≠ ikcpCmdPush ∧ (wire seg).cmd ≠ ikcpCmdAck ∧
          (wire seg).cmd ≠ ikcpCmdWask ∧ (wire seg).cmd ≠ ikcpCmdWins) := by
        rw [wire_cmd (hcmd seg List.mem_cons_self)]
        intro h
        obtain ⟨hpush, hack, hwask, hwins⟩ := h
        rcases hcmd seg List.mem_cons_self with h | h | h | h
        · exact hpush h
        · exact hack h
        · exact hwask h
        · exact hwins h
      rw [hbytes, inputLoop, if_neg (by rw [List.length_append, length_ikcpEncodeSeg]; omega),
        decodeHeader_encode]
      simp only [hnat]
      rw [if_neg hsame, if_neg hfits, if_neg hknown, htake, hdrop, List.foldl_cons]
      refine ih (by rw [List.length_cons] at hfuel; omega) ?_ ?_ ?_
      · intro s hs
        have hconv' : (inputSegment st (wire seg)).kcp.conv = st.kcp.conv :=
          congrArg Prod.fst (inputSegment_settings st (wire seg))
        exact (hconv s (List.mem_cons_of_mem seg hs)).trans hconv'.symm
      · intro s hs
        exact hcmd s (List.mem_cons_of_mem seg hs)
      · intro s hs
        exact hlen s (List.mem_cons_of_mem seg hs)

/-! ## Packing segments -/

/-- The segments that a flush sends: acknowledgements, probes, and what is in `snd_buf`. -/
structure Emitted (kcp : Ikcpcb) (seg : Ikcpseg) : Prop where
  wnd : seg.wnd = ikcpWndUnused kcp
  una : seg.una = kcp.rcvNxt
  kind : (seg.conv = kcp.conv ∧ seg.frg = 0 ∧ seg.data = [] ∧
      (seg.cmd = ikcpCmdAck ∧ (seg.sn, seg.ts) ∈ kcp.acklist ∨
        seg.cmd = ikcpCmdWask ∨ seg.cmd = ikcpCmdWins)) ∨
    ∃ s ∈ (queued kcp).sndBuf, seg.core = s.core

variable {P : Outbox → Prop} {mtu : Nat}

theorem flushAcks_keeps {acklist : List (IUINT32 × IUINT32)} {seg seg' : Ikcpseg} {o o' : Outbox}
    (hput : ∀ p ∈ acklist, ∀ o o' : Outbox, P o →
      o.put mtu (ikcpEncodeSeg { seg with sn := p.1, ts := p.2 }) = some o' → P o')
    (ho : P o) (h : flushAcks mtu acklist seg o = some (seg', o')) :
    P o' ∧ ∃ sn ts, seg' = { seg with sn, ts } := by
  induction acklist generalizing seg o with
  | nil =>
      obtain ⟨rfl, rfl⟩ := Prod.mk.inj (Option.some.inj h)
      exact ⟨ho, seg.sn, seg.ts, rfl⟩
  | cons p acklist ih =>
      obtain ⟨sn, ts⟩ := p
      rw [flushAcks] at h
      obtain ⟨o₁, hfirst, hrest⟩ := Option.bind_eq_some_iff.mp h
      have ho₁ := hput (sn, ts) List.mem_cons_self o o₁ ho hfirst
      obtain ⟨ho', sn', ts', rfl⟩ := @ih { seg with sn, ts } o₁
        (fun p hp => hput p (List.mem_cons_of_mem _ hp)) ho₁ hrest
      exact ⟨ho', sn', ts', rfl⟩

theorem flushProbe_keeps {asked : Prop} [Decidable asked] {cmd : IUINT32} {seg : Ikcpseg}
    {o o' : Outbox} (hput : o.put mtu (ikcpEncodeSeg { seg with cmd }) = some o' → P o') (ho : P o)
    (h : flushProbe mtu asked cmd seg o = some o') : P o' := by
  unfold flushProbe at h
  split at h
  case isTrue => exact hput h
  case isFalse =>
    obtain rfl := Option.some.inj h
    exact ho

theorem flushSegments_keeps {kcp : Ikcpcb} {wnd resent rtomin : IUINT32} {st st' : FlushState}
    {segs segs' : List Ikcpseg}
    (hput : ∀ s ∈ segs, ∀ seg : Ikcpseg, seg.core = s.core → seg.wnd = wnd → seg.una = kcp.rcvNxt →
      ∀ o o' : Outbox, P o → o.put kcp.mtu.toNat (encoded seg) = some o' → P o') (ho : P st.out)
    (h : flushSegments kcp wnd resent rtomin st segs = some (st', segs')) : P st'.out := by
  induction segs generalizing st st' segs' with
  | nil =>
      obtain ⟨rfl, -⟩ := Prod.mk.inj (Option.some.inj h)
      exact ho
  | cons segment segs ih =>
      rw [flushSegments] at h
      obtain ⟨⟨st₁, segment₁⟩, hsegment, h⟩ := Option.bind_eq_some_iff.mp h
      obtain ⟨⟨st₂, segs₂⟩, hsegs, h⟩ := Option.bind_eq_some_iff.mp h
      obtain ⟨rfl, -⟩ := Prod.mk.inj (Option.some.inj h)
      refine ih (fun s hs => hput s (List.mem_cons_of_mem segment hs)) ?_ hsegs
      rw [flushSegment] at hsegment
      split at hsegment
      case isTrue =>
        obtain ⟨rfl, -⟩ := Prod.mk.inj (Option.some.inj hsegment)
        exact ho
      case isFalse =>
        obtain ⟨out, hout, hsegment⟩ := Option.bind_eq_some_iff.mp hsegment
        obtain ⟨rfl, -⟩ := Prod.mk.inj (Option.some.inj hsegment)
        refine hput segment List.mem_cons_self
          { marked kcp rtomin segment (due kcp resent segment) with
            ts := kcp.current, wnd, una := kcp.rcvNxt } ?_ rfl rfl st.out out ho hout
        exact marked_core kcp rtomin segment (due kcp resent segment)

/-- What every segment that is written keeps, a flush keeps. -/
theorem ikcpFlush_keeps {kcp kcp' : Ikcpcb} {sent : List (List UInt8)} (hempty : P ⟨[], []⟩)
    (hput : ∀ seg o o', Emitted kcp seg → P o → o.put kcp.mtu.toNat (encoded seg) = some o' → P o')
    (h : ikcpFlush kcp = some (kcp', sent)) : ∃ o, P o ∧ sent = o.output.sent := by
  rcases ikcpFlush_cases h with ⟨-, -, rfl⟩ |
    ⟨seg, acked, asked, told, wnd, resent, rtomin, st, sndBuf, cwnd, rfl, -, hacks, hask,
      htell, hsegs,
      rfl, -⟩
  · exact ⟨⟨[], []⟩, hempty, rfl⟩
  · have hheader : ∀ s : Ikcpseg, s.data = [] → ikcpEncodeSeg s = encoded s := by
      intro s hs
      rw [encoded, hs, List.append_nil]
    have hmtu : (queued kcp).mtu = kcp.mtu := congrArg (fun t => t.2.1) (queued_settings kcp)
    have hrcv : (queued kcp).rcvNxt = kcp.rcvNxt := congrArg RcvSide.rcvNxt (queued_rcvSide kcp)
    obtain ⟨hacked, sn, ts, rfl⟩ := flushAcks_keeps (P := P) (fun p hp o o' ho hp' =>
      hput { conv := kcp.conv, cmd := ikcpCmdAck, wnd := ikcpWndUnused kcp, una := kcp.rcvNxt,
             sn := p.1, ts := p.2 } o o'
        ⟨rfl, rfl, .inl ⟨rfl, rfl, rfl, .inl ⟨rfl, hp⟩⟩⟩ ho (by rw [← hheader _ rfl]; exact hp'))
      hempty hacks
    have hasked : P asked := flushProbe_keeps (fun hp' =>
      hput { conv := kcp.conv, cmd := ikcpCmdWask, wnd := ikcpWndUnused kcp,
             una := kcp.rcvNxt, sn, ts }
        acked asked ⟨rfl, rfl, .inl ⟨rfl, rfl, rfl, .inr (.inl rfl)⟩⟩ hacked
        (by rw [← hheader _ rfl]; exact hp')) hacked hask
    have htold : P told := flushProbe_keeps (fun hp' =>
      hput { conv := kcp.conv, cmd := ikcpCmdWins, wnd := ikcpWndUnused kcp,
             una := kcp.rcvNxt, sn, ts }
        asked told ⟨rfl, rfl, .inl ⟨rfl, rfl, rfl, .inr (.inr rfl)⟩⟩ hasked
        (by rw [← hheader _ rfl]; exact hp')) hasked htell
    refine ⟨st.out, flushSegments_keeps ?_ htold hsegs, rfl⟩
    intro s hs seg hcore hwnd huna o o' ho hp'
    rw [hmtu] at hp'
    exact hput seg o o' ⟨hwnd, huna.trans hrcv, .inr ⟨s, hs, hcore⟩⟩ ho hp'

/-- What has been written consists of whole segments. -/
structure Packed (Q : Ikcpseg → Prop) (o : Outbox) : Prop where
  buffer : ∃ segs : List Ikcpseg, o.buffer = segs.flatMap encoded ∧ ∀ seg ∈ segs, Q seg
  sent : ∀ d ∈ o.sent,
    ∃ segs : List Ikcpseg, segs ≠ [] ∧ d = segs.flatMap encoded ∧ ∀ seg ∈ segs, Q seg

variable {Q : Ikcpseg → Prop} {o o' : Outbox}

theorem Packed.output (h : Packed Q o) : Packed Q o.output := by
  obtain ⟨segs, hsegs, hQ⟩ := h.buffer
  unfold Outbox.output
  split
  case isTrue => exact h
  case isFalse hne =>
    refine ⟨⟨[], rfl, by simp⟩, fun d hd => ?_⟩
    rcases List.mem_append.mp hd with hd | hd
    · exact h.sent d hd
    · refine ⟨segs, ?_, (List.mem_singleton.mp hd).trans hsegs, hQ⟩
      intro hnil
      rw [hsegs, hnil] at hne
      exact hne rfl

/-- Bytes are put behind those before them, or are the first ones of the next datagram. -/
theorem Outbox.put_cases {bytes : List UInt8} (h : o.put mtu bytes = some o') :
    ∃ r : Outbox, (r = o ∧ o.buffer.length + bytes.length ≤ mtu ∨ r = o.output) ∧
      o' = { r with buffer := r.buffer ++ bytes } := by
  unfold Outbox.put at h
  extract_lets r at h
  split at h
  case isTrue =>
    obtain rfl := Option.some.inj h
    refine ⟨r, ?_, rfl⟩
    by_cases hfull : o.buffer.length + bytes.length > mtu
    · exact .inr (if_pos hfull)
    · exact .inl ⟨if_neg hfull, by omega⟩
  case isFalse => exact absurd h.symm (Option.some_ne_none o')

theorem Packed.put {seg : Ikcpseg} (h : Packed Q o) (hseg : Q seg)
    (hput : o.put mtu (encoded seg) = some o') : Packed Q o' := by
  obtain ⟨r, hr, rfl⟩ := Outbox.put_cases hput
  have hpacked : Packed Q r := by
    rcases hr with ⟨rfl, -⟩ | rfl
    · exact h
    · exact h.output
  obtain ⟨segs, hsegs, hQ⟩ := hpacked.buffer
  refine ⟨⟨segs ++ [seg], ?_, fun s hs => ?_⟩, hpacked.sent⟩
  · simp only
    rw [hsegs, List.flatMap_append, List.flatMap_cons, List.flatMap_nil, List.append_nil]
  · rcases List.mem_append.mp hs with hs | hs
    · exact hQ s hs
    · rw [List.mem_singleton.mp hs]
      exact hseg

/-- Every datagram consists of segments that the flush sends. -/
theorem ikcpFlush_emits {kcp kcp' : Ikcpcb} {sent : List (List UInt8)}
    (h : ikcpFlush kcp = some (kcp', sent)) {d : List UInt8} (hd : d ∈ sent) :
    ∃ segs, segs ≠ [] ∧ d = segs.flatMap encoded ∧ ∀ seg ∈ segs, Emitted kcp seg := by
  obtain ⟨o, ho, rfl⟩ := ikcpFlush_keeps (P := Packed (Emitted kcp))
    ⟨⟨[], rfl, by simp⟩, by simp⟩ (fun seg o o' hseg hpacked hput => hpacked.put hseg hput) h
  exact ho.output.sent d hd

/-! ## The room in `kcp->buffer` -/

theorem Outbox.output_buffer (o : Outbox) : o.output.buffer = [] := by
  unfold Outbox.output
  split
  case isTrue h => exact List.length_eq_zero_iff.mp h
  case isFalse => rfl

/-- The size of the buffer does not wrap. -/
def Roomy (mtu : Nat) : Prop := (mtu + ikcpOverhead) * 3 < 2 ^ 32

instance (mtu : Nat) : Decidable (Roomy mtu) := inferInstanceAs (Decidable (_ < _))

theorem Roomy.bufferSize_eq (h : Roomy mtu) : bufferSize mtu = (mtu + ikcpOverhead) * 3 :=
  Nat.mod_eq_of_lt h

/-- Bytes are written past the end only if there are too many for an empty buffer. -/
theorem Outbox.put_eq_none_iff (hroomy : Roomy mtu) (o : Outbox) (bytes : List UInt8) :
    o.put mtu bytes = none ↔ bufferSize mtu < bytes.length := by
  have hsize := hroomy.bufferSize_eq
  have hempty : o.output.buffer.length = 0 := by rw [Outbox.output_buffer, List.length_nil]
  unfold Outbox.put
  extract_lets r
  have hr : r.buffer.length + bytes.length ≤ mtu ∨ r.buffer.length = 0 := by
    by_cases hfull : o.buffer.length + bytes.length > mtu
    · have heq : r = o.output := if_pos hfull
      exact .inr (heq ▸ hempty)
    · have heq : r = o := if_neg hfull
      exact .inl (heq ▸ Nat.not_lt.mp hfull)
  split
  case isTrue hle =>
    refine iff_of_false (Option.some_ne_none _) ?_
    omega
  case isFalse hgt =>
    refine iff_of_true rfl ?_
    omega

/-- A header alone does fit. -/
theorem Outbox.put_header (hroomy : Roomy mtu) (o : Outbox) (seg : Ikcpseg) :
    o.put mtu (ikcpEncodeSeg seg) ≠ none := by
  have hsize := hroomy.bufferSize_eq
  rw [Ne, Outbox.put_eq_none_iff hroomy, length_ikcpEncodeSeg]
  omega

theorem flushAcks_isSome (hroomy : Roomy mtu) (acklist : List (IUINT32 × IUINT32)) (seg : Ikcpseg)
    (o : Outbox) : ∃ r, flushAcks mtu acklist seg o = some r := by
  induction acklist generalizing seg o with
  | nil => exact ⟨_, rfl⟩
  | cons p acklist ih =>
      rw [flushAcks]
      cases hput : o.put mtu (ikcpEncodeSeg { seg with sn := p.1, ts := p.2 }) with
      | none => exact absurd hput (Outbox.put_header hroomy o _)
      | some o₁ => exact ih _ o₁

theorem flushProbe_isSome (hroomy : Roomy mtu) (asked : Prop) [Decidable asked] (cmd : IUINT32)
    (seg : Ikcpseg) (o : Outbox) : ∃ r, flushProbe mtu asked cmd seg o = some r := by
  unfold flushProbe
  split
  case isTrue =>
    cases hput : o.put mtu (ikcpEncodeSeg { seg with cmd }) with
    | none => exact absurd hput (Outbox.put_header hroomy o _)
    | some o₁ => exact ⟨o₁, rfl⟩
  case isFalse => exact ⟨o, rfl⟩

/-- A segment that is due and longer than `kcp->buffer`. -/
def TooLong (kcp : Ikcpcb) (resent : IUINT32) (segment : Ikcpseg) : Prop :=
  due kcp resent segment ≠ .no ∧ bufferSize kcp.mtu.toNat < ikcpOverhead + segment.len

theorem flushSegment_eq_none_iff {kcp : Ikcpcb} (hroomy : Roomy kcp.mtu.toNat)
    (wnd resent rtomin : IUINT32) (st : FlushState) (segment : Ikcpseg) :
    flushSegment kcp wnd resent rtomin st segment = none ↔ TooLong kcp resent segment := by
  have hdata : (marked kcp rtomin segment (due kcp resent segment)).data = segment.data :=
    (congrArg Ikcpseg.data (marked_core kcp rtomin segment (due kcp resent segment)) :)
  have hput := Outbox.put_eq_none_iff hroomy st.out (encoded { marked kcp rtomin segment
    (due kcp resent segment) with ts := kcp.current, wnd, una := kcp.rcvNxt })
  have hlen : (encoded { marked kcp rtomin segment (due kcp resent segment) with
      ts := kcp.current, wnd, una := kcp.rcvNxt }).length = ikcpOverhead + segment.len :=
    (length_encoded _).trans (congrArg (ikcpOverhead + List.length ·) hdata)
  rw [hlen] at hput
  rw [flushSegment]
  split
  case isTrue hno => exact iff_of_false (Option.some_ne_none _) fun h => h.1 hno
  case isFalse hdue =>
    constructor
    · intro hnone
      refine ⟨hdue, hput.mp ?_⟩
      cases hout : st.out.put kcp.mtu.toNat (encoded { marked kcp rtomin segment
          (due kcp resent segment) with ts := kcp.current, wnd, una := kcp.rcvNxt }) with
      | none => rfl
      | some out =>
          have hrest := Option.bind_eq_none_iff.mp hnone out hout
          exact absurd hrest (Option.some_ne_none _)
    · intro hlong
      have hout := hput.mpr hlong.2
      refine Option.bind_eq_none_iff.mpr fun out hsome => ?_
      exact absurd (hout.symm.trans hsome).symm (Option.some_ne_none out)

/-- A turn of the loop does not change which segments are due later. -/
theorem flushSegments_eq_none_iff {kcp : Ikcpcb} (hroomy : Roomy kcp.mtu.toNat)
    (wnd resent rtomin : IUINT32) (st : FlushState) (segs : List Ikcpseg) :
    flushSegments kcp wnd resent rtomin st segs = none ↔
      ∃ segment ∈ segs, TooLong kcp resent segment := by
  induction segs generalizing st with
  | nil => exact iff_of_false (Option.some_ne_none _) (by simp)
  | cons segment segs ih =>
      rw [flushSegments, List.exists_mem_cons_iff]
      have hfirst := flushSegment_eq_none_iff hroomy wnd resent rtomin st segment
      cases hsegment : flushSegment kcp wnd resent rtomin st segment with
      | none => exact iff_of_true rfl (.inl (hfirst.mp hsegment))
      | some r =>
          have hno : ¬ TooLong kcp resent segment := by
            rw [← hfirst, hsegment]
            exact Option.some_ne_none r
          have hrest := ih r.1
          rw [or_iff_right hno, ← hrest]
          cases hsegs : flushSegments kcp wnd resent rtomin r.1 segs with
          | none => exact iff_of_true (by simp [hsegs]) rfl
          | some q => exact iff_of_false (by simp [hsegs]) (Option.some_ne_none q)

/-- Unless the size of `kcp->buffer` wraps, `ikcp_flush` writes past its end exactly if a segment
that is due is longer than it, as it may be after `ikcp_setmtu` has made it smaller. -/
theorem flush_eq_none_iff {kcp : Ikcpcb} (hroomy : Roomy kcp.mtu.toNat) : ikcpFlush kcp = none ↔
    kcp.updated ≠ 0 ∧ ∃ segment ∈ (queued kcp).sndBuf,
      TooLong (queued kcp) (resentLimit (queued kcp)) segment := by
  have hmtu : (queued kcp).mtu = kcp.mtu := congrArg (fun t => t.2.1) (queued_settings kcp)
  have hqueued : Roomy (queued kcp).mtu.toNat := hmtu.symm ▸ hroomy
  rw [ikcpFlush]
  split
  case isTrue hzero => exact iff_of_false (Option.some_ne_none _) fun h => h.1 hzero
  case isFalse hupdated =>
    obtain ⟨⟨seg, acked⟩, hacks⟩ := flushAcks_isSome hroomy kcp.acklist
      { conv := kcp.conv, cmd := ikcpCmdAck, wnd := ikcpWndUnused kcp, una := kcp.rcvNxt } ⟨[], []⟩
    obtain ⟨asked, hask⟩ := flushProbe_isSome hroomy
      ((probeWindow { kcp with acklist := [] }).probe &&& ikcpAskSend ≠ 0) ikcpCmdWask seg acked
    obtain ⟨told, htell⟩ := flushProbe_isSome hroomy
      ((probeWindow { kcp with acklist := [] }).probe &&& ikcpAskTell ≠ 0) ikcpCmdWins seg asked
    have hiff := flushSegments_eq_none_iff hqueued (ikcpWndUnused kcp) (resentLimit (queued kcp))
      (if (queued kcp).nodelay = 0 then (queued kcp).rxRto >>> 3 else 0)
      ⟨told, (queued kcp).xmit, (queued kcp).state, 0, false⟩ (queued kcp).sndBuf
    rw [and_iff_right hupdated, ← hiff]
    constructor
    · intro hnone
      have hrest := Option.bind_eq_none_iff.mp (Option.bind_eq_none_iff.mp
        (Option.bind_eq_none_iff.mp hnone _ hacks) _ hask) _ htell
      cases hsegs : flushSegments (queued kcp) (ikcpWndUnused kcp) (resentLimit (queued kcp))
          (if (queued kcp).nodelay = 0 then (queued kcp).rxRto >>> 3 else 0)
          ⟨told, (queued kcp).xmit, (queued kcp).state, 0, false⟩ (queued kcp).sndBuf with
      | none => rfl
      | some r =>
          have hlast := Option.bind_eq_none_iff.mp hrest r hsegs
          exact absurd hlast (Option.some_ne_none _)
    · intro hsegs
      refine Option.bind_eq_none_iff.mpr fun r hr => ?_
      obtain rfl := Option.some.inj (hacks.symm.trans hr)
      refine Option.bind_eq_none_iff.mpr fun r hr => ?_
      obtain rfl := Option.some.inj (hask.symm.trans hr)
      refine Option.bind_eq_none_iff.mpr fun r hr => ?_
      obtain rfl := Option.some.inj (htell.symm.trans hr)
      refine Option.bind_eq_none_iff.mpr fun r hr => ?_
      exact absurd (hsegs.symm.trans hr).symm (Option.some_ne_none r)

/-- `ikcp_flush` writes past the end of `kcp->buffer` exactly if a segment that is due is longer
than it, as it may be after `ikcp_setmtu` has made it smaller. That is where the size of the buffer
does not wrap; where it does, the buffer is smaller than it is meant to be. -/
theorem ikcpFlush_eq_none_iff (kcp : Ikcpcb)
    (hroomy : (kcp.mtu.toNat + ikcpOverhead) * 3 < 2 ^ 32) :
    ikcpFlush kcp = none ↔ kcp.updated ≠ 0 ∧ ∃ segment ∈ (queued kcp).sndBuf,
      TooLong (queued kcp) (resentLimit (queued kcp)) segment :=
  flush_eq_none_iff hroomy

theorem ikcpFlush_eq_none_iff_new : ikcpFlush (ikcpCreate 7) = none ↔
    (ikcpCreate 7).updated ≠ 0 ∧ ∃ segment ∈ (queued (ikcpCreate 7)).sndBuf,
      TooLong (queued (ikcpCreate 7)) (resentLimit (queued (ikcpCreate 7))) segment :=
  ikcpFlush_eq_none_iff (ikcpCreate 7) (by decide)

/-- Nothing that has been written is longer than the `mtu`. -/
structure Small (mtu : Nat) (o : Outbox) : Prop where
  buffer : o.buffer.length ≤ mtu
  sent : ∀ d ∈ o.sent, d.length ≤ mtu

theorem Small.output (h : Small mtu o) : Small mtu o.output := by
  unfold Outbox.output
  split
  case isTrue => exact h
  case isFalse =>
    refine ⟨Nat.zero_le mtu, fun d hd => ?_⟩
    rcases List.mem_append.mp hd with hd | hd
    · exact h.sent d hd
    · rw [List.mem_singleton.mp hd]
      exact h.buffer

theorem Small.put {bytes : List UInt8} (h : Small mtu o) (hbytes : bytes.length ≤ mtu)
    (hput : o.put mtu bytes = some o') : Small mtu o' := by
  obtain ⟨r, hr, rfl⟩ := Outbox.put_cases hput
  rcases hr with ⟨rfl, hfits⟩ | rfl
  · exact ⟨by rw [List.length_append]; exact hfits, h.sent⟩
  · refine ⟨?_, h.output.sent⟩
    rw [Outbox.output_buffer, List.nil_append]
    exact hbytes

/-! ## Whole runs -/

/-- The segments that wait fit into a header's fields and have the header of data. -/
structure Built (kcp : Ikcpcb) : Prop where
  mtu : kcp.mss.toNat + ikcpOverhead = kcp.mtu.toNat
  room : ikcpOverhead < kcp.mtu.toNat ∧ kcp.mtu.toNat < 2 ^ 31
  queue : ∀ s ∈ kcp.sndQueue, s.len < 2 ^ 31 ∧ s.frg.toNat < ikcpWndRcv.toNat
  buf : ∀ s ∈ kcp.sndBuf, s.len < 2 ^ 31 ∧ s.frg.toNat < ikcpWndRcv.toNat ∧
    s.cmd = ikcpCmdPush ∧ s.conv = kcp.conv

theorem built_follows {kcp kcp' : Ikcpcb} (h : Built kcp) (hfollows : Follows kcp kcp')
    (hconv : kcp'.conv = kcp.conv) (hmtu : kcp'.mss.toNat + ikcpOverhead = kcp'.mtu.toNat)
    (hroom : ikcpOverhead < kcp'.mtu.toNat ∧ kcp'.mtu.toNat < 2 ^ 31) : Built kcp' := by
  have hmss : kcp.mss.toNat < 2 ^ 31 := by
    have hsum := h.mtu
    have hlt := h.room.2
    omega
  refine ⟨hmtu, hroom, fun s' hs' => ?_, fun s' hs' => ?_⟩
  · rcases hfollows.queue s' hs' with hold | ⟨hlen, hfrg⟩
    · exact h.queue s' hold
    · exact ⟨hlen.trans_lt hmss, hfrg⟩
  · rcases hfollows.buf s' hs' with ⟨s, hs, hcore⟩ | ⟨hcmd, hconv', s, hs, hpiece⟩
    · obtain ⟨hlen, hfrg, hcmd, hsame⟩ := h.buf s hs
      have hdata : s'.data = s.data := (congrArg Ikcpseg.data hcore :)
      have hfrg' : s'.frg = s.frg := (congrArg Ikcpseg.frg hcore :)
      have hcmd' : s'.cmd = s.cmd := (congrArg Ikcpseg.cmd hcore :)
      have hconv' : s'.conv = s.conv := (congrArg Ikcpseg.conv hcore :)
      rw [Ikcpseg.len, hdata, hfrg', hcmd', hconv', hconv]
      exact ⟨hlen, hfrg, hcmd, hsame⟩
    · obtain ⟨hlen, hfrg⟩ := h.queue s hs
      obtain ⟨hfrg', hdata⟩ := Prod.mk.inj hpiece
      rw [Ikcpseg.len, hdata, hfrg', hconv', hconv]
      exact ⟨hlen, hfrg, hcmd, rfl⟩

theorem toNat_sub_overhead {m : IUINT32} (h : ikcpOverhead ≤ m.toNat) :
    (m - BitVec.ofNat 32 ikcpOverhead).toNat + ikcpOverhead = m.toNat := by
  have hover : (BitVec.ofNat 32 ikcpOverhead).toNat = ikcpOverhead := by decide
  rw [BitVec.toNat_sub_of_le (by rw [BitVec.le_def, hover]; exact h), hover]
  exact Nat.sub_add_cancel h

theorem built_call {kcp kcp' : Ikcpcb} {call : Call} (h : Built kcp)
    (hcall : kcp.call call = some kcp') : Built kcp' := by
  have hconv := call_conv hcall
  rcases call_mtu hcall with ⟨hmtu, hmss⟩ | ⟨mtu, -, hbig, hmtu, hmss⟩
  · refine built_follows h (follows_call hcall) hconv ?_ ?_
    · rw [hmtu, hmss]
      exact h.mtu
    · rw [hmtu]
      exact h.room
  · have hlt := mtu.2.2
    have hover : ikcpOverhead = 24 := rfl
    refine built_follows h (follows_call hcall) hconv ?_ ⟨by omega, by omega⟩
    rw [hmss]
    exact toNat_sub_overhead (by omega)

theorem built_create (conv : IUINT32) : Built (ikcpCreate conv) := by
  have hmtu : (ikcpMtuDef - BitVec.ofNat 32 ikcpOverhead).toNat + ikcpOverhead =
      ikcpMtuDef.toNat := by decide
  have hroom : ikcpOverhead < ikcpMtuDef.toNat ∧ ikcpMtuDef.toNat < 2 ^ 31 := by decide
  refine ⟨hmtu, hroom, fun s hs => ?_, fun s hs => ?_⟩
  · exact absurd hs List.not_mem_nil
  · exact absurd hs List.not_mem_nil

theorem built_of_run {conv : IUINT32} {calls : List Call} {kcp : Ikcpcb}
    (hrun : run Ikcpcb.call (ikcpCreate conv) calls = some kcp) : Built kcp ∧ kcp.conv = conv := by
  refine @run_keeps _ _ _ (fun k : Ikcpcb => Built k ∧ k.conv = conv) ?_ calls _ _
    ⟨built_create conv, rfl⟩ hrun
  intro k call k' hk hcall
  exact ⟨built_call hk.1 hcall, (call_conv hcall).trans hk.2⟩

theorem built_queued {kcp : Ikcpcb} (h : Built kcp) : Built (queued kcp) := by
  have hsettings := queued_settings kcp
  simp only [Ikcpcb.settings, Prod.mk.injEq] at hsettings
  obtain ⟨hconv, hmtu, hmss, -⟩ := hsettings
  refine built_follows h (follows_queued kcp) hconv ?_ ?_
  · rw [hmtu, hmss]
    exact h.mtu
  · rw [hmtu]
    exact h.room

/-- What a flush sends has a known command, and its fields but the window fit into the header. -/
theorem emitted_built {kcp : Ikcpcb} (h : Built kcp) {seg : Ikcpseg} (hseg : Emitted kcp seg) :
    seg.IsCmd ∧ seg.conv = kcp.conv ∧ seg.len < 2 ^ 31 ∧ seg.frg.toNat < ikcpWndRcv.toNat := by
  have hconv : (queued kcp).conv = kcp.conv := congrArg Prod.fst (queued_settings kcp)
  rcases hseg.kind with ⟨hsame, hfrg, hdata, hcmd⟩ | ⟨s, hs, hcore⟩
  · have hlen : seg.len = 0 := by rw [Ikcpseg.len, hdata, List.length_nil]
    refine ⟨?_, hsame, by omega, by rw [hfrg]; decide⟩
    rcases hcmd with ⟨hack, -⟩ | hwask | hwins
    · exact .inr (.inl hack)
    · exact .inr (.inr (.inl hwask))
    · exact .inr (.inr (.inr hwins))
  · obtain ⟨hlen, hfrg, hcmd, hsame⟩ := (built_queued h).buf s hs
    have hdata : seg.data = s.data := (congrArg Ikcpseg.data hcore :)
    have hfrg' : seg.frg = s.frg := (congrArg Ikcpseg.frg hcore :)
    have hcmd' : seg.cmd = s.cmd := (congrArg Ikcpseg.cmd hcore :)
    have hconv' : seg.conv = s.conv := (congrArg Ikcpseg.conv hcore :)
    rw [Ikcpseg.len, hdata, hfrg', hconv', Ikcpseg.IsCmd, hcmd']
    exact ⟨.inl hcmd, hsame.trans hconv, hlen, hfrg⟩

theorem length_flatMap_encoded (segs : List Ikcpseg) :
    segs.length ≤ (segs.flatMap encoded).length := by
  induction segs with
  | nil => exact Nat.zero_le _
  | cons seg segs ih =>
      have hover : ikcpOverhead = 24 := rfl
      rw [List.flatMap_cons, List.length_append, List.length_cons, length_encoded]
      omega

/-- An end with another conversation takes nothing from a datagram. -/
theorem ikcpInput_foreign {kcp : Ikcpcb} {seg : Ikcpseg} (h : seg.conv ≠ kcp.conv)
    (rest : List UInt8) : ikcpInput kcp (encoded seg ++ rest) = (-1, kcp) := by
  have hbytes : encoded seg ++ rest = ikcpEncodeSeg seg ++ (seg.data ++ rest) := by
    rw [encoded, List.append_assoc]
  have hover : ikcpOverhead = 24 := rfl
  obtain ⟨fuel, hfuel⟩ : ∃ n, (encoded seg ++ rest).length = n + 1 := by
    refine ⟨(encoded seg ++ rest).length - 1, ?_⟩
    rw [List.length_append, length_encoded]
    omega
  have hloop : inputLoop (encoded seg ++ rest).length (encoded seg ++ rest) ⟨kcp, false, 0⟩ =
      .error (-1, kcp) := by
    rw [hfuel, hbytes, inputLoop, if_neg (by rw [List.length_append, length_ikcpEncodeSeg]; omega),
      decodeHeader_encode]
    exact if_pos h
  rw [ikcpInput, if_neg (by rw [List.length_append, length_encoded]; omega), hloop]

/-- A datagram with a segment in it has a whole header. -/
theorem overhead_le_flatMap_encoded {segs : List Ikcpseg} (h : segs ≠ []) :
    ikcpOverhead ≤ (segs.flatMap encoded).length := by
  cases segs with
  | nil => exact absurd rfl h
  | cons seg segs =>
      rw [List.flatMap_cons, List.length_append, length_encoded]
      omega

/-- A datagram whose segments are all taken in is accepted. -/
theorem ikcpInput_accepts {kcp : Ikcpcb} {d : List UInt8} {st : InputState}
    (hlen : ikcpOverhead ≤ d.length) (hloop : inputLoop d.length d ⟨kcp, false, 0⟩ = .ok st) :
    (ikcpInput kcp d).1 = 0 := by
  rw [ikcpInput, if_neg (Nat.not_lt.mpr hlen), hloop]

/-- What every segment of a datagram keeps, and the two steps behind the loop, its input keeps. -/
theorem ikcpInput_encoded {R : Ikcpcb → Prop} {segs : List Ikcpseg} {conv : IUINT32}
    (hconv : ∀ seg ∈ segs, seg.conv = conv) (hcmd : ∀ seg ∈ segs, seg.IsCmd)
    (hlen : ∀ seg ∈ segs, seg.len < 2 ^ 31)
    (hseg : ∀ seg ∈ segs, ∀ st, R st.kcp → R (inputSegment st (wire seg)).kcp)
    (hfast : ∀ kcp sn, R kcp → R (ikcpParseFastack kcp sn))
    (hopen : ∀ kcp, R kcp → R (openWindow kcp))
    {kcp : Ikcpcb} (h : R kcp) : R (ikcpInput kcp (segs.flatMap encoded)).2 := by
  have hfold : ∀ (l : List Ikcpseg), (∀ seg ∈ l, seg ∈ segs) → ∀ st : InputState, R st.kcp →
      R (l.foldl (fun st seg => inputSegment st (wire seg)) st).kcp := by
    intro l
    induction l with
    | nil => exact fun _ _ hst => hst
    | cons seg l ih =>
        intro hmem st hst
        exact ih (fun s hs => hmem s (List.mem_cons_of_mem seg hs)) _
          (hseg seg (hmem seg List.mem_cons_self) st hst)
  cases hsegs : segs with
  | nil => exact h
  | cons first rest =>
      by_cases hsame : conv = kcp.conv
      · have hloop := @inputLoop_encoded segs ⟨kcp, false, 0⟩ _ (length_flatMap_encoded segs)
          (fun seg hmem => (hconv seg hmem).trans hsame) hcmd hlen
        have hst := hfold segs (fun _ hs => hs) ⟨kcp, false, 0⟩ h
        generalize segs.foldl (fun st seg => inputSegment st (wire seg)) ⟨kcp, false, 0⟩ = st
          at hloop hst
        have hend : ∀ kcp' : Ikcpcb, R kcp' →
            R (if itimediff kcp'.sndUna kcp.sndUna > 0 then openWindow kcp' else kcp') := by
          intro kcp' hkcp'
          split
          · exact hopen kcp' hkcp'
          · exact hkcp'
        rw [← hsegs, ikcpInput, hloop]
        split
        case isTrue => exact h
        case isFalse =>
          refine hend (if st.flag then ikcpParseFastack st.kcp st.maxack else st.kcp) ?_
          split
          · exact hfast _ _ hst
          · exact hst
      · rw [List.flatMap_cons, ikcpInput_foreign]
        · exact h
        · rw [hconv first (hsegs ▸ List.mem_cons_self)]
          exact hsame

/-- In every state that calls lead to, each datagram of `ikcp_flush` consists of whole segments. An
end with the same conversation takes just these out of it, where only the window is cut to 16 bits,
and accepts it; every other end refuses it and stays as it was. -/
theorem ikcp_input_flushed (conv : IUINT32) (calls : List Call) (kcp kcp' : Ikcpcb)
    (sent : List (List UInt8)) (hrun : run Ikcpcb.call (ikcpCreate conv) calls = some kcp)
    (hflush : ikcpFlush kcp = some (kcp', sent)) (d : List UInt8) (hd : d ∈ sent) :
    ∃ segs : List Ikcpseg, segs ≠ [] ∧ d = segs.flatMap encoded ∧
      (∀ seg ∈ segs, Emitted kcp seg ∧
        wire seg = { conv, cmd := seg.cmd, frg := seg.frg, wnd := lowBytes 2 seg.wnd, ts := seg.ts,
                     sn := seg.sn, una := seg.una, data := seg.data }) ∧
      ∀ peer : Ikcpcb, (peer.conv = conv → (ikcpInput peer d).1 = 0 ∧
          inputLoop d.length d ⟨peer, false, 0⟩ =
            .ok (segs.foldl (fun st seg => inputSegment st (wire seg)) ⟨peer, false, 0⟩)) ∧
        (peer.conv ≠ conv → ikcpInput peer d = (-1, peer)) := by
  obtain ⟨hbuilt, hconv⟩ := built_of_run hrun
  obtain ⟨segs, hne, rfl, hemitted⟩ := ikcpFlush_emits hflush hd
  refine ⟨segs, hne, rfl, fun seg hseg => ⟨hemitted seg hseg, ?_⟩, fun peer =>
    ⟨fun hpeer => ?_, fun hpeer => ?_⟩⟩
  · obtain ⟨hcmd, hsame, -, hfrg⟩ := emitted_built hbuilt (hemitted seg hseg)
    have hcmd' := wire_cmd hcmd
    have hfrg' : lowBytes 1 seg.frg = seg.frg :=
      lowBytes_of_lt (hfrg.trans (by decide : ikcpWndRcv.toNat < 256 ^ 1))
    rw [wire] at hcmd' ⊢
    simp only at hcmd'
    rw [hcmd', hfrg', hsame, hconv]
  · have hloop : inputLoop (segs.flatMap encoded).length (segs.flatMap encoded) ⟨peer, false, 0⟩ =
        .ok (segs.foldl (fun st seg => inputSegment st (wire seg)) ⟨peer, false, 0⟩) := by
      refine inputLoop_encoded (length_flatMap_encoded segs) ?_ ?_ ?_
      · intro seg hseg
        exact (emitted_built hbuilt (hemitted seg hseg)).2.1.trans (hconv.trans hpeer.symm)
      · intro seg hseg
        exact (emitted_built hbuilt (hemitted seg hseg)).1
      · intro seg hseg
        exact (emitted_built hbuilt (hemitted seg hseg)).2.2.1
    exact ⟨ikcpInput_accepts (overhead_le_flatMap_encoded hne) hloop, hloop⟩
  · cases segs with
    | nil => exact absurd rfl hne
    | cons seg segs =>
        have hsame := (emitted_built hbuilt (hemitted seg List.mem_cons_self)).2.1
        rw [List.flatMap_cons]
        exact ikcpInput_foreign (fun heq => hpeer (heq.symm.trans (hsame.trans hconv))) _

theorem ikcp_input_flushed_once : ∃ kcp kcp' d,
    run Ikcpcb.call (ikcpCreate 7) [.update 0, .send [1, 2, 3]] = some kcp ∧
    ikcpFlush kcp = some (kcp', [d]) ∧ (ikcpInput (ikcpCreate 7) d).1 = 0 ∧
    ∃ segs : List Ikcpseg, segs ≠ [] ∧ d = segs.flatMap encoded ∧
      inputLoop d.length d ⟨ikcpCreate 7, false, 0⟩ =
        .ok (segs.foldl (fun st seg => inputSegment st (wire seg)) ⟨ikcpCreate 7, false, 0⟩) := by
  obtain ⟨kcp, kcp', d, hrun, hflush⟩ : ∃ kcp kcp' d,
      run Ikcpcb.call (ikcpCreate 7) [.update 0, .send [1, 2, 3]] = some kcp ∧
      ikcpFlush kcp = some (kcp', [d]) := ⟨_, _, _, rfl, rfl⟩
  obtain ⟨segs, hne, hd, -, hpeer⟩ := ikcp_input_flushed 7 [.update 0, .send [1, 2, 3]] kcp kcp' [d]
    hrun hflush d List.mem_cons_self
  obtain ⟨hzero, hloop⟩ := (hpeer (ikcpCreate 7)).1 rfl
  exact ⟨kcp, kcp', d, hrun, hflush, hzero, segs, hne, hd, hloop⟩

/-- Every segment that waits fits into a datagram, and the buffer has the size it is meant to
have. -/
structure Fits (kcp : Ikcpcb) : Prop where
  room : Roomy kcp.mtu.toNat
  queue : ∀ s ∈ kcp.sndQueue, ikcpOverhead + s.len ≤ kcp.mtu.toNat
  buf : ∀ s ∈ kcp.sndBuf, ikcpOverhead + s.len ≤ kcp.mtu.toNat

/-- The `mtu` is not made smaller while segments wait, and not so large that the size of the buffer
wraps: at most `1431655741`. -/
def KeepsMtu (kcp : Ikcpcb) (call : Call) : Prop :=
  ∀ mtu : CInt, call = .setmtu mtu → mtu.1 < 50 ∨ (mtu.1 + ikcpOverhead) * 3 < 2 ^ 32 ∧
    ((kcp.mtu.toNat : Int) ≤ mtu.1 ∨ kcp.sndQueue = [] ∧ kcp.sndBuf = [])

theorem fits_follows {kcp kcp' : Ikcpcb} (h : Built kcp) (hfits : Fits kcp)
    (hfollows : Follows kcp kcp') (hmtu : kcp.mtu.toNat ≤ kcp'.mtu.toNat)
    (hroomy : Roomy kcp'.mtu.toNat) : Fits kcp' := by
  have hmss := h.mtu
  refine ⟨hroomy, fun s' hs' => ?_, fun s' hs' => ?_⟩
  · rcases hfollows.queue s' hs' with hold | ⟨hlen, -⟩
    · exact (hfits.queue s' hold).trans hmtu
    · omega
  · rcases hfollows.buf s' hs' with ⟨s, hs, hcore⟩ | ⟨-, -, s, hs, hpiece⟩
    · have hdata : s'.data = s.data := (congrArg Ikcpseg.data hcore :)
      rw [Ikcpseg.len, hdata]
      exact (hfits.buf s hs).trans hmtu
    · obtain ⟨-, hdata⟩ := Prod.mk.inj hpiece
      rw [Ikcpseg.len, hdata]
      exact (hfits.queue s hs).trans hmtu

theorem fits_call {kcp kcp' : Ikcpcb} {call : Call} (h : Built kcp) (hfits : Fits kcp)
    (hok : KeepsMtu kcp call) (hcall : kcp.call call = some kcp') : Fits kcp' := by
  rcases call_mtu hcall with ⟨hmtu, -⟩ | ⟨mtu, rfl, hbig, hmtu, -⟩
  · exact fits_follows h hfits (follows_call hcall) (by rw [hmtu]) (hmtu.symm ▸ hfits.room)
  · rcases hok mtu rfl with hsmall | ⟨hwrap, hle | ⟨hqueue, hbuf⟩⟩
    · omega
    · exact fits_follows h hfits (follows_call hcall) (by omega) (by unfold Roomy; omega)
    · -- nothing waits before the call, and the call queues nothing
      have hside := congrArg (Option.map Ikcpcb.sndSide) hcall
      have hsame : kcp'.sndSide = kcp.sndSide :=
        (Option.some.inj hside).symm.trans (ikcpSetmtu_sndSide kcp mtu)
      have hqueue' : kcp'.sndQueue = [] := (congrArg SndSide.sndQueue hsame).trans hqueue
      have hbuf' : kcp'.sndBuf = [] := (congrArg SndSide.sndBuf hsame).trans hbuf
      refine ⟨by unfold Roomy; omega, fun s hs => ?_, fun s hs => ?_⟩
      · rw [hqueue'] at hs
        exact absurd hs List.not_mem_nil
      · rw [hbuf'] at hs
        exact absurd hs List.not_mem_nil

/-- A flush of segments that fit goes through, and sends nothing longer than the `mtu`. -/
theorem ikcpFlush_fits {kcp : Ikcpcb} (h : Built kcp) (hfits : Fits kcp) :
    ∃ kcp' sent, ikcpFlush kcp = some (kcp', sent) ∧ ∀ d ∈ sent, d.length ≤ kcp.mtu.toNat := by
  have hmtu : (queued kcp).mtu = kcp.mtu := congrArg (fun t => t.2.1) (queued_settings kcp)
  have hqueued : Fits (queued kcp) :=
    fits_follows h hfits (follows_queued kcp) (by rw [hmtu]) (hmtu.symm ▸ hfits.room)
  have hsize := hqueued.room.bufferSize_eq
  have hroom := h.room
  have hsmall : ∀ seg, Emitted kcp seg → (encoded seg).length ≤ kcp.mtu.toNat := by
    intro seg hseg
    rw [length_encoded]
    rcases hseg.kind with ⟨-, -, hdata, -⟩ | ⟨s, hs, hcore⟩
    · have hlen : seg.len = 0 := by rw [Ikcpseg.len, hdata, List.length_nil]
      omega
    · have hdata : seg.data = s.data := (congrArg Ikcpseg.data hcore :)
      rw [Ikcpseg.len, hdata, ← hmtu]
      exact hqueued.buf s hs
  cases hflush : ikcpFlush kcp with
  | none =>
      obtain ⟨-, segment, hsegment, -, hlong⟩ := (flush_eq_none_iff hfits.room).mp hflush
      have hshort := hqueued.buf segment hsegment
      rw [hsize] at hlong
      omega
  | some r =>
      obtain ⟨kcp', sent⟩ := r
      refine ⟨kcp', sent, rfl, fun d hd => ?_⟩
      obtain ⟨o, ho, rfl⟩ := ikcpFlush_keeps (P := Small kcp.mtu.toNat) ⟨Nat.zero_le _, by simp⟩
        (fun seg o o' hseg ho hput => ho.put (hsmall seg hseg) hput) hflush
      exact ho.output.sent d hd

/-- In every run that does not make the `mtu` smaller while segments wait, nor so large that the
size of the buffer wraps, `ikcp_flush` never writes past `kcp->buffer` and no datagram is longer
than the `mtu`, whatever bytes come in. -/
theorem ikcp_flush_within_mtu (conv : IUINT32) (calls : List Call) (kcp : Ikcpcb)
    (hrun : run Ikcpcb.call (ikcpCreate conv) calls = some kcp)
    (hok : Meets Ikcpcb.call KeepsMtu (ikcpCreate conv) calls) :
    ∃ kcp' sent, ikcpFlush kcp = some (kcp', sent) ∧ ∀ d ∈ sent, d.length ≤ kcp.mtu.toNat := by
  have hempty : Fits (ikcpCreate conv) :=
    ⟨(by decide : Roomy ikcpMtuDef.toNat), fun s hs => absurd hs List.not_mem_nil,
      fun s hs => absurd hs List.not_mem_nil⟩
  have hinv : Built kcp ∧ Fits kcp := by
    refine @run_keeps_meets _ _ _ KeepsMtu (fun k : Ikcpcb => Built k ∧ Fits k) ?_ calls _ _
      ⟨built_create conv, hempty⟩ hok hrun
    intro k call k' hk hkeeps hcall
    exact ⟨built_call hk.1 hcall, fits_call hk.1 hk.2 hkeeps hcall⟩
  exact ikcpFlush_fits hinv.1 hinv.2

theorem ikcp_flush_within_mtu_once : ∃ kcp kcp' sent,
    run Ikcpcb.call (ikcpCreate 7) [.update 0, .send [1, 2, 3]] = some kcp ∧
    ikcpFlush kcp = some (kcp', sent) ∧ ∀ d ∈ sent, d.length ≤ kcp.mtu.toNat := by
  have hok : Meets Ikcpcb.call KeepsMtu (ikcpCreate 7) [.update 0, .send [1, 2, 3]] := by
    refine ⟨fun mtu h => absurd h (by simp), fun _ _ => ⟨fun mtu h => absurd h (by simp), ?_⟩⟩
    intro _ _
    trivial
  obtain ⟨kcp, hrun⟩ : ∃ kcp,
      run Ikcpcb.call (ikcpCreate 7) [.update 0, .send [1, 2, 3]] = some kcp := ⟨_, rfl⟩
  obtain ⟨kcp', sent, hflush, hsmall⟩ :=
    ikcp_flush_within_mtu 7 [.update 0, .send [1, 2, 3]] kcp hrun hok
  exact ⟨kcp, kcp', sent, hrun, hflush, hsmall⟩

end CppTrack.Kcp
