import CppTrack.Lib.BigEndian
import CppTrack.Lib.Framing
import CppTrack.Proto.ImPdu

/-!
# Reading a PDU

Given the bytes a buffer holds, `ReadPdu` does one of four things, and which one is decided by the
number that the bytes start with: it waits for more, it throws, it writes past the end of the new
PDU's buffer because the size of that has wrapped, or it makes the PDU.
-/

namespace CppTrack.IM

open Lib

/-- The number in the `len` bytes from `off` on. -/
def field (bytes : List UInt8) (off len : Nat) : Nat := bigEndian ((bytes.drop off).take len)

def headerOf (bytes : List UInt8) : PduHeader where
  length := some (field bytes 0 4)
  version := field bytes 4 2
  flag := field bytes 6 2
  serviceId := field bytes 8 2
  commandId := field bytes 10 2
  seqNum := field bytes 12 2
  reversed := field bytes 14 2

/-- How long the PDU is that the bytes start with, if all of it is there. -/
def frameLen (bytes : List UInt8) : Option Nat :=
  if imPduHeaderLen ≤ bytes.length ∧ field bytes 0 4 ≤ bytes.length then some (field bytes 0 4)
  else none

section

variable {bytes : List UInt8} {buf : List Cell} {off pos len : Nat}

theorem copyOut_bytes (hpre : bytes.map some <+: buf) (hle : off + len ≤ bytes.length) :
    copyOut buf off len = some (((bytes.drop off).take len).map some) := by
  rw [copyOut_of_start hpre (by rwa [List.length_map]), List.map_take, List.map_drop]

theorem joinUint16_bytes (h : bytes.length = 2) :
    joinUint16 (bytes.map some) = .ok (bigEndian bytes) := by
  match bytes, h with
  | [a, b], _ => exact congrArg Except.ok (bigEndian_two a b)

theorem joinUint32_bytes (h : bytes.length = 4) :
    joinUint32 (bytes.map some) = .ok (bigEndian bytes) := by
  match bytes, h with
  | [a, b, c, d], _ => exact congrArg Except.ok (bigEndian_four a b c d)

theorem length_field (hle : off + len ≤ bytes.length) :
    ((bytes.drop off).take len).length = len := by
  rw [List.length_take, List.length_drop]
  omega

theorem readUint16_bytes (hpre : bytes.map some <+: buf) (hle : off + 2 ≤ bytes.length) :
    readUint16 buf off = .ok (field bytes off 2) := by
  unfold readUint16
  rw [copyOut_bytes hpre hle]
  exact joinUint16_bytes (length_field hle)

theorem readUint32_bytes (hpre : bytes.map some <+: buf) (hle : off + 4 ≤ bytes.length) :
    readUint32 buf off = .ok (field bytes off 4) := by
  unfold readUint32
  rw [copyOut_bytes hpre hle]
  exact joinUint32_bytes (length_field hle)

theorem readByte_bytes (hpre : bytes.map some <+: buf) (hle : pos + off ≤ bytes.length)
    (hlen : pos + off ≤ len) (hword : len < wordSize) :
    (CByteStream.readByte ⟨buf, len, pos⟩ off) =
      .ok (((bytes.drop pos).take off).map some, ⟨buf, len, pos + off⟩) := by
  have hadd : addU32 pos off = pos + off := Nat.mod_eq_of_lt (Nat.lt_of_le_of_lt hlen hword)
  unfold CByteStream.readByte
  dsimp only
  rw [hadd, if_neg (Nat.not_lt.mpr hlen), copyOut_bytes hpre hle]
  rfl

theorem getUint16_bytes (hpre : bytes.map some <+: buf) (hle : pos + 2 ≤ bytes.length)
    (hlen : pos + 2 ≤ len) (hword : len < wordSize) :
    CByteStream.getUint16 ⟨buf, len, pos⟩ = .ok (field bytes pos 2, ⟨buf, len, pos + 2⟩) := by
  unfold CByteStream.getUint16
  rw [readByte_bytes hpre hle hlen hword]
  show (joinUint16 _ >>= _) = _
  rw [joinUint16_bytes (length_field hle)]
  rfl

theorem getUint32_bytes (hpre : bytes.map some <+: buf) (hle : pos + 4 ≤ bytes.length)
    (hlen : pos + 4 ≤ len) (hword : len < wordSize) :
    CByteStream.getUint32 ⟨buf, len, pos⟩ = .ok (field bytes pos 4, ⟨buf, len, pos + 4⟩) := by
  unfold CByteStream.getUint32
  rw [readByte_bytes hpre hle hlen hword]
  show (joinUint32 _ >>= _) = _
  rw [joinUint32_bytes (length_field hle)]
  rfl

/-- The stream reads the fields of the header one after the other. -/
theorem readPduHeader_bytes (p : CImPdu) (hpre : bytes.map some <+: buf)
    (hle : imPduHeaderLen ≤ bytes.length) :
    p.readPduHeader buf imPduHeaderLen = .ok (0, { p with header := headerOf bytes }) := by
  have hle : 16 ≤ bytes.length := hle
  have hbuf : buf ≠ [] := by
    intro hnil
    rw [hnil] at hpre
    have hlen := hpre.length_le
    rw [List.length_map, List.length_nil] at hlen
    omega
  have h16 : ∀ pos, pos + 2 ≤ 16 → CByteStream.getUint16 ⟨buf, 16, pos⟩ =
      .ok (field bytes pos 2, ⟨buf, 16, pos + 2⟩) :=
    fun pos hpos => getUint16_bytes hpre (by omega) hpos (by decide)
  unfold CImPdu.readPduHeader imPduHeaderLen
  rw [if_pos ⟨Nat.le_refl _, hbuf⟩, getUint32_bytes hpre (by omega) (by omega) (by decide)]
  show (CByteStream.getUint16 ⟨buf, 16, 4⟩ >>= _) = _
  rw [h16 4 (by omega)]
  show (CByteStream.getUint16 ⟨buf, 16, 6⟩ >>= _) = _
  rw [h16 6 (by omega)]
  show (CByteStream.getUint16 ⟨buf, 16, 8⟩ >>= _) = _
  rw [h16 8 (by omega)]
  show (CByteStream.getUint16 ⟨buf, 16, 10⟩ >>= _) = _
  rw [h16 10 (by omega)]
  show (CByteStream.getUint16 ⟨buf, 16, 12⟩ >>= _) = _
  rw [h16 12 (by omega)]
  show (CByteStream.getUint16 ⟨buf, 16, 14⟩ >>= _) = _
  rw [h16 14 (by omega)]
  rfl

/-! ## `ReadPdu` -/

theorem field_take {n : Nat} (hle : off + len ≤ n) :
    field (bytes.take n) off len = field bytes off len := by
  rw [field, field, List.drop_take, List.take_take, Nat.min_eq_left (by omega)]

theorem headerOf_take {n : Nat} (hle : imPduHeaderLen ≤ n) :
    headerOf (bytes.take n) = headerOf bytes := by
  have hle : 16 ≤ n := hle
  have hfield : ∀ off len, off + len ≤ 16 → field (bytes.take n) off len = field bytes off len :=
    fun off len h => field_take (by omega)
  simp only [headerOf, hfield _ _ (show 0 + 4 ≤ 16 by decide),
    hfield _ _ (show 4 + 2 ≤ 16 by decide),
    hfield _ _ (show 6 + 2 ≤ 16 by decide), hfield _ _ (show 8 + 2 ≤ 16 by decide),
    hfield _ _ (show 10 + 2 ≤ 16 by decide), hfield _ _ (show 12 + 2 ≤ 16 by decide),
    hfield _ _ (show 14 + 2 ≤ 16 by decide)]

theorem frameLen_spec {n : Nat} (h : frameLen bytes = some n) :
    imPduHeaderLen ≤ bytes.length ∧ n ≤ bytes.length ∧ field bytes 0 4 = n := by
  obtain ⟨⟨hhead, hle⟩, heq⟩ := Option.ite_none_right_eq_some.mp h
  obtain rfl := Option.some.inj heq
  exact ⟨hhead, hle, rfl⟩

section

variable {b : CSimpleBuffer} (h : Holds b (bytes.map some))

include h

theorem Holds.length_lt : bytes.length < wordSize := by
  have hle := h.le_alloc
  rw [List.length_map] at hle
  exact Nat.lt_of_le_of_lt hle h.word

theorem isPduAvailable_bytes : CImPdu.isPduAvailable b.buffer b.writeOffset =
    match frameLen bytes with
    | none => .ok none
    | some 0 => .error (.thrown ⟨0, 0, 1, "pdu_len is 0"⟩)
    | some n => .ok (some n) := by
  have hoff : b.writeOffset = bytes.length := h.offset.trans (List.length_map _)
  unfold CImPdu.isPduAvailable
  rw [hoff]
  by_cases hhead : bytes.length < imPduHeaderLen
  · have hframe : frameLen bytes = none := if_neg fun hand => Nat.not_le.mpr hhead hand.1
    rw [if_pos hhead, hframe]
    rfl
  · have hlong : 16 ≤ bytes.length := Nat.not_lt.mp hhead
    rw [if_neg hhead, readUint32_bytes h.contents (by omega)]
    show (if field bytes 0 4 > bytes.length then _ else _) = _
    by_cases hle : field bytes 0 4 ≤ bytes.length
    · have hframe : frameLen bytes = some (field bytes 0 4) := if_pos ⟨hlong, hle⟩
      rw [if_neg (Nat.not_lt.mpr hle), hframe]
      cases hn : field bytes 0 4 with
      | zero => rfl
      | succ n => rfl
    · have hframe : frameLen bytes = none := if_neg fun hand => hle hand.2
      rw [if_pos (Nat.not_le.mp hle), hframe]
      rfl

theorem readPdu_wait (hlen : frameLen bytes = none) :
    CImPdu.readPdu b.buffer b.writeOffset = .ok none := by
  unfold CImPdu.readPdu
  rw [isPduAvailable_bytes h, hlen]
  rfl

theorem readPdu_zero (hlen : frameLen bytes = some 0) :
    CImPdu.readPdu b.buffer b.writeOffset = .error (.thrown ⟨0, 0, 1, "pdu_len is 0"⟩) := by
  unfold CImPdu.readPdu
  rw [isPduAvailable_bytes h, hlen]
  rfl

/-- What is left to do once the length is known. -/
theorem readPdu_some {n : Nat} (hlen : frameLen bytes = some n) (hpos : 0 < n) :
    CImPdu.readPdu b.buffer b.writeOffset = (CImPdu.new.buf.write (some b.buffer) n).map
      fun pBuf => some { buf := pBuf, header := headerOf bytes } := by
  obtain ⟨hhead, hle, -⟩ := frameLen_spec hlen
  have hhead : 16 ≤ bytes.length := hhead
  have havail : CImPdu.isPduAvailable b.buffer b.writeOffset = .ok (some n) := by
    rw [isPduAvailable_bytes h, hlen]
    obtain ⟨n, rfl⟩ := Nat.exists_eq_succ_of_ne_zero (Nat.ne_of_gt hpos)
    rfl
  unfold CImPdu.readPdu
  rw [havail]
  show (readUint16 b.buffer 8 >>= _) = _
  rw [readUint16_bytes h.contents (by omega)]
  show (readUint16 b.buffer 10 >>= _) = _
  rw [readUint16_bytes h.contents (by omega)]
  show (CImPdu.new.buf.write (some b.buffer) n >>= _) = _
  cases CImPdu.new.buf.write (some b.buffer) n with
  | error e => rfl
  | ok pBuf =>
      show (CImPdu.readPduHeader _ b.buffer imPduHeaderLen >>= _) = _
      rw [readPduHeader_bytes _ h.contents hhead]
      rfl

theorem readPdu_frame {n : Nat} (hlen : frameLen bytes = some n) (hpos : 0 < n)
    (hfit : grown n < wordSize) : ∃ p, CImPdu.readPdu b.buffer b.writeOffset = .ok (some p) ∧
      p.header = headerOf bytes ∧ Holds p.buf ((bytes.take n).map some) := by
  obtain ⟨-, hle, -⟩ := frameLen_spec hlen
  have hlong := h.contents.length_le
  rw [List.length_map] at hlong
  obtain ⟨pBuf, hwrite, hp⟩ :=
    holds_new.write (Nat.le_trans hle hlong) (by rwa [List.length_nil, Nat.zero_add])
  refine ⟨{ buf := pBuf, header := headerOf bytes }, ?_, rfl, ?_⟩
  · rw [readPdu_some h hlen hpos]
    show (CSimpleBuffer.new.write _ _).map _ = _
    rw [hwrite]
    rfl
  · obtain ⟨rest, hrest⟩ := h.contents
    rwa [List.nil_append, ← hrest, List.take_append_of_le_length (by rwa [List.length_map]),
      ← List.map_take] at hp

/-- The size of the new PDU's buffer wraps. -/
theorem readPdu_large {n : Nat} (hlen : frameLen bytes = some n) (hbig : wordSize ≤ grown n) :
    CImPdu.readPdu b.buffer b.writeOffset = .error .undefined := by
  obtain ⟨-, hle, -⟩ := frameLen_spec hlen
  have hword : n < wordSize := Nat.lt_of_le_of_lt hle (Holds.length_lt h)
  have hpos : 0 < n := by
    by_contra hzero
    obtain rfl : n = 0 := by omega
    exact absurd hbig (by decide)
  have hlong := h.contents.length_le
  rw [List.length_map] at hlong
  have hsmall : (CSimpleBuffer.new.extend n).buffer.length < n := by
    show (resize none [] (CSimpleBuffer.new.extend n).allocSize).length < n
    rw [length_resize, extend_allocSize]
    show grown ((0 + n) % wordSize) % wordSize < n
    rw [Nat.zero_add, Nat.mod_eq_of_lt hword]
    simp only [grown, wordSize_eq] at *
    omega
  have hsrc : copyOut b.buffer 0 n = some (b.buffer.take n) := by
    rw [copyOut_of_start List.prefix_rfl (by omega), List.drop_zero]
  have hfull : addU32 CSimpleBuffer.new.writeOffset n > CSimpleBuffer.new.allocSize := by
    show addU32 0 n > 0
    rw [addU32, Nat.zero_add, Nat.mod_eq_of_lt hword]
    exact hpos
  have hwrite : CSimpleBuffer.new.write (some b.buffer) n = .error .undefined := by
    unfold CSimpleBuffer.write CSimpleBuffer.copyIn
    rw [if_pos hfull]
    dsimp only
    rw [hsrc, Option.bind_some, copyTo, if_neg]
    · rfl
    · rw [List.length_take]
      omega
  rw [readPdu_some h hlen hpos]
  show (CSimpleBuffer.new.write _ _).map _ = _
  rw [hwrite]
  rfl

end

/-- This PDU has been made of these bytes. -/
structure MadeOf (f : List UInt8) (p : CImPdu) : Prop where
  long : imPduHeaderLen ≤ f.length
  header : p.header = headerOf f
  holds : Holds p.buf (f.map some)

section

variable {f : List UInt8} {p : CImPdu}

theorem MadeOf.length (h : MadeOf f p) : p.getLength = f.length :=
  h.holds.offset.trans (List.length_map _)

theorem MadeOf.bodyLength (h : MadeOf f p) : p.getBodyLength = f.length - imPduHeaderLen := by
  have hlong : 16 ≤ f.length := h.long
  have hword := Holds.length_lt h.holds
  show subU32 p.getLength imPduHeaderLen = _
  rw [h.length]
  simp only [subU32, wordSize_eq, imPduHeaderLen] at *
  omega

theorem MadeOf.body (h : MadeOf f p) : p.body = some ((f.drop imPduHeaderLen).map some) := by
  have hlong := h.long
  rw [CImPdu.body, h.bodyLength, copyOut_bytes h.holds.contents (by omega), ← List.length_drop,
    List.take_length]

end

/-- Neither what follows a PDU nor how much of it is there changes its length. -/
theorem framing_frameLen {ok : Nat → Prop} (hok : ∀ n, ok n → imPduHeaderLen ≤ n) :
    Framing frameLen ok := by
  have hhead : ∀ (l m : List UInt8), 16 ≤ l.length → field (l ++ m) 0 4 = field l 0 4 := by
    intro l m hl
    rw [field, field, List.drop_zero, List.drop_zero, List.take_append_of_le_length (by omega)]
  refine ⟨fun l n h => (frameLen_spec h).2.1, fun l m n h => ?_, fun l m n h hn hle => ?_⟩
  · obtain ⟨hl, hle, heq⟩ := frameLen_spec h
    have hlm : l.length ≤ (l ++ m).length := by
      rw [List.length_append]
      omega
    rw [frameLen, hhead l m hl, heq, if_pos ⟨Nat.le_trans hl hlm, Nat.le_trans hle hlm⟩]
  · obtain ⟨-, -, heq⟩ := frameLen_spec h
    have hl : 16 ≤ l.length := Nat.le_trans (hok n hn) hle
    rw [hhead l m hl] at heq
    rw [frameLen, heq, if_pos ⟨hl, hle⟩]

end

end CppTrack.IM
