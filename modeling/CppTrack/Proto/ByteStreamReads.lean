import CppTrack.Proto.ByteStream
import CppTrack.Proto.ImPduRead

/-!
# Reads of a buffer that may be cut off

The position of a stream and the lengths it reads are 32 bits wide, and so is the sum of them that
is compared with the length of the buffer. `_ReadByte` compares before it moves, `Skip` moves first,
so that a stream may stand anywhere once `Skip` has thrown.
-/

namespace CppTrack.IM

open Lib

/-- What a call returns: a number, with the bytes it was made of, or a pointer and a length. -/
inductive Returned
  | number (data : Value) (off len : Nat)
  | pointer (off len : Nat)

/-- It was taken from the buffer of the stream. -/
def Returned.Inside (s : CByteStream) : Returned → Prop
  | .number _ off len => off + len ≤ s.len
  | .pointer off len => off + len ≤ s.len

namespace Get

/-- `ReadString` and `ReadData`. -/
def isBlob : Get → Bool
  | .string => true
  | .data => true
  | _ => false

/-- How many bytes a call reads, but for those behind a length. -/
def size : Get → Nat
  | .int8 => 1
  | .uint8 => 1
  | .int16 => 2
  | .uint16 => 2
  | .int32 => 4
  | .uint32 => 4
  | .string => 4
  | .data => 4

theorem size_le (g : Get) : g.size ≤ 4 := by cases g <;> decide

theorem size_pos (g : Get) : 0 < g.size := by cases g <;> decide

theorem size_of_isBlob {g : Get} (h : g.isBlob) : g.size = 4 := by cases g <;> first | rfl | cases h

end Get

namespace CByteStream

/-- `Skip`, with the stream as it is behind the call, whether that returns or throws. -/
def skipped (s : CByteStream) (len : Nat) : Except Fault Unit × CByteStream :=
  ((s.skip len).map fun _ => (), { s with pos := addU32 s.pos len })

/-- `ReadString`, `ReadData`: the pointer is taken before `Skip` is called. -/
def blobCall (s : CByteStream) : Except Fault Returned × CByteStream :=
  match s.getUint32 with
  | .error e => (.error e, s)
  | .ok (len, s) =>
      let (r, s') := s.skipped len
      (r.map fun _ => .pointer s.pos len, s')

/-- `operator >>`, which leaves the stream as it was when it throws. -/
def numberCall (s : CByteStream) (g : Get) : Except Fault Returned × CByteStream :=
  match s.get g with
  | .error e => (.error e, s)
  | .ok (data, s') => (.ok (.number data s.pos g.size), s')

def call (s : CByteStream) (g : Get) : Except Fault Returned × CByteStream :=
  if g.isBlob then s.blobCall else s.numberCall g

end CByteStream

/-- A call of a sequence. -/
structure Turn where
  before : CByteStream
  get : Get
  result : Except Fault Returned
  after : CByteStream

def turnOf (s : CByteStream) (g : Get) : Turn := ⟨s, g, (s.call g).1, (s.call g).2⟩

/-- Calls one after the other, also behind one that throws. -/
def turns (s : CByteStream) : List Get → List Turn
  | [] => []
  | g :: gets => turnOf s g :: turns (turnOf s g).after gets

/-- The call throws or returns what is inside the buffer, and the stream does not go back. -/
structure Turn.Checked (t : Turn) : Prop where
  outcome : (∃ e, t.result = .error (.thrown e)) ∨
    ∃ r, t.result = .ok r ∧ r.Inside t.before
  forward : t.before.pos ≤ t.after.pos

/-- The number at the position of a stream. -/
def CByteStream.lengthAt (s : CByteStream) : Nat := field (s.buf.map (·.getD 0)) s.pos 4

/-- No position that the call computes is too large for 32 bits. -/
def Turn.Fits (t : Turn) : Prop :=
  t.before.pos + t.get.size < wordSize ∧
    (t.get.isBlob → t.before.pos + 4 ≤ t.before.len →
      t.before.pos + 4 + t.before.lengthAt < wordSize)

/-- A stream over these bytes. Only a length that was read moves it behind them. -/
structure Over (bytes : List UInt8) (s : CByteStream) : Prop where
  buf : s.buf = bytes.map some
  len : s.len = bytes.length
  word : s.pos < wordSize
  read : s.pos ≤ s.len ∨ 4 ≤ s.len

section

variable {bytes : List UInt8} {s : CByteStream} {g : Get} {n : Nat}

theorem readByte_throws (h : s.len < addU32 s.pos n) :
    s.readByte n = .error (.thrown ⟨0, 0, errorCodeParseFailed, "parase packet failed!"⟩) :=
  if_pos h

theorem Over.readByte_inside (h : Over bytes s) (hword : bytes.length < wordSize)
    (hle : s.pos + n ≤ s.len) :
    s.readByte n = .ok (((bytes.drop s.pos).take n).map some, { s with pos := s.pos + n }) := by
  obtain ⟨buf, len, pos⟩ := s
  obtain ⟨rfl, rfl, -, -⟩ := h
  exact readByte_bytes (List.prefix_rfl) hle hle hword

theorem Over.readByte_outside (h : Over bytes s) (hadd : addU32 s.pos n ≤ s.len)
    (hlt : s.len < s.pos + n) : s.readByte n = .error .undefined := by
  have hnone : copyOut s.buf s.pos n = none := by
    rw [copyOut, if_neg]
    rw [h.buf, List.length_map, ← h.len]
    exact Nat.not_le.mpr hlt
  rw [CByteStream.readByte, if_neg (Nat.not_lt.mpr hadd), hnone]
  rfl

/-- A number is read by `_ReadByte`, and nothing else of the call can fail. -/
theorem numberCall_error {e : Fault} (h : s.readByte g.size = .error e)
    (hg : g.isBlob = false) : s.numberCall g = (.error e, s) := by
  have hget : s.get g = .error e := by
    cases g with
    | string => cases hg
    | data => cases hg
    | _ =>
        simp only [Get.size] at h
        simp only [CByteStream.get, CByteStream.getInt8, CByteStream.getUint8,
          CByteStream.getInt16, CByteStream.getUint16, CByteStream.getInt32,
          CByteStream.getUint32, h]
        rfl
  rw [CByteStream.numberCall, hget]

theorem numberCall_ok {cells : List UInt8} {s' : CByteStream} (hlen : cells.length = g.size)
    (h : s.readByte g.size = .ok (cells.map some, s')) (hg : g.isBlob = false) :
    ∃ data, s.numberCall g = (.ok (.number data s.pos g.size), s') := by
  have hget : ∃ data, s.get g = .ok (data, s') := by
    cases g with
    | string => cases hg
    | data => cases hg
    | int8 =>
        obtain ⟨a, rfl⟩ := List.length_eq_one_iff.mp hlen
        refine ⟨.int8 a.toInt8, ?_⟩
        simp only [Get.size] at h
        simp only [CByteStream.get, CByteStream.getInt8, CByteStream.getUint8, h]
        rfl
    | uint8 =>
        obtain ⟨a, rfl⟩ := List.length_eq_one_iff.mp hlen
        refine ⟨.uint8 a, ?_⟩
        simp only [Get.size] at h
        simp only [CByteStream.get, CByteStream.getUint8, h]
        rfl
    | int16 =>
        refine ⟨.int16 (Int16.ofNat (bigEndian cells)), ?_⟩
        simp only [Get.size] at h
        simp only [CByteStream.get, CByteStream.getInt16, h, ok_bind, joinUint16_bytes hlen]
        rfl
    | uint16 =>
        refine ⟨.uint16 (UInt16.ofNat (bigEndian cells)), ?_⟩
        simp only [Get.size] at h
        simp only [CByteStream.get, CByteStream.getUint16, h, ok_bind, joinUint16_bytes hlen]
        rfl
    | int32 =>
        refine ⟨.int32 (Int32.ofNat (bigEndian cells)), ?_⟩
        simp only [Get.size] at h
        simp only [CByteStream.get, CByteStream.getInt32, h, ok_bind, joinUint32_bytes hlen]
        rfl
    | uint32 =>
        refine ⟨.uint32 (UInt32.ofNat (bigEndian cells)), ?_⟩
        simp only [Get.size] at h
        simp only [CByteStream.get, CByteStream.getUint32, h, ok_bind, joinUint32_bytes hlen]
        rfl
  obtain ⟨data, hdata⟩ := hget
  exact ⟨data, by rw [CByteStream.numberCall, hdata]⟩

theorem blobCall_error {e : Fault} (h : s.readByte 4 = .error e) : s.blobCall = (.error e, s) := by
  have hget : s.getUint32 = .error e := by
    rw [CByteStream.getUint32, h]
    rfl
  rw [CByteStream.blobCall, hget]

theorem Over.lengthAt (h : Over bytes s) : s.lengthAt = field bytes s.pos 4 := by
  have hbytes : s.buf.map (·.getD 0) = bytes := by
    rw [h.buf, List.map_map]
    exact List.map_id'' (fun _ => rfl) bytes
  rw [CByteStream.lengthAt, hbytes]

/-- Once the length is read, the call is a `Skip`. -/
theorem Over.blobCall (h : Over bytes s) (hword : bytes.length < wordSize)
    (hle : s.pos + 4 ≤ s.len) :
    s.blobCall =
      ((({ s with pos := s.pos + 4 } : CByteStream).skip s.lengthAt).map
          fun _ => .pointer (s.pos + 4) s.lengthAt,
        { s with pos := addU32 (s.pos + 4) s.lengthAt }) := by
  have hlen : ((bytes.drop s.pos).take 4).length = 4 := length_field (h.len ▸ hle)
  have hget : s.getUint32 = .ok (s.lengthAt, { s with pos := s.pos + 4 }) := by
    rw [CByteStream.getUint32, h.readByte_inside hword hle, h.lengthAt]
    show (joinUint32 _ >>= _) = _
    rw [joinUint32_bytes hlen]
    rfl
  rw [CByteStream.blobCall, hget]
  simp only [CByteStream.skipped]
  cases CByteStream.skip { s with pos := s.pos + 4 } s.lengthAt <;> rfl

theorem turnOf_of_call {r : Except Fault Returned} {s' : CByteStream} (h : s.call g = (r, s')) :
    turnOf s g = ⟨s, g, r, s'⟩ := by
  rw [turnOf, h]

/-- `_ReadByte` of a few bytes: they are there, or the sum is seen to be too large, or it wraps. -/
theorem Over.readByte_cases (h : Over bytes s) (hword : bytes.length < wordSize) (hn : n ≤ 4) :
    s.pos + n ≤ s.len ∨
    (s.len < s.pos + n ∧ s.pos + n < wordSize ∧ ∃ e, s.readByte n = .error (.thrown e)) ∨
    (wordSize ≤ s.pos + n ∧ s.readByte n = .error .undefined) := by
  have hlen := h.len
  have hread := h.read
  have hpos := h.word
  have hsize := wordSize_eq
  by_cases hle : s.pos + n ≤ s.len
  · exact .inl hle
  by_cases hfit : s.pos + n < wordSize
  · have hadd : addU32 s.pos n = s.pos + n := Nat.mod_eq_of_lt hfit
    exact .inr (.inl ⟨Nat.lt_of_not_le hle, hfit, _, readByte_throws (by omega)⟩)
  · -- what is left of the sum is less than four, and the buffer has that much
    have hadd : addU32 s.pos n = s.pos + n - wordSize := by
      rw [addU32, Nat.mod_eq_sub_mod (Nat.le_of_not_lt hfit), Nat.mod_eq_of_lt (by omega)]
    exact .inr (.inr ⟨Nat.le_of_not_lt hfit, h.readByte_outside (by omega) (by omega)⟩)

/-- What a turn that reads a number can be. -/
theorem Over.number_cases (h : Over bytes s) (hword : bytes.length < wordSize)
    (hg : g.isBlob = false) :
    (s.pos + g.size ≤ s.len ∧ ∃ data, turnOf s g =
      ⟨s, g, .ok (.number data s.pos g.size), { s with pos := s.pos + g.size }⟩) ∨
    (s.len < s.pos + g.size ∧ s.pos + g.size < wordSize ∧
      ∃ e, turnOf s g = ⟨s, g, .error (.thrown e), s⟩) ∨
    (wordSize ≤ s.pos + g.size ∧ turnOf s g = ⟨s, g, .error .undefined, s⟩) := by
  have hcall : s.call g = s.numberCall g := by simp [CByteStream.call, hg]
  rcases h.readByte_cases hword g.size_le with hle | ⟨hlt, hfit, e, he⟩ | ⟨hwrap, he⟩
  · have hlen : ((bytes.drop s.pos).take g.size).length = g.size := length_field (h.len ▸ hle)
    obtain ⟨data, hdata⟩ := numberCall_ok hlen (h.readByte_inside hword hle) hg
    exact .inl ⟨hle, data, turnOf_of_call (hcall.trans hdata)⟩
  · exact .inr (.inl ⟨hlt, hfit, e, turnOf_of_call (hcall.trans (numberCall_error he hg))⟩)
  · exact .inr (.inr ⟨hwrap, turnOf_of_call (hcall.trans (numberCall_error he hg))⟩)

/-- What a turn that reads a string or data can be. -/
theorem Over.blob_cases (h : Over bytes s) (hword : bytes.length < wordSize)
    (hg : g.isBlob = true) :
    (s.len < s.pos + 4 ∧ s.pos + 4 < wordSize ∧
      ∃ e, turnOf s g = ⟨s, g, .error (.thrown e), s⟩) ∨
    (wordSize ≤ s.pos + 4 ∧ turnOf s g = ⟨s, g, .error .undefined, s⟩) ∨
    (s.pos + 4 + s.lengthAt ≤ s.len ∧ turnOf s g =
      ⟨s, g, .ok (.pointer (s.pos + 4) s.lengthAt), { s with pos := s.pos + 4 + s.lengthAt }⟩) ∨
    (s.len < s.pos + 4 + s.lengthAt ∧ s.pos + 4 + s.lengthAt < wordSize ∧ s.pos + 4 ≤ s.len ∧
      ∃ e, turnOf s g = ⟨s, g, .error (.thrown e), { s with pos := s.pos + 4 + s.lengthAt }⟩) ∨
    (wordSize ≤ s.pos + 4 + s.lengthAt ∧ s.pos + 4 ≤ s.len ∧ turnOf s g =
      ⟨s, g, .ok (.pointer (s.pos + 4) s.lengthAt),
        { s with pos := s.pos + 4 + s.lengthAt - wordSize }⟩) := by
  have hcall : s.call g = s.blobCall := by simp [CByteStream.call, hg]
  have hlen := h.len
  rcases h.readByte_cases hword (Nat.le_refl 4) with hle | ⟨hlt, hfit, e, he⟩ | ⟨hwrap, he⟩
  · have hblob := hcall.trans (h.blobCall hword hle)
    have hnum : s.lengthAt < wordSize := by
      rw [h.lengthAt]
      exact Nat.lt_of_lt_of_eq (bigEndian_lt _) (by rw [length_field (hlen ▸ hle)]; rfl)
    have hsize := wordSize_eq
    refine .inr (.inr ?_)
    by_cases hfit : s.pos + 4 + s.lengthAt < wordSize
    · have hadd : addU32 (s.pos + 4) s.lengthAt = s.pos + 4 + s.lengthAt := Nat.mod_eq_of_lt hfit
      rw [CByteStream.skip, hadd] at hblob
      by_cases hin : s.pos + 4 + s.lengthAt ≤ s.len
      · rw [if_neg (Nat.not_lt.mpr hin)] at hblob
        exact .inl ⟨hin, turnOf_of_call hblob⟩
      · rw [if_pos (Nat.lt_of_not_le hin)] at hblob
        exact .inr (.inl ⟨Nat.lt_of_not_le hin, hfit, hle, _, turnOf_of_call hblob⟩)
    · -- the wrapped sum is below the position again
      have hadd : addU32 (s.pos + 4) s.lengthAt = s.pos + 4 + s.lengthAt - wordSize := by
        rw [addU32, Nat.mod_eq_sub_mod (Nat.le_of_not_lt hfit), Nat.mod_eq_of_lt (by omega)]
      have hnot : ¬ s.len < s.pos + 4 + s.lengthAt - wordSize := by omega
      rw [CByteStream.skip, hadd, if_neg hnot] at hblob
      exact .inr (.inr ⟨Nat.le_of_not_lt hfit, hle, turnOf_of_call hblob⟩)
  · exact .inl ⟨hlt, hfit, e, turnOf_of_call (hcall.trans (blobCall_error he))⟩
  · exact .inr (.inl ⟨hwrap, turnOf_of_call (hcall.trans (blobCall_error he))⟩)

theorem Turn.checked_thrown {s' : CByteStream} {e : CPduException} (hle : s.pos ≤ s'.pos) :
    Turn.Checked ⟨s, g, .error (.thrown e), s'⟩ := ⟨.inl ⟨e, rfl⟩, hle⟩

theorem Turn.checked_inside {r : Returned} {s' : CByteStream} (hr : r.Inside s)
    (hle : s.pos ≤ s'.pos) : Turn.Checked ⟨s, g, .ok r, s'⟩ := ⟨.inr ⟨r, rfl, hr⟩, hle⟩

theorem Turn.not_checked_undefined {s' : CByteStream} :
    ¬ Turn.Checked ⟨s, g, .error .undefined, s'⟩ := by
  rintro ⟨⟨e, he⟩ | ⟨r, hr, -⟩, -⟩
  · exact absurd (Except.error.inj he) nofun
  · exact absurd hr nofun

/-- The step lemma: a call is checked if and only if none of its sums wraps. -/
theorem Over.checked_iff (h : Over bytes s) (hword : bytes.length < wordSize) :
    (turnOf s g).Checked ↔ (turnOf s g).Fits := by
  have hlen := h.len
  have hsize := wordSize_eq
  cases hg : g.isBlob with
  | false =>
      have hfits : (turnOf s g).Fits ↔ s.pos + g.size < wordSize :=
        and_iff_left fun hblob => absurd (hblob.symm.trans hg) nofun
      rw [hfits]
      rcases h.number_cases hword hg with ⟨hle, data, ht⟩ | ⟨-, hfit, e, ht⟩ | ⟨hwrap, ht⟩
      · rw [ht]
        exact iff_of_true (Turn.checked_inside hle (Nat.le_add_right _ _)) (by omega)
      · rw [ht]
        exact iff_of_true (Turn.checked_thrown (Nat.le_refl _)) hfit
      · rw [ht]
        exact iff_of_false Turn.not_checked_undefined (Nat.not_lt.mpr hwrap)
  | true =>
      have hfits : (turnOf s g).Fits ↔ s.pos + 4 < wordSize ∧
          (s.pos + 4 ≤ s.len → s.pos + 4 + s.lengthAt < wordSize) := by
        show s.pos + g.size < wordSize ∧ (g.isBlob → _) ↔ _
        rw [Get.size_of_isBlob hg, hg]
        exact and_congr_right fun _ => ⟨fun h => h rfl, fun h _ => h⟩
      rw [hfits]
      rcases h.blob_cases hword hg with ⟨hlt, hfit, e, ht⟩ | ⟨hwrap, ht⟩ | ⟨hin, ht⟩ |
        ⟨hout, hfit, hle, e, ht⟩ | ⟨hwrap, hle, ht⟩
      · rw [ht]
        exact iff_of_true (Turn.checked_thrown (Nat.le_refl _))
          ⟨hfit, fun hle => absurd hle (Nat.not_le.mpr hlt)⟩
      · rw [ht]
        exact iff_of_false Turn.not_checked_undefined fun h => absurd h.1 (Nat.not_lt.mpr hwrap)
      · rw [ht]
        exact iff_of_true (Turn.checked_inside hin (by dsimp only; omega))
          ⟨by omega, fun _ => by omega⟩
      · rw [ht]
        exact iff_of_true (Turn.checked_thrown (by dsimp only; omega)) ⟨by omega, fun _ => hfit⟩
      · rw [ht]
        refine iff_of_false ?_ fun h => absurd (h.2 hle) (Nat.not_lt.mpr hwrap)
        rintro ⟨⟨e, he⟩ | ⟨r, hr, hinside⟩, -⟩
        · exact absurd he nofun
        · -- the bytes that are promised would end behind the buffer
          obtain rfl := Except.ok.inj hr
          have hend : s.pos + 4 + s.lengthAt ≤ s.len := hinside
          omega

theorem Over.moved (h : Over bytes s) (hword : n < wordSize) (hread : n ≤ s.len ∨ 4 ≤ s.len) :
    Over bytes { s with pos := n } := ⟨h.buf, h.len, hword, hread⟩

/-- Whatever a call does, the stream is still one over the same bytes. -/
theorem Over.after (h : Over bytes s) (hword : bytes.length < wordSize) :
    Over bytes (turnOf s g).after := by
  have hlen := h.len
  have hpos := h.word
  have hsize := wordSize_eq
  cases hg : g.isBlob with
  | false =>
      rcases h.number_cases hword hg with ⟨hle, data, ht⟩ | ⟨-, -, e, ht⟩ | ⟨-, ht⟩
      · rw [ht]
        exact h.moved (by omega) (.inl hle)
      · rw [ht]
        exact h
      · rw [ht]
        exact h
  | true =>
      rcases h.blob_cases hword hg with ⟨-, -, e, ht⟩ | ⟨-, ht⟩ | ⟨hin, ht⟩ |
        ⟨hout, hfit, hle, e, ht⟩ | ⟨hwrap, hle, ht⟩
      · rw [ht]
        exact h
      · rw [ht]
        exact h
      · rw [ht]
        exact h.moved (by omega) (.inl hin)
      · rw [ht]
        exact h.moved hfit (.inr (by omega))
      · have hnum : s.lengthAt < wordSize := by
          rw [h.lengthAt]
          exact Nat.lt_of_lt_of_eq (bigEndian_lt _) (by rw [length_field (hlen ▸ hle)]; rfl)
        rw [ht]
        exact h.moved (by omega) (.inl (by omega))

/-- The run lemma. -/
theorem Over.checked_turns (h : Over bytes s) (hword : bytes.length < wordSize) (gets : List Get) :
    (∀ t ∈ turns s gets, t.Checked) ↔ ∀ t ∈ turns s gets, t.Fits := by
  induction gets generalizing s with
  | nil => exact iff_of_true (List.forall_mem_nil _) (List.forall_mem_nil _)
  | cons g gets ih =>
      rw [turns, List.forall_mem_cons, List.forall_mem_cons]
      exact and_congr (h.checked_iff hword) (ih (h.after hword))

end

/-- `CByteStream(buf, len)`. -/
def CByteStream.ofBytes (bytes : List UInt8) : CByteStream := ⟨bytes.map some, bytes.length, 0⟩

theorem Over.ofBytes (bytes : List UInt8) : Over bytes (CByteStream.ofBytes bytes) :=
  ⟨rfl, rfl, Nat.two_pow_pos 32, .inl (Nat.zero_le _)⟩

/--
**A stream over a buffer rejects what is cut off, if and only if no position wraps**: in every
sequence of calls each one throws or returns what is inside the buffer and none moves the stream
back, exactly when the sums that the calls compute are below `2 ^ 32`.
-/
theorem checked_turns_iff (bytes : List UInt8) (gets : List Get) (hlen : bytes.length < 2 ^ 31) :
    (∀ t ∈ turns (.ofBytes bytes) gets, t.Checked) ↔
      ∀ t ∈ turns (.ofBytes bytes) gets, t.Fits :=
  (Over.ofBytes bytes).checked_turns (Nat.lt_trans hlen (by decide)) gets

/-- A string of one byte, and then nothing. -/
def oneByte : List UInt8 := [0, 0, 0, 1, 97]

theorem checked_turns_iff_oneByte : oneByte.length < 2 ^ 31 ∧
    ((∀ t ∈ turns (.ofBytes oneByte) [.string, .int8], t.Checked) ↔
      ∀ t ∈ turns (.ofBytes oneByte) [.string, .int8], t.Fits) :=
  ⟨by decide, checked_turns_iff oneByte [.string, .int8] (by decide)⟩

/-- A string of `2 ^ 32 - 1` bytes in a buffer that holds its length and nothing else. -/
theorem longest_string_unchecked : ¬ ∀ bytes gets, bytes.length < 2 ^ 31 →
    ∀ t ∈ turns (.ofBytes bytes) gets, t.Checked := by
  intro h
  have hchecked := h [255, 255, 255, 255] [.string] (by decide)
  have hfits := ((Over.ofBytes _).checked_turns (by decide) _).mp hchecked _ List.mem_cons_self
  exact absurd (hfits.2 rfl (Nat.le_refl 4)) (by decide)

end CppTrack.IM
