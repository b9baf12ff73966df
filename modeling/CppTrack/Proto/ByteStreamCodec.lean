import CppTrack.Lib.BigEndian
import CppTrack.Proto.ByteStream
import CppTrack.Proto.ImPduRead

/-!
# What is put into a stream is read back

`encode` is the bytes that a call leaves behind, whatever the stream is made over: all that is said
about the two kinds of stream is how `_WriteByte` appends to them. The reader is then taken through
a string of such bytes from one value to the next.
-/

namespace CppTrack.IM

open Lib

/-- The bytes of a string or of data. -/
def blobBytes (blob : List UInt8) : List UInt8 := toBigEndian 4 blob.length ++ blob

namespace Put

/-- The bytes that the call writes. -/
def encode : Put → List UInt8
  | .int8 v => [v.toUInt8]
  | .uint8 v => [v]
  | .int16 v => toBigEndian 2 v.toUInt16.toNat
  | .uint16 v => toBigEndian 2 v.toNat
  | .int32 v => toBigEndian 4 v.toUInt32.toNat
  | .uint32 v => toBigEndian 4 v.toNat
  | .cstring none => blobBytes []
  | .cstring (some str) => blobBytes str.val
  | .string str => blobBytes str
  | .data bytes => blobBytes bytes

/-- How many they are. -/
def size : Put → Nat
  | .int8 _ => 1
  | .uint8 _ => 1
  | .int16 _ => 2
  | .uint16 _ => 2
  | .int32 _ => 4
  | .uint32 _ => 4
  | .cstring none => 4
  | .cstring (some str) => 4 + str.val.length
  | .string str => 4 + str.length
  | .data bytes => 4 + bytes.length

/-- The value that is written. A null pointer stands for the empty string. -/
def value : Put → Value
  | .int8 v => .int8 v
  | .uint8 v => .uint8 v
  | .int16 v => .int16 v
  | .uint16 v => .uint16 v
  | .int32 v => .int32 v
  | .uint32 v => .uint32 v
  | .cstring none => .string []
  | .cstring (some str) => .string (str.val.map some)
  | .string str => .string (str.map some)
  | .data bytes => .data (bytes.map some)

/-- The call that reads it. -/
def reader : Put → Get
  | .int8 _ => .int8
  | .uint8 _ => .uint8
  | .int16 _ => .int16
  | .uint16 _ => .uint16
  | .int32 _ => .int32
  | .uint32 _ => .uint32
  | .cstring _ => .string
  | .string _ => .string
  | .data _ => .data

theorem length_encode (p : Put) : p.encode.length = p.size := by
  rcases p with _ | _ | _ | _ | _ | _ | (_ | _) | _ | _ <;> simp [encode, size, blobBytes]

end Put

theorem length_encodes (puts : List Put) :
    (puts.flatMap Put.encode).length = (puts.map Put.size).sum := by
  rw [List.length_flatMap]
  simp only [Put.length_encode]

/-! ## The bytes of a number -/

section

/-- A shift that keeps the sign brings down the same bits, where there are enough of them. -/
theorem setWidth_sshiftRight {w s k : Nat} (x : BitVec w) (h : s + k ≤ w) :
    (x.sshiftRight s).setWidth k = (x >>> s).setWidth k := by
  ext i hi
  have hlt : s + i < w := by omega
  simp [BitVec.getLsbD_sshiftRight, hlt, show ¬ w ≤ i by omega]

theorem uint16_bytes (data : UInt16) :
    [(data >>> 8).toUInt8, (data &&& 0xFF).toUInt8] = toBigEndian 2 data.toNat := by
  have hhigh : (data >>> 8).toUInt8 = UInt8.ofNat (data.toNat / 256) := by
    apply UInt8.toNat_inj.mp
    simp [Nat.shiftRight_eq_div_pow]
  have hlow : (data &&& 0xFF).toUInt8 = UInt8.ofNat data.toNat := by
    apply UInt8.toNat_inj.mp
    show (data.toNat &&& 255) % 256 = data.toNat % 256
    rw [show 255 = 2 ^ 8 - 1 from rfl, Nat.and_two_pow_sub_one_eq_mod]
    exact Nat.mod_mod _ _
  rw [hhigh, hlow]
  simp [toBigEndian]

theorem toUInt8_and (n : UInt32) : (n &&& 0xFF).toUInt8 = n.toUInt8 := by
  apply UInt8.toNat_inj.mp
  show (n.toNat &&& 255) % 256 = n.toNat % 256
  rw [show 255 = 2 ^ 8 - 1 from rfl, Nat.and_two_pow_sub_one_eq_mod]
  exact Nat.mod_mod _ _

theorem uint32_bytes (data : UInt32) :
    [(data >>> 24).toUInt8, (data >>> 16 &&& 0xFF).toUInt8, (data >>> 8 &&& 0xFF).toUInt8,
      (data &&& 0xFF).toUInt8] = toBigEndian 4 data.toNat := by
  have hshift : ∀ k : UInt32, k.toNat < 32 →
      (data >>> k).toUInt8 = UInt8.ofNat (data.toNat / 2 ^ k.toNat) := by
    intro k hk
    apply UInt8.toNat_inj.mp
    simp [Nat.shiftRight_eq_div_pow, Nat.mod_eq_of_lt hk]
  have hlow : data.toUInt8 = UInt8.ofNat data.toNat := by
    apply UInt8.toNat_inj.mp
    simp
  rw [toUInt8_and, toUInt8_and, toUInt8_and, hshift 24 (by decide), hshift 16 (by decide),
    hshift 8 (by decide), hlow]
  simp [toBigEndian]

/-- The bytes of an `int16_t` are those of the `uint16_t` with the same bits. -/
theorem int16_bytes (data : Int16) :
    [(data >>> 8).toUInt16.toUInt8, (data &&& 0xFF).toUInt16.toUInt8] =
      toBigEndian 2 data.toUInt16.toNat := by
  have hhigh : (data >>> 8).toUInt16.toUInt8 = (data.toUInt16 >>> 8).toUInt8 :=
    UInt8.toBitVec_inj.mp (setWidth_sshiftRight data.toBitVec (s := 8) (k := 8) (by decide))
  rw [hhigh]
  exact uint16_bytes data.toUInt16

theorem int32_bytes (data : Int32) :
    [(data >>> 24).toUInt32.toUInt8, (data >>> 16 &&& 0xFF).toUInt32.toUInt8,
      (data >>> 8 &&& 0xFF).toUInt32.toUInt8, (data &&& 0xFF).toUInt32.toUInt8] =
      toBigEndian 4 data.toUInt32.toNat := by
  have hbyte : ∀ n : Int32, (n &&& 0xFF).toUInt32.toUInt8 = n.toUInt32.toUInt8 :=
    fun n => toUInt8_and n.toUInt32
  have h24 : (data >>> 24).toUInt32.toUInt8 = (data.toUInt32 >>> 24).toUInt8 :=
    UInt8.toBitVec_inj.mp (setWidth_sshiftRight data.toBitVec (s := 24) (k := 8) (by decide))
  have h16 : (data >>> 16).toUInt32.toUInt8 = (data.toUInt32 >>> 16).toUInt8 :=
    UInt8.toBitVec_inj.mp (setWidth_sshiftRight data.toBitVec (s := 16) (k := 8) (by decide))
  have h8 : (data >>> 8).toUInt32.toUInt8 = (data.toUInt32 >>> 8).toUInt8 :=
    UInt8.toBitVec_inj.mp (setWidth_sshiftRight data.toBitVec (s := 8) (k := 8) (by decide))
  rw [← uint32_bytes, hbyte, hbyte, hbyte, h24, h16, h8, toUInt8_and, toUInt8_and, toUInt8_and]

theorem ofNat_toUInt16 (data : Int16) : Int16.ofNat data.toUInt16.toNat = data :=
  Int16.toBitVec_inj.mp (BitVec.ofNat_toNat 16 data.toBitVec)

theorem ofNat_toUInt32 (data : Int32) : Int32.ofNat data.toUInt32.toNat = data :=
  Int32.toBitVec_inj.mp (BitVec.ofNat_toNat 32 data.toBitVec)

end

/-! ## Writing -/

theorem strlen_memory (str : CString) : strlen str.memory = .ok str.val.length := by
  obtain ⟨str, hstr⟩ := str
  show strlen (str.map some ++ [some 0]) = .ok str.length
  induction str with
  | nil => rfl
  | cons c str ih =>
      have hc : c ≠ 0 := fun hc => hstr (hc ▸ List.mem_cons_self)
      have hrest := ih fun hmem => hstr (List.mem_cons_of_mem _ hmem)
      show (if c = 0 then pure 0 else do pure (1 + (← strlen (str.map some ++ [some 0])))) = _
      rw [if_neg hc, hrest, ok_bind, List.length_cons, Nat.add_comm]
      rfl

/-- The stream has had these bytes put into it, behind the cells `pre` if it is over a buffer, and
has room for `room` bytes in all. -/
def Wrote (pre : List Cell) (room : Nat) (bytes : List UInt8) : OutStream → Prop
  | .memory s => pre = [] ∧ s.pos = bytes.length ∧ bytes.map some <+: s.buf ∧ room ≤ s.len ∧
      s.len ≤ s.buf.length ∧ s.len < wordSize
  | .buffer b _ => Holds b (pre ++ bytes.map some) ∧ pre.length + room < 2 ^ 31

section

variable {out : OutStream} {pre : List Cell} {room : Nat} {done : List UInt8}

/-- All that is said about the two kinds of stream. -/
theorem Wrote.writeByte (h : Wrote pre room done out) (src : List UInt8) (tail : List Cell)
    (hroom : done.length + src.length ≤ room) :
    ∃ out', out.writeByte (some (src.map some ++ tail)) src.length = .ok out' ∧
      Wrote pre room (done ++ src) out' := by
  have hsrc : copyOut (src.map some ++ tail) 0 src.length = some (src.map some) := by
    rw [copyOut_bytes (List.prefix_append _ _) (by omega), List.drop_zero, List.take_length]
  cases out with
  | memory s =>
      obtain ⟨hpre, hpos, ⟨rest, hrest⟩, hlen, hmem, hword⟩ := h
      have hsum : addU32 s.pos src.length = done.length + src.length := by
        rw [hpos, addU32, Nat.mod_eq_of_lt (by omega)]
      have hlong : src.length ≤ rest.length := by
        rw [← hrest, List.length_append, List.length_map] at hmem
        omega
      have hcopy : copyTo s.buf s.pos (src.map some) =
          some ((done ++ src).map some ++ rest.drop src.length) := by
        rw [← hrest, copyTo_behind (hpos.trans (List.length_map _).symm)
          (by rwa [List.length_map]), List.length_map, List.map_append]
      have hlong' := length_copyTo hcopy
      refine ⟨.memory { s with
        buf := (done ++ src).map some ++ rest.drop src.length
        pos := done.length + src.length }, ?_, hpre, ?_, List.prefix_append _ _, hlen, ?_, hword⟩
      · unfold OutStream.writeByte
        dsimp only
        rw [hsum, if_neg (by omega), Option.getD_some, hsrc, Option.bind_some, hcopy]
        rfl
      · exact List.length_append.symm
      · exact hlong'.symm ▸ hmem
  | buffer b pos =>
      obtain ⟨hb, hword⟩ := h
      have hfit : grown ((pre ++ done.map some).length + src.length) < wordSize :=
        grown_lt (by rw [List.length_append, List.length_map]; omega)
      have hall : src.length ≤ (src.map some ++ tail).length := by
        rw [List.length_append, List.length_map]
        exact Nat.le_add_right _ _
      obtain ⟨b', hwrite, hb'⟩ := hb.write hall hfit
      rw [List.take_left' (List.length_map _), List.append_assoc, ← List.map_append] at hb'
      refine ⟨.buffer b' (addU32 pos src.length), ?_, hb', hword⟩
      show (b.write _ _ >>= _) = _
      rw [hwrite]
      rfl

theorem Wrote.writeBytes (h : Wrote pre room done out) (src : List UInt8)
    (hroom : done.length + src.length ≤ room) :
    ∃ out', out.writeBytes src = .ok out' ∧ Wrote pre room (done ++ src) out' := by
  have hwrite := h.writeByte src [] hroom
  rw [List.append_nil] at hwrite
  exact hwrite

/-- Nothing is read through a null pointer. -/
theorem Wrote.writeNull (h : Wrote pre room done out) (hroom : done.length ≤ room) :
    ∃ out', out.writeByte none 0 = .ok out' ∧ Wrote pre room done out' := by
  cases out with
  | memory s =>
      obtain ⟨hpre, hpos, hdone, hlen, hmem, hword⟩ := h
      have hsum : addU32 s.pos 0 = done.length := by
        rw [hpos, addU32, Nat.add_zero, Nat.mod_eq_of_lt (by omega)]
      have hcopy : copyTo s.buf s.pos [] = some s.buf := copyTo_nil (by omega)
      refine ⟨.memory { s with pos := done.length }, ?_, hpre, rfl, hdone, hlen, hmem, hword⟩
      unfold OutStream.writeByte
      dsimp only
      rw [hsum, if_neg (by omega)]
      show (defined (copyTo s.buf s.pos []) >>= _) = _
      rw [hcopy]
      rfl
  | buffer b pos =>
      obtain ⟨hb, hword⟩ := h
      have hfit : grown ((pre ++ done.map some).length + 0) < wordSize :=
        grown_lt (by rw [List.length_append, List.length_map]; omega)
      obtain ⟨b', src, hwrite, hsrc, hb'⟩ := hb.skip hfit
      rw [List.length_eq_zero_iff.mp hsrc, List.append_nil] at hb'
      refine ⟨.buffer b' (addU32 pos 0), ?_, hb', hword⟩
      show (b.write none 0 >>= _) = _
      rw [hwrite]
      rfl

theorem Wrote.putUint32 (h : Wrote pre room done out) (data : UInt32)
    (hroom : done.length + 4 ≤ room) :
    ∃ out', out.putUint32 data = .ok out' ∧
      Wrote pre room (done ++ toBigEndian 4 data.toNat) out' := by
  unfold OutStream.putUint32
  rw [uint32_bytes]
  exact h.writeBytes _ (by rwa [length_toBigEndian])

theorem Wrote.writeBlob (h : Wrote pre room done out) (blob : List UInt8) (tail : List Cell)
    (hroom : done.length + (4 + blob.length) ≤ room) (hlen : blob.length < 2 ^ 32) :
    ∃ out', out.writeBlob (some (blob.map some ++ tail)) (UInt32.ofNat blob.length) = .ok out' ∧
      Wrote pre room (done ++ blobBytes blob) out' := by
  have hnat : (UInt32.ofNat blob.length).toNat = blob.length := UInt32.toNat_ofNat_of_lt hlen
  obtain ⟨out₁, hput, h₁⟩ := h.putUint32 (UInt32.ofNat blob.length) (by omega)
  rw [hnat] at h₁
  obtain ⟨out₂, hwrite, h₂⟩ := h₁.writeByte blob tail
    (by rw [List.length_append, length_toBigEndian]; omega)
  refine ⟨out₂, ?_, ?_⟩
  · unfold OutStream.writeBlob
    rw [hput, ok_bind, hnat]
    exact hwrite
  · rwa [List.append_assoc] at h₂

/-- A call appends its bytes. -/
theorem Wrote.put (h : Wrote pre room done out) (p : Put)
    (hroom : done.length + p.size ≤ room) (hword : p.size < 2 ^ 32) :
    ∃ out', out.put p = .ok out' ∧ Wrote pre room (done ++ p.encode) out' := by
  have hbytes : ∀ src : List UInt8, src.length = p.size →
      ∃ out', out.writeBytes src = .ok out' ∧ Wrote pre room (done ++ src) out' :=
    fun src hsrc => h.writeBytes src (hsrc ▸ hroom)
  have hblob : ∀ (blob : List UInt8) (tail : List Cell), p.size = 4 + blob.length →
      ∃ out', out.writeBlob (some (blob.map some ++ tail)) (UInt32.ofNat blob.length) = .ok out' ∧
        Wrote pre room (done ++ blobBytes blob) out' := by
    intro blob tail hsize
    exact h.writeBlob blob tail (by omega) (by omega)
  cases p with
  | int8 data => exact hbytes _ rfl
  | uint8 data => exact hbytes _ rfl
  | int16 data =>
      show ∃ out', out.writeBytes _ = .ok out' ∧ Wrote pre room (done ++ toBigEndian 2 _) out'
      rw [int16_bytes]
      exact hbytes _ (length_toBigEndian _ _)
  | uint16 data =>
      show ∃ out', out.writeBytes _ = .ok out' ∧ Wrote pre room (done ++ toBigEndian 2 _) out'
      rw [uint16_bytes]
      exact hbytes _ (length_toBigEndian _ _)
  | int32 data =>
      show ∃ out', out.writeBytes _ = .ok out' ∧ Wrote pre room (done ++ toBigEndian 4 _) out'
      rw [int32_bytes]
      exact hbytes _ (length_toBigEndian _ _)
  | uint32 data => exact h.putUint32 data hroom
  | cstring str =>
      cases str with
      | none =>
          obtain ⟨out₁, hput, h₁⟩ := h.putUint32 0 hroom
          obtain ⟨out₂, hwrite, h₂⟩ := h₁.writeNull
            (by rw [List.length_append, length_toBigEndian]; exact hroom)
          refine ⟨out₂, ?_, h₂⟩
          show (out.putUint32 0 >>= _) = _
          rw [hput]
          exact hwrite
      | some str =>
          obtain ⟨out', hwrite, h'⟩ := hblob str.val [some 0] rfl
          refine ⟨out', ?_, h'⟩
          show (strlen str.memory >>= _) = _
          rw [strlen_memory]
          exact hwrite
  | string str =>
      obtain ⟨out', hwrite, h'⟩ := hblob str [] rfl
      rw [List.append_nil] at hwrite
      exact ⟨out', hwrite, h'⟩
  | data bytes =>
      obtain ⟨out', hwrite, h'⟩ := hblob bytes [] rfl
      rw [List.append_nil] at hwrite
      exact ⟨out', hwrite, h'⟩

theorem Wrote.puts (h : Wrote pre room done out) (puts : List Put)
    (hroom : done.length + (puts.map Put.size).sum ≤ room) (hword : room < 2 ^ 32) :
    ∃ out', puts.foldlM OutStream.put out = .ok out' ∧
      Wrote pre room (done ++ puts.flatMap Put.encode) out' := by
  induction puts generalizing out done with
  | nil => exact ⟨out, rfl, (List.append_nil done).symm ▸ h⟩
  | cons p puts ih =>
      rw [List.map_cons, List.sum_cons] at hroom
      obtain ⟨out₁, hput, h₁⟩ := h.put p (by omega) (by omega)
      obtain ⟨out', hputs, h'⟩ := ih h₁ (by rw [List.length_append, p.length_encode]; omega)
      refine ⟨out', ?_, ?_⟩
      · rw [List.foldlM_cons, hput]
        exact hputs
      · rwa [List.append_assoc, ← List.flatMap_cons] at h'

end

/-! ## Reading -/

section

variable {done mid rest : List UInt8} {buf : List Cell} {len : Nat}

/-- A reader of memory that begins with `done ++ (mid ++ rest)`, behind `done`. -/
structure Behind (done mid rest : List UInt8) (buf : List Cell) (len : Nat) : Prop where
  bytes : (done ++ (mid ++ rest)).map some <+: buf
  all : len = (done ++ (mid ++ rest)).length
  word : len < wordSize

theorem Behind.le (h : Behind done mid rest buf len) : done.length + mid.length ≤ len := by
  rw [h.all]
  simp only [List.length_append]
  omega

theorem Behind.copyOut (h : Behind done mid rest buf len) :
    copyOut buf done.length mid.length = some (mid.map some) := by
  rw [copyOut_bytes h.bytes (h.all ▸ h.le), List.drop_left, List.take_left]

theorem Behind.readByte (h : Behind done mid rest buf len) :
    CByteStream.readByte ⟨buf, len, done.length⟩ mid.length =
      .ok (mid.map some, ⟨buf, len, done.length + mid.length⟩) := by
  rw [readByte_bytes h.bytes (h.all ▸ h.le) h.le h.word, List.drop_left, List.take_left]

theorem Behind.skip (h : Behind done mid rest buf len) :
    CByteStream.skip ⟨buf, len, done.length⟩ mid.length =
      .ok ⟨buf, len, done.length + mid.length⟩ := by
  have hadd : addU32 done.length mid.length = done.length + mid.length :=
    Nat.mod_eq_of_lt (Nat.lt_of_le_of_lt h.le h.word)
  unfold CByteStream.skip
  dsimp only
  rw [hadd, if_neg (Nat.not_lt.mpr h.le)]
  rfl

/-- Past what has been read. -/
theorem Behind.next {mid' : List UInt8} (h : Behind done (mid ++ mid') rest buf len) :
    Behind (done ++ mid) mid' rest buf len := by
  have hassoc : done ++ mid ++ (mid' ++ rest) = done ++ (mid ++ mid' ++ rest) := by
    simp only [List.append_assoc]
  exact ⟨hassoc ▸ h.bytes, hassoc ▸ h.all, h.word⟩

theorem joinUint16_cells {n : Nat} (hn : n < 2 ^ 16) :
    joinUint16 ((toBigEndian 2 n).map some) = .ok n := by
  rw [joinUint16_bytes (length_toBigEndian _ _), bigEndian_toBigEndian,
    Nat.mod_eq_of_lt (show n < 256 ^ 2 from hn)]

theorem joinUint32_cells {n : Nat} (hn : n < 2 ^ 32) :
    joinUint32 ((toBigEndian 4 n).map some) = .ok n := by
  rw [joinUint32_bytes (length_toBigEndian _ _), bigEndian_toBigEndian,
    Nat.mod_eq_of_lt (show n < 256 ^ 4 from hn)]

theorem Behind.getUint16 {n : Nat} (h : Behind done (toBigEndian 2 n) rest buf len)
    (hn : n < 2 ^ 16) : CByteStream.getUint16 ⟨buf, len, done.length⟩ =
      .ok (n, ⟨buf, len, done.length + 2⟩) := by
  have hread := h.readByte
  rw [length_toBigEndian] at hread
  unfold CByteStream.getUint16
  rw [hread, ok_bind]
  dsimp only
  rw [joinUint16_cells hn]
  rfl

theorem Behind.getUint32 {n : Nat} (h : Behind done (toBigEndian 4 n) rest buf len)
    (hn : n < 2 ^ 32) : CByteStream.getUint32 ⟨buf, len, done.length⟩ =
      .ok (n, ⟨buf, len, done.length + 4⟩) := by
  have hread := h.readByte
  rw [length_toBigEndian] at hread
  unfold CByteStream.getUint32
  rw [hread, ok_bind]
  dsimp only
  rw [joinUint32_cells hn]
  rfl

theorem Behind.getInt16 {n : Nat} (h : Behind done (toBigEndian 2 n) rest buf len)
    (hn : n < 2 ^ 16) : CByteStream.getInt16 ⟨buf, len, done.length⟩ =
      .ok (Int16.ofNat n, ⟨buf, len, done.length + 2⟩) := by
  have hread := h.readByte
  rw [length_toBigEndian] at hread
  unfold CByteStream.getInt16
  rw [hread, ok_bind]
  dsimp only
  rw [joinUint16_cells hn]
  rfl

theorem Behind.getInt32 {n : Nat} (h : Behind done (toBigEndian 4 n) rest buf len)
    (hn : n < 2 ^ 32) : CByteStream.getInt32 ⟨buf, len, done.length⟩ =
      .ok (Int32.ofNat n, ⟨buf, len, done.length + 4⟩) := by
  have hread := h.readByte
  rw [length_toBigEndian] at hread
  unfold CByteStream.getInt32
  rw [hread, ok_bind]
  dsimp only
  rw [joinUint32_cells hn]
  rfl

theorem Behind.getUint8 {data : UInt8} (h : Behind done [data] rest buf len) :
    CByteStream.getUint8 ⟨buf, len, done.length⟩ = .ok (data, ⟨buf, len, done.length + 1⟩) := by
  have hread := h.readByte
  unfold CByteStream.getUint8
  rw [List.length_singleton] at hread
  rw [hread]
  rfl

/-- The length is read first; the bytes are those that are then skipped. -/
theorem Behind.readBlob {blob : List UInt8} (h : Behind done (blobBytes blob) rest buf len) :
    CByteStream.readBlob ⟨buf, len, done.length⟩ =
      .ok (blob.map some, ⟨buf, len, done.length + (4 + blob.length)⟩) := by
  have h₄ : Behind done (toBigEndian 4 blob.length) (blob ++ rest) buf len := by
    have hassoc : blobBytes blob ++ rest = toBigEndian 4 blob.length ++ (blob ++ rest) :=
      List.append_assoc ..
    exact ⟨hassoc ▸ h.bytes, hassoc ▸ h.all, h.word⟩
  have hlt : blob.length < 2 ^ 32 := by
    have hle := h.le
    have hword := h.word
    rw [blobBytes, List.length_append, length_toBigEndian] at hle
    exact Nat.lt_of_le_of_lt (by omega) hword
  have hblob : Behind (done ++ toBigEndian 4 blob.length) blob rest buf len := Behind.next h
  have hpos : (done ++ toBigEndian 4 blob.length).length = done.length + 4 := by
    rw [List.length_append, length_toBigEndian]
  have hskip := hblob.skip
  have hcopy := hblob.copyOut
  rw [hpos] at hskip hcopy
  unfold CByteStream.readBlob
  rw [h₄.getUint32 hlt, ok_bind]
  dsimp only
  rw [hskip, ok_bind, hcopy, defined_some, ok_bind, Nat.add_assoc]
  rfl

/-- The matching call reads the value back. -/
theorem Behind.get {p : Put} (h : Behind done p.encode rest buf len) :
    CByteStream.get ⟨buf, len, done.length⟩ p.reader =
      .ok (p.value, ⟨buf, len, done.length + p.size⟩) := by
  have hstring : ∀ blob : List UInt8, Behind done (blobBytes blob) rest buf len →
      CByteStream.get ⟨buf, len, done.length⟩ .string =
        .ok (.string (blob.map some), ⟨buf, len, done.length + (4 + blob.length)⟩) := by
    intro blob hblob
    show (CByteStream.readBlob _ >>= _) = _
    rw [hblob.readBlob]
    rfl
  cases p with
  | int8 data =>
      show (CByteStream.getUint8 _ >>= _) >>= _ = _
      rw [Behind.getUint8 h]
      rfl
  | uint8 data =>
      show (CByteStream.getUint8 _ >>= _) = _
      rw [Behind.getUint8 h]
      rfl
  | int16 data =>
      show (CByteStream.getInt16 _ >>= _) = _
      rw [Behind.getInt16 h (UInt16.toNat_lt _), ofNat_toUInt16]
      rfl
  | uint16 data =>
      show (CByteStream.getUint16 _ >>= _) = _
      rw [Behind.getUint16 h (UInt16.toNat_lt _), ok_bind]
      dsimp only
      rw [UInt16.ofNat_toNat]
      rfl
  | int32 data =>
      show (CByteStream.getInt32 _ >>= _) = _
      rw [Behind.getInt32 h (UInt32.toNat_lt _), ofNat_toUInt32]
      rfl
  | uint32 data =>
      show (CByteStream.getUint32 _ >>= _) = _
      rw [Behind.getUint32 h (UInt32.toNat_lt _), ok_bind]
      dsimp only
      rw [UInt32.ofNat_toNat]
      rfl
  | cstring str =>
      cases str with
      | none => exact hstring [] h
      | some str => exact hstring str.val h
  | string str => exact hstring str h
  | data bytes =>
      show (CByteStream.readBlob _ >>= _) = _
      rw [Behind.readBlob h]
      rfl

theorem getAll_encodes (puts : List Put)
    (h : Behind done (puts.flatMap Put.encode) rest buf len) :
    CByteStream.getAll ⟨buf, len, done.length⟩ (puts.map Put.reader) =
      .ok (puts.map Put.value, ⟨buf, len, done.length + (puts.map Put.size).sum⟩) := by
  induction puts generalizing done with
  | nil => rfl
  | cons p puts ih =>
      have hp : Behind done p.encode (puts.flatMap Put.encode ++ rest) buf len := by
        have hassoc : (p :: puts).flatMap Put.encode ++ rest =
            p.encode ++ (puts.flatMap Put.encode ++ rest) := by
          rw [List.flatMap_cons, List.append_assoc]
        exact ⟨hassoc ▸ h.bytes, hassoc ▸ h.all, h.word⟩
      have hrest : Behind (done ++ p.encode) (puts.flatMap Put.encode) rest buf len :=
        Behind.next h
      have hnext := ih hrest
      rw [List.length_append, p.length_encode] at hnext
      show (CByteStream.get _ p.reader >>= _) = _
      rw [hp.get, ok_bind]
      dsimp only
      rw [hnext, ok_bind, List.map_cons, List.map_cons, List.sum_cons, Nat.add_assoc]
      rfl

end

/-- A reader of just the written bytes finds the values that were put. -/
theorem getAll_written {puts : List Put} {buf : List Cell}
    (hbuf : (puts.flatMap Put.encode).map some <+: buf)
    (hword : (puts.map Put.size).sum < wordSize) :
    CByteStream.getAll ⟨buf, (puts.map Put.size).sum, 0⟩ (puts.map Put.reader) =
      .ok (puts.map Put.value, ⟨buf, (puts.map Put.size).sum, (puts.map Put.size).sum⟩) := by
  have h : Behind [] (puts.flatMap Put.encode) [] buf (puts.map Put.size).sum := by
    refine ⟨?_, ?_, hword⟩
    · rwa [List.nil_append, List.append_nil]
    · rw [List.nil_append, List.append_nil, length_encodes]
  have hget := getAll_encodes puts h
  rwa [List.length_nil, Nat.zero_add] at hget

/-- How far a stream has been written. -/
def OutStream.written : OutStream → Nat
  | .memory s => s.pos
  | .buffer b _ => b.writeOffset

section

variable {out : OutStream} {pre : List Cell} {room : Nat} {bytes : List UInt8}

theorem Wrote.written (h : Wrote pre room bytes out) : out.written = pre.length + bytes.length := by
  cases out with
  | memory s =>
      obtain ⟨rfl, hpos, -⟩ := h
      exact hpos.trans (Nat.zero_add _).symm
  | buffer b pos =>
      obtain ⟨hb, -⟩ := h
      exact hb.offset.trans (by rw [List.length_append, List.length_map])

theorem Wrote.mem (h : Wrote pre room bytes out) : bytes.map some <+: out.mem.drop pre.length := by
  cases out with
  | memory s =>
      obtain ⟨rfl, -, hbytes, -⟩ := h
      exact hbytes
  | buffer b pos =>
      obtain ⟨hb, -⟩ := h
      obtain ⟨rest, hrest⟩ := hb.contents
      show _ <+: b.buffer.drop pre.length
      rw [← hrest, List.append_assoc, List.drop_left]
      exact List.prefix_append _ _

/-- What is said of either kind of stream. -/
theorem Wrote.getAll {puts : List Put} (h : Wrote pre (puts.map Put.size).sum [] out)
    (hword : (puts.map Put.size).sum < wordSize) :
    ∃ out', puts.foldlM OutStream.put out = .ok out' ∧
      out'.written = pre.length + (puts.map Put.size).sum ∧
      CByteStream.getAll ⟨out'.mem.drop pre.length, (puts.map Put.size).sum, 0⟩
        (puts.map Put.reader) = .ok (puts.map Put.value,
          ⟨out'.mem.drop pre.length, (puts.map Put.size).sum, (puts.map Put.size).sum⟩) := by
  obtain ⟨out', hputs, h'⟩ := h.puts puts (Nat.le_of_eq (Nat.zero_add _)) hword
  rw [List.nil_append] at h'
  have hwritten := h'.written
  rw [length_encodes] at hwritten
  exact ⟨out', hputs, hwritten, getAll_written h'.mem hword⟩

end

/--
**A stream gives back what was put into it**, over memory with enough room as over a buffer that
holds anything. The reader of as many bytes as were written throws nothing, finds the same values
and ends where the bytes do.
-/
theorem getAll_putAll (puts : List Put) (hsize : (puts.map Put.size).sum < 2 ^ 31) :
    (∀ (mem : List Cell) (len : Nat), len < wordSize → len ≤ mem.length →
      (puts.map Put.size).sum ≤ len →
      ∃ out, puts.foldlM OutStream.put (.ofMemory mem len) = .ok out ∧
        out.written = (puts.map Put.size).sum ∧
        CByteStream.getAll ⟨out.mem, (puts.map Put.size).sum, 0⟩ (puts.map Put.reader) =
          .ok (puts.map Put.value,
            ⟨out.mem, (puts.map Put.size).sum, (puts.map Put.size).sum⟩)) ∧
    (∀ (b : CSimpleBuffer) (cells : List Cell) (pos : Nat), Holds b cells →
      cells.length + (puts.map Put.size).sum < 2 ^ 31 →
      ∃ out, puts.foldlM OutStream.put (.ofBuffer b pos) = .ok out ∧
        out.written = cells.length + (puts.map Put.size).sum ∧
        CByteStream.getAll ⟨out.mem.drop cells.length, (puts.map Put.size).sum, 0⟩
          (puts.map Put.reader) = .ok (puts.map Put.value,
            ⟨out.mem.drop cells.length, (puts.map Put.size).sum, (puts.map Put.size).sum⟩)) := by
  have hword : (puts.map Put.size).sum < wordSize := Nat.lt_trans hsize (by decide)
  constructor
  · intro mem len hlen hmem hroom
    have h : Wrote [] (puts.map Put.size).sum [] (.ofMemory mem len) :=
      ⟨rfl, rfl, List.nil_prefix, hroom, hmem, hlen⟩
    obtain ⟨out, hputs, hwritten, hget⟩ := h.getAll hword
    rw [List.length_nil, Nat.zero_add] at hwritten
    exact ⟨out, hputs, hwritten, hget⟩
  · intro b cells pos hb hroom
    have h : Wrote cells (puts.map Put.size).sum [] (.ofBuffer b pos) := by
      refine ⟨?_, hroom⟩
      rwa [List.map_nil, List.append_nil]
    exact h.getAll hword

/-- A negative number, a string and some data, into just enough memory and into a new buffer. -/
theorem getAll_putAll_login :
    (∃ out, [Put.int16 (-2), .cstring (some ⟨[104, 105], by decide⟩), .data [0, 255]].foldlM
        OutStream.put (.ofMemory (List.replicate 14 none) 14) = .ok out ∧
      out.written = 14 ∧
      CByteStream.getAll ⟨out.mem, 14, 0⟩ [.int16, .string, .data] =
        .ok ([.int16 (-2), .string [some 104, some 105], .data [some 0, some 255]],
          ⟨out.mem, 14, 14⟩)) ∧
    (∃ out, [Put.int16 (-2), .cstring (some ⟨[104, 105], by decide⟩), .data [0, 255]].foldlM
        OutStream.put (.ofBuffer CSimpleBuffer.new 0) = .ok out ∧
      out.written = 14 ∧
      CByteStream.getAll ⟨out.mem, 14, 0⟩ [.int16, .string, .data] =
        .ok ([.int16 (-2), .string [some 104, some 105], .data [some 0, some 255]],
          ⟨out.mem, 14, 14⟩)) := by
  have h := getAll_putAll
    [Put.int16 (-2), .cstring (some ⟨[104, 105], by decide⟩), .data [0, 255]] (by decide)
  exact ⟨h.1 (List.replicate 14 none) 14 (by decide) (by decide) (by decide),
    h.2 CSimpleBuffer.new [] 0 holds_new (by decide)⟩

end CppTrack.IM
