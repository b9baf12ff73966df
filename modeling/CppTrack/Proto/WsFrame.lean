import Mathlib.Tactic.IntervalCases
import CppTrack.Lib.Blocks
import CppTrack.Lib.MaskedFrame

/-!
# Frames of the WebSocket sample (`nty_websocket_server.c`)

`server_reader` receives into an array, `decode_packet` takes the mask off the payload where it
stands, and `encode_packet` writes a frame with the same payload into another array.

The headers are packed and their fields little-endian, as the machine has them: of the second byte
the lower seven bits are `payload_length`, the top one is `mask`. An access outside an array is
`none`.
-/

namespace CppTrack.WsFrame

open Lib

/-- `MAX_BUFFER_LENGTH`, the size of the array that is received into. -/
def maxBufferLength : Nat := 1024

/-- `sizeof(nty_ophdr)`. -/
def ophdrSize : Nat := 2

/-- The first byte of an `nty_ophdr` whose `fin` and `opcode` are 1. -/
def finText : UInt8 := 0x81

/-- A number as it lies in memory. -/
def hostBytes (k n : Nat) : List UInt8 := (toBigEndian k n).reverse

/-- The number that lies in some bytes of memory. -/
def hostNumber (bytes : List UInt8) : Nat := bigEndian bytes.reverse

/-- `hdr->payload_length`. -/
def payloadLength (b : UInt8) : Nat := b.toNat % 128

/-- `hdr->mask`. -/
def maskBit (b : UInt8) : Nat := b.toNat / 128

/-- What becomes of a number that is assigned to an `int`. -/
def toInt (n : Nat) : Int := Int.bmod n (2 ^ 32)

/-! ## Decoding -/

/-- `umask` of `data + pos`, with `n` turns of the loop to go. -/
def umask (mask : List UInt8) (pos : Nat) : (i n : Nat) → (data : List UInt8) →
    Option (List UInt8)
  | _, 0, data => some data
  | i, n + 1, data => do
      let d ← data[pos + i]?
      let m ← mask[i % 4]?
      umask mask pos (i + 1) n (data.set (pos + i) (d ^^^ m))

/-- What `decode_packet` leaves behind: the two arrays, `*ret`, and where its result points. -/
structure Decoded where
  stream : List UInt8
  mask : List UInt8
  ret : Int
  start : Nat

/-- `decode_packet`. -/
def decodePacket (stream mask : List UInt8) : Option Decoded := do
  let hdr ← stream[1]?
  let data := ophdrSize
  let (size, key, start) ←
    if maskBit hdr &&& 0x7F = 126 then do
      let size ← copyOut stream data 2
      let key ← copyOut stream (data + 2) 4
      some (toInt (hostNumber size), key, 8)
    else if maskBit hdr &&& 0x7F = 127 then do
      let size ← copyOut stream data 8
      let key ← copyOut stream (data + 8) 4
      some (toInt (hostNumber size), key, 14)
    else do
      let key ← copyOut stream data 4
      some ((payloadLength hdr : Int), key, 6)
  let mask ← copyTo mask 0 key
  let stream ← umask mask start 0 size.toNat stream
  some { stream, mask, ret := size, start }

/-! ## Encoding -/

/-- The header that `encode_packet` copies into the array. -/
def copyHeader (buffer mask : List UInt8) (length : Int) : Option (List UInt8) :=
  if length < 126 then
    copyTo buffer 0 [finText, UInt8.ofNat (length % 128).toNat]
  else if length < 0xffff then do
    let key ← copyOut mask 0 4
    let hdr := hostBytes 2 length.toNat ++ key ++ List.replicate 8 0
    let buffer ← copyTo buffer 0 [finText, 0]
    copyTo buffer ophdrSize hdr
  else do
    let key ← copyOut mask 0 4
    let hdr := hostBytes 8 length.toNat ++ key ++ List.replicate 8 0
    let buffer ← copyTo buffer 0 [finText, 0]
    copyTo buffer ophdrSize hdr

/-- What `memcpy` takes from the stream. As a `size_t`, a negative length is larger than any
array. -/
def copySource (stream : List UInt8) (length : Int) : Option (List UInt8) :=
  if length < 0 then none else copyOut stream 0 length.toNat

/-- `encode_packet`: the array and what it returns. -/
def encodePacket (buffer mask stream : List UInt8) (length : Int) :
    Option (List UInt8 × Int) := do
  let buffer ← copyHeader buffer mask length
  let payload ← copySource stream length
  let buffer ← copyTo buffer 2 payload
  some (buffer, length + 2)

/-! ## Frames -/

/-- `decode_packet` finds the payload of a masked frame, whatever the array holds behind it. -/
def Decodes (key : MaskKey) (payload rest : List UInt8) : Prop :=
  ∀ mask : MaskKey, ∃ d, decodePacket (maskedFrame key payload ++ rest) mask.bytes = some d ∧
    d.ret = payload.length ∧ copyOut d.stream d.start payload.length = some payload

/-- `encode_packet` writes the frame, returns its size, and the payload can be read from it. -/
def Encodes (buffer : List UInt8) (mask : MaskKey) (payload rest : List UInt8) : Prop :=
  ∃ buffer' size, encodePacket buffer mask.bytes (payload ++ rest) payload.length =
      some (buffer', size) ∧ size = (unmaskedFrame payload).length ∧
    buffer'.take (unmaskedFrame payload).length = unmaskedFrame payload ∧
    readFrame (buffer'.take (unmaskedFrame payload).length) = some payload

section

variable {key : MaskKey} {payload rest : List UInt8}

/-- The mask is put on or taken off where the bytes stand. -/
theorem umask_of (key : MaskKey) (pre body post : List UInt8) (i pos : Nat)
    (hpos : pre.length = pos + i) :
    umask key.bytes pos i body.length (pre ++ (body ++ post)) =
      some (pre ++ (maskFrom key i body ++ post)) := by
  induction body generalizing pre i with
  | nil => rfl
  | cons b body ih =>
      have hd : (pre ++ (b :: body ++ post))[pos + i]? = some b := by
        rw [← hpos, List.getElem?_append_right (Nat.le_refl _), Nat.sub_self]
        rfl
      have hm : key.bytes[i % 4]? = some (key.byte i) := by
        have hlt : i % 4 < key.bytes.length := by
          rw [key.four]
          exact Nat.mod_lt _ (by decide)
        rw [MaskKey.byte, List.getD_eq_getElem?_getD, List.getElem?_eq_getElem hlt]
        rfl
      have hset : (pre ++ (b :: body ++ post)).set (pos + i) (b ^^^ key.byte i) =
          (pre ++ [b ^^^ key.byte i]) ++ (body ++ post) := by
        rw [← hpos, List.set_append_right _ _ (Nat.le_refl _), Nat.sub_self, List.append_assoc]
        rfl
      have hrest := ih (pre ++ [b ^^^ key.byte i]) (i + 1) (by
        rw [List.length_append, hpos, List.length_singleton, Nat.add_assoc])
      rw [List.length_cons, umask, hd, hm, Option.bind_eq_bind, Option.bind_some, Option.bind_some,
        hset, hrest, maskFrom, List.append_assoc]
      rfl

/-- The bit-field `mask` has one bit, so that neither comparison can hold. -/
theorem maskBit_ne (b : UInt8) : maskBit b &&& 0x7F ≠ 126 ∧ maskBit b &&& 0x7F ≠ 127 := by
  have hlt : b.toNat < 256 := b.toNat_lt
  have hbit : maskBit b = 0 ∨ maskBit b = 1 := by
    unfold maskBit
    omega
  rcases hbit with h | h <;> rw [h] <;> decide

/-- Whatever the second byte says, the key is looked for behind it, and the payload behind that. -/
theorem decodePacket_eq {b₀ b₁ : UInt8} {mask m : MaskKey} {body post : List UInt8}
    (hlen : body.length = payloadLength b₁) :
    decodePacket (b₀ :: b₁ :: (m.bytes ++ (body ++ post))) mask.bytes =
      some ⟨b₀ :: b₁ :: (m.bytes ++ (maskFrom m 0 body ++ post)), m.bytes, body.length, 6⟩ := by
  obtain ⟨hmedium, hlarge⟩ := maskBit_ne b₁
  have hkey : copyOut (b₀ :: b₁ :: (m.bytes ++ (body ++ post))) 2 4 = some m.bytes := by
    have hroom : 2 + 4 ≤ (b₀ :: b₁ :: (m.bytes ++ (body ++ post))).length := by
      simp only [List.length_cons, List.length_append, m.four]
      omega
    rw [copyOut, if_pos hroom]
    exact congrArg some (List.take_left' m.four)
  have hmask : copyTo mask.bytes 0 m.bytes = some m.bytes :=
    copyTo_whole (m.four.trans mask.four.symm)
  have humask := umask_of m (b₀ :: b₁ :: m.bytes) body post 0 6 (by
    simp only [List.length_cons, m.four])
  simp only [List.cons_append] at humask
  simp only [decodePacket, List.getElem?_cons_succ, List.getElem?_cons_zero, Option.bind_eq_bind,
    Option.bind_some, if_neg hmedium, if_neg hlarge, ophdrSize, hkey, hmask, ← hlen,
    Int.toNat_natCast, humask]

/-- What is put into `*ret` is never anything but those seven bits. -/
theorem ret_decodePacket {stream mask : List UInt8} {b : UInt8} {d : Decoded}
    (hb : stream[1]? = some b) (h : decodePacket stream mask = some d) :
    d.ret = payloadLength b := by
  obtain ⟨hmedium, hlarge⟩ := maskBit_ne b
  rw [decodePacket, hb] at h
  simp only [Option.bind_eq_bind, Option.bind_some, if_neg hmedium, if_neg hlarge] at h
  obtain ⟨key, -, h⟩ := Option.bind_eq_some_iff.mp h
  obtain ⟨mask', -, h⟩ := Option.bind_eq_some_iff.mp h
  obtain ⟨stream', -, h⟩ := Option.bind_eq_some_iff.mp h
  obtain rfl := Option.some.inj h
  rfl

theorem copyOut_body (b₀ b₁ : UInt8) (m : MaskKey) (body post : List UInt8) :
    copyOut (b₀ :: b₁ :: (m.bytes ++ (body ++ post))) 6 body.length = some body := by
  have hroom : 6 + body.length ≤ (b₀ :: b₁ :: (m.bytes ++ (body ++ post))).length := by
    simp only [List.length_cons, List.length_append, m.four]
    omega
  have hdrop : (b₀ :: b₁ :: (m.bytes ++ (body ++ post))).drop 6 = body ++ post :=
    List.drop_left' m.four
  rw [copyOut, if_pos hroom, hdrop, List.take_left]

theorem payloadLength_ofNat {n : Nat} (h : n < 128) :
    payloadLength (UInt8.ofNat (128 + n)) = n := by
  have hbyte : (UInt8.ofNat (128 + n)).toNat = 128 + n := by
    rw [UInt8.toNat_ofNat']
    exact Nat.mod_eq_of_lt (by omega)
  rw [payloadLength, hbyte, Nat.add_mod_left, Nat.mod_eq_of_lt h]

/-- Of a frame with these parts, what is taken for the payload has to be the payload. -/
theorem decodes_iff_of_eq {b₀ b₁ : UInt8} {m : MaskKey} {body post : List UInt8}
    (hframe : maskedFrame key payload ++ rest = b₀ :: b₁ :: (m.bytes ++ (body ++ post)))
    (hlen : body.length = payloadLength b₁) :
    Decodes key payload rest ↔ maskFrom m 0 body = payload := by
  have hout := copyOut_body b₀ b₁ m (maskFrom m 0 body) post
  constructor
  · intro h
    obtain ⟨d, hd, hret, hpayload⟩ := h key
    rw [hframe, decodePacket_eq hlen] at hd
    obtain rfl := Option.some.inj hd
    have hsame : (maskFrom m 0 body).length = payload.length := by
      rw [length_maskFrom]
      exact Int.ofNat.inj hret
    rw [hsame] at hout
    exact Option.some.inj (hout.symm.trans hpayload)
  · rintro rfl mask
    refine ⟨_, hframe ▸ decodePacket_eq hlen, ?_, hout⟩
    exact congrArg Int.ofNat (length_maskFrom _ _ _).symm

/-- A short frame is decoded. -/
theorem decodes_short (h : payload.length < 126) : Decodes key payload rest := by
  have hframe : maskedFrame key payload ++ rest = textByte :: UInt8.ofNat (128 + payload.length) ::
      (key.bytes ++ (maskFrom key 0 payload ++ rest)) := by
    rw [maskedFrame, lengthBytes_small h]
    simp
  have hlen : (maskFrom key 0 payload).length =
      payloadLength (UInt8.ofNat (128 + payload.length)) := by
    rw [length_maskFrom, payloadLength_ofNat (by omega)]
  exact (decodes_iff_of_eq hframe hlen).mpr (maskFrom_maskFrom key 0 payload)

/-- In a longer one the seven bits are no length. -/
theorem length_of_decodes (h : Decodes key payload rest) (hlong : ¬ payload.length < 126) :
    payload.length = 126 := by
  obtain ⟨d, hd, hret, -⟩ := h key
  by_cases hmid : payload.length < 2 ^ 16
  · have hsecond : (maskedFrame key payload ++ rest)[1]? = some (UInt8.ofNat (128 + 126)) := by
      rw [maskedFrame, lengthBytes_medium hlong hmid]
      rfl
    have h126 := ret_decodePacket hsecond hd
    rw [payloadLength_ofNat (by decide)] at h126
    omega
  · have hsecond : (maskedFrame key payload ++ rest)[1]? = some (UInt8.ofNat (128 + 127)) := by
      rw [maskedFrame, lengthBytes_large hlong hmid]
      rfl
    have h127 := ret_decodePacket hsecond hd
    rw [payloadLength_ofNat (by decide)] at h127
    omega

/-! ### A payload of 126 bytes

Its frame has two bytes of length, 0 and 126, behind the first two. They and half of the key are
taken for the key, and the other half for the beginning of the payload. -/

/-- What is taken for the key. -/
def wrongKey (key : MaskKey) : MaskKey := ⟨[0, 126, key.byte 0, key.byte 1], rfl⟩

/-- What is taken for the payload. -/
def misread (key : MaskKey) (payload : List UInt8) : List UInt8 :=
  maskFrom (wrongKey key) 0 (key.byte 2 :: key.byte 3 :: maskFrom key 0 (payload.take 124))

theorem decodes_iff_misread (hlen : payload.length = 126) :
    Decodes key payload rest ↔ misread key payload = payload := by
  have htake : (payload.take 124).length = 124 := by
    rw [List.length_take]
    omega
  have hmasked : maskFrom key 0 payload =
      maskFrom key 0 (payload.take 124) ++ maskFrom key 124 (payload.drop 124) := by
    conv_lhs => rw [← List.take_append_drop 124 payload, maskFrom_append, htake, Nat.zero_add]
  have hframe : maskedFrame key payload ++ rest = textByte :: UInt8.ofNat (128 + 126) ::
      ((wrongKey key).bytes ++ ((key.byte 2 :: key.byte 3 :: maskFrom key 0 (payload.take 124)) ++
        (maskFrom key 124 (payload.drop 124) ++ rest))) := by
    rw [maskedFrame, hlen, lengthBytes_medium (by decide) (by decide), key.bytes_eq, hmasked]
    simp [wrongKey, toBigEndian]
  have hbody : (key.byte 2 :: key.byte 3 :: maskFrom key 0 (payload.take 124)).length = 126 := by
    rw [List.length_cons, List.length_cons, length_maskFrom, htake]
  exact decodes_iff_of_eq hframe (hbody.trans (payloadLength_ofNat (by decide)).symm)

/-- The bytes that come out as they went in. -/
def echoByte (key : MaskKey) (i : Nat) : UInt8 :=
  if i % 8 < 4 then if i % 2 = 0 then key.byte 2 else key.byte 3 ^^^ 126 else 0

/-- Each of them comes from the one two places before it. -/
theorem echoByte_add_two (key : MaskKey) (i : Nat) :
    echoByte key (i + 2) = echoByte key i ^^^ key.byte i ^^^ (wrongKey key).byte (i + 2) := by
  have hkey : key.byte i = key.byte (i % 8) := by
    rw [MaskKey.byte, MaskKey.byte, Nat.mod_mod_of_dvd i (by decide : 4 ∣ 8)]
  have hwrong : (wrongKey key).byte (i + 2) = (wrongKey key).byte (i % 8 + 2) := by
    rw [MaskKey.byte, MaskKey.byte, Nat.add_mod, Nat.add_mod (i % 8),
      Nat.mod_mod_of_dvd i (by decide : 4 ∣ 8)]
  have hecho : ∀ j, echoByte key (i + j) = echoByte key (i % 8 + j) := by
    intro j
    have h8 : (i + j) % 8 = (i % 8 + j) % 8 := by omega
    have h2 : (i + j) % 2 = (i % 8 + j) % 2 := by omega
    rw [echoByte, echoByte, h8, h2]
  have hlt : i % 8 < 8 := Nat.mod_lt i (by decide)
  have hzero := hecho 0
  rw [Nat.add_zero, Nat.add_zero] at hzero
  rw [hecho 2, hzero, hkey, hwrong]
  generalize i % 8 = r at hlt
  have hself : ∀ x y : UInt8, x = x ^^^ y ^^^ y := by
    intro x y
    rw [UInt8.xor_assoc, UInt8.xor_self, UInt8.xor_zero]
  obtain ⟨bytes, four⟩ := key
  match bytes, four with
  | [a, b, c, d], _ =>
      interval_cases r
      · exact hself c a
      · exact hself (d ^^^ 126) b
      · show 0 = c ^^^ c ^^^ 0
        rw [UInt8.xor_self, UInt8.xor_zero]
      · show 0 = d ^^^ 126 ^^^ d ^^^ 126
        rw [UInt8.xor_comm d 126, ← hself 126 d, UInt8.xor_self]
      · exact hself 0 a
      · exact hself 0 b
      · show c = 0 ^^^ c ^^^ 0
        rw [UInt8.zero_xor, UInt8.xor_zero]
      · show d ^^^ 126 = 0 ^^^ d ^^^ 126
        rw [UInt8.zero_xor]

/-- The 126 bytes of that pattern. -/
def echo (key : MaskKey) : List UInt8 := (List.range 126).map (echoByte key)

theorem getElem?_echo {i : Nat} (h : i < 126) : (echo key)[i]? = some (echoByte key i) := by
  rw [echo, List.getElem?_map, List.getElem?_range h]
  rfl

theorem getElem?_misread {i : Nat} (h : i < 124) :
    (misread key payload)[i + 2]? =
      (payload[i]?).map fun b => b ^^^ key.byte i ^^^ (wrongKey key).byte (i + 2) := by
  rw [misread, maskFrom, maskFrom, List.getElem?_cons_succ, List.getElem?_cons_succ,
    getElem?_maskFrom, getElem?_maskFrom, List.getElem?_take_of_lt h, Option.map_map, Nat.zero_add,
    Nat.zero_add, Nat.add_comm (1 + 1)]
  rfl

theorem length_misread (hlen : payload.length = 126) : (misread key payload).length = 126 := by
  rw [misread, length_maskFrom, List.length_cons, List.length_cons, length_maskFrom,
    List.length_take]
  omega

theorem misread_eq_iff (hlen : payload.length = 126) :
    misread key payload = payload ↔ payload = echo key := by
  have hfirst : (misread key payload)[0]? = some (echoByte key 0) := by
    simp [misread, maskFrom, MaskKey.byte, wrongKey, echoByte]
  have hsecond : (misread key payload)[1]? = some (echoByte key 1) := by
    simp [misread, maskFrom, MaskKey.byte, wrongKey, echoByte]
  constructor
  · intro h
    have hall : ∀ i, i < 126 → payload[i]? = some (echoByte key i) := by
      intro i
      induction i using Nat.twoStepInduction with
      | zero =>
          intro _
          rw [← h]
          exact hfirst
      | one =>
          intro _
          rw [← h]
          exact hsecond
      | more i ih _ =>
          intro hlt
          have hprev := ih (by omega)
          rw [← h, getElem?_misread (by omega), hprev, echoByte_add_two]
          rfl
    refine List.ext_getElem? fun i => ?_
    by_cases hlt : i < 126
    · rw [hall i hlt, getElem?_echo hlt]
    · rw [List.getElem?_eq_none (by omega), List.getElem?_eq_none (by simp [echo]; omega)]
  · rintro rfl
    refine List.ext_getElem? fun i => ?_
    by_cases hlt : i < 126
    · rw [getElem?_echo hlt]
      obtain _ | _ | i := i
      · exact hfirst
      · exact hsecond
      · rw [getElem?_misread (by omega), getElem?_echo (by omega), echoByte_add_two]
        rfl
    · have hmis : (misread key _).length = 126 := length_misread hlen
      rw [List.getElem?_eq_none (by omega), List.getElem?_eq_none (by omega)]

/-- A payload of 126 bytes is found if it is that pattern. -/
theorem decodes_iff_short_or_echo :
    Decodes key payload rest ↔ payload.length < 126 ∨ payload = echo key := by
  have hecho : (echo key).length = 126 := by rw [echo, List.length_map, List.length_range]
  constructor
  · intro h
    by_cases hshort : payload.length < 126
    · exact .inl hshort
    · have hlen := length_of_decodes h hshort
      exact .inr ((misread_eq_iff hlen).mp ((decodes_iff_misread hlen).mp h))
  · rintro (hshort | rfl)
    · exact decodes_short hshort
    · exact (decodes_iff_misread hecho).mpr ((misread_eq_iff hecho).mpr rfl)

/-! ## What is encoded -/

variable {buffer : List UInt8} {mask : MaskKey}

theorem unmaskedFrame_short (h : payload.length < 126) :
    unmaskedFrame payload = textByte :: UInt8.ofNat payload.length :: payload := by
  rw [unmaskedFrame, lengthBytes_small h]
  simp

/-- A short payload is written behind a header of two bytes. -/
theorem encodes_short (hroom : (unmaskedFrame payload).length ≤ buffer.length)
    (h : payload.length < 126) : Encodes buffer mask payload rest := by
  have hframe := unmaskedFrame_short h
  have hsize : (unmaskedFrame payload).length = payload.length + 2 := by
    rw [hframe, List.length_cons, List.length_cons]
  have hlt : (payload.length : Int) < 126 := by omega
  have hnot : ¬ (payload.length : Int) < 0 := by omega
  have hbyte : ((payload.length : Int) % 128).toNat = payload.length := by omega
  have hout : copyOut (payload ++ rest) 0 payload.length = some payload := by
    rw [copyOut, if_pos (by rw [List.length_append]; omega), List.drop_zero, List.take_left]
  have hhead : copyTo buffer 0 [finText, UInt8.ofNat payload.length] =
      some ([finText, UInt8.ofNat payload.length] ++ buffer.drop 2) :=
    copyTo_front (by simp only [List.length_cons, List.length_nil]; omega)
  have hrest : payload.length ≤ (buffer.drop 2).length := by
    rw [List.length_drop]
    omega
  have hbody : copyTo ([finText, UInt8.ofNat payload.length] ++ buffer.drop 2) 2 payload =
      some (unmaskedFrame payload ++ (buffer.drop 2).drop payload.length) := by
    rw [hframe]
    exact copyTo_behind rfl hrest
  have hcall : encodePacket buffer mask.bytes (payload ++ rest) payload.length =
      some (unmaskedFrame payload ++ (buffer.drop 2).drop payload.length,
        (payload.length : Int) + 2) := by
    simp only [encodePacket, copyHeader, copySource, if_pos hlt, if_neg hnot, Int.toNat_natCast,
      hbyte, hout, hhead, hbody, Option.bind_eq_bind, Option.bind_some]
  have hread : readFrame (unmaskedFrame payload ++ []) = some payload :=
    readFrame_unmaskedFrame (Nat.lt_trans h (by decide)) []
  rw [List.append_nil] at hread
  refine ⟨_, _, hcall, ?_, List.take_left, ?_⟩
  · rw [hsize]
    rfl
  · rw [List.take_left]
    exact hread

theorem size_encodePacket {stream mask : List UInt8} {length : Int} {r : List UInt8 × Int}
    (h : encodePacket buffer mask stream length = some r) : r.2 = length + 2 := by
  rw [encodePacket] at h
  obtain ⟨b, -, h⟩ := Option.bind_eq_some_iff.mp h
  obtain ⟨payload, -, h⟩ := Option.bind_eq_some_iff.mp h
  obtain ⟨b', -, h⟩ := Option.bind_eq_some_iff.mp h
  exact congrArg Prod.snd (Option.some.inj h).symm

/-- Of a longer frame at least two bytes are missing in what `encode_packet` returns. -/
theorem not_encodes_long (h : ¬ payload.length < 126) : ¬ Encodes buffer mask payload rest := by
  rintro ⟨buffer', size, hcall, hsize, -, -⟩
  have hlong : payload.length + 4 ≤ (unmaskedFrame payload).length := by
    rw [unmaskedFrame]
    by_cases hmid : payload.length < 2 ^ 16
    · rw [lengthBytes_medium h hmid]
      simp only [List.length_cons, List.length_append, length_toBigEndian]
      omega
    · rw [lengthBytes_large h hmid]
      simp only [List.length_cons, List.length_append, length_toBigEndian]
      omega
  have hreturn : size = (payload.length : Int) + 2 := size_encodePacket hcall
  omega

end

/--
**A masked frame is decoded if and only if its payload is shorter than 126 bytes**, or is one of 126
bytes that come out of the wrong place under the wrong key as they went in.
-/
theorem decodes_iff (key : MaskKey) (payload rest : List UInt8) :
    Decodes key payload rest ↔ payload.length < 126 ∨ payload = echo key :=
  decodes_iff_short_or_echo

/-- A payload of 126 zeros, masked with ones. -/
theorem zeros_not_decoded : ¬ ∀ key payload rest,
    (maskedFrame key payload ++ rest).length ≤ maxBufferLength → Decodes key payload rest := by
  intro h
  have hfits : (maskedFrame ⟨[1, 1, 1, 1], rfl⟩ (List.replicate 126 0) ++ []).length ≤
      maxBufferLength := by decide +kernel
  rcases decodes_iff_short_or_echo.mp (h _ _ _ hfits) with hlt | heq
  · rw [List.length_replicate] at hlt
    exact absurd hlt (Nat.lt_irrefl _)
  · have hfirst := congrArg (·[0]?) heq
    exact absurd hfirst (by decide)

/-- **A frame is encoded if and only if its payload is shorter than 126 bytes.** -/
theorem encodes_iff (buffer : List UInt8) (mask : MaskKey) (payload rest : List UInt8)
    (hroom : (unmaskedFrame payload).length ≤ buffer.length) :
    Encodes buffer mask payload rest ↔ payload.length < 126 := by
  constructor
  · intro h
    by_contra hlong
    exact not_encodes_long hlong h
  · exact encodes_short hroom

/-- Two bytes, into an array that the frame fills. -/
theorem encodes_iff_hi :
    (unmaskedFrame [104, 105]).length ≤ (unmaskedFrame [104, 105]).length ∧
      (Encodes (unmaskedFrame [104, 105]) ⟨[0, 0, 0, 0], rfl⟩ [104, 105] [] ↔
        [(104 : UInt8), 105].length < 126) :=
  ⟨Nat.le_refl _, encodes_iff _ ⟨[0, 0, 0, 0], rfl⟩ [104, 105] [] (Nat.le_refl _)⟩

/-- A payload of 126 zeros. -/
theorem zeros_not_encoded : ¬ ∀ buffer mask payload rest, buffer.length = maxBufferLength + 14 →
    (unmaskedFrame payload).length ≤ buffer.length → Encodes buffer mask payload rest := by
  intro h
  have hlong : ¬ (List.replicate 126 (0 : UInt8)).length < 126 := by
    rw [List.length_replicate]
    exact Nat.lt_irrefl _
  have hroom : (unmaskedFrame (List.replicate 126 0)).length ≤
      (List.replicate (maxBufferLength + 14) (0 : UInt8)).length := by decide +kernel
  exact not_encodes_long hlong (h _ ⟨[0, 0, 0, 0], rfl⟩ (List.replicate 126 0) []
    List.length_replicate hroom)

end CppTrack.WsFrame
