import CppTrack.Lib.BigEndian

/-!
# Frames with a masked payload

A text frame of the WebSocket protocol, sent in one piece: a first byte that says so, the length of
the payload in the shortest of three forms, the key if the payload is masked, and the payload. The
length is put most significant byte first; the top bit of its first byte says whether there is a
key.
-/

namespace CppTrack.Lib

/-- Four bytes that are used over and over. -/
structure MaskKey where
  bytes : List UInt8
  four : bytes.length = 4

/-- The byte for the `i`-th byte of a payload. -/
def MaskKey.byte (key : MaskKey) (i : Nat) : UInt8 := key.bytes.getD (i % 4) 0

theorem MaskKey.bytes_eq (key : MaskKey) :
    key.bytes = [key.byte 0, key.byte 1, key.byte 2, key.byte 3] := by
  obtain ⟨bytes, four⟩ := key
  match bytes, four with
  | [a, b, c, d], _ => rfl

/-- Bytes, masked as the `i`-th and the next of a payload. -/
def maskFrom (key : MaskKey) : (i : Nat) → List UInt8 → List UInt8
  | _, [] => []
  | i, b :: bs => (b ^^^ key.byte i) :: maskFrom key (i + 1) bs

/-- The final bit and the opcode for text. -/
def textByte : UInt8 := 0x81

/-- What stands between the first byte and the key or the payload. -/
def lengthBytes (masked : Bool) (n : Nat) : List UInt8 :=
  let bit := if masked then 128 else 0
  if n < 126 then [UInt8.ofNat (bit + n)]
  else if n < 2 ^ 16 then UInt8.ofNat (bit + 126) :: toBigEndian 2 n
  else UInt8.ofNat (bit + 127) :: toBigEndian 8 n

def unmaskedFrame (payload : List UInt8) : List UInt8 :=
  textByte :: (lengthBytes false payload.length ++ payload)

def maskedFrame (key : MaskKey) (payload : List UInt8) : List UInt8 :=
  textByte :: (lengthBytes true payload.length ++ (key.bytes ++ maskFrom key 0 payload))

/-- The length of an unmasked payload, and what is behind it. -/
def readLength : List UInt8 → Option (Nat × List UInt8)
  | [] => none
  | b :: bs =>
      if b.toNat < 126 then some (b.toNat, bs)
      else if b.toNat = 126 ∧ 2 ≤ bs.length then some (bigEndian (bs.take 2), bs.drop 2)
      else if b.toNat = 127 ∧ 8 ≤ bs.length then some (bigEndian (bs.take 8), bs.drop 8)
      else none

/-- The payload of an unmasked frame. -/
def readFrame : List UInt8 → Option (List UInt8)
  | [] => none
  | b :: bs =>
      if b = textByte then do
        let (n, bs) ← readLength bs
        if n ≤ bs.length then some (bs.take n) else none
      else none

section

variable (key : MaskKey) (i : Nat) (xs ys : List UInt8)

@[simp] theorem length_maskFrom : (maskFrom key i xs).length = xs.length := by
  induction xs generalizing i with
  | nil => rfl
  | cons b bs ih => rw [maskFrom, List.length_cons, List.length_cons, ih]

theorem maskFrom_append :
    maskFrom key i (xs ++ ys) = maskFrom key i xs ++ maskFrom key (i + xs.length) ys := by
  induction xs generalizing i with
  | nil => rfl
  | cons b bs ih =>
      rw [List.cons_append, maskFrom, maskFrom, ih, List.length_cons, Nat.add_assoc, Nat.add_comm 1,
        List.cons_append]

/-- A mask is taken off as it was put on. -/
@[simp] theorem maskFrom_maskFrom : maskFrom key i (maskFrom key i xs) = xs := by
  induction xs generalizing i with
  | nil => rfl
  | cons b bs ih => rw [maskFrom, maskFrom, ih, UInt8.xor_assoc, UInt8.xor_self, UInt8.xor_zero]

theorem getElem?_maskFrom (j : Nat) :
    (maskFrom key i xs)[j]? = (xs[j]?).map (· ^^^ key.byte (i + j)) := by
  induction xs generalizing i j with
  | nil => rfl
  | cons b bs ih =>
      cases j with
      | zero => rfl
      | succ j =>
          rw [maskFrom, List.getElem?_cons_succ, List.getElem?_cons_succ, ih,
            Nat.succ_add_eq_add_succ]

end

/-! ## Reading what was written -/

section

variable {masked : Bool} {n : Nat}

theorem lengthBytes_small (h : n < 126) :
    lengthBytes masked n = [UInt8.ofNat ((if masked then 128 else 0) + n)] := if_pos h

theorem lengthBytes_medium (h : ¬ n < 126) (h' : n < 2 ^ 16) :
    lengthBytes masked n =
      UInt8.ofNat ((if masked then 128 else 0) + 126) :: toBigEndian 2 n := by
  rw [lengthBytes, if_neg h, if_pos h']

theorem lengthBytes_large (h : ¬ n < 126) (h' : ¬ n < 2 ^ 16) :
    lengthBytes masked n =
      UInt8.ofNat ((if masked then 128 else 0) + 127) :: toBigEndian 8 n := by
  rw [lengthBytes, if_neg h, if_neg h']

theorem readLength_lengthBytes (h : n < 2 ^ 64) (rest : List UInt8) :
    readLength (lengthBytes false n ++ rest) = some (n, rest) := by
  by_cases hsmall : n < 126
  · have hbyte : (UInt8.ofNat n).toNat = n := by
      rw [UInt8.toNat_ofNat']
      exact Nat.mod_eq_of_lt (by omega)
    rw [lengthBytes_small hsmall]
    simp only [Bool.false_eq_true, if_false, Nat.zero_add, List.singleton_append, readLength, hbyte,
      if_pos hsmall]
  · by_cases hmid : n < 2 ^ 16
    · have hnum : bigEndian (toBigEndian 2 n) = n := by
        rw [bigEndian_toBigEndian]
        exact Nat.mod_eq_of_lt hmid
      rw [lengthBytes_medium hsmall hmid, List.cons_append, readLength]
      simp [hnum]
    · have hnum : bigEndian (toBigEndian 8 n) = n := by
        rw [bigEndian_toBigEndian]
        exact Nat.mod_eq_of_lt h
      rw [lengthBytes_large hsmall hmid, List.cons_append, readLength]
      simp [hnum]

end

/-- The payload of a frame is read from it, whatever comes behind. -/
theorem readFrame_unmaskedFrame {payload : List UInt8} (h : payload.length < 2 ^ 64)
    (rest : List UInt8) : readFrame (unmaskedFrame payload ++ rest) = some payload := by
  have hlen : payload.length ≤ (payload ++ rest).length := by
    rw [List.length_append]
    exact Nat.le_add_right _ _
  rw [unmaskedFrame, List.cons_append, List.append_assoc, readFrame, if_pos rfl,
    readLength_lengthBytes h, Option.bind_eq_bind, Option.bind_some]
  dsimp only
  rw [if_pos hlen, List.take_left]

end CppTrack.Lib
