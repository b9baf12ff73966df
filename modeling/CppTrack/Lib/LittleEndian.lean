import Mathlib.Data.List.Basic
import Mathlib.Tactic.Ring

/-!
# Numbers as bytes, the least significant first

`littleEndian` is the number that a string of bytes stands for and `toLittleEndian k` the string of
`k` bytes that stands for a number, cut to `8 * k` bits. This is what `memcpy` makes of an integer
on most machines.
-/

namespace CppTrack.Lib

/-- The number that the bytes stand for. -/
def littleEndian : List UInt8 → Nat
  | [] => 0
  | b :: bs => b.toNat + 256 * littleEndian bs

/-- The low `k` bytes of a number. -/
def toLittleEndian : Nat → Nat → List UInt8
  | 0, _ => []
  | k + 1, n => UInt8.ofNat n :: toLittleEndian k (n / 256)

@[simp] theorem length_toLittleEndian (k n : Nat) : (toLittleEndian k n).length = k := by
  induction k generalizing n with
  | zero => rfl
  | succ k ih => rw [toLittleEndian, List.length_cons, ih]

theorem littleEndian_lt (bs : List UInt8) : littleEndian bs < 256 ^ bs.length := by
  induction bs with
  | nil => exact Nat.one_pos
  | cons b bs ih =>
      have hb : b.toNat < 256 := b.toNat_lt
      rw [littleEndian, List.length_cons, pow_succ]
      omega

/-- What was written is read back, as far as it fits. -/
theorem littleEndian_toLittleEndian (k n : Nat) :
    littleEndian (toLittleEndian k n) = n % 256 ^ k := by
  induction k generalizing n with
  | zero => rw [toLittleEndian, littleEndian, pow_zero, Nat.mod_one]
  | succ k ih =>
      have hlow : (UInt8.ofNat n).toNat = n % 256 := rfl
      rw [toLittleEndian, littleEndian, ih, hlow, pow_succ', Nat.mod_mul]

end CppTrack.Lib
