import Mathlib.Data.Nat.Bitwise
import Mathlib.Tactic.Ring

/-!
# Numbers as bytes, the most significant first

`bigEndian` is the number that a string of bytes stands for and `toBigEndian k` the string of `k`
bytes that stands for a number, cut to `8 * k` bits. Code that reads such a number shifts bytes
into place and joins them with `|`.
-/

namespace CppTrack.Lib

/-- The number that the bytes stand for. -/
def bigEndian (bs : List UInt8) : Nat := bs.foldl (fun n b => 256 * n + b.toNat) 0

/-- The low `k` bytes of a number. -/
def toBigEndian : Nat → Nat → List UInt8
  | 0, _ => []
  | k + 1, n => UInt8.ofNat (n / 256 ^ k) :: toBigEndian k n

@[simp] theorem length_toBigEndian (k n : Nat) : (toBigEndian k n).length = k := by
  induction k with
  | zero => rfl
  | succ k ih => rw [toBigEndian, List.length_cons, ih]

theorem bigEndian_cons (b : UInt8) (bs : List UInt8) :
    bigEndian (b :: bs) = b.toNat * 256 ^ bs.length + bigEndian bs := by
  have hfold : ∀ (bs : List UInt8) (n : Nat), bs.foldl (fun n b => 256 * n + b.toNat) n =
      n * 256 ^ bs.length + bigEndian bs := by
    intro bs
    induction bs with
    | nil => intro n; simp [bigEndian]
    | cons c bs ih =>
        intro n
        rw [bigEndian, List.foldl_cons, List.foldl_cons, ih, ih, List.length_cons, pow_succ]
        ring
  rw [bigEndian, List.foldl_cons, hfold]
  simp

theorem bigEndian_lt (bs : List UInt8) : bigEndian bs < 256 ^ bs.length := by
  induction bs with
  | nil => exact Nat.one_pos
  | cons b bs ih =>
      have hb : b.toNat < 256 := b.toNat_lt
      rw [bigEndian_cons, List.length_cons, pow_succ]
      calc b.toNat * 256 ^ bs.length + bigEndian bs
          < b.toNat * 256 ^ bs.length + 256 ^ bs.length := Nat.add_lt_add_left ih _
        _ = (b.toNat + 1) * 256 ^ bs.length := (Nat.succ_mul _ _).symm
        _ ≤ 256 * 256 ^ bs.length := Nat.mul_le_mul_right _ hb
        _ = 256 ^ bs.length * 256 := Nat.mul_comm _ _

/-- What was written is read back, as far as it fits. -/
theorem bigEndian_toBigEndian (k n : Nat) : bigEndian (toBigEndian k n) = n % 256 ^ k := by
  induction k with
  | zero => simp [toBigEndian, bigEndian, Nat.mod_one]
  | succ k ih =>
      have htop : (UInt8.ofNat (n / 256 ^ k)).toNat = n / 256 ^ k % 256 := rfl
      rw [toBigEndian, bigEndian_cons, length_toBigEndian, ih, htop, pow_succ, Nat.mod_mul,
        Nat.mul_comm (256 ^ k), Nat.add_comm]

/-- Joining a byte to a number shifted out of its way is adding it. -/
theorem shiftLeft_or_byte (n : Nat) (k : Nat) (m : Nat) (hm : m < 2 ^ k) :
    n <<< k ||| m = n * 2 ^ k + m := by
  rw [← Nat.shiftLeft_add_eq_or_of_lt hm, Nat.shiftLeft_eq]

theorem bigEndian_two (a b : UInt8) : a.toNat <<< 8 ||| b.toNat = bigEndian [a, b] := by
  rw [shiftLeft_or_byte _ 8 _ b.toNat_lt]
  simp only [bigEndian, List.foldl_cons, List.foldl_nil]
  omega

theorem bigEndian_four (a b c d : UInt8) :
    a.toNat <<< 24 ||| b.toNat <<< 16 ||| c.toNat <<< 8 ||| d.toNat = bigEndian [a, b, c, d] := by
  have hb : b.toNat < 256 := b.toNat_lt
  have hc : c.toNat < 256 := c.toNat_lt
  have hd : d.toNat < 256 := d.toNat_lt
  have htwo : a.toNat <<< 24 ||| b.toNat <<< 16 = (a.toNat * 256 + b.toNat) <<< 16 := by
    rw [shiftLeft_or_byte _ 24 _ (by rw [Nat.shiftLeft_eq]; omega), Nat.shiftLeft_eq,
      Nat.shiftLeft_eq]
    omega
  have hthree : (a.toNat * 256 + b.toNat) <<< 16 ||| c.toNat <<< 8 =
      ((a.toNat * 256 + b.toNat) * 256 + c.toNat) <<< 8 := by
    rw [shiftLeft_or_byte _ 16 _ (by rw [Nat.shiftLeft_eq]; omega), Nat.shiftLeft_eq,
      Nat.shiftLeft_eq]
    omega
  rw [htwo, hthree, shiftLeft_or_byte _ 8 _ hd]
  simp only [bigEndian, List.foldl_cons, List.foldl_nil]
  omega

end CppTrack.Lib
