import Mathlib.Data.BitVec

/-!
# Clocks that wrap round

A clock of `w` bits shows the time modulo `2 ^ w`. The difference of two readings, taken as a
signed number, says how far one is ahead of the other, as long as they are less than half a
turn apart. Readings that all lie within half a turn after some `base` are ordered by it as the
true times are.
-/

namespace CppTrack.Lib

variable {w : Nat} {base s t : BitVec w}

/-- How far `t` is ahead of `s`, negative if it is behind. -/
def ahead (s t : BitVec w) : Int := (t - s).toInt

/-- `t` is less than half a turn after `base`. -/
def Within (base t : BitVec w) : Prop := 2 * (t - base).toNat < 2 ^ w

instance : Decidable (Within base t) := inferInstanceAs (Decidable (_ < _))

theorem within_iff : Within base t ↔ 0 ≤ ahead base t := BitVec.toInt_pos_iff.symm

theorem Within.ahead_eq (h : Within base t) : ahead base t = (t - base).toNat :=
  BitVec.toInt_eq_toNat_of_lt h

theorem ahead_self (t : BitVec w) : ahead t t = 0 := by
  unfold ahead
  rw [BitVec.sub_self, BitVec.toInt_zero]

/-- Within half a turn, distances subtract. -/
theorem ahead_sub (hs : Within base s) (ht : Within base t) :
    ahead s t = ahead base t - ahead base s := by
  have hsplit : t - s = (t - base) - (s - base) := (sub_sub_sub_cancel_right t s base).symm
  have hnat_s := hs.ahead_eq
  have hnat_t := ht.ahead_eq
  unfold Within at hs ht
  unfold ahead at *
  rw [hsplit, BitVec.toInt_sub, hnat_s, hnat_t]
  refine Int.bmod_eq_of_le_mul_two ?_ ?_
  · omega
  · omega

/-- Two readings at the same distance are the same. -/
theorem eq_of_ahead_eq (h : ahead base s = ahead base t) : s = t :=
  sub_left_injective (BitVec.eq_of_toInt_eq h)

/-- A reading that is ahead of the base is past the base. -/
theorem ahead_le_iff (hs : Within base s) (ht : Within base t) :
    0 ≤ ahead s t ↔ ahead base s ≤ ahead base t := by
  rw [ahead_sub hs ht, Int.sub_nonneg]

end CppTrack.Lib
