import Mathlib.Algebra.Group.Nat.Defs
import Mathlib.Data.Nat.Basic

/-!
# Sums of sixteen-bit words that carry around

The bytes of a packet in words of two, the lower byte first, a last byte alone counting as a word
with nothing above it. A sum of such words is brought down to sixteen bits by adding what is above
them, twice; that keeps its remainder modulo `65535`, and only zero comes out as zero. So the
complement of a sum makes it all ones.
-/

namespace CppTrack.Lib

/-- The sum of the words. -/
def wordSum : List UInt8 → Nat
  | [] => 0
  | [a] => a.toNat
  | a :: b :: bs => (a.toNat + 256 * b.toNat) + wordSum bs

/-- Addition that carries around: what leaves the sixteen bits is added below them. -/
def addAround (a b : Nat) : Nat := if a + b < 65536 then a + b else a + b - 65535

/-- The one's complement sum of the words. -/
def onesSum : List UInt8 → Nat
  | [] => 0
  | [a] => a.toNat
  | a :: b :: bs => addAround (a.toNat + 256 * b.toNat) (onesSum bs)

/-- What is above sixteen bits, added to them. -/
def foldOnce (n : Nat) : Nat := n / 65536 + n % 65536

/-- A sum, brought down to sixteen bits. -/
def foldTwice (n : Nat) : Nat := (foldOnce n + foldOnce n / 65536) % 65536

theorem wordSum_append (xs ys : List UInt8) (h : xs.length % 2 = 0) :
    wordSum (xs ++ ys) = wordSum xs + wordSum ys := by
  induction xs using wordSum.induct with
  | case1 => rw [List.nil_append, wordSum, Nat.zero_add]
  | case2 a => exact absurd h (by simp)
  | case3 a b bs ih =>
      have hbs : bs.length % 2 = 0 := by
        simp only [List.length_cons] at h
        omega
      rw [List.cons_append, List.cons_append, wordSum, wordSum, ih hbs]
      exact (Nat.add_assoc _ _ _).symm

/-- Each word is below `65536`. -/
theorem wordSum_le (bs : List UInt8) : wordSum bs ≤ 65535 * ((bs.length + 1) / 2) := by
  induction bs using wordSum.induct with
  | case1 => exact Nat.zero_le _
  | case2 a =>
      have ha : a.toNat < 256 := a.toNat_lt
      simp only [wordSum, List.length_singleton]
      omega
  | case3 a b bs ih =>
      have ha : a.toNat < 256 := a.toNat_lt
      have hb : b.toNat < 256 := b.toNat_lt
      simp only [wordSum, List.length_cons]
      omega

section

variable {n : Nat}

theorem eq_foldOnce (n : Nat) : n = 65535 * (n / 65536) + foldOnce n := by
  unfold foldOnce
  omega

theorem foldTwice_le (n : Nat) : foldTwice n ≤ 65535 :=
  Nat.le_of_lt_succ (Nat.mod_lt _ (by decide))

/-- Two folds are enough: after the first there is at most one to carry. -/
theorem foldTwice_eq (h : n < 2 ^ 31) :
    foldTwice n = if foldOnce n < 65536 then foldOnce n else foldOnce n - 65535 := by
  have hone : foldOnce n < 65536 + 65535 := by
    unfold foldOnce
    omega
  unfold foldTwice
  generalize foldOnce n = m at *
  split
  · rename_i hlt
    rw [Nat.div_eq_of_lt hlt, Nat.add_zero, Nat.mod_eq_of_lt hlt]
  · rename_i hge
    have hcarry : m / 65536 = 1 := by omega
    rw [hcarry]
    omega

theorem foldTwice_mod (h : n < 2 ^ 31) : foldTwice n % 65535 = n % 65535 := by
  have hmod : n % 65535 = foldOnce n % 65535 :=
    calc n % 65535 = (65535 * (n / 65536) + foldOnce n) % 65535 :=
          congrArg (· % 65535) (eq_foldOnce n)
      _ = foldOnce n % 65535 := Nat.mul_add_mod _ _ _
  rw [foldTwice_eq h, hmod]
  split
  · rfl
  · rename_i hge
    exact (Nat.mod_eq_sub_mod (by omega)).symm

theorem foldTwice_eq_zero (h : n < 2 ^ 31) : foldTwice n = 0 ↔ n = 0 := by
  have heq := eq_foldOnce n
  rw [foldTwice_eq h]
  constructor
  · intro hzero
    split at hzero
    · unfold foldOnce at hzero
      omega
    · omega
  · rintro rfl
    rfl

/-- The sum that carries around is the plain one up to a multiple of `65535`, and it is zero only
with it. -/
theorem onesSum_spec (bs : List UInt8) : onesSum bs ≤ 65535 ∧
    onesSum bs % 65535 = wordSum bs % 65535 ∧ (onesSum bs = 0 ↔ wordSum bs = 0) := by
  induction bs using wordSum.induct with
  | case1 => exact ⟨Nat.zero_le _, rfl, Iff.rfl⟩
  | case2 a =>
      have ha : a.toNat < 256 := a.toNat_lt
      exact ⟨by rw [onesSum]; omega, rfl, Iff.rfl⟩
  | case3 a b bs ih =>
      obtain ⟨hle, hmod, hzero⟩ := ih
      have ha : a.toNat < 256 := a.toNat_lt
      have hb : b.toNat < 256 := b.toNat_lt
      rw [onesSum, wordSum, addAround]
      generalize onesSum bs = m at *
      generalize wordSum bs = n at *
      split
      case isTrue hlt => exact ⟨by omega, by omega, by omega⟩
      case isFalse hge => exact ⟨by omega, by omega, by omega⟩

/-- Two folds of the plain sum make the sum that carries around. -/
theorem foldTwice_wordSum {bs : List UInt8} (h : wordSum bs < 2 ^ 31) :
    foldTwice (wordSum bs) = onesSum bs := by
  obtain ⟨hle, hmod, hzero⟩ := onesSum_spec bs
  have hle' := foldTwice_le (wordSum bs)
  have hmod' := foldTwice_mod h
  have hzero' := foldTwice_eq_zero h
  omega

/-- A sum and the complement of what it folds to. -/
theorem foldTwice_complement (h : n + (65535 - foldTwice n) < 2 ^ 31) :
    foldTwice (n + (65535 - foldTwice n)) = 65535 := by
  have hn : n < 2 ^ 31 := Nat.lt_of_le_of_lt (Nat.le_add_right _ _) h
  have hle := foldTwice_le n
  have hmod := foldTwice_mod hn
  have hle' := foldTwice_le (n + (65535 - foldTwice n))
  have hmod' := foldTwice_mod h
  -- the sum is not zero, for a sum of zero has ones for its complement
  have hpos : n + (65535 - foldTwice n) ≠ 0 := by
    have hzero := foldTwice_eq_zero hn
    omega
  have hfold : foldTwice (n + (65535 - foldTwice n)) ≠ 0 :=
    fun hzero => hpos ((foldTwice_eq_zero h).mp hzero)
  generalize foldTwice (n + (65535 - foldTwice n)) = m at *
  omega

end

end CppTrack.Lib
