import Mathlib.Algebra.Group.Int.Defs
import Mathlib.Algebra.Group.Nat.Defs
import Mathlib.Data.Nat.Basic

/-!
# Machine words as naturals

A C `uint32_t` is kept here as a natural below `2 ^ 32`, and each operation that
can wrap says so with an explicit `% 2 ^ 32`. The facts below are the ones a
*free-running counter* needs: two counters that only ever grow, stored modulo the
word size, still have the right difference as long as the true difference fits.
-/

namespace CppTrack.Lib

/-- Number of values of a 32-bit word. -/
def wordSize : Nat := 2 ^ 32

@[simp] theorem wordSize_eq : wordSize = 4294967296 := rfl

/-- `a + b` on `uint32_t`. -/
def addU32 (a b : Nat) : Nat := (a + b) % wordSize

/-- `a - b` on `uint32_t`. -/
def subU32 (a b : Nat) : Nat := (a + wordSize - b) % wordSize

/-- `a + b` on a 64-bit word. -/
def addU64 (a b : Nat) : Nat := (a + b) % 2 ^ 64

/-- `a - b` on a 64-bit word. -/
def subU64 (a b : Nat) : Nat := (a + 2 ^ 64 - b) % 2 ^ 64

/-- The values of a C `int`. -/
def CInt : Type := { x : Int // -2 ^ 31 ≤ x ∧ x < 2 ^ 31 }

/-- A C `int` that is not negative, from its bits. -/
def CInt.ofBits (n : BitVec 31) : CInt :=
  have hlt : n.toNat < 2 ^ 31 := n.isLt
  ⟨n.toNat, by omega, by omega⟩

theorem addU32_lt (a b : Nat) : addU32 a b < wordSize := Nat.mod_lt _ (by simp)

theorem addU64_of_lt {a b : Nat} (h : a + b < 2 ^ 64) : addU64 a b = a + b := Nat.mod_eq_of_lt h

theorem addU64_le (a b : Nat) : addU64 a b ≤ a + b := Nat.mod_le _ _

/-- Adding to a wrapped counter is wrapping the sum. -/
theorem addU32_mod (a b : Nat) : addU32 (a % wordSize) b = (a + b) % wordSize := by
  simp [addU32]

/-- The wrapped difference of two counters is their difference whenever that fits. -/
theorem subU32_mod {a b : Nat} (hle : b ≤ a) (hfit : a - b < wordSize) :
    subU32 (a % wordSize) (b % wordSize) = a - b := by
  simp only [subU32, wordSize_eq] at *
  omega

end CppTrack.Lib
