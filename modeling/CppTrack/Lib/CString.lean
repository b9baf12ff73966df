import Mathlib.Data.List.Basic
import Mathlib.Data.UInt

/-!
# Strings that end with a zero

A string is what a block has in front of its first zero byte. A block without one has no string in
it.
-/

namespace CppTrack.Lib

/-- How long the string at the front of a block is. -/
def strlen (block : List UInt8) : Option Nat :=
  if 0 ∈ block then some (block.takeWhile (· ≠ 0)).length else none

theorem strlen_zero {s : List UInt8} (rest : List UInt8) (hs : 0 ∉ s) :
    strlen (s ++ 0 :: rest) = some s.length := by
  have hmem : (0 : UInt8) ∈ s ++ 0 :: rest := List.mem_append_right _ List.mem_cons_self
  have hne : ∀ a ∈ s, decide (a ≠ 0) = true := by
    intro a ha
    refine decide_eq_true fun h0 => ?_
    rw [h0] at ha
    exact hs ha
  rw [strlen, if_pos hmem, List.takeWhile_append_of_pos hne,
    List.takeWhile_cons_of_neg (by decide), List.append_nil]

end CppTrack.Lib
