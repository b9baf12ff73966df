import CppTrack.Lib.Blocks

/-!
# Where a pattern stands in a block

A pattern may stand at several places, which may overlap. The first place and the last one are what
searches from the one end and from the other are after.
-/

namespace CppTrack.Lib

variable {β : Type*} {p s : List β} {i : Nat}

/-- `p` stands in `s` from the place `i` on. -/
def OccursAt (p s : List β) (i : Nat) : Prop := copyOut s i p.length = some p

instance [DecidableEq β] (p s : List β) (i : Nat) : Decidable (OccursAt p s i) :=
  inferInstanceAs (Decidable (_ = _))

/-- The pattern stands nowhere. -/
def Nowhere (p s : List β) : Prop := ∀ i, ¬ OccursAt p s i

/-- What a search for the first place should return. -/
def FindsFirst (p s : List β) : Option Nat → Prop
  | some i => OccursAt p s i ∧ ∀ j, j < i → ¬ OccursAt p s j
  | none => Nowhere p s

/-- What a search for the last place should return. -/
def FindsLast (p s : List β) : Option Nat → Prop
  | some i => OccursAt p s i ∧ ∀ j, i < j → ¬ OccursAt p s j
  | none => Nowhere p s

theorem OccursAt.le (h : OccursAt p s i) : i + p.length ≤ s.length :=
  (Option.ite_none_right_eq_some.mp h).1

theorem nowhere_of_longer (h : s.length < p.length) : Nowhere p s := by
  intro i hi
  have hle := hi.le
  omega

/-- In a block of its own length a pattern stands at the front or nowhere. -/
theorem occursAt_whole (h : s.length = p.length) : OccursAt p s i ↔ i = 0 ∧ s = p := by
  constructor
  · intro hi
    have hle := hi.le
    obtain rfl : i = 0 := by omega
    obtain ⟨-, heq⟩ := Option.ite_none_right_eq_some.mp hi
    rw [List.drop_zero, ← h, List.take_length] at heq
    exact ⟨rfl, Option.some.inj heq⟩
  · rintro ⟨rfl, rfl⟩
    rw [OccursAt, copyOut_of_start List.prefix_rfl (by omega), List.drop_zero, List.take_length]

end CppTrack.Lib
