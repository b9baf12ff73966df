import Mathlib.Logic.Function.Basic
import Mathlib.Order.Lattice

/-!
# Binary heaps with a hole

A binary heap is kept in an array, element `i` above elements `2 * i + 1` and
`2 * i + 2`. Implementations that avoid swaps take an element out, move others into
the hole this leaves, one level at a time, and put the element down at the end.
`Holed` is what is true of the array in between: everything is in order that does not
involve the hole, and also *across* the hole, from its parent to its children.

The hole may move either way (`Holed.up`, `Holed.down`), and may be filled with any
element that fits between its parent and its children (`Holed.fill`).
-/

namespace CppTrack.Lib

variable {α κ : Type*} [LinearOrder κ] (key : α → κ)

def parent (i : Nat) : Nat := (i - 1) / 2

/-- No element of the first `n` is smaller than the one above it. -/
def IsHeap (f : Nat → α) (n : Nat) : Prop :=
  ∀ i, 0 < i → i < n → key (f (parent i)) ≤ key (f i)

/-- In order around the hole `h`. -/
structure Holed (f : Nat → α) (n h : Nat) : Prop where
  off : ∀ i, 0 < i → i < n → i ≠ h → parent i ≠ h → key (f (parent i)) ≤ key (f i)
  across : ∀ i, 0 < i → i < n → parent i = h → 0 < h → key (f (parent h)) ≤ key (f i)

variable {key} {f : Nat → α} {n h m : Nat} {e : α}

theorem parent_lt {i : Nat} (hi : 0 < i) : parent i < i := by
  unfold parent
  omega

theorem IsHeap.le_of_lt {l : Nat} (hf : IsHeap key f n) (hl : l ≤ n) : IsHeap key f l :=
  fun i h₀ hi => hf i h₀ (Nat.lt_of_lt_of_le hi hl)

/-- The top of a heap is its smallest element. -/
theorem IsHeap.top_le (hf : IsHeap key f n) (i : Nat) (hi : i < n) : key (f 0) ≤ key (f i) := by
  induction i using Nat.strongRecOn with
  | ind i ih =>
      rcases Nat.eq_zero_or_pos i with rfl | h₀
      · exact le_refl _
      · have hp := parent_lt h₀
        exact le_trans (ih _ hp (Nat.lt_trans hp hi)) (hf i h₀ hi)

/-- Any place of a heap can be made the hole. -/
theorem IsHeap.holed (hf : IsHeap key f n) (h : Nat) : Holed key f n h where
  off := fun i h₀ hi _ _ => hf i h₀ hi
  across := by
    intro i h₀ hi hp hh
    have hlt := parent_lt h₀
    have h₁ := hf i h₀ hi
    rw [hp] at h₁ hlt
    exact le_trans (hf h hh (Nat.lt_trans hlt hi)) h₁

/-- What stands in the hole does not matter. -/
theorem Holed.congr {key' : α → κ} {f' : Nat → α} (hf : Holed key f n h)
    (heq : ∀ i, i < n → i ≠ h → key' (f' i) = key (f i)) : Holed key' f' n h where
  off := by
    intro i h₀ hi hih hp
    rw [heq i hi hih, heq _ (Nat.lt_trans (parent_lt h₀) hi) hp]
    exact hf.off i h₀ hi hih hp
  across := by
    intro i h₀ hi hp hh
    have hlt := parent_lt h₀
    have hlt' := parent_lt hh
    rw [heq i hi (by omega), heq _ (by omega) (by omega)]
    exact hf.across i h₀ hi hp hh

/-- An element between the hole's parent and its children fills the hole. -/
theorem Holed.fill (hf : Holed key f n h) (hup : 0 < h → key (f (parent h)) ≤ key e)
    (hdown : ∀ i, 0 < i → i < n → parent i = h → key e ≤ key (f i)) :
    IsHeap key (Function.update f h e) n := by
  intro i h₀ hi
  have hlt := parent_lt h₀
  by_cases hih : i = h
  · subst hih
    rw [Function.update_self, Function.update_of_ne (by omega)]
    exact hup h₀
  · rw [Function.update_of_ne hih]
    by_cases hp : parent i = h
    · rw [hp, Function.update_self]
      exact hdown i h₀ hi hp
    · rw [Function.update_of_ne hp]
      exact hf.off i h₀ hi hih hp

/-- The hole moves up: its parent comes down into it. -/
theorem Holed.up (hf : Holed key f n h) (hh : 0 < h) (hn : h < n) :
    Holed key (Function.update f h (f (parent h))) n (parent h) := by
  have hlt := parent_lt hh
  -- the old parent is in order with what was above it
  have htop : 0 < parent h → key (f (parent (parent h))) ≤ key (f (parent h)) := by
    intro hp
    have := parent_lt hp
    exact hf.off _ hp (by omega) (by omega) (by omega)
  constructor
  · intro i h₀ hi hip hpp
    have hih : i ≠ h := fun he => hpp (he ▸ rfl)
    rw [Function.update_of_ne hih]
    by_cases hp : parent i = h
    · rw [hp, Function.update_self]
      exact hf.across i h₀ hi hp hh
    · rw [Function.update_of_ne hp]
      exact hf.off i h₀ hi hih hp
  · intro i h₀ hi hp hpos
    have := parent_lt hpos
    rw [Function.update_of_ne (show parent (parent h) ≠ h by omega)]
    by_cases hih : i = h
    · rw [hih, Function.update_self]
      exact htop hpos
    · rw [Function.update_of_ne hih]
      have h₁ := hf.off i h₀ hi hih (by omega)
      rw [hp] at h₁
      exact le_trans (htop hpos) h₁

/-- An element smaller than the hole's parent is small enough for the children of the next hole. -/
theorem Holed.up_children (hf : Holed key f n h) (hh : 0 < h) (he : key e ≤ key (f (parent h))) :
    ∀ i, 0 < i → i < n → parent i = parent h →
      key e ≤ key (Function.update f h (f (parent h)) i) := by
  have hlt := parent_lt hh
  intro i h₀ hi hp
  by_cases hih : i = h
  · rw [hih, Function.update_self]
    exact he
  · rw [Function.update_of_ne hih]
    have h₁ := hf.off i h₀ hi hih (by omega)
    rw [hp] at h₁
    exact le_trans he h₁

/-- The hole moves down: its smaller child comes up into it. -/
theorem Holed.down (hf : Holed key f n h) (hm : 0 < m) (hmn : m < n) (hp : parent m = h)
    (hmin : ∀ i, 0 < i → i < n → parent i = h → key (f m) ≤ key (f i)) :
    Holed key (Function.update f h (f m)) n m := by
  have hlt := parent_lt hm
  constructor
  · intro i h₀ hi him hpm
    have := parent_lt h₀
    by_cases hih : i = h
    · subst hih
      rw [Function.update_self, Function.update_of_ne (by omega)]
      exact hf.across m hm hmn hp h₀
    · rw [Function.update_of_ne hih]
      by_cases hpi : parent i = h
      · rw [hpi, Function.update_self]
        exact hmin i h₀ hi hpi
      · rw [Function.update_of_ne hpi]
        exact hf.off i h₀ hi hih hpi
  · intro i h₀ hi hpi _
    have := parent_lt h₀
    rw [hp, Function.update_self, Function.update_of_ne (by omega)]
    have h₁ := hf.off i h₀ hi (by omega) (by omega)
    rwa [hpi] at h₁

end CppTrack.Lib
