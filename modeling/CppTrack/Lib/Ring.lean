import Mathlib.Data.List.Basic
import Mathlib.Data.List.Range

/-!
# Circular arrays

An array of `size` elements used as a ring: element `start + k` is at place
`(start + k) % size`. A transfer of several elements is made in two straight copies,
one up to the end of the array and one from its beginning. `window` is a run of
elements read round the ring; the lemmas say that two copies read and write one.
-/

namespace CppTrack.Lib

variable {α : Type*}

/-- `n` elements from `start` on, round the ring. -/
def window (buf : Nat → α) (size start n : Nat) : List α :=
  (List.range n).map fun k => buf ((start + k) % size)

/-- `n` elements from `off` on, straight. -/
def slice (buf : Nat → α) (off n : Nat) : List α := (List.range n).map fun k => buf (off + k)

/-- The array with `data` copied to `off`. -/
def blit (buf : Nat → α) (off : Nat) (data : List α) : Nat → α := fun p =>
  if off ≤ p then (data[p - off]?).getD (buf p) else buf p

/-- The array with `data` copied to `off` and, past the end, to the beginning. -/
def blitRound (buf : Nat → α) (size off : Nat) (data : List α) : Nat → α :=
  blit (blit buf off (data.take (size - off))) 0 (data.drop (size - off))

variable {buf buf' : Nat → α} {size start off n m : Nat} {data : List α}

@[simp] theorem window_length : (window buf size start n).length = n := by simp [window]

@[simp] theorem window_zero : window buf size start 0 = [] := rfl

theorem window_add :
    window buf size start (n + m) = window buf size start n ++ window buf size (start + n) m := by
  unfold window
  rw [List.range_add, List.map_append, List.map_map]
  refine congrArg _ (List.map_congr_left fun k _ => ?_)
  simp only [Function.comp_apply, Nat.add_assoc]

theorem window_mod (buf : Nat → α) (size start n : Nat) :
    window buf size (start % size) n = window buf size start n := by
  unfold window
  exact List.map_congr_left fun k _ => by rw [Nat.mod_add_mod]

theorem window_congr (h : ∀ k, k < n → buf' ((start + k) % size) = buf ((start + k) % size)) :
    window buf' size start n = window buf size start n :=
  List.map_congr_left fun k hk => h k (List.mem_range.mp hk)

/-- A window that does not reach the end is straight. -/
theorem window_straight (h : off + n ≤ size) : window buf size off n = slice buf off n :=
  List.map_congr_left fun k hk => by
    rw [Nat.mod_eq_of_lt (by have := List.mem_range.mp hk; omega)]

/-- Two straight reads make a window. -/
theorem slice_append_slice (hoff : off < size) (hn : n ≤ size) :
    slice buf off (min n (size - off)) ++ slice buf 0 (n - min n (size - off)) =
      window buf size off n := by
  have hsplit : n = min n (size - off) + (n - min n (size - off)) := by omega
  conv_rhs => rw [hsplit, window_add]
  rw [window_straight (by omega)]
  refine congrArg _ ?_
  rcases Nat.le_total n (size - off) with hle | hle
  · rw [Nat.min_eq_left hle, Nat.sub_self]
    rfl
  · rw [Nat.min_eq_right hle, show off + (size - off) = size by omega,
      ← window_mod buf size size, Nat.mod_self, window_straight (by omega)]

theorem blit_apply (p : Nat) :
    blit buf off data p = if off ≤ p then (data[p - off]?).getD (buf p) else buf p := rfl

/-- Two straight writes write round the ring. -/
theorem blitRound_apply (hoff : off < size) (hdata : data.length ≤ size) {k : Nat}
    (hk : k < size) :
    blitRound buf size off data ((off + k) % size) =
      (data[k]?).getD (buf ((off + k) % size)) := by
  unfold blitRound
  rw [blit_apply, if_pos (Nat.zero_le _), blit_apply, Nat.sub_zero, List.getElem?_drop]
  rcases Nat.lt_or_ge (off + k) size with hlt | hge
  · -- before the end: only the first copy reaches this far
    rw [Nat.mod_eq_of_lt hlt, if_pos (by omega), Nat.add_sub_cancel_left,
      List.getElem?_eq_none (by omega), List.getElem?_take_of_lt (by omega)]
    rfl
  · have hmod : (off + k) % size = off + k - size := by
      rw [Nat.mod_eq_sub_mod hge, Nat.mod_eq_of_lt (by omega)]
    rw [hmod, if_neg (by omega), show size - off + (off + k - size) = k by omega]

/-- What is written after a window that leaves room for it makes the window longer. -/
theorem window_blitRound (buf : Nat → α) (start : Nat) (data : List α) (hsize : 0 < size)
    (hroom : n + data.length ≤ size) :
    window (blitRound buf size ((start + n) % size) data) size start (n + data.length) =
      window buf size start n ++ data := by
  have hoff : (start + n) % size < size := Nat.mod_lt _ hsize
  rw [window_add]
  congr 1
  · -- the elements of the window are ahead of the new ones on the way round
    refine window_congr fun k hk => ?_
    have hplace : (start + k) % size = ((start + n) % size + (size - n + k)) % size := by
      rw [Nat.mod_add_mod, show start + n + (size - n + k) = start + k + size by omega,
        Nat.add_mod_right]
    rw [hplace, blitRound_apply hoff (by omega) (by omega), List.getElem?_eq_none (by omega)]
    rfl
  · refine List.ext_getElem (by simp) fun k h₁ h₂ => ?_
    have hplace : (start + n + k) % size = ((start + n) % size + k) % size := by
      rw [Nat.mod_add_mod]
    simp only [window, List.getElem_map, List.getElem_range]
    rw [hplace, blitRound_apply hoff (by omega) (by omega), List.getElem?_eq_getElem h₂]
    rfl

end CppTrack.Lib
