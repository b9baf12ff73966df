import Mathlib.Data.List.Basic

/-!
# Blocks of memory

A block is a list of cells. A copy inside or between blocks is `copyOut`, which takes cells out, and
`copyTo`, which puts them in; both are undefined outside the block. A cell that was never written is
`none` where that matters.
-/

namespace CppTrack.Lib

variable {β : Type*}

/-- The `len` cells from `off` on. -/
def copyOut (block : List β) (off len : Nat) : Option (List β) :=
  if off + len ≤ block.length then some ((block.drop off).take len) else none

/-- The block with these cells from `off` on. -/
def copyTo (block : List β) (off : Nat) (cells : List β) : Option (List β) :=
  if off + cells.length ≤ block.length then
    some (block.take off ++ cells ++ block.drop (off + cells.length))
  else none

/-- The block made `n` cells long, by cutting it or with new cells. -/
def resize (fresh : β) (block : List β) (n : Nat) : List β :=
  block.take n ++ List.replicate (n - block.length) fresh

@[simp] theorem length_resize (fresh : β) (block : List β) (n : Nat) :
    (resize fresh block n).length = n := by
  simp only [resize, List.length_append, List.length_take, List.length_replicate]
  omega

variable {block block' pre mid post cells : List β} {off len : Nat}

theorem length_copyTo (h : copyTo block off cells = some block') :
    block'.length = block.length := by
  obtain ⟨hle, heq⟩ := Option.ite_none_right_eq_some.mp h
  obtain rfl := Option.some.inj heq
  simp only [List.length_append, List.length_take, List.length_drop]
  omega

/-- Cells written over others of the same number, wherever these are. -/
theorem copyTo_middle (hoff : off = pre.length) (hlen : cells.length = mid.length) :
    copyTo (pre ++ (mid ++ post)) off cells = some (pre ++ (cells ++ post)) := by
  subst hoff
  have hle : pre.length + cells.length ≤ (pre ++ (mid ++ post)).length := by
    simp only [List.length_append]
    omega
  rw [copyTo, if_pos hle, List.take_left', hlen, ← List.drop_drop, List.drop_left', List.drop_left',
    List.append_assoc]
  · rfl
  · rfl
  · rfl

theorem length_copyOut (h : copyOut block off len = some cells) : cells.length = len := by
  obtain ⟨hle, heq⟩ := Option.ite_none_right_eq_some.mp h
  obtain rfl := Option.some.inj heq
  rw [List.length_take, List.length_drop]
  omega

theorem copyTo_nil (h : off ≤ block.length) : copyTo block off [] = some block := by
  rw [copyTo, List.length_nil, Nat.add_zero, if_pos h, List.append_nil, List.take_append_drop]

/-- Two pieces written one behind the other are written as one. -/
theorem copyTo_append (block : List β) (off : Nat) (cells cells' : List β) :
    ((copyTo block off cells).bind fun b => copyTo b (off + cells.length) cells') =
      copyTo block off (cells ++ cells') := by
  by_cases hle : off + cells.length ≤ block.length
  · have hhead : (block.take off ++ cells).length = off + cells.length := by
      rw [List.length_append, List.length_take]
      omega
    have hlen : (block.take off ++ cells ++ block.drop (off + cells.length)).length =
        block.length := by
      rw [List.length_append, hhead, List.length_drop]
      omega
    rw [copyTo, if_pos hle, Option.bind_some, copyTo, copyTo, hlen, List.length_append,
      ← Nat.add_assoc]
    split
    · have hrest : (block.take off ++ cells ++ block.drop (off + cells.length)).drop
          (off + cells.length + cells'.length) =
          block.drop (off + cells.length + cells'.length) := by
        rw [← List.drop_drop, List.drop_left' hhead, List.drop_drop]
      rw [hrest, List.take_left' hhead]
      simp only [List.append_assoc]
    · rfl
  · have hle' : ¬ off + (cells ++ cells').length ≤ block.length := by
      rw [List.length_append]
      omega
    rw [copyTo, if_neg hle, copyTo, if_neg hle']
    rfl

/-- Cells written behind the first part. -/
theorem copyTo_behind (hoff : off = pre.length) (hle : cells.length ≤ post.length) :
    copyTo (pre ++ post) off cells = some (pre ++ cells ++ post.drop cells.length) := by
  have hcut : (post.take cells.length).length = cells.length := by
    rw [List.length_take]
    omega
  rw [← List.take_append_drop cells.length post, copyTo_middle hoff hcut.symm,
    List.drop_left' hcut, List.append_assoc]

/-- Cells written from the front on. -/
theorem copyTo_front (hle : cells.length ≤ block.length) :
    copyTo block 0 cells = some (cells ++ block.drop cells.length) := by
  have hnil : ([] : List β).length = 0 := rfl
  exact copyTo_behind hnil.symm hle

/-- As many cells as the block has. -/
theorem copyTo_whole (hlen : cells.length = block.length) : copyTo block 0 cells = some cells := by
  rw [copyTo_front (Nat.le_of_eq hlen), hlen, List.drop_length, List.append_nil]

theorem copyOut_middle (hoff : off = pre.length) (hlen : len = mid.length) :
    copyOut (pre ++ (mid ++ post)) off len = some mid := by
  subst hoff hlen
  have hle : pre.length + mid.length ≤ (pre ++ (mid ++ post)).length := by
    simp only [List.length_append]
    omega
  rw [copyOut, if_pos hle, List.drop_left', List.take_left']
  · rfl
  · rfl

/-- A piece that lies inside what the block starts with. -/
theorem copyOut_of_start (hpre : pre <+: block) (hle : off + len ≤ pre.length) :
    copyOut block off len = some ((pre.drop off).take len) := by
  obtain ⟨post, rfl⟩ := hpre
  have hin : off + len ≤ (pre ++ post).length := by
    rw [List.length_append]
    omega
  rw [copyOut, if_pos hin, List.drop_append_of_le_length (by omega),
    List.take_append_of_le_length (by rw [List.length_drop]; omega)]

/-- What has been written is read back. -/
theorem copyOut_copyTo (h : copyTo block off cells = some block') :
    copyOut block' off cells.length = some cells := by
  obtain ⟨hle, heq⟩ := Option.ite_none_right_eq_some.mp h
  obtain rfl := Option.some.inj heq
  rw [List.append_assoc]
  exact copyOut_middle (by rw [List.length_take]; omega) rfl

/-- Cells beside those that are written stay what they were. -/
theorem copyOut_beside {off' : Nat} (h : copyTo block off cells = some block')
    (hside : off' + len ≤ off ∨ off + cells.length ≤ off') :
    copyOut block' off' len = copyOut block off' len := by
  have hlen := length_copyTo h
  obtain ⟨hle, heq⟩ := Option.ite_none_right_eq_some.mp h
  obtain rfl := Option.some.inj heq
  have hcells : ((block.take off ++ cells ++ block.drop (off + cells.length)).drop off').take len =
      (block.drop off').take len := by
    rcases hside with hleft | hright
    · rw [List.append_assoc, List.drop_append_of_le_length (by rw [List.length_take]; omega),
        List.take_append_of_le_length (by rw [List.length_drop, List.length_take]; omega),
        List.drop_take, List.take_take, Nat.min_eq_left (by omega)]
    · have hpre : (block.take off ++ cells).length = off + cells.length := by
        rw [List.length_append, List.length_take]
        omega
      obtain ⟨k, rfl⟩ := Nat.exists_eq_add_of_le hright
      rw [← List.drop_drop, List.drop_left' hpre, List.drop_drop]
  rw [copyOut, copyOut, hlen, hcells]

/-! ## Rows of codes of one length -/

section

variable {α : Type*} {enc : α → List β} {k : Nat} (henc : ∀ a, (enc a).length = k)

include henc

/-- A code written over the `i`th of a row. -/
theorem copyTo_flatMap (as : List α) (i : Nat) (a : α) (hi : i < as.length)
    (hoff : off = pre.length + k * i) :
    copyTo (pre ++ (as.flatMap enc ++ post)) off (enc a) =
      some (pre ++ ((as.set i a).flatMap enc ++ post)) := by
  induction as generalizing pre i with
  | nil => exact absurd hi (Nat.not_lt_zero _)
  | cons b as ih =>
      rw [List.flatMap_cons, List.append_assoc]
      cases i with
      | zero =>
          rw [List.set_cons_zero, List.flatMap_cons, List.append_assoc]
          exact copyTo_middle hoff ((henc a).trans (henc b).symm)
      | succ i =>
          have hlen : off = (pre ++ enc b).length + k * i := by
            rw [hoff, List.length_append, henc, Nat.mul_succ]
            omega
          have hrec := ih i (Nat.lt_of_succ_lt_succ hi) hlen
          rw [List.append_assoc] at hrec
          rw [hrec, List.set_cons_succ, List.flatMap_cons]
          simp only [List.append_assoc]

/-- The `i`th code of a row. -/
theorem take_drop_flatMap (as : List α) (i : Nat) (a : α) (hi : as[i]? = some a)
    (hoff : off = pre.length + k * i) :
    ((pre ++ (as.flatMap enc ++ post)).drop off).take k = enc a := by
  induction as generalizing pre i with
  | nil => exact absurd hi nofun
  | cons b as ih =>
      rw [List.flatMap_cons, List.append_assoc]
      cases i with
      | zero =>
          obtain rfl := Option.some.inj hi
          rw [List.drop_left' hoff.symm, List.take_left' (henc b)]
      | succ i =>
          have hlen : off = (pre ++ enc b).length + k * i := by
            rw [hoff, List.length_append, henc, Nat.mul_succ]
            omega
          have hrec := ih i hi hlen
          rwa [List.append_assoc] at hrec

end

end CppTrack.Lib
