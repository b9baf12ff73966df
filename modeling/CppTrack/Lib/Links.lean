import Mathlib.Data.List.Nodup
import Mathlib.Logic.Function.Basic

/-!
# Linked lists

The nodes of a list know the link to the next one; a link names a node, and says more if
its type does. `Path` is a list of links that can be followed one after another to the end
of the list. A list grows at its end by a store to the last node, and at its front by a
store to the new one.
-/

namespace CppTrack.Lib

/-- What is not at `n` stays where it is when `n` changes. -/
theorem update_eq_of_ne {α β : Type*} [DecidableEq α] {f : α → β} {m n : α} {a : β}
    (hm : f m = a) (hn : f n ≠ a) (b : β) : Function.update f n b m = a := by
  rw [Function.update_of_ne, hm]
  rintro rfl
  exact hn hm

variable {ι ν : Type*} (node : ι → ν) (null : ι)

/-- From the link `i`, following `next` from node to node, one meets `l` and then ends. -/
def Path (next : ν → ι) : ι → List ι → Prop
  | i, [] => i = null
  | i, a :: l => i = a ∧ Path next (next (node a)) l

section

variable {node null} {next next' : ν → ι} {i x y : ι} {l : List ι}

/-- A path is not broken by a store to another node. -/
theorem Path.congr (h : Path node null next i l)
    (hsame : ∀ a ∈ l, next' (node a) = next (node a)) : Path node null next' i l := by
  induction l generalizing i with
  | nil => exact h
  | cons a l ih =>
      refine ⟨h.1, ?_⟩
      rw [hsame a List.mem_cons_self]
      exact ih h.2 fun b hb => hsame b (List.mem_cons_of_mem a hb)

/-- A path from a link that is not null begins with it. -/
theorem Path.eq_cons (h : Path node null next i l) (hi : i ≠ null) :
    l = i :: l.tail ∧ Path node null next (next (node i)) l.tail := by
  cases l with
  | nil => exact absurd h hi
  | cons a l =>
      obtain ⟨rfl, h⟩ := h
      exact ⟨rfl, h⟩

theorem Path.eq_nil (h : Path node null next null l) (hl : ∀ a ∈ l, a ≠ null) : l = [] := by
  cases l with
  | nil => rfl
  | cons a l => exact absurd h.1.symm (hl a List.mem_cons_self)

/-- There is one path from a link. -/
theorem Path.unique {l' : List ι} (h : Path node null next i l) (h' : Path node null next i l')
    (hl : ∀ a ∈ l, a ≠ null) (hl' : ∀ a ∈ l', a ≠ null) : l = l' := by
  induction l generalizing i l' with
  | nil =>
      obtain rfl : i = null := h
      exact (h'.eq_nil hl').symm
  | cons a l ih =>
      obtain ⟨rfl, h⟩ := h
      obtain ⟨hcons, htail⟩ := h'.eq_cons (hl i List.mem_cons_self)
      rw [hcons]
      refine congrArg (i :: ·) (ih h htail (fun b hb => hl b (List.mem_cons_of_mem i hb)) ?_)
      exact fun b hb => hl' b (hcons ▸ List.mem_cons_of_mem i hb)

/-- The last node is set to point to a node that points nowhere. -/
theorem Path.concat [DecidableEq ν] (h : Path node null next i l) (hl : ∀ a ∈ l, a ≠ null)
    (hnodup : (l.map node).Nodup) (hx : x ∈ l) (hlast : next (node x) = null)
    (hy : next (node y) = null) (hnew : node y ∉ l.map node) :
    Path node null (Function.update next (node x) y) i (l ++ [y]) := by
  have hne : ∀ a ∈ l, node y ≠ node a := fun a ha he => hnew (he ▸ List.mem_map_of_mem ha)
  have hy' : Function.update next (node x) y (node y) = null := by
    rw [Function.update_of_ne (hne x hx), hy]
  induction l generalizing i with
  | nil => exact absurd hx List.not_mem_nil
  | cons a l ih =>
      obtain ⟨rfl, h⟩ := h
      rw [List.map_cons, List.nodup_cons] at hnodup
      rw [List.cons_append]
      refine ⟨rfl, ?_⟩
      rcases List.mem_cons.mp hx with rfl | hx
      · -- nothing comes after the last one
        rw [hlast] at h
        rw [h.eq_nil fun b hb => hl b (List.mem_cons_of_mem _ hb), Function.update_self]
        exact ⟨rfl, hy'⟩
      · have hax : node i ≠ node x := fun he => hnodup.1 (he ▸ List.mem_map_of_mem hx)
        rw [Function.update_of_ne hax]
        exact ih h (fun b hb => hl b (List.mem_cons_of_mem i hb)) hnodup.2 hx
          (fun hmem => hnew (List.mem_cons_of_mem _ hmem))
          (fun b hb => hne b (List.mem_cons_of_mem i hb))

end

end CppTrack.Lib
