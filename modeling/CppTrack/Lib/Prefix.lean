import Mathlib.Data.List.TakeWhile

/-!
# Prefixes of ordered lists

In a list that is ordered so that what has a property comes first, what has it is a prefix: to
take while the property holds is to filter.
-/

namespace CppTrack.Lib

variable {α : Type*} {p q : α → Bool} {l : List α}

theorem filter_eq_takeWhile (h : l.Pairwise fun a b => p b = true → p a = true) :
    l.filter p = l.takeWhile p := by
  induction l with
  | nil => rfl
  | cons a l ih =>
      obtain ⟨ha, hl⟩ := List.pairwise_cons.mp h
      cases hp : p a with
      | true =>
          rw [List.filter_cons_of_pos hp, List.takeWhile_cons_of_pos hp, ih hl]
      | false =>
          rw [List.filter_cons_of_neg (by simp [hp]), List.takeWhile_cons_of_neg (by simp [hp]),
            List.filter_eq_nil_iff]
          intro b hb hpb
          rw [ha b hb hpb] at hp
          exact absurd hp nofun

theorem filter_not_eq_dropWhile (h : l.Pairwise fun a b => p b = true → p a = true) :
    l.filter (fun a => !p a) = l.dropWhile p := by
  induction l with
  | nil => rfl
  | cons a l ih =>
      obtain ⟨ha, hl⟩ := List.pairwise_cons.mp h
      cases hp : p a with
      | true =>
          rw [List.filter_cons_of_neg (by simp [hp]), List.dropWhile_cons_of_pos hp, ih hl]
      | false =>
          rw [List.dropWhile_cons_of_neg (by simp [hp]), List.filter_eq_self]
          intro b hb
          rcases List.mem_cons.mp hb with rfl | hb
          · simp [hp]
          · cases hpb : p b with
            | true =>
                rw [ha b hb hpb] at hp
                exact absurd hp nofun
            | false => rfl

/-- Two prefixes of the same length are the same, and so is what follows them. -/
theorem takeWhile_eq_of_length (h : (l.takeWhile p).length = (l.takeWhile q).length) :
    l.takeWhile p = l.takeWhile q ∧ l.dropWhile p = l.dropWhile q := by
  have happend : l.takeWhile p ++ l.dropWhile p = l.takeWhile q ++ l.dropWhile q := by
    rw [List.takeWhile_append_dropWhile, List.takeWhile_append_dropWhile]
  exact List.append_inj happend h

/-- A prefix is what one takes if all of it has the property and what follows does not begin
with it. -/
theorem takeWhile_append_eq {m : List α} (hl : ∀ a ∈ l, p a = true)
    (hm : ∀ a ∈ m.head?, p a = false) :
    (l ++ m).takeWhile p = l ∧ (l ++ m).dropWhile p = m := by
  rw [List.takeWhile_append_of_pos hl, List.dropWhile_append_of_pos hl]
  cases m with
  | nil => exact ⟨List.append_nil l, rfl⟩
  | cons a m =>
      have ha := hm a rfl
      rw [List.takeWhile_cons_of_neg (by simp [ha]), List.dropWhile_cons_of_neg (by simp [ha])]
      exact ⟨List.append_nil l, rfl⟩

/-- What follows begins with what lacks the property. -/
theorem head_dropWhile {a : α} (h : a ∈ (l.dropWhile p).head?) : p a = false := by
  have hnot := List.head?_dropWhile_not p l
  rw [Option.mem_def.mp h] at hnot
  simpa using hnot

end CppTrack.Lib
