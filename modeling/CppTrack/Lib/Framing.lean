import Mathlib.Data.List.Basic

/-!
# Frames in a stream

A stream is cut into frames, one after the other. `size` tells how long the first frame is once it
can be told and the frame is all there. The stream may arrive in any pieces: cutting what is there
each time a piece arrives cuts the same frames (`Cuts.split`).
-/

namespace CppTrack.Lib

variable {β : Type*}

/-- The stream is these frames, each of a size that is `ok`, and the start of another. -/
inductive Cuts (size : List β → Option Nat) (ok : Nat → Prop) :
    List β → List (List β) → List β → Prop
  | wait {l : List β} (h : size l = none) : Cuts size ok l [] l
  | frame {l r : List β} {n : Nat} {fs : List (List β)} (h : size l = some n) (hok : ok n)
      (hrest : Cuts size ok (l.drop n) fs r) : Cuts size ok l (l.take n :: fs) r

/-- Neither what follows the first frame nor how much of it is there changes its size. -/
structure Framing (size : List β → Option Nat) (ok : Nat → Prop) : Prop where
  le : ∀ l n, size l = some n → n ≤ l.length
  append : ∀ l m n, size l = some n → size (l ++ m) = some n
  whole : ∀ l m n, size (l ++ m) = some n → ok n → n ≤ l.length → size l = some n

variable {size : List β → Option Nat} {ok : Nat → Prop} {l m r r' : List β}
  {fs fs' : List (List β)}

theorem Cuts.unique (h : Cuts size ok l fs r) (h' : Cuts size ok l fs' r') : fs = fs' ∧ r = r' := by
  induction h generalizing fs' with
  | wait hnone =>
      cases h' with
      | wait => exact ⟨rfl, rfl⟩
      | frame hsome => exact absurd (hnone.symm.trans hsome) nofun
  | frame hsome hok hrest ih =>
      cases h' with
      | wait hnone => exact absurd (hsome.symm.trans hnone) nofun
      | frame hsome' hok' hrest' =>
          obtain rfl := Option.some.inj (hsome.symm.trans hsome')
          obtain ⟨rfl, rfl⟩ := ih hrest'
          exact ⟨rfl, rfl⟩

theorem Cuts.rest_size (h : Cuts size ok l fs r) : size r = none := by
  induction h with
  | wait hnone => exact hnone
  | frame _ _ _ ih => exact ih

/-- **The frames of a stream are those of its first part, and then those of what is left of the
first part with the second.** -/
theorem Cuts.split (F : Framing size ok) (h : Cuts size ok (l ++ m) fs r) :
    ∃ gs s hs, Cuts size ok l gs s ∧ Cuts size ok (s ++ m) hs r ∧ fs = gs ++ hs := by
  generalize hx : l ++ m = x at h
  induction h generalizing l with
  | wait hnone =>
      subst hx
      have hl : size l = none := by
        cases hs : size l with
        | none => rfl
        | some n => exact absurd ((F.append l m n hs).symm.trans hnone) nofun
      exact ⟨[], l, [], .wait hl, .wait hnone, rfl⟩
  | frame hsome hok hrest ih =>
      rename_i x r n fs
      subst hx
      cases hs : size l with
      | none => exact ⟨[], l, _, .wait hs, .frame hsome hok hrest, rfl⟩
      | some n' =>
          obtain rfl := Option.some.inj ((F.append l m n' hs).symm.trans hsome)
          have hle := F.le l n' hs
          obtain ⟨gs, s, hs', hg, hh, rfl⟩ := ih (List.drop_append_of_le_length hle).symm
          refine ⟨l.take n' :: gs, s, hs', .frame hs hok hg, hh, ?_⟩
          rw [List.take_append_of_le_length hle]
          rfl

/-- Frames one after the other are cut as they are. -/
theorem cuts_flatten (F : Framing size ok) (hnil : size [] = none) (fs : List (List β))
    (h : ∀ f ∈ fs, size f = some f.length ∧ ok f.length) : Cuts size ok fs.flatten fs [] := by
  induction fs with
  | nil => exact .wait hnil
  | cons f fs ih =>
      obtain ⟨hsize, hok⟩ := h f List.mem_cons_self
      have hrest := ih fun g hg => h g (List.mem_cons_of_mem _ hg)
      have hframe := Cuts.frame (l := f ++ fs.flatten) (F.append f _ _ hsize) hok
        (by rwa [List.drop_left' rfl])
      rwa [List.take_left' rfl] at hframe

/-- What is left waits for the rest of the next frame, and so is shorter than that. -/
theorem Cuts.rest_lt (F : Framing size ok) (h : Cuts size ok (l ++ m) fs []) (hl : size l = none) :
    l = [] ∨ ∃ f ∈ fs, l.length < f.length := by
  generalize hx : l ++ m = x at h
  cases h with
  | wait => exact .inl (List.append_eq_nil_iff.mp hx).1
  | frame hsome hok hrest =>
      rename_i n fs
      subst hx
      refine .inr ⟨_, List.mem_cons_self, ?_⟩
      have hlt : l.length < n := by
        by_contra hge
        exact absurd (hl.symm.trans (F.whole l m n hsome hok (Nat.not_lt.mp hge))) nofun
      rw [List.length_take]
      exact Nat.lt_min.mpr ⟨hlt, Nat.lt_of_lt_of_le hlt (F.le _ n hsome)⟩

end CppTrack.Lib
