import Mathlib.Data.List.Basic

/-!
# Messages cut into numbered pieces

The pieces of a message each say how many more are to come, so that the last one says 0. Several
messages follow each other without anything between them; how they were cut is still plain from
the numbers.
-/

namespace CppTrack.Lib

variable {α : Type*} {tag : α → Nat} {g h l l' : List α} {gs hs : List (List α)}

/-- The pieces of one message: they count down to 0. -/
structure IsCountdown (tag : α → Nat) (g : List α) : Prop where
  ne_nil : g ≠ []
  tags : g.map tag = (List.range g.length).reverse

/-- The first piece says how many there are. -/
theorem IsCountdown.length_eq {a : α} (h : IsCountdown tag (a :: l)) :
    (a :: l).length = tag a + 1 := by
  have htags := h.tags
  rw [List.length_cons, List.range_succ, List.reverse_append, List.map_cons] at htags
  have hhead := (List.cons.inj htags).1
  rw [List.length_cons, hhead]

/-- A countdown is taken from the front of a list as far as the first piece says. -/
theorem IsCountdown.eq_take {a : α} {rest : List α} (h : IsCountdown tag g)
    (hfront : g ++ rest = a :: l) : g = (a :: l).take (tag a + 1) := by
  cases g with
  | nil => exact absurd rfl h.ne_nil
  | cons b g =>
      obtain ⟨rfl, htail⟩ := List.cons.inj hfront
      rw [← h.length_eq, ← hfront, List.take_left' rfl]

/-- Only the last piece says 0. -/
theorem IsCountdown.last (h : IsCountdown tag g) :
    ∃ front z, g = front ++ [z] ∧ tag z = 0 ∧ ∀ x ∈ front, tag x ≠ 0 := by
  have hsplit := List.dropLast_append_getLast h.ne_nil
  have htags := h.tags
  have hlen : g.length = g.dropLast.length + 1 := by
    have hsum := congrArg List.length hsplit
    rw [List.length_append, List.length_singleton] at hsum
    exact hsum.symm
  rw [hlen, List.range_succ_eq_map, List.reverse_cons] at htags
  conv at htags => lhs; rw [← hsplit]
  rw [List.map_append, List.map_singleton] at htags
  obtain ⟨hfront, hlast⟩ := List.append_inj' htags rfl
  refine ⟨g.dropLast, g.getLast h.ne_nil, hsplit.symm, (List.cons.inj hlast).1, fun x hx => ?_⟩
  have hmem : tag x ∈ ((List.range g.dropLast.length).map Nat.succ).reverse :=
    hfront ▸ List.mem_map_of_mem hx
  obtain ⟨n, -, hn⟩ := List.mem_map.mp (List.mem_reverse.mp hmem)
  omega

/-- Two lists of messages whose pieces begin alike begin alike themselves. -/
theorem prefix_of_flatten (hh : ∀ h ∈ hs, IsCountdown tag h) (hg : ∀ g ∈ gs, IsCountdown tag g)
    (hfront : hs.flatten <+: gs.flatten) : hs <+: gs := by
  induction hs generalizing gs with
  | nil => exact List.nil_prefix
  | cons h hs ih =>
      have hcount := hh h List.mem_cons_self
      obtain ⟨rest, hrest⟩ := hfront
      cases gs with
      | nil =>
          -- the first message has a piece, and there is none
          rw [List.flatten_cons, List.flatten_nil] at hrest
          have hnil := (List.append_eq_nil_iff.mp (List.append_eq_nil_iff.mp hrest).1).1
          exact absurd hnil hcount.ne_nil
      | cons g gs =>
          have hcount' := hg g List.mem_cons_self
          rw [List.flatten_cons, List.flatten_cons, List.append_assoc] at hrest
          have hsame : h = g := by
            cases hall : g ++ gs.flatten with
            | nil => exact absurd (List.append_eq_nil_iff.mp hall).1 hcount'.ne_nil
            | cons a l => rw [hcount.eq_take (hrest.trans hall), hcount'.eq_take hall]
          subst hsame
          refine List.cons_prefix_cons.mpr ⟨rfl, ih (fun x hx => hh x (List.mem_cons_of_mem h hx))
            (fun x hx => hg x (List.mem_cons_of_mem h hx)) ⟨rest, List.append_cancel_left hrest⟩⟩

/-- The first piece says how long the first message is, and where enough pieces are there, it is
made of them. -/
theorem first_countdown {a : α} (hg : ∀ g ∈ gs, IsCountdown tag g)
    (hfront : a :: l <+: gs.flatten) : ∃ g gs', gs = g :: gs' ∧ g.length = tag a + 1 ∧
      (tag a < (a :: l).length → g = (a :: l).take (tag a + 1)) := by
  obtain ⟨rest, hrest⟩ := hfront
  cases gs with
  | nil => exact absurd hrest (by simp)
  | cons g gs =>
      have hcount := hg g List.mem_cons_self
      rw [List.flatten_cons, List.cons_append] at hrest
      have htake := hcount.eq_take hrest.symm
      refine ⟨g, gs, rfl, ?_, fun hlen => ?_⟩
      · cases g with
        | nil => exact absurd rfl hcount.ne_nil
        | cons b g =>
            obtain ⟨rfl, -⟩ := List.cons.inj hrest
            exact hcount.length_eq
      · rw [← List.cons_append, List.take_append_of_le_length hlen] at htake
        exact htake

end CppTrack.Lib
