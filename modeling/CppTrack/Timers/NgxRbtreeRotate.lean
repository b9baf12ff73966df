import CppTrack.Timers.NgxRbtreeLinks

/-!
# Rotations in the tree of nginx

A rotation turns the tree at one place, where a node has a child on the far side, and changes the
link that leads to the place. Keys, colours and the parent of the sentinel stay as they are.
-/

namespace CppTrack.Ngx

open Lib Coloured

variable {T : NgxRbtree} {side : Side} {x y : Nat}

/-- The stores of a rotation at `x`, whose child `y` comes up. -/
structure Rotated (T T' : NgxRbtree) (side : Side) (x y : Nat) : Prop where
  sentinel : T'.sentinel = T.sentinel
  key : ∀ a, T'.key a = T.key a
  colorOf : ∀ a, T'.colorOf a = T.colorOf a
  root : T'.root = if x = T.root then y else T.root
  parent : ∀ a, T'.parent a =
    if a = x then y else if a = y then T.parent x
    else if a = T.child side y ∧ a ≠ T.sentinel then x else T.parent a
  child : ∀ s a, T'.child s a =
    if a = y ∧ s = side then x else if a = x ∧ s = side.other then T.child side y
    else if x ≠ T.root ∧ a = T.parent x ∧
      s = (if x = T.child side (T.parent x) then side else side.other) then y else T.child s a

/-- The first stores: what was between the two nodes goes over to `x`. -/
theorem rotate_first (hy : T.child side.other x = y) (hxy : y ≠ x) :
    ∃ T₁ : NgxRbtree, rotate side T x = (
      let T := T₁.setParent y (T₁.parent x)
      let T :=
        if x = T.root then T.setRoot y
        else if x = T.child side (T.parent x) then T.setChild side (T.parent x) y
        else T.setChild side.other (T.parent x) y
      (T.setChild side y x).setParent x y) ∧
      T₁.sentinel = T.sentinel ∧ T₁.root = T.root ∧ (∀ a, T₁.key a = T.key a) ∧
      (∀ a, T₁.colorOf a = T.colorOf a) ∧
      (∀ s a, T₁.child s a = if a = x ∧ s = side.other then T.child side y else T.child s a) ∧
      ∀ a, T₁.parent a = if a = T.child side y ∧ a ≠ T.sentinel then x else T.parent a := by
  subst hy
  refine ⟨_, rfl, ?_⟩
  by_cases hz : T.child side (T.child side.other x) = T.sentinel
  · simp [hxy, hz]
  · simp [hxy, hz]
    grind

theorem rotate_rotated (hy : T.child side.other x = y) (hxy : y ≠ x) (hinner : T.child side y ≠ x)
    (hparent : x ≠ T.root → T.parent x ≠ x ∧ T.parent x ≠ y) :
    Rotated T (rotate side T x) side x y := by
  obtain ⟨T₁, hrotate, hs, hroot, hkey, hcolor, hchild, hpar⟩ := rotate_first hy hxy
  have hpx : T₁.parent x = T.parent x := by
    rw [hpar, if_neg fun h => hinner h.1.symm]
  dsimp only at hrotate
  rw [hrotate]
  have hroot' : (T₁.setParent y (T₁.parent x)).root = T.root := hroot
  by_cases htop : x = T.root
  · rw [hroot', if_pos htop]
    constructor
    all_goals simp [hs, hkey, hcolor, hchild, hpar, htop]
    all_goals grind
  · obtain ⟨hpne, hpney⟩ := hparent htop
    have hup : (T₁.setParent y (T₁.parent x)).parent x = T.parent x := by
      simp [hpx, hxy.symm]
    have hlink : (T₁.setParent y (T₁.parent x)).child side (T.parent x) =
        T.child side (T.parent x) := by
      simp [hchild, hpne]
    rw [hroot', if_neg htop, hup, hlink]
    by_cases hside : x = T.child side (T.parent x)
    · rw [if_pos hside]
      constructor
      all_goals simp [hs, hroot, hkey, hcolor, hchild, hpar]
      all_goals grind
    · rw [if_neg hside]
      constructor
      all_goals simp [hs, hroot, hkey, hcolor, hchild, hpar]
      all_goals grind

/-- A node that is not near the turn is not changed. -/
theorem Rotated.same {T' : NgxRbtree} (h : Rotated T T' side x y) {a : Nat} (hax : a ≠ x)
    (hay : a ≠ y) (hinner : a = T.child side y → a = T.sentinel)
    (hparent : x ≠ T.root → a ≠ T.parent x) : Same T T' a := by
  refine ⟨?_, h.colorOf a, fun s => ?_⟩
  · rw [h.parent, if_neg hax, if_neg hay, if_neg fun hi => hi.2 (hinner hi.1)]
  · rw [h.child, if_neg fun hi => hay hi.1, if_neg fun hi => hax hi.1,
      if_neg fun hi => hparent hi.1 hi.2.1]

variable {up : List (Frame Nat)} {p : Nat} {c d : Color} {near inner far : Coloured Nat}

/-- The nodes of a place where a rotation is made, each once. -/
theorem Focus.turn_nodup
    (h : Focus T up p x (join side c near x (join side d inner y far))) :
    (x :: y :: (near.labels ++ (inner.labels ++ far.labels)) ++ spine up).Nodup := by
  refine (List.Perm.nodup_iff ?_).mp h.nodup
  refine List.Perm.append_right (spine up) ?_
  refine (labels_join_perm side c near x _).trans (List.Perm.cons x ?_)
  exact ((labels_join_perm side d inner y far).append_left near.labels).trans List.perm_middle

/-- **A rotation** turns the tree where it is made, and changes no key and no colour. -/
theorem Focus.rotate (h : Focus T up p x (join side c near x (join side d inner y far))) :
    Focus (rotate side T x) up p y (join side d (join side c near x inner) y far) ∧
      Rotated T (Ngx.rotate side T x) side x y := by
  have hnodup := h.turn_nodup
  obtain ⟨-, hx, hp, hcx, hnear, hchild⟩ := held_join.mp h.held
  obtain ⟨hy, hys, hpy, hdy, hinner, hfar⟩ := held_join.mp hchild
  rw [List.cons_append, List.cons_append, List.nodup_cons, List.nodup_cons, List.append_assoc,
    List.append_assoc] at hnodup
  obtain ⟨hxall, hyall, hrest⟩ := hnodup
  -- the places of the other nodes
  have hout : ∀ a ∈ near.labels ++ (inner.labels ++ (far.labels ++ spine up)), a ≠ x ∧ a ≠ y := by
    intro a ha
    exact ⟨ne_of_mem_of_not_mem (List.mem_cons_of_mem y ha) hxall, ne_of_mem_of_not_mem ha hyall⟩
  obtain ⟨-, htail, hni⟩ := List.nodup_append'.mp hrest
  obtain ⟨hinner_nodup, -, hif⟩ := List.nodup_append'.mp htail
  have hclear : ∀ a ∈ near.labels ++ (far.labels ++ spine up), a ∉ inner.labels := by
    intro a ha hai
    rcases List.mem_append.mp ha with ha | ha
    · exact hni ha (List.mem_append_left _ hai)
    · exact hif hai ha
  have hxy : y ≠ x := fun heq => hxall (heq ▸ List.mem_cons_self)
  have hz : T.child side y ≠ T.sentinel → T.child side y ∈ inner.labels := hinner.mem
  have hzx : T.child side y ≠ x := by
    intro heq
    have hmem := hz (heq ▸ hx)
    exact (hout _ (List.mem_append_right _ (List.mem_append_left _ hmem))).1 heq
  have hspine : x ≠ T.root → T.parent x ∈ spine up := by
    intro hroot
    cases up with
    | nil => exact absurd ((h.eq_root_iff hx).mpr rfl) hroot
    | cons f up =>
        have hpf := h.above.1
        rw [hp, hpf]
        exact List.mem_cons_self
  have hparent : x ≠ T.root → T.parent x ≠ x ∧ T.parent x ≠ y := by
    intro hroot
    exact hout _ (List.mem_append_right _ (List.mem_append_right _
      (List.mem_append_right _ (hspine hroot))))
  have hrot := rotate_rotated hy hxy hzx hparent
  have hsame : ∀ a ∈ near.labels ++ (far.labels ++ spine up), (x ≠ T.root → a ≠ T.parent x) →
      Same T (Ngx.rotate side T x) a := by
    intro a ha hap
    have hmem : a ∈ near.labels ++ (inner.labels ++ (far.labels ++ spine up)) := by
      rcases List.mem_append.mp ha with ha | ha
      · exact List.mem_append_left _ ha
      · exact List.mem_append_right _ (List.mem_append_right _ ha)
    refine hrot.same (hout a hmem).1 (hout a hmem).2 (fun heq => ?_) hap
    by_contra hne
    exact hclear a ha (heq ▸ hz (heq ▸ hne))
  have hbelow : ∀ a ∈ near.labels ++ (inner.labels ++ far.labels), x ≠ T.root → a ≠ T.parent x := by
    intro a ha hroot
    have hmem : a ∈ (join side c near x (join side d inner y far)).labels := by
      rw [mem_labels_join, mem_labels_join]
      rcases List.mem_append.mp ha with ha | ha
      · exact .inr (.inl ha)
      · exact .inr (.inr (.inr (List.mem_append.mp ha)))
    exact h.apart hmem (hspine hroot)
  refine ⟨h.change (held_join.mpr ⟨rfl, hrot.sentinel ▸ hys, ?_, ?_, ?_, ?_⟩) ?_ hrot.sentinel
    ?_ ?_ ?_, hrot⟩
  · rw [hrot.parent, if_neg hxy, if_pos rfl, hp]
  · rw [hrot.colorOf, hdy]
  · rw [hrot.child, if_pos ⟨rfl, rfl⟩]
    refine held_join.mpr ⟨rfl, hrot.sentinel ▸ hx, ?_, ?_, ?_, ?_⟩
    · rw [hrot.parent, if_pos rfl]
    · rw [hrot.colorOf, hcx]
    · rw [hrot.child, if_neg fun hi => hxy hi.1.symm, if_neg fun hi => Side.ne_other side hi.2,
        if_neg fun hi => (hparent hi.1).1 hi.2.1.symm]
      refine hnear.congr hrot.sentinel fun a ha => ?_
      exact hsame a (List.mem_append_left _ ha) (hbelow a (List.mem_append_left _ ha))
    · -- what was between the two goes over to `x`
      rw [hrot.child, if_neg fun hi => hxy hi.1.symm, if_pos ⟨rfl, rfl⟩]
      have hmem : ∀ a ∈ inner.labels, a ∈ near.labels ++ (inner.labels ++ far.labels) := fun a ha =>
        List.mem_append_right _ (List.mem_append_left _ ha)
      have hmem' : ∀ a ∈ inner.labels, a ≠ x ∧ a ≠ y := fun a ha =>
        hout a (List.mem_append_right _ (List.mem_append_left _ ha))
      refine hinner.reparent hinner_nodup hrot.sentinel (fun hne => ?_) (fun a ha hne => ?_)
        fun hne => ⟨hrot.colorOf _, fun s => ?_⟩
      · rw [hrot.parent, if_neg (hmem' _ (hz hne)).1, if_neg (hmem' _ (hz hne)).2,
          if_pos ⟨rfl, hne⟩]
      · exact hrot.same (hmem' a ha).1 (hmem' a ha).2 (fun heq => absurd heq hne)
          (hbelow a (hmem a ha))
      · rw [hrot.child, if_neg fun hi => (hmem' _ (hz hne)).2 hi.1,
          if_neg fun hi => (hmem' _ (hz hne)).1 hi.1,
          if_neg fun hi => hbelow _ (hmem _ (hz hne)) hi.1 hi.2.1]
  · rw [hrot.child, if_neg fun hi => Side.other_ne side hi.2, if_neg fun hi => hxy hi.1,
      if_neg fun hi => (hparent hi.1).2 hi.2.1.symm]
    refine hfar.congr hrot.sentinel fun a ha => ?_
    exact hsame a (List.mem_append_right _ (List.mem_append_left _ ha))
      (hbelow a (List.mem_append_right _ (List.mem_append_right _ ha)))
  · rw [labels_turn side d c c d near x inner y far]
  · intro a ha
    have hmem : a ∈ near.labels ++ (inner.labels ++ (far.labels ++ spine up)) :=
      List.mem_append_right _ (List.mem_append_right _ (List.mem_append_right _ ha))
    have hne : ¬ (a = T.child side y ∧ a ≠ T.sentinel) := by
      intro hi
      exact hclear a (List.mem_append_right _ (List.mem_append_right _ ha))
        (hi.1 ▸ hz (hi.1 ▸ hi.2))
    exact ⟨by rw [hrot.parent, if_neg (hout a hmem).1, if_neg (hout a hmem).2, if_neg hne],
      hrot.colorOf a⟩
  · rw [hrot.root]
    exact if_congr (h.eq_root_iff hx) rfl rfl
  · intro a ha s
    have hmem : a ∈ near.labels ++ (inner.labels ++ (far.labels ++ spine up)) :=
      List.mem_append_right _ (List.mem_append_right _ (List.mem_append_right _ ha))
    rw [hrot.child, if_neg fun hi => (hout a hmem).2 hi.1, if_neg fun hi => (hout a hmem).1 hi.1]
    refine if_congr ?_ rfl rfl
    cases up with
    | nil => exact absurd ha List.not_mem_nil
    | cons f up =>
        -- the link that led to `x` is the one on the side of the path
        have hroot : x ≠ T.root := fun hi => List.cons_ne_nil f up ((h.eq_root_iff hx).mp hi)
        have hside := h.side_eq (fun hi => absurd hi hx) side
        have hlink : (if x = T.child side (T.parent x) then side else side.other) = f.side := by
          rw [hp]
          split
          case isTrue heq => exact hside.mp heq
          case isFalse hne =>
            exact ((Side.eq_or side f.side).resolve_left fun heq => hne (hside.mpr heq.symm)).symm
        rw [hlink, hp, h.above.1]
        simp [hroot]

end CppTrack.Ngx
