import CppTrack.Timers.NgxRbtreeInsert

/-!
# Deletion from the tree of nginx

The loop of `ngx_rbtree_delete` does in memory what `deleteFix` does to a tree and the path above
it. The place where it begins may be empty. Then it is the sentinel that hangs there, and what the
loop reads is the parent that was stored in the sentinel: a rotation does not change it.
-/

namespace CppTrack.Ngx

open Lib Coloured

variable {T T' : NgxRbtree} {up : List (Frame Nat)} {p i w : Nat} {t near far : Coloured Nat}
  {f : Frame Nat} {c : Color}

/-- A store of a colour where one is. -/
theorem Focus.recolor_cross {c' : Color} (h : Focus T (f :: up) p i t)
    (hsib : f.sib = join f.side c near w far) (hr : Recolours T T' w c') :
    Focus T' ({ f with sib := join f.side c' near w far } :: up) p i t := by
  have hw : T.child f.side.other p = w := (held_join.mp (hsib ▸ h.above.2.2.2.2.1)).1
  have hcross := h.cross
  rw [hw, hsib] at hcross
  have hback := (hcross.recolor hr).cross
  simp only [Side.other_other] at hback
  rw [h.held.link_eq hback.held hr.sentinel] at hback
  exact hback

/-- The last part of a branch: the sibling comes up, with the colour of the parent. -/
theorem Focus.settled (h : Focus T (f :: up) p i t) (hsib : f.sib = join f.side c near w far) :
    (∃ q, Focus (Ngx.rotate f.side (((T.copyColor w p).black p).black (T.child f.side.other w)) p)
      up q w (join f.side f.color (join f.side .black t f.label near) w far.blacken)) ∧
    Kept T (Ngx.rotate f.side (((T.copyColor w p).black p).black (T.child f.side.other w)) p) := by
  obtain ⟨hp, hps, hcolor, -, hheld, -⟩ := h.above
  subst hp
  obtain ⟨hw, hws, -⟩ := held_join.mp (hsib ▸ hheld)
  have hcopy := h.recolor_cross hsib (recolours_copyColor T w f.label)
  rw [hcolor] at hcopy
  have hblack := hcopy.ascend.recolor (recolours_black (T.copyColor w f.label) f.label)
  -- down to the farther child of the sibling, and back again
  have hdown : Focus ((T.copyColor w f.label).black f.label)
      (⟨f.side, .black, f.label, join f.side f.color near w far⟩ :: up) f.label
      (((T.copyColor w f.label).black f.label).child f.side f.label) t := hblack.descend
  have hcross := hdown.cross
  have hlink : ((T.copyColor w f.label).black f.label).child f.side.other f.label = w := by
    rw [NgxRbtree.black_child, NgxRbtree.copyColor_child]
    exact hw
  rw [hlink] at hcross
  simp only [← join_other f.side f.color far w near] at hcross
  have hfar : Focus ((T.copyColor w f.label).black f.label)
      (⟨f.side.other, f.color, w, near⟩ :: ⟨f.side.other, .black, f.label, t⟩ :: up) w
      (((T.copyColor w f.label).black f.label).child f.side.other w) far := hcross.descend
  rw [NgxRbtree.black_child, NgxRbtree.copyColor_child] at hfar
  have hback := hfar.blacken.ascend
  have hplace := hback.ascend
  rw [hback.above.1] at hplace
  simp only [Frame.fill, join_other] at hplace
  obtain ⟨hturned, hrot⟩ := hplace.rotate
  refine ⟨⟨_, hturned⟩, ?_⟩
  refine ((recolours_copyColor T w f.label).kept fun heq => absurd heq hws).trans ?_
  refine ((recolours_black _ f.label).kept fun _ => rfl).trans ?_
  exact ((recolours_black _ _).kept fun _ => rfl).trans hrot.kept

/-- The parent that is stored in what hangs at the place. -/
theorem Rotated.parent_sentinel {side : Side} {x y : Nat} (h : Rotated T T' side x y)
    (hx : x ≠ T.sentinel) (hy : y ≠ T.sentinel) : T'.parent T.sentinel = T.parent T.sentinel := by
  rw [h.parent, if_neg hx.symm, if_neg hy.symm, if_neg fun hi => hi.2 rfl]

/-- The nearer child of a black sibling comes up in its place, where it is the red one. -/
theorem Focus.twisted {near' far' : Coloured Nat} {a : Nat} {c' : Color}
    (h : Focus T (f :: up) p i t)
    (hsib : f.sib = join f.side c (join f.side c' near' a far') w far) :
    T.child f.side w = a ∧ a ≠ T.sentinel ∧
    Kept T (Ngx.rotate f.side.other ((T.black a).red w) w) ∧
    (Ngx.rotate f.side.other ((T.black a).red w) w).parent i = T.parent i ∧
    Focus (Ngx.rotate f.side.other ((T.black a).red w) w)
      ({ f with sib := join f.side .black near' a (join f.side .red far' w far) } :: up) p i t := by
  obtain ⟨-, -, -, hlink, hheld, -⟩ := h.above
  obtain ⟨hw, hws, -, -, hnear, -⟩ := held_join.mp (hsib ▸ hheld)
  obtain ⟨ha, has, -⟩ := held_join.mp hnear
  have hcross := h.cross
  rw [hw, hsib] at hcross
  have hdown : Focus T (⟨f.side, c, w, far⟩ :: ⟨f.side.other, f.color, f.label, t⟩ :: up) w
      (T.child f.side w) (join f.side c' near' a far') := hcross.descend
  rw [ha] at hdown
  have hblack := (hdown.recolor (recolours_black T a)).ascend
  have hparent : (T.black a).parent w = p := by
    rw [NgxRbtree.black_parent]
    exact hcross.parent_eq hws
  rw [hparent] at hblack
  have hred := hblack.recolor (recolours_red (T.black a) w)
  have hshape : join f.side .red (join f.side .black near' a far') w far =
      join f.side.other .red far w (join f.side.other .black far' a near') := by
    rw [join_other, join_other]
  rw [hshape] at hred
  obtain ⟨hturned, hrot⟩ := hred.rotate
  rw [join_other, join_other] at hturned
  have hkept : Kept T (Ngx.rotate f.side.other ((T.black a).red w) w) :=
    ((recolours_black T a).kept fun _ => rfl).trans
      (((recolours_red (T.black a) w).kept fun heq => absurd heq hws).trans hrot.kept)
  have hback := hturned.cross
  simp only [Side.other_other] at hback
  rw [h.held.link_eq hback.held hkept.sentinel] at hback
  refine ⟨ha, has, hkept, ?_, hback⟩
  by_cases hi : i = T.sentinel
  · subst hi
    have hsame := hrot.parent_sentinel hws has
    simpa using hsame
  · rw [h.parent_eq hi]
    exact hback.parent_eq (hkept.sentinel ▸ hi)

theorem isRed_eq_false (h : T.colorOf i = .black) : T.isRed i = false :=
  Bool.eq_false_iff.mpr ((T.not_isRed_iff i).mpr h)

/-- What hangs on both sides of the sibling. -/
theorem kids_black_iff {s : Side} (hnear : Held T w (T.child s w) near)
    (hfar : Held T w (T.child s.other w) far) (hs : T.colorOf T.sentinel = .black) :
    (¬ T.isRed (T.left w) = true ∧ ¬ T.isRed (T.right w) = true) ↔
      near.color = .black ∧ far.color = .black := by
  rw [T.not_isRed_iff, T.not_isRed_iff, ← hnear.colorOf_eq hs, ← hfar.colorOf_eq hs]
  cases s with
  | left => exact Iff.rfl
  | right => exact and_comm

/-- Below a black sibling, the branch does what `settle` says. -/
theorem settleTurn_settles (h : Focus T (f :: up) p i t) (hp : T.parent i = p)
    (hs : T.colorOf T.sentinel = .black) (hsib : f.sib = join f.side c near w far) :
    ∃ T' j, settleTurn f.side T i w = (T', j) ∧ Kept T T' ∧
      ((settle t f).2 = true → j = p ∧ Focus T' up (T'.parent p) p (settle t f).1) ∧
      ((settle t f).2 = false → j = T'.root ∧ ∃ q k, Focus T' up q k (settle t f).1) := by
  obtain ⟨hpf, -, -, -, hheld, -⟩ := h.above
  obtain ⟨hw, hws, -, -, hnear, hfar⟩ := held_join.mp (hsib ▸ hheld)
  have hkids := kids_black_iff hnear hfar hs
  have hfardark : ¬ T.isRed (T.child f.side.other w) = true ↔ far.color = .black := by
    rw [T.not_isRed_iff, hfar.colorOf_eq hs]
  rw [settle_join t hsib]
  by_cases hboth : near.color = .black ∧ far.color = .black
  · -- the sibling becomes red
    rw [if_pos hboth]
    have hturn : settleTurn f.side T i w = (T.red w, p) := by
      rw [settleTurn, if_pos (hkids.mpr hboth)]
      exact Prod.ext rfl ((T.red_parent w i).trans hp)
    have hred := (h.recolor_cross hsib (recolours_red T w)).ascend
    refine ⟨T.red w, p, hturn, (recolours_red T w).kept fun heq => absurd heq hws,
      fun _ => ⟨rfl, hred⟩, fun hfalse => Bool.noConfusion hfalse⟩
  · rw [if_neg hboth]
    by_cases hout : far.color = .black
    · -- its nearer child comes up first
      rw [if_pos hout]
      cases near with
      | nil => exact absurd ⟨rfl, hout⟩ hboth
      | node c' l a r =>
          obtain ⟨near', far', hjoin⟩ := @exists_join _ f.side c' l r a
          rw [hjoin] at hsib
          obtain ⟨ha, has, hkept, hpar, hfocus⟩ := h.twisted hsib
          obtain ⟨⟨q, hsettled⟩, hkept'⟩ := hfocus.settled rfl
          have hlink := hfocus.above.2.2.2.2.1
          have hw' := (held_join.mp hlink).1
          refine ⟨_, _, ?_, hkept.trans hkept', fun htrue => Bool.noConfusion htrue,
            fun _ => ⟨rfl, q, a, ?_⟩⟩
          · rw [settleTurn, if_neg fun hi => hboth (hkids.mp hi)]
            have hdark := isRed_eq_false ((T.not_isRed_iff _).mp (hfardark.mpr hout))
            simp [hdark, ha, hp, hpar, hw']
          · simp only [between]
            rw [hjoin, kid_join, kid_other_join]
            simpa using hsettled
    · rw [if_neg hout]
      obtain ⟨⟨q, hsettled⟩, hkept⟩ := h.settled hsib
      refine ⟨_, _, ?_, hkept, fun htrue => Bool.noConfusion htrue, fun _ => ⟨rfl, q, w, hsettled⟩⟩
      have hred : T.isRed (T.child f.side.other w) = true :=
        not_not.mp fun hi => hout (hfardark.mp hi)
      rw [settleTurn, if_neg fun hi => hboth (hkids.mp hi)]
      simp [hred, hp]

/-- A red sibling comes up as a black node, and then there is a black one. -/
theorem darkSibling_turns (h : Focus T (f :: up) p i t) (hp : T.parent i = p)
    (hsib : f.sib = join f.side .red near w far) :
    ∃ T', darkSibling f.side T i = (T', T'.child f.side.other p) ∧ Kept T T' ∧ T'.parent i = p ∧
      Focus T' (f.below :: f.above w :: up) p i t := by
  obtain ⟨hpf, hps, -, -, hheld, -⟩ := h.above
  obtain ⟨hw, hws, -, hcolor, -⟩ := held_join.mp (hsib ▸ hheld)
  have hred : T.isRed w = true := (T.isRed_iff w).mpr hcolor
  have hblack := h.recolor_cross hsib (recolours_black T w)
  subst hpf
  have hplace := hblack.ascend.recolor (recolours_red (T.black w) f.label)
  obtain ⟨hturned, hrot⟩ := hplace.rotate
  have hkept : Kept T (Ngx.rotate f.side ((T.black w).red f.label) f.label) :=
    ((recolours_black T w).kept fun _ => rfl).trans
      (((recolours_red (T.black w) f.label).kept fun heq => absurd heq hps).trans hrot.kept)
  have hmid : Focus (Ngx.rotate f.side ((T.black w).red f.label) f.label) (f.above w :: up) w
      ((Ngx.rotate f.side ((T.black w).red f.label) f.label).child f.side w)
      (f.below.fill t) := by
    have hdown : Focus _ (⟨f.side, .black, w, far⟩ :: up) w _
      (join f.side .red t f.label near) := hturned.descend
    simp only [Frame.above, Frame.below, Frame.fill, hsib, kid_join, kid_other_join]
    exact hdown
  have hlabel : (Ngx.rotate f.side ((T.black w).red f.label) f.label).child f.side w = f.label :=
    (held_join.mp hmid.held).1
  rw [hlabel] at hmid
  have hdown := hmid.descend
  rw [h.held.link_eq hdown.held hkept.sentinel] at hdown
  have hparent : (Ngx.rotate f.side ((T.black w).red f.label) f.label).parent i = f.label := by
    by_cases hi : i = T.sentinel
    · subst hi
      have hsame := hrot.parent_sentinel hps hws
      simpa [hp] using hsame
    · exact hdown.parent_eq (hkept.sentinel ▸ hi)
  refine ⟨_, ?_, hkept, hparent, hdown⟩
  simp [darkSibling, hp, hw, hred, hparent]

theorem deleteTurn_dark (h : Focus T (f :: up) p i t) (hp : T.parent i = p)
    (hs : T.colorOf T.sentinel = .black) (hsib : f.sib.color = .black) :
    deleteTurn f.side T i = settleTurn f.side T i (T.child f.side.other p) := by
  have hdark := isRed_eq_false ((h.above.2.2.2.2.1.colorOf_eq hs).trans hsib)
  simp [deleteTurn, darkSibling, hp, hdark]

theorem deleteLoop_stops {fuel : Nat} (h : i = T.root ∨ T.colorOf i = .red) :
    deleteLoop (fuel + 1) T i = some (T.black i) := by
  rw [deleteLoop, if_neg]
  intro hgo
  rcases h with hroot | hred
  · exact hgo.1 hroot
  · exact hgo.2 ((T.isRed_iff i).mpr hred)

theorem deleteLoop_turns {fuel : Nat} (h : Focus T (f :: up) p i t) (hp : T.parent i = p)
    (hs : T.colorOf T.sentinel = .black) (ht : t.color = .black)
    (hsib : T.child f.side.other p ≠ T.sentinel) : deleteLoop (fuel + 1) T i =
      deleteLoop fuel (deleteTurn f.side T i).1 (deleteTurn f.side T i).2 := by
  have hroot : i ≠ T.root := by
    intro heq
    by_cases hi : i = T.sentinel
    · exact h.above.ne_sentinel h.above.root_mem (heq ▸ hi)
    · exact List.cons_ne_nil f up ((h.eq_root_iff hi).mp heq)
  have hdark : ¬ T.isRed i = true := (T.not_isRed_iff i).mpr ((h.held.colorOf_eq hs).trans ht)
  have hside := h.side_eq (fun hi heq => hsib (heq.trans hi)) .left
  have hwhich : (if i = T.left (T.parent i) then Side.left else .right) = f.side := by
    rw [hp]
    split
    case isTrue heq => exact hside.mp heq
    case isFalse hne =>
      cases hf : f.side with
      | left => exact absurd (hside.mpr hf.symm) hne
      | right => rfl
  rw [deleteLoop, if_pos ⟨hroot, hdark⟩, hwhich]

/-- The end of the loop at the root. -/
theorem deleteLoop_top {fuel : Nat} (h : Focus T up p i t) :
    ∃ T', deleteLoop (fuel + 1) T T.root = some T' ∧ Kept T T' ∧
      ∃ q, Focus T' [] q T'.root (fill t up).blacken := by
  obtain ⟨q, htop⟩ := h.top
  exact ⟨_, deleteLoop_stops (.inl rfl), (recolours_black T T.root).kept fun _ => rfl, q,
    htop.blacken⟩

/-- The end of the loop at a red node. -/
theorem deleteLoop_red {fuel : Nat} (h : Focus T up p i t) (hs : T.colorOf T.sentinel = .black)
    (ht : t.color = .red) : ∃ T', deleteLoop (fuel + 1) T i = some T' ∧ Kept T T' ∧
      ∃ q, Focus T' [] q T'.root (fill t.blacken up) := by
  have hred : T.colorOf i = .red := (h.held.colorOf_eq hs).trans ht
  obtain ⟨q, htop⟩ := h.blacken.top
  exact ⟨_, deleteLoop_stops (.inr hred), (recolours_black T i).kept fun _ => rfl, q, htop⟩

/-- A branch that begins at a red sibling. -/
theorem deleteTurn_red {n : Nat} {l r : Coloured Nat} (h : Focus T (f :: up) p i t)
    (hp : T.parent i = p) (hs : T.colorOf T.sentinel = .black) (hsib : f.sib = .node .red l w r)
    (hbelow : Balanced f.below.sib .black (n + 1)) :
    ∃ T' j, deleteTurn f.side T i = (T', j) ∧ Kept T T' ∧
      ((settle t f.below).2 = true → j = p ∧
        Focus T' (f.above w :: up) (T'.parent p) p (settle t f.below).1) ∧
      ((settle t f.below).2 = false → j = T'.root ∧
        ∃ q k, Focus T' (f.above w :: up) q k (settle t f.below).1) := by
  obtain ⟨near, far, hjoin⟩ := @exists_join _ f.side .red l r w
  obtain ⟨T₁, hturn, hkept, hp₁, hfocus⟩ := darkSibling_turns h hp (hsib.trans hjoin)
  obtain ⟨l', a, r', hnode, -⟩ := hbelow.black_kids
  obtain ⟨near', far', hjoin'⟩ := @exists_join _ f.side .black l' r' a
  have hnew : f.below.sib = join f.below.side .black near' a far' := hnode.trans hjoin'
  have hw : T₁.child f.side.other p = a := (held_join.mp (hnew ▸ hfocus.above.2.2.2.2.1)).1
  obtain ⟨T₂, j, hsettle, hkept', hends⟩ := settleTurn_settles hfocus hp₁ (hkept.dark hs) hnew
  refine ⟨T₂, j, ?_, hkept.trans hkept', hends⟩
  rw [deleteTurn, hturn]
  simp only [hw]
  exact hsettle

/-- A branch that begins at a black sibling. -/
theorem deleteTurn_black {n : Nat} (h : Focus T (f :: up) p i t) (hp : T.parent i = p)
    (hs : T.colorOf T.sentinel = .black) (hsib : Balanced f.sib .black (n + 1)) :
    ∃ T' j, deleteTurn f.side T i = (T', j) ∧ Kept T T' ∧
      ((settle t f).2 = true → j = p ∧ Focus T' up (T'.parent p) p (settle t f).1) ∧
      ((settle t f).2 = false → j = T'.root ∧ ∃ q k, Focus T' up q k (settle t f).1) := by
  obtain ⟨l, w, r, hnode, -⟩ := hsib.black_kids
  obtain ⟨near, far, hjoin⟩ := @exists_join _ f.side .black l r w
  have hnew := hnode.trans hjoin
  have hw : T.child f.side.other p = w := (held_join.mp (hnew ▸ h.above.2.2.2.2.1)).1
  rw [deleteTurn_dark h hp hs hsib.color_eq, hw]
  exact settleTurn_settles h hp hs hnew

theorem sibling_ne {c : Color} {l r : Coloured Nat} (h : Focus T (f :: up) p i t)
    (hsib : f.sib = .node c l w r) : T.child f.side.other p ≠ T.sentinel := by
  obtain ⟨hw, hws, -⟩ : Held T p (T.child f.side.other p) (.node c l w r) :=
    hsib ▸ h.above.2.2.2.2.1
  rw [hw]
  exact hws

/-- **The loop of the deletion** repairs the tree as `deleteFix` does. -/
theorem deleteLoop_fix {n fuel : Nat} (h : Focus T up p i t) (hp : up ≠ [] → T.parent i = p)
    (ht : Low t n) (hopen : Open up .black (n + 1)) (hs : T.colorOf T.sentinel = .black)
    (hfuel : up.length < fuel) :
    ∃ T', deleteLoop (fuel + 1) T i = some T' ∧ Kept T T' ∧
      ∃ q, Focus T' [] q T'.root (deleteFix t up) := by
  fun_induction deleteFix t up generalizing T p i n fuel with
  | case1 t =>
      obtain rfl : T.root = i := h.above
      exact deleteLoop_top h
  | case2 t f up hred => exact deleteLoop_red h hs hred
  | case3 t f up hred l w r hsib hlow =>
      have hparent := hp (List.cons_ne_nil f up)
      obtain ⟨hbelow, -⟩ := red_sibling hsib hopen
      obtain ⟨T₁, j, hturn, hkept, hrises, -⟩ := deleteTurn_red h hparent hs hsib hbelow
      obtain ⟨rfl, hplace⟩ := hrises hlow
      obtain ⟨fuel, rfl⟩ : ∃ k, fuel = k + 1 := ⟨fuel - 1, by omega⟩
      -- the parent is red now
      obtain ⟨T₂, hend, hkept', q, htop⟩ :=
        @deleteLoop_red _ _ _ _ _ fuel hplace (hkept.dark hs) (color_settle t f.below)
      refine ⟨T₂, ?_, hkept.trans hkept', q, htop⟩
      rw [deleteLoop_turns h hparent hs (black_of_not_red hred) (sibling_ne h hsib), hturn]
      exact hend
  | case4 t f up hred l w r hsib hdone =>
      have hparent := hp (List.cons_ne_nil f up)
      obtain ⟨hbelow, -⟩ := red_sibling hsib hopen
      obtain ⟨T₁, j, hturn, hkept, -, hsettles⟩ := deleteTurn_red h hparent hs hsib hbelow
      obtain ⟨rfl, q, k, hplace⟩ := hsettles (Bool.eq_false_iff.mpr hdone)
      obtain ⟨fuel, rfl⟩ : ∃ k, fuel = k + 1 := ⟨fuel - 1, by omega⟩
      obtain ⟨T₂, hend, hkept', htop⟩ := @deleteLoop_top _ _ _ _ _ fuel hplace
      refine ⟨T₂, ?_, hkept.trans hkept', htop⟩
      rw [deleteLoop_turns h hparent hs (black_of_not_red hred) (sibling_ne h hsib), hturn]
      exact hend
  | case5 t f up hred hlow hsib ih =>
      have hparent := hp (List.cons_ne_nil f up)
      obtain ⟨⟨c, hbal⟩, hup⟩ := hopen.up
      have hdark := hbal.dark (not_red hsib)
      obtain ⟨l, w, r, hnode, -⟩ := hdark.black_kids
      obtain ⟨T₁, j, hturn, hkept, hrises, -⟩ := deleteTurn_black h hparent hs hdark
      obtain ⟨rfl, hplace⟩ := hrises hlow
      obtain ⟨fuel, rfl⟩ : ∃ k, fuel = k + 1 := ⟨fuel - 1, by omega⟩
      rw [List.length_cons] at hfuel
      obtain ⟨T₂, hend, hkept', htop⟩ := ih hplace (fun _ => rfl)
        ((settle_spec (ht.dark hred) hdark).1 hlow) (f.rise_succ n ▸ hup.black) (hkept.dark hs)
        (show up.length < fuel by omega)
      refine ⟨T₂, ?_, hkept.trans hkept', htop⟩
      rw [deleteLoop_turns h hparent hs (black_of_not_red hred) (sibling_ne h hnode), hturn]
      exact hend
  | case6 t f up hred hdone hsib =>
      have hparent := hp (List.cons_ne_nil f up)
      obtain ⟨⟨c, hbal⟩, -⟩ := hopen.up
      have hdark := hbal.dark (not_red hsib)
      obtain ⟨l, w, r, hnode, -⟩ := hdark.black_kids
      obtain ⟨T₁, j, hturn, hkept, -, hsettles⟩ := deleteTurn_black h hparent hs hdark
      obtain ⟨rfl, q, k, hplace⟩ := hsettles (Bool.eq_false_iff.mpr hdone)
      obtain ⟨fuel, rfl⟩ : ∃ k, fuel = k + 1 := ⟨fuel - 1, by omega⟩
      obtain ⟨T₂, hend, hkept', htop⟩ := @deleteLoop_top _ _ _ _ _ fuel hplace
      refine ⟨T₂, ?_, hkept.trans hkept', htop⟩
      rw [deleteLoop_turns h hparent hs (black_of_not_red hred) (sibling_ne h hnode), hturn]
      exact hend

end CppTrack.Ngx
