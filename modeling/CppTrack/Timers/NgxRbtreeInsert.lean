import CppTrack.Timers.NgxRbtreeRotate

/-!
# Insertion into the tree of nginx

The loop of `ngx_rbtree_insert` does in memory what `insertFix` does to a tree and the path above
it, and then the tree is balanced.
-/

namespace CppTrack.Ngx

open Lib Coloured

variable {T T' : NgxRbtree} {up : List (Frame Nat)} {p i : Nat} {t : Coloured Nat} {f g : Frame Nat}

theorem Rotated.kept {side : Side} {x y : Nat} (h : Rotated T T' side x y) : Kept T T' :=
  ⟨h.sentinel, fun hs => by rw [h.sentinel, h.colorOf]; exact hs, h.key⟩

/-- The parent, the grandparent and the uncle of a node, as the code finds them. -/
theorem Focus.relatives (h : Focus T (f :: g :: up) p i t) (hi : i ≠ T.sentinel) :
    T.parent i = f.label ∧ T.parent f.label = g.label ∧ p = f.label ∧
      Held T g.label (T.child g.side.other g.label) g.sib := by
  obtain ⟨c, near, far, rfl⟩ := h.held.eq_join hi .left
  obtain ⟨-, -, hp, -⟩ := held_join.mp h.held
  obtain ⟨hpf, -, -, -, -, hup⟩ := h.above
  obtain ⟨hpg, -, -, -, hsib, -⟩ := hup
  rw [hpg] at hsib
  exact ⟨hp.trans hpf, hpf ▸ hpg, hpf, hsib⟩

/-- With a red uncle only colours change. -/
theorem insertTurn_recolours (h : Focus T (f :: g :: up) p i t) (hi : i ≠ T.sentinel)
    (hs : T.colorOf T.sentinel = .black) (huncle : g.sib.color = .red) :
    ∃ T', insertTurn g.side T i = (T', g.label) ∧ Kept T T' ∧ ∃ q, Focus T' up q g.label
      (join g.side .red (join f.side .black t f.label f.sib) g.label g.sib.blacken) := by
  obtain ⟨hparent, hgrand, rfl, hsib⟩ := h.relatives hi
  have hred : T.isRed (T.child g.side.other g.label) = true := by
    rw [T.isRed_iff, hsib.colorOf_eq hs, huncle]
  have hu : T.child g.side.other g.label ≠ T.sentinel := by
    intro heq
    rw [hsib.eq_nil heq] at huncle
    exact Color.noConfusion huncle
  have hturn : insertTurn g.side T i = (((T.black f.label).black
      (T.child g.side.other g.label)).red g.label, g.label) := by
    simp [insertTurn, hparent, hgrand, hred]
  -- the parent, then the uncle, then the grandparent
  have hup := h.ascend
  rw [hgrand] at hup
  have hp := hup.recolor (recolours_black T f.label)
  have hcross := hp.cross
  rw [NgxRbtree.black_child] at hcross
  have hg := hcross.blacken.ascend
  rw [Frame.fill, join_other] at hg
  refine ⟨_, hturn, ?_, _, hg.recolor (recolours_red _ g.label)⟩
  have hgs := hup.ne_sentinel (List.mem_append_right _ List.mem_cons_self)
  refine ((recolours_black T f.label).kept fun _ => rfl).trans
    (((recolours_black _ _).kept fun _ => rfl).trans ((recolours_red _ g.label).kept fun heq => ?_))
  exact absurd heq hgs

/-- The last part of a branch: a black `b` comes up, and what was above it gets red. -/
theorem Focus.lift {side : Side} {c d : Color} {m n u : Coloured Nat} {a b : Nat}
    (h : Focus T up p a (join side c (join side d m b n) a u)) :
    Focus (Ngx.rotate side.other ((T.black b).red a) a) up p b
      (join side .black m b (join side .red n a u)) ∧
    Kept T (Ngx.rotate side.other ((T.black b).red a) a) := by
  obtain ⟨-, ha, -, -, hchild, -⟩ := held_join.mp h.held
  obtain ⟨hb, -⟩ := held_join.mp hchild
  have hdown : Focus T (⟨side, c, a, u⟩ :: up) a (T.child side a) (join side d m b n) := h.descend
  rw [hb] at hdown
  have hblack := (hdown.recolor (recolours_black T b)).ascend
  rw [NgxRbtree.black_parent] at hblack
  have hred := hblack.recolor (recolours_red (T.black b) a)
  have hshape : join side .red (join side .black m b n) a u =
      join side.other .red u a (join side.other .black n b m) := by
    rw [join_other, join_other]
  rw [hshape] at hred
  obtain ⟨hturned, hrot⟩ := hred.rotate
  rw [join_other, join_other] at hturned
  obtain ⟨-, -, hp, -⟩ := held_join.mp h.held
  rw [hp] at hturned
  exact ⟨hturned, ((recolours_black T b).kept fun _ => rfl).trans
    (((recolours_red (T.black b) a).kept fun heq => absurd heq ha).trans hrot.kept)⟩

/-- With a black uncle the tree is turned, and the loop has come to its end. -/
theorem insertTurn_lifts (h : Focus T (f :: g :: up) p i t) (hi : i ≠ T.sentinel)
    (hs : T.colorOf T.sentinel = .black) (hred : f.color = .red) (huncle : g.sib.color = .black) :
    ∃ T' n, insertTurn g.side T i = (T', n) ∧ Kept T T' ∧ T'.colorOf (T'.parent n) = .black ∧
      ∃ q j, Focus T' up q j (lifted t f g) := by
  obtain ⟨hparent, hgrand, rfl, hsib⟩ := h.relatives hi
  have hdark : T.isRed (T.child g.side.other g.label) = false := by
    refine Bool.eq_false_iff.mpr ((T.not_isRed_iff _).mpr ?_)
    rw [hsib.colorOf_eq hs, huncle]
  have hup := h.ascend
  rw [hgrand] at hup
  have hside := h.side_eq (fun heq => absurd heq hi) g.side.other
  by_cases hsame : f.side = g.side
  · -- the node hangs on the outer side
    have houter : i ≠ T.child g.side.other f.label := by
      intro heq
      exact Side.other_ne g.side ((hside.mp heq).trans hsame)
    have hturn : insertTurn g.side T i =
        (rotate g.side.other ((T.black f.label).red g.label) g.label, i) := by
      simp [insertTurn, hparent, hgrand, hdark, houter]
    have hplace := hup.ascend
    rw [Frame.fill, Frame.fill, hsame] at hplace
    obtain ⟨hlifted, hkept⟩ := hplace.lift
    have hshape : lifted t f g = join g.side .black t f.label
        (join g.side .red f.sib g.label g.sib) := if_pos hsame
    refine ⟨_, _, hturn, hkept, ?_, _, _, hshape ▸ hlifted⟩
    obtain ⟨c, near, far, rfl⟩ := h.held.eq_join hi .left
    obtain ⟨-, -, -, hcolor, hnear, -⟩ := held_join.mp hlifted.held
    obtain ⟨-, -, hpi, -⟩ := held_join.mp hnear
    rw [hpi]
    exact hcolor
  · -- the node hangs on the inner side, and comes up first
    have hother : f.side = g.side.other := (Side.eq_or g.side f.side).resolve_left hsame
    have hinner : i = T.child g.side.other f.label := hside.mpr hother.symm
    obtain ⟨c, near, far, rfl⟩ := h.held.eq_join hi g.side
    rw [Frame.fill, hother, join_other] at hup
    obtain ⟨hturned, hrot⟩ := hup.rotate
    have hplace := hturned.ascend
    rw [Frame.fill] at hplace
    obtain ⟨hlifted, hkept⟩ := hplace.lift
    obtain ⟨-, -, hpi, -, hbelow, -⟩ := held_join.mp hturned.held
    obtain ⟨-, -, hpf, -⟩ := held_join.mp hbelow
    have hturn : insertTurn g.side T i =
        (rotate g.side.other (((rotate g.side T f.label).black i).red g.label) g.label,
          f.label) := by
      simp [insertTurn, hparent, hgrand, hdark, ← hinner, hpf, hpi]
    have hshape : lifted (join g.side c near i far) f g = join g.side .black
        (join g.side f.color f.sib f.label near) i (join g.side .red far g.label g.sib) := by
      unfold lifted
      rw [if_neg hsame, hred]
      cases g.side <;> rfl
    refine ⟨_, _, hturn, hrot.kept.trans hkept, ?_, _, _, hshape ▸ hlifted⟩
    obtain ⟨-, -, -, hcolor, hnear, -⟩ := held_join.mp hlifted.held
    obtain ⟨-, -, hpl, -⟩ := held_join.mp hnear
    rw [hpl]
    exact hcolor

theorem Focus.parent_eq (h : Focus T up p i t) (hi : i ≠ T.sentinel) : T.parent i = p := by
  obtain ⟨c, near, far, rfl⟩ := h.held.eq_join hi .left
  exact (held_join.mp h.held).2.2.1

theorem Focus.ne_of_red (h : Focus T up p i t) (ht : t.color = .red) : i ≠ T.sentinel := by
  intro hi
  rw [h.held.eq_nil hi] at ht
  exact Color.noConfusion ht

theorem insertLoop_stops {fuel : Nat} (h : i = T.root ∨ T.colorOf (T.parent i) = .black) :
    insertLoop (fuel + 1) T i = some T := by
  rw [insertLoop, if_neg]
  intro hgo
  rcases h with hroot | hdark
  · exact hgo.1 hroot
  · rw [T.isRed_iff, hdark] at hgo
    exact Color.noConfusion hgo.2

theorem insertLoop_turns {fuel : Nat} (h : Focus T (f :: g :: up) p i t) (hi : i ≠ T.sentinel)
    (hred : f.color = .red) : insertLoop (fuel + 1) T i =
      insertLoop fuel (insertTurn g.side T i).1 (insertTurn g.side T i).2 := by
  obtain ⟨hparent, hgrand, hp, -⟩ := h.relatives hi
  have hroot : i ≠ T.root := fun heq => List.cons_ne_nil f _ ((h.eq_root_iff hi).mp heq)
  have hcolor : T.isRed (T.parent i) = true := by
    rw [hparent, ← hp, T.isRed_iff, ← hred]
    exact h.above.2.2.1
  have hup := h.ascend
  rw [hp, hgrand] at hup
  have hnull : f.label ≠ T.sentinel := hup.ne_sentinel (List.mem_append_left _ (hup.held.mem
    (hp ▸ h.above.2.1)))
  have hside := hup.side_eq (fun heq => absurd heq hnull) .left
  have hwhich : (if T.parent i = T.left (T.parent (T.parent i)) then Side.left else .right) =
      g.side := by
    rw [hparent, hgrand]
    split
    case isTrue heq => exact hside.mp heq
    case isFalse hne =>
      cases hg : g.side with
      | left => exact absurd (hside.mpr hg.symm) hne
      | right => rfl
  rw [insertLoop, if_pos ⟨hroot, hcolor⟩, hwhich]

/-- **The loop of the insertion** repairs the tree as `insertFix` does. -/
theorem insertLoop_fix {n fuel : Nat} (h : Focus T up p i t) (ht : Balanced t .red n)
    (hopen : Open up .black n) (hs : T.colorOf T.sentinel = .black) (hfuel : up.length < fuel) :
    ∃ T', insertLoop fuel T i = some T' ∧ Kept T T' ∧
      ∃ q, Focus T' [] q T'.root (insertFix t up) := by
  obtain ⟨fuel, rfl⟩ : ∃ k, fuel = k + 1 := ⟨fuel - 1, by omega⟩
  have hi := h.ne_of_red ht.color_eq
  fun_induction insertFix t up generalizing T p i n fuel with
  | case1 t =>
      obtain ⟨q, htop⟩ := h.top
      exact ⟨T, insertLoop_stops (.inl h.above.symm), kept_refl T, q, htop⟩
  | case2 t f =>
      obtain ⟨q, htop⟩ := h.top
      refine ⟨T, insertLoop_stops (.inr ?_), kept_refl T, q, htop⟩
      rw [h.parent_eq hi, ← hopen.top_black]
      exact h.above.2.2.1
  | case3 t f g up hf =>
      obtain ⟨q, htop⟩ := h.top
      refine ⟨T, insertLoop_stops (.inr ?_), kept_refl T, q, htop⟩
      rw [h.parent_eq hi, ← hf]
      exact h.above.2.2.1
  | case4 t f g up hf huncle ih =>
      have hred := red_of_not_black hf
      obtain ⟨T₁, hturn, hkept, q, hfocus⟩ := insertTurn_recolours h hi hs huncle
      obtain ⟨hbalanced, hup⟩ := balanced_recoloured ht hopen hred huncle
      obtain ⟨fuel, rfl⟩ : ∃ k, fuel = k + 1 := by
        rw [List.length_cons, List.length_cons] at hfuel
        exact ⟨fuel - 1, by omega⟩
      rw [List.length_cons, List.length_cons] at hfuel
      obtain ⟨T₂, hloop, hkept', q', htop⟩ := ih hfocus hbalanced hup (hkept.dark hs) fuel
        (by omega) (hfocus.ne_of_red hbalanced.color_eq)
      refine ⟨T₂, ?_, hkept.trans hkept', q', htop⟩
      rw [insertLoop_turns h hi hred, hturn]
      exact hloop
  | case5 t f g up hf huncle =>
      have hred := red_of_not_black hf
      obtain ⟨T₁, m, hturn, hkept, hstop, q, j, hfocus⟩ :=
        insertTurn_lifts h hi hs hred (black_of_not_red huncle)
      obtain ⟨fuel, rfl⟩ : ∃ k, fuel = k + 1 := by
        rw [List.length_cons, List.length_cons] at hfuel
        exact ⟨fuel - 1, by omega⟩
      obtain ⟨q', htop⟩ := hfocus.top
      refine ⟨T₁, ?_, hkept, q', htop⟩
      rw [insertLoop_turns h hi hred, hturn]
      exact insertLoop_stops (.inr hstop)

/-! ## Where a node is hung in -/

section

variable {before : BitVec 32 → BitVec 32 → Bool} {z : Nat}

/-- The comparisons with the keys of the path led this way. -/
def Led (before : BitVec 32 → BitVec 32 → Bool) (T : NgxRbtree) (z : Nat)
    (path : List (Frame Nat)) : Prop :=
  ∀ f ∈ path, f.side = if before (T.key z) (T.key f.label) then .left else .right

/-- The way down ends at a leaf. -/
theorem insertPlace_leads {fuel : Nat} (h : Focus T up p i t) (hi : i ≠ T.sentinel)
    (hfuel : t.height ≤ fuel) : ∃ f path, insertPlace before T z fuel i = some (f.label, f.side) ∧
      Focus T (f :: path ++ up) f.label T.sentinel .nil ∧ fill .nil (f :: path) = t ∧
      Led before T z (f :: path) := by
  induction fuel generalizing T up p i t with
  | zero =>
      obtain ⟨c, near, far, rfl⟩ := h.held.eq_join hi .left
      rw [height_join] at hfuel
      exact absurd hfuel (by omega)
  | succ fuel ih =>
      obtain ⟨c, near, far, rfl⟩ := h.held.eq_join hi
        (if before (T.key z) (T.key i) then .left else .right)
      rw [height_join] at hfuel
      rw [insertPlace]
      generalize hside : (if before (T.key z) (T.key i) then Side.left else .right) = side
        at h hfuel ⊢
      have hdown : Focus T (⟨side, c, i, far⟩ :: up) i (T.child side i) near := h.descend
      have hled : Led before T z [⟨side, c, i, far⟩] := by
        intro f hf
        rw [List.mem_singleton.mp hf]
        exact hside.symm
      by_cases hleaf : T.child side i = T.sentinel
      · obtain rfl := hdown.held.eq_nil hleaf
        refine ⟨⟨side, c, i, far⟩, [], if_pos hleaf, ?_, rfl, hled⟩
        rw [hleaf] at hdown
        exact hdown
      · obtain ⟨f, path, hplace, hfocus, hfill, hled'⟩ := ih hdown hleaf (by omega)
        refine ⟨f, path ++ [⟨side, c, i, far⟩], ?_, ?_, ?_, ?_⟩
        · rw [if_neg hleaf, hplace]
        · rw [← List.cons_append, List.append_assoc]
          exact hfocus
        · rw [← List.cons_append, fill_append, hfill]
          rfl
        · intro g hg
          rcases List.mem_append.mp (List.cons_append ▸ hg) with hg | hg
          · exact hled' g hg
          · exact hled g hg

/-- The stores of `hang`. -/
theorem hang_reads (s : Side) (l : Nat) : (hang T z l s).sentinel = T.sentinel ∧
    (hang T z l s).root = T.root ∧ (∀ a, (hang T z l s).key a = T.key a) ∧
    (∀ a, (hang T z l s).parent a = if a = z then l else T.parent a) ∧
    (∀ a, (hang T z l s).colorOf a = if a = z then .red else T.colorOf a) ∧
    ∀ s' a, (hang T z l s).child s' a = if a = z then T.sentinel
      else if a = l ∧ s' = s then z else T.child s' a := by
  refine ⟨?_, ?_, fun a => ?_, fun a => ?_, fun a => ?_, fun s' a => ?_⟩
  case refine_6 => cases s' <;> simp [hang, NgxRbtree.setLeft_eq, NgxRbtree.setRight_eq]
  all_goals simp [hang, NgxRbtree.red, NgxRbtree.setLeft_eq, NgxRbtree.setRight_eq,
    NgxRbtree.setColor_colorOf]

/-- The new node is a red leaf. -/
theorem hang_focus {f : Frame Nat} (h : Focus T (f :: up) f.label T.sentinel .nil)
    (hz : z ∉ spine (f :: up)) (hzs : z ≠ T.sentinel) :
    Focus (hang T z f.label f.side) (f :: up) f.label z (.node .red .nil z .nil) ∧
      Kept T (hang T z f.label f.side) := by
  obtain ⟨hs, hroot, hkey, hparent, hcolor, hchild⟩ := @hang_reads T z f.side f.label
  have hother : ∀ a ∈ spine (f :: up), a ≠ z := fun a ha heq => hz (heq ▸ ha)
  refine ⟨⟨?_, ?_, ?_⟩, hs, fun hdark => ?_, hkey⟩
  · refine ⟨rfl, hs ▸ hzs, ?_, ?_, ?_, ?_⟩
    · rw [hparent, if_pos rfl]
    · rw [hcolor, if_pos rfl]
    · exact (hchild .left z).trans ((if_pos rfl).trans hs.symm)
    · exact (hchild .right z).trans ((if_pos rfl).trans hs.symm)
  · refine h.above.congr hs (fun a ha => ?_) ?_ (fun a ha s => ?_) h.spine_nodup
    · rw [hparent, if_neg (hother a ha), hcolor, if_neg (hother a ha)]
      exact ⟨rfl, rfl⟩
    · rw [if_neg (List.cons_ne_nil f up)]
      exact hroot
    · rw [hchild, if_neg (hother a ha)]
      exact if_congr (by simp) rfl rfl
  · exact List.nodup_cons.mpr ⟨hz, h.spine_nodup⟩
  · rw [hs, hcolor, if_neg hzs.symm]
    exact hdark

/-- The first node of an empty tree. -/
theorem insert_first (hs : T.colorOf T.sentinel = .black) (hzs : z ≠ T.sentinel) :
    ∃ T', (∀ insert fuel, T.root = T.sentinel → ngxRbtreeInsert insert fuel T z = some T') ∧
      Kept T T' ∧ Holds T' (.node .black .nil z .nil) := by
  have hother : T.sentinel ≠ z := hzs.symm
  refine ⟨_, fun insert fuel hroot => if_pos hroot, ?_, ?_⟩
  · refine ⟨rfl, fun hdark => ?_, fun a => ?_⟩
    · simp [NgxRbtree.setLeft_eq, NgxRbtree.setRight_eq, hdark]
    · simp [NgxRbtree.setLeft_eq, NgxRbtree.setRight_eq]
  · refine ⟨⟨null, ⟨rfl, hzs, ?_, ?_, ?_, ?_⟩, rfl, List.nodup_singleton z⟩, ?_, 1,
      .black .nil .nil⟩
    all_goals simp [NgxRbtree.left_eq, NgxRbtree.right_eq, NgxRbtree.setLeft_eq,
      NgxRbtree.setRight_eq, Held, hs]

/-- **`ngx_rbtree_insert`** puts the node where the comparisons lead. -/
theorem ngxRbtreeInsert_holds {fuel : Nat} (h : Holds T t) (hz : z ∉ t.labels)
    (hzs : z ≠ T.sentinel) (hfuel : t.height < fuel) :
    ∃ T' t', ngxRbtreeInsert (insertValue before) fuel T z = some T' ∧ Kept T T' ∧ Holds T' t' ∧
      ∃ path, fill .nil path = t ∧ Led before T z path ∧
        t'.labels = (around path).1 ++ z :: (around path).2 := by
  by_cases hroot : T.root = T.sentinel
  · obtain rfl := h.root_eq_iff.mp hroot
    obtain ⟨T', hrun, hkept, hholds⟩ := insert_first h.dark hzs
    exact ⟨T', _, hrun _ fuel hroot, hkept, hholds, [], rfl, fun f hf => absurd hf List.not_mem_nil,
      rfl⟩
  · obtain ⟨⟨p, hfocus⟩, hdark, m, hbalanced⟩ := h
    obtain ⟨f, path, hplace, hleaf, hfill, hled⟩ :=
      insertPlace_leads hfocus hroot (Nat.le_of_lt hfuel)
    rw [List.append_nil] at hleaf
    have hlength := height_fill .nil (f :: path)
    rw [hfill, height, Nat.zero_add] at hlength
    have hperm := labels_fill_perm .nil (f :: path)
    rw [hfill] at hperm
    have hfree : z ∉ spine (f :: path) := fun hmem => hz (hperm.mem_iff.mpr hmem)
    obtain ⟨hhung, hkept⟩ := hang_focus hleaf hfree hzs
    rw [← hfill] at hbalanced
    obtain ⟨n, hnil, hopen⟩ := Open.of_fill hbalanced
    have hred : Balanced (.node .red .nil z .nil) .red n := .red hnil hnil
    obtain ⟨T₂, hloop, hkept', q, htop⟩ :=
      insertLoop_fix hhung hred hopen (hkept.dark hdark) (Nat.lt_of_le_of_lt hlength hfuel)
    have hend := htop.blacken
    have hkept'' : Kept T₂ (T₂.black T₂.root) := (recolours_black T₂ T₂.root).kept fun _ => rfl
    refine ⟨T₂.black T₂.root, (insertFix (.node .red .nil z .nil) (f :: path)).blacken, ?_,
      hkept.trans (hkept'.trans hkept''), ⟨⟨q, hend⟩, ?_, balanced_insertFix hred hopen⟩, f :: path,
      hfill, hled, ?_⟩
    · rw [ngxRbtreeInsert, if_neg hroot, insertValue, hplace]
      change (insertLoop fuel (hang T z f.label f.side) z).bind _ = _
      rw [hloop]
      rfl
    · exact hkept''.dark (hkept'.dark (hkept.dark hdark))
    · rw [labels_blacken, labels_insertFix, labels_fill]
      simp [labels]

end

end CppTrack.Ngx
