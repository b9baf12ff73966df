import CppTrack.Timers.NgxRbtreeUnlink

/-!
# What a deletion does

`ngx_rbtree_delete` takes one node out of the tree and leaves the others in their order, each with
its key. The tree is balanced again.
-/

namespace CppTrack.Ngx

open Lib Coloured

variable {T : NgxRbtree} {up : List (Frame Nat)} {p q z s temp : Nat} {t k l r : Coloured Nat}
  {c : Color}

/-- Without the node, the nodes of its subtrees meet. -/
theorem erase_fill (hfill : fill (.node c l z r) up = t) (hnodup : t.labels.Nodup) :
    t.labels.erase z = (around up).1 ++ (l.labels ++ r.labels) ++ (around up).2 := by
  subst hfill
  rw [labels_fill, labels, List.append_assoc, List.append_assoc, List.cons_append,
    ← List.append_assoc] at hnodup ⊢
  have hleft : z ∉ (around up).1 ++ l.labels := by
    intro hz
    exact (List.nodup_append'.mp hnodup).2.2 hz List.mem_cons_self
  rw [List.erase_append_right _ hleft, List.erase_cons_head]
  simp only [List.append_assoc]

/-- What is left to do when a node of the colour `c` has been cut out. -/
theorem delete_ends {n fuel : Nat} (h : Focus T up q temp k) (hp : up ≠ [] → T.parent temp = q)
    (hs : T.colorOf T.sentinel = .black) (hred : c = .red → Balanced k .black n)
    (hblack : c = .black → ∃ m, n = m + 1 ∧ Low k m) (hopen : Open up c n)
    (hfuel : up.length < fuel) :
    ∃ T' t', (if c = .red then some T else deleteLoop (fuel + 1) T temp) = some T' ∧ Kept T T' ∧
      Holds T' t' ∧ t'.labels = (fill k up).labels := by
  cases c with
  | red =>
      obtain ⟨p, htop⟩ := h.top
      exact ⟨T, _, if_pos rfl, kept_refl T, ⟨⟨p, htop⟩, hs, hopen.black.fill (hred rfl)⟩, rfl⟩
  | black =>
      obtain ⟨m, rfl, hlow⟩ := hblack rfl
      obtain ⟨T', hloop, hkept, htop⟩ := deleteLoop_fix h hp hlow hopen hs hfuel
      refine ⟨T', _, ?_, hkept, ⟨htop, hkept.dark hs, balanced_deleteFix hlow hopen⟩,
        labels_deleteFix k up⟩
      rw [if_neg (by decide), hloop]

/-- The root, with one subtree or none, is taken out. -/
theorem delete_root (h : Focus T [] q z (.node c l z r)) (hk : Held T z temp k)
    (hlabels : k.labels = l.labels ++ r.labels) :
    Focus (wipe ((T.setRoot temp).black temp) z) [] z temp k.blacken ∧
      KeptBut T (wipe ((T.setRoot temp).black temp) z) z := by
  obtain ⟨-, hz, -⟩ := h.held
  have hnodup : (z :: k.labels).Nodup := by
    rw [hlabels]
    exact List.perm_middle.nodup_iff.mp h.tree_nodup
  rw [List.nodup_cons] at hnodup
  have hset : Focus (T.setRoot temp) [] z temp k := by
    refine ⟨hk.congr rfl fun a _ => ⟨rfl, rfl, fun s => T.setRoot_child s a temp⟩, rfl, ?_⟩
    rw [spine, List.flatMap_nil, List.append_nil]
    exact hnodup.2
  constructor
  · refine hset.blacken.wipe ?_
    rw [labels_blacken, spine, List.flatMap_nil, List.append_nil]
    exact hnodup.1
  · have hblack := (recolours_black (T.setRoot temp) temp).kept fun _ => rfl
    have hwipe : KeptBut ((T.setRoot temp).black temp) _ z :=
      wipe_keptBut (hblack.sentinel.symm ▸ hz)
    exact ⟨hwipe.sentinel.trans hblack.sentinel, fun hs => hwipe.dark (hblack.dark hs),
      fun a ha => (hwipe.key a ha).trans (hblack.key a)⟩

/-- The end of `ngx_rbtree_delete`, where the node that is cut out is not the root. -/
theorem delete_cut {n fuel : Nat} (hsub : substitute (fuel + 1) T z = some (s, temp))
    (hroot : s ≠ T.root) (hcolor : T.colorOf s = c)
    (hcut : Focus (unlink T z s temp) up q temp k ∧ (unlink T z s temp).parent temp = q ∧
      KeptBut T (unlink T z s temp) z)
    (hs : T.colorOf T.sentinel = .black)
    (hlow : (c = .red → Balanced k .black n) ∧ (c = .black → ∃ m, n = m + 1 ∧ Low k m))
    (hopen : Open up c n) (hfuel : up.length < fuel) :
    ∃ T' t', ngxRbtreeDelete (fuel + 1) T z = some T' ∧ KeptBut T T' z ∧ Holds T' t' ∧
      t'.labels = (fill k up).labels := by
  obtain ⟨hfocus, hparent, hkept⟩ := hcut
  obtain ⟨T', t', hends, hkept', hholds, hlabels⟩ :=
    delete_ends hfocus (fun _ => hparent) (hkept.dark hs) hlow.1 hlow.2 hopen hfuel
  -- the colour is read before the links are changed
  have hred : (T.isRed s = true) = (c = .red) := by
    rw [T.isRed_iff, hcolor]
  refine ⟨T', t', ?_, hkept.trans hkept', hholds, hlabels⟩
  rw [ngxRbtreeDelete, hsub]
  change (if s = T.root then _ else
    if T.isRed s = true then some (unlink T z s temp)
    else deleteLoop (fuel + 1) (unlink T z s temp) temp) = some T'
  rw [if_neg hroot, ← hends]
  simp only [hred]

/-- The node has one subtree or none. -/
theorem delete_one {n fuel : Nat} (h : Focus T up q z (.node c l z r)) (hk : Held T z temp k)
    (hlabels : k.labels = l.labels ++ r.labels) (hside : k = l ∨ k = r)
    (hsub : substitute (fuel + 1) T z = some (z, temp)) (hs : T.colorOf T.sentinel = .black)
    (hbal : Balanced (.node c l z r) c n) (hopen : Open up c n) (hfuel : up.length < fuel) :
    ∃ T' t', ngxRbtreeDelete (fuel + 1) T z = some T' ∧ KeptBut T T' z ∧ Holds T' t' ∧
      t'.labels = (fill k up).labels := by
  obtain ⟨-, hz, -, hcolor, -⟩ := h.held
  have hlow := hbal.kid_low hside
  cases up with
  | nil =>
      have hblack : c = .black := hopen
      subst hblack
      obtain ⟨hfocus, hkept⟩ := delete_root h hk hlabels
      obtain ⟨m, rfl, hkid⟩ := hlow.2 rfl
      refine ⟨_, k.blacken, ?_, hkept, ⟨⟨z, hfocus⟩, hkept.dark hs, ?_⟩, labels_blacken k⟩
      · rw [ngxRbtreeDelete, hsub]
        exact if_pos ((h.eq_root_iff hz).mpr rfl)
      · -- the subtree is the whole tree now, and making its root black balances it
        have hfix := balanced_deleteFix hkid hopen
        rwa [deleteFix] at hfix
  | cons f up =>
      have hroot : z ≠ T.root := fun heq => List.cons_ne_nil f up ((h.eq_root_iff hz).mp heq)
      exact delete_cut hsub hroot hcolor (unlink_self h hk hlabels) hs hlow hopen hfuel

/-- The node has two subtrees: the leftmost node of the right one takes its place. -/
theorem delete_two {fuel : Nat} (h : Focus T up q z (.node c l z r))
    (hl : T.left z ≠ T.sentinel) (hr : T.right z ≠ T.sentinel)
    (hs : T.colorOf T.sentinel = .black)
    (hbal : ∃ n, Balanced (fill (.node c l z r) up) .black n)
    (hfuel : (fill (.node c l z r) up).height < fuel + 1) :
    ∃ T' t', ngxRbtreeDelete (fuel + 1) T z = some T' ∧ KeptBut T T' z ∧ Holds T' t' ∧
      t'.labels = (around up).1 ++ (l.labels ++ r.labels) ++ (around up).2 := by
  have hright : Focus T (⟨.right, c, z, l⟩ :: up) z (T.child .right z) r := h.descend
  have hheight : r.height ≤ fuel + 1 := by
    have hdown := height_fill (.node c l z r) up
    rw [height] at hdown
    omega
  obtain ⟨m, lefts, q', d, r', hmin, hlefts, hfocus, rfl⟩ := ngxRbtreeMin_leads hright hr hheight
  obtain ⟨-, hm, -, hcolor, hnil, hk⟩ := hfocus.held
  have hsub : substitute (fuel + 1) T z = some (m, T.right m) := by
    have hleft : T.left m = T.sentinel := hnil
    rw [substitute, if_neg hl, if_neg hr]
    change (ngxRbtreeMin T (fuel + 1) (T.child .right z)).bind _ = _
    rw [hmin, Option.bind_some, if_neg (not_not.mpr hleft)]
    rfl
  have hroot : m ≠ T.root := by
    intro heq
    exact absurd ((hfocus.eq_root_iff hm).mp heq)
      (List.append_ne_nil_of_right_ne_nil lefts (List.cons_ne_nil _ up))
  have hfill : fill (.node d .nil m r') (lefts ++ ⟨.right, c, z, l⟩ :: up) =
      fill (.node c l z (fill (.node d .nil m r') lefts)) up := fill_append _ _ _
  rw [← hfill] at hbal hfuel
  obtain ⟨n, hbal⟩ := hbal
  obtain ⟨n', hnode, hopen⟩ := Open.of_fill hbal
  have hlen : (lefts ++ ⟨.right, c, m, l⟩ :: up).length < fuel := by
    have hpath := lt_height_fill d .nil m r' (lefts ++ ⟨.right, c, z, l⟩ :: up)
    rw [List.length_append, List.length_cons] at hpath ⊢
    omega
  obtain ⟨q₁, hcut⟩ := unlink_next hfocus hk
  obtain ⟨T', t', hdel, hkept, hholds, hlabels⟩ := delete_cut hsub hroot hcolor hcut hs
    (hnode.kid_low (.inr rfl)) (hopen.relabel m) hlen
  refine ⟨T', t', hdel, hkept, hholds, hlabels.trans ?_⟩
  -- the substitute was the first node of the right subtree, and stands before it now
  rw [fill_append, fill, labels_fill, Frame.fill, labels_join, labels_fill r', labels_fill _ lefts,
    around_left hlefts]
  simp [labels]

/-- **A deletion.** -/
theorem ngxRbtreeDelete_holds {fuel : Nat} (h : Holds T t) (hz : z ∈ t.labels)
    (hfuel : t.height < fuel) :
    ∃ T' t', ngxRbtreeDelete fuel T z = some T' ∧ KeptBut T T' z ∧ Holds T' t' ∧
      t'.labels = t.labels.erase z := by
  obtain ⟨p, hfocus⟩ := h.focus
  obtain ⟨up, q, c, l, r, hplace, hfill⟩ := hfocus.find hz
  rw [List.append_nil] at hplace
  rw [erase_fill hfill hfocus.tree_nodup]
  have hpath := lt_height_fill c l z r up
  have hbal := h.balanced
  rw [← hfill] at hbal hfuel
  cases fuel with
  | zero => exact absurd hfuel (Nat.not_lt_zero _)
  | succ fuel =>
      obtain ⟨-, hz, -, -, hl, hr⟩ := hplace.held
      obtain ⟨n, hopen⟩ := hbal
      obtain ⟨n', hnode, hopen⟩ := Open.of_fill hopen
      have hlen : up.length < fuel := by omega
      by_cases hleft : T.left z = T.sentinel
      · -- nothing on the left
        obtain rfl := hl.eq_nil hleft
        have hlabels : (Coloured.nil : Coloured Nat).labels ++ r.labels = r.labels := rfl
        rw [hlabels, ← labels_fill]
        exact delete_one hplace hr rfl (.inr rfl) (if_pos hleft) h.dark hnode hopen hlen
      · by_cases hright : T.right z = T.sentinel
        · -- nothing on the right
          obtain rfl := hr.eq_nil hright
          have hsub : substitute (fuel + 1) T z = some (z, T.left z) := by
            rw [substitute, if_neg hleft, if_pos hright]
          have hlabels : l.labels = l.labels ++ (Coloured.nil : Coloured Nat).labels :=
            (List.append_nil _).symm
          rw [← hlabels, ← labels_fill]
          exact delete_one hplace hl hlabels (.inl rfl) hsub h.dark hnode hopen hlen
        · exact delete_two hplace hleft hright h.dark (hopen.fill hnode) hfuel

end CppTrack.Ngx
