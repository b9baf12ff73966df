import CppTrack.Timers.NgxRbtreeDelete

/-!
# How a node is cut out of the tree of nginx

A node with two subtrees is not cut out itself: the next node is, which has no left subtree, and
takes its place. What hung below the node that is cut out comes to its parent. In the end the old
node is wiped, which is in the tree no more.
-/

namespace CppTrack.Ngx

open Lib Coloured

variable {T T' : NgxRbtree} {up : List (Frame Nat)} {p i z s temp v : Nat} {t k l r : Coloured Nat}
  {f : Frame Nat} {c : Color}

/-! ## Where the node is -/

/-- A node of the tree, below the path that leads to it. -/
theorem Focus.find (h : Focus T up p i t) (hz : z ∈ t.labels) :
    ∃ path q c l r, Focus T (path ++ up) q z (.node c l z r) ∧ fill (.node c l z r) path = t := by
  induction t generalizing up p i with
  | nil => exact absurd hz List.not_mem_nil
  | node c l a r ihl ihr =>
      obtain ⟨rfl, -⟩ := h.held
      rcases List.mem_append.mp hz with hz | hz
      · have hdown : Focus T (⟨.left, c, i, r⟩ :: up) i (T.child .left i) l := h.descend
        obtain ⟨path, q, c', l', r', hfocus, hfill⟩ := ihl hdown hz
        refine ⟨path ++ [⟨.left, c, i, r⟩], q, c', l', r', ?_, ?_⟩
        · rw [List.append_assoc]
          exact hfocus
        · rw [fill_append, hfill]
          rfl
      · rcases List.mem_cons.mp hz with rfl | hz
        · exact ⟨[], p, c, l, r, h, rfl⟩
        · have hdown : Focus T (⟨.right, c, i, l⟩ :: up) i (T.child .right i) r := h.descend
          obtain ⟨path, q, c', l', r', hfocus, hfill⟩ := ihr hdown hz
          refine ⟨path ++ [⟨.right, c, i, l⟩], q, c', l', r', ?_, ?_⟩
          · rw [List.append_assoc]
            exact hfocus
          · rw [fill_append, hfill]
            rfl

/-- Down along a path. -/
theorem Focus.along {path : List (Frame Nat)} (h : Focus T up p i (fill t path)) :
    ∃ q j, Focus T (path ++ up) q j t := by
  induction path generalizing t with
  | nil => exact ⟨p, i, h⟩
  | cons f path ih =>
      obtain ⟨q, j, hfocus⟩ := ih h
      exact ⟨_, _, hfocus.descend⟩

/-- Up along a path. -/
theorem Focus.back {path : List (Frame Nat)} (h : Focus T (path ++ up) p i t) :
    ∃ q j, Focus T up q j (fill t path) := by
  induction path generalizing p i t with
  | nil => exact ⟨p, i, h⟩
  | cons f path ih => exact ih h.ascend

/-- **`ngx_rbtree_min`** goes to the left as far as it can. -/
theorem ngxRbtreeMin_leads {fuel : Nat} (h : Focus T up p i t) (hi : i ≠ T.sentinel)
    (hfuel : t.height ≤ fuel) : ∃ m path q c r, ngxRbtreeMin T fuel i = some m ∧
      (∀ f ∈ path, f.side = .left) ∧ Focus T (path ++ up) q m (.node c .nil m r) ∧
      fill (.node c .nil m r) path = t := by
  induction fuel generalizing up p i t with
  | zero =>
      obtain ⟨c, near, far, rfl⟩ := h.held.eq_join hi .left
      rw [height_join] at hfuel
      exact absurd hfuel (by omega)
  | succ fuel ih =>
      obtain ⟨c, near, far, rfl⟩ := h.held.eq_join hi .left
      rw [height_join] at hfuel
      have hdown : Focus T (⟨.left, c, i, far⟩ :: up) i (T.left i) near := h.descend
      rw [ngxRbtreeMin]
      by_cases hleaf : T.left i = T.sentinel
      · obtain rfl := hdown.held.eq_nil hleaf
        exact ⟨i, [], p, c, far, if_neg (not_not.mpr hleaf), fun f hf => absurd hf List.not_mem_nil,
          h, rfl⟩
      · obtain ⟨m, path, q, c', r, hmin, hleft, hfocus, hfill⟩ := ih hdown hleaf (by omega)
        refine ⟨m, path ++ [⟨.left, c, i, far⟩], q, c', r, ?_, fun f hf => ?_, ?_, ?_⟩
        · rw [if_pos hleaf, hmin]
        · rcases List.mem_append.mp hf with hf | hf
          · exact hleft f hf
          · rw [List.mem_singleton.mp hf]
        · rw [List.append_assoc]
          exact hfocus
        · rw [fill_append, hfill]
          rfl

/-! ## The node is cut out -/

/-- What hangs at `temp` comes to the place below `p`, and `v` is stored as its parent. -/
structure Cut (T T' : NgxRbtree) (p : Nat) (side : Side) (temp v : Nat) : Prop where
  sentinel : T'.sentinel = T.sentinel
  root : T'.root = T.root
  colorOf : ∀ a, T'.colorOf a = T.colorOf a
  key : ∀ a, T'.key a = T.key a
  parent : ∀ a, T'.parent a = if a = temp then v else T.parent a
  child : ∀ s a, T'.child s a = if a = p ∧ s = side then temp else T.child s a

theorem cut_setParent (T : NgxRbtree) (p : Nat) (side : Side) (temp v : Nat) :
    Cut T ((T.setChild side p temp).setParent temp v) p side temp v :=
  ⟨by simp, by simp, by simp, by simp, by simp, by simp⟩

/-- The node `s`, which has one subtree or none, is cut out. -/
theorem Focus.cut (h : Focus T (f :: up) p s (.node c l s r)) (hk : Held T s temp k)
    (hlabels : k.labels = l.labels ++ r.labels) (hcut : Cut T T' p f.side temp v) :
    Held T' v temp k ∧ Above T' p temp (f :: up) ∧ (s :: k.labels ++ spine (f :: up)).Nodup := by
  have hperm : ((Coloured.node c l s r).labels ++ spine (f :: up)).Perm
      (s :: k.labels ++ spine (f :: up)) := by
    rw [hlabels]
    exact List.perm_middle.append_right _
  have hnodup := hperm.nodup_iff.mp h.nodup
  have hpf := h.above.1
  rw [List.cons_append, List.nodup_cons, List.nodup_append'] at hnodup
  obtain ⟨-, hknodup, -, hdisj⟩ := hnodup
  have hps : p ∈ spine (f :: up) := hpf ▸ List.mem_cons_self
  have hne : ∀ a ∈ k.labels, a ≠ p := fun a ha heq => hdisj ha (heq ▸ hps)
  refine ⟨?_, ?_, hperm.nodup_iff.mp h.nodup⟩
  · refine hk.reparent hknodup hcut.sentinel (fun _ => ?_) (fun a ha hat => ?_) fun ht => ?_
    · rw [hcut.parent, if_pos rfl]
    · refine ⟨?_, hcut.colorOf a, fun s' => ?_⟩
      · rw [hcut.parent, if_neg hat]
      · rw [hcut.child, if_neg fun hi => hne a ha hi.1]
    · refine ⟨hcut.colorOf temp, fun s' => ?_⟩
      rw [hcut.child, if_neg fun hi => hne temp (hk.mem ht) hi.1]
  · refine h.above.congr hcut.sentinel (fun a ha => ⟨?_, hcut.colorOf a⟩) ?_ (fun a ha s' => ?_)
      h.spine_nodup
    · rw [hcut.parent, if_neg]
      intro heq
      by_cases ht : temp = T.sentinel
      · exact h.above.ne_sentinel ha (heq.trans ht)
      · exact hdisj (hk.mem ht) (heq ▸ ha)
    · rw [if_neg (List.cons_ne_nil f up)]
      exact hcut.root
    · rw [hcut.child]
      exact if_congr (by simp [hpf]) rfl rfl

/-- A store to what is in the tree no more. -/
theorem Focus.congr (h : Focus T up p i t) (hs : T'.sentinel = T.sentinel)
    (hroot : T'.root = T.root) (hsame : ∀ a ∈ t.labels ++ spine up, Same T T' a) :
    Focus T' up p i t :=
  h.change_inner (h.held.congr hs fun a ha => hsame a (List.mem_append_left _ ha))
    (List.Perm.refl _) hs hroot fun a ha => hsame a (List.mem_append_right _ ha)

theorem wipe_same {a : Nat} (ha : a ≠ z) : Same T (wipe T z) a :=
  ⟨by simp [wipe, NgxRbtree.setLeft_eq, NgxRbtree.setRight_eq, ha],
    by simp [wipe, NgxRbtree.setLeft_eq, NgxRbtree.setRight_eq],
    by simp [wipe, NgxRbtree.setLeft_eq, NgxRbtree.setRight_eq, ha]⟩

theorem Focus.wipe (h : Focus T up p i t) (hz : z ∉ t.labels ++ spine up) :
    Focus (Ngx.wipe T z) up p i t :=
  h.congr rfl rfl fun _ ha => wipe_same fun heq => hz (heq ▸ ha)

/-! ## Another node takes the place -/

theorem relink_reads (T : NgxRbtree) (z s : Nat) : (relink T z s).sentinel = T.sentinel ∧
    (relink T z s).root = (if z = T.root then s else T.root) ∧
    (∀ a, (relink T z s).key a = T.key a) ∧ (∀ a, (relink T z s).colorOf a = T.colorOf a) ∧
    (∀ a, (relink T z s).parent a = T.parent a) ∧
    ∀ sd a, (relink T z s).child sd a = if z ≠ T.root ∧ a = T.parent z ∧
      sd = (if z = T.child .left (T.parent z) then .left else .right) then s else T.child sd a := by
  unfold relink
  by_cases htop : z = T.root
  · simp [htop]
  · by_cases hside : z = T.left (T.parent z)
    · rw [if_neg htop, if_pos hside]
      simp [htop, ← NgxRbtree.left_eq, ← hside, NgxRbtree.setLeft_eq]
    · rw [if_neg htop, if_neg hside]
      simp [htop, ← NgxRbtree.left_eq, hside, NgxRbtree.setRight_eq]

theorem adopt_reads (T : NgxRbtree) (s : Nat) : (adopt T s).sentinel = T.sentinel ∧
    (adopt T s).root = T.root ∧ (∀ a, (adopt T s).key a = T.key a) ∧
    (∀ a, (adopt T s).colorOf a = T.colorOf a) ∧
    (∀ sd a, (adopt T s).child sd a = T.child sd a) ∧
    ∀ a, (adopt T s).parent a =
      if (a = T.child .left s ∨ a = T.child .right s) ∧ a ≠ T.sentinel then s else T.parent a := by
  by_cases hl : T.child .left s = T.sentinel <;> by_cases hr : T.child .right s = T.sentinel
  all_goals simp [adopt, NgxRbtree.left_eq, NgxRbtree.right_eq, hl, hr]
  all_goals grind

/-- The first stores: the new node gets the links and the colour of the old one. -/
theorem replace_first (hzs : z ≠ s) :
    ∃ T₁ : NgxRbtree, replace T z s = adopt (relink T₁ z s) s ∧
      T₁.sentinel = T.sentinel ∧ T₁.root = T.root ∧ (∀ a, T₁.key a = T.key a) ∧
      (∀ a, T₁.colorOf a = if a = s then T.colorOf z else T.colorOf a) ∧
      (∀ sd a, T₁.child sd a = if a = s then T.child sd z else T.child sd a) ∧
      ∀ a, T₁.parent a = if a = s then T.parent z else T.parent a := by
  refine ⟨_, rfl, ?_, ?_, fun a => ?_, fun a => ?_, fun sd a => ?_, fun a => ?_⟩
  case refine_5 =>
    cases sd <;> simp [NgxRbtree.left_eq, NgxRbtree.right_eq, NgxRbtree.setLeft_eq,
      NgxRbtree.setRight_eq, hzs]
  all_goals simp [NgxRbtree.left_eq, NgxRbtree.right_eq, NgxRbtree.setLeft_eq,
    NgxRbtree.setRight_eq, hzs]

/-- The stores of `replace`. -/
structure Replaced (T T' : NgxRbtree) (z s : Nat) : Prop where
  sentinel : T'.sentinel = T.sentinel
  root : T'.root = if z = T.root then s else T.root
  colorOf : ∀ a, T'.colorOf a = if a = s then T.colorOf z else T.colorOf a
  key : ∀ a, T'.key a = T.key a
  parent : ∀ a, T'.parent a =
    if (a = T.child .left z ∨ a = T.child .right z) ∧ a ≠ T.sentinel then s
    else if a = s then T.parent z else T.parent a
  child : ∀ sd a, T'.child sd a =
    if a = s then T.child sd z
    else if z ≠ T.root ∧ a = T.parent z ∧
      sd = (if z = T.child .left (T.parent z) then .left else .right) then s else T.child sd a

theorem replace_replaced (hzs : z ≠ s) (hp : z ≠ T.root → T.parent z ≠ s) :
    Replaced T (replace T z s) z s := by
  obtain ⟨T₁, hrep, hs, hroot, hkey, hcolor, hchild, hpar⟩ := @replace_first T z s hzs
  obtain ⟨hs₂, hroot₂, hkey₂, hcolor₂, hpar₂, hchild₂⟩ := relink_reads T₁ z s
  obtain ⟨hs₃, hroot₃, hkey₃, hcolor₃, hchild₃, hpar₃⟩ := adopt_reads (relink T₁ z s) s
  have hpz : T₁.parent z = T.parent z := by rw [hpar, if_neg hzs]
  -- the links of the new node are not among those that change next
  have hkids : ∀ sd, (relink T₁ z s).child sd s = T.child sd z := by
    intro sd
    rw [hchild₂, if_neg, hchild, if_pos rfl]
    intro hi
    exact hp (hroot ▸ hi.1) (hpz ▸ hi.2.1.symm)
  rw [← hrep] at hs₃ hroot₃ hkey₃ hcolor₃ hchild₃ hpar₃
  constructor
  · rw [hs₃, hs₂, hs]
  · rw [hroot₃, hroot₂, hroot]
  · intro a
    rw [hcolor₃, hcolor₂, hcolor]
  · intro a
    rw [hkey₃, hkey₂, hkey]
  · intro a
    rw [hpar₃, hkids, hkids, hpar₂, hpar, hs₂, hs]
  · intro sd a
    rw [hchild₃]
    by_cases ha : a = s
    · rw [ha, if_pos rfl, hkids]
    · rw [if_neg ha, hchild₂, hroot, hpz, hchild sd, if_neg ha]
      by_cases htop : z = T.root
      · simp [htop]
      · rw [hchild, if_neg (hp htop)]

/-- A subtree of the old node hangs below the new one. -/
theorem Replaced.held {q : Nat} {sd : Side} (h : Replaced T T' z s)
    (hk : Held T q (T.child sd z) k) (hnodup : k.labels.Nodup) (hs : s ∉ k.labels)
    (hother : T.child sd.other z ∉ k.labels) (hp : z ≠ T.root → T.parent z ∉ k.labels) :
    Held T' s (T'.child sd s) k := by
  have hpar : ∀ a ∈ k.labels, z ≠ T.root → a ≠ T.parent z := fun a ha hz heq => hp hz (heq ▸ ha)
  have hchild : ∀ a ∈ k.labels, ∀ s', T'.child s' a = T.child s' a := by
    intro a ha s'
    rw [h.child, if_neg (ne_of_mem_of_not_mem ha hs), if_neg fun hi => hpar a ha hi.1 hi.2.1]
  have hcolor : ∀ a ∈ k.labels, T'.colorOf a = T.colorOf a := fun a ha => by
    rw [h.colorOf, if_neg (ne_of_mem_of_not_mem ha hs)]
  have hkid : ∀ a, (a = T.child .left z ∨ a = T.child .right z) ↔
      a = T.child sd z ∨ a = T.child sd.other z := by
    intro a
    cases sd with
    | left => exact Iff.rfl
    | right => exact or_comm
  rw [h.child, if_pos rfl]
  refine hk.reparent hnodup h.sentinel (fun hne => ?_)
    (fun a ha hne => ⟨?_, hcolor a ha, hchild a ha⟩)
    fun hne => ⟨hcolor _ (hk.mem hne), hchild _ (hk.mem hne)⟩
  · rw [h.parent, if_pos ⟨(hkid _).mpr (.inl rfl), hne⟩]
  · rw [h.parent, if_neg, if_neg (ne_of_mem_of_not_mem ha hs)]
    intro hi
    rcases (hkid a).mp hi.1 with heq | heq
    · exact hne heq
    · exact hother (heq ▸ ha)

/-- **The new node stands where the old one stood.** -/
theorem Replaced.focus {q q' : Nat} (h : Replaced T T' z s) (hz : z ≠ T.sentinel)
    (hs : s ≠ T.sentinel) (hl : Held T q (T.child .left z) l) (hr : Held T q' (T.child .right z) r)
    (habove : Above T p z up) (hp : T.parent z = p)
    (hnodup : (z :: s :: (l.labels ++ r.labels) ++ spine up).Nodup) :
    Focus T' up p s (.node (T.colorOf z) l s r) := by
  subst hp
  rw [List.cons_append, List.cons_append, List.nodup_cons, List.nodup_cons,
    List.append_assoc] at hnodup
  obtain ⟨hzfree, hsfree, hrest⟩ := hnodup
  obtain ⟨hlnodup, hrup, hldisj⟩ := List.nodup_append'.mp hrest
  obtain ⟨hrnodup, hupnodup, hrdisj⟩ := List.nodup_append'.mp hrup
  have hzup : z ∉ spine up := fun hm =>
    hzfree (List.mem_cons_of_mem s (List.mem_append_right _ (List.mem_append_right _ hm)))
  have hsup : s ∉ spine up := fun hm =>
    hsfree (List.mem_append_right _ (List.mem_append_right _ hm))
  have hroot := habove.eq_root_iff hzup
  have hpup : z ≠ T.root → T.parent z ∈ spine up := by
    intro hne
    cases up with
    | nil => exact absurd (hroot.mpr rfl) hne
    | cons f up =>
        rw [habove.1]
        exact List.mem_cons_self
  have hleft : ∀ a, a ≠ T.sentinel → a ∉ l.labels → a ≠ T.child .left z := fun a ha hal heq =>
    hal (heq ▸ hl.mem (heq ▸ ha))
  have hright : ∀ a, a ≠ T.sentinel → a ∉ r.labels → a ≠ T.child .right z := fun a ha har heq =>
    har (heq ▸ hr.mem (heq ▸ ha))
  have hsl : s ∉ l.labels := fun hm => hsfree (List.mem_append_left _ hm)
  have hsr : s ∉ r.labels := fun hm => hsfree (List.mem_append_right _ (List.mem_append_left _ hm))
  have hlr : T.child .right z ∉ l.labels := fun hm => by
    have hne := hl.ne_sentinel hm
    exact hldisj hm (List.mem_append_left _ (hr.mem hne))
  have hrl : T.child .left z ∉ r.labels := fun hm => by
    have hne := hr.ne_sentinel hm
    exact hldisj (hl.mem hne) (List.mem_append_left _ hm)
  refine ⟨⟨rfl, h.sentinel ▸ hs, ?_, ?_, ?_, ?_⟩, ?_, ?_⟩
  · rw [h.parent, if_neg, if_pos rfl]
    intro hi
    rcases hi.1 with heq | heq
    · exact hleft s hs hsl heq
    · exact hright s hs hsr heq
  · rw [h.colorOf, if_pos rfl]
  · exact h.held hl hlnodup hsl hlr fun hne hm => hldisj hm (List.mem_append_right _ (hpup hne))
  · exact h.held hr hrnodup hsr hrl fun hne hm => hrdisj hm (hpup hne)
  · refine habove.congr h.sentinel (fun a ha => ⟨?_, ?_⟩) ?_ (fun a ha s' => ?_) hupnodup
    · have hne := habove.ne_sentinel ha
      rw [h.parent, if_neg, if_neg (ne_of_mem_of_not_mem ha hsup)]
      intro hi
      rcases hi.1 with heq | heq
      · exact hleft a hne (fun hm => hldisj hm (List.mem_append_right _ ha)) heq
      · exact hright a hne (fun hm => hrdisj hm ha) heq
    · rw [h.colorOf, if_neg (ne_of_mem_of_not_mem ha hsup)]
    · rw [h.root]
      exact if_congr hroot rfl rfl
    · rw [h.child, if_neg (ne_of_mem_of_not_mem ha hsup)]
      refine if_congr ?_ rfl rfl
      cases up with
      | nil => exact absurd ha List.not_mem_nil
      | cons f up =>
          have hne : z ≠ T.root := fun hi => List.cons_ne_nil f up (hroot.mp hi)
          have hside := habove.side_iff (habove.other_ne hz hzup) .left
          have hlink : (if z = T.child .left (T.parent z) then Side.left else .right) = f.side := by
            split
            case isTrue heq => exact hside.mp heq
            case isFalse hno =>
              cases hf : f.side with
              | left => exact absurd (hside.mpr hf.symm) hno
              | right => rfl
          rw [hlink, habove.1]
          simp [hne]
  · rw [labels, List.append_cons, List.append_assoc]
    refine List.Perm.nodup_iff ?_ |>.mpr (List.nodup_cons.mpr ⟨hsfree, hrest⟩)
    rw [List.append_assoc]
    exact List.perm_middle

/-! ## The whole step -/

/-- What a deletion of `z` does not change. -/
structure KeptBut (T T' : NgxRbtree) (z : Nat) : Prop where
  sentinel : T'.sentinel = T.sentinel
  dark : T.colorOf T.sentinel = .black → T'.colorOf T'.sentinel = .black
  key : ∀ a, a ≠ z → T'.key a = T.key a

theorem KeptBut.trans {T'' : NgxRbtree} (h : KeptBut T T' z) (h' : Kept T' T'') :
    KeptBut T T'' z :=
  ⟨h'.sentinel.trans h.sentinel, fun hs => h'.dark (h.dark hs),
    fun a ha => (h'.key a).trans (h.key a ha)⟩

theorem wipe_keptBut (hz : z ≠ T.sentinel) : KeptBut T (wipe T z) z := by
  refine ⟨rfl, fun hs => (wipe_same hz.symm).colorOf.trans hs, fun a ha => ?_⟩
  simp [wipe, NgxRbtree.setLeft_eq, NgxRbtree.setRight_eq, ha]

/-- The link that led to the node that is cut out. -/
theorem Focus.link_set (h : Focus T (f :: up) p s t) (hs : s ≠ T.sentinel) (temp : Nat) :
    (if s = T.left (T.parent s) then T.setLeft (T.parent s) temp
      else T.setRight (T.parent s) temp) = T.setChild f.side p temp := by
  have hside := h.side_eq (fun heq => absurd heq hs) .left
  rw [h.parent_eq hs]
  split
  case isTrue heq => rw [← hside.mp heq, NgxRbtree.setLeft_eq]
  case isFalse hne =>
    cases hf : f.side with
    | left => exact absurd (hside.mpr hf.symm) hne
    | right => rfl

/-- The node itself is cut out. -/
theorem unlink_self (h : Focus T (f :: up) p z (.node c l z r)) (hk : Held T z temp k)
    (hlabels : k.labels = l.labels ++ r.labels) :
    Focus (unlink T z z temp) (f :: up) p temp k ∧ (unlink T z z temp).parent temp = p ∧
      KeptBut T (unlink T z z temp) z := by
  obtain ⟨-, hz, -⟩ := h.held
  have hcut := cut_setParent T p f.side temp p
  have hunlink : unlink T z z temp = wipe ((T.setChild f.side p temp).setParent temp p) z := by
    rw [unlink, h.link_set hz]
    simp [h.parent_eq hz]
  obtain ⟨hheld, habove, hnodup⟩ := h.cut hk hlabels hcut
  rw [List.cons_append, List.nodup_cons] at hnodup
  have hfocus : Focus _ (f :: up) p temp k := ⟨hheld, habove, hnodup.2⟩
  have htemp : temp ≠ z := by
    intro heq
    exact hnodup.1 (List.mem_append_left _ (heq ▸ hk.mem (heq ▸ hz)))
  rw [hunlink]
  refine ⟨hfocus.wipe hnodup.1, ?_, ?_⟩
  · rw [(wipe_same htemp).parent, hcut.parent, if_pos rfl]
  · have hwipe := wipe_keptBut (hcut.sentinel ▸ hz)
    refine ⟨hwipe.sentinel.trans hcut.sentinel, fun hs => hwipe.dark ?_, fun a ha => ?_⟩
    · rw [hcut.sentinel, hcut.colorOf]
      exact hs
    · rw [hwipe.key a ha, hcut.key]

/-- The next node is cut out of the right subtree of `z`; what is read there then. -/
theorem cut_next {lefts : List (Frame Nat)} {d : Color} {q : Nat}
    (h : Focus T (lefts ++ ⟨.right, c, z, l⟩ :: up) q s (.node d .nil s r))
    (hk : Held T s temp r) : ∃ g rest v, lefts ++ ⟨.right, c, z, l⟩ :: up = g :: rest ∧
      v = (if T.parent s = z then s else T.parent s) ∧
      ∀ T', Cut T T' q g.side temp v → (∃ q', Held T' q' (T'.child .right z) (fill r lefts)) ∧
        Above T' z (T'.child .right z) (⟨.right, c, z, l⟩ :: up) ∧
        (s :: (fill r lefts).labels ++ spine (⟨.right, c, z, l⟩ :: up)).Nodup ∧
        v = ((lefts.head?.map Frame.label).getD s) := by
  obtain ⟨-, hs, -⟩ := h.held
  have hps := h.parent_eq hs
  cases lefts with
  | nil =>
      have hqz : q = z := h.above.1
      refine ⟨_, _, _, rfl, rfl, fun T' hcut => ?_⟩
      obtain ⟨hheld, habove, hnodup⟩ := h.cut hk rfl hcut
      rw [hqz] at habove
      have hlink : T'.child .right z = temp := habove.2.2.2.1
      rw [hlink]
      refine ⟨⟨_, hheld⟩, habove, hnodup, ?_⟩
      rw [hps, if_pos hqz]
      rfl
  | cons g lefts =>
      have hqg : q = g.label := h.above.1
      refine ⟨g, _, _, rfl, rfl, fun T' hcut => ?_⟩
      obtain ⟨hheld, habove, hnodup⟩ := h.cut hk rfl hcut
      have hqz : q ≠ z := by
        have hspine := h.spine_nodup
        rw [List.cons_append, spine_cons, List.cons_append, List.nodup_cons] at hspine
        have hmem : z ∈ spine (lefts ++ ⟨.right, c, z, l⟩ :: up) := by
          rw [spine_append]
          exact List.mem_append_right _ List.mem_cons_self
        intro heq
        exact hspine.1 (List.mem_append_right _ (hqg ▸ heq ▸ hmem))
      rw [hps, if_neg hqz] at hheld hcut ⊢
      rw [List.cons_append, List.nodup_cons] at hnodup
      have hfocus : Focus T' ((g :: lefts) ++ ⟨.right, c, z, l⟩ :: up) q temp r :=
        ⟨hheld, habove, hnodup.2⟩
      obtain ⟨q', j, hback⟩ := hfocus.back
      have hqz' : q' = z := hback.above.1
      rw [hqz'] at hback
      have hlink : T'.child .right z = j := hback.above.2.2.2.1
      rw [hlink]
      refine ⟨⟨_, hback.held⟩, hback.above, ?_, hqg⟩
      exact (((labels_fill_append_perm r (g :: lefts) _).cons s).nodup_iff).mpr
        (List.nodup_cons.mpr hnodup)

/-- **The next node takes the place of `z`.** -/
theorem unlink_next {lefts : List (Frame Nat)} {d : Color} {q : Nat}
    (h : Focus T (lefts ++ ⟨.right, c, z, l⟩ :: up) q s (.node d .nil s r))
    (hk : Held T s temp r) : ∃ q', Focus (unlink T z s temp) (lefts ++ ⟨.right, c, s, l⟩ :: up) q'
      temp r ∧ (unlink T z s temp).parent temp = q' ∧ KeptBut T (unlink T z s temp) z := by
  obtain ⟨-, hs, -⟩ := h.held
  obtain ⟨g, rest, v, hpath, hv, hcutall⟩ := cut_next h hk
  rw [hpath] at h
  have hcut := cut_setParent T q g.side temp v
  obtain ⟨⟨q', hsub⟩, habove, hnodup, hvhead⟩ := hcutall _ hcut
  generalize hT₁ : (T.setChild g.side q temp).setParent temp v = T₁ at hcut hsub habove hnodup
  obtain ⟨-, hz, hcolor, -, hl, hup⟩ := habove
  have hperm : (z :: s :: (l.labels ++ (fill r lefts).labels) ++ spine up).Perm
      (s :: (fill r lefts).labels ++ spine (⟨.right, c, z, l⟩ :: up)) := by
    have hswap : (l.labels ++ (fill r lefts).labels ++ spine up).Perm
        ((fill r lefts).labels ++ (l.labels ++ spine up)) := by
      rw [List.append_assoc]
      exact List.perm_append_comm_assoc _ _ _
    rw [spine_cons]
    exact ((hswap.cons s).cons z).trans
      (@List.perm_middle _ z (s :: (fill r lefts).labels) (l.labels ++ spine up)).symm
  have hfree := hperm.nodup_iff.mpr hnodup
  rw [List.cons_append, List.cons_append, List.nodup_cons, List.nodup_cons] at hfree
  obtain ⟨hzfree, hsfree, -⟩ := hfree
  have hzs : z ≠ s := fun heq => hzfree (heq ▸ List.mem_cons_self)
  have hpz : z ≠ T₁.root → T₁.parent z ≠ s := by
    intro hroot heq
    cases up with
    | nil => exact hroot hup.symm
    | cons g up =>
        refine hsfree (List.mem_append_right _ (heq ▸ ?_))
        rw [hup.1]
        exact List.mem_cons_self
  have hrep := @replace_replaced T₁ z s hzs hpz
  have hplace := hrep.focus hz (hcut.sentinel ▸ hs) hl hsub hup rfl (hperm.nodup_iff.mpr hnodup)
  have hunlink : unlink T z s temp = wipe (replace T₁ z s) z := by
    rw [unlink, h.link_set hs, ← hT₁, hv]
    simp only [if_neg hzs.symm, NgxRbtree.setChild_parent]
    split <;> rfl
  have hclear : z ∉ (Coloured.node (T₁.colorOf z) l s (fill r lefts)).labels ++ spine up := by
    intro hm
    refine hzfree ((List.Perm.mem_iff ?_).mp hm)
    exact List.perm_middle.append_right (spine up)
  have hwiped := hplace.wipe hclear
  rw [hcolor] at hwiped
  have hbelow : Focus _ (⟨.right, c, s, l⟩ :: up) s _ (fill r lefts) := hwiped.descend
  obtain ⟨q'', j, hfocus⟩ := hbelow.along
  have hsent : (wipe (replace T₁ z s) z).sentinel = T.sentinel := hrep.sentinel.trans hcut.sentinel
  rw [hk.link_eq hfocus.held hsent] at hfocus
  have hzT : z ≠ T.sentinel := hcut.sentinel ▸ hz
  rw [hunlink]
  refine ⟨q'', hfocus, ?_, hsent, fun hdark => ?_, fun a ha => ?_⟩
  · by_cases htemp : temp = T.sentinel
    · -- what is stored in the sentinel
      have hnot : ¬ ((temp = T₁.child .left z ∨ temp = T₁.child .right z) ∧ temp ≠ T₁.sentinel) :=
        fun hi => hi.2 (htemp.trans hcut.sentinel.symm)
      rw [(wipe_same (htemp ▸ hzT.symm)).parent, hrep.parent, if_neg hnot,
        if_neg (htemp ▸ hs.symm), hcut.parent, if_pos rfl, hvhead]
      cases lefts with
      | nil => exact hfocus.above.1.symm
      | cons g lefts => exact hfocus.above.1.symm
    · exact hfocus.parent_eq (hsent.symm ▸ htemp)
  · rw [hsent, (wipe_same hzT.symm).colorOf, hrep.colorOf, if_neg hs.symm, hcut.colorOf]
    exact hdark
  · rw [(wipe_keptBut (hrep.sentinel ▸ hz)).key a ha, hrep.key, hcut.key]

end CppTrack.Ngx
