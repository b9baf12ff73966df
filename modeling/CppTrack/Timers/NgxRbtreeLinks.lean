import CppTrack.Timers.NgxRbtree
import Mathlib.Data.List.Nodup

/-!
# Trees in the memory of nginx

`Held` says that a coloured tree is what one meets below a link, and `Above` that a path of nodes
leads up from it to the root. Both are kept by stores to other nodes. A rotation is what
`rotate` does to the place where it is made, and nothing else.
-/

namespace CppTrack.Ngx

open Lib Coloured

/-! ## What is read back -/

namespace NgxRbtree

/-- The colour that a node has. -/
def colorOf (T : NgxRbtree) (a : Nat) : Color := if T.isRed a then .red else .black

variable (T : NgxRbtree) (s s' : Side) (a b v : Nat) (c : UInt8) (k : BitVec 32)

theorem isRed_iff : T.isRed a = true ↔ T.colorOf a = .red := by
  unfold colorOf
  split
  case isTrue h => exact iff_of_true h rfl
  case isFalse h => exact iff_of_false h (by decide)

theorem not_isRed_iff : ¬ T.isRed a = true ↔ T.colorOf a = .black := by
  unfold colorOf
  split
  case isTrue h => exact iff_of_false (not_not.mpr h) (by decide)
  case isFalse h => exact iff_of_true h rfl

theorem setLeft_eq : T.setLeft a v = T.setChild .left a v := rfl

theorem setRight_eq : T.setRight a v = T.setChild .right a v := rfl

theorem left_eq : T.left a = T.child .left a := rfl

theorem right_eq : T.right a = T.child .right a := rfl

@[simp] theorem setRoot_root : (T.setRoot v).root = v := rfl
@[simp] theorem setRoot_sentinel : (T.setRoot v).sentinel = T.sentinel := rfl
@[simp] theorem setRoot_parent : (T.setRoot v).parent b = T.parent b := rfl
@[simp] theorem setRoot_key : (T.setRoot v).key b = T.key b := rfl
@[simp] theorem setRoot_colorOf : (T.setRoot v).colorOf b = T.colorOf b := rfl
@[simp] theorem setRoot_child : (T.setRoot v).child s b = T.child s b := by cases s <;> rfl

@[simp] theorem setParent_root : (T.setParent a v).root = T.root := rfl
@[simp] theorem setParent_sentinel : (T.setParent a v).sentinel = T.sentinel := rfl

@[simp] theorem setParent_parent :
    (T.setParent a v).parent b = if b = a then v else T.parent b := by
  by_cases h : b = a <;> simp [parent, setParent, h]

@[simp] theorem setParent_key : (T.setParent a v).key b = T.key b := by
  by_cases h : b = a <;> simp [key, setParent, h]

@[simp] theorem setParent_colorOf : (T.setParent a v).colorOf b = T.colorOf b := by
  by_cases h : b = a <;> simp [colorOf, isRed, setParent, h]

@[simp] theorem setParent_child : (T.setParent a v).child s b = T.child s b := by
  cases s <;> by_cases h : b = a <;> simp [child, left, right, setParent, h]

@[simp] theorem setColor_root : (T.setColor a c).root = T.root := rfl
@[simp] theorem setColor_sentinel : (T.setColor a c).sentinel = T.sentinel := rfl

@[simp] theorem setColor_parent : (T.setColor a c).parent b = T.parent b := by
  by_cases h : b = a <;> simp [parent, setColor, h]

@[simp] theorem setColor_key : (T.setColor a c).key b = T.key b := by
  by_cases h : b = a <;> simp [key, setColor, h]

theorem setColor_colorOf : (T.setColor a c).colorOf b =
    if b = a then (if c ≠ 0 then .red else .black) else T.colorOf b := by
  by_cases h : b = a <;> simp [colorOf, isRed, setColor, h]

@[simp] theorem setColor_child : (T.setColor a c).child s b = T.child s b := by
  cases s <;> by_cases h : b = a <;> simp [child, left, right, setColor, h]

@[simp] theorem setKey_root : (T.setKey a k).root = T.root := rfl
@[simp] theorem setKey_sentinel : (T.setKey a k).sentinel = T.sentinel := rfl

@[simp] theorem setKey_parent : (T.setKey a k).parent b = T.parent b := by
  by_cases h : b = a <;> simp [parent, setKey, h]

@[simp] theorem setKey_key : (T.setKey a k).key b = if b = a then k else T.key b := by
  by_cases h : b = a <;> simp [key, setKey, h]

@[simp] theorem setKey_colorOf : (T.setKey a k).colorOf b = T.colorOf b := by
  by_cases h : b = a <;> simp [colorOf, isRed, setKey, h]

@[simp] theorem setKey_child : (T.setKey a k).child s b = T.child s b := by
  cases s <;> by_cases h : b = a <;> simp [child, left, right, setKey, h]

@[simp] theorem setChild_root : (T.setChild s a v).root = T.root := by cases s <;> rfl

@[simp] theorem setChild_sentinel : (T.setChild s a v).sentinel = T.sentinel := by cases s <;> rfl

@[simp] theorem setChild_parent : (T.setChild s a v).parent b = T.parent b := by
  cases s <;> by_cases h : b = a <;> simp [parent, setChild, setLeft, setRight, h]

@[simp] theorem setChild_key : (T.setChild s a v).key b = T.key b := by
  cases s <;> by_cases h : b = a <;> simp [key, setChild, setLeft, setRight, h]

@[simp] theorem setChild_colorOf : (T.setChild s a v).colorOf b = T.colorOf b := by
  cases s <;> by_cases h : b = a <;> simp [colorOf, isRed, setChild, setLeft, setRight, h]

@[simp] theorem setChild_child :
    (T.setChild s a v).child s' b = if b = a ∧ s' = s then v else T.child s' b := by
  cases s <;> cases s' <;> by_cases h : b = a <;>
    simp [child, left, right, setChild, setLeft, setRight, h]

@[simp] theorem red_root : (T.red a).root = T.root := rfl
@[simp] theorem red_sentinel : (T.red a).sentinel = T.sentinel := rfl
@[simp] theorem red_key : (T.red a).key b = T.key b := T.setColor_key a b 1
@[simp] theorem black_root : (T.black a).root = T.root := rfl
@[simp] theorem black_sentinel : (T.black a).sentinel = T.sentinel := rfl
@[simp] theorem black_key : (T.black a).key b = T.key b := T.setColor_key a b 0
@[simp] theorem copyColor_root : (T.copyColor a v).root = T.root := rfl
@[simp] theorem copyColor_sentinel : (T.copyColor a v).sentinel = T.sentinel := rfl
@[simp] theorem copyColor_key : (T.copyColor a v).key b = T.key b := T.setColor_key a b _
@[simp] theorem red_parent : (T.red a).parent b = T.parent b := T.setColor_parent a b 1
@[simp] theorem red_child : (T.red a).child s b = T.child s b := T.setColor_child s a b 1
@[simp] theorem black_parent : (T.black a).parent b = T.parent b := T.setColor_parent a b 0
@[simp] theorem black_child : (T.black a).child s b = T.child s b := T.setColor_child s a b 0

@[simp] theorem copyColor_parent : (T.copyColor a v).parent b = T.parent b :=
  T.setColor_parent a b _

@[simp] theorem copyColor_child : (T.copyColor a v).child s b = T.child s b :=
  T.setColor_child s a b _

@[simp] theorem red_colorOf : (T.red a).colorOf b = if b = a then .red else T.colorOf b := by
  rw [red, setColor_colorOf]
  rfl

@[simp] theorem black_colorOf : (T.black a).colorOf b = if b = a then .black else T.colorOf b := by
  rw [black, setColor_colorOf]
  rfl

@[simp] theorem copyColor_colorOf : (T.copyColor a v).colorOf b =
    if b = a then T.colorOf v else T.colorOf b := by
  rw [copyColor, setColor_colorOf]
  refine if_congr Iff.rfl ?_ rfl
  simp [colorOf, isRed]

end NgxRbtree

/-- A store of the colour `c` in the node `a`. -/
structure Recolours (T T' : NgxRbtree) (a : Nat) (c : Color) : Prop where
  root : T'.root = T.root
  sentinel : T'.sentinel = T.sentinel
  parent : ∀ b, T'.parent b = T.parent b
  child : ∀ s b, T'.child s b = T.child s b
  key : ∀ b, T'.key b = T.key b
  colorOf : ∀ b, T'.colorOf b = if b = a then c else T.colorOf b

theorem recolours_setColor (T : NgxRbtree) (a : Nat) (c : UInt8) :
    Recolours T (T.setColor a c) a (if c ≠ 0 then .red else .black) :=
  ⟨rfl, rfl, by simp, by simp, by simp, fun b => T.setColor_colorOf a b c⟩

theorem recolours_red (T : NgxRbtree) (a : Nat) : Recolours T (T.red a) a .red :=
  recolours_setColor T a 1

theorem recolours_black (T : NgxRbtree) (a : Nat) : Recolours T (T.black a) a .black :=
  recolours_setColor T a 0

theorem recolours_copyColor (T : NgxRbtree) (a b : Nat) :
    Recolours T (T.copyColor a b) a (T.colorOf b) :=
  ⟨rfl, rfl, fun _ => T.setColor_parent _ _ _, fun _ _ => T.setColor_child _ _ _ _,
    fun _ => T.setColor_key _ _ _, fun _ => T.copyColor_colorOf _ _ _⟩

/-! ## Trees and paths -/

/-- Below the node `p`, from the link `i`, one meets `t`. -/
def Held (T : NgxRbtree) : (p i : Nat) → Coloured Nat → Prop
  | _, i, .nil => i = T.sentinel
  | p, i, .node c l a r =>
      i = a ∧ a ≠ T.sentinel ∧ T.parent a = p ∧ T.colorOf a = c ∧
        Held T a (T.left a) l ∧ Held T a (T.right a) r

/-- The path leads up to the root from the link `i` of the node `p`. -/
def Above (T : NgxRbtree) : (p i : Nat) → List (Frame Nat) → Prop
  | _, i, [] => T.root = i
  | p, i, f :: up =>
      p = f.label ∧ p ≠ T.sentinel ∧ T.colorOf p = f.color ∧ T.child f.side p = i ∧
        Held T p (T.child f.side.other p) f.sib ∧ Above T (T.parent p) p up

/-- A tree below a path, and no node is met twice. -/
structure Focus (T : NgxRbtree) (up : List (Frame Nat)) (p i : Nat) (t : Coloured Nat) : Prop where
  held : Held T p i t
  above : Above T p i up
  nodup : (t.labels ++ spine up).Nodup

/-- The links and the colour of a node are the same. -/
structure Same (T T' : NgxRbtree) (a : Nat) : Prop where
  parent : T'.parent a = T.parent a
  colorOf : T'.colorOf a = T.colorOf a
  child : ∀ s, T'.child s a = T.child s a

variable {T T' : NgxRbtree} {p q i j : Nat} {t t' : Coloured Nat} {up : List (Frame Nat)}

theorem held_join {s : Side} {c : Color} {near far : Coloured Nat} {a : Nat} :
    Held T p i (join s c near a far) ↔ i = a ∧ a ≠ T.sentinel ∧ T.parent a = p ∧ T.colorOf a = c ∧
      Held T a (T.child s a) near ∧ Held T a (T.child s.other a) far := by
  cases s with
  | left => exact Iff.rfl
  | right =>
      refine and_congr Iff.rfl (and_congr Iff.rfl (and_congr Iff.rfl (and_congr Iff.rfl ?_)))
      exact and_comm

theorem Held.ne_sentinel (h : Held T p i t) {a : Nat} (ha : a ∈ t.labels) : a ≠ T.sentinel := by
  induction t generalizing p i with
  | nil => exact absurd ha List.not_mem_nil
  | node c l b r ihl ihr =>
      obtain ⟨-, hb, -, -, hl, hr⟩ := h
      rcases List.mem_append.mp ha with ha | ha
      · exact ihl hl ha
      · rcases List.mem_cons.mp ha with rfl | ha
        · exact hb
        · exact ihr hr ha

theorem Held.mem (h : Held T p i t) (hi : i ≠ T.sentinel) : i ∈ t.labels := by
  cases t with
  | nil => exact absurd h hi
  | node c l a r =>
      obtain ⟨rfl, -⟩ := h
      exact List.mem_append_right _ List.mem_cons_self

theorem Held.eq_nil (h : Held T p i t) (hi : i = T.sentinel) : t = .nil := by
  cases t with
  | nil => rfl
  | node c l a r =>
      obtain ⟨rfl, ha, -⟩ := h
      exact absurd hi ha

/-- The same tree is met from the same link. -/
theorem Held.link_eq (h : Held T p i t) (h' : Held T' q j t) (hs : T'.sentinel = T.sentinel) :
    j = i := by
  cases t with
  | nil => exact (h'.trans hs).trans h.symm
  | node c l a r => exact h'.1.trans h.1.symm

/-- A link that is not the sentinel leads to a node. -/
theorem Held.eq_join (h : Held T p i t) (hi : i ≠ T.sentinel) (s : Side) :
    ∃ c near far, t = join s c near i far := by
  cases t with
  | nil => exact absurd h hi
  | node c l a r =>
      obtain ⟨rfl, -⟩ := h
      exact ⟨c, _, _, node_eq_join s c l i r⟩

/-- The colour that is read from a link. -/
theorem Held.colorOf_eq (h : Held T p i t) (hs : T.colorOf T.sentinel = .black) :
    T.colorOf i = t.color := by
  cases t with
  | nil =>
      obtain rfl : i = T.sentinel := h
      exact hs
  | node c l a r =>
      obtain ⟨rfl, -, -, hc, -⟩ := h
      exact hc

/-- A tree is not broken by stores to other nodes. -/
theorem Held.congr (h : Held T p i t) (hs : T'.sentinel = T.sentinel)
    (hsame : ∀ a ∈ t.labels, Same T T' a) : Held T' p i t := by
  induction t generalizing p i with
  | nil => exact h.trans hs.symm
  | node c l a r ihl ihr =>
      obtain ⟨hi, ha, hp, hc, hl, hr⟩ := h
      have hat := hsame a (List.mem_append_right _ List.mem_cons_self)
      refine ⟨hi, hs ▸ ha, hat.parent.trans hp, hat.colorOf.trans hc, ?_, ?_⟩
      · have hleft : T'.left a = T.left a := hat.child .left
        rw [hleft]
        exact ihl hl fun b hb => hsame b (List.mem_append_left _ hb)
      · have hright : T'.right a = T.right a := hat.child .right
        rw [hright]
        exact ihr hr fun b hb => hsame b (List.mem_append_right _ (List.mem_cons_of_mem a hb))

/-- A tree is hung below another node by a store to its root. -/
theorem Held.reparent (h : Held T p i t) (hnodup : t.labels.Nodup) (hs : T'.sentinel = T.sentinel)
    (hroot : i ≠ T.sentinel → T'.parent i = q)
    (hsame : ∀ a ∈ t.labels, a ≠ i → Same T T' a)
    (hkids : i ≠ T.sentinel → T'.colorOf i = T.colorOf i ∧ ∀ s, T'.child s i = T.child s i) :
    Held T' q i t := by
  cases t with
  | nil => exact h.trans hs.symm
  | node c l a r =>
      obtain ⟨rfl, ha, -, hc, hl, hr⟩ := h
      rw [labels, List.nodup_append'] at hnodup
      obtain ⟨-, hright, hdisj⟩ := hnodup
      rw [List.nodup_cons] at hright
      rw [List.disjoint_cons_right] at hdisj
      obtain ⟨hcolor, hchild⟩ := hkids ha
      refine ⟨rfl, hs ▸ ha, hroot ha, hcolor.trans hc, ?_, ?_⟩
      · have hleft : T'.left i = T.left i := hchild .left
        rw [hleft]
        refine hl.congr hs fun b hb => hsame b (List.mem_append_left _ hb) ?_
        exact ne_of_mem_of_not_mem hb hdisj.1
      · have hright' : T'.right i = T.right i := hchild .right
        rw [hright']
        refine hr.congr hs fun b hb => ?_
        exact hsame b (List.mem_append_right _ (List.mem_cons_of_mem i hb))
          (ne_of_mem_of_not_mem hb hright.1)

/-- A path is not broken by stores to other nodes, where the last link leads to another node. -/
theorem Above.congr (h : Above T p i up) (hs : T'.sentinel = T.sentinel)
    (hsame : ∀ a ∈ spine up, T'.parent a = T.parent a ∧ T'.colorOf a = T.colorOf a)
    (htop : T'.root = if up = [] then j else T.root)
    (hchild : ∀ a ∈ spine up, ∀ s, T'.child s a =
      if ∃ f ∈ up.head?, a = f.label ∧ s = f.side then j else T.child s a)
    (hnodup : (spine up).Nodup) : Above T' p j up := by
  induction up generalizing p i j with
  | nil =>
      rw [if_pos rfl] at htop
      exact htop
  | cons f up ih =>
      obtain ⟨hp, hnull, hcolor, -, hsib, hup⟩ := h
      rw [if_neg (List.cons_ne_nil f up)] at htop
      rw [spine_cons, List.nodup_append', List.nodup_cons] at hnodup
      obtain ⟨⟨hlabel, -⟩, hrest, hdisj⟩ := hnodup
      rw [List.disjoint_cons_left] at hdisj
      have hmem : p ∈ spine (f :: up) := hp ▸ List.mem_cons_self
      obtain ⟨hparent, hcolor'⟩ := hsame p hmem
      -- the children of other nodes of the path are the same
      have hother : ∀ a ∈ spine (f :: up), ∀ s, ¬ (a = f.label ∧ s = f.side) →
          T'.child s a = T.child s a := by
        intro a ha s hne
        rw [hchild a ha s, if_neg]
        intro hex
        obtain ⟨g, hg, hag⟩ := hex
        obtain rfl : f = g := by simpa using hg
        exact hne hag
      refine ⟨hp, hs ▸ hnull, hcolor'.trans hcolor, ?_, ?_, ?_⟩
      · rw [hchild p hmem f.side, if_pos ⟨f, by simp, hp, rfl⟩]
      · rw [hother p hmem f.side.other fun hside => Side.other_ne f.side hside.2]
        refine hsib.congr hs fun a ha => ?_
        have ha' : a ∈ spine (f :: up) := List.mem_append_left _ (List.mem_cons_of_mem _ ha)
        refine ⟨(hsame a ha').1, (hsame a ha').2, fun s => hother a ha' s fun hside => ?_⟩
        exact ne_of_mem_of_not_mem ha hlabel hside.1
      · rw [hparent]
        have hin : ∀ a ∈ spine up, a ∈ spine (f :: up) := fun a ha => List.mem_append_right _ ha
        refine ih hup (fun a ha => hsame a (hin a ha)) ?_ (fun a ha s => ?_) hrest
        · cases up with
          | nil =>
              rw [if_pos rfl, htop]
              exact hup
          | cons g up => rw [if_neg (List.cons_ne_nil g up), htop]
        · rw [hother a (hin a ha) s fun hside => ?_]
          · split
            case isTrue hex =>
              obtain ⟨g, hg, rfl, rfl⟩ := hex
              cases up with
              | nil => exact absurd hg (by simp)
              | cons g' up =>
                  obtain rfl : g' = g := by simpa using hg
                  obtain ⟨hpg, -, -, hlink, -⟩ := hup
                  rw [← hpg]
                  exact hlink
            case isFalse => rfl
          · exact ne_of_mem_of_not_mem ha hdisj.1 hside.1

theorem Above.ne_sentinel (h : Above T p i up) {a : Nat} (ha : a ∈ spine up) : a ≠ T.sentinel := by
  induction up generalizing p i with
  | nil => exact absurd ha List.not_mem_nil
  | cons f up ih =>
      obtain ⟨hp, hnull, -, -, hsib, hup⟩ := h
      rcases List.mem_append.mp ha with ha | ha
      · rcases List.mem_cons.mp ha with rfl | ha
        · exact hp ▸ hnull
        · exact hsib.ne_sentinel ha
      · exact ih hup ha

/-- The root is the last node of the path. -/
theorem Above.root_mem {f : Frame Nat} (h : Above T p i (f :: up)) : T.root ∈ spine (f :: up) := by
  induction up generalizing p i f with
  | nil =>
      obtain ⟨hp, -, -, -, -, htop⟩ := h
      have hroot : T.root = f.label := htop.trans hp
      rw [hroot]
      exact List.mem_cons_self
  | cons g up ih => exact List.mem_append_right _ (ih h.2.2.2.2.2)

/-- Whether one is at the top. -/
theorem Above.eq_root_iff (h : Above T p i up) (hi : i ∉ spine up) : i = T.root ↔ up = [] := by
  cases up with
  | nil => exact iff_of_true h.symm rfl
  | cons f up =>
      exact iff_of_false (fun heq => hi (heq ▸ h.root_mem)) (List.cons_ne_nil f up)

/-- On which side of its parent a node hangs. -/
theorem Above.side_iff {f : Frame Nat} (h : Above T p i (f :: up))
    (hne : T.child f.side.other p ≠ i) (s : Side) : i = T.child s p ↔ s = f.side := by
  rcases Side.eq_or f.side s with rfl | rfl
  · exact iff_of_true h.2.2.2.1.symm rfl
  · exact iff_of_false (fun heq => hne heq.symm) (Side.other_ne f.side)

/-- A node of the tree is not on the other side of the parent. -/
theorem Above.other_ne {f : Frame Nat} (h : Above T p i (f :: up)) (hi : i ≠ T.sentinel)
    (hfree : i ∉ spine (f :: up)) : T.child f.side.other p ≠ i := by
  intro heq
  have hmem := h.2.2.2.2.1.mem (heq ▸ hi)
  rw [heq] at hmem
  exact hfree (List.mem_append_left _ (List.mem_cons_of_mem _ hmem))

namespace Focus

theorem ne_sentinel (h : Focus T up p i t) {a : Nat} (ha : a ∈ t.labels ++ spine up) :
    a ≠ T.sentinel := by
  rcases List.mem_append.mp ha with ha | ha
  · exact h.held.ne_sentinel ha
  · exact h.above.ne_sentinel ha

theorem tree_nodup (h : Focus T up p i t) : t.labels.Nodup := (List.nodup_append'.mp h.nodup).1

theorem spine_nodup (h : Focus T up p i t) : (spine up).Nodup := (List.nodup_append'.mp h.nodup).2.1

/-- What is in the tree is not on the path. -/
theorem apart (h : Focus T up p i t) {a b : Nat} (ha : a ∈ t.labels) (hb : b ∈ spine up) : a ≠ b :=
  fun heq => (List.nodup_append'.mp h.nodup).2.2 ha (heq ▸ hb)

/-- One node further up. -/
theorem ascend {f : Frame Nat} (h : Focus T (f :: up) p i t) :
    Focus T up (T.parent p) p (f.fill t) := by
  obtain ⟨hp, hnull, hcolor, hlink, hsib, hup⟩ := h.above
  refine ⟨held_join.mpr ⟨hp, hp ▸ hnull, hp ▸ rfl, hp ▸ hcolor, ?_, ?_⟩, hup, ?_⟩
  · rw [← hp, hlink]
    exact h.held
  · rw [← hp]
    exact hsib
  · refine ((fill_labels_perm f t).append_right (spine up)).nodup_iff.mpr ?_
    have hnodup := h.nodup
    rw [spine_cons, ← List.append_assoc] at hnodup
    exact hnodup

/-- One node further down. -/
theorem descend {f : Frame Nat} (h : Focus T up p i (f.fill t)) :
    Focus T (f :: up) i (T.child f.side i) t := by
  obtain ⟨rfl, hnull, hp, hcolor, hnear, hfar⟩ := held_join.mp h.held
  refine ⟨hnear, ⟨rfl, hnull, hcolor, rfl, hfar, hp ▸ h.above⟩, ?_⟩
  rw [spine_cons, ← List.append_assoc]
  exact ((fill_labels_perm f t).append_right (spine up)).nodup_iff.mp h.nodup

/-- Up to the top. -/
theorem top (h : Focus T up p i t) : ∃ q, Focus T [] q T.root (fill t up) := by
  induction up generalizing p i t with
  | nil =>
      obtain rfl : T.root = i := h.above
      exact ⟨p, h⟩
  | cons f up ih => exact ih h.ascend

theorem free (h : Focus T up p i t) (hi : i ≠ T.sentinel) : i ∉ spine up :=
  fun hmem => h.apart (h.held.mem hi) hmem rfl

theorem eq_root_iff (h : Focus T up p i t) (hi : i ≠ T.sentinel) : i = T.root ↔ up = [] :=
  h.above.eq_root_iff (h.free hi)

theorem side_eq {f : Frame Nat} (h : Focus T (f :: up) p i t)
    (hne : i = T.sentinel → T.child f.side.other p ≠ i) (s : Side) :
    i = T.child s p ↔ s = f.side := by
  refine h.above.side_iff ?_ s
  by_cases hi : i = T.sentinel
  · exact hne hi
  · exact h.above.other_ne hi (h.free hi)

/-- The tree at the place is changed, and nothing on the path but the link that leads to it. -/
theorem change (h : Focus T up p i t) (hheld : Held T' p j t')
    (hlabels : t'.labels.Perm t.labels) (hs : T'.sentinel = T.sentinel)
    (hsame : ∀ a ∈ spine up, T'.parent a = T.parent a ∧ T'.colorOf a = T.colorOf a)
    (htop : T'.root = if up = [] then j else T.root)
    (hchild : ∀ a ∈ spine up, ∀ s, T'.child s a =
      if ∃ f ∈ up.head?, a = f.label ∧ s = f.side then j else T.child s a) :
    Focus T' up p j t' :=
  ⟨hheld, h.above.congr hs hsame htop hchild h.spine_nodup,
    (hlabels.append_right (spine up)).nodup_iff.mpr h.nodup⟩

/-- Only the inner nodes of the place are changed. -/
theorem change_inner (h : Focus T up p i t) (hheld : Held T' p i t')
    (hlabels : t'.labels.Perm t.labels) (hs : T'.sentinel = T.sentinel) (htop : T'.root = T.root)
    (hsame : ∀ a ∈ spine up, Same T T' a) : Focus T' up p i t' := by
  refine h.change hheld hlabels hs (fun a ha => ⟨(hsame a ha).parent, (hsame a ha).colorOf⟩) ?_ ?_
  · rw [htop]
    split
    case isTrue hnil =>
      subst hnil
      exact h.above
    case isFalse => rfl
  · intro a ha s
    rw [(hsame a ha).child s]
    split
    case isTrue hex =>
      obtain ⟨f, hf, rfl, rfl⟩ := hex
      cases up with
      | nil => exact absurd hf (by simp)
      | cons g up =>
          obtain rfl : g = f := by simpa using hf
          obtain ⟨hp, -, -, hlink, -⟩ := h.above
          exact hp ▸ hlink
    case isFalse => rfl

/-- Across to the other side of the parent. -/
theorem cross {f : Frame Nat} (h : Focus T (f :: up) p i t) :
    Focus T (⟨f.side.other, f.color, f.label, t⟩ :: up) p (T.child f.side.other p) f.sib := by
  obtain ⟨hp, hnull, hcolor, hlink, hsib, hup⟩ := h.above
  refine ⟨hsib, ⟨hp, hnull, hcolor, rfl, ?_, hup⟩, ?_⟩
  · rw [Side.other_other, hlink]
    exact h.held
  · refine (List.Perm.nodup_iff ?_).mp h.nodup
    rw [spine_cons, spine_cons, ← List.append_assoc, ← List.append_assoc]
    refine List.Perm.append_right (spine up) ?_
    have hswap : (t.labels ++ f.sib.labels).Perm (f.sib.labels ++ t.labels) := List.perm_append_comm
    exact List.perm_middle.trans ((hswap.cons f.label).trans List.perm_middle.symm)

/-- The node at the place gets a colour. -/
theorem recolor {s : Side} {c c' : Color} {near far : Coloured Nat}
    (h : Focus T up p i (join s c near i far)) (hr : Recolours T T' i c') :
    Focus T' up p i (join s c' near i far) := by
  obtain ⟨-, hi, hp, -, hnear, hfar⟩ := held_join.mp h.held
  have hsame : ∀ a, a ≠ i → Same T T' a := fun a hne =>
    ⟨hr.parent a, by rw [hr.colorOf, if_neg hne], fun s => hr.child s a⟩
  have hperm := labels_join_perm s c near i far
  have hnodup := hperm.nodup_iff.mp h.tree_nodup
  rw [List.nodup_cons] at hnodup
  refine h.change_inner (held_join.mpr ⟨rfl, hr.sentinel ▸ hi, (hr.parent i).trans hp, ?_, ?_, ?_⟩)
    ?_ hr.sentinel hr.root fun a ha => hsame a fun heq => ?_
  · rw [hr.colorOf, if_pos rfl]
  · rw [hr.child]
    refine hnear.congr hr.sentinel fun a ha => hsame a fun heq => ?_
    exact hnodup.1 (heq ▸ List.mem_append_left _ ha)
  · rw [hr.child]
    refine hfar.congr hr.sentinel fun a ha => hsame a fun heq => ?_
    exact hnodup.1 (heq ▸ List.mem_append_right _ ha)
  · exact (labels_join_perm s c' near i far).trans hperm.symm
  · have hmem : i ∈ (join s c near i far).labels := mem_labels_join.mpr (.inl rfl)
    exact h.apart hmem ha heq.symm

/-- The sentinel may get any colour. -/
theorem recolor_sentinel {c : Color} (h : Focus T up p i t) (hr : Recolours T T' T.sentinel c) :
    Focus T' up p i t := by
  have hsame : ∀ a ∈ t.labels ++ spine up, Same T T' a := fun a ha =>
    ⟨hr.parent a, by rw [hr.colorOf, if_neg (h.ne_sentinel ha)], fun s => hr.child s a⟩
  exact h.change_inner (h.held.congr hr.sentinel fun a ha => hsame a (List.mem_append_left _ ha))
    (List.Perm.refl _) hr.sentinel hr.root fun a ha => hsame a (List.mem_append_right _ ha)

/-- The node at the place becomes black, if there is one. -/
theorem blacken (h : Focus T up p i t) : Focus (T.black i) up p i t.blacken := by
  by_cases hi : i = T.sentinel
  · obtain rfl := h.held.eq_nil hi
    subst hi
    exact h.recolor_sentinel (recolours_black T T.sentinel)
  · obtain ⟨c, near, far, rfl⟩ := h.held.eq_join hi .left
    rw [blacken_join]
    exact h.recolor (recolours_black T i)

end Focus

/-- What no operation changes: where the sentinel is, that it is black, and the keys. -/
structure Kept (T T' : NgxRbtree) : Prop where
  sentinel : T'.sentinel = T.sentinel
  dark : T.colorOf T.sentinel = .black → T'.colorOf T'.sentinel = .black
  key : ∀ a, T'.key a = T.key a

theorem kept_refl (T : NgxRbtree) : Kept T T := ⟨rfl, id, fun _ => rfl⟩

theorem Kept.trans {T'' : NgxRbtree} (h : Kept T T') (h' : Kept T' T'') : Kept T T'' :=
  ⟨h'.sentinel.trans h.sentinel, fun hs => h'.dark (h.dark hs),
    fun a => (h'.key a).trans (h.key a)⟩

theorem Recolours.kept {a : Nat} {c : Color} (h : Recolours T T' a c)
    (hc : a = T.sentinel → c = .black) : Kept T T' := by
  refine ⟨h.sentinel, fun hs => ?_, h.key⟩
  rw [h.sentinel, h.colorOf]
  split
  case isTrue heq => exact hc heq.symm
  case isFalse => exact hs

/-- The tree in memory is `t`: it is linked as `t` is and balanced, and its sentinel is black. -/
structure Holds (T : NgxRbtree) (t : Coloured Nat) : Prop where
  focus : ∃ p, Focus T [] p T.root t
  dark : T.colorOf T.sentinel = .black
  balanced : ∃ n, Balanced t .black n

/-- An empty tree. -/
theorem Holds.root_eq_iff (h : Holds T t) : T.root = T.sentinel ↔ t = .nil := by
  obtain ⟨p, hfocus⟩ := h.focus
  constructor
  · exact hfocus.held.eq_nil
  · intro ht
    subst ht
    exact hfocus.held

end CppTrack.Ngx
