import CppTrack.Storage.RbTree

/-!
# Rotations

`rbtree_left_rotate` does what a rotation to the left is for, wherever in a well-linked tree it is
made. `rbtree_right_rotate` never does its part: it hangs the node that it is called for below
itself, and nothing is left of the tree above. So it does not undo a rotation to the left either.
-/

namespace CppTrack.RbTree

open Lib

variable {T : Rbtree} {t : BinaryTree Nat} {x : Nat}

/-! ## What both rotations share -/

section

variable (T x) (y b : Nat)

@[simp, grind =] theorem relink_nil : (relink T x y).nil = T.nil := by
  unfold relink
  dsimp only
  split_ifs <;> rfl

@[simp, grind =] theorem relink_key : (relink T x y).key b = T.key b := by
  unfold relink
  dsimp only
  split_ifs <;> simp

theorem relink_root : (relink T x y).root = if T.parent x = T.nil then y else T.root := by
  unfold relink
  simp only [Rbtree.setParent_parent, Rbtree.setParent_nil, ite_self, Rbtree.setParent_left]
  split_ifs <;> rfl

theorem relink_parent : (relink T x y).parent b =
    if b = x then y else if b = y then T.parent x else T.parent b := by
  unfold relink
  simp only [Rbtree.setParent_parent, Rbtree.setParent_nil, ite_self, Rbtree.setParent_left]
  split_ifs <;> grind

theorem relink_left : (relink T x y).left b =
    if b = y then x
    else if T.parent x ≠ T.nil ∧ x = T.left (T.parent x) ∧ b = T.parent x then y
    else T.left b := by
  unfold relink
  simp only [Rbtree.setParent_parent, Rbtree.setParent_nil, ite_self, Rbtree.setParent_left]
  split_ifs <;> grind

theorem relink_right : (relink T x y).right b =
    if T.parent x ≠ T.nil ∧ x ≠ T.left (T.parent x) ∧ b = T.parent x then y
    else T.right b := by
  unfold relink
  simp only [Rbtree.setParent_parent, Rbtree.setParent_nil, ite_self, Rbtree.setParent_left]
  split_ifs <;> grind

end

/-! ## To the left -/

/-- The first part of `rbtree_left_rotate`. -/
theorem rbtreeLeftRotate_eq (hx : x ≠ T.nil) :
    ∃ T', rbtreeLeftRotate T x = relink T' x (T.right x) ∧ T'.nil = T.nil ∧ T'.root = T.root ∧
      ∀ b, T'.key b = T.key b ∧ T'.left b = T.left b ∧
        (T'.right b = if b = x then T.left (T.right x) else T.right b) ∧
        T'.parent b = if T.left (T.right x) ≠ T.nil ∧ b = T.left (T.right x) then x
          else T.parent b := by
  rw [rbtreeLeftRotate, if_neg hx]
  refine ⟨_, rfl, ?_⟩
  split_ifs <;> grind

theorem rbtreeLeftRotate_turnsLeft (h : Around T.links T.nil x) :
    TurnsLeft T.links (rbtreeLeftRotate T x).links T.nil x := by
  obtain ⟨T', hrotate, hnil, -, hfields⟩ := rbtreeLeftRotate_eq h.self_ne
  -- what is known of the place, in the fields of the nodes
  have hchild : T.right x ≠ x := h.child_ne
  have hmoved : T.left (T.right x) ≠ x := h.moved_ne
  have hmovedchild : T.left (T.right x) ≠ T.right x := h.moved_ne_child
  have hparent : T.parent x ≠ x := h.parent_ne
  have hparentchild : T.parent x ≠ T.right x := h.parent_ne_child
  have hside : T.parent x ≠ T.nil → (x ≠ T.left (T.parent x) ↔ T.right (T.parent x) = x) :=
    h.side
  have hp : T'.parent x = T.parent x := by
    rw [(hfields x).2.2.2, if_neg fun hc => hmoved hc.2.symm]
  rw [hrotate]
  constructor
  all_goals simp only [Rbtree.links, relink_left, relink_right, relink_parent, hnil, hp, hfields]
  all_goals grind

/-- The root after a rotation to the left. -/
theorem rbtreeLeftRotate_root (h : T.WellLinked t) (hx : x ∈ inorder t)
    (hright : T.right x ≠ T.nil) :
    (rbtreeLeftRotate T x).root = if T.root = x then T.right x else T.root := by
  have hplace := h.linked.around h.nodup hx hright
  obtain ⟨T', hrotate, hnil, hroot, hfields⟩ := rbtreeLeftRotate_eq hplace.self_ne
  have hp : T'.parent x = T.parent x := by
    rw [(hfields x).2.2.2, if_neg fun hc => hplace.moved_ne hc.2.symm]
  rw [hrotate, relink_root, hp, hnil, hroot]
  refine if_congr ?_ rfl rfl
  -- the sentinel is above the root and above no other node
  constructor
  · intro hnone
    rcases h.linked.child_of_parent hx with ⟨htop, -⟩ | ⟨hmem, -⟩
    · exact htop.symm
    · exact absurd hnone (h.linked.ne_null hmem)
  · intro htop
    obtain ⟨l, r, rfl⟩ := h.linked.eq_node (htop ▸ hplace.self_ne)
    exact htop ▸ h.linked.2.2.1

/-- **A rotation to the left** turns the tree to the left, and the links follow. -/
theorem Rbtree.WellLinked.leftRotate (h : T.WellLinked t) (hx : x ∈ inorder t)
    (hright : T.right x ≠ T.nil) : (rbtreeLeftRotate T x).WellLinked (turnLeft x t) := by
  have hplace := h.linked.around h.nodup hx hright
  have hturn := h.linked.turnsLeft (rbtreeLeftRotate_turnsLeft hplace) h.nodup hx hright
  constructor
  · obtain ⟨T', hrotate, hnil, -⟩ := rbtreeLeftRotate_eq hplace.self_ne
    rw [rbtreeLeftRotate_root h hx hright]
    rw [hrotate, relink_nil, hnil, ← hrotate]
    exact hturn
  · rw [inorder_turnLeft]
    exact h.nodup

theorem rbtreeLeftRotate_keys (hx : x ≠ T.nil) :
    (rbtreeLeftRotate T x).keys (turnLeft x t) = T.keys t := by
  obtain ⟨T', hrotate, -, -, hfields⟩ := rbtreeLeftRotate_eq hx
  rw [Rbtree.keys, Rbtree.keys, inorder_turnLeft, hrotate]
  refine List.map_congr_left fun a _ => ?_
  rw [relink_key, (hfields a).1]

/-! ## To the right -/

/-- The first part of `rbtree_right_rotate`. -/
theorem rbtreeRightRotate_eq {y : Nat} (hy : y ≠ T.nil) :
    ∃ T', rbtreeRightRotate T y = relink T' (T.left y) y ∧ T'.nil = T.nil ∧ T'.root = T.root ∧
      ∀ b, T'.right b = T.right b ∧
        (T'.left b = if b = y then T.right (T.left y) else T.left b) ∧
        T'.parent b = if T.right (T.left y) ≠ T.nil ∧ b = T.right (T.left y) then T.left y
          else T.parent b := by
  rw [rbtreeRightRotate, if_neg hy]
  refine ⟨_, rfl, ?_⟩
  split_ifs <;> grind

/-- `rbtree_right_rotate` looks for the place above `y` at the parent of `x`, which is `y`. So `y`
becomes a child of itself; apart from it no node gets other children, nor does the root change. -/
theorem rbtreeRightRotate_self {y : Nat} (h : T.WellLinked t) (hy : y ∈ inorder t)
    (hleft : T.left y ≠ T.nil) :
    (rbtreeRightRotate T y).right y = y ∧ (rbtreeRightRotate T y).root = T.root ∧
      (rbtreeRightRotate T y).nil = T.nil ∧ ∀ a, a ≠ y →
        (rbtreeRightRotate T y).left a = T.left a ∧
          (rbtreeRightRotate T y).right a = T.right a := by
  have hne : y ≠ T.nil := h.linked.ne_null hy
  obtain ⟨hx, hparent⟩ := h.linked.child hy (Or.inl rfl) hleft
  have hparent : T.parent (T.left y) = y := hparent
  have hloop : T.right (T.left y) ≠ T.left y := by
    intro he
    exact (h.linked.around h.nodup hx (he.trans_ne hleft)).child_ne he
  obtain ⟨T', hrotate, hnil, hroot, hfields⟩ := rbtreeRightRotate_eq hne
  -- so the second part works on the links of `y` itself
  have hp : T'.parent (T.left y) = y := by
    rw [(hfields _).2.2, if_neg fun hc => hloop hc.2.symm, hparent]
  rw [hrotate]
  refine ⟨?_, ?_, ?_, fun a ha => ?_⟩
  · rw [relink_right, hp, hnil, (hfields y).2.1, if_pos rfl, if_pos ⟨hne, hloop.symm, rfl⟩]
  · rw [relink_root, hp, hnil, if_neg hne, hroot]
  · rw [relink_nil, hnil]
  · rw [relink_left, relink_right, hp, if_neg ha, if_neg fun hc => ha hc.2.2,
      if_neg fun hc => ha hc.2.2, (hfields a).1, (hfields a).2.1, if_neg ha]
    exact ⟨rfl, rfl⟩

/-- **A rotation to the right** leaves no tree. -/
theorem rbtreeRightRotate_not_wellLinked {y : Nat} (h : T.WellLinked t) (hy : y ∈ inorder t)
    (hleft : T.left y ≠ T.nil) (t' : BinaryTree Nat) :
    ¬ (rbtreeRightRotate T y).WellLinked t' := by
  obtain ⟨hself, hroot, hnil, hsame⟩ := rbtreeRightRotate_self h hy hleft
  intro h'
  have hlinked := h'.linked
  rw [hroot] at hlinked
  rw [hnil] at hlinked
  -- `y` is still in the tree, and below itself
  have hy' := h.linked.still_reached hlinked hy hsame
  have hne : (rbtreeRightRotate T y).right y ≠ (rbtreeRightRotate T y).nil := by
    rw [hself, hnil]
    exact h.linked.ne_null hy
  exact (h'.linked.around h'.nodup hy' hne).child_ne hself

/-! ## The rotations as order-preserving inverses -/

/-- A rotation to the left, one to the right, and one to the left that is taken back. -/
inductive Rotation
  | left
  | right
  | leftThenRight
  deriving DecidableEq

namespace Rotation

/-- The child that must be there. -/
def child : Rotation → Rbtree → Nat → Nat
  | left, T, x => T.right x
  | right, T, y => T.left y
  | leftThenRight, T, x => T.right x

def apply : Rotation → Rbtree → Nat → Rbtree
  | left, T, x => rbtreeLeftRotate T x
  | right, T, y => rbtreeRightRotate T y
  | leftThenRight, T, x => rbtreeRightRotate (rbtreeLeftRotate T x) (T.right x)

/-- There is a tree again, with the keys in the same order; after a rotation that is taken back
it is the tree from before. -/
def Correct (ρ : Rotation) (T : Rbtree) (t : BinaryTree Nat) (x : Nat) : Prop :=
  ∃ t', (ρ.apply T x).WellLinked t' ∧ (ρ.apply T x).keys t' = T.keys t ∧
    (ρ = leftThenRight → t' = t)

end Rotation

/--
In every well-linked tree and at every node with the child that the rotation needs: a rotation
to the left is correct, and the other two operations are not. The order of the keys plays no part.
-/
theorem rotation_correct_iff (h : T.WellLinked t) (hx : x ∈ inorder t) (ρ : Rotation)
    (hchild : ρ.child T x ≠ T.nil) : ρ.Correct T t x ↔ ρ = .left := by
  have hne : x ≠ T.nil := h.linked.ne_null hx
  cases ρ with
  | left =>
      refine iff_of_true ⟨turnLeft x t, h.leftRotate hx hchild, ?_, ?_⟩ rfl
      · exact rbtreeLeftRotate_keys hne
      · intro hback
        cases hback
  | right =>
      refine iff_of_false ?_ (by decide)
      rintro ⟨t', h', -⟩
      exact rbtreeRightRotate_not_wellLinked h hx hchild t' h'
  | leftThenRight =>
      refine iff_of_false ?_ (by decide)
      rintro ⟨t', h', -⟩
      -- after the rotation to the left `x` is the left child of the node that is rotated back
      have hplace := h.linked.around h.nodup hx hchild
      have hback : (rbtreeLeftRotate T x).left (T.right x) = x :=
        (rbtreeLeftRotate_turnsLeft hplace).left_child
      have hnil : (rbtreeLeftRotate T x).nil = T.nil := by
        obtain ⟨T', hrotate, hnil, -⟩ := rbtreeLeftRotate_eq hne
        rw [hrotate, relink_nil, hnil]
      refine rbtreeRightRotate_not_wellLinked (h.leftRotate hx hchild) ?_ ?_ t' h'
      · rw [inorder_turnLeft]
        exact (h.linked.child hx (Or.inr rfl) hchild).1
      · rw [hback, hnil]
        exact hne

/-- A tree with the keys 1, 2 and 3, whose root is at the address 2; the sentinel is at 0. -/
def three : Rbtree where
  root := 2
  nil := 0
  nodes
    | 1 => ⟨RED, 2, 0, 0, 1⟩
    | 2 => ⟨RED, 0, 1, 3, 2⟩
    | 3 => ⟨RED, 2, 0, 0, 3⟩
    | _ => ⟨BLACK, 0, 0, 0, 0⟩

def threeNodes : BinaryTree Nat := .node 2 (.node 1 .nil .nil) (.node 3 .nil .nil)

theorem three_wellLinked : three.WellLinked threeNodes where
  linked := ⟨rfl, by decide, rfl, ⟨rfl, by decide, rfl, rfl, rfl⟩, rfl, by decide, rfl, rfl, rfl⟩
  nodup := by decide

theorem rotation_correct_iff_three :
    Rotation.left.Correct three threeNodes 2 ↔ Rotation.left = .left :=
  rotation_correct_iff three_wellLinked (by decide) .left (by decide)

theorem not_rotation_correct : ¬ ∀ (T : Rbtree) (t : BinaryTree Nat) (x : Nat) (ρ : Rotation),
    T.WellLinked t → T.SearchTree t → x ∈ inorder t → ρ.child T x ≠ T.nil →
      ρ.Correct T t x := by
  intro hall
  have hsearch : three.SearchTree threeNodes := by
    show [1, 2, 3].Pairwise ((· < ·) : Int → Int → Prop)
    decide
  obtain ⟨t', h', -⟩ := hall three threeNodes 2 .right three_wellLinked hsearch (by decide)
    (by decide)
  exact rbtreeRightRotate_not_wellLinked three_wellLinked (by decide) (by decide) t' h'

end CppTrack.RbTree
