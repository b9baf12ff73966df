import CppTrack.Lib.LinkedTree
import Mathlib.Logic.Function.Basic

/-!
# The red-black tree (`rbtree.c`)

A node is given by its address. The sentinel `nil` is a node as well; it stands where another
program would have `NULL`, at the leaves and above the root. `rbtree_insert` leaves the tree as
it is after the new node has been hung in, without any repair of the colours.
-/

namespace CppTrack.RbTree

open Lib

def RED : UInt8 := 0
def BLACK : UInt8 := 1

/-- `rbtree_node`. -/
structure RbtreeNode where
  color : UInt8
  parent : Nat
  left : Nat
  right : Nat
  key : Int
  deriving DecidableEq

/-- `rbtree`, and the nodes in memory. -/
structure Rbtree where
  root : Nat
  nil : Nat
  nodes : Nat → RbtreeNode

namespace Rbtree

variable (T : Rbtree) (a v : Nat)

def parent : Nat := (T.nodes a).parent
def left : Nat := (T.nodes a).left
def right : Nat := (T.nodes a).right
def key : Int := (T.nodes a).key

def setRoot : Rbtree := { T with root := v }

def setParent : Rbtree :=
  { T with nodes := Function.update T.nodes a { T.nodes a with parent := v } }

def setLeft : Rbtree :=
  { T with nodes := Function.update T.nodes a { T.nodes a with left := v } }

def setRight : Rbtree :=
  { T with nodes := Function.update T.nodes a { T.nodes a with right := v } }

def setColor (c : UInt8) : Rbtree :=
  { T with nodes := Function.update T.nodes a { T.nodes a with color := c } }

end Rbtree

/-- The second and the third part of both rotations, which have the same text: `y` is hung where
`x` is, and `x` is hung left of `y`. -/
def relink (T : Rbtree) (x y : Nat) : Rbtree :=
  let T := T.setParent y (T.parent x)
  let T :=
    if T.parent x = T.nil then T.setRoot y
    else if x = T.left (T.parent x) then T.setLeft (T.parent x) y
    else T.setRight (T.parent x) y
  let T := T.setLeft y x
  T.setParent x y

/-- `rbtree_left_rotate`. -/
def rbtreeLeftRotate (T : Rbtree) (x : Nat) : Rbtree :=
  if x = T.nil then T
  else
    let y := T.right x
    let T := T.setRight x (T.left y)
    let T := if T.left y ≠ T.nil then T.setParent (T.left y) x else T
    relink T x y

/-- `rbtree_right_rotate`. Only its first part is the mirror image of `rbtree_left_rotate`. -/
def rbtreeRightRotate (T : Rbtree) (y : Nat) : Rbtree :=
  if y = T.nil then T
  else
    let x := T.left y
    let T := T.setLeft y (T.right x)
    let T := if T.left y ≠ T.nil then T.setParent (T.left y) x else T
    relink T x y

/-- The loop of `rbtree_insert`, for a node with this key; it ends with `y`. Where the key is
found the loop has an empty branch, and `x` stays where it is. -/
def insertLoop (T : Rbtree) (key : Int) : Nat → Nat → Nat → Option Nat
  | 0, _, _ => none
  | fuel + 1, y, x =>
      if x ≠ T.nil then
        let y := x
        if key < T.key x then insertLoop T key fuel y (T.left x)
        else if key > T.key x then insertLoop T key fuel y (T.right x)
        else insertLoop T key fuel y x
      else some y

/-- What `rbtree_insert` does once it knows the parent `y`. -/
def attach (T : Rbtree) (z y : Nat) : Rbtree :=
  let T := T.setParent z y
  let T :=
    if y = T.nil then T.setRoot z
    else if T.key z < T.key y then T.setLeft y z
    else T.setRight y z
  let T := T.setColor z RED
  let T := T.setLeft z T.nil
  T.setRight z T.nil

/-- `rbtree_insert`. -/
def rbtreeInsert (fuel : Nat) (T : Rbtree) (z : Nat) : Option Rbtree :=
  (insertLoop T (T.key z) fuel T.nil T.root).map (attach T z)

/-- `rbtree_search`, from the node `current`. -/
def searchLoop (T : Rbtree) (key : Int) : Nat → Nat → Option Nat
  | 0, _ => none
  | fuel + 1, current =>
      if current ≠ T.nil ∧ T.key current ≠ key then
        if key < T.key current then searchLoop T key fuel (T.left current)
        else searchLoop T key fuel (T.right current)
      else some current

/-- `rbtree_search`. -/
def rbtreeSearch (fuel : Nat) (T : Rbtree) (key : Int) : Option Nat :=
  searchLoop T key fuel T.root

/-! ## Well-linked trees -/

namespace Rbtree

variable (T : Rbtree)

def links : TreeLinks Nat := ⟨T.parent, T.left, T.right⟩

/-- The links of `T` are those of the tree `t`, between every node and its parent and children;
the sentinel is at the leaves and above the root. -/
structure WellLinked (t : BinaryTree Nat) : Prop where
  linked : Linked T.links T.nil T.nil T.root t
  nodup : (inorder t).Nodup

/-- The keys from left to right. -/
def keys (t : BinaryTree Nat) : List Int := (inorder t).map T.key

/-- A binary search tree. -/
def SearchTree (t : BinaryTree Nat) : Prop := (T.keys t).Pairwise (· < ·)

/-! What is read back after a store. -/

variable (a v b : Nat) (c : UInt8)

@[simp, grind =] theorem setRoot_root : (T.setRoot v).root = v := rfl
@[simp, grind =] theorem setRoot_nil : (T.setRoot v).nil = T.nil := rfl
@[simp, grind =] theorem setRoot_parent : (T.setRoot v).parent b = T.parent b := rfl
@[simp, grind =] theorem setRoot_left : (T.setRoot v).left b = T.left b := rfl
@[simp, grind =] theorem setRoot_right : (T.setRoot v).right b = T.right b := rfl
@[simp, grind =] theorem setRoot_key : (T.setRoot v).key b = T.key b := rfl

@[simp, grind =] theorem setParent_root : (T.setParent a v).root = T.root := rfl
@[simp, grind =] theorem setParent_nil : (T.setParent a v).nil = T.nil := rfl
@[simp, grind =] theorem setLeft_root : (T.setLeft a v).root = T.root := rfl
@[simp, grind =] theorem setLeft_nil : (T.setLeft a v).nil = T.nil := rfl
@[simp, grind =] theorem setRight_root : (T.setRight a v).root = T.root := rfl
@[simp, grind =] theorem setRight_nil : (T.setRight a v).nil = T.nil := rfl
@[simp, grind =] theorem setColor_root : (T.setColor a c).root = T.root := rfl
@[simp, grind =] theorem setColor_nil : (T.setColor a c).nil = T.nil := rfl

/-- A store to a node, seen through a field. -/
theorem update_field {α : Type} (f : RbtreeNode → α) (n : RbtreeNode) :
    f (Function.update T.nodes a n b) = if b = a then f n else f (T.nodes b) := by
  rw [Function.update_apply]
  exact apply_ite f (b = a) n (T.nodes b)

@[simp, grind =] theorem setParent_parent :
    (T.setParent a v).parent b = if b = a then v else T.parent b :=
  T.update_field a b RbtreeNode.parent _

@[simp, grind =] theorem setLeft_left : (T.setLeft a v).left b = if b = a then v else T.left b :=
  T.update_field a b RbtreeNode.left _

@[simp, grind =] theorem setRight_right :
    (T.setRight a v).right b = if b = a then v else T.right b :=
  T.update_field a b RbtreeNode.right _

/-- A field that a store does not name. -/
theorem update_other {α : Type} (f : RbtreeNode → α) (n : RbtreeNode)
    (h : f n = f (T.nodes a)) : f (Function.update T.nodes a n b) = f (T.nodes b) := by
  rw [T.update_field a b f n]
  split_ifs with hba
  · rw [h, hba]
  · rfl

@[simp, grind =] theorem setParent_left : (T.setParent a v).left b = T.left b :=
  T.update_other a b RbtreeNode.left _ rfl
@[simp, grind =] theorem setParent_right : (T.setParent a v).right b = T.right b :=
  T.update_other a b RbtreeNode.right _ rfl
@[simp, grind =] theorem setParent_key : (T.setParent a v).key b = T.key b :=
  T.update_other a b RbtreeNode.key _ rfl
@[simp, grind =] theorem setLeft_parent : (T.setLeft a v).parent b = T.parent b :=
  T.update_other a b RbtreeNode.parent _ rfl
@[simp, grind =] theorem setLeft_right : (T.setLeft a v).right b = T.right b :=
  T.update_other a b RbtreeNode.right _ rfl
@[simp, grind =] theorem setLeft_key : (T.setLeft a v).key b = T.key b :=
  T.update_other a b RbtreeNode.key _ rfl
@[simp, grind =] theorem setRight_parent : (T.setRight a v).parent b = T.parent b :=
  T.update_other a b RbtreeNode.parent _ rfl
@[simp, grind =] theorem setRight_left : (T.setRight a v).left b = T.left b :=
  T.update_other a b RbtreeNode.left _ rfl
@[simp, grind =] theorem setRight_key : (T.setRight a v).key b = T.key b :=
  T.update_other a b RbtreeNode.key _ rfl
@[simp, grind =] theorem setColor_parent : (T.setColor a c).parent b = T.parent b :=
  T.update_other a b RbtreeNode.parent _ rfl
@[simp, grind =] theorem setColor_left : (T.setColor a c).left b = T.left b :=
  T.update_other a b RbtreeNode.left _ rfl
@[simp, grind =] theorem setColor_right : (T.setColor a c).right b = T.right b :=
  T.update_other a b RbtreeNode.right _ rfl
@[simp, grind =] theorem setColor_key : (T.setColor a c).key b = T.key b :=
  T.update_other a b RbtreeNode.key _ rfl

end Rbtree

end CppTrack.RbTree
