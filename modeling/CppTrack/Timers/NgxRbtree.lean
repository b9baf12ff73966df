import CppTrack.Lib.RedBlack
import Mathlib.Logic.Function.Basic

/-!
# The red-black tree of nginx (`rbtree.h`, `rbtree.c`)

A node is given by its address. Where a node has no child the address of the sentinel stands, which
is a node as well: its colour is read, and its parent is written and read while a deletion is
repaired. The two branches of each repair are mirror images, and so are the two rotations: they are
written once, for the side on which the node hangs.
-/

namespace CppTrack.Ngx

open Lib

/-- `NULL`. -/
def null : Nat := 0

/-- `ngx_rbtree_node_t`, less its `data`. -/
structure NgxRbtreeNode where
  key : BitVec 32
  left : Nat
  right : Nat
  parent : Nat
  color : UInt8
  deriving DecidableEq

/-- `ngx_rbtree_t`, less its `insert`, and the nodes in memory. -/
structure NgxRbtree where
  root : Nat
  sentinel : Nat
  nodes : Nat → NgxRbtreeNode

namespace NgxRbtree

variable (T : NgxRbtree) (a v : Nat)

def key : BitVec 32 := (T.nodes a).key
def left : Nat := (T.nodes a).left
def right : Nat := (T.nodes a).right
def parent : Nat := (T.nodes a).parent

/-- `->left` or `->right`. -/
def child : Side → Nat → Nat
  | .left, a => T.left a
  | .right, a => T.right a

/-- `ngx_rbt_is_red`. -/
def isRed : Bool := (T.nodes a).color ≠ 0

def setRoot : NgxRbtree := { T with root := v }

def setKey (k : BitVec 32) : NgxRbtree :=
  { T with nodes := Function.update T.nodes a { T.nodes a with key := k } }

def setLeft : NgxRbtree :=
  { T with nodes := Function.update T.nodes a { T.nodes a with left := v } }

def setRight : NgxRbtree :=
  { T with nodes := Function.update T.nodes a { T.nodes a with right := v } }

def setChild : Side → Nat → Nat → NgxRbtree
  | .left, a, v => T.setLeft a v
  | .right, a, v => T.setRight a v

def setParent : NgxRbtree :=
  { T with nodes := Function.update T.nodes a { T.nodes a with parent := v } }

def setColor (c : UInt8) : NgxRbtree :=
  { T with nodes := Function.update T.nodes a { T.nodes a with color := c } }

/-- `ngx_rbt_red`. -/
def red : NgxRbtree := T.setColor a 1

/-- `ngx_rbt_black`. -/
def black : NgxRbtree := T.setColor a 0

/-- `ngx_rbt_copy_color`. -/
def copyColor (n1 n2 : Nat) : NgxRbtree := T.setColor n1 (T.nodes n2).color

end NgxRbtree

/-- `ngx_rbtree_init`. -/
def ngxRbtreeInit (T : NgxRbtree) (s : Nat) : NgxRbtree :=
  { T.black s with root := s, sentinel := s }

/-- Both rotations; to the left the `side` is the left one. -/
def rotate (side : Side) (T : NgxRbtree) (node : Nat) : NgxRbtree :=
  let temp := T.child side.other node
  let T := T.setChild side.other node (T.child side temp)
  let T := if T.child side temp ≠ T.sentinel then T.setParent (T.child side temp) node else T
  let T := T.setParent temp (T.parent node)
  let T :=
    if node = T.root then T.setRoot temp
    else if node = T.child side (T.parent node) then T.setChild side (T.parent node) temp
    else T.setChild side.other (T.parent node) temp
  let T := T.setChild side temp node
  T.setParent node temp

/-- `ngx_rbtree_left_rotate`. -/
def ngxRbtreeLeftRotate : NgxRbtree → Nat → NgxRbtree := rotate .left

/-- `ngx_rbtree_right_rotate`. -/
def ngxRbtreeRightRotate : NgxRbtree → Nat → NgxRbtree := rotate .right

/-! ## Insertion -/

/-- The loop of both functions that hang a node in: where it ends, and on which side. -/
def insertPlace (before : BitVec 32 → BitVec 32 → Bool) (T : NgxRbtree) (node : Nat) :
    (fuel : Nat) → (temp : Nat) → Option (Nat × Side)
  | 0, _ => none
  | fuel + 1, temp =>
      let side : Side := if before (T.key node) (T.key temp) then .left else .right
      if T.child side temp = T.sentinel then some (temp, side)
      else insertPlace before T node fuel (T.child side temp)

/-- What both do there. -/
def hang (T : NgxRbtree) (node temp : Nat) (side : Side) : NgxRbtree :=
  let T := T.setChild side temp node
  let T := T.setParent node temp
  let T := T.setLeft node T.sentinel
  let T := T.setRight node T.sentinel
  T.red node

/-- `node->key < temp->key` -/
def keyBefore (k k' : BitVec 32) : Bool := k < k'

/-- `(ngx_rbtree_key_int_t) (node->key - temp->key) < 0` -/
def timerBefore (k k' : BitVec 32) : Bool := (k - k').toInt < 0

def insertValue (before : BitVec 32 → BitVec 32 → Bool) (fuel : Nat) (T : NgxRbtree)
    (temp node : Nat) : Option NgxRbtree :=
  (insertPlace before T node fuel temp).map fun p => hang T node p.1 p.2

/-- `ngx_rbtree_insert_value`. -/
def ngxRbtreeInsertValue : Nat → NgxRbtree → Nat → Nat → Option NgxRbtree := insertValue keyBefore

/-- `ngx_rbtree_insert_timer_value`. -/
def ngxRbtreeInsertTimerValue : Nat → NgxRbtree → Nat → Nat → Option NgxRbtree :=
  insertValue timerBefore

/-- A branch of the loop of `ngx_rbtree_insert`, where the parent of `node` hangs on `side`. -/
def insertTurn (side : Side) (T : NgxRbtree) (node : Nat) : NgxRbtree × Nat :=
  let temp := T.child side.other (T.parent (T.parent node))
  if T.isRed temp then
    let T := T.black (T.parent node)
    let T := T.black temp
    let T := T.red (T.parent (T.parent node))
    (T, T.parent (T.parent node))
  else
    let (T, node) :=
      if node = T.child side.other (T.parent node) then
        (rotate side T (T.parent node), T.parent node)
      else (T, node)
    let T := T.black (T.parent node)
    let T := T.red (T.parent (T.parent node))
    (rotate side.other T (T.parent (T.parent node)), node)

/-- `// re-balance tree` -/
def insertLoop : (fuel : Nat) → NgxRbtree → (node : Nat) → Option NgxRbtree
  | 0, _, _ => none
  | fuel + 1, T, node =>
      if node ≠ T.root ∧ T.isRed (T.parent node) then
        let side : Side :=
          if T.parent node = T.left (T.parent (T.parent node)) then .left else .right
        let (T, node) := insertTurn side T node
        insertLoop fuel T node
      else some T

/-- `ngx_rbtree_insert`, with the function that hangs the node in. -/
def ngxRbtreeInsert (insert : Nat → NgxRbtree → Nat → Nat → Option NgxRbtree) (fuel : Nat)
    (T : NgxRbtree) (node : Nat) : Option NgxRbtree :=
  if T.root = T.sentinel then
    let T := T.setParent node null
    let T := T.setLeft node T.sentinel
    let T := T.setRight node T.sentinel
    let T := T.black node
    some (T.setRoot node)
  else do
    let T ← insert fuel T T.root node
    let T ← insertLoop fuel T node
    return T.black T.root

/-! ## Deletion -/

/-- `ngx_rbtree_min`. -/
def ngxRbtreeMin (T : NgxRbtree) : (fuel : Nat) → (node : Nat) → Option Nat
  | 0, _ => none
  | fuel + 1, node =>
      if T.left node ≠ T.sentinel then ngxRbtreeMin T fuel (T.left node) else some node

/-- The node that is cut out, and the one that takes its place. -/
def substitute (fuel : Nat) (T : NgxRbtree) (node : Nat) : Option (Nat × Nat) :=
  if T.left node = T.sentinel then some (node, T.right node)
  else if T.right node = T.sentinel then some (node, T.left node)
  else do
    let subst ← ngxRbtreeMin T fuel (T.right node)
    return (subst, if T.left subst ≠ T.sentinel then T.left subst else T.right subst)

/-- The link from above that led to `node` leads to `subst`. -/
def relink (T : NgxRbtree) (node subst : Nat) : NgxRbtree :=
  if node = T.root then T.setRoot subst
  else if node = T.left (T.parent node) then T.setLeft (T.parent node) subst
  else T.setRight (T.parent node) subst

/-- The children of `subst` have it for their parent. -/
def adopt (T : NgxRbtree) (subst : Nat) : NgxRbtree :=
  let T := if T.left subst ≠ T.sentinel then T.setParent (T.left subst) subst else T
  if T.right subst ≠ T.sentinel then T.setParent (T.right subst) subst else T

/-- `subst` takes the place of `node`. -/
def replace (T : NgxRbtree) (node subst : Nat) : NgxRbtree :=
  let T := T.setLeft subst (T.left node)
  let T := T.setRight subst (T.right node)
  let T := T.setParent subst (T.parent node)
  let T := T.copyColor subst node
  adopt (relink T node subst) subst

/-- `/* DEBUG stuff */` -/
def wipe (T : NgxRbtree) (node : Nat) : NgxRbtree :=
  (((T.setLeft node null).setRight node null).setParent node null).setKey node 0

/-- The links around `subst` are changed, which is not the root. -/
def unlink (T : NgxRbtree) (node subst temp : Nat) : NgxRbtree :=
  let T :=
    if subst = T.left (T.parent subst) then T.setLeft (T.parent subst) temp
    else T.setRight (T.parent subst) temp
  let T :=
    if subst = node then T.setParent temp (T.parent subst)
    else
      let T :=
        if T.parent subst = node then T.setParent temp subst
        else T.setParent temp (T.parent subst)
      replace T node subst
  wipe T node

/-- How a branch of the loop of `ngx_rbtree_delete` begins, where `temp` hangs on `side`: a red
sibling is rotated up. The sibling that `temp` has then is black. -/
def darkSibling (side : Side) (T : NgxRbtree) (temp : Nat) : NgxRbtree × Nat :=
  let w := T.child side.other (T.parent temp)
  if T.isRed w then
    let T := T.black w
    let T := T.red (T.parent temp)
    let T := rotate side T (T.parent temp)
    (T, T.child side.other (T.parent temp))
  else (T, w)

/-- The rest of the branch, which goes by the colours of the children of the sibling `w`. -/
def settleTurn (side : Side) (T : NgxRbtree) (temp w : Nat) : NgxRbtree × Nat :=
  if ¬ T.isRed (T.left w) ∧ ¬ T.isRed (T.right w) then
    let T := T.red w
    (T, T.parent temp)
  else
    let (T, w) :=
      if ¬ T.isRed (T.child side.other w) then
        let T := T.black (T.child side w)
        let T := T.red w
        let T := rotate side.other T w
        (T, T.child side.other (T.parent temp))
      else (T, w)
    let T := T.copyColor w (T.parent temp)
    let T := T.black (T.parent temp)
    let T := T.black (T.child side.other w)
    let T := rotate side T (T.parent temp)
    (T, T.root)

def deleteTurn (side : Side) (T : NgxRbtree) (temp : Nat) : NgxRbtree × Nat :=
  let (T, w) := darkSibling side T temp
  settleTurn side T temp w

/-- `/* a delete fixup */` -/
def deleteLoop : (fuel : Nat) → NgxRbtree → (temp : Nat) → Option NgxRbtree
  | 0, _, _ => none
  | fuel + 1, T, temp =>
      if temp ≠ T.root ∧ ¬ T.isRed temp then
        let side : Side := if temp = T.left (T.parent temp) then .left else .right
        let (T, temp) := deleteTurn side T temp
        deleteLoop fuel T temp
      else some (T.black temp)

/-- `ngx_rbtree_delete`. -/
def ngxRbtreeDelete (fuel : Nat) (T : NgxRbtree) (node : Nat) : Option NgxRbtree := do
  let (subst, temp) ← substitute fuel T node
  if subst = T.root then
    let T := T.setRoot temp
    let T := T.black temp
    return wipe T node
  else
    let red := T.isRed subst
    let T := unlink T node subst temp
    if red then return T
    else deleteLoop fuel T temp

/-! ## Walking through the tree -/

/-- The loop of `ngx_rbtree_next`. -/
def nextLoop (T : NgxRbtree) : (fuel : Nat) → (node : Nat) → Option Nat
  | 0, _ => none
  | fuel + 1, node =>
      if node = T.root then some null
      else if node = T.left (T.parent node) then some (T.parent node)
      else nextLoop T fuel (T.parent node)

/-- `ngx_rbtree_next`. -/
def ngxRbtreeNext (fuel : Nat) (T : NgxRbtree) (node : Nat) : Option Nat :=
  if T.right node ≠ T.sentinel then ngxRbtreeMin T fuel (T.right node) else nextLoop T fuel node

end CppTrack.Ngx
