import Mathlib.Algebra.Group.Nat.Defs
import CppTrack.Lib.Heap

/-!
# The B-tree (`btree.c`)

Nodes live on a heap and hold two arrays, `keys` of `2 * t - 1` elements and
`childrens` of `2 * t`. Every access the code makes is made here, through `load`
and `store`, so `none` means that the C program has read or written outside an
array, through a null pointer or through a freed node (or that its recursion would
never end). `printf` output is left out, except that `btree_traverse` returns the
keys it prints.

The sizes of the arrays are products of `int`s. Where `2 * t` is no `int` its overflow is
undefined, and with the wrapped product `calloc` is asked for more than there is and the
pointer is null: such a node has no elements.

A node's arrays are released with the node, so `btree_destroy_node` and the bare
`free(node)` of `btree_delete_key` are the same here; the difference is a leak.
-/

namespace CppTrack.Storage

open Lib

/-- `btree_node`. -/
structure BTreeNode where
  keys : Nat → Int
  childrens : Nat → Option Nat
  num : Nat
  leaf : Bool

/-- The `keys` array of a node of a tree of degree `t`. Where an `int` does not hold `2 * t`, there
is no array. -/
def keysOf (t : Nat) : ArrayField BTreeNode Int where
  size := if 2 * t < 2 ^ 31 then 2 * t - 1 else 0
  read := BTreeNode.keys
  write := fun b a => { b with keys := a }
  read_write := fun _ _ => rfl
  write_read := fun _ => rfl
  write_write := fun _ _ _ => rfl

/-- The `childrens` array. -/
def childrensOf (t : Nat) : ArrayField BTreeNode (Option Nat) where
  size := if 2 * t < 2 ^ 31 then 2 * t else 0
  read := BTreeNode.childrens
  write := fun b a => { b with childrens := a }
  read_write := fun _ _ => rfl
  write_read := fun _ => rfl
  write_write := fun _ _ _ => rfl

/-- `btree`, with the memory its pointers point into. -/
structure BTree where
  root : Option Nat
  t : Nat
  heap : Heap BTreeNode

/-- `btree_create_node`: both arrays come zeroed from `calloc`. -/
def btreeCreateNode (h : Heap BTreeNode) (leaf : Bool) : Nat × Heap BTreeNode :=
  h.alloc { keys := fun _ => 0, childrens := fun _ => none, num := 0, leaf := leaf }

/-- `btree_destroy_node`. -/
def btreeDestroyNode (h : Heap BTreeNode) (node : Nat) : Option (Heap BTreeNode) :=
  h.free node

/-- `btree_create`. -/
def btreeCreate (t : Nat) : BTree :=
  let (x, h) := btreeCreateNode Heap.empty true
  { root := some x, t := t, heap := h }

/-! ## Insertion -/

/-- `btree_split_child`, up to `y->num = t - 1`: the upper half of `y` goes to `z`. -/
def copyUpperHalf (t : Nat) (h : Heap BTreeNode) (y z : Nat) : Option (Heap BTreeNode) := do
  let h ← h.modify z (fun n => { n with num := t - 1 })
  let h ← forUp (fun j h => do h.store (keysOf t) z j (← h.load (keysOf t) y (j + t))) 0 (t - 1) h
  let yn ← h.get y
  if yn.leaf = false then
    forUp (fun j h => do h.store (childrensOf t) z j (← h.load (childrensOf t) y (j + t))) 0 t h
  else some h

/-- `btree_split_child`. -/
def btreeSplitChild (t : Nat) (h : Heap BTreeNode) (x i : Nat) : Option (Heap BTreeNode) := do
  let y ← (← h.load (childrensOf t) x i)
  let yn ← h.get y
  let (z, h) := btreeCreateNode h yn.leaf
  let h ← copyUpperHalf t h y z
  let h ← h.modify y (fun n => { n with num := t - 1 })
  let xn ← h.get x
  -- j from x->num down to i + 1
  let h ← forDown (fun j h => do
    h.store (childrensOf t) x (j + 1) (← h.load (childrensOf t) x j)) (i + 1) (xn.num - i) h
  let h ← h.store (childrensOf t) x (i + 1) (some z)
  -- j from x->num - 1 down to i
  let h ← forDown (fun j h => do
    h.store (keysOf t) x (j + 1) (← h.load (keysOf t) x j)) i (xn.num - i) h
  let h ← h.store (keysOf t) x i (← h.load (keysOf t) y (t - 1))
  h.modify x (fun n => { n with num := n.num + 1 })

/-- `while (i >= 0 && x->keys[i] > k) { x->keys[i+1] = x->keys[i]; i --; }`, with `m = i + 1`. -/
def insertShift (t : Nat) (x : Nat) (k : Int) : Nat → Heap BTreeNode → Option (Nat × Heap BTreeNode)
  | 0, h => some (0, h)
  | m + 1, h => do
      let ki ← h.load (keysOf t) x m
      if ki > k then do
        let h ← h.store (keysOf t) x (m + 1) ki
        insertShift t x k m h
      else some (m + 1, h)

/-- `while (i >= 0 && x->keys[i] > k) i --;`, with `m = i + 1`. -/
def insertScan (t : Nat) (h : Heap BTreeNode) (x : Nat) (k : Int) : Nat → Option Nat
  | 0 => some 0
  | m + 1 => do
      let ki ← h.load (keysOf t) x m
      if ki > k then insertScan t h x k m else some (m + 1)

/-- `btree_insert_nonfull`. -/
def btreeInsertNonfull (t : Nat) : (fuel : Nat) → Heap BTreeNode → (x : Nat) → (k : Int) →
    Option (Heap BTreeNode)
  | 0, _, _, _ => none
  | fuel + 1, h, x, k => do
      let xn ← h.get x
      if xn.leaf = true then do
        let (m, h) ← insertShift t x k xn.num h
        let h ← h.store (keysOf t) x m k
        h.modify x (fun n => { n with num := n.num + 1 })
      else do
        let m ← insertScan t h x k xn.num
        let c ← (← h.load (childrensOf t) x m)
        let cn ← h.get c
        if cn.num = 2 * t - 1 then do
          let h ← btreeSplitChild t h x m
          let km ← h.load (keysOf t) x m
          let m := if k > km then m + 1 else m
          let c ← (← h.load (childrensOf t) x m)
          btreeInsertNonfull t fuel h c k
        else btreeInsertNonfull t fuel h c k

/--
`btree_insert`. A chain of recursive calls visits distinct nodes of the tree, so
the number of nodes ever allocated bounds it.
-/
def btreeInsert (T : BTree) (key : Int) : Option BTree := do
  let r ← T.root
  let rn ← T.heap.get r
  if rn.num = 2 * T.t - 1 then do
    let (node, h) := btreeCreateNode T.heap false
    let h ← h.store (childrensOf T.t) node 0 (some r)
    let h ← btreeSplitChild T.t h node 0
    let k0 ← h.load (keysOf T.t) node 0
    let i := if k0 < key then 1 else 0
    let c ← (← h.load (childrensOf T.t) node i)
    let h ← btreeInsertNonfull T.t (h.next + 1) h c key
    some { T with root := some node, heap := h }
  else do
    let h ← btreeInsertNonfull T.t (T.heap.next + 1) T.heap r key
    some { T with heap := h }

/-- The keys `btree_traverse` prints, in order. -/
def btreeTraverse (t : Nat) (h : Heap BTreeNode) : (fuel : Nat) → (x : Nat) → Option (List Int)
  | 0, _ => none
  | fuel + 1, x => do
      let xn ← h.get x
      let visit (i : Nat) (out : List Int) : Option (List Int) :=
        if xn.leaf = false then do
          let c ← (← h.load (childrensOf t) x i)
          some (out ++ (← btreeTraverse t h fuel c))
        else some out
      let out ← forUp (fun i out => do
        let out ← visit i out
        some (out ++ [← h.load (keysOf t) x i])) 0 xn.num []
      visit xn.num out

/-- `btree_traverse(T->root)`. -/
def traverse (T : BTree) : Option (List Int) :=
  T.root.bind (btreeTraverse T.t T.heap (T.heap.next + 1))

/-! ## Deletion -/

/-- `btree_merge`, "data merge": a key and the right node go to the end of the left one. -/
def mergeData (t : Nat) (h : Heap BTreeNode) (left right : Nat) (k : Int) :
    Option (Heap BTreeNode) := do
  let h ← h.store (keysOf t) left (t - 1) k
  let h ← forUp (fun i h => do
    h.store (keysOf t) left (t + i) (← h.load (keysOf t) right i)) 0 (t - 1) h
  let ln ← h.get left
  if ln.leaf = false then
    forUp (fun i h => do
      h.store (childrensOf t) left (t + i) (← h.load (childrensOf t) right i)) 0 t h
  else some h

/-- `btree_merge`, the parent's part: key `idx` and child `idx + 1` are taken out. -/
def closeGap (t : Nat) (h : Heap BTreeNode) (node idx : Nat) : Option (Heap BTreeNode) := do
  let nn ← h.get node
  let h ← forUp (fun i h => do
    let h ← h.store (keysOf t) node (i - 1) (← h.load (keysOf t) node i)
    h.store (childrensOf t) node i (← h.load (childrensOf t) node (i + 1)))
    (idx + 1) (nn.num - (idx + 1)) h
  -- the loop leaves i at node->num, or at idx + 1 when it made no round
  let i := max (idx + 1) nn.num
  let h ← h.store (childrensOf t) node (i + 1) none
  h.modify node (fun n => { n with num := n.num - 1 })

/-- `btree_merge`: child `idx`, key `idx` and child `idx + 1` become one node. -/
def btreeMerge (T : BTree) (node idx : Nat) : Option BTree := do
  let left ← (← T.heap.load (childrensOf T.t) node idx)
  let right ← (← T.heap.load (childrensOf T.t) node (idx + 1))
  let h ← mergeData T.t T.heap left right (← T.heap.load (keysOf T.t) node idx)
  let h ← h.modify left (fun n => { n with num := n.num + T.t })
  let h ← btreeDestroyNode h right
  let h ← closeGap T.t h node idx
  let nn ← h.get node
  if nn.num = 0 then do
    let h ← btreeDestroyNode h node
    some { T with root := some left, heap := h }
  else some { T with heap := h }

/-- `while (idx < node->num && key > node->keys[idx]) idx ++;`, with `rest = node->num - idx`. -/
def deleteScan (t : Nat) (h : Heap BTreeNode) (node : Nat) (key : Int) :
    (rest idx : Nat) → Option Nat
  | 0, idx => some idx
  | rest + 1, idx => do
      let ki ← h.load (keysOf t) node idx
      if key > ki then deleteScan t h node key rest (idx + 1) else some idx

/-- `btree_delete_key`, the key found in a leaf. -/
def deleteFromLeaf (T : BTree) (node idx : Nat) : Option BTree := do
  let t := T.t
  let nn ← T.heap.get node
  let h ← forUp (fun i h => do
    h.store (keysOf t) node i (← h.load (keysOf t) node (i + 1))) idx (nn.num - 1 - idx) T.heap
  let h ← h.store (keysOf t) node (nn.num - 1) 0
  let h ← h.modify node (fun n => { n with num := n.num - 1 })
  let nn ← h.get node
  if nn.num = 0 then do
    let h ← h.free node
    some { T with root := none, heap := h }
  else some { T with heap := h }

/-- `btree_delete_key`, "borrow from next". -/
def borrowFromNext (t : Nat) (h : Heap BTreeNode) (node idx child right : Nat) :
    Option (Heap BTreeNode) := do
  let cn ← h.get child
  let h ← h.store (keysOf t) child cn.num (← h.load (keysOf t) node idx)
  let h ← h.store (childrensOf t) child (cn.num + 1) (← h.load (childrensOf t) right 0)
  let h ← h.modify child (fun n => { n with num := n.num + 1 })
  let h ← h.store (keysOf t) node idx (← h.load (keysOf t) right 0)
  let rn ← h.get right
  let h ← forUp (fun i h => do
    let h ← h.store (keysOf t) right i (← h.load (keysOf t) right (i + 1))
    h.store (childrensOf t) right i (← h.load (childrensOf t) right (i + 1))) 0 (rn.num - 1) h
  let h ← h.store (keysOf t) right (rn.num - 1) 0
  let h ← h.store (childrensOf t) right (rn.num - 1) (← h.load (childrensOf t) right rn.num)
  let h ← h.store (childrensOf t) right rn.num none
  h.modify right (fun n => { n with num := n.num - 1 })

/-- `btree_delete_key`, "borrow from prev". -/
def borrowFromPrev (t : Nat) (h : Heap BTreeNode) (node idx child left : Nat) :
    Option (Heap BTreeNode) := do
  let cn ← h.get child
  -- i from child->num down to 1
  let h ← forDown (fun i h => do
    let h ← h.store (keysOf t) child i (← h.load (keysOf t) child (i - 1))
    h.store (childrensOf t) child (i + 1) (← h.load (childrensOf t) child i)) 1 cn.num h
  let h ← h.store (childrensOf t) child 1 (← h.load (childrensOf t) child 0)
  let ln ← h.get left
  let h ← h.store (childrensOf t) child 0 (← h.load (childrensOf t) left ln.num)
  let h ← h.store (keysOf t) child 0 (← h.load (keysOf t) node (idx - 1))
  let h ← h.modify child (fun n => { n with num := n.num + 1 })
  let h ← h.store (keysOf t) node (idx - 1) (← h.load (keysOf t) left (ln.num - 1))
  let h ← h.store (keysOf t) left (ln.num - 1) 0
  let h ← h.store (childrensOf t) left ln.num none
  h.modify left (fun n => { n with num := n.num - 1 })

/-- `p && p->num >= t`, or `p && p->num == t - 1`: a test on a node that may be absent. -/
def nonNullAnd (h : Heap BTreeNode) (p : Option Nat) (test : Nat → Bool) : Option Bool :=
  match p with
  | none => some false
  | some p => (h.get p).map (fun n => test n.num)

/-- `if (cond) left = node->childrens[i];`, on a `left` that starts as `NULL`. -/
def siblingAt (t : Nat) (h : Heap BTreeNode) (node : Nat) (cond : Bool) (i : Nat) :
    Option (Option Nat) :=
  if cond then h.load (childrensOf t) node i else some none

/-- `richR`: the right neighbour has more keys than the left one, or there is only a right one. -/
def richR (h : Heap BTreeNode) (left right : Option Nat) : Option Bool :=
  match left, right with
  | some l, some r => do
      let ln ← h.get l
      let rn ← h.get r
      some (decide (rn.num > ln.num))
  | none, some _ => some true
  | _, none => some false

/-- `btree_delete_key`, "borrow" or merge with a neighbour. Returns the child to descend into. -/
def borrowOrMerge (T : BTree) (node idx child : Nat) (left right : Option Nat) :
    Option (BTree × Nat) := do
  let t := T.t
  let leftRich ← nonNullAnd T.heap left (fun n => t ≤ n)
  let rightRich ← nonNullAnd T.heap right (fun n => t ≤ n)
  if leftRich || rightRich then do
    let rich ← richR T.heap left right
    if rightRich && rich then do
      let h ← borrowFromNext t T.heap node idx child (← right)
      some ({ T with heap := h }, child)
    else do
      let h ← borrowFromPrev t T.heap node idx child (← left)
      some ({ T with heap := h }, child)
  else do
    let leftPoor ← nonNullAnd T.heap left (fun n => n = t - 1)
    let rightPoor ← nonNullAnd T.heap right (fun n => n = t - 1)
    if (left.isNone || leftPoor) && (right.isNone || rightPoor) then
      if leftPoor then do
        let T ← btreeMerge T node (idx - 1)
        some (T, ← left)
      else if rightPoor then do
        let T ← btreeMerge T node idx
        some (T, child)
      else some (T, child)
    else some (T, child)

/--
`btree_delete_key`, the `child->num == T->t - 1` branch: the child is given one more
key before the descent.
-/
def rebalanceChild (T : BTree) (node idx child : Nat) : Option (BTree × Nat) := do
  let nn ← T.heap.get node
  let left ← siblingAt T.t T.heap node (1 ≤ idx) (idx - 1)
  let right ← siblingAt T.t T.heap node (idx + 1 ≤ nn.num) (idx + 1)
  borrowOrMerge T node idx child left right

/-- `idx < node->num && key == node->keys[idx]`. -/
def keyAt (t : Nat) (h : Heap BTreeNode) (node num idx : Nat) (key : Int) : Option Bool :=
  if idx < num then (h.load (keysOf t) node idx).map (fun k => decide (key = k)) else some false

/-- `btree_delete_key`. -/
def btreeDeleteKey : (fuel : Nat) → BTree → (node : Option Nat) → (key : Int) → Option BTree
  | 0, _, _, _ => none
  | _ + 1, T, none, _ => some T
  | fuel + 1, T, some node, key => do
      let t := T.t
      let nn ← T.heap.get node
      let idx ← deleteScan t T.heap node key nn.num 0
      let found ← keyAt t T.heap node nn.num idx key
      if found then
        if nn.leaf then deleteFromLeaf T node idx
        else do
          let left ← (← T.heap.load (childrensOf t) node idx)
          let ln ← T.heap.get left
          if t ≤ ln.num then do
            let h ← T.heap.store (keysOf t) node idx (← T.heap.load (keysOf t) left (ln.num - 1))
            let m ← h.load (keysOf t) left (ln.num - 1)
            btreeDeleteKey fuel { T with heap := h } (some left) m
          else do
            let right ← (← T.heap.load (childrensOf t) node (idx + 1))
            let rn ← T.heap.get right
            if t ≤ rn.num then do
              let h ← T.heap.store (keysOf t) node idx (← T.heap.load (keysOf t) right 0)
              let m ← h.load (keysOf t) right 0
              btreeDeleteKey fuel { T with heap := h } (some right) m
            else do
              let T ← btreeMerge T node idx
              -- node is read again here, although the merge may have freed it
              let c ← T.heap.load (childrensOf t) node idx
              btreeDeleteKey fuel T c key
      else do
        let child ← T.heap.load (childrensOf t) node idx
        match child with
        | none => some T
        | some child => do
            let cn ← T.heap.get child
            if cn.num = t - 1 then do
              let (T, child) ← rebalanceChild T node idx child
              btreeDeleteKey fuel T (some child) key
            else btreeDeleteKey fuel T (some child) key

/-- `btree_delete`: -1 on an empty tree, else 0. -/
def btreeDelete (T : BTree) (key : Int) : Option (Int × BTree) :=
  match T.root with
  | none => some (-1, T)
  | some r => (btreeDeleteKey (T.heap.next + 2) T (some r) key).map (fun T' => (0, T'))

end CppTrack.Storage
