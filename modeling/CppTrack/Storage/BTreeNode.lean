import CppTrack.Storage.BTree

/-!
# What the B-tree's node operations do to the heap

Each operation of `btree.c` that moves keys and children between nodes, as one
equation on the heap: which records it overwrites, and with what. The loops are
gone; what is left is a handful of `put`s.
-/

namespace CppTrack.Storage

open Lib Heap

/-- The upper half of a full node, as `btree_split_child` builds it. -/
def splitRecord (t : Nat) (r : BTreeNode) : BTreeNode where
  keys := copied r.keys (fun _ => 0) 0 t (t - 1)
  childrens := if r.leaf = false then copied r.childrens (fun _ => none) 0 t t else fun _ => none
  num := t - 1
  leaf := r.leaf

/-- The parent after `btree_split_child`, with the new child `z` and the key that moved up. -/
def splitParent (r : BTreeNode) (i z : Nat) (k : Int) : BTreeNode where
  keys := Function.update (movedUp r.keys i (r.num - i)) i k
  childrens := Function.update (movedUp r.childrens (i + 1) (r.num - i)) (i + 1) (some z)
  num := r.num + 1
  leaf := r.leaf

/-- A degree for which the nodes have their arrays. -/
abbrev Degree (t : Nat) : Prop := 2 ≤ t ∧ 2 * t < 2 ^ 31

theorem keysOf_size {t : Nat} (ht : 2 * t < 2 ^ 31) : (keysOf t).size = 2 * t - 1 := by
  show (if 2 * t < 2 ^ 31 then 2 * t - 1 else 0) = _
  exact if_pos ht

theorem childrensOf_size {t : Nat} (ht : 2 * t < 2 ^ 31) : (childrensOf t).size = 2 * t := by
  show (if 2 * t < 2 ^ 31 then 2 * t else 0) = _
  exact if_pos ht

theorem keysOf_size_large {t : Nat} (ht : ¬ 2 * t < 2 ^ 31) : (keysOf t).size = 0 := by
  show (if 2 * t < 2 ^ 31 then 2 * t - 1 else 0) = _
  exact if_neg ht

theorem childrensOf_size_large {t : Nat} (ht : ¬ 2 * t < 2 ^ 31) : (childrensOf t).size = 0 := by
  show (if 2 * t < 2 ^ 31 then 2 * t else 0) = _
  exact if_neg ht

theorem copyUpperHalf_eq {t : Nat} {h : Heap BTreeNode} {y : Nat} {ry : BTreeNode}
    (ht : Degree t) (hy : h.get y = some ry) (hyn : y ≠ h.next) :
    copyUpperHalf t (btreeCreateNode h ry.leaf).2 y h.next =
      some (h.alloc (splitRecord t ry)).2 := by
  have hy' (b : BTreeNode) : (h.alloc b).2.get y = some ry := (get_alloc_of_ne _ _ hyn).trans hy
  have hk := keysOf_size (t := t) (by omega)
  have hc := childrensOf_size (t := t) (by omega)
  unfold copyUpperHalf btreeCreateNode
  simp only [Option.bind_eq_bind]
  rw [modify_eq (get_alloc_self _ _), Option.bind_some, put_alloc,
    copy_loop (a := 0) (b := t) (fun j h' => by rw [Nat.zero_add, Nat.add_comm t j]) hyn
      (hy' _) (get_alloc_self _ _) (by omega) (by omega),
    Option.bind_some, put_alloc, hy', Option.bind_some]
  split
  · rename_i hleaf
    rw [copy_loop (a := 0) (b := t) (fun j h' => by rw [Nat.zero_add, Nat.add_comm t j]) hyn
      (hy' _) (get_alloc_self _ _) (by omega) (by omega), put_alloc]
    simp [splitRecord, hleaf, keysOf, childrensOf]
  · rename_i hleaf
    simp [splitRecord, hleaf, keysOf]

theorem btreeSplitChild_eq {t : Nat} {h : Heap BTreeNode} {x y i : Nat} {rx ry : BTreeNode}
    (ht : Degree t) (hx : h.get x = some rx) (hy : h.get y = some ry) (hxy : x ≠ y)
    (hxn : x ≠ h.next) (hyn : y ≠ h.next) (hc : rx.childrens i = some y) (hi : i ≤ rx.num)
    (hnum : rx.num < 2 * t - 1) :
    btreeSplitChild t h x i =
      some (((h.alloc (splitRecord t ry)).2.put y { ry with num := t - 1 }).put x
        (splitParent rx i h.next (ry.keys (t - 1)))) := by
  have hkz := keysOf_size (t := t) (by omega)
  have hcz := childrensOf_size (t := t) (by omega)
  have hload : h.load (childrensOf t) x i = some (some y) := by
    rw [load_eq hx (by omega)]
    exact congrArg some hc
  have hfst : (btreeCreateNode h ry.leaf).1 = h.next := rfl
  have hy' : (h.alloc (splitRecord t ry)).2.get y = some ry := (get_alloc_of_ne _ _ hyn).trans hy
  have hx' : ((h.alloc (splitRecord t ry)).2.put y { ry with num := t - 1 }).get x = some rx := by
    rw [get_put_of_ne _ _ hxy, get_alloc_of_ne _ _ hxn, hx]
  unfold btreeSplitChild
  simp only [Option.bind_eq_bind, hload, Option.bind_some, hy, hfst]
  rw [copyUpperHalf_eq ht hy hyn, Option.bind_some, modify_eq hy', Option.bind_some, hx',
    Option.bind_some, moveUp_loop (fun _ _ => rfl) hx' (by omega), Option.bind_some,
    store_eq (get_put_self _ _ _) (by omega), Option.bind_some, put_put,
    moveUp_loop (fun _ _ => rfl) (get_put_self _ _ _) (by omega), Option.bind_some, put_put]
  have hy'' (b : BTreeNode) :
      (((h.alloc (splitRecord t ry)).2.put y { ry with num := t - 1 }).put x b).get y =
        some { ry with num := t - 1 } := by
    rw [get_put_of_ne _ _ hxy.symm, get_put_self]
  rw [load_eq (hy'' _) (by omega), Option.bind_some, store_eq (get_put_self _ _ _) (by omega),
    Option.bind_some, put_put, modify_eq (get_put_self _ _ _), put_put]
  rfl

/-! ## Loops over both arrays of a node -/

/-- `childrens[j] = childrens[j+1]`, and the same for the key `a` places before it. -/
theorem moveDown_loop {t : Nat} {h : Heap BTreeNode} {p lo n a : Nat} {r : BTreeNode}
    {body : Nat → Heap BTreeNode → Option (Heap BTreeNode)}
    (hbody : ∀ j h', body j h' = (h'.load (keysOf t) p (j + 1 - a)).bind (fun v =>
      (h'.store (keysOf t) p (j - a) v).bind (fun h'' =>
        (h''.load (childrensOf t) p (j + 1)).bind (h''.store (childrensOf t) p j))))
    (hr : h.get p = some r) (ha : a ≤ lo) (ht : 2 * t < 2 ^ 31) (hsize : lo + n - a < 2 * t - 1)
    (hsize' : lo + n < 2 * t) :
    forUp body lo n h = some (h.put p { r with
      keys := movedDown r.keys (lo - a) n, childrens := movedDown r.childrens lo n }) := by
  have hkz := keysOf_size (t := t) (by omega)
  have hcz := childrensOf_size (t := t) (by omega)
  have hstart : h = h.put p { r with
      keys := movedDown r.keys (lo - a) 0, childrens := movedDown r.childrens lo 0 } := by
    rw [movedDown_zero, movedDown_zero, put_self hr]
  have hloop := forUp_eq body (fun j => h.put p { r with
    keys := movedDown r.keys (lo - a) (j - lo), childrens := movedDown r.childrens lo (j - lo) })
    lo n (fun j hlo hj => ?_)
  · simp only [Nat.sub_self, ← hstart, Nat.add_sub_cancel_left] at hloop
    exact hloop
  · have hkey : movedDown r.keys (lo - a) (j - lo) (j + 1 - a) = r.keys (j + 1 - a) :=
      if_neg (by omega)
    have hchild : movedDown r.childrens lo (j - lo) (j + 1) = r.childrens (j + 1) :=
      if_neg (by omega)
    rw [hbody, load_eq (get_put_self _ _ _) (by omega), Option.bind_some,
      store_eq (get_put_self _ _ _) (by omega), Option.bind_some, put_put,
      load_eq (get_put_self _ _ _) (by omega), Option.bind_some,
      store_eq (get_put_self _ _ _) (by omega), put_put]
    have hk := movedDown_succ r.keys (lo - a) (j - lo)
    have hc := movedDown_succ r.childrens lo (j - lo)
    rw [show lo - a + (j - lo) = j - a by omega, show j - a + 1 = j + 1 - a by omega] at hk
    rw [show lo + (j - lo) = j by omega] at hc
    rw [show j + 1 - lo = j - lo + 1 by omega, ← hk, ← hc, ← hkey, ← hchild]
    rfl

/-- `keys[i] = keys[i-1]; childrens[i+1] = childrens[i]`, from the top down to 1. -/
theorem moveUp_both_loop {t : Nat} {h : Heap BTreeNode} {p n : Nat} {r : BTreeNode}
    {body : Nat → Heap BTreeNode → Option (Heap BTreeNode)}
    (hbody : ∀ j h', body j h' = (h'.load (keysOf t) p (j - 1)).bind (fun v =>
      (h'.store (keysOf t) p j v).bind (fun h'' =>
        (h''.load (childrensOf t) p j).bind (h''.store (childrensOf t) p (j + 1)))))
    (hr : h.get p = some r) (ht : 2 * t < 2 ^ 31) (hsize : n < 2 * t - 1) :
    forDown body 1 n h = some (h.put p { r with
      keys := movedUp r.keys 0 n, childrens := movedUp r.childrens 1 n }) := by
  have hkz := keysOf_size (t := t) (by omega)
  have hcz := childrensOf_size (t := t) (by omega)
  have hstart : h = h.put p { r with
      keys := movedUp r.keys n 0, childrens := movedUp r.childrens (1 + n) 0 } := by
    rw [movedUp_zero, movedUp_zero, put_self hr]
  have hloop := forDown_eq body (fun j => h.put p { r with
    keys := movedUp r.keys (j - 1) (1 + n - j), childrens := movedUp r.childrens j (1 + n - j) })
    1 n (fun j hlo hj => ?_)
  · simp only [Nat.sub_self, Nat.add_sub_cancel_left, ← hstart] at hloop
    exact hloop
  · have hkey : movedUp r.keys j (1 + n - (j + 1)) (j - 1) = r.keys (j - 1) := if_neg (by omega)
    have hchild : movedUp r.childrens (j + 1) (1 + n - (j + 1)) j = r.childrens j :=
      if_neg (by omega)
    rw [hbody, load_eq (get_put_self _ _ _) (by omega), Option.bind_some,
      store_eq (get_put_self _ _ _) (by omega), Option.bind_some, put_put,
      load_eq (get_put_self _ _ _) (by omega), Option.bind_some,
      store_eq (get_put_self _ _ _) (by omega), put_put]
    have hk := movedUp_succ r.keys (j - 1) (1 + n - (j + 1))
    have hc := movedUp_succ r.childrens j (1 + n - (j + 1))
    rw [show j - 1 + 1 = j by omega, show 1 + n - (j + 1) + 1 = 1 + n - j by omega] at hk
    rw [show 1 + n - (j + 1) + 1 = 1 + n - j by omega] at hc
    rw [← hk, ← hc, ← hkey, ← hchild]
    rfl

/-! ## Merging -/

/-- The left node after `btree_merge`. -/
def mergedRecord (t : Nat) (rl rr : BTreeNode) (k : Int) : BTreeNode where
  keys := copied rr.keys (Function.update rl.keys (t - 1) k) t 0 (t - 1)
  childrens := if rl.leaf = false then copied rr.childrens rl.childrens t 0 t else rl.childrens
  num := rl.num + t
  leaf := rl.leaf

/-- The parent after `btree_merge`, with the gap closed. -/
def closedRecord (r : BTreeNode) (idx : Nat) : BTreeNode where
  keys := movedDown r.keys idx (r.num - (idx + 1))
  childrens :=
    Function.update (movedDown r.childrens (idx + 1) (r.num - (idx + 1))) (r.num + 1) none
  num := r.num - 1
  leaf := r.leaf

theorem mergeData_eq {t : Nat} {h : Heap BTreeNode} {left right : Nat} {rl rr : BTreeNode} {k : Int}
    (ht : Degree t) (hl : h.get left = some rl) (hr : h.get right = some rr) (hne : right ≠ left) :
    (mergeData t h left right k).bind
      (fun h => h.modify left (fun n => { n with num := n.num + t }))
      = some (h.put left (mergedRecord t rl rr k)) := by
  have hkz := keysOf_size (t := t) (by omega)
  have hcz := childrensOf_size (t := t) (by omega)
  have hr' (b : BTreeNode) : (h.put left b).get right = some rr := (get_put_of_ne _ _ hne).trans hr
  unfold mergeData
  simp only [Option.bind_eq_bind]
  rw [store_eq hl (by omega), Option.bind_some,
    copy_loop (a := t) (b := 0) (fun j h' => by rw [Nat.zero_add]) hne (hr' _) (get_put_self _ _ _)
      (by omega) (by omega), Option.bind_some, put_put, get_put_self, Option.bind_some]
  split
  · rename_i hleaf
    change rl.leaf = false at hleaf
    rw [copy_loop (a := t) (b := 0) (fun j h' => by rw [Nat.zero_add]) hne (hr' _)
      (get_put_self _ _ _) (by omega) (by omega), Option.bind_some, put_put,
      modify_eq (get_put_self _ _ _), put_put]
    simp [mergedRecord, hleaf, keysOf, childrensOf]
  · rename_i hleaf
    change ¬ rl.leaf = false at hleaf
    rw [Option.bind_some, modify_eq (get_put_self _ _ _), put_put]
    simp [mergedRecord, hleaf, keysOf]

theorem closeGap_eq {t : Nat} {h : Heap BTreeNode} {node idx : Nat} {rn : BTreeNode}
    (ht : 2 * t < 2 ^ 31) (hn : h.get node = some rn) (hidx : idx < rn.num)
    (hnum : rn.num ≤ 2 * t - 1) :
    closeGap t h node idx =
      if rn.num < 2 * t - 1 then some (h.put node (closedRecord rn idx)) else none := by
  have hcz := childrensOf_size (t := t) (by omega)
  unfold closeGap
  simp only [Option.bind_eq_bind]
  rw [hn, Option.bind_some, moveDown_loop (a := 1) (fun j h' => by rw [Nat.add_sub_cancel]) hn
    (by omega) (by omega) (by omega) (by omega), Option.bind_some, Nat.max_eq_right (by omega)]
  split
  · rw [store_eq (get_put_self _ _ _) (by omega), Option.bind_some, put_put,
      modify_eq (get_put_self _ _ _), put_put]
    rfl
  · -- a full parent: this store is one past the end of `childrens`
    rw [store_eq_none (by omega)]
    rfl

section

variable {T : BTree} {node idx left right : Nat} {rn rl rr : BTreeNode}
  (ht : Degree T.t) (hn : T.heap.get node = some rn) (hl : T.heap.get left = some rl)
  (hr : T.heap.get right = some rr) (hnl : node ≠ left) (hnr : node ≠ right) (hlr : right ≠ left)
  (hcl : rn.childrens idx = some left) (hcr : rn.childrens (idx + 1) = some right)
  (hidx : idx < rn.num) (hnum : rn.num ≤ 2 * T.t - 1)
include ht hn hl hr hnl hnr hlr hcl hcr hidx hnum

/-- What `btree_merge` does, according to how many keys the parent has. -/
theorem btreeMerge_eq :
    btreeMerge T node idx =
      let h := (T.heap.put left (mergedRecord T.t rl rr (rn.keys idx))).erase right
      if rn.num = 2 * T.t - 1 then none
      else if rn.num = 1 then some { T with root := some left, heap := h.erase node }
      else some { T with heap := h.put node (closedRecord rn idx) } := by
  have hkz := keysOf_size (t := T.t) (by omega)
  have hcz := childrensOf_size (t := T.t) (by omega)
  have hloadl : T.heap.load (childrensOf T.t) node idx = some (some left) := by
    rw [load_eq hn (by omega)]; exact congrArg some hcl
  have hloadr : T.heap.load (childrensOf T.t) node (idx + 1) = some (some right) := by
    rw [load_eq hn (by omega)]; exact congrArg some hcr
  have hloadk : T.heap.load (keysOf T.t) node idx = some (rn.keys idx) := load_eq hn (by omega)
  have hr' (b : BTreeNode) : (T.heap.put left b).get right = some rr :=
    (get_put_of_ne _ _ hlr).trans hr
  have hn' (b : BTreeNode) : ((T.heap.put left b).erase right).get node = some rn := by
    rw [get_erase_of_ne _ hnr, get_put_of_ne _ _ hnl, hn]
  have hmerge := mergeData_eq (k := rn.keys idx) ht hl hr hlr
  unfold btreeMerge
  simp only [Option.bind_eq_bind, hloadl, hloadr, hloadk, Option.bind_some]
  rw [← Option.bind_assoc, hmerge, Option.bind_some, btreeDestroyNode, free_eq (hr' _),
    Option.bind_some, closeGap_eq ht.2 (hn' _) hidx hnum]
  by_cases hfull : rn.num = 2 * T.t - 1
  · rw [if_neg (by omega), if_pos hfull]
    rfl
  · rw [if_pos (by omega), if_neg hfull, Option.bind_some, get_put_self, Option.bind_some]
    have hleft : (closedRecord rn idx).num = rn.num - 1 := rfl
    by_cases hone : rn.num = 1
    · rw [if_pos (by omega), if_pos hone, btreeDestroyNode, free_eq (get_put_self _ _ _), erase_put]
      rfl
    · rw [if_neg (by omega), if_neg hone]

end

/-! ## Deleting from a leaf -/

/-- A leaf without its key `idx`. -/
def shrunkRecord (r : BTreeNode) (idx : Nat) : BTreeNode where
  keys := Function.update (movedDown r.keys idx (r.num - 1 - idx)) (r.num - 1) 0
  childrens := r.childrens
  num := r.num - 1
  leaf := r.leaf

theorem deleteFromLeaf_eq {T : BTree} {node idx : Nat} {rn : BTreeNode}
    (ht : 2 * T.t < 2 ^ 31) (hn : T.heap.get node = some rn) (hidx : idx < rn.num)
    (hnum : rn.num ≤ 2 * T.t - 1) :
    deleteFromLeaf T node idx =
      if rn.num = 1 then some { T with root := none, heap := T.heap.erase node }
      else some { T with heap := T.heap.put node (shrunkRecord rn idx) } := by
  have hkz := keysOf_size (t := T.t) (by omega)
  have hloop : forUp (fun i h => (h.load (keysOf T.t) node (i + 1)).bind
      (fun v => h.store (keysOf T.t) node i v)) idx (rn.num - 1 - idx) T.heap =
      some (T.heap.put node { rn with keys := movedDown rn.keys idx (rn.num - 1 - idx) }) := by
    have hstart : T.heap = T.heap.put node { rn with keys := movedDown rn.keys idx 0 } := by
      rw [movedDown_zero, put_self hn]
    have hrun := forUp_eq (fun i h => (h.load (keysOf T.t) node (i + 1)).bind
      (fun v => h.store (keysOf T.t) node i v))
      (fun j => T.heap.put node { rn with keys := movedDown rn.keys idx (j - idx) })
      idx (rn.num - 1 - idx) (fun j hlo hj => ?_)
    · simp only [Nat.sub_self, ← hstart, Nat.add_sub_cancel_left] at hrun
      exact hrun
    · have hkey : movedDown rn.keys idx (j - idx) (j + 1) = rn.keys (j + 1) := if_neg (by omega)
      have hk := movedDown_succ rn.keys idx (j - idx)
      rw [show idx + (j - idx) = j by omega] at hk
      rw [load_eq (get_put_self _ _ _) (by omega), Option.bind_some,
        store_eq (get_put_self _ _ _) (by omega), put_put, show j + 1 - idx = j - idx + 1 by omega,
        ← hk, ← hkey]
      rfl
  unfold deleteFromLeaf
  simp only [Option.bind_eq_bind]
  rw [hn, Option.bind_some, hloop, Option.bind_some, store_eq (get_put_self _ _ _) (by omega),
    Option.bind_some, put_put, modify_eq (get_put_self _ _ _), Option.bind_some, put_put,
    get_put_self, Option.bind_some]
  split
  · rename_i hzero
    change rn.num - 1 = 0 at hzero
    rw [if_pos (by omega), free_eq (get_put_self _ _ _), erase_put]
    rfl
  · rename_i hzero
    change ¬ rn.num - 1 = 0 at hzero
    rw [if_neg (by omega)]
    rfl

/-! ## Borrowing -/

section

variable {t : Nat} {h : Heap BTreeNode} {node idx child sib : Nat} {rn rc rs : BTreeNode}
  (ht : Degree t) (hn : h.get node = some rn) (hc : h.get child = some rc)
  (hs : h.get sib = some rs) (hnc : node ≠ child) (hns : node ≠ sib) (hcs : child ≠ sib)
  (hcnum : rc.num = t - 1) (hsfull : rs.num ≤ 2 * t - 1)
include ht hn hc hs hnc hns hcs hcnum hsfull

theorem borrowFromNext_eq (hidx : idx < 2 * t - 1) (hsnum : t ≤ rs.num) :
    borrowFromNext t h node idx child sib = some
      (((h.put child { rc with
          keys := Function.update rc.keys rc.num (rn.keys idx)
          childrens := Function.update rc.childrens (rc.num + 1) (rs.childrens 0)
          num := rc.num + 1 }).put node { rn with
          keys := Function.update rn.keys idx (rs.keys 0) }).put sib { rs with
          keys := Function.update (movedDown rs.keys 0 (rs.num - 1)) (rs.num - 1) 0
          childrens := Function.update (Function.update (movedDown rs.childrens 0 (rs.num - 1))
            (rs.num - 1) (rs.childrens rs.num)) rs.num none
          num := rs.num - 1 }) := by
  have hkz := keysOf_size (t := t) (by omega)
  have hcz := childrensOf_size (t := t) (by omega)
  have hs' (b : BTreeNode) : (h.put child b).get sib = some rs :=
    (get_put_of_ne _ _ hcs.symm).trans hs
  have hn' (b : BTreeNode) : (h.put child b).get node = some rn :=
    (get_put_of_ne _ _ hnc).trans hn
  have hs'' (b b' : BTreeNode) : ((h.put child b).put node b').get sib = some rs :=
    (get_put_of_ne _ _ hns.symm).trans (hs' b)
  unfold borrowFromNext
  simp only [Option.bind_eq_bind]
  rw [hc, Option.bind_some, load_eq hn (by omega), Option.bind_some, store_eq hc (by omega),
    Option.bind_some, load_eq (hs' _) (by omega), Option.bind_some,
    store_eq (get_put_self _ _ _) (by omega), Option.bind_some, put_put,
    modify_eq (get_put_self _ _ _), Option.bind_some, put_put, load_eq (hs' _) (by omega),
    Option.bind_some, store_eq (hn' _) (by omega), Option.bind_some, hs'', Option.bind_some,
    moveDown_loop (a := 0) (fun j h' => by rw [Nat.sub_zero, Nat.sub_zero]) (hs'' _ _) (by omega)
      (by omega) (by omega) (by omega),
    Option.bind_some, store_eq (get_put_self _ _ _) (by omega), Option.bind_some, put_put,
    load_eq (get_put_self _ _ _) (by omega), Option.bind_some,
    store_eq (get_put_self _ _ _) (by omega), Option.bind_some, put_put,
    store_eq (get_put_self _ _ _) (by omega), Option.bind_some, put_put,
    modify_eq (get_put_self _ _ _), put_put]
  have hlast : movedDown rs.childrens 0 (rs.num - 1) rs.num = rs.childrens rs.num :=
    if_neg (by omega)
  rw [← hlast]
  rfl

theorem borrowFromPrev_eq (hidx : idx - 1 < 2 * t - 1) :
    borrowFromPrev t h node idx child sib = some
      (((h.put child { rc with
          keys := Function.update (movedUp rc.keys 0 rc.num) 0 (rn.keys (idx - 1))
          childrens := Function.update (Function.update (movedUp rc.childrens 1 rc.num) 1
            (rc.childrens 0)) 0 (rs.childrens rs.num)
          num := rc.num + 1 }).put node { rn with
          keys := Function.update rn.keys (idx - 1) (rs.keys (rs.num - 1)) }).put sib { rs with
          keys := Function.update rs.keys (rs.num - 1) 0
          childrens := Function.update rs.childrens rs.num none
          num := rs.num - 1 }) := by
  have hkz := keysOf_size (t := t) (by omega)
  have hcz := childrensOf_size (t := t) (by omega)
  have hs' (b : BTreeNode) : (h.put child b).get sib = some rs :=
    (get_put_of_ne _ _ hcs.symm).trans hs
  have hn' (b : BTreeNode) : (h.put child b).get node = some rn :=
    (get_put_of_ne _ _ hnc).trans hn
  have hs'' (b b' : BTreeNode) : ((h.put child b).put node b').get sib = some rs :=
    (get_put_of_ne _ _ hns.symm).trans (hs' b)
  unfold borrowFromPrev
  simp only [Option.bind_eq_bind]
  rw [hc, Option.bind_some, moveUp_both_loop (fun _ _ => rfl) hc ht.2 (by omega), Option.bind_some,
    load_eq (get_put_self _ _ _) (by omega), Option.bind_some,
    store_eq (get_put_self _ _ _) (by omega), Option.bind_some, put_put, hs', Option.bind_some,
    load_eq (hs' _) (by omega), Option.bind_some, store_eq (get_put_self _ _ _) (by omega),
    Option.bind_some, put_put, load_eq (hn' _) (by omega), Option.bind_some,
    store_eq (get_put_self _ _ _) (by omega), Option.bind_some, put_put,
    modify_eq (get_put_self _ _ _), Option.bind_some, put_put, load_eq (hs' _) (by omega),
    Option.bind_some, store_eq (hn' _) (by omega), Option.bind_some,
    store_eq (hs'' _ _) (by omega), Option.bind_some, store_eq (get_put_self _ _ _) (by omega),
    Option.bind_some, put_put, modify_eq (get_put_self _ _ _), put_put]
  have hfirst : movedUp rc.childrens 1 rc.num 0 = rc.childrens 0 := if_neg (by omega)
  rw [← hfirst]
  rfl

end

end CppTrack.Storage
