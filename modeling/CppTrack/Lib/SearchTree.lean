import CppTrack.Lib.LinkedTree
import Mathlib.Data.List.Perm.Basic
import Mathlib.Order.Lattice

/-!
# Search trees in a memory of links

A new label comes to lie where the comparisons with the labels on its way lead it. `hangLeaf` is
the tree that results, `descend` the node below which the new one is hung; `Linked.hangs` puts
the two together. That the keys of the labels stay in order is a fact about `hangLeaf` alone.
-/

namespace CppTrack.Lib

variable {ι : Type*}

section

variable (before : ι → Prop) [DecidablePred before]

/-- The last node on the way down, if the new label goes left of the labels in `before`. -/
def descend : ι → BinaryTree ι → ι
  | p, .nil => p
  | _, .node a l r => if before a then descend a l else descend a r

def hangLeaf (z : ι) : BinaryTree ι → BinaryTree ι
  | .nil => .node z .nil .nil
  | .node a l r => if before a then .node a (hangLeaf z l) r else .node a l (hangLeaf z r)

/-- The way ends at a node of the tree, if there is one. -/
theorem descend_mem (p : ι) (t : BinaryTree ι) :
    (t = .nil ∧ descend before p t = p) ∨ (t ≠ .nil ∧ descend before p t ∈ inorder t) := by
  induction t generalizing p with
  | nil => exact Or.inl ⟨rfl, rfl⟩
  | node a l r ihl ihr =>
      refine Or.inr ⟨by simp, ?_⟩
      rw [descend]
      split_ifs with hbefore
      · rcases ihl a with ⟨-, hend⟩ | ⟨-, hmem⟩
        · rw [hend]
          exact root_mem_inorder
        · exact mem_inorder_of_left hmem
      · rcases ihr a with ⟨-, hend⟩ | ⟨-, hmem⟩
        · rw [hend]
          exact root_mem_inorder
        · exact mem_inorder_of_right hmem

/-- A tree beside the way is not where it ends. -/
theorem descend_notMem {p : ι} {t s : BinaryTree ι} (hp : p ∉ inorder s)
    (hdisj : ∀ b ∈ inorder t, b ∉ inorder s) : descend before p t ∉ inorder s := by
  rcases descend_mem before p t with ⟨-, hend⟩ | ⟨-, hmem⟩
  · rw [hend]
    exact hp
  · exact hdisj _ hmem

theorem inorder_hangLeaf (z : ι) (t : BinaryTree ι) :
    (inorder (hangLeaf before z t)).Perm (z :: inorder t) := by
  induction t with
  | nil => exact List.Perm.refl _
  | node a l r ihl ihr =>
      rw [hangLeaf]
      split_ifs with hbefore
      · exact ihl.append_right (a :: inorder r)
      · have hright : (a :: inorder (hangLeaf before z r)).Perm (z :: a :: inorder r) :=
          (ihr.cons a).trans (List.Perm.swap z a _)
        exact (hright.append_left (inorder l)).trans List.perm_middle

end

/-! ## The order of the keys -/

section

variable {κ : Type*} [LinearOrder κ] (key : ι → κ)

/-- The keys increase from left to right. -/
def Increasing (t : BinaryTree ι) : Prop := ((inorder t).map key).Pairwise (· < ·)

variable {key} {a z : ι} {l r t : BinaryTree ι}

theorem increasing_node : Increasing key (.node a l r) ↔ Increasing key l ∧ Increasing key r ∧
    (∀ b ∈ inorder l, key b < key a) ∧ ∀ b ∈ inorder r, key a < key b := by
  unfold Increasing
  rw [inorder, List.map_append, List.map_cons, List.pairwise_append, List.pairwise_cons]
  simp only [List.forall_mem_map, List.forall_mem_cons]
  constructor
  · rintro ⟨hl, ⟨har, hr⟩, hlr⟩
    exact ⟨hl, hr, fun b hb => (hlr b hb).1, har⟩
  · rintro ⟨hl, hr, hla, har⟩
    exact ⟨hl, ⟨har, hr⟩, fun b hb => ⟨hla b hb, fun c hc => (hla b hb).trans (har c hc)⟩⟩

/-- **A new key** in its place. -/
theorem increasing_hangLeaf (h : Increasing key t) (hnew : ∀ a ∈ inorder t, key a ≠ key z) :
    Increasing key (hangLeaf (fun a => key z < key a) z t) := by
  induction t with
  | nil => exact List.pairwise_singleton _ _
  | node a l r ihl ihr =>
      obtain ⟨hl, hr, hla, har⟩ := increasing_node.mp h
      have hmem (s : BinaryTree ι) (b : ι)
          (hb : b ∈ inorder (hangLeaf (fun a => key z < key a) z s)) :
          b = z ∨ b ∈ inorder s :=
        List.mem_cons.mp ((inorder_hangLeaf _ z s).mem_iff.mp hb)
      rw [hangLeaf]
      split_ifs with hza
      · have hnewl (b : ι) (hb : b ∈ inorder l) := hnew b (mem_inorder_of_left hb)
        refine increasing_node.mpr ⟨ihl hl hnewl, hr, ?_, har⟩
        intro b hb
        rcases hmem l b hb with rfl | hb
        · exact hza
        · exact hla b hb
      · have hnewr (b : ι) (hb : b ∈ inorder r) := hnew b (mem_inorder_of_right hb)
        refine increasing_node.mpr ⟨hl, ihr hr hnewr, hla, ?_⟩
        intro b hb
        rcases hmem r b hb with rfl | hb
        · -- not smaller, and not equal since the key is new
          exact lt_of_le_of_ne (not_lt.mp hza) (hnew a root_mem_inorder)
        · exact har b hb

/-- A key that is in the tree, but not at the root, is where the comparison leads. -/
theorem Increasing.side (h : Increasing key (.node a l r)) {k : κ}
    (hk : ∃ b ∈ inorder (.node a l r), key b = k) :
    (k < key a → ∃ b ∈ inorder l, key b = k) ∧ (key a < k → ∃ b ∈ inorder r, key b = k) := by
  obtain ⟨-, -, hla, har⟩ := increasing_node.mp h
  obtain ⟨b, hb, rfl⟩ := hk
  rcases mem_inorder_node.mp hb with rfl | hbl | hbr
  · exact ⟨fun hlt => absurd hlt (lt_irrefl _), fun hlt => absurd hlt (lt_irrefl _)⟩
  · exact ⟨fun _ => ⟨b, hbl, rfl⟩, fun hlt => absurd hlt (hla b hbl).asymm⟩
  · exact ⟨fun hlt => absurd hlt (har b hbr).asymm, fun _ => ⟨b, hbr, rfl⟩⟩

end

/-! ## The links -/

/-- The stores that hang the node `z` below `y`. -/
structure Hangs (before : ι → Prop) [DecidableEq ι] [DecidablePred before]
    (L L' : TreeLinks ι) (null z y : ι) : Prop where
  parent_new : L'.parent z = y
  left_new : L'.left z = null
  right_new : L'.right z = null
  parent_other : ∀ a, a ≠ z → L'.parent a = L.parent a
  left_other : ∀ a, a ≠ null → a ≠ z →
    L'.left a = if a = y ∧ before a then z else L.left a
  right_other : ∀ a, a ≠ null → a ≠ z →
    L'.right a = if a = y ∧ ¬ before a then z else L.right a

/-- A tree that neither of the two nodes is in. -/
theorem Hangs.aside [DecidableEq ι] {before : ι → Prop} [DecidablePred before]
    {L L' : TreeLinks ι} {null p i z y : ι} {t : BinaryTree ι}
    (hhang : Hangs before L L' null z y) (h : Linked L null p i t) (hy : y ∉ inorder t)
    (hz : z ∉ inorder t) : Linked L' null p i t := by
  refine h.congr fun a ha => ?_
  have hne : a ≠ null := h.ne_null ha
  have haz : a ≠ z := ne_of_mem_of_not_mem ha hz
  have hay : a ≠ y := ne_of_mem_of_not_mem ha hy
  rw [hhang.parent_other a haz, hhang.left_other a hne haz, hhang.right_other a hne haz,
    if_neg fun hc => hay hc.1, if_neg fun hc => hay hc.1]
  exact ⟨rfl, rfl, rfl⟩

/-- The way down ends where it begins only if there is no tree. -/
theorem Linked.descend_eq_iff {before : ι → Prop} [DecidablePred before] {L : TreeLinks ι}
    {null p i : ι} {t : BinaryTree ι} (h : Linked L null p i t) (hp : p ∉ inorder t) :
    p = descend before p t ↔ i = null := by
  rcases descend_mem before p t with ⟨rfl, hend⟩ | ⟨ht, hmem⟩
  · exact iff_of_true hend.symm h
  · refine iff_of_false (fun he => hp (he ▸ hmem)) fun hi => ht ?_
    subst hi
    exact h.eq_nil

/-- **A new leaf.** -/
theorem Linked.hangs [DecidableEq ι] {before : ι → Prop} [DecidablePred before]
    {L L' : TreeLinks ι} {null p i z : ι} {t : BinaryTree ι} (h : Linked L null p i t)
    (hhang : Hangs before L L' null z (descend before p t)) (hnodup : (inorder t).Nodup)
    (hnull : z ≠ null) (hz : z ∉ inorder t) :
    Linked L' null p (if i = null then z else i) (hangLeaf before z t) := by
  induction t generalizing p i with
  | nil =>
      rw [show i = null from h, if_pos rfl]
      exact ⟨rfl, hnull, hhang.parent_new, hhang.left_new, hhang.right_new⟩
  | node a l r ihl ihr =>
      obtain ⟨rfl, hi, hp, hl, hr⟩ := h
      obtain ⟨⟨hil, hir⟩, hl_nodup, hr_nodup, hdisj⟩ := nodup_inorder_node.mp hnodup
      have hiz : i ≠ z := fun he => hz (he ▸ root_mem_inorder)
      have hzl : z ∉ inorder l := fun hmem => hz (mem_inorder_of_left hmem)
      have hzr : z ∉ inorder r := fun hmem => hz (mem_inorder_of_right hmem)
      rw [if_neg hi, hangLeaf]
      -- the way goes down one side, and the other side is left alone
      rw [descend] at hhang
      split_ifs at hhang ⊢ with hbefore
      · refine ⟨rfl, hi, (hhang.parent_other i hiz).trans hp, ?_, ?_⟩
        · -- the new node is the child of the root only where there was none
          rw [hhang.left_other i hi hiz]
          simp only [and_iff_left hbefore, hl.descend_eq_iff hil]
          exact ihl hl hhang hl_nodup hzl
        · rw [hhang.right_other i hi hiz, if_neg fun hc => hc.2 hbefore]
          exact hhang.aside hr (descend_notMem before hir hdisj) hzr
      · refine ⟨rfl, hi, (hhang.parent_other i hiz).trans hp, ?_, ?_⟩
        · rw [hhang.left_other i hi hiz, if_neg fun hc => hbefore hc.2]
          have hdisj' : ∀ b ∈ inorder r, b ∉ inorder l := fun b hbr hbl => hdisj b hbl hbr
          exact hhang.aside hl (descend_notMem before hil hdisj') hzl
        · rw [hhang.right_other i hi hiz]
          simp only [and_iff_left hbefore, hr.descend_eq_iff hir]
          exact ihr hr hhang hr_nodup hzr

end CppTrack.Lib
