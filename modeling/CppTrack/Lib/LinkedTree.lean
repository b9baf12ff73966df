import Mathlib.Data.Tree.Basic
import Mathlib.Data.List.Nodup
import Mathlib.Data.List.Infix

/-!
# Binary trees in a memory of links

A node knows its two children and its parent. `Linked` says that a tree is what one meets when
the links are followed down from a link, and that every node met points back to the one above
it. Two operations move links about: a node is turned to the left, so that its right child takes
its place, and a new node is hung below a leaf. For each of them there is the tree that should
result, and a theorem that it does, if the links change in a few places as they should.
-/

namespace CppTrack.Lib

variable {ι : Type*}

/-- The labels from left to right. -/
def inorder : BinaryTree ι → List ι
  | .nil => []
  | .node a l r => inorder l ++ a :: inorder r

theorem mem_inorder_node {a b : ι} {l r : BinaryTree ι} :
    b ∈ inorder (.node a l r) ↔ b = a ∨ b ∈ inorder l ∨ b ∈ inorder r := by
  rw [inorder, List.mem_append, List.mem_cons]
  exact or_left_comm

section

variable {a b : ι} {l r : BinaryTree ι}

theorem root_mem_inorder : a ∈ inorder (.node a l r) := mem_inorder_node.mpr (Or.inl rfl)

theorem mem_inorder_of_left (h : b ∈ inorder l) : b ∈ inorder (.node a l r) :=
  mem_inorder_node.mpr (Or.inr (Or.inl h))

theorem mem_inorder_of_right (h : b ∈ inorder r) : b ∈ inorder (.node a l r) :=
  mem_inorder_node.mpr (Or.inr (Or.inr h))

end

/-- What no repetition in a tree says of its root and of the two trees below. -/
theorem nodup_inorder_node {a : ι} {l r : BinaryTree ι} : (inorder (.node a l r)).Nodup ↔
    (a ∉ inorder l ∧ a ∉ inorder r) ∧ (inorder l).Nodup ∧ (inorder r).Nodup ∧
      ∀ b ∈ inorder l, b ∉ inorder r := by
  rw [inorder, List.nodup_append', List.nodup_cons, List.disjoint_cons_right]
  simp only [List.Disjoint]
  tauto

theorem length_inorder (t : BinaryTree ι) : (inorder t).length = t.numNodes := by
  induction t with
  | nil => rfl
  | node a l r ihl ihr =>
      rw [inorder, List.length_append, List.length_cons, ihl, ihr, BinaryTree.numNodes]
      rfl

/-- The links of the nodes in a memory. -/
structure TreeLinks (ι : Type*) where
  parent : ι → ι
  left : ι → ι
  right : ι → ι

/-- Below the node `p`, from the link `i`, one meets `t`. -/
def Linked (L : TreeLinks ι) (null : ι) : ι → ι → BinaryTree ι → Prop
  | _, i, .nil => i = null
  | p, i, .node a l r =>
      i = a ∧ a ≠ null ∧ L.parent a = p ∧ Linked L null a (L.left a) l ∧
        Linked L null a (L.right a) r

section

variable {L L' : TreeLinks ι} {null p i x : ι} {t : BinaryTree ι}

namespace Linked

theorem ne_null (h : Linked L null p i t) {a : ι} (ha : a ∈ inorder t) : a ≠ null := by
  induction t generalizing p i with
  | nil => exact absurd ha List.not_mem_nil
  | node b l r ihl ihr =>
      obtain ⟨-, hb, -, hl, hr⟩ := h
      rcases mem_inorder_node.mp ha with rfl | ha | ha
      · exact hb
      · exact ihl hl ha
      · exact ihr hr ha

/-- A link that is not null leads to a node of the tree. -/
theorem mem (h : Linked L null p i t) (hi : i ≠ null) : i ∈ inorder t := by
  cases t with
  | nil => exact absurd h hi
  | node a l r =>
      obtain ⟨rfl, -⟩ := h
      exact root_mem_inorder

theorem eq_nil (h : Linked L null p null t) : t = .nil := by
  cases t with
  | nil => rfl
  | node a l r => exact absurd h.1.symm h.2.1

/-- A link that is not null leads to the root of a tree. -/
theorem eq_node (h : Linked L null p i t) (hi : i ≠ null) : ∃ l r, t = .node i l r := by
  cases t with
  | nil => exact absurd h hi
  | node a l r => exact ⟨l, r, by rw [h.1]⟩

/-- A tree is not broken by stores to other nodes. -/
theorem congr (h : Linked L null p i t)
    (hsame : ∀ a ∈ inorder t,
      L'.parent a = L.parent a ∧ L'.left a = L.left a ∧ L'.right a = L.right a) :
    Linked L' null p i t := by
  induction t generalizing p i with
  | nil => exact h
  | node a l r ihl ihr =>
      obtain ⟨hi, ha, hp, hl, hr⟩ := h
      obtain ⟨hp', hl', hr'⟩ := hsame a root_mem_inorder
      refine ⟨hi, ha, hp'.trans hp, ?_, ?_⟩
      · rw [hl']
        exact ihl hl fun b hb => hsame b (mem_inorder_of_left hb)
      · rw [hr']
        exact ihr hr fun b hb => hsame b (mem_inorder_of_right hb)

/-- A tree is hung below another node by a store to its root. -/
theorem reparent (h : Linked L null p i t) (hnodup : (inorder t).Nodup) {q : ι}
    (hroot : i ≠ null → L'.parent i = q)
    (hparent : ∀ a ∈ inorder t, a ≠ i → L'.parent a = L.parent a)
    (hchildren : ∀ a ∈ inorder t, L'.left a = L.left a ∧ L'.right a = L.right a) :
    Linked L' null q i t := by
  cases t with
  | nil => exact h
  | node a l r =>
      obtain ⟨rfl, ha, -, hl, hr⟩ := h
      obtain ⟨⟨hal, har⟩, -⟩ := nodup_inorder_node.mp hnodup
      have hkids := hchildren i root_mem_inorder
      refine ⟨rfl, ha, hroot ha, ?_, ?_⟩
      · rw [hkids.1]
        refine hl.congr fun b hb => ?_
        have hmem : b ∈ inorder (.node i l r) := mem_inorder_of_left hb
        exact ⟨hparent b hmem (ne_of_mem_of_not_mem hb hal), hchildren b hmem⟩
      · rw [hkids.2]
        refine hr.congr fun b hb => ?_
        have hmem : b ∈ inorder (.node i l r) := mem_inorder_of_right hb
        exact ⟨hparent b hmem (ne_of_mem_of_not_mem hb har), hchildren b hmem⟩

/-- What hangs at a node of the tree; what the node hangs at is no part of it. -/
theorem at_node (h : Linked L null p i t) (hnodup : (inorder t).Nodup) (hp : p ∉ inorder t)
    {a : ι} (ha : a ∈ inorder t) :
    ∃ l r, Linked L null (L.parent a) a (.node a l r) ∧
      inorder (.node a l r) <:+: inorder t ∧ L.parent a ∉ inorder (.node a l r) := by
  -- down from the top: below the root the parent is the root, which is in neither tree below it
  induction t generalizing p i with
  | nil => exact absurd ha List.not_mem_nil
  | node b l r ihl ihr =>
      obtain ⟨⟨hbl, hbr⟩, hl, hr, -⟩ := nodup_inorder_node.mp hnodup
      rcases mem_inorder_node.mp ha with rfl | ha | ha
      · obtain ⟨rfl, hi, rfl, h⟩ := h
        exact ⟨l, r, ⟨rfl, hi, rfl, h⟩, List.infix_rfl, hp⟩
      · obtain ⟨l', r', hlinked, hinfix, hparent⟩ := ihl h.2.2.2.1 hl hbl ha
        refine ⟨l', r', hlinked, hinfix.trans ?_, hparent⟩
        exact (List.prefix_append (inorder l) (b :: inorder r)).isInfix
      · obtain ⟨l', r', hlinked, hinfix, hparent⟩ := ihr h.2.2.2.2 hr hbr ha
        refine ⟨l', r', hlinked, hinfix.trans ?_, hparent⟩
        exact ((List.suffix_cons b _).trans (List.suffix_append _ _)).isInfix

/-- A node of the tree hangs at the top, or is a child of its parent. -/
theorem child_of_parent (h : Linked L null p i t) {a : ι} (ha : a ∈ inorder t) :
    (a = i ∧ L.parent a = p) ∨
      (L.parent a ∈ inorder t ∧ (a = L.left (L.parent a) ∨ a = L.right (L.parent a))) := by
  induction t generalizing p i with
  | nil => exact absurd ha List.not_mem_nil
  | node b l r ihl ihr =>
      obtain ⟨rfl, -, hparent, hl, hr⟩ := h
      rcases mem_inorder_node.mp ha with rfl | ha | ha
      · exact Or.inl ⟨rfl, hparent⟩
      · rcases ihl hl ha with ⟨hleft, hpa⟩ | ⟨hmem, hchild⟩
        · rw [hpa]
          exact Or.inr ⟨root_mem_inorder, Or.inl hleft⟩
        · exact Or.inr ⟨mem_inorder_of_left hmem, hchild⟩
      · rcases ihr hr ha with ⟨hright, hpa⟩ | ⟨hmem, hchild⟩
        · rw [hpa]
          exact Or.inr ⟨root_mem_inorder, Or.inr hright⟩
        · exact Or.inr ⟨mem_inorder_of_right hmem, hchild⟩

/-- The child of a node is null, or a node of the tree that points back. -/
theorem child (h : Linked L null p i t) {a c : ι} (ha : a ∈ inorder t)
    (hc : c = L.left a ∨ c = L.right a) (hnull : c ≠ null) :
    c ∈ inorder t ∧ L.parent c = a := by
  have root {q j : ι} {s : BinaryTree ι} (hs : Linked L null q j s) (hj : j ≠ null) :
      j ∈ inorder s ∧ L.parent j = q := by
    obtain ⟨l, r, rfl⟩ := hs.eq_node hj
    exact ⟨hs.mem hj, hs.2.2.1⟩
  induction t generalizing p i with
  | nil => exact absurd ha List.not_mem_nil
  | node b l r ihl ihr =>
      obtain ⟨-, -, -, hl, hr⟩ := h
      rcases mem_inorder_node.mp ha with rfl | ha | ha
      · rcases hc with rfl | rfl
        · obtain ⟨hmem, hparent⟩ := root hl hnull
          exact ⟨mem_inorder_of_left hmem, hparent⟩
        · obtain ⟨hmem, hparent⟩ := root hr hnull
          exact ⟨mem_inorder_of_right hmem, hparent⟩
      · obtain ⟨hmem, hparent⟩ := ihl hl ha
        exact ⟨mem_inorder_of_left hmem, hparent⟩
      · obtain ⟨hmem, hparent⟩ := ihr hr ha
        exact ⟨mem_inorder_of_right hmem, hparent⟩

/-- A node is still reached when only its own children have changed. -/
theorem still_reached (h : Linked L null p i t) {t' : BinaryTree ι} {q y : ι}
    (h' : Linked L' null q i t') (hy : y ∈ inorder t)
    (hsame : ∀ a, a ≠ y → L'.left a = L.left a ∧ L'.right a = L.right a) : y ∈ inorder t' := by
  induction t generalizing p i q t' with
  | nil => exact absurd hy List.not_mem_nil
  | node a l r ihl ihr =>
      obtain ⟨rfl, hi, -, hl, hr⟩ := h
      obtain ⟨l', r', rfl⟩ := h'.eq_node hi
      obtain ⟨-, -, -, hl', hr'⟩ := h'
      by_cases hiy : i = y
      · rw [hiy]
        exact root_mem_inorder
      -- above `y` the way down is the same
      obtain ⟨hleft, hright⟩ := hsame i hiy
      rcases mem_inorder_node.mp hy with rfl | hy | hy
      · exact absurd rfl hiy
      · exact mem_inorder_of_left (ihl hl (hleft ▸ hl') hy)
      · exact mem_inorder_of_right (ihr hr (hright ▸ hr') hy)

/-- The two children of a node differ. -/
theorem left_ne_right (h : Linked L null p i t) (hnodup : (inorder t).Nodup) {a : ι}
    (ha : a ∈ inorder t) (hnull : L.left a ≠ null) : L.left a ≠ L.right a := by
  induction t generalizing p i with
  | nil => exact absurd ha List.not_mem_nil
  | node b l r ihl ihr =>
      obtain ⟨rfl, -, -, hl, hr⟩ := h
      obtain ⟨-, hl_nodup, hr_nodup, hdisj⟩ := nodup_inorder_node.mp hnodup
      rcases mem_inorder_node.mp ha with rfl | ha | ha
      · intro heq
        exact hdisj _ (hl.mem hnull) (heq ▸ hr.mem (heq ▸ hnull))
      · exact ihl hl hl_nodup ha
      · exact ihr hr hr_nodup ha

/-- With a node its right child lies in a tree, and the left child of that. -/
theorem span (h : Linked L null p i t) (hx : x ∈ inorder t) (hright : L.right x ≠ null) :
    L.right x ∈ inorder t ∧ ∀ {z}, z = L.left (L.right x) → z ≠ null → z ∈ inorder t := by
  obtain ⟨hy, -⟩ := h.child hx (Or.inr rfl) hright
  exact ⟨hy, fun hz hne => (h.child hy (Or.inl hz) hne).1⟩

end Linked

/-- The nodes around a node with a right child: what the links say of them. -/
structure Around (L : TreeLinks ι) (null x : ι) : Prop where
  self_ne : x ≠ null
  child_ne : L.right x ≠ x
  moved_ne : L.left (L.right x) ≠ x
  moved_ne_child : L.left (L.right x) ≠ L.right x
  parent_ne : L.parent x ≠ x
  parent_ne_child : L.parent x ≠ L.right x
  side : L.parent x ≠ null → (x ≠ L.left (L.parent x) ↔ L.right (L.parent x) = x)

theorem Linked.around (h : Linked L null null i t) (hnodup : (inorder t).Nodup)
    (hx : x ∈ inorder t) (hright : L.right x ≠ null) : Around L null x := by
  have htop : null ∉ inorder t := fun hmem => h.ne_null hmem rfl
  obtain ⟨l, r, hat, hinfix, hparent⟩ := h.at_node hnodup htop hx
  obtain ⟨-, hne, -, -, hr⟩ := hat
  obtain ⟨rl, rr, rfl⟩ := hr.eq_node hright
  obtain ⟨⟨-, hxr⟩, -, hr_nodup, -⟩ := nodup_inorder_node.mp (hnodup.sublist hinfix.sublist)
  obtain ⟨⟨hyrl, -⟩, -⟩ := nodup_inorder_node.mp hr_nodup
  obtain ⟨-, -, -, hrl, -⟩ := hr
  constructor
  · exact hne
  · intro he
    rw [he] at hxr
    exact hxr root_mem_inorder
  · intro he
    rw [he] at hrl
    have hmem := hrl.mem hne
    exact hxr (mem_inorder_of_left hmem)
  · intro he
    rw [he] at hrl
    exact hyrl (hrl.mem hright)
  · intro he
    rw [he] at hparent
    exact hparent root_mem_inorder
  · intro he
    rw [he] at hparent
    exact hparent (mem_inorder_of_right root_mem_inorder)
  · intro hp
    rcases h.child_of_parent hx with ⟨-, hnil⟩ | ⟨hmem, hchild⟩
    · exact absurd hnil hp
    · constructor
      · intro hleft
        exact (hchild.resolve_left hleft).symm
      · intro hright' hleft
        have hdiff := h.left_ne_right hnodup hmem (hleft ▸ hne)
        exact hdiff (hleft.symm.trans hright'.symm)

/-! ## A turn to the left -/

/-- The right child of the root takes its place. -/
def turnRoot (a : ι) (l : BinaryTree ι) : BinaryTree ι → BinaryTree ι
  | .nil => .node a l .nil
  | .node b rl rr => .node b (.node a l rl) rr

/-- The right child of `x` takes its place. -/
def turnLeft [DecidableEq ι] (x : ι) : BinaryTree ι → BinaryTree ι
  | .nil => .nil
  | .node a l r => if a = x then turnRoot a l r else .node a (turnLeft x l) (turnLeft x r)

/-- A turn does not change the order of the labels. -/
theorem inorder_turnLeft [DecidableEq ι] (x : ι) (t : BinaryTree ι) :
    inorder (turnLeft x t) = inorder t := by
  induction t with
  | nil => rfl
  | node a l r ihl ihr =>
      rw [turnLeft]
      split_ifs with hax
      · cases r with
        | nil => rfl
        | node b rl rr =>
            rw [turnRoot, inorder, inorder, inorder, inorder, List.append_assoc, List.cons_append]
      · rw [inorder, inorder, ihl, ihr]

theorem turnLeft_eq_self [DecidableEq ι] (h : x ∉ inorder t) : turnLeft x t = t := by
  induction t with
  | nil => rfl
  | node a l r ihl ihr =>
      have hax : a ≠ x := fun he => h (he ▸ root_mem_inorder)
      rw [turnLeft, if_neg hax, ihl fun hl => h (mem_inorder_of_left hl),
        ihr fun hr => h (mem_inorder_of_right hr)]

/-- The stores of a turn to the left at `x`. -/
structure TurnsLeft [DecidableEq ι] (L L' : TreeLinks ι) (null x : ι) : Prop where
  parent_self : L'.parent x = L.right x
  left_self : L'.left x = L.left x
  right_self : L'.right x = L.left (L.right x)
  parent_child : L'.parent (L.right x) = L.parent x
  left_child : L'.left (L.right x) = x
  right_child : L'.right (L.right x) = L.right (L.right x)
  parent_moved : L.left (L.right x) ≠ null → L'.parent (L.left (L.right x)) = x
  parent_other : ∀ a, a ≠ x → a ≠ L.right x → a ≠ L.left (L.right x) →
    L'.parent a = L.parent a
  left_other : ∀ a, a ≠ null → a ≠ x → a ≠ L.right x →
    L'.left a = if a = L.parent x ∧ L.left a = x then L.right x else L.left a
  right_other : ∀ a, a ≠ null → a ≠ x → a ≠ L.right x →
    L'.right a = if a = L.parent x ∧ L.right a = x then L.right x else L.right a

variable [DecidableEq ι]

/-- A node outside of the turn is only led from `x` to its right child. -/
theorem TurnsLeft.other (ht : TurnsLeft L L' null x) (h : Linked L null p i t)
    (hnull : x ≠ null) {a : ι} (ha : a ∈ inorder t) (hax : a ≠ x) (hay : a ≠ L.right x) :
    L'.left a = (if L.left a = x then L.right x else L.left a) ∧
      L'.right a = if L.right a = x then L.right x else L.right a := by
  -- a node that has `x` for a child is its parent
  have hleft : (a = L.parent x ∧ L.left a = x) ↔ L.left a = x :=
    and_iff_right_of_imp fun he => (h.child ha (Or.inl he.symm) hnull).2.symm
  have hright : (a = L.parent x ∧ L.right a = x) ↔ L.right a = x :=
    and_iff_right_of_imp fun he => (h.child ha (Or.inr he.symm) hnull).2.symm
  have hne := h.ne_null ha
  simp only [ht.left_other a hne hax hay, ht.right_other a hne hax hay, hleft, hright, and_self]

theorem TurnsLeft.children (ht : TurnsLeft L L' null x) (h : Linked L null p i t)
    (hnull : x ≠ null) (hx : x ∉ inorder t) {a : ι} (ha : a ∈ inorder t)
    (hay : a ≠ L.right x) : L'.left a = L.left a ∧ L'.right a = L.right a := by
  have hleft : L.left a ≠ x := fun he => hx (h.child ha (Or.inl he.symm) hnull).1
  have hright : L.right a ≠ x := fun he => hx (h.child ha (Or.inr he.symm) hnull).1
  have hother := ht.other h hnull ha (ne_of_mem_of_not_mem ha hx) hay
  rwa [if_neg hleft, if_neg hright] at hother

/-- A tree without the three nodes whose parent changes stays as it is. -/
theorem TurnsLeft.aside (ht : TurnsLeft L L' null x) (h : Linked L null p i t)
    (hnull : x ≠ null) (hx : x ∉ inorder t) (hy : L.right x ∉ inorder t)
    (hz : L.left (L.right x) ∉ inorder t) : Linked L' null p i t := by
  refine h.congr fun a ha => ⟨?_, ?_⟩
  · exact ht.parent_other a (ne_of_mem_of_not_mem ha hx) (ne_of_mem_of_not_mem ha hy)
      (ne_of_mem_of_not_mem ha hz)
  · exact ht.children h hnull hx ha (ne_of_mem_of_not_mem ha hy)

/-- The turn where it is made. -/
theorem TurnsLeft.root (ht : TurnsLeft L L' null x) {l r : BinaryTree ι}
    (h : Linked L null p i (.node x l r)) (hnodup : (inorder (.node x l r)).Nodup)
    (hright : L.right x ≠ null) :
    Linked L' null p (L.right x) (turnLeft x (.node x l r)) := by
  obtain ⟨-, hx, hp, hl, hr⟩ := h
  obtain ⟨rl, rr, rfl⟩ := hr.eq_node hright
  obtain ⟨⟨hxl, hxr⟩, -, hrnodup, hdisj⟩ := nodup_inorder_node.mp hnodup
  obtain ⟨⟨hyrl, hyrr⟩, hrl_nodup, -, hrdisj⟩ := nodup_inorder_node.mp hrnodup
  have hyl : L.right x ∉ inorder l := fun hmem => hdisj _ hmem root_mem_inorder
  obtain ⟨-, -, -, hrl, hrr⟩ := hr
  have hxrl : x ∉ inorder rl := fun hmem => hxr (mem_inorder_of_left hmem)
  have hxrr : x ∉ inorder rr := fun hmem => hxr (mem_inorder_of_right hmem)
  rw [turnLeft, if_pos rfl, turnRoot]
  refine ⟨rfl, hright, ht.parent_child.trans hp, ⟨ht.left_child, hx, ht.parent_self, ?_, ?_⟩, ?_⟩
  · -- what was left of `x` stays there
    rw [ht.left_self]
    refine ht.aside hl hx hxl hyl fun hmem => ?_
    exact hdisj _ hmem (mem_inorder_of_left (hrl.mem (hl.ne_null hmem)))
  · -- what was left of `y` is hung below `x`
    rw [ht.right_self]
    refine hrl.reparent hrl_nodup ht.parent_moved (fun a ha hne => ?_) fun a ha => ?_
    · exact ht.parent_other a (ne_of_mem_of_not_mem ha hxrl) (ne_of_mem_of_not_mem ha hyrl) hne
    · exact ht.children hrl hx hxrl ha (ne_of_mem_of_not_mem ha hyrl)
  · -- what was right of `y` stays there
    rw [ht.right_child]
    refine ht.aside hrr hx hxrr hyrr fun hmem => ?_
    exact hrdisj _ (hrl.mem (hrr.ne_null hmem)) hmem

section

variable {s s' : BinaryTree ι} {j j' : ι}

/-- A node above the turn keeps its parent, and is led to the node that comes up. -/
theorem TurnsLeft.above (ht : TurnsLeft L L' null x) (h : Linked L null p i t) (hi : i ≠ null)
    (hs : Linked L null i j s) (hx : x ∈ inorder s) (his : i ∉ inorder s)
    (hright : L.right x ≠ null) : L'.parent i = L.parent i ∧
      L'.left i = (if L.left i = x then L.right x else L.left i) ∧
      L'.right i = if L.right i = x then L.right x else L.right i := by
  obtain ⟨hy, hz⟩ := hs.span hx hright
  have hix : i ≠ x := fun he => his (he ▸ hx)
  have hiy : i ≠ L.right x := fun he => his (he ▸ hy)
  have hiz : i ≠ L.left (L.right x) := fun he => his (hz he hi)
  exact ⟨ht.parent_other i hix hiy hiz, ht.other h (hs.ne_null hx) (h.mem hi) hix hiy⟩

/-- A tree beside the one that the turn is made in stays as it is. -/
theorem TurnsLeft.beside (ht : TurnsLeft L L' null x) (hs : Linked L null i j s)
    (hs' : Linked L null i j' s') (hx : x ∈ inorder s) (hright : L.right x ≠ null)
    (hdisj : ∀ b ∈ inorder s', b ∉ inorder s) :
    Linked L' null i (if j' = x then L.right x else j') s' := by
  obtain ⟨hy, hz⟩ := hs.span hx hright
  have hnull : x ≠ null := hs.ne_null hx
  have hjx : j' ≠ x := fun he => hdisj j' (hs'.mem (he ▸ hnull)) (he ▸ hx)
  rw [if_neg hjx]
  exact ht.aside hs' hnull (fun hmem => hdisj _ hmem hx) (fun hmem => hdisj _ hmem hy)
    fun hmem => hdisj _ hmem (hz rfl (hs'.ne_null hmem))

end

/-- **A turn to the left.** -/
theorem Linked.turnsLeft (h : Linked L null p i t) (ht : TurnsLeft L L' null x)
    (hnodup : (inorder t).Nodup) (hx : x ∈ inorder t) (hright : L.right x ≠ null) :
    Linked L' null p (if i = x then L.right x else i) (turnLeft x t) := by
  induction t generalizing p i with
  | nil => exact absurd hx List.not_mem_nil
  | node a l r ihl ihr =>
      obtain rfl : i = a := h.1
      by_cases hix : i = x
      · subst hix
        rw [if_pos rfl]
        exact ht.root h hnodup hright
      -- further down the turn is made on one side, and the other side is left alone
      obtain ⟨⟨hil, hir⟩, hl_nodup, hr_nodup, hdisj⟩ := nodup_inorder_node.mp hnodup
      obtain ⟨-, hi, hp, hl, hr⟩ := id h
      rw [if_neg hix, turnLeft, if_neg hix]
      rcases mem_inorder_node.mp hx with rfl | hxl | hxr
      · exact absurd rfl hix
      · obtain ⟨hparent, hleft, hr'⟩ := ht.above h hi hl hxl hil hright
        rw [turnLeft_eq_self (hdisj x hxl)]
        refine ⟨rfl, hi, hparent.trans hp, ?_, ?_⟩
        · rw [hleft]
          exact ihl hl hl_nodup hxl
        · rw [hr']
          exact ht.beside hl hr hxl hright fun b hb hbl => hdisj b hbl hb
      · obtain ⟨hparent, hleft, hr'⟩ := ht.above h hi hr hxr hir hright
        rw [turnLeft_eq_self fun hxl => hdisj x hxl hxr]
        refine ⟨rfl, hi, hparent.trans hp, ?_, ?_⟩
        · rw [hleft]
          exact ht.beside hr hl hxr hright hdisj
        · rw [hr']
          exact ihr hr hr_nodup hxr

end

end CppTrack.Lib
