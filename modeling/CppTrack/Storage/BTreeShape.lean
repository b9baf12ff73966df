import Mathlib.Data.Int.Order.Basic
import Mathlib.Data.List.Perm.Subperm
import Mathlib.Tactic.Tauto
import CppTrack.Lib.Weave
import CppTrack.Storage.BTreeNode

/-!
# The trees the B-tree code means

`Tree d` is a B-tree of height `d`: its leaves are all at the same depth because
there is no other way to build one. A node remembers the address it lives at, so a
tree also says which heap cells it occupies.

`Rep h n` says that the heap `h` holds the tree `n`. With it go the two halves of
being well formed: `Shape` (how many keys and children each node has) and `Ordered`
(keys increase within a node and separate its children). A tree is read from left
to right by `inorder`, and `btree_traverse` prints exactly that.
-/

namespace CppTrack.Storage

open Lib Heap

/-- A node at an address, over whatever its children are. -/
structure Node (κ : Type) where
  addr : Nat
  keys : List Int
  kids : List κ

/-- Trees of height `d`. There is none of height 0. -/
def Tree : Nat → Type
  | 0 => Empty
  | d + 1 => Node (Tree d)

namespace Tree

def mk {d : Nat} (a : Nat) (ks : List Int) (cs : List (Tree d)) : Tree (d + 1) :=
  (⟨a, ks, cs⟩ : Node (Tree d))

def keys {d : Nat} (n : Tree (d + 1)) : List Int := Node.keys n

def kids {d : Nat} (n : Tree (d + 1)) : List (Tree d) := Node.kids n

def addr : {d : Nat} → Tree d → Nat
  | 0, e => Empty.elim e
  | _ + 1, n => Node.addr n

/-- The keys from left to right. -/
def inorder : {d : Nat} → Tree d → List Int
  | 0, e => Empty.elim e
  | _ + 1, n => weave (n.kids.map inorder) n.keys

/-- The addresses of all nodes. -/
def cells : {d : Nat} → Tree d → List Nat
  | 0, e => Empty.elim e
  | _ + 1, n => n.addr :: n.kids.flatMap cells

section

variable {d : Nat} (a : Nat) (ks : List Int) (cs : List (Tree d)) (n : Tree (d + 1))

@[simp] theorem addr_mk : (mk a ks cs).addr = a := rfl
@[simp] theorem keys_mk : (mk a ks cs).keys = ks := rfl
@[simp] theorem kids_mk : (mk a ks cs).kids = cs := rfl

theorem mk_eta : mk n.addr n.keys n.kids = n := rfl

theorem inorder_succ : n.inorder = weave (n.kids.map inorder) n.keys := rfl

theorem cells_succ : n.cells = n.addr :: n.kids.flatMap cells := rfl

theorem eq_nil (l : List (Tree 0)) : l = [] := by
  cases l with
  | nil => rfl
  | cons e l => exact Empty.elim e

end

end Tree

/-! ## What the heap holds -/

/--
The record `r` holds the keys `ks` and the children at `cs`. A leaf's `childrens`
are all null, an internal node's only matter as far as it has children.
-/
structure Holds (r : BTreeNode) (ks : List Int) (cs : List Nat) : Prop where
  num : r.num = ks.length
  key : ∀ i, i < ks.length → ks[i]? = some (r.keys i)
  child : ∀ i, cs = [] ∨ i < cs.length → r.childrens i = cs[i]?
  leaf : r.leaf = true ↔ cs = []

/-- The node at `p` holds the keys `ks` and the children at `cs`. -/
def At (h : Heap BTreeNode) (p : Nat) (ks : List Int) (cs : List Nat) : Prop :=
  ∃ r, h.get p = some r ∧ Holds r ks cs

namespace Tree

/-- The heap holds this tree. -/
def Rep (h : Heap BTreeNode) : {d : Nat} → Tree d → Prop
  | 0, _ => True
  | _ + 1, n => At h n.addr n.keys (n.kids.map addr) ∧ ∀ c ∈ n.kids, Rep h c

/--
Between `lo` and `2 * t - 1` keys in this node and between `t - 1` and `2 * t - 1` in
those below, and one child more than keys in every internal node.
-/
def Shape (t : Nat) : (lo : Nat) → {d : Nat} → Tree d → Prop
  | _, 0, _ => True
  | lo, d + 1, n => lo ≤ n.keys.length ∧ n.keys.length ≤ 2 * t - 1 ∧
      (d ≠ 0 → n.kids.length = n.keys.length + 1) ∧ ∀ c ∈ n.kids, Shape t (t - 1) c

/-- The keys of every node are sorted and separate the contents of its children. -/
def Ordered : {d : Nat} → Tree d → Prop
  | 0, _ => True
  | _ + 1, n => Sorted n.keys ∧ Separates n.keys (n.kids.map inorder) ∧ ∀ c ∈ n.kids, Ordered c

section

variable {d : Nat} {n : Tree (d + 1)} {t lo : Nat} {h h' : Heap BTreeNode}

theorem Rep.at (hr : n.Rep h) : At h n.addr n.keys (n.kids.map addr) := hr.1

theorem Rep.kid (hr : n.Rep h) {c : Tree d} (hc : c ∈ n.kids) : c.Rep h := hr.2 c hc

theorem Shape.low (hs : n.Shape t lo) : lo ≤ n.keys.length := hs.1

theorem Shape.high (hs : n.Shape t lo) : n.keys.length ≤ 2 * t - 1 := hs.2.1

theorem Shape.kids_length {n : Tree (d + 2)} (hs : n.Shape t lo) :
    n.kids.length = n.keys.length + 1 := hs.2.2.1 (Nat.succ_ne_zero d)

theorem Shape.kid (hs : n.Shape t lo) {c : Tree d} (hc : c ∈ n.kids) : c.Shape t (t - 1) :=
  hs.2.2.2 c hc

theorem Shape.weaken (hs : n.Shape t lo) {lo' : Nat} (hlo : lo' ≤ n.keys.length) :
    n.Shape t lo' := ⟨hlo, hs.2⟩

theorem addr_mem_cells : n.addr ∈ n.cells := List.mem_cons_self

theorem cells_kid {c : Tree d} (hc : c ∈ n.kids) {p : Nat} (hp : p ∈ c.cells) : p ∈ n.cells :=
  List.mem_cons_of_mem _ (List.mem_flatMap.mpr ⟨c, hc, hp⟩)

end

/-- **The frame rule.** A tree is still there when none of its cells changed. -/
theorem Rep.frame {d : Nat} {n : Tree d} {h h' : Heap BTreeNode} (hr : n.Rep h)
    (heq : ∀ p ∈ n.cells, h'.get p = h.get p) : n.Rep h' := by
  induction d with
  | zero => trivial
  | succ d ih =>
      obtain ⟨r, hget, hr'⟩ := hr.at
      refine ⟨⟨r, ?_, hr'⟩, fun c hc => ih (hr.kid hc) (fun p hp => heq p (cells_kid hc hp))⟩
      rw [heq _ addr_mem_cells, hget]

/-- Being in order is the same as reading in order. -/
theorem ordered_iff_sorted {d t lo : Nat} {n : Tree d} (hs : n.Shape t lo) :
    n.Ordered ↔ Sorted n.inorder := by
  induction d generalizing lo with
  | zero => exact Empty.elim n
  | succ d ih =>
      have hkids : (∀ c ∈ n.kids, c.Ordered) ↔ ∀ l ∈ n.kids.map inorder, Sorted l := by
        rw [List.forall_mem_map]
        exact forall₂_congr (fun c hc => ih (hs.kid hc))
      rw [Ordered, inorder_succ, hkids]
      cases d with
      | zero =>
          rw [eq_nil n.kids]
          simp [Separates]
      | succ d => exact (sorted_weave (by simpa using hs.kids_length)).symm

/-! ## Reading a node with one or two children singled out -/

section

variable {d a b : Nat} {A B Y₁ Y₂ : List Int} {L R C₁ C₂ : List (Tree d)} {m : Int}

theorem inorder_mid (hL : L.length = A.length) (c : Tree d) :
    (mk a (A ++ B) (L ++ c :: R)).inorder =
      weave (L.map inorder) A ++ (c.inorder ++ weaveTail (R.map inorder) B) := by
  rw [inorder_succ, kids_mk, keys_mk, List.map_append, List.map_cons,
    weave_focus (by simpa using hL)]

theorem inorder_mid₂ (hL : L.length = A.length) (c₁ c₂ : Tree d) :
    (mk a (A ++ m :: B) (L ++ c₁ :: c₂ :: R)).inorder = weave (L.map inorder) A ++
      ((c₁.inorder ++ m :: c₂.inorder) ++ weaveTail (R.map inorder) B) := by
  rw [inorder_succ, kids_mk, keys_mk, List.map_append, List.map_cons, List.map_cons,
    weave_focus₂ (by simpa using hL)]

/-- Two nodes and a key between them read as the node made of all three. -/
theorem inorder_join (b' : Nat) (hC : C₁ = [] ∧ C₂ = [] ∨ C₁.length = Y₁.length + 1) :
    (mk b (Y₁ ++ m :: Y₂) (C₁ ++ C₂)).inorder = (mk b Y₁ C₁).inorder ++
      m :: (mk b' Y₂ C₂).inorder := by
  simp only [inorder_succ, kids_mk, keys_mk, List.map_append]
  rcases hC with ⟨rfl, rfl⟩ | hC
  · simp
  · exact weave_split (by simpa using hC)

end

theorem shape_mk {d t lo a : Nat} {ks : List Int} {cs : List (Tree d)} :
    (mk a ks cs).Shape t lo ↔ lo ≤ ks.length ∧ ks.length ≤ 2 * t - 1 ∧
      (d ≠ 0 → cs.length = ks.length + 1) ∧ ∀ c ∈ cs, c.Shape t (t - 1) := Iff.rfl

/-! ## Height and fuel -/

theorem height_le_cells {d t lo : Nat} {n : Tree d} (hs : n.Shape t lo) : d ≤ n.cells.length := by
  induction d generalizing lo with
  | zero => exact Nat.zero_le _
  | succ d ih =>
      cases d with
      | zero => simp [cells_succ]
      | succ d =>
          obtain ⟨c, cs, hcs⟩ := List.exists_cons_of_length_eq_add_one hs.kids_length
          have hc := ih (hs.kid (c := c) (by simp [hcs]))
          rw [cells_succ, hcs]
          simp only [List.length_cons, List.flatMap_cons, List.length_append]
          omega

end Tree

/-- The tree is in the heap, each node in a cell of its own. -/
structure Stored (h : Heap BTreeNode) {d : Nat} (n : Tree d) : Prop where
  rep : n.Rep h
  nodup : n.cells.Nodup
  bound : ∀ p ∈ n.cells, p < h.next

/-- The height of a tree is at most the number of cells ever allocated. -/
theorem Stored.height_le {h : Heap BTreeNode} {d t lo : Nat} {n : Tree d} (hst : Stored h n)
    (hs : n.Shape t lo) : d ≤ h.next := by
  have hsub : n.cells ⊆ List.range h.next := fun p hp => List.mem_range.mpr (hst.bound p hp)
  have hlen := (List.Nodup.subperm hst.nodup hsub).length_le
  rw [List.length_range] at hlen
  exact Nat.le_trans (Tree.height_le_cells hs) hlen

/-! ## Changing a tree in place -/

/--
From the tree `n` in `h` to the tree `n'` in `h'`, at the same address: no cell of
`h` outside `n` has changed, and a cell of `n'` that is not one of `n` is new.
-/
structure Rewrites {d : Nat} (h : Heap BTreeNode) (n : Tree d) (h' : Heap BTreeNode)
    (n' : Tree d) : Prop where
  stored : Stored h' n'
  addr : n'.addr = n.addr
  next : h.next ≤ h'.next
  cells : ∀ p ∈ n'.cells, p ∈ n.cells ∨ h.next ≤ p
  frame : ∀ p, p ∉ n.cells → p < h.next → h'.get p = h.get p

theorem Rewrites.trans {d : Nat} {h₁ h₂ h₃ : Heap BTreeNode} {n₁ n₂ n₃ : Tree d}
    (h₁₂ : Rewrites h₁ n₁ h₂ n₂) (h₂₃ : Rewrites h₂ n₂ h₃ n₃) : Rewrites h₁ n₁ h₃ n₃ where
  stored := h₂₃.stored
  addr := h₂₃.addr.trans h₁₂.addr
  next := Nat.le_trans h₁₂.next h₂₃.next
  cells := fun p hp => by
    rcases h₂₃.cells p hp with hp | hp
    · exact h₁₂.cells p hp
    · exact .inr (Nat.le_trans h₁₂.next hp)
  frame := fun p hp hlt => by
    have hp₂ : p ∉ n₂.cells := fun hp₂ => (h₁₂.cells p hp₂).elim hp (by omega)
    rw [h₂₃.frame p hp₂ (Nat.lt_of_lt_of_le hlt h₁₂.next), h₁₂.frame p hp hlt]

section

variable {d : Nat} {h h' : Heap BTreeNode} {a : Nat} {ks : List Int} {L R : List (Tree d)}
  {c c' : Tree d}

theorem cells_mid : (Tree.mk a ks (L ++ c :: R)).cells =
    a :: (L.flatMap Tree.cells ++ (c.cells ++ R.flatMap Tree.cells)) := by
  rw [Tree.cells_succ, Tree.kids_mk, List.flatMap_append, List.flatMap_cons]
  rfl

theorem Stored.mid (hst : Stored h (Tree.mk a ks (L ++ c :: R))) : Stored h c where
  rep := hst.rep.kid (by simp)
  nodup := by
    have hnd := hst.nodup
    rw [cells_mid, List.nodup_cons] at hnd
    exact (List.nodup_append.mp (List.nodup_append.mp hnd.2).2.1).1
  bound := fun p hp => hst.bound p (Tree.cells_kid (by simp) hp)

/-- What a child and its siblings and parent share: nothing. -/
theorem Stored.mid_disjoint (hst : Stored h (Tree.mk a ks (L ++ c :: R))) :
    a ∉ c.cells ∧ ∀ g ∈ L ++ R, ∀ p ∈ g.cells, p ∉ c.cells := by
  have hnd := hst.nodup
  rw [cells_mid, List.nodup_cons] at hnd
  refine ⟨fun ha => hnd.1 (by simp [ha]), fun g hg p hp hpc => ?_⟩
  rcases List.mem_append.mp hg with hg | hg
  · exact (List.nodup_append.mp hnd.2).2.2 p (List.mem_flatMap.mpr ⟨g, hg, hp⟩) p
      (List.mem_append_left _ hpc) rfl
  · exact (List.nodup_append.mp (List.nodup_append.mp hnd.2).2.1).2.2 p hpc p
      (List.mem_flatMap.mpr ⟨g, hg, hp⟩) rfl

/-- **A change below is a change above.** -/
theorem Rewrites.in_kid (hst : Stored h (Tree.mk a ks (L ++ c :: R))) (hw : Rewrites h c h' c') :
    Rewrites h (Tree.mk a ks (L ++ c :: R)) h' (Tree.mk a ks (L ++ c' :: R)) := by
  obtain ⟨hac, hgc⟩ := hst.mid_disjoint
  have hold (p : Nat) (hp : p ∈ (Tree.mk a ks (L ++ c :: R)).cells) (hpc : p ∉ c.cells) :
      h'.get p = h.get p := hw.frame p hpc (hst.bound p hp)
  have hcells (p : Nat) (hp : p ∈ (Tree.mk a ks (L ++ c' :: R)).cells) :
      p ∈ (Tree.mk a ks (L ++ c :: R)).cells ∨ p ∈ c'.cells ∧ h.next ≤ p := by
    rw [cells_mid] at hp ⊢
    have := hw.cells p
    simp only [List.mem_cons, List.mem_append] at hp ⊢
    tauto
  have hrep : (Tree.mk a ks (L ++ c' :: R)).Rep h' := by
    refine ⟨?_, fun g hg => ?_⟩
    · obtain ⟨r, hget, hr⟩ := hst.rep.at
      refine ⟨r, (hold a Tree.addr_mem_cells hac).trans hget, ?_⟩
      simpa [hw.addr] using hr
    · have hg' : g ∈ L ++ R ∨ g = c' := by
        simp only [Tree.kids_mk, List.mem_append, List.mem_cons] at hg ⊢
        tauto
      rcases hg' with hg | rfl
      · have hkid : g ∈ (Tree.mk a ks (L ++ c :: R)).kids := by
          simp only [Tree.kids_mk, List.mem_append, List.mem_cons] at hg ⊢
          tauto
        exact (hst.rep.kid hkid).frame (fun p hp => hold p (Tree.cells_kid hkid hp) (hgc g hg p hp))
      · exact hw.stored.rep
  have hnodup : (Tree.mk a ks (L ++ c' :: R)).cells.Nodup := by
    have hnd := hst.nodup
    have hb := hst.bound
    rw [cells_mid] at hnd hb ⊢
    have hc' := hw.cells
    have hnd' := hw.stored.nodup
    simp only [List.nodup_cons, List.nodup_append, List.mem_append, List.mem_cons] at hnd hb ⊢
    grind
  refine ⟨⟨hrep, hnodup, fun p hp => ?_⟩, rfl, hw.next, fun p hp => ?_, fun p hp hlt => ?_⟩
  · rcases hcells p hp with hp | hp
    · exact Nat.lt_of_lt_of_le (hst.bound p hp) hw.next
    · exact hw.stored.bound p hp.1
  · exact (hcells p hp).imp_right And.right
  · refine hw.frame p (fun hpc => hp ?_) hlt
    exact Tree.cells_kid (by simp) hpc

end

section

variable {d : Nat} {h h' : Heap BTreeNode} {a : Nat} {ks ks' : List Int}
  {L M N R : List (Tree (d + 1))}

theorem flatMap_cells_perm (M : List (Tree (d + 1))) :
    (M.flatMap Tree.cells).Perm (M.map Tree.addr ++ (M.flatMap Tree.kids).flatMap Tree.cells) := by
  induction M with
  | nil => simp
  | cons g M ih =>
      simp only [List.flatMap_cons, Tree.cells_succ, List.map_cons, List.cons_append,
        List.flatMap_append]
      refine List.Perm.cons _ ((ih.append_left _).trans ?_)
      rw [← List.append_assoc, ← List.append_assoc]
      exact List.perm_append_comm.append_right _

/-- The cells of a node, with some of its children `M` taken apart into their children. -/
theorem cells_local_perm {K : List Int} : (Tree.mk a K (L ++ (M ++ R))).cells.Perm
    (a :: (L.flatMap Tree.cells ++ ((M.map Tree.addr ++ (M.flatMap Tree.kids).flatMap Tree.cells) ++
      R.flatMap Tree.cells))) := by
  rw [Tree.cells_succ, Tree.kids_mk, List.flatMap_append, List.flatMap_append]
  exact List.Perm.cons _ (((flatMap_cells_perm M).append_right _).append_left _)

/-- Of different numbers below `b` some give way to others, which may be new ones. -/
theorem nodup_replaced {a b : Nat} {L M N G R : List Nat}
    (hnd : (a :: (L ++ ((M ++ G) ++ R))).Nodup)
    (hbound : ∀ p ∈ a :: (L ++ ((M ++ G) ++ R)), p < b) (hN : N.Nodup)
    (haddr : ∀ p ∈ N, p ∈ M ∨ b ≤ p) : (a :: (L ++ ((N ++ G) ++ R))).Nodup := by
  simp only [List.nodup_cons, List.nodup_append, List.mem_append, List.mem_cons] at hnd hbound ⊢
  grind

/--
**A local change.** Some children `M` of a node become `N`, which has the same
grandchildren; only the node, the nodes of `M` and new ones are written.
-/
theorem Rewrites.of_local (hst : Stored h (Tree.mk a ks (L ++ (M ++ R)))) (hnext : h.next ≤ h'.next)
    (hout : ∀ p, p ≠ a → p ∉ M.map Tree.addr → p < h.next → h'.get p = h.get p)
    (hat : At h' a ks' ((L ++ (N ++ R)).map Tree.addr))
    (hN : ∀ g ∈ N, At h' g.addr g.keys (g.kids.map Tree.addr))
    (hkids : (N.flatMap Tree.kids).Perm (M.flatMap Tree.kids)) (hnodup : (N.map Tree.addr).Nodup)
    (haddr : ∀ p ∈ N.map Tree.addr, p ∈ M.map Tree.addr ∨ h.next ≤ p ∧ p < h'.next) :
    Rewrites h (Tree.mk a ks (L ++ (M ++ R))) h' (Tree.mk a ks' (L ++ (N ++ R))) := by
  have hp := cells_local_perm (a := a) (K := ks) (L := L) (M := M) (R := R)
  have hp' : (Tree.mk a ks' (L ++ (N ++ R))).cells.Perm (a :: (L.flatMap Tree.cells ++
      ((N.map Tree.addr ++ (M.flatMap Tree.kids).flatMap Tree.cells) ++
        R.flatMap Tree.cells))) := by
    refine cells_local_perm.trans (List.Perm.cons _ (List.Perm.append_left _ ?_))
    exact ((hkids.flatMap_right _).append_left _).append_right _
  have hnd := (hp.nodup_iff).mp hst.nodup
  have hbound : ∀ p ∈ (a :: (L.flatMap Tree.cells ++ ((M.map Tree.addr ++
      (M.flatMap Tree.kids).flatMap Tree.cells) ++ R.flatMap Tree.cells))), p < h.next :=
    fun p hmem => hst.bound p (hp.mem_iff.mpr hmem)
  obtain ⟨ha, hnd₁⟩ := List.nodup_cons.mp hnd
  obtain ⟨-, hnd₂, hapartL⟩ := List.nodup_append.mp hnd₁
  obtain ⟨hnd₃, -, hapartR⟩ := List.nodup_append.mp hnd₂
  obtain ⟨-, -, hapartM⟩ := List.nodup_append.mp hnd₃
  -- the cells beside and below `M` are neither the node's nor one of `M`'s
  have hapart : ∀ p, (p ∈ L.flatMap Tree.cells ∨ p ∈ R.flatMap Tree.cells ∨
      p ∈ (M.flatMap Tree.kids).flatMap Tree.cells) →
      p ≠ a ∧ p ∉ M.map Tree.addr ∧ p < h.next := by
    intro p hp
    have hmem : p ∈ L.flatMap Tree.cells ++ ((M.map Tree.addr ++
        (M.flatMap Tree.kids).flatMap Tree.cells) ++ R.flatMap Tree.cells) := by
      rcases hp with hp | hp | hp
      · exact List.mem_append_left _ hp
      · exact List.mem_append_right _ (List.mem_append_right _ hp)
      · exact List.mem_append_right _ (List.mem_append_left _ (List.mem_append_right _ hp))
    refine ⟨fun he => ha (he ▸ hmem), fun hM => ?_, hbound p (List.mem_cons_of_mem _ hmem)⟩
    rcases hp with hp | hp | hp
    · exact hapartL p hp p (List.mem_append_left _ (List.mem_append_left _ hM)) rfl
    · exact hapartR p (List.mem_append_left _ hM) p hp rfl
    · exact hapartM p hM p hp rfl
  have hkeep {e : Nat} {g : Tree e} (hg : g.Rep h) (hcells : ∀ p ∈ g.cells,
      p ∈ L.flatMap Tree.cells ∨ p ∈ R.flatMap Tree.cells ∨
        p ∈ (M.flatMap Tree.kids).flatMap Tree.cells) : g.Rep h' := by
    refine hg.frame fun p hp => ?_
    obtain ⟨hne, hnot, hlt⟩ := hapart p (hcells p hp)
    exact hout p hne hnot hlt
  have hLR : ∀ g ∈ L ++ R, g.Rep h' := by
    intro g hg
    have hkid : g ∈ L ++ (M ++ R) := by
      rcases List.mem_append.mp hg with hg | hg
      · exact List.mem_append_left _ hg
      · exact List.mem_append_right _ (List.mem_append_right _ hg)
    refine hkeep (hst.rep.kid hkid) fun p hp => ?_
    rcases List.mem_append.mp hg with hg | hg
    · exact .inl (List.mem_flatMap.mpr ⟨g, hg, hp⟩)
    · exact .inr (.inl (List.mem_flatMap.mpr ⟨g, hg, hp⟩))
  have hgrand : ∀ e ∈ M.flatMap Tree.kids, e.Rep h' := by
    intro e he
    obtain ⟨g, hg, heg⟩ := List.mem_flatMap.mp he
    have hkid : g ∈ L ++ (M ++ R) := List.mem_append_right _ (List.mem_append_left _ hg)
    exact hkeep ((hst.rep.kid hkid).kid heg) fun p hp =>
      .inr (.inr (List.mem_flatMap.mpr ⟨e, he, hp⟩))
  -- a new cell takes the place of one of `M`'s or comes from behind the heap
  have hcells : ∀ p ∈ (Tree.mk a ks' (L ++ (N ++ R))).cells,
      p ∈ (Tree.mk a ks (L ++ (M ++ R))).cells ∨ h.next ≤ p ∧ p < h'.next := by
    intro p hmem
    have hmem := hp'.mem_iff.mp hmem
    rw [hp.mem_iff]
    simp only [List.mem_cons, List.mem_append] at hmem ⊢
    rcases hmem with hpa | hpL | (hpN | hpG) | hpR
    · exact .inl (.inl hpa)
    · exact .inl (.inr (.inl hpL))
    · rcases haddr p hpN with hpM | hfresh
      · exact .inl (.inr (.inr (.inl (.inl hpM))))
      · exact .inr hfresh
    · exact .inl (.inr (.inr (.inl (.inr hpG))))
    · exact .inl (.inr (.inr (.inr hpR)))
  refine ⟨⟨⟨hat, fun g hg => ?_⟩, ?_, fun p hmem => ?_⟩, rfl, hnext, fun p hmem => ?_,
    fun p hmem hlt => ?_⟩
  · rcases List.mem_append.mp hg with hg | hg
    · exact hLR g (List.mem_append_left _ hg)
    · rcases List.mem_append.mp hg with hg | hg
      · refine ⟨hN g hg, fun e he => hgrand e ?_⟩
        exact hkids.mem_iff.mp (List.mem_flatMap.mpr ⟨g, hg, he⟩)
      · exact hLR g (List.mem_append_right _ hg)
  · refine hp'.nodup_iff.mpr (nodup_replaced hnd hbound hnodup fun p hmem => ?_)
    exact (haddr p hmem).imp id And.left
  · rcases hcells p hmem with hold | hfresh
    · exact Nat.lt_of_lt_of_le (hst.bound p hold) hnext
    · exact hfresh.2
  · exact (hcells p hmem).imp id And.left
  · have hnot := mt hp.mem_iff.mpr hmem
    refine hout p (fun hpa => hnot (hpa ▸ List.mem_cons_self)) (fun hpM => hnot ?_) hlt
    refine List.mem_cons_of_mem _ (List.mem_append_right _ (List.mem_append_left _ ?_))
    exact List.mem_append_left _ hpM

end

/-! ## Traversal -/

theorem exists_split {α : Type} {l : List α} {i : Nat} (hi : i < l.length) :
    ∃ l₁ x l₂, l = l₁ ++ x :: l₂ ∧ l₁.length = i :=
  ⟨l.take i, l[i], l.drop (i + 1), by simp, by simp; omega⟩

theorem Holds.loads_key {t p i : Nat} {h : Heap BTreeNode} {r : BTreeNode} {ks : List Int}
    {cs : List Nat} {k : Int} (hr : Holds r ks cs) (hget : h.get p = some r)
    (ht : 2 * t < 2 ^ 31) (hlen : ks.length ≤ 2 * t - 1) (hk : ks[i]? = some k) :
    h.load (keysOf t) p i = some k := by
  obtain ⟨hi, -⟩ := List.getElem?_eq_some_iff.mp hk
  rw [load_eq hget (by rw [keysOf_size ht]; omega)]
  exact (hr.key i hi).symm.trans hk

theorem Holds.loads_child {t p i : Nat} {h : Heap BTreeNode} {r : BTreeNode} {ks : List Int}
    {cs : List Nat} (hr : Holds r ks cs) (hget : h.get p = some r) (hi : cs = [] ∨ i < cs.length)
    (ht : 2 * t < 2 ^ 31) (hlen : i < 2 * t) : h.load (childrensOf t) p i = some cs[i]? := by
  rw [load_eq hget (by rw [childrensOf_size ht]; exact hlen)]
  exact congrArg some (hr.child i hi)

theorem traverse_keys {t p : Nat} {h : Heap BTreeNode} {r : BTreeNode} {ks : List Int}
    {cs : List Nat} (hr : Holds r ks cs) (hget : h.get p = some r) (ht : 2 * t < 2 ^ 31)
    (hlen : ks.length ≤ 2 * t - 1) :
    forUp (fun i out => (h.load (keysOf t) p i).bind (fun k => some (out ++ [k]))) 0 ks.length [] =
      some ks := by
  have hloop := forUp_eq (fun i out => (h.load (keysOf t) p i).bind (fun k => some (out ++ [k])))
    (fun i => ks.take i) 0 ks.length (fun i _ hi => ?_)
  · rwa [Nat.zero_add, List.take_length] at hloop
  · obtain ⟨k, hk⟩ : ∃ k, ks[i]? = some k := ⟨_, List.getElem?_eq_getElem (by omega)⟩
    rw [hr.loads_key hget ht hlen hk, Option.bind_some, List.take_add_one, hk]
    rfl

/-- Reading the pointer to the child singled out. -/
theorem Holds.loads_mid {d t p i : Nat} {h : Heap BTreeNode} {r : BTreeNode} {ks : List Int}
    {L R : List (Tree d)} {c : Tree d} (hr : Holds r ks ((L ++ c :: R).map Tree.addr))
    (hget : h.get p = some r) (ht : 2 * t < 2 ^ 31) (hi : L.length = i) (hlen : i < 2 * t) :
    h.load (childrensOf t) p i = some (some c.addr) := by
  rw [hr.loads_child hget (.inr (by simp; omega)) ht hlen]
  simp [← hi]

/-- `btree_traverse` prints the keys from left to right. -/
theorem btreeTraverse_eq {d t lo fuel : Nat} {h : Heap BTreeNode} {n : Tree d} (ht : Degree t)
    (hr : n.Rep h) (hs : n.Shape t lo) (hfuel : d ≤ fuel) :
    btreeTraverse t h fuel n.addr = some n.inorder := by
  induction d generalizing lo fuel with
  | zero => exact Empty.elim n
  | succ d ih =>
      obtain ⟨fuel, rfl⟩ : ∃ m, fuel = m + 1 := ⟨fuel - 1, by omega⟩
      obtain ⟨r, hget, hold⟩ := hr.at
      have hlen := hs.high
      unfold btreeTraverse
      simp only [hget, Option.bind_eq_bind, Option.bind_some]
      rw [hold.num, n.inorder_succ]
      cases d with
      | zero =>
          have hleaf : r.leaf = true := hold.leaf.mpr (by rw [Tree.eq_nil n.kids]; rfl)
          rw [Tree.eq_nil n.kids]
          simp only [hleaf, List.map_nil, Bool.true_eq_false, if_false, Option.bind_some,
            weave_nil_left]
          rw [traverse_keys hold hget ht.2 hlen]
          rfl
      | succ d =>
          have hkids := hs.kids_length
          have hleaf : r.leaf = false := by
            refine Bool.eq_false_iff.mpr (fun hl => ?_)
            simp [List.map_eq_nil_iff.mp (hold.leaf.mp hl)] at hkids
          -- one child, read by the induction hypothesis
          have hvisit (i : Nat) (out : List Int) {c : Tree (d + 1)} (hc : n.kids[i]? = some c) :
              ((h.load (childrensOf t) n.addr i).bind (fun p => p.bind (fun p =>
                (btreeTraverse t h fuel p).bind (fun l => some (out ++ l))))) =
                some (out ++ c.inorder) := by
            obtain ⟨hi, -⟩ := List.getElem?_eq_some_iff.mp hc
            have hmem : c ∈ n.kids := List.mem_of_getElem? hc
            rw [hold.loads_child hget (.inr (by simpa using hi)) ht.2 (by omega),
              List.getElem?_map, hc]
            simp only [Option.map_some, Option.bind_some]
            rw [ih (hr.kid hmem) (hs.kid hmem) (by omega)]
            rfl
          simp only [hleaf, if_true]
          have hloop := forUp_eq (fun i out =>
            ((h.load (childrensOf t) n.addr i).bind (fun p => p.bind (fun p =>
              (btreeTraverse t h fuel p).bind (fun l => some (out ++ l))))).bind
            (fun out => (h.load (keysOf t) n.addr i).bind (fun k => some (out ++ [k]))))
            (fun i => weave ((n.kids.map Tree.inorder).take i) (n.keys.take i))
            0 n.keys.length (fun i _ hi => ?_)
          · rw [Nat.zero_add, List.take_length] at hloop
            obtain ⟨c, hc⟩ : ∃ c, n.kids[n.keys.length]? = some c :=
              ⟨_, List.getElem?_eq_getElem (by omega)⟩
            rw [weave_last (c := c.inorder) (by simpa using hkids)
              (by rw [List.getElem?_map, hc]; rfl)]
            exact (congrArg (Option.bind · _) hloop).trans (hvisit _ _ hc)
          · obtain ⟨k, hk⟩ : ∃ k, n.keys[i]? = some k := ⟨_, List.getElem?_eq_getElem (by omega)⟩
            obtain ⟨c, hc⟩ : ∃ c, n.kids[i]? = some c := ⟨_, List.getElem?_eq_getElem (by omega)⟩
            rw [hvisit i _ hc, Option.bind_some, hold.loads_key hget ht.2 hlen hk, Option.bind_some,
              weave_take_succ (by rw [List.getElem?_map, hc]; rfl) hk, List.append_assoc]

/--
`T` holds the well-formed tree `n`. The root may have any number of keys up to
`2 * t - 1`, also none.
-/
structure WellFormed (T : BTree) {d : Nat} (n : Tree (d + 1)) : Prop where
  degree : 2 ≤ T.t
  root : T.root = some n.addr
  stored : Stored T.heap n
  shape : n.Shape T.t 0
  ordered : n.Ordered

theorem WellFormed.sorted {T : BTree} {d : Nat} {n : Tree (d + 1)} (hwf : WellFormed T n) :
    Sorted n.inorder := (Tree.ordered_iff_sorted hwf.shape).mp hwf.ordered

theorem traverse_eq {T : BTree} {d lo : Nat} {n : Tree (d + 1)} (ht : Degree T.t)
    (hroot : T.root = some n.addr) (hst : Stored T.heap n) (hs : n.Shape T.t lo) :
    traverse T = some n.inorder := by
  have hheight := hst.height_le hs
  rw [traverse, hroot, Option.bind_some]
  exact btreeTraverse_eq ht hst.rep hs (by omega)

theorem WellFormed.traverse {T : BTree} {d : Nat} {n : Tree (d + 1)} (hwf : WellFormed T n)
    (hint : 2 * T.t < 2 ^ 31) : traverse T = some n.inorder :=
  traverse_eq ⟨hwf.degree, hint⟩ hwf.root hwf.stored hwf.shape

/-- The tree `btree_create` makes. -/
theorem btreeCreate_wellFormed {t : Nat} (ht : 2 ≤ t) :
    WellFormed (btreeCreate t) (Tree.mk 0 [] ([] : List (Tree 0))) where
  degree := ht
  root := rfl
  stored := by
    refine ⟨⟨⟨_, get_alloc_self _ _, ?_⟩, by simp⟩, by simp [Tree.cells_succ], ?_⟩
    · exact ⟨rfl, by simp, by simp, by simp⟩
    · intro p hp
      obtain rfl : p = 0 := by simpa [Tree.cells_succ] using hp
      exact Nat.zero_lt_one
  shape := Tree.shape_mk.mpr ⟨by simp, by simp, by simp, by simp⟩
  ordered := ⟨List.Pairwise.nil, by simp [Separates], by simp⟩

end CppTrack.Storage
