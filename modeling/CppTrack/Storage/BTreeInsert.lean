import Mathlib.Data.List.Induction
import CppTrack.Lib.Run
import CppTrack.Storage.BTreeShape

/-!
# Insertion into the B-tree

`btree_insert` splits full nodes on its way down, so that the leaf it reaches has
room. A split moves keys and children between three nodes without changing what the
tree reads as; the leaf then takes the new key. Both are `Rewrites` of the subtree
they happen in, and `Rewrites.in_kid` carries them up to the root.
-/

namespace CppTrack.Storage

open Lib Heap

/-! ## The two scans -/

/--
`insertScan` stops behind the last key at most `k`, so every key it passed is larger.
Sortedness is not needed for this.
-/
theorem insertScan_spec {t x : Nat} {h : Heap BTreeNode} {r : BTreeNode} {ks : List Int}
    {cs : List Nat} (k : Int) (ht : 2 * t < 2 ^ 31) (hget : h.get x = some r) (hr : Holds r ks cs)
    (hlen : ks.length ≤ 2 * t - 1) :
    ∃ A B, ks = A ++ B ∧ insertScan t h x k ks.length = some A.length ∧ (∀ b ∈ B, k < b) ∧
      ∀ a, A.getLast? = some a → a ≤ k := by
  suffices hmain : ∀ C D, ks = C ++ D → ∃ A B, C = A ++ B ∧
      insertScan t h x k C.length = some A.length ∧ (∀ b ∈ B, k < b) ∧
      ∀ a, A.getLast? = some a → a ≤ k from hmain ks [] (List.append_nil ks).symm
  intro C
  induction C using List.reverseRecOn with
  | nil => exact fun D _ => ⟨[], [], rfl, rfl, by simp, by simp⟩
  | append_singleton C c ih =>
      intro D hks
      have hc : ks[C.length]? = some c := by simp [hks]
      rw [List.length_append, List.length_singleton, insertScan, hr.loads_key hget ht hlen hc]
      simp only [Option.bind_eq_bind, Option.bind_some]
      by_cases hck : c > k
      · obtain ⟨A, B, rfl, hscan, hB, hA⟩ := ih (c :: D) (by simp [hks])
        refine ⟨A, B ++ [c], by simp, by rw [if_pos hck, hscan], ?_, hA⟩
        intro b hb
        rcases List.mem_append.mp hb with hb | hb
        · exact hB b hb
        · exact (List.mem_singleton.mp hb) ▸ hck
      · refine ⟨C ++ [c], [], by simp, by rw [if_neg hck]; simp, by simp, ?_⟩
        intro a ha
        obtain rfl : c = a := by simpa using ha
        omega

/-- `insertShift` stops where `insertScan` does, having moved the rest up by one. -/
theorem insertShift_eq {t x N : Nat} {h : Heap BTreeNode} {r : BTreeNode} {k : Int}
    (ht : 2 * t < 2 ^ 31) (hget : h.get x = some r) (hN : N < 2 * t - 1) {j : Nat} :
    ∀ m, m ≤ N → insertScan t h x k m = some j →
      insertShift t x k m (h.put x { r with keys := movedUp r.keys m (N - m) }) =
        some (j, h.put x { r with keys := movedUp r.keys j (N - j) }) := by
  intro m
  induction m with
  | zero =>
      intro _ hscan
      obtain rfl : 0 = j := Option.some.inj hscan
      rfl
  | succ m ih =>
      intro hm hscan
      have hkz := keysOf_size (t := t) (by omega)
      have hread : movedUp r.keys (m + 1) (N - (m + 1)) m = r.keys m := if_neg (by omega)
      rw [insertScan, load_eq hget (by omega)] at hscan
      simp only [Option.bind_eq_bind, Option.bind_some] at hscan
      rw [insertShift, load_eq (get_put_self _ _ _) (by omega)]
      simp only [Option.bind_eq_bind, Option.bind_some]
      rw [show (keysOf t).read { r with keys := movedUp r.keys (m + 1) (N - (m + 1)) } m =
        (keysOf t).read r m from hread]
      split
      · rename_i hgt
        rw [if_pos hgt] at hscan
        rw [store_eq (get_put_self _ _ _) (by omega), Option.bind_some, put_put,
          ← ih (by omega) hscan]
        congr 3
        have hsucc := movedUp_succ r.keys m (N - (m + 1))
        rw [show N - (m + 1) + 1 = N - m by omega] at hsucc
        rw [← hsucc]
        rfl
      · rename_i hgt
        rw [if_neg hgt] at hscan
        obtain rfl : m + 1 = j := Option.some.inj hscan
        rfl

/-! ## The leaf -/

/-- A leaf with a key put in at place `j`. -/
def insertedRecord (r : BTreeNode) (j : Nat) (k : Int) : BTreeNode where
  keys := Function.update (movedUp r.keys j (r.num - j)) j k
  childrens := r.childrens
  num := r.num + 1
  leaf := r.leaf

theorem Holds.insertedRecord {r : BTreeNode} {A B : List Int} {cs : List Nat}
    (hr : Holds r (A ++ B) cs) (k : Int) :
    Holds (insertedRecord r A.length k) (A ++ k :: B) cs := by
  obtain ⟨hn, hk, hc, hl⟩ := hr
  refine ⟨?_, fun i hi => ?_, hc, hl⟩
  · simp [Storage.insertedRecord, hn]; omega
  · simp only [Storage.insertedRecord, movedUp, Function.update_apply, hn]
    grind

theorem btreeInsertNonfull_leaf {t x : Nat} {h : Heap BTreeNode} {r : BTreeNode}
    {ks : List Int} (fuel : Nat) (k : Int) (ht : 2 * t < 2 ^ 31) (hget : h.get x = some r)
    (hr : Holds r ks []) (hlen : ks.length < 2 * t - 1) :
    ∃ A B, ks = A ++ B ∧ (∀ b ∈ B, k < b) ∧ (∀ a, A.getLast? = some a → a ≤ k) ∧
      btreeInsertNonfull t (fuel + 1) h x k =
        some (h.put x (insertedRecord r A.length k)) := by
  have hkz := keysOf_size (t := t) (by omega)
  obtain ⟨A, B, hks, hscan, hB, hA⟩ := insertScan_spec k (by omega) hget hr (t := t) (by omega)
  refine ⟨A, B, hks, hB, hA, ?_⟩
  have hshift := insertShift_eq ht hget hlen ks.length (Nat.le_refl _) hscan
  rw [Nat.sub_self, movedUp_zero, put_self hget] at hshift
  have hAlen : A.length ≤ ks.length := by rw [hks, List.length_append]; omega
  rw [btreeInsertNonfull]
  simp only [Option.bind_eq_bind, hget, Option.bind_some]
  rw [if_pos (hr.leaf.mpr rfl), hr.num, hshift]
  simp only [Option.bind_some]
  rw [store_eq (get_put_self _ _ _) (by omega), Option.bind_some, put_put,
    modify_eq (get_put_self _ _ _), put_put]
  unfold insertedRecord
  rw [hr.num]
  rfl

/-! ## Splitting -/

theorem Holds.lowerHalf {t : Nat} {r : BTreeNode} {Y₁ Y₂ : List Int} {m : Int} {C₁ C₂ : List Nat}
    (hr : Holds r (Y₁ ++ m :: Y₂) (C₁ ++ C₂)) (hY : Y₁.length = t - 1)
    (hC : C₁ = [] ↔ C₂ = []) : Holds { r with num := t - 1 } Y₁ C₁ := by
  obtain ⟨hn, hk, hc, hl⟩ := hr
  refine ⟨hY.symm, fun i hi => ?_, fun i hi => ?_, ?_⟩
  · grind
  · grind
  · simp only [hl, List.append_eq_nil_iff]
    tauto

theorem Holds.splitRecord {t : Nat} {r : BTreeNode} {Y₁ Y₂ : List Int} {m : Int} {C₁ C₂ : List Nat}
    (hr : Holds r (Y₁ ++ m :: Y₂) (C₁ ++ C₂)) (ht : Degree t) (hY₁ : Y₁.length = t - 1)
    (hY₂ : Y₂.length = t - 1) (hC : C₁ = [] ∧ C₂ = [] ∨ C₁.length = t ∧ C₂.length = t) :
    Holds (splitRecord t r) Y₂ C₂ := by
  have hleaf := hr.leaf
  rw [List.append_eq_nil_iff] at hleaf
  refine ⟨hY₂.symm, fun i hi => ?_, fun i hi => ?_, ?_⟩
  · have hk := hr.key (t + i) (by grind)
    simp only [Storage.splitRecord, copied]
    grind
  · have hc := hr.child (t + i) (by grind)
    unfold Storage.splitRecord copied
    dsimp only
    split
    · grind
    · grind
  · unfold Storage.splitRecord
    grind

theorem Holds.splitParent {r : BTreeNode} {A B : List Int} {L R : List Nat} {y z : Nat} {m : Int}
    (hr : Holds r (A ++ B) (L ++ y :: R)) (hA : L.length = A.length) (hB : R.length = B.length) :
    Holds (splitParent r A.length z m) (A ++ m :: B) (L ++ y :: z :: R) := by
  obtain ⟨hn, hk, hc, hl⟩ := hr
  refine ⟨?_, fun i hi => ?_, fun i hi => ?_, ?_⟩
  · simp [Storage.splitParent, hn]; omega
  · simp only [Storage.splitParent, movedUp, Function.update_apply, hn]
    grind
  · simp only [Storage.splitParent, movedUp, Function.update_apply, hn]
    grind
  · simp [Storage.splitParent, hl]

section

variable {d t a b : Nat} {A B Y₁ Y₂ : List Int} {m : Int} {C₁ C₂ : List (Tree d)}
  {L R : List (Tree (d + 1))} {h : Heap BTreeNode} (ht : Degree t)
  (hst : Stored h (Tree.mk a (A ++ B) (L ++ Tree.mk b (Y₁ ++ m :: Y₂) (C₁ ++ C₂) :: R)))
  (hL : L.length = A.length) (hR : R.length = B.length) (hroom : (A ++ B).length < 2 * t - 1)
  (hY₁ : Y₁.length = t - 1) (hY₂ : Y₂.length = t - 1)
  (hC : C₁ = [] ∧ C₂ = [] ∨ C₁.length = t ∧ C₂.length = t)
include ht hst hL hR hroom hY₁ hY₂ hC

/-- `btree_split_child` on a full child: its middle key moves up and its upper half out. -/
theorem btreeSplitChild_spec :
    ∃ h', btreeSplitChild t h a A.length = some h' ∧
      Rewrites h (Tree.mk a (A ++ B) (L ++ Tree.mk b (Y₁ ++ m :: Y₂) (C₁ ++ C₂) :: R)) h'
        (Tree.mk a (A ++ m :: B) (L ++ Tree.mk b Y₁ C₁ :: Tree.mk h.next Y₂ C₂ :: R)) := by
  obtain ⟨ra, hgeta, hra⟩ := hst.rep.at
  obtain ⟨rb, hgetb, hrb⟩ := hst.mid.rep.at
  simp only [Tree.keys_mk, Tree.kids_mk, Tree.addr_mk, List.map_append, List.map_cons]
    at hgeta hgetb hra hrb
  have hab : a ≠ b := fun he => hst.mid_disjoint.1 (he ▸ Tree.addr_mem_cells)
  have han : a ≠ h.next := Nat.ne_of_lt (hst.bound a Tree.addr_mem_cells)
  have hbn : b ≠ h.next := Nat.ne_of_lt (hst.mid.bound b Tree.addr_mem_cells)
  have hm : rb.keys (t - 1) = m := by
    have hk := hrb.key (t - 1) (by simp; omega)
    rw [List.getElem?_append_right (by omega), hY₁, Nat.sub_self] at hk
    exact (Option.some.inj hk).symm
  have hchild : ra.childrens A.length = some b := by
    rw [hra.child _ (.inr (by simp; omega)), List.getElem?_append_right (by simp; omega)]
    simp [hL]
  have hnum : ra.num = (A ++ B).length := hra.num
  have hsplit := btreeSplitChild_eq (i := A.length) ht hgeta hgetb hab han hbn hchild
    (by simp [hnum]) (by omega)
  rw [hm] at hsplit
  refine ⟨_, hsplit, Rewrites.of_local (M := [Tree.mk b (Y₁ ++ m :: Y₂) (C₁ ++ C₂)])
    (N := [Tree.mk b Y₁ C₁, Tree.mk h.next Y₂ C₂]) hst (by simp) ?_ ?_ ?_ (by simp)
    (by simpa using hbn) (by simp)⟩
  · intro p hpa hpb hlt
    have hpb : p ≠ b := by simpa using hpb
    rw [get_put_of_ne _ _ hpa, get_put_of_ne _ _ hpb, get_alloc_of_ne _ _ (by omega)]
  · refine ⟨_, get_put_self _ _ _, ?_⟩
    have hpar := hra.splitParent (z := h.next) (m := m) (by simpa using hL) (by simpa using hR)
    simpa using hpar
  · -- the two halves
    simp only [List.mem_cons, List.not_mem_nil, or_false]
    rintro g (rfl | rfl)
    · refine ⟨_, (get_put_of_ne _ _ hab.symm).trans (get_put_self _ _ _), hrb.lowerHalf hY₁ ?_⟩
      rcases hC with ⟨h₁, h₂⟩ | ⟨h₁, h₂⟩
      · simp [h₁, h₂]
      · simp only [List.map_eq_nil_iff]
        rw [← List.length_eq_zero_iff, ← List.length_eq_zero_iff, h₁, h₂]
    · refine ⟨splitRecord t rb, ?_, hrb.splitRecord ht hY₁ hY₂ (by simpa using hC)⟩
      rw [Tree.addr_mk, get_put_of_ne _ _ han.symm, get_put_of_ne _ _ hbn.symm, get_alloc_self]

end

/-- A full node is two nodes of `t - 1` keys and a key between them. -/
theorem exists_halves {d t lo : Nat} {c : Tree (d + 1)} (ht : Degree t) (hs : c.Shape t lo)
    (hfull : c.keys.length = 2 * t - 1) :
    ∃ Y₁ m Y₂ C₁ C₂, c = Tree.mk c.addr (Y₁ ++ m :: Y₂) (C₁ ++ C₂) ∧ Y₁.length = t - 1 ∧
      Y₂.length = t - 1 ∧ (C₁ = [] ∧ C₂ = [] ∨ C₁.length = t ∧ C₂.length = t) := by
  obtain ⟨Y₁, m, Y₂, hY, hY₁⟩ := exists_split (l := c.keys) (i := t - 1) (by omega)
  have hY₂ : Y₂.length = t - 1 := by
    rw [hY, List.length_append, List.length_cons] at hfull
    omega
  refine ⟨Y₁, m, Y₂, c.kids.take t, c.kids.drop t, ?_, hY₁, hY₂, ?_⟩
  · rw [← hY, List.take_append_drop, Tree.mk_eta]
  · cases d with
    | zero =>
        rw [Tree.eq_nil c.kids]
        simp
    | succ d =>
        have hkids := hs.kids_length
        right
        simp only [List.length_take, List.length_drop]
        omega

/-! ## The descent -/

/-- What inserting `k` into the subtree `n` leaves behind. -/
structure Inserts {d : Nat} (t : Nat) (k : Int) (h : Heap BTreeNode) (n : Tree (d + 1))
    (h' : Heap BTreeNode) (n' : Tree (d + 1)) : Prop where
  rewrites : Rewrites h n h' n'
  shape : ∀ lo, n.Shape t lo → n'.Shape t lo
  perm : n'.inorder.Perm (k :: n.inorder)
  sorted : Sorted n.inorder → Sorted n'.inorder

section

variable {d t a : Nat} {A B : List Int} {L R : List (Tree (d + 1))} {c c' : Tree (d + 1)} {k : Int}
  {h h' : Heap BTreeNode}

/-- Inserting into the child between the keys at most `k` and those at least `k`. -/
theorem Inserts.in_kid (hst : Stored h (Tree.mk a (A ++ B) (L ++ c :: R)))
    (hL : L.length = A.length) (hR : R.length = B.length)
    (hA : ∀ x, A.getLast? = some x → x ≤ k) (hB : ∀ x, B.head? = some x → k ≤ x)
    (hi : Inserts t k h c h' c') :
    Inserts t k h (Tree.mk a (A ++ B) (L ++ c :: R)) h' (Tree.mk a (A ++ B) (L ++ c' :: R)) where
  rewrites := hi.rewrites.in_kid hst
  shape := by
    intro lo hs
    rw [Tree.shape_mk] at hs ⊢
    refine ⟨hs.1, hs.2.1, fun hd => by simpa using hs.2.2.1 hd, fun g hg => ?_⟩
    rcases List.mem_append.mp hg with hg | hg
    · exact hs.2.2.2 g (by simp [hg])
    · rcases List.mem_cons.mp hg with rfl | hg
      · exact hi.shape _ (hs.2.2.2 c (by simp))
      · exact hs.2.2.2 g (by simp [hg])
  perm := by
    rw [Tree.inorder_mid hL, Tree.inorder_mid hL]
    exact ((hi.perm.append_right _).append_left _).trans List.perm_middle
  sorted := by
    intro hs
    rw [Tree.inorder_mid hL] at hs ⊢
    refine sorted_insert hs (hi.sorted hs.right.left) hi.perm (fun x hx => ?_) (fun x hx => ?_)
    · exact le_of_mem_weave (by simpa using hL) hs.left hA hx
    · exact le_of_mem_weaveTail (by simpa using hR) hs.right.right hB hx

end

section

variable {d t lo a b z : Nat} {A B Y₁ Y₂ : List Int} {m : Int} {C₁ C₂ : List (Tree d)}
  {L R : List (Tree (d + 1))} (ht : Degree t)
  (hY₁ : Y₁.length = t - 1) (hY₂ : Y₂.length = t - 1)
  (hC : C₁ = [] ∧ C₂ = [] ∨ C₁.length = t ∧ C₂.length = t)
include ht hY₁ hY₂ hC

theorem split_shape (hroom : (A ++ B).length < 2 * t - 1)
    (hs : (Tree.mk a (A ++ B) (L ++ Tree.mk b (Y₁ ++ m :: Y₂) (C₁ ++ C₂) :: R)).Shape t lo) :
    (Tree.mk a (A ++ m :: B) (L ++ Tree.mk b Y₁ C₁ :: Tree.mk z Y₂ C₂ :: R)).Shape t lo := by
  have hc : (Tree.mk b (Y₁ ++ m :: Y₂) (C₁ ++ C₂)).Shape t (t - 1) := hs.kid (by simp)
  rw [Tree.shape_mk] at hs hc
  -- in an internal child both halves have one child more than keys
  have hkids : d ≠ 0 → C₁.length = t ∧ C₂.length = t := by
    intro hd
    have := hc.2.2.1 hd
    rcases hC with ⟨rfl, rfl⟩ | hC
    · simp at this
    · exact hC
  refine Tree.shape_mk.mpr ⟨?_, ?_, fun hd => ?_, fun g hg => ?_⟩
  · have := hs.1
    simp only [List.length_append, List.length_cons] at this ⊢
    omega
  · simp only [List.length_append, List.length_cons] at hroom ⊢
    omega
  · have := hs.2.2.1 hd
    simp only [List.length_append, List.length_cons] at this ⊢
    omega
  · simp only [List.mem_append, List.mem_cons] at hg
    rcases hg with hg | rfl | rfl | hg
    · exact hs.2.2.2 g (by simp [hg])
    · refine Tree.shape_mk.mpr ⟨by omega, by omega, fun hd => ?_, fun e he => ?_⟩
      · have := (hkids hd).1
        omega
      · exact hc.2.2.2 e (by simp [he])
    · refine Tree.shape_mk.mpr ⟨by omega, by omega, fun hd => ?_, fun e he => ?_⟩
      · have := (hkids hd).2
        omega
      · exact hc.2.2.2 e (by simp [he])
    · exact hs.2.2.2 g (by simp [hg])

theorem split_inorder (hL : L.length = A.length) :
    (Tree.mk a (A ++ m :: B) (L ++ Tree.mk b Y₁ C₁ :: Tree.mk z Y₂ C₂ :: R)).inorder =
      (Tree.mk a (A ++ B) (L ++ Tree.mk b (Y₁ ++ m :: Y₂) (C₁ ++ C₂) :: R)).inorder := by
  have hC' : C₁ = [] ∧ C₂ = [] ∨ C₁.length = Y₁.length + 1 := by
    rcases hC with hC | hC
    · exact .inl hC
    · exact .inr (by omega)
  rw [Tree.inorder_mid₂ hL, Tree.inorder_mid hL, Tree.inorder_join z hC']

end

/-- The leaf takes the key behind those at most `k`. -/
theorem Inserts.leaf {t a : Nat} {A B : List Int} {k : Int} {h : Heap BTreeNode} {r : BTreeNode}
    (hst : Stored h (Tree.mk a (A ++ B) ([] : List (Tree 0)))) (hr : Holds r (A ++ B) [])
    (hroom : (A ++ B).length < 2 * t - 1)
    (hA : ∀ x, A.getLast? = some x → x ≤ k) (hB : ∀ x ∈ B, k < x) :
    Inserts t k h (Tree.mk a (A ++ B) ([] : List (Tree 0)))
      (h.put a (insertedRecord r A.length k)) (Tree.mk a (A ++ k :: B) []) := by
  have hread (ks : List Int) : (Tree.mk a ks ([] : List (Tree 0))).inorder = ks := by
    rw [Tree.inorder_succ]
    exact weave_nil_left ks
  refine ⟨⟨⟨⟨?_, by simp⟩, hst.nodup, hst.bound⟩, rfl, Nat.le_refl _, fun p hp => .inl hp, ?_⟩,
    ?_, ?_, ?_⟩
  · exact ⟨_, get_put_self _ _ _, hr.insertedRecord k⟩
  · intro p hp _
    exact get_put_of_ne _ _ (fun he => hp (he ▸ Tree.addr_mem_cells))
  · intro lo hlo
    rw [Tree.shape_mk] at hlo ⊢
    simp only [List.length_append, List.length_cons] at hlo hroom ⊢
    exact ⟨by omega, by omega, by simp, by simp⟩
  · rw [hread, hread]
    exact List.perm_middle
  · rw [hread, hread]
    intro hs
    have hs' : Sorted (A ++ ([] ++ B)) := hs
    exact sorted_insert (D := [k]) hs' (List.pairwise_singleton _ _) (List.Perm.refl _)
      (fun x hx => hs.left.le_last hA hx) (fun x hx => Int.le_of_lt (hB x hx))

section

variable {d t lo a : Nat} {A B : List Int} {L R : List (Tree (d + 1))} {c₁ c₂ : Tree (d + 1)}
  {k m : Int} {h : Heap BTreeNode}

/--
The two halves of a split child: the descent goes right of the key that moved up when
`k` is larger, else left of it.
-/
theorem insert_half (fuel : Nat) (ht : Degree t)
    (hst : Stored h (Tree.mk a (A ++ m :: B) (L ++ c₁ :: c₂ :: R)))
    (hs : (Tree.mk a (A ++ m :: B) (L ++ c₁ :: c₂ :: R)).Shape t lo)
    (hL : L.length = A.length) (hR : R.length = B.length)
    (hA : ∀ x, A.getLast? = some x → x ≤ k) (hB : ∀ x, B.head? = some x → k ≤ x)
    (hc₁ : c₁.keys.length = t - 1) (hc₂ : c₂.keys.length = t - 1)
    (hins : ∀ c : Tree (d + 1), Stored h c → c.Shape t (t - 1) → c.keys.length < 2 * t - 1 →
      ∃ h' c', btreeInsertNonfull t fuel h c.addr k = some h' ∧ Inserts t k h c h' c') :
    ∃ h' n', (((h.load (keysOf t) a A.length).bind (fun km =>
        (h.load (childrensOf t) a (if k > km then A.length + 1 else A.length)).bind (fun p =>
          p.bind (fun c => btreeInsertNonfull t fuel h c k))))) = some h' ∧
      Inserts t k h (Tree.mk a (A ++ m :: B) (L ++ c₁ :: c₂ :: R)) h' n' := by
  obtain ⟨r, hget, hr⟩ : At h a (A ++ m :: B) _ := hst.rep.at
  have hhigh : (A ++ m :: B).length ≤ 2 * t - 1 := hs.high
  rw [hr.loads_key hget ht.2 hhigh (show (A ++ m :: B)[A.length]? = some m by simp),
    Option.bind_some]
  simp only [List.length_append, List.length_cons] at hhigh
  by_cases hkm : k > m
  · rw [if_pos hkm]
    rw [List.append_cons A m B, List.append_cons L _ (_ :: R)] at hst hs hr ⊢
    have hlen : (L ++ [c₁]).length = A.length + 1 := by simp [hL]
    obtain ⟨h', c', hins', hi⟩ := hins c₂ hst.mid (hs.kid (by simp)) (by omega)
    rw [hr.loads_mid hget ht.2 hlen (by omega)]
    refine ⟨h', _, hins', hi.in_kid hst (by simp [hL]) hR (fun x hx => ?_) hB⟩
    obtain rfl : m = x := by simpa using hx
    omega
  · rw [if_neg hkm]
    obtain ⟨h', c', hins', hi⟩ := hins c₁ hst.mid (hs.kid (by simp)) (by omega)
    rw [hr.loads_mid hget ht.2 hL (by omega)]
    refine ⟨h', _, hins', hi.in_kid hst hL (by simp [hR]) hA (fun x hx => ?_)⟩
    obtain rfl : m = x := by simpa using hx
    omega

end

/--
**`btree_insert_nonfull` is insertion.** By induction on the height: the scan picks
the child `k` belongs to, a full child is split first and the half re-chosen.
-/
theorem btreeInsertNonfull_spec {t : Nat} (ht : Degree t) (k : Int) {d lo : Nat} (n : Tree (d + 1))
    (fuel : Nat) (h : Heap BTreeNode) (hst : Stored h n) (hs : n.Shape t lo)
    (hroom : n.keys.length < 2 * t - 1) (hfuel : d < fuel) :
    ∃ h' n', btreeInsertNonfull t fuel h n.addr k = some h' ∧ Inserts t k h n h' n' := by
  induction d generalizing lo fuel h with
  | zero =>
      obtain ⟨fuel, rfl⟩ : ∃ m, fuel = m + 1 := ⟨fuel - 1, by omega⟩
      obtain ⟨a, ks, cs, rfl⟩ : ∃ a ks cs, n = Tree.mk a ks cs := ⟨_, _, _, rfl⟩
      obtain rfl : cs = [] := Tree.eq_nil cs
      obtain ⟨r, hget, hr⟩ := hst.rep.at
      obtain ⟨A, B, rfl, hB, hA, hins⟩ := btreeInsertNonfull_leaf fuel k ht.2 hget hr hroom
      exact ⟨_, _, hins, .leaf hst hr hroom hA hB⟩
  | succ d ih =>
      obtain ⟨fuel, rfl⟩ : ∃ m, fuel = m + 1 := ⟨fuel - 1, by omega⟩
      obtain ⟨a, ks, cs, rfl⟩ : ∃ a ks cs, n = Tree.mk a ks cs := ⟨_, _, _, rfl⟩
      obtain ⟨r, hget, hr⟩ : At h a ks (cs.map Tree.addr) := hst.rep.at
      have hkids : cs.length = ks.length + 1 := hs.kids_length
      have hhigh : ks.length < 2 * t - 1 := hroom
      obtain ⟨A, B, rfl, hscan, hB, hA⟩ := insertScan_spec k (by omega) hget hr (t := t) (by omega)
      rw [List.length_append] at hkids hhigh
      obtain ⟨L, c, R, rfl, hL⟩ := exists_split (l := cs) (i := A.length) (by omega)
      have hR : R.length = B.length := by simp at hkids; omega
      have hB' : ∀ x, B.head? = some x → k ≤ x := fun x hx =>
        Int.le_of_lt (hB x (List.mem_of_head? hx))
      obtain ⟨rc, hgetc, hrc⟩ := hst.mid.rep.at
      have hcs := hs.kid (c := c) (by simp)
      have hleaf : ¬ r.leaf = true := fun hl => by simpa using hr.leaf.mp hl
      rw [Tree.addr_mk, btreeInsertNonfull]
      simp only [Option.bind_eq_bind, hget, Option.bind_some]
      rw [if_neg hleaf, hr.num, hscan]
      simp only [Option.bind_some, hr.loads_mid hget ht.2 hL (t := t) (by omega), hgetc, hrc.num]
      by_cases hfull : c.keys.length = 2 * t - 1
      · rw [if_pos hfull]
        obtain ⟨Y₁, m, Y₂, C₁, C₂, hc, hY₁, hY₂, hC⟩ := exists_halves ht hcs hfull
        generalize c.addr = b at hc
        subst hc
        obtain ⟨h₁, hsplit, hw⟩ := btreeSplitChild_spec ht hst hL hR hroom hY₁ hY₂ hC
        have hs₁ := split_shape (z := h.next) ht hY₁ hY₂ hC hroom hs
        have hio := split_inorder (a := a) (b := b) (z := h.next) (m := m) (B := B) (R := R) ht
          hY₁ hY₂ hC hL
        rw [hsplit, Option.bind_some]
        obtain ⟨h', n', hins, hi⟩ := insert_half fuel ht hw.stored hs₁ hL hR hA hB' hY₁ hY₂
          (fun c hc hcs hlen => ih c fuel h₁ hc hcs hlen (by omega))
        exact ⟨h', n', hins, hw.trans hi.rewrites,
          fun lo hlo => hi.shape lo (split_shape ht hY₁ hY₂ hC hroom hlo),
          hio ▸ hi.perm, fun hsort => hi.sorted (hio ▸ hsort)⟩
      · rw [if_neg hfull]
        obtain ⟨h', c', hins, hi⟩ := ih c fuel h hst.mid hcs (by have := hcs.high; omega) (by omega)
        exact ⟨h', _, hins, hi.in_kid hst hL hR hA hB'⟩

/-! ## The root -/

/-- The new root `btree_insert` puts above a full one. -/
theorem newRoot_stored {d t : Nat} {h : Heap BTreeNode} {n : Tree (d + 1)} (ht : Degree t)
    (hst : Stored h n) :
    ∃ h₁, (btreeCreateNode h false).2.store (childrensOf t) h.next 0 (some n.addr) = some h₁ ∧
      h₁.next = h.next + 1 ∧ Stored h₁ (Tree.mk h.next [] [n]) := by
  have hcz := childrensOf_size (t := t) (by omega)
  refine ⟨_, store_eq (get_alloc_self _ _) (by omega) _, rfl,
    ⟨⟨_, get_put_self _ _ _, ?_⟩, ?_⟩, ?_, ?_⟩
  · refine ⟨rfl, by simp, fun i hi => ?_, by simp [childrensOf]⟩
    obtain rfl : i = 0 := by simpa using hi
    rfl
  · intro c hc
    obtain rfl : c = n := by simpa using hc
    refine hst.rep.frame (fun p hp => ?_)
    have hne : p ≠ h.next := Nat.ne_of_lt (hst.bound p hp)
    rw [get_put_of_ne _ _ hne]
    exact get_alloc_of_ne _ _ hne
  · rw [Tree.cells_succ]
    simp only [Tree.addr_mk, Tree.kids_mk, List.flatMap_singleton, List.nodup_cons]
    exact ⟨fun hp => Nat.lt_irrefl _ (hst.bound _ hp), hst.nodup⟩
  · intro p hp
    rw [Tree.cells_succ] at hp
    simp only [Tree.addr_mk, Tree.kids_mk, List.flatMap_singleton, List.mem_cons] at hp
    rcases hp with rfl | hp
    · exact Nat.lt_succ_self _
    · exact Nat.lt_succ_of_lt (hst.bound p hp)

/-- An internal root has a key. Insertion keeps this, and deletion relies on it. -/
def TopKeyed {d : Nat} (n : Tree (d + 1)) : Prop := d ≠ 0 → n.keys ≠ []

/-- What `btree_insert` does to a tree in the heap, sorted or not. -/
theorem btreeInsert_spec {T : BTree} {d : Nat} {n : Tree (d + 1)} (ht : Degree T.t)
    (hroot : T.root = some n.addr) (hst : Stored T.heap n) (hs : n.Shape T.t 0) (k : Int) :
    ∃ T' d', ∃ n' : Tree (d' + 1), btreeInsert T k = some T' ∧ T'.t = T.t ∧
      T'.root = some n'.addr ∧ Stored T'.heap n' ∧ n'.Shape T.t 0 ∧ (TopKeyed n → TopKeyed n') ∧
      n'.inorder.Perm (k :: n.inorder) ∧ (Sorted n.inorder → Sorted n'.inorder) := by
  obtain ⟨r, hget, hr⟩ := hst.rep.at
  have hheight := hst.height_le hs
  unfold btreeInsert
  simp only [Option.bind_eq_bind, hroot, Option.bind_some, hget, hr.num]
  by_cases hfull : n.keys.length = 2 * T.t - 1
  · rw [if_pos hfull]
    obtain ⟨h₁, hstore, hnext₁, hst₁⟩ := newRoot_stored ht hst
    obtain ⟨Y₁, m, Y₂, C₁, C₂, hn, hY₁, hY₂, hC⟩ := exists_halves ht hs hfull
    have hs₁ : (Tree.mk T.heap.next [] [n]).Shape T.t 0 :=
      Tree.shape_mk.mpr ⟨by simp, by simp, by simp, by
        simpa using hs.weaken (show T.t - 1 ≤ n.keys.length by omega)⟩
    have hfst : (btreeCreateNode T.heap false).1 = T.heap.next := rfl
    simp only [hfst, hstore, Option.bind_some]
    generalize n.addr = b at hn
    subst hn
    -- the new root is a node without keys whose only child is full
    obtain ⟨h₂, hsplit, hw⟩ := btreeSplitChild_spec (A := []) (B := []) (L := []) (R := []) ht hst₁
      rfl rfl (by simp; omega) hY₁ hY₂ hC
    have hs₂ := split_shape (z := h₁.next) (A := []) (B := []) (L := []) (R := []) ht hY₁ hY₂ hC
      (by simp; omega) hs₁
    have hio := split_inorder (a := T.heap.next) (b := b) (z := h₁.next) (m := m) (A := [])
      (B := [])
      (L := []) (R := []) ht hY₁ hY₂ hC rfl
    have hnext := hw.next
    obtain ⟨h', n', hins, hi⟩ := insert_half (k := k) (h₂.next + 1) ht hw.stored hs₂ rfl rfl
      (by simp) (by simp) hY₁ hY₂
      (fun c hc hcs hlen => btreeInsertNonfull_spec ht k c _ h₂ hc hcs hlen (by omega))
    rw [List.length_nil] at hsplit hins
    rw [hsplit, Option.bind_some]
    have hread : (Tree.mk T.heap.next [] [Tree.mk b (Y₁ ++ m :: Y₂) (C₁ ++ C₂)]).inorder =
        (Tree.mk b (Y₁ ++ m :: Y₂) (C₁ ++ C₂)).inorder := by
      rw [Tree.inorder_succ]
      simp
    rw [List.nil_append, List.nil_append, List.nil_append, List.nil_append, hread] at hio
    refine ⟨{ T with root := some T.heap.next, heap := h' }, d + 1, n', ?_, rfl, ?_,
      hi.rewrites.stored, hi.shape 0 hs₂, fun _ _ => ?_, hio ▸ hi.perm, hio ▸ hi.sorted⟩
    · have hbind := congrArg (fun o => o.bind (fun h' =>
        some { T with root := some T.heap.next, heap := h' })) hins
      simp only [Option.bind_assoc] at hbind
      exact hbind
    · rw [hi.rewrites.addr]; rfl
    · have hlow := (hi.shape 1 (hs₂.weaken (by simp))).low
      exact List.length_pos_iff.mp (by omega)
  · rw [if_neg hfull]
    obtain ⟨h', n', hins, hi⟩ := btreeInsertNonfull_spec ht k n (T.heap.next + 1) T.heap hst hs
      (by have := hs.high; omega) (by omega)
    rw [hins]
    refine ⟨_, d, n', rfl, rfl, ?_, hi.rewrites.stored, hi.shape 0 hs, ?_, hi.perm, hi.sorted⟩
    · rw [hi.rewrites.addr]
    · intro htop hd
      have hlow := (hi.shape n.keys.length (hs.weaken (Nat.le_refl _))).low
      have := List.length_pos_iff.mpr (htop hd)
      exact List.length_pos_iff.mp (by omega)

theorem btreeInsert_wellFormed {T : BTree} {d : Nat} {n : Tree (d + 1)} (hwf : WellFormed T n)
    (hint : 2 * T.t < 2 ^ 31) (k : Int) :
    ∃ T' d', ∃ n' : Tree (d' + 1), btreeInsert T k = some T' ∧ WellFormed T' n' ∧ T'.t = T.t ∧
      (TopKeyed n → TopKeyed n') ∧ n'.inorder.Perm (k :: n.inorder) := by
  obtain ⟨T', d', n', hins, ht, hroot, hst, hs, htop, hperm, hsort⟩ :=
    btreeInsert_spec ⟨hwf.degree, hint⟩ hwf.root hwf.stored hwf.shape k
  rw [← ht] at hs
  refine ⟨T', d', n', hins, ⟨ht ▸ hwf.degree, hroot, hst, hs, ?_⟩, ht, htop, hperm⟩
  exact (Tree.ordered_iff_sorted hs).mpr (hsort hwf.sorted)

theorem insert_run {T : BTree} {d : Nat} {n : Tree (d + 1)} (hwf : WellFormed T n)
    (hint : 2 * T.t < 2 ^ 31) (keys : List Int) :
    ∃ T' d', ∃ n' : Tree (d' + 1), run btreeInsert T keys = some T' ∧ WellFormed T' n' ∧
      T'.t = T.t ∧ (TopKeyed n → TopKeyed n') ∧ n'.inorder.Perm (keys ++ n.inorder) := by
  induction keys generalizing T d with
  | nil => exact ⟨T, d, n, rfl, hwf, rfl, id, List.Perm.refl _⟩
  | cons k keys ih =>
      obtain ⟨T₁, d₁, n₁, hins, hwf₁, ht₁, htop₁, hperm₁⟩ := btreeInsert_wellFormed hwf hint k
      obtain ⟨T', d', n', hrun, hwf', ht', htop', hperm'⟩ := ih hwf₁ (ht₁.symm ▸ hint)
      refine ⟨T', d', n', ?_, hwf', ht'.trans ht₁, fun h => htop' (htop₁ h), ?_⟩
      · rw [run, hins]; exact hrun
      · refine hperm'.trans ((hperm₁.append_left keys).trans ?_)
        exact List.perm_middle

/-- A new tree after some insertions, its root not empty if there were any. -/
theorem insert_run_create {t : Nat} (ht : Degree t) (keys : List Int) :
    ∃ T' d', ∃ n' : Tree (d' + 1), run btreeInsert (btreeCreate t) keys = some T' ∧
      WellFormed T' n' ∧ T'.t = t ∧ n'.inorder.Perm keys ∧ (keys ≠ [] → n'.keys ≠ []) := by
  obtain ⟨T', d', n', hrun, hwf, ht', htop, hperm⟩ :=
    insert_run (btreeCreate_wellFormed ht.1) ht.2 keys
  have hperm : n'.inorder.Perm keys := by simpa [Tree.inorder_succ] using hperm
  refine ⟨T', d', n', hrun, hwf, ht', hperm, fun hne => ?_⟩
  cases d' with
  | zero =>
      intro hnil
      rw [Tree.inorder_succ, hnil, Tree.eq_nil n'.kids] at hperm
      exact hne (by simpa using hperm)
  | succ d' => exact htop (by simp [TopKeyed]) (Nat.succ_ne_zero d')

/--
**Insertion.** Where an `int` holds `2 * t`, any number of insertions, into a new tree or into
any well-formed one, all go through; the tree stays well formed, and traversing it prints all
keys that were there and all that were inserted, sorted, each as often as it came.
-/
theorem insertions_traverse_sorted {t : Nat} (ht : 2 ≤ t) (hint : 2 * t < 2 ^ 31)
    (keys : List Int) :
    (∃ T' d', ∃ n' : Tree (d' + 1), run btreeInsert (btreeCreate t) keys = some T' ∧
      WellFormed T' n' ∧ T'.t = t ∧ ∃ l, traverse T' = some l ∧ Sorted l ∧ l.Perm keys) ∧
    ∀ (T : BTree) (d : Nat) (n : Tree (d + 1)), T.t = t → WellFormed T n →
      ∃ T' d', ∃ n' : Tree (d' + 1), run btreeInsert T keys = some T' ∧
        WellFormed T' n' ∧ T'.t = t ∧
        ∃ l, traverse T' = some l ∧ Sorted l ∧ l.Perm (keys ++ n.inorder) := by
  constructor
  · obtain ⟨T', d', n', hrun, hwf, ht', hperm, -⟩ := insert_run_create ⟨ht, hint⟩ keys
    exact ⟨T', d', n', hrun, hwf, ht', n'.inorder, hwf.traverse (ht'.symm ▸ hint), hwf.sorted,
      hperm⟩
  · intro T d n hTt hwf
    obtain ⟨T', d', n', hrun, hwf', ht', -, hperm⟩ := insert_run hwf (hTt ▸ hint) keys
    have ht' := ht'.trans hTt
    exact ⟨T', d', n', hrun, hwf', ht', n'.inorder, hwf'.traverse (ht'.symm ▸ hint), hwf'.sorted,
      hperm⟩

theorem insertions_traverse_sorted_four : 2 ≤ 2 ∧ 2 * 2 < 2 ^ 31 ∧
    ∃ T' d', ∃ n' : Tree (d' + 1), run btreeInsert (btreeCreate 2) [3, 1, 2, 1] = some T' ∧
      WellFormed T' n' ∧ T'.t = 2 ∧ ∃ l, traverse T' = some l ∧ Sorted l ∧ l.Perm [3, 1, 2, 1] :=
  ⟨Nat.le_refl 2, by decide,
    (insertions_traverse_sorted (Nat.le_refl 2) (by decide) [3, 1, 2, 1]).1⟩

/-! ## A degree that is too large -/

/-- Where an `int` does not hold `2 * t` the first access of an insertion goes wrong. -/
theorem btreeInsert_large {T : BTree} {p : Nat} {r : BTreeNode} (hint : ¬ 2 * T.t < 2 ^ 31)
    (hroot : T.root = some p) (hget : T.heap.get p = some r) (k : Int) :
    btreeInsert T k = none := by
  have hkz := keysOf_size_large hint
  have hcz := childrensOf_size_large hint
  have hload (i : Nat) : T.heap.load (keysOf T.t) p i = none := load_eq_none (by omega)
  have hstore (i : Nat) : T.heap.store (keysOf T.t) p i k = none := store_eq_none (by omega) k
  have hchild (i : Nat) : T.heap.load (childrensOf T.t) p i = none := load_eq_none (by omega)
  unfold btreeInsert
  simp only [Option.bind_eq_bind, hroot, Option.bind_some, hget]
  split
  · rw [store_eq_none (by omega)]
    rfl
  · rw [btreeInsertNonfull, hget, Option.bind_eq_bind, Option.bind_some]
    split
    · -- the first key to be moved up, or the place of the new one
      cases r.num with
      | zero =>
          simp only [insertShift, Option.bind_eq_bind, Option.bind_some, hstore, Option.bind_none]
      | succ m => simp only [insertShift, Option.bind_eq_bind, hload, Option.bind_none]
    · cases r.num with
      | zero =>
          simp only [insertScan, Option.bind_eq_bind, Option.bind_some, hchild, Option.bind_none]
      | succ m => simp only [insertScan, Option.bind_eq_bind, hload, Option.bind_none]

/-- The first insertion into a new tree of degree `2 ^ 30 + 1` writes through a null pointer. -/
theorem insertion_fails_large : run btreeInsert (btreeCreate (2 ^ 30 + 1)) [7] = none := by
  have hfails : btreeInsert (btreeCreate (2 ^ 30 + 1)) 7 = none :=
    btreeInsert_large (show ¬ 2 * (2 ^ 30 + 1) < 2 ^ 31 by omega) rfl (get_alloc_self _ _) 7
  rw [run, hfails]
  rfl

end CppTrack.Storage
