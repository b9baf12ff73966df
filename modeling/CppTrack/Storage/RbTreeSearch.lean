import CppTrack.Lib.SearchTree
import CppTrack.Storage.RbTree
import Mathlib.Data.Int.Order.Basic

/-!
# Insertion and search

`rbtree_insert` goes down to a leaf by comparing keys and hangs the new node there. As long as the
keys are new this keeps a binary search tree, in which `rbtree_search` finds what was inserted and
nothing else. A key that is in the tree already is not turned away: the loop comes to its node and
stays there for ever.
-/

namespace CppTrack.RbTree

open Lib

variable {T : Rbtree} {t : BinaryTree Nat} {z : Nat}

/-! ## The way down -/

/-- The loop of `rbtree_insert` with a new key. -/
theorem insertLoop_new {k : Int} {y x fuel : Nat} (h : Linked T.links T.nil y x t)
    (hnew : ∀ a ∈ inorder t, T.key a ≠ k) (hfuel : t.height < fuel) :
    insertLoop T k fuel y x = some (descend (fun a => k < T.key a) y t) := by
  induction t generalizing y x fuel with
  | nil =>
      obtain ⟨n, rfl⟩ : ∃ n, fuel = n + 1 := Nat.exists_eq_add_one.mpr hfuel
      have hx : x = T.nil := h
      rw [insertLoop, if_neg (not_not.mpr hx)]
      rfl
  | node a l r ihl ihr =>
      obtain ⟨rfl, hx, -, hl, hr⟩ := h
      obtain ⟨n, rfl⟩ : ∃ n, fuel = n + 1 := Nat.exists_eq_add_one.mpr (by omega)
      -- each turn goes down by one node
      rw [BinaryTree.height] at hfuel
      rw [insertLoop, if_pos hx, descend]
      dsimp only
      split_ifs with hlt hgt
      · exact ihl hl (fun b hb => hnew b (mem_inorder_of_left hb)) (by omega)
      · exact ihr hr (fun b hb => hnew b (mem_inorder_of_right hb)) (by omega)
      · exact absurd (le_antisymm (not_lt.mp hlt) (not_lt.mp hgt)) (hnew x root_mem_inorder)

/-- With a key that is in the tree the loop does not end. -/
theorem insertLoop_stuck {k : Int} (fuel : Nat) {p y x : Nat} (h : Linked T.links T.nil p x t)
    (hsearch : Increasing T.key t) (hk : ∃ a ∈ inorder t, T.key a = k) :
    insertLoop T k fuel y x = none := by
  induction fuel generalizing t p y x with
  | zero => rfl
  | succ fuel ih =>
      cases t with
      | nil =>
          obtain ⟨a, ha, -⟩ := hk
          exact absurd ha List.not_mem_nil
      | node a l r =>
          obtain ⟨rfl, hx, hp, hl, hr⟩ := h
          obtain ⟨hsl, hsr, -⟩ := increasing_node.mp hsearch
          obtain ⟨hleft, hright⟩ := hsearch.side hk
          rw [insertLoop, if_pos hx]
          dsimp only
          split_ifs with hlt hgt
          · exact ih hl hsl (hleft hlt)
          · exact ih hr hsr (hright hgt)
          · -- here the key is found, and `x` stays where it is
            have hagain : Linked T.links T.nil p x (.node x l r) := ⟨rfl, hx, hp, hl, hr⟩
            exact ih hagain hsearch hk

/-- More turns do not change the node that the loop ends with. -/
theorem insertLoop_mono {k : Int} {fuel fuel' y x e : Nat} (hle : fuel ≤ fuel')
    (h : insertLoop T k fuel y x = some e) : insertLoop T k fuel' y x = some e := by
  induction fuel generalizing fuel' y x with
  | zero => exact absurd h (by simp [insertLoop])
  | succ fuel ih =>
      obtain ⟨n, rfl⟩ : ∃ n, fuel' = n + 1 := Nat.exists_eq_add_one.mpr (by omega)
      have hle : fuel ≤ n := Nat.le_of_succ_le_succ hle
      rw [insertLoop] at h ⊢
      dsimp only at h ⊢
      split_ifs at h ⊢
      · exact ih hle h
      · exact ih hle h
      · exact ih hle h
      · exact h

/-- `rbtree_search` below a link: it finds a node with the key, if there is one. -/
theorem searchLoop_spec {k : Int} {p current fuel : Nat} (h : Linked T.links T.nil p current t)
    (hsearch : Increasing T.key t) (hfuel : t.height < fuel) :
    ∃ n, searchLoop T k fuel current = some n ∧
      ((n ∈ inorder t ∧ T.key n = k) ∨ (n = T.nil ∧ ∀ a ∈ inorder t, T.key a ≠ k)) := by
  induction t generalizing p current fuel with
  | nil =>
      obtain ⟨n, rfl⟩ : ∃ n, fuel = n + 1 := Nat.exists_eq_add_one.mpr hfuel
      have hcurrent : current = T.nil := h
      refine ⟨current, ?_, Or.inr ⟨hcurrent, fun a ha => absurd ha List.not_mem_nil⟩⟩
      rw [searchLoop, if_neg fun hc => hc.1 hcurrent]
  | node a l r ihl ihr =>
      obtain ⟨rfl, hne, -, hl, hr⟩ := h
      obtain ⟨n, rfl⟩ : ∃ n, fuel = n + 1 := Nat.exists_eq_add_one.mpr (by omega)
      rw [BinaryTree.height] at hfuel
      obtain ⟨hsl, hsr, -⟩ := increasing_node.mp hsearch
      by_cases hk : T.key current = k
      · refine ⟨current, ?_, Or.inl ⟨root_mem_inorder, hk⟩⟩
        rw [searchLoop, if_neg fun hc => hc.2 hk]
      rw [searchLoop, if_pos ⟨hne, hk⟩]
      split_ifs with hlt
      · -- a node with the key would be on the left
        obtain ⟨m, hm, hfound⟩ := ihl hl hsl (show l.height < n by omega)
        refine ⟨m, hm, hfound.imp (fun hc => ⟨mem_inorder_of_left hc.1, hc.2⟩) ?_⟩
        rintro ⟨hnil, hnone⟩
        refine ⟨hnil, fun b hb he => ?_⟩
        obtain ⟨c, hc, hkey⟩ := (hsearch.side ⟨b, hb, he⟩).1 hlt
        exact hnone c hc hkey
      · -- on the right
        obtain ⟨m, hm, hfound⟩ := ihr hr hsr (show r.height < n by omega)
        have hgt : T.key current < k := lt_of_le_of_ne (not_lt.mp hlt) hk
        refine ⟨m, hm, hfound.imp (fun hc => ⟨mem_inorder_of_right hc.1, hc.2⟩) ?_⟩
        rintro ⟨hnil, hnone⟩
        refine ⟨hnil, fun b hb he => ?_⟩
        obtain ⟨c, hc, hkey⟩ := (hsearch.side ⟨b, hb, he⟩).2 hgt
        exact hnone c hc hkey

/-! ## One insertion -/

section

variable (T z) (y b : Nat)

theorem attach_nil : (attach T z y).nil = T.nil := by
  unfold attach
  dsimp only
  split_ifs <;> rfl

theorem attach_root : (attach T z y).root = if y = T.nil then z else T.root := by
  unfold attach
  simp only [Rbtree.setParent_key, Rbtree.setParent_nil]
  split_ifs <;> rfl

theorem attach_key : (attach T z y).key b = T.key b := by
  unfold attach
  dsimp only
  split_ifs <;> grind

theorem attach_parent : (attach T z y).parent b = if b = z then y else T.parent b := by
  unfold attach
  dsimp only
  split_ifs <;> grind

theorem attach_left : (attach T z y).left b =
    if b = z then T.nil
    else if y ≠ T.nil ∧ T.key z < T.key y ∧ b = y then z else T.left b := by
  unfold attach
  simp only [Rbtree.setParent_key, Rbtree.setParent_nil]
  split_ifs <;> grind

theorem attach_right : (attach T z y).right b =
    if b = z then T.nil
    else if y ≠ T.nil ∧ ¬ T.key z < T.key y ∧ b = y then z else T.right b := by
  unfold attach
  simp only [Rbtree.setParent_key, Rbtree.setParent_nil]
  split_ifs <;> grind

/-- The stores of `rbtree_insert`, at the node it finds. -/
theorem attach_hangs :
    Hangs (fun a => T.key z < T.key a) T.links (attach T z y).links T.nil z y := by
  constructor
  all_goals simp only [Rbtree.links, attach_parent, attach_left, attach_right]
  all_goals grind

end

/-- A well-linked search tree that holds the nodes `ns`. -/
structure Rbtree.Holds (T : Rbtree) (t : BinaryTree Nat) (ns : List Nat) : Prop where
  wellLinked : T.WellLinked t
  search : T.SearchTree t
  perm : (inorder t).Perm ns

theorem Rbtree.Holds.height_le {ns : List Nat} (h : T.Holds t ns) : t.height ≤ ns.length := by
  rw [← h.perm.length_eq, length_inorder]
  exact t.height_le_numNodes

/-- The way of a new node from the root. -/
theorem rbtreeInsert_eq {ns : List Nat} {fuel : Nat} (h : T.Holds t ns)
    (hnew : ∀ a ∈ inorder t, T.key a ≠ T.key z) (hfuel : ns.length < fuel) :
    rbtreeInsert fuel T z = some (attach T z (descend (fun a => T.key z < T.key a) T.nil t)) := by
  have hheight : t.height < fuel := h.height_le.trans_lt hfuel
  rw [rbtreeInsert, insertLoop_new h.wellLinked.linked hnew hheight]
  rfl

/-- **One insertion** of a new key. -/
theorem rbtreeInsert_new {ns : List Nat} {fuel : Nat} (h : T.Holds t ns) (hz : z ≠ T.nil)
    (hnew : T.key z ∉ ns.map T.key) (hfuel : ns.length < fuel) :
    ∃ T', rbtreeInsert fuel T z = some T' ∧ T'.nil = T.nil ∧ T'.key = T.key ∧
      ∃ t', T'.Holds t' (z :: ns) := by
  have hfresh : ∀ a ∈ inorder t, T.key a ≠ T.key z := by
    intro a ha he
    exact hnew (he ▸ List.mem_map_of_mem (h.perm.mem_iff.mp ha))
  have hz' : z ∉ inorder t := fun hmem => hfresh z hmem rfl
  have hkey (y : Nat) : (attach T z y).key = T.key := funext fun a => attach_key T z y a
  refine ⟨_, rbtreeInsert_eq h hfresh hfuel, attach_nil _ _ _, hkey _, ?_⟩
  have hperm := inorder_hangLeaf (fun a => T.key z < T.key a) z t
  have hlinked := h.wellLinked.linked
  have hhang := hlinked.hangs (attach_hangs T z _) h.wellLinked.nodup hz hz'
  refine ⟨hangLeaf (fun a => T.key z < T.key a) z t, ⟨?_, ?_⟩, ?_, ?_⟩
  · -- the new node becomes the root only if there was none
    have hnil : T.nil ∉ inorder t := fun hmem => hlinked.ne_null hmem rfl
    have hroot : descend (fun a => T.key z < T.key a) T.nil t = T.nil ↔ T.root = T.nil :=
      eq_comm.trans (hlinked.descend_eq_iff hnil)
    rw [attach_root, attach_nil]
    simp only [hroot]
    exact hhang
  · exact hperm.nodup_iff.mpr (List.nodup_cons.mpr ⟨hz', h.wellLinked.nodup⟩)
  · rw [Rbtree.SearchTree, Rbtree.keys, hkey]
    exact increasing_hangLeaf h.search hfresh
  · exact hperm.trans (h.perm.cons z)

/-- **One insertion** of a key that is there. -/
theorem rbtreeInsert_stuck {ns : List Nat} (fuel : Nat) (h : T.Holds t ns)
    (hold : T.key z ∈ ns.map T.key) : rbtreeInsert fuel T z = none := by
  obtain ⟨a, ha, hkey⟩ := List.mem_map.mp hold
  rw [rbtreeInsert, insertLoop_stuck fuel h.wellLinked.linked h.search
    ⟨a, h.perm.mem_iff.mpr ha, hkey⟩]
  rfl

/-- **One insertion** that ends. -/
theorem rbtreeInsert_some {ns : List Nat} {fuel : Nat} {T' : Rbtree} (h : T.Holds t ns)
    (hz : z ≠ T.nil) (hinsert : rbtreeInsert fuel T z = some T') :
    T.key z ∉ ns.map T.key ∧ T'.nil = T.nil ∧ T'.key = T.key ∧ ∃ t', T'.Holds t' (z :: ns) := by
  by_cases hold : T.key z ∈ ns.map T.key
  · rw [rbtreeInsert_stuck fuel h hold] at hinsert
    exact absurd hinsert (by simp)
  · -- with enough turns it ends as known, and so it does with these
    obtain ⟨T₁, h₁, hspec⟩ := rbtreeInsert_new h hz hold
      (show ns.length < max fuel (ns.length + 1) by omega)
    obtain ⟨y, hy, rfl⟩ := Option.map_eq_some_iff.mp hinsert
    rw [rbtreeInsert, insertLoop_mono (Nat.le_max_left _ _) hy] at h₁
    obtain rfl : attach T z y = T₁ := Option.some.inj h₁
    exact ⟨hold, hspec⟩

/-! ## Sequences of insertions -/

/-- New keys one after another. -/
theorem inserts_new {fuel : Nat} (zs : List Nat) {T : Rbtree} {t : BinaryTree Nat}
    {ns : List Nat} (h : T.Holds t ns) (hz : ∀ z ∈ zs, z ≠ T.nil)
    (hnodup : ((zs.reverse ++ ns).map T.key).Nodup) (hfuel : ns.length + zs.length < fuel) :
    ∃ T', zs.foldlM (rbtreeInsert fuel) T = some T' ∧ T'.nil = T.nil ∧ T'.key = T.key ∧
      ∃ t', T'.Holds t' (zs.reverse ++ ns) := by
  induction zs generalizing T t ns with
  | nil => exact ⟨T, rfl, rfl, rfl, t, h⟩
  | cons z zs ih =>
      rw [List.length_cons] at hfuel
      rw [List.reverse_cons, List.append_assoc, List.singleton_append] at hnodup ⊢
      -- the first key is not among those that are there, nor among those that follow
      have hnew : T.key z ∉ ns.map T.key := by
        rw [List.map_append, List.map_cons] at hnodup
        exact (List.nodup_cons.mp (List.nodup_append.mp hnodup).2.1).1
      obtain ⟨T₁, h₁, hnil, hkey, t₁, hT₁⟩ :=
        rbtreeInsert_new h (hz z List.mem_cons_self) hnew (show ns.length < fuel by omega)
      obtain ⟨T', hrun, hnil', hkey', hT'⟩ := ih hT₁
        (fun w hw => hnil ▸ hz w (List.mem_cons_of_mem z hw)) (hkey ▸ hnodup)
        (by rw [List.length_cons]; omega)
      refine ⟨T', ?_, hnil'.trans hnil, hkey'.trans hkey, hT'⟩
      rw [List.foldlM_cons, h₁]
      exact hrun

/-- The insertions end only if the keys are new. -/
theorem nodup_of_inserts {fuel : Nat} (zs : List Nat) {T T' : Rbtree} {t : BinaryTree Nat}
    {ns : List Nat} (h : T.Holds t ns) (hz : ∀ z ∈ zs, z ≠ T.nil) (hns : (ns.map T.key).Nodup)
    (hrun : zs.foldlM (rbtreeInsert fuel) T = some T') :
    ((zs.reverse ++ ns).map T.key).Nodup := by
  induction zs generalizing T t ns with
  | nil => exact hns
  | cons z zs ih =>
      rw [List.foldlM_cons] at hrun
      obtain ⟨T₁, h₁, hrun⟩ := Option.bind_eq_some_iff.mp hrun
      obtain ⟨hnew, hnil, hkey, t₁, hT₁⟩ := rbtreeInsert_some h (hz z List.mem_cons_self) h₁
      rw [List.reverse_cons, List.append_assoc, List.singleton_append, ← hkey]
      refine ih hT₁ (fun w hw => hnil ▸ hz w (List.mem_cons_of_mem z hw)) ?_ hrun
      rw [hkey, List.map_cons]
      exact List.nodup_cons.mpr ⟨hnew, hns⟩

/-- After the insertion of the nodes `zs`: there is a well-linked search tree with their keys, and
a search for a key ends with a node that has it, if one was inserted, and else with `nil`. -/
def Agree (T₀ : Rbtree) (zs : List Nat) : Prop :=
  ∃ fuel T t, zs.foldlM (rbtreeInsert fuel) T₀ = some T ∧ T.WellLinked t ∧ T.SearchTree t ∧
    (∀ k, k ∈ T.keys t ↔ k ∈ zs.map T₀.key) ∧
    ∀ k, ∃ fuel n, rbtreeSearch fuel T k = some n ∧
      if k ∈ zs.map T₀.key then n ∈ zs ∧ T.key n = k else n = T.nil

theorem holds_empty (h : T.root = T.nil) : T.Holds .nil [] where
  wellLinked := ⟨h, List.nodup_nil⟩
  search := List.Pairwise.nil
  perm := List.Perm.nil

theorem agree_of_nodup {T₀ : Rbtree} {zs : List Nat} (h₀ : T₀.root = T₀.nil)
    (hz : ∀ z ∈ zs, z ≠ T₀.nil) (hnodup : (zs.map T₀.key).Nodup) : Agree T₀ zs := by
  have hnodup' : ((zs.reverse ++ []).map T₀.key).Nodup := by
    rw [List.append_nil, List.map_reverse]
    exact List.nodup_reverse.mpr hnodup
  obtain ⟨T, hrun, hnil, hkey, t, hT⟩ := inserts_new zs (holds_empty h₀) hz hnodup'
    (show [].length + zs.length < zs.length + 1 by simp)
  -- the tree has the inserted nodes and no others
  have hmem (a : Nat) : a ∈ inorder t ↔ a ∈ zs := by
    rw [hT.perm.mem_iff, List.append_nil, List.mem_reverse]
  refine ⟨_, T, t, hrun, hT.wellLinked, hT.search, ?_, ?_⟩
  · intro k
    rw [Rbtree.keys, hkey, List.mem_map, List.mem_map]
    simp only [hmem]
  · intro k
    obtain ⟨n, hn, hfound⟩ := searchLoop_spec (k := k) hT.wellLinked.linked hT.search
      (Nat.lt_succ_self t.height)
    refine ⟨_, n, hn, ?_⟩
    rcases hfound with ⟨hnt, hnk⟩ | ⟨hn, hnone⟩
    · have hk : k ∈ zs.map T₀.key := List.mem_map.mpr ⟨n, (hmem n).mp hnt, hkey ▸ hnk⟩
      rw [if_pos hk]
      exact ⟨(hmem n).mp hnt, hnk⟩
    · have hk : k ∉ zs.map T₀.key := by
        intro hin
        obtain ⟨a, ha, hak⟩ := List.mem_map.mp hin
        exact hnone a ((hmem a).mpr ha) (hkey ▸ hak)
      rw [if_neg hk]
      exact hn

theorem nodup_of_agree {T₀ : Rbtree} {zs : List Nat} (h₀ : T₀.root = T₀.nil)
    (hz : ∀ z ∈ zs, z ≠ T₀.nil) (h : Agree T₀ zs) : (zs.map T₀.key).Nodup := by
  obtain ⟨fuel, T, -, hrun, -⟩ := h
  have hnodup := nodup_of_inserts zs (holds_empty h₀) hz List.nodup_nil hrun
  rw [List.append_nil, List.map_reverse] at hnodup
  exact List.nodup_reverse.mp hnodup

/--
For every sequence of insertions into the empty tree: insertion and search agree after each of
them if and only if no key is inserted twice.
-/
theorem insert_search_agree_iff {T₀ : Rbtree} {zs : List Nat} (h₀ : T₀.root = T₀.nil)
    (hz : ∀ z ∈ zs, z ≠ T₀.nil) :
    (∀ ws, ws <+: zs → Agree T₀ ws) ↔ (zs.map T₀.key).Nodup := by
  constructor
  · intro hagree
    exact nodup_of_agree h₀ hz (hagree zs (List.prefix_refl zs))
  · intro hnodup ws hws
    refine agree_of_nodup h₀ (fun z hzw => hz z (hws.subset hzw)) ?_
    exact hnodup.sublist (hws.sublist.map T₀.key)

/-- The empty tree, and memory for nodes with these keys at the addresses from 1 on. -/
def emptyTree (keys : List Int) : Rbtree where
  root := 0
  nil := 0
  nodes
    | 0 => ⟨BLACK, 0, 0, 0, 0⟩
    | a + 1 => ⟨RED, 0, 0, 0, keys.getD a 0⟩

theorem insert_search_agree_iff_three :
    (∀ ws, ws <+: [1, 2, 3] → Agree (emptyTree [1, 2, 3]) ws) ↔
      ([1, 2, 3].map (emptyTree [1, 2, 3]).key).Nodup :=
  insert_search_agree_iff rfl (by decide)

theorem not_insert_search_agree : ¬ ∀ (T₀ : Rbtree) (zs : List Nat), T₀.root = T₀.nil →
    (∀ z ∈ zs, z ≠ T₀.nil) → ∀ ws, ws <+: zs → Agree T₀ ws := by
  intro hall
  have hagree := hall (emptyTree [5, 5]) [1, 2] rfl (by decide) [1, 2] (List.prefix_refl _)
  exact absurd (nodup_of_agree rfl (by decide) hagree) (by decide)

end CppTrack.RbTree
