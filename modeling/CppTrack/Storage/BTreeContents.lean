import CppTrack.Storage.BTreeDelete
import CppTrack.Storage.BTreeInsert

/-!
# What a deletion leaves in the tree

Read from left to right, a move changes nothing, or overwrites one key with another
that is then deleted further down. Hence a deletion whose key is absent leaves the
reading as it was, and one whose key is present removes that key once from the
collection of all keys; whether the rest is still in order is exactly `DelGood`.
-/

namespace CppTrack.Storage

open Lib Heap

/-- How the reading of a node before the move and after it compare. -/
inductive Reads {d : Nat} (k : Int) (n : Tree (d + 2)) (p : Plan (d + 1)) : Prop
  /-- Nothing is overwritten, and the key is below the child if anywhere. -/
  | same {X Y : List Int} : (p.kind ≠ .pred ∧ p.kind ≠ .succ) → p.key = k →
      n.inorder = X ++ (p.child.inorder ++ Y) →
      (∀ a c, (p.node a c).inorder = X ++ (c.inorder ++ Y)) →
      (Sorted n.inorder → k ∈ n.inorder → k ∈ p.child.inorder) → Reads k n p
  | pred {X Y : List Int} : p.kind = .pred → p.key ∈ p.child.inorder →
      n.inorder = X ++ ((p.child.inorder ++ [k]) ++ Y) →
      (∀ a c, (p.node a c).inorder = X ++ ((c.inorder ++ [p.key]) ++ Y)) → Reads k n p
  | succ {X Y : List Int} : p.kind = .succ → p.key ∈ p.child.inorder →
      n.inorder = X ++ ((k :: p.child.inorder) ++ Y) →
      (∀ a c, (p.node a c).inorder = X ++ ((p.key :: c.inorder) ++ Y)) → Reads k n p

section

variable {d : Nat} {a : Nat} {A B : List Int} {L R : List (Tree (d + 1))} {c : Tree (d + 1)}
    {k : Int}

/-- In a sorted tree a key between the separators is below the child between them. -/
theorem mem_child_of_scan (hL : L.length = A.length) (hR : R.length = B.length)
    (hA : ∀ x ∈ A, x < k) (hB : ∀ x, B.head? = some x → k < x)
    (hs : Sorted (Tree.mk a (A ++ B) (L ++ c :: R)).inorder)
    (hk : k ∈ (Tree.mk a (A ++ B) (L ++ c :: R)).inorder) : k ∈ c.inorder := by
  rw [Tree.inorder_mid hL] at hs hk
  rcases List.mem_append.mp hk with hk | hk
  · have hle := le_of_mem_weave (k := k - 1) (by simpa using hL) hs.left
      (fun x hx => by have := hA x (List.mem_of_getLast? hx); omega) hk
    omega
  · rcases List.mem_append.mp hk with hk | hk
    · exact hk
    · have hle := le_of_mem_weaveTail (k := k + 1) (by simpa using hR) hs.right.right
        (fun x hx => by have := hB x hx; omega) hk
      omega

theorem node_inorder {p : Plan (d + 1)} (hp : p.kidsL.length = p.keysL.length) (a : Nat)
    (c : Tree (d + 1)) : (p.node a c).inorder =
      weave (p.kidsL.map Tree.inorder) p.keysL ++
        (c.inorder ++ weaveTail (p.kidsR.map Tree.inorder) p.keysR) :=
  Tree.inorder_mid hp c

end

theorem mem_inorder {d : Nat} {n : Tree (d + 1)} {k : Int} :
    k ∈ n.inorder ↔ k ∈ n.keys ∨ ∃ c ∈ n.kids, k ∈ c.inorder := by
  rw [Tree.inorder_succ, mem_weave]
  simp

/-- More keys and more children read as more. -/
theorem mem_inorder_mono {d : Nat} {n n' : Tree (d + 1)} {k : Int}
    (hkeys : ∀ x ∈ n.keys, x ∈ n'.keys)
    (hkids : ∀ c ∈ n.kids, c ∈ n'.kids) (hk : k ∈ n.inorder) : k ∈ n'.inorder := by
  rw [mem_inorder] at hk ⊢
  rcases hk with hk | ⟨c, hc, hk⟩
  · exact .inl (hkeys k hk)
  · exact .inr ⟨c, hkids c hc, hk⟩

/-- **A move and its reading.** -/
theorem Moves.reads {d t lo : Nat} {k : Int} {n : Tree (d + 2)} {p : Plan (d + 1)}
    (hm : Moves t k n p) (hs : n.Shape t lo) : Reads k n p := by
  cases hm with
  | @pred a A B L R c r Y m hA hL hR hrich hY =>
      refine .pred (X := weave (L.map Tree.inorder) A)
        (Y := weave ((r :: R).map Tree.inorder) B) rfl
        (mem_inorder.mpr (.inl (by simp [hY]))) ?_ (fun a' c' => ?_)
      · rw [Tree.inorder_mid hL, List.append_assoc]
        rfl
      · rw [node_inorder hL, List.append_assoc]
        rfl
  | @succ a A B L R c r Y m hA hL hR hpoor hrich hY =>
      refine .succ (X := weave (L.map Tree.inorder) A ++ c.inorder)
        (Y := weaveTail (R.map Tree.inorder) B) rfl
        (mem_inorder.mpr (.inl (by simp [hY]))) ?_ (fun a' c' => ?_)
      · rw [Tree.inorder_mid₂ hL]
        simp
      · rw [Plan.node]
        simp only [List.append_assoc, List.singleton_append]
        rw [Tree.inorder_mid₂ hL]
        simp
  | @joinFound a A B L R c r hA hL hR hc hr =>
      have hj := inorder_join_eq (k := k) (hs.kid (c := c) (by simp)) (hs.kid (c := r) (by simp))
      refine .same (by simp) rfl ?_ (fun a' c' => node_inorder hL a' c') (fun _ _ => ?_)
      · rw [Tree.inorder_mid₂ hL, hj]
      · rw [hj]
        simp
  | @stay a A B L R c hA hB hL hR hc =>
      exact .same (by simp) rfl (Tree.inorder_mid hL c) (fun a' c' => node_inorder hL a' c')
        (fun hsort hk => mem_child_of_scan hL hR hA hB hsort hk)
  | @next a A B L R c r b Y y hA hb hL hR hc hrich hY hl =>
      have hsh := inorder_pushed_shifted (k := b) (hs.kid (c := c) (by simp))
        (hs.kid (c := r) (by simp)) hY
      refine .same (by simp) rfl ?_ (fun a' c' => node_inorder hL a' c') (fun hsort hk => ?_)
      · rw [Tree.inorder_mid₂ hL, ← hsh, List.map_cons, weaveTail_cons]
        simp
      · have hkc := mem_child_of_scan (B := b :: B) hL (by simp [hR]) hA
          (fun x hx => Option.some.inj hx ▸ hb) hsort hk
        exact mem_inorder_mono (by simp +contextual [Tree.pushed])
          (by simp +contextual [Tree.pushed]) hkc
  | @prev a A B L R c l b Y y hA hB hL hR hc hrich hY hr =>
      have hsh := inorder_popped_unshifted (c := c) (k := b) (hs.kid (c := l) (by simp)) hY
      have hL' : (L ++ [l.popped]).length = (A ++ [y]).length := by simp [hL]
      refine .same (by simp) rfl ?_ (fun a' c' => node_inorder hL' a' c') (fun hsort hk => ?_)
      · rw [Tree.inorder_mid₂ hL, ← hsh, List.map_append, weave_append (by simpa using hL)]
        simp
      · rw [List.append_cons A, List.append_cons L] at hsort hk
        have hkc := mem_child_of_scan (by simp [hL]) hR hA hB hsort hk
        exact mem_inorder_mono (by simp +contextual [Tree.unshifted])
          (by simp +contextual [Tree.unshifted]) hkc
  | @joinLeft a A B L R c l b hA hB hL hR hc hl hr =>
      have hj := inorder_join_eq (k := b) (hs.kid (c := l) (by simp)) (hs.kid (c := c) (by simp))
      refine .same (by simp) rfl ?_ (fun a' c' => node_inorder hL a' c') (fun hsort hk => ?_)
      · rw [Tree.inorder_mid₂ hL, hj]
      · rw [List.append_cons A, List.append_cons L] at hsort hk
        rw [hj]
        simp [mem_child_of_scan (by simp [hL]) hR hA hB hsort hk]
  | @joinRight a B R c r b hb hR hc hr =>
      have hj := inorder_join_eq (k := b) (hs.kid (c := c) (by simp)) (hs.kid (c := r) (by simp))
      refine .same (by simp) rfl ?_ (fun a' c' => node_inorder rfl a' c') (fun hsort hk => ?_)
      · rw [hj]
        exact Tree.inorder_mid₂ (A := []) (L := []) rfl c r
      · have hkc := mem_child_of_scan (A := []) (L := []) (B := b :: B) rfl (by simp [hR]) (by simp)
          (fun x hx => Option.some.inj hx ▸ hb) hsort hk
        rw [hj]
        simp [hkc]

/-! ## The reading after a deletion -/

/-- `l` is what a deletion of `k` from `n` may leave. -/
structure Deletes {d : Nat} (t : Nat) (n : Tree (d + 1)) (k : Int) (l : List Int) : Prop where
  absent : k ∉ n.inorder → l = n.inorder
  perm : Sorted n.inorder → k ∈ n.inorder → (k :: l).Perm n.inorder
  sorted : Sorted n.inorder → k ∈ n.inorder → (Sorted l ↔ DelGood t n k)

/-- From the child to the node: the three ways a move compares. -/
theorem Reads.deletes {d t a : Nat} {k : Int} {n : Tree (d + 2)} {p : Plan (d + 1)}
    {c : Tree (d + 1)} (hr : Reads k n p) (hp : plan t k n = some p)
    (hd : Deletes t p.child p.key c.inorder) : Deletes t n k (p.node a c).inorder := by
  cases hr with
  | @same X Y hkind hkey hn hnode hmem =>
      rw [hkey] at hd
      have hexact : p.Exact := by
        unfold Plan.Exact
        split <;> simp_all
      refine ⟨fun hk => ?_, fun hs hk => ?_, fun hs hk => ?_⟩
      · rw [hnode, hn, hd.absent (fun hc => hk (by rw [hn]; simp [hc]))]
      · have hsc : Sorted p.child.inorder := by rw [hn] at hs; exact hs.right.left
        rw [hnode, hn]
        refine List.perm_middle.symm.trans (List.Perm.append_left X ?_)
        exact (hd.perm hsc (hmem hs hk)).append_right Y
      · have hsc : Sorted p.child.inorder := by rw [hn] at hs; exact hs.right.left
        have hkc := hmem hs hk
        have hsub : ∀ x ∈ c.inorder, x ∈ p.child.inorder := fun x hx =>
          (hd.perm hsc hkc).mem_iff.mp (by simp [hx])
        rw [hnode, delGood_iff hp, sorted_middle (hn ▸ hs) hsub, hd.sorted hsc hkc, hkey]
        simp [hexact]
  | @pred X Y hkind hmem hn hnode =>
      have hk : k ∈ n.inorder := by rw [hn]; simp
      have hsc (hs : Sorted n.inorder) : Sorted p.child.inorder := by
        rw [hn] at hs
        exact hs.right.left.left
      refine ⟨fun hno => absurd hk hno, fun hs _ => ?_, fun hs _ => ?_⟩
      · have hperm := hd.perm (hsc hs) hmem
        rw [hnode, hn]
        refine List.perm_middle.symm.trans (List.Perm.append_left X ?_)
        show ((k :: (c.inorder ++ [p.key])) ++ Y).Perm ((p.child.inorder ++ [k]) ++ Y)
        refine List.Perm.append_right Y ?_
        exact ((List.perm_append_singleton _ _).trans hperm).cons k |>.trans
          (List.perm_append_singleton _ _).symm
      · have hperm := hd.perm (hsc hs) hmem
        have hsub : ∀ x ∈ c.inorder ++ [p.key], x ∈ p.child.inorder ++ [k] := by
          intro x hx
          refine List.mem_append_left _ (hperm.mem_iff.mp ?_)
          simpa [or_comm] using hx
        have hexact : p.Exact ↔ ∀ x ∈ c.inorder, x ≤ p.key := by
          rw [Plan.Exact, hkind]
          simp only [← hperm.mem_iff, List.forall_mem_cons]
          exact ⟨And.right, fun h => ⟨le_refl _, h⟩⟩
        rw [hnode, delGood_iff hp, sorted_middle (hn ▸ hs) hsub, sorted_append,
          ← hd.sorted (hsc hs) hmem, hexact]
        simp [Sorted, and_comm]
  | @succ X Y hkind hmem hn hnode =>
      have hk : k ∈ n.inorder := by rw [hn]; simp
      have hsc (hs : Sorted n.inorder) : Sorted p.child.inorder := by
        rw [hn] at hs
        exact (sorted_cons.mp hs.right.left).2
      refine ⟨fun hno => absurd hk hno, fun hs _ => ?_, fun hs _ => ?_⟩
      · have hperm := hd.perm (hsc hs) hmem
        rw [hnode, hn]
        refine List.perm_middle.symm.trans (List.Perm.append_left X ?_)
        exact (hperm.cons k).append_right Y
      · have hperm := hd.perm (hsc hs) hmem
        have hsub : ∀ x ∈ p.key :: c.inorder, x ∈ k :: p.child.inorder := fun x hx =>
          List.mem_cons_of_mem _ (hperm.mem_iff.mp hx)
        have hexact : p.Exact ↔ ∀ x ∈ c.inorder, p.key ≤ x := by
          rw [Plan.Exact, hkind]
          simp only [← hperm.mem_iff, List.forall_mem_cons]
          exact ⟨And.right, fun h => ⟨le_refl _, h⟩⟩
        rw [hnode, delGood_iff hp, sorted_middle (hn ▸ hs) hsub, sorted_cons,
          ← hd.sorted (hsc hs) hmem, hexact]

/-! ## The leaf -/

theorem Holds.shrunkRecord {r : BTreeNode} {A B : List Int} {cs : List Nat} {k : Int}
    (hr : Holds r (A ++ k :: B) cs) : Holds (shrunkRecord r A.length) (A ++ B) cs := by
  obtain ⟨hn, hk, hc, hl⟩ := hr
  unfold Storage.shrunkRecord
  refine ⟨by simp [hn], fun i hi => ?_, hc, hl⟩
  have := hk (i + 1)
  simp only [Function.update_apply, movedDown, hn]
  grind

theorem exists_scan (ks : List Int) (k : Int) :
    ∃ A B, ks = A ++ B ∧ (∀ x ∈ A, x < k) ∧ ∀ x, B.head? = some x → ¬ x < k := by
  refine ⟨ks.takeWhile (· < k), ks.dropWhile (· < k), List.takeWhile_append_dropWhile.symm,
    fun x hx => by simpa using List.mem_takeWhile_imp hx, fun x hx => ?_⟩
  simpa [hx] using List.head?_dropWhile_not (p := (· < k)) (l := ks)

section

variable {a fuel t : Nat} {T : BTree} {A B : List Int} {k : Int}

theorem leaf_inorder (ks : List Int) : (Tree.mk a ks ([] : List (Tree 0))).inorder = ks := by
  rw [Tree.inorder_succ]
  exact weave_nil_left ks

/-- The key found in a leaf: the last key of all takes the root with it. -/
theorem delete_leaf_found (fuel : Nat) (ht : Degree T.t)
    (hst : Stored T.heap (Tree.mk a (A ++ k :: B) ([] : List (Tree 0))))
    (hlen : (A ++ k :: B).length ≤ 2 * T.t - 1) (hA : ∀ x ∈ A, x < k) :
    ∃ h', Rewrites T.heap (Tree.mk a (A ++ k :: B) ([] : List (Tree 0))) h'
      (Tree.mk a (A ++ B) []) ∧
      btreeDeleteKey (fuel + 1) T (some a) k =
        if A ++ B = [] then some { T with root := none, heap := T.heap.erase a }
        else some { T with heap := h' } := by
  obtain ⟨r, hget, hr⟩ : At T.heap a (A ++ k :: B) _ := hst.rep.at
  refine ⟨T.heap.put a (shrunkRecord r A.length),
    ⟨⟨⟨⟨_, get_put_self _ _ _, hr.shrunkRecord⟩, by simp⟩, hst.nodup, hst.bound⟩, rfl,
      Nat.le_refl _,
      fun p hp => .inl hp, fun p hp _ => ?_⟩, ?_⟩
  · exact get_put_of_ne _ _ (fun he => hp (he ▸ Tree.addr_mem_cells))
  · rw [btreeDeleteKey_found ht.2 hget hr hlen hA, if_pos (hr.leaf.mpr rfl),
      deleteFromLeaf_eq ht.2 hget (by simp [hr.num]) (hr.num ▸ hlen)]
    refine if_congr ?_ rfl rfl
    rw [hr.num, ← List.length_eq_zero_iff]
    simp only [List.length_append, List.length_cons]
    omega

/-- "Cannot del key". -/
theorem delete_leaf_absent (hst : Stored T.heap (Tree.mk a (A ++ B) ([] : List (Tree 0))))
    (hlen : (A ++ B).length ≤ 2 * T.t - 1) (ht : Degree T.t) (hA : ∀ x ∈ A, x < k)
    (hB : ∀ x, B.head? = some x → k < x) : btreeDeleteKey (fuel + 1) T (some a) k = some T := by
  obtain ⟨r, hget, hr⟩ : At T.heap a (A ++ B) _ := hst.rep.at
  rw [btreeDeleteKey_absent ht.2 hget hr hlen hA hB,
    hr.loads_child hget (.inl rfl) ht.2 (by simp at hlen; omega)]
  rfl

theorem deletes_leaf_found :
    Deletes t (Tree.mk a (A ++ k :: B) ([] : List (Tree 0))) k (A ++ B) where
  absent := fun hno => absurd (by rw [leaf_inorder]; simp) hno
  perm := fun _ _ => by
    rw [leaf_inorder]
    exact List.perm_middle.symm
  sorted := fun hs _ => by
    rw [leaf_inorder] at hs
    refine ⟨fun _ => trivial, fun _ => ?_⟩
    exact (sorted_middle (C := [k]) (D := []) hs (by simp)).mpr List.Pairwise.nil

theorem deletes_leaf_absent (hA : ∀ x ∈ A, x < k) (hB : ∀ x, B.head? = some x → k < x) :
    Deletes t (Tree.mk a (A ++ B) ([] : List (Tree 0))) k (A ++ B) := by
  -- in a sorted leaf the scan would have found the key
  have hno (hs : Sorted (Tree.mk a (A ++ B) ([] : List (Tree 0))).inorder)
      (hk : k ∈ (Tree.mk a (A ++ B) ([] : List (Tree 0))).inorder) : False := by
    rw [leaf_inorder] at hs hk
    rcases List.mem_append.mp hk with hk | hk
    · exact absurd (hA k hk) (by omega)
    · cases B with
      | nil => simp at hk
      | cons b B =>
          have hb := hB b rfl
          rcases List.mem_cons.mp hk with rfl | hk
          · omega
          · have := (sorted_cons.mp hs.right).1 k hk
            omega
  exact ⟨fun _ => (leaf_inorder _).symm, fun hs hk => (hno hs hk).elim,
    fun hs hk => (hno hs hk).elim⟩

end

/-- A leaf has the key behind the smaller ones, or has it nowhere the scan looks. -/
theorem leaf_cases (n : Tree 1) (k : Int) :
    (∃ A B, n = Tree.mk n.addr (A ++ k :: B) [] ∧ ∀ x ∈ A, x < k) ∨
    ∃ A B, n = Tree.mk n.addr (A ++ B) [] ∧ (∀ x ∈ A, x < k) ∧ ∀ x, B.head? = some x → k < x := by
  obtain ⟨A, B, hks, hA, hB⟩ := exists_scan n.keys k
  have hn : n = Tree.mk n.addr (A ++ B) [] := by
    rw [← hks, ← Tree.eq_nil n.kids, Tree.mk_eta]
  by_cases hk : B.head? = some k
  · obtain ⟨B, rfl⟩ := List.head?_eq_some_iff.mp hk
    exact .inl ⟨A, B, hn, hA⟩
  · refine .inr ⟨A, B, hn, hA, fun x hx => ?_⟩
    have hxk : x ≠ k := fun he => hk (he ▸ hx)
    have := hB x hx
    omega

/-! ## The descent -/

theorem Plan.node_shape {d t lo a : Nat} {p : Plan (d + 1)} {c : Tree (d + 1)}
    (hs : (p.node a p.child).Shape t lo) (hc : c.Shape t (t - 1)) : (p.node a c).Shape t lo :=
  shape_local (M := [p.child]) (N := [c]) hs (by simpa using hc) rfl hs.low (Nat.le_refl _)

/--
**`btree_delete_key` below the root.** A node with `t` keys is never emptied, so the
tree keeps its root and its height. By induction on the height: one move, then the
child.
-/
theorem btreeDeleteKey_spec {d : Nat} (n : Tree (d + 1)) {T : BTree} (k : Int) (fuel : Nat)
    (ht : Degree T.t) (hst : Stored T.heap n) (hs : n.Shape T.t T.t) (hfuel : d < fuel) :
    (DelSafe T.t n k → ∃ h' n', btreeDeleteKey fuel T (some n.addr) k = some { T with heap := h' } ∧
      Rewrites T.heap n h' n' ∧ n'.Shape T.t (T.t - 1) ∧ Deletes T.t n k n'.inorder) ∧
    (¬ DelSafe T.t n k → btreeDeleteKey fuel T (some n.addr) k = none) := by
  induction d generalizing T k fuel with
  | zero =>
      obtain ⟨fuel, rfl⟩ : ∃ m, fuel = m + 1 := ⟨fuel - 1, by omega⟩
      refine ⟨fun _ => ?_, fun hno => absurd trivial hno⟩
      have hlow := hs.low
      have hhigh := hs.high
      rcases leaf_cases n k with ⟨A, B, hn, hA⟩ | ⟨A, B, hn, hA, hB⟩
      · generalize n.addr = a at hn
        subst hn
        obtain ⟨h', hw, hrun⟩ := delete_leaf_found fuel ht hst hhigh hA
        have hlen : (A ++ B).length + 1 = (A ++ k :: B).length := by simp; omega
        rw [Tree.keys_mk, ← hlen] at hlow hhigh
        rw [if_neg (List.length_pos_iff.mp (by omega))] at hrun
        refine ⟨h', _, hrun, hw, Tree.shape_mk.mpr ⟨by omega, by omega, by simp, by simp⟩, ?_⟩
        rw [leaf_inorder]
        exact deletes_leaf_found
      · generalize n.addr = a at hn
        subst hn
        refine ⟨T.heap, _, delete_leaf_absent hst hhigh ht hA hB,
          ⟨hst, rfl, Nat.le_refl _, fun p hp => .inl hp, fun p _ _ => rfl⟩,
            hs.weaken (by omega), ?_⟩
        rw [leaf_inorder]
        exact deletes_leaf_absent hA hB
  | succ d ih =>
      obtain ⟨fuel, rfl⟩ : ∃ m, fuel = m + 1 := ⟨fuel - 1, by omega⟩
      have hlow := hs.low
      have hne : n.keys ≠ [] := List.length_pos_iff.mp (by omega)
      obtain ⟨p, hp, hm⟩ := plan_moves (k := k) ht.1 hs hne
      obtain ⟨h₁, hw₁, hrun, hstuck⟩ := hm.steps fuel ht hst hs hne
      obtain ⟨hcs, hns⟩ := hm.shape ht.1 hs
      have hkeys : p.keysL ++ p.keysR ≠ [] := by
        have := hns.low
        exact List.length_pos_iff.mp (by rw [Plan.node, Tree.keys_mk] at this; omega)
      rw [Plan.target, if_neg hkeys] at hrun
      rw [delSafe_iff hp]
      constructor
      · rintro ⟨hok, hsafe⟩
        obtain ⟨h', c', hrun', hw', hcs', hdel⟩ :=
          (ih p.child (T := { T with heap := h₁ }) p.key fuel ht
          hw₁.stored.mid hcs (by omega)).1 hsafe
        refine ⟨h', p.node n.addr c', (hrun hok).trans hrun', hw₁.trans (hw'.in_kid hw₁.stored),
          Plan.node_shape hns hcs', ?_⟩
        exact (hm.reads hs).deletes hp hdel
      · intro hno
        by_cases hok : p.Allowed T.t n.keys.length
        · rw [hrun hok]
          exact (ih p.child (T := { T with heap := h₁ }) p.key fuel ht hw₁.stored.mid hcs
            (by omega)).2 (fun hsafe => hno ⟨hok, hsafe⟩)
        · exact hstuck hok

/-! ## The root -/

/-- What `btree_delete` may leave: no tree, if a leaf with `k` was all there was, or a tree. -/
def Leaves {d : Nat} (T : BTree) (n : Tree (d + 1)) (k : Int) (T' : BTree) : Prop :=
  (T'.root = none ∧ d = 0 ∧ n.inorder = [k]) ∨
  ∃ d', ∃ n' : Tree (d' + 1), T'.root = some n'.addr ∧ Stored T'.heap n' ∧ n'.Shape T.t 0 ∧
    TopKeyed n' ∧ Deletes T.t n k n'.inorder

theorem btreeDelete_leaf {T : BTree} {n : Tree 1} (k : Int) (ht : Degree T.t)
    (hroot : T.root = some n.addr) (hst : Stored T.heap n) (hs : n.Shape T.t 0) :
    ∃ T', btreeDelete T k = some (0, T') ∧ T'.t = T.t ∧ Leaves T n k T' := by
  have hhigh := hs.high
  rw [btreeDelete, hroot]
  rcases leaf_cases n k with ⟨A, B, hn, hA⟩ | ⟨A, B, hn, hA, hB⟩
  · generalize n.addr = a at hn
    subst hn
    obtain ⟨h', hw, hrun⟩ := delete_leaf_found (T.heap.next + 1) ht hst hhigh hA
    dsimp only
    rw [hrun]
    by_cases hempty : A ++ B = []
    · rw [if_pos hempty]
      obtain ⟨rfl, rfl⟩ := List.append_eq_nil_iff.mp hempty
      exact ⟨_, rfl, rfl, .inl ⟨rfl, rfl, leaf_inorder _⟩⟩
    · rw [if_neg hempty]
      refine ⟨_, rfl, rfl, .inr ⟨0, Tree.mk a (A ++ B) [], hroot, hw.stored,
        Tree.shape_mk.mpr ⟨by omega, ?_, by simp,
        by simp⟩, by simp [TopKeyed], ?_⟩⟩
      · simp at hhigh ⊢; omega
      · rw [leaf_inorder]
        exact deletes_leaf_found
  · generalize n.addr = a at hn
    subst hn
    dsimp only
    rw [delete_leaf_absent hst hhigh ht hA hB]
    refine ⟨T, rfl, rfl, .inr ⟨0, _, hroot, hst, hs, by simp [TopKeyed], ?_⟩⟩
    rw [leaf_inorder]
    exact deletes_leaf_absent hA hB

/-- A node without keys reads as its only child. -/
theorem Plan.node_single {d t lo a : Nat} {p : Plan (d + 1)} {c : Tree (d + 1)}
    (hs : (p.node a c).Shape t lo) (hempty : p.keysL ++ p.keysR = []) :
    (p.node a c).inorder = c.inorder := by
  have hkids := hs.kids_length
  rw [Plan.node, Tree.kids_mk, Tree.keys_mk, hempty] at hkids
  have hL : p.kidsL = [] := List.eq_nil_of_length_eq_zero (by simp at hkids; omega)
  have hR : p.kidsR = [] := List.eq_nil_of_length_eq_zero (by simp at hkids; omega)
  rw [Plan.node, hempty, hL, hR, Tree.inorder_succ]
  simp

/-- **`btree_delete`**, from any tree in the heap, sorted or not. -/
theorem btreeDelete_spec {T : BTree} {d : Nat} {n : Tree (d + 1)} (k : Int) (ht : Degree T.t)
    (hroot : T.root = some n.addr) (hst : Stored T.heap n) (hs : n.Shape T.t 0)
    (htop : TopKeyed n) :
    (DelSafe T.t n k → ∃ T', btreeDelete T k = some (0, T') ∧ T'.t = T.t ∧ Leaves T n k T') ∧
    (¬ DelSafe T.t n k → btreeDelete T k = none) := by
  cases d with
  | zero => exact ⟨fun _ => btreeDelete_leaf k ht hroot hst hs, fun hno => absurd trivial hno⟩
  | succ d =>
      have hne : n.keys ≠ [] := htop (Nat.succ_ne_zero d)
      have hheight := hst.height_le hs
      obtain ⟨p, hp, hm⟩ := plan_moves (k := k) ht.1 hs hne
      obtain ⟨h₁, hw₁, hrun, hstuck⟩ := hm.steps (T.heap.next + 1) ht hst hs hne
      obtain ⟨hcs, hns⟩ := hm.shape ht.1 hs
      rw [btreeDelete, hroot]
      dsimp only
      -- the child, in the heap the move leaves
      have hstc : Stored (p.target T n.addr h₁).heap p.child := by
        unfold Plan.target
        split
        · obtain ⟨hac, -⟩ := hw₁.stored.mid_disjoint
          refine ⟨hw₁.stored.mid.rep.frame (fun q hq => ?_), hw₁.stored.mid.nodup,
            hw₁.stored.mid.bound⟩
          exact get_erase_of_ne _ (fun he => hac (he ▸ hq))
        · exact hw₁.stored.mid
      have htt : (p.target T n.addr h₁).t = T.t := by
        unfold Plan.target
        split <;> rfl
      have hrec := btreeDeleteKey_spec p.child (T := p.target T n.addr h₁) p.key (T.heap.next + 1)
        (htt ▸ ht) hstc (htt ▸ hcs) (by omega)
      rw [delSafe_iff hp]
      rw [htt] at hrec
      constructor
      · rintro ⟨hok, hsafe⟩
        obtain ⟨h', c', hrun', hw', hcs', hdel⟩ := hrec.1 hsafe
        rw [hrun hok, hrun']
        refine ⟨_, rfl, rfl, .inr ?_⟩
        have hread := (hm.reads hs).deletes (a := n.addr) hp hdel
        by_cases hempty : p.keysL ++ p.keysR = []
        · -- the root is gone, and the merged child is the root
          refine ⟨d, c', ?_, hw'.stored, hcs'.weaken (Nat.zero_le _), fun _ => ?_, ?_⟩
          · rw [Plan.target, if_pos hempty, hw'.addr]
          · have := hcs'.low
            exact List.length_pos_iff.mp (by omega)
          · rwa [Plan.node_single (Plan.node_shape hns hcs') hempty] at hread
        · rw [Plan.target, if_neg hempty] at hw' ⊢
          exact ⟨d + 1, p.node n.addr c', hroot, (hw'.in_kid hw₁.stored).stored,
            Plan.node_shape hns hcs', fun _ => hempty, hread⟩
      · intro hno
        by_cases hok : p.Allowed T.t n.keys.length
        · rw [hrun hok, hrec.2 (fun hsafe => hno ⟨hok, hsafe⟩)]
          rfl
        · rw [hstuck hok]
          rfl

/-- Where an `int` does not hold `2 * t` the first access of a deletion goes wrong. -/
theorem btreeDelete_large {T : BTree} {p : Nat} {r : BTreeNode} (hint : ¬ 2 * T.t < 2 ^ 31)
    (hroot : T.root = some p) (hget : T.heap.get p = some r) (k : Int) :
    btreeDelete T k = none := by
  have hkz := keysOf_size_large hint
  have hcz := childrensOf_size_large hint
  have hload (i : Nat) : T.heap.load (keysOf T.t) p i = none := load_eq_none (by omega)
  have hchild (i : Nat) : T.heap.load (childrensOf T.t) p i = none := load_eq_none (by omega)
  rw [btreeDelete, hroot]
  dsimp only
  rw [btreeDeleteKey]
  simp only [Option.bind_eq_bind, hget, Option.bind_some]
  cases r.num with
  | zero =>
      -- no key to compare with, and no child to go to
      simp only [deleteScan, Option.bind_some, keyAt, Nat.lt_irrefl, if_false, Bool.false_eq_true,
        hchild, Option.bind_none, Option.map_none]
  | succ m =>
      simp only [deleteScan, Option.bind_eq_bind, hload, Option.bind_none, Option.map_none]

end CppTrack.Storage
