import CppTrack.Storage.BTreeContents

/-!
# Memory safety of the B-tree over whole histories

A history is any list of insertions and deletions on a tree made by `btree_create`.
It stays within the arrays, off freed nodes and off null pointers exactly as long as
no insertion meets an emptied tree and every deletion is `DelSafe` on the tree it
meets, if the nodes have arrays at all. What the keys are does not matter here, only
how many there are where.
-/

namespace CppTrack.Storage

open Lib Heap

inductive Op
  | insert (key : Int)
  | delete (key : Int)

/-- One call; the return code of `btree_delete` is not looked at. -/
def stepOp (T : BTree) : Op → Option BTree
  | .insert key => btreeInsert T key
  | .delete key => (btreeDelete T key).map Prod.snd

/-- `T` holds the tree `n`, in order or not. -/
structure HoldsTree (T : BTree) {d : Nat} (n : Tree (d + 1)) : Prop where
  root : T.root = some n.addr
  stored : Stored T.heap n
  shape : n.Shape T.t 0
  top : TopKeyed n

/-- `T` holds a tree, or no tree any more. -/
def Sound (T : BTree) : Prop :=
  2 ≤ T.t ∧ (T.root = none ∧ 2 * T.t < 2 ^ 31 ∨ ∃ d, ∃ n : Tree (d + 1), HoldsTree T n)

/--
The calls the code can take: an `int` must hold `2 * t`, an insertion needs a root, and a
deletion a safe descent through the tree that is there.
-/
def Accepts (T : BTree) : Op → Prop
  | .insert _ => 2 * T.t < 2 ^ 31 ∧ T.root ≠ none
  | .delete key =>
      2 * T.t < 2 ^ 31 ∧ ∀ d, ∀ n : Tree (d + 1), HoldsTree T n → DelSafe T.t n key

theorem btreeCreate_sound {t : Nat} (ht : 2 ≤ t) : Sound (btreeCreate t) := by
  have hwf := btreeCreate_wellFormed ht
  exact ⟨ht, .inr ⟨0, _, hwf.root, hwf.stored, hwf.shape, by simp [TopKeyed]⟩⟩

theorem insert_sound {T : BTree} {d : Nat} {n : Tree (d + 1)} (key : Int) (ht : Degree T.t)
    (hn : HoldsTree T n) : ∃ T', btreeInsert T key = some T' ∧ Sound T' := by
  obtain ⟨T', d', n', hins, ht', hroot, hst, hs, htop, -, -⟩ :=
    btreeInsert_spec ht hn.root hn.stored hn.shape key
  exact ⟨T', hins, ht' ▸ ht.1, .inr ⟨d', n', hroot, hst, ht' ▸ hs, htop hn.top⟩⟩

theorem delete_sound {T : BTree} {d : Nat} {n : Tree (d + 1)} (key : Int) (ht : Degree T.t)
    (hn : HoldsTree T n) (hsafe : DelSafe T.t n key) :
    ∃ T', btreeDelete T key = some (0, T') ∧ Sound T' := by
  obtain ⟨T', hdel, ht', hleaves⟩ :=
    (btreeDelete_spec key ht hn.root hn.stored hn.shape hn.top).1 hsafe
  refine ⟨T', hdel, ht' ▸ ht.1, ?_⟩
  rcases hleaves with ⟨hnone, -, -⟩ | ⟨d', n', hroot, hst, hs, htop, -⟩
  · exact .inl ⟨hnone, ht' ▸ ht.2⟩
  · exact .inr ⟨d', n', hroot, hst, ht' ▸ hs, htop⟩

/-- A call the code can take is made, and leaves the tree sound. -/
theorem sound_step (T : BTree) (op : Op) (hT : Sound T) (hop : Accepts T op) :
    ∃ T', stepOp T op = some T' ∧ Sound T' := by
  obtain ⟨ht, ⟨hnone, hint⟩ | ⟨d, n, hn⟩⟩ := hT
  · cases op with
    | insert key => exact absurd hnone hop.2
    | delete key =>
        -- an empty tree: -1, and nothing happens
        refine ⟨T, ?_, ht, .inl ⟨hnone, hint⟩⟩
        simp [stepOp, btreeDelete, hnone]
  · cases op with
    | insert key => exact insert_sound key ⟨ht, hop.1⟩ hn
    | delete key =>
        obtain ⟨T', hdel, hT'⟩ := delete_sound key ⟨ht, hop.1⟩ hn (hop.2 d n hn)
        exact ⟨T', by simp [stepOp, hdel], hT'⟩

/-- Any other call is an access out of bounds, to a freed node or through null. -/
theorem stuck_step (T : BTree) (op : Op) (hT : Sound T) (hop : ¬ Accepts T op) :
    stepOp T op = none := by
  obtain ⟨ht, ⟨hnone, hint⟩ | ⟨d, n, hn⟩⟩ := hT
  · cases op with
    | insert key => simp [stepOp, btreeInsert, hnone]
    | delete key =>
        -- nothing can go wrong where there is no tree
        refine absurd ⟨hint, fun d n hn => ?_⟩ hop
        exact absurd (hnone.symm.trans hn.root) nofun
  · obtain ⟨r, hget, -⟩ := hn.stored.rep.at
    by_cases hint : 2 * T.t < 2 ^ 31
    · cases op with
      | insert key =>
          refine absurd ⟨hint, ?_⟩ hop
          rw [hn.root]
          exact nofun
      | delete key =>
          simp only [Accepts, hint, true_and, not_forall] at hop
          obtain ⟨d', n', hn', hno⟩ := hop
          have hdel :=
            (btreeDelete_spec key ⟨ht, hint⟩ hn'.root hn'.stored hn'.shape hn'.top).2 hno
          simp [stepOp, hdel]
    · cases op with
      | insert key => exact btreeInsert_large hint hn.root hget key
      | delete key => simp [stepOp, btreeDelete_large hint hn.root hget key]

/--
**Memory safety.** A history goes through, with every access inside its array and to
a live node, if and only if each of its calls is one the code can take.
-/
theorem history_safe_iff {t : Nat} (ht : 2 ≤ t) (ops : List Op) :
    (∃ T', run stepOp (btreeCreate t) ops = some T') ↔ Meets stepOp Accepts (btreeCreate t) ops :=
  run_isSome_iff_meets Accepts sound_step stuck_step ops (btreeCreate t) (btreeCreate_sound ht)

theorem history_safe_iff_three : 2 ≤ 2 ∧
    ((∃ T', run stepOp (btreeCreate 2) [.insert 1, .insert 2, .delete 1] = some T') ↔
      Meets stepOp Accepts (btreeCreate 2) [.insert 1, .insert 2, .delete 1]) :=
  ⟨Nat.le_refl 2, history_safe_iff (Nat.le_refl 2) [.insert 1, .insert 2, .delete 1]⟩

/--
Three histories that do not go through: inserting after the last key was deleted
dereferences the null root; deleting the only key of a root over two minimal leaves
reads the root after the merge has freed it; a merge under a full root stores past
the end of its `childrens`.
-/
theorem histories_unsafe :
    run stepOp (btreeCreate 2) [.insert 1, .delete 1, .insert 2] = none ∧
    run stepOp (btreeCreate 2) [.insert 1, .insert 2, .insert 3, .insert 4, .delete 4, .delete 2] =
      none ∧
    run stepOp (btreeCreate 2) [.insert 1, .insert 2, .insert 3, .insert 4, .insert 5, .insert 6,
      .insert 7, .insert 8, .delete 1] = none := by
  refine ⟨?_, ?_, ?_⟩
  all_goals
    rw [← Option.isNone_iff_eq_none]
    decide +kernel

end CppTrack.Storage
