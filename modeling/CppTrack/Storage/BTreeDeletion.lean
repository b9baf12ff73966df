import CppTrack.Storage.BTreeContents

/-!
# When deletion from the B-tree is right

For a present key it is right exactly when the descent is safe and every key it
overwrites gets the right value; for an absent key, exactly when the descent is safe.
Neither can be dropped: the trees below are what ten and eight insertions make. And an
`int` must hold `2 * t`, since a node has no arrays otherwise.
-/

namespace CppTrack.Storage

open Lib Heap

/-- `btree_delete` removes `k` once and leaves a well-formed tree, or none if `k` was all. -/
def RemovesKey {d : Nat} (T : BTree) (n : Tree (d + 1)) (k : Int) : Prop :=
  ∃ T', btreeDelete T k = some (0, T') ∧ T'.t = T.t ∧
    ((T'.root = none ∧ n.inorder = [k]) ∨
      ∃ d', ∃ n' : Tree (d' + 1), WellFormed T' n' ∧ traverse T' = some (n.inorder.erase k))

/-- `btree_delete` leaves a well-formed tree with the same keys. -/
def KeepsKeys {d : Nat} (T : BTree) (n : Tree (d + 1)) (k : Int) : Prop :=
  ∃ T', btreeDelete T k = some (0, T') ∧ T'.t = T.t ∧
    ∃ d', ∃ n' : Tree (d' + 1), WellFormed T' n' ∧ traverse T' = some n.inorder

/-- A deletion that goes through was made on nodes with arrays. -/
theorem degree_of_result {d : Nat} {T T' : BTree} {n : Tree (d + 1)} {k : Int}
    (hwf : WellFormed T n) (h : btreeDelete T k = some (0, T')) : Degree T.t := by
  by_contra hno
  have hint : ¬ 2 * T.t < 2 ^ 31 := fun hint => hno ⟨hwf.degree, hint⟩
  obtain ⟨r, hget, -⟩ := hwf.stored.rep.at
  rw [btreeDelete_large hint hwf.root hget k] at h
  exact absurd h nofun

section

variable {d : Nat} {T : BTree} {n : Tree (d + 1)} {k : Int} (hwf : WellFormed T n)
  (hne : n.keys ≠ [])
include hwf hne

theorem delSafe_of_result {T' : BTree} (h : btreeDelete T k = some (0, T')) : DelSafe T.t n k := by
  have ht := degree_of_result hwf h
  by_contra hno
  rw [(btreeDelete_spec k ht hwf.root hwf.stored hwf.shape (fun _ => hne)).2 hno] at h
  exact absurd h (by simp)

/-- **Deleting a present key** goes right in exactly these cases. -/
theorem removesKey_iff (hk : k ∈ n.inorder) :
    RemovesKey T n k ↔ 2 * T.t < 2 ^ 31 ∧ DelSafe T.t n k ∧ DelGood T.t n k := by
  have hsort := hwf.sorted
  have herase : Sorted (n.inorder.erase k) := hsort.sublist List.erase_sublist
  constructor
  · rintro ⟨T', hdel, ht, hres⟩
    have hdegree := degree_of_result hwf hdel
    have hsafe := delSafe_of_result hwf hne hdel
    refine ⟨hdegree.2, hsafe, ?_⟩
    obtain ⟨T₁, hdel₁, -, hleaves⟩ :=
      (btreeDelete_spec k hdegree hwf.root hwf.stored hwf.shape (fun _ => hne)).1 hsafe
    obtain rfl : T' = T₁ := by simpa [hdel] using hdel₁
    rcases hleaves with ⟨-, rfl, -⟩ | ⟨d₁, n₁, hroot₁, hst₁, hs₁, -, hd⟩
    · exact trivial
    · have htrav : traverse T' = some n₁.inorder :=
        traverse_eq (ht ▸ hdegree) hroot₁ hst₁ (ht ▸ hs₁)
      rcases hres with ⟨hnone, -⟩ | ⟨d', n', hwf', htrav'⟩
      · rw [hnone] at hroot₁
        exact absurd hroot₁ (by simp)
      · rw [htrav] at htrav'
        exact (hd.sorted hsort hk).mp (Option.some.inj htrav' ▸ herase)
  · rintro ⟨hint, hsafe, hgood⟩
    have hdegree : Degree T.t := ⟨hwf.degree, hint⟩
    obtain ⟨T', hdel, ht, hleaves⟩ :=
      (btreeDelete_spec k hdegree hwf.root hwf.stored hwf.shape (fun _ => hne)).1 hsafe
    refine ⟨T', hdel, ht, ?_⟩
    rcases hleaves with ⟨hnone, -, hall⟩ | ⟨d', n', hroot, hst, hs, -, hd⟩
    · exact .inl ⟨hnone, hall⟩
    · have hsorted := (hd.sorted hsort hk).mpr hgood
      have hread : n'.inorder = n.inorder.erase k :=
        hsorted.eq_of_perm herase (List.cons_perm_iff_perm_erase.mp (hd.perm hsort hk)).2
      rw [← ht] at hs
      refine .inr ⟨d', n', ⟨ht ▸ hwf.degree, hroot, hst, hs, ?_⟩, ?_⟩
      · exact (Tree.ordered_iff_sorted hs).mpr hsorted
      · rw [traverse_eq (ht ▸ hdegree) hroot hst hs, hread]

end

theorem removesKey_iff_five :
    ∃ T d, ∃ n : Tree (d + 1), run btreeInsert (btreeCreate 2) [1, 2, 3, 4, 5] = some T ∧
      WellFormed T n ∧ n.keys ≠ [] ∧ 2 ∈ n.inorder ∧
      (RemovesKey T n 2 ↔ 2 * T.t < 2 ^ 31 ∧ DelSafe T.t n 2 ∧ DelGood T.t n 2) := by
  obtain ⟨T, d, n, hrun, hwf, -, hperm, hne⟩ :=
    insert_run_create ⟨Nat.le_refl 2, by decide⟩ [1, 2, 3, 4, 5]
  have hk : 2 ∈ n.inorder := hperm.mem_iff.mpr (by simp)
  exact ⟨T, d, n, hrun, hwf, hne (by simp), hk, removesKey_iff hwf (hne (by simp)) hk⟩

/--
Ten keys in order make a tree of height three with 4 alone in the root. Its right
child is internal, so that child's first key, 6, is not the next one up: deleting 4
puts 6 before 5.
-/
theorem removesKey_fails_ten :
    ∃ T d, ∃ n : Tree (d + 1),
      run btreeInsert (btreeCreate 2) [1, 2, 3, 4, 5, 6, 7, 8, 9, 10] = some T ∧
      WellFormed T n ∧ n.keys ≠ [] ∧ 4 ∈ n.inorder ∧ ¬ RemovesKey T n 4 := by
  obtain ⟨T, d, n, hrun, hwf, -, hperm, hne⟩ :=
    insert_run_create ⟨Nat.le_refl 2, by decide⟩ [1, 2, 3, 4, 5, 6, 7, 8, 9, 10]
  have hread : n.inorder = [1, 2, 3, 4, 5, 6, 7, 8, 9, 10] :=
    hwf.sorted.eq_of_perm (by simp [Sorted]) hperm
  have heval : (run btreeInsert (btreeCreate 2) [1, 2, 3, 4, 5, 6, 7, 8, 9, 10]).bind (fun T =>
      (btreeDelete T 4).bind (fun r => traverse r.2)) = some [1, 2, 3, 6, 5, 7, 8, 9, 10] := by
    decide +kernel
  rw [hrun, Option.bind_some] at heval
  refine ⟨T, d, n, hrun, hwf, hne (by simp), by simp [hread], ?_⟩
  rintro ⟨T', hdel, -, hres⟩
  rw [hdel, Option.bind_some] at heval
  rcases hres with ⟨-, hall⟩ | ⟨-, -, -, htrav⟩
  · simp [hread] at hall
  · rw [htrav, hread] at heval
    exact absurd heval (by decide)

section

variable {d : Nat} {T : BTree} {n : Tree (d + 1)} {k : Int} (hwf : WellFormed T n)
  (hne : n.keys ≠ [])
include hwf hne

/-- **Deleting an absent key** changes nothing, as long as the descent is safe. -/
theorem keepsKeys_iff (hk : k ∉ n.inorder) :
    KeepsKeys T n k ↔ 2 * T.t < 2 ^ 31 ∧ DelSafe T.t n k := by
  constructor
  · rintro ⟨T', hdel, -⟩
    exact ⟨(degree_of_result hwf hdel).2, delSafe_of_result hwf hne hdel⟩
  · rintro ⟨hint, hsafe⟩
    have hdegree : Degree T.t := ⟨hwf.degree, hint⟩
    obtain ⟨T', hdel, ht, hleaves⟩ :=
      (btreeDelete_spec k hdegree hwf.root hwf.stored hwf.shape (fun _ => hne)).1 hsafe
    rcases hleaves with ⟨-, -, hall⟩ | ⟨d', n', hroot, hst, hs, -, hd⟩
    · exact absurd (by simp [hall]) hk
    · have hread := hd.absent hk
      rw [← ht] at hs
      refine ⟨T', hdel, ht, d', n', ⟨ht ▸ hwf.degree, hroot, hst, hs, ?_⟩, ?_⟩
      · exact (Tree.ordered_iff_sorted hs).mpr (hread ▸ hwf.sorted)
      · rw [traverse_eq (ht ▸ hdegree) hroot hst hs, hread]

end

theorem keepsKeys_iff_five :
    ∃ T d, ∃ n : Tree (d + 1), run btreeInsert (btreeCreate 2) [1, 2, 3, 4, 5] = some T ∧
      WellFormed T n ∧ n.keys ≠ [] ∧ 0 ∉ n.inorder ∧
      (KeepsKeys T n 0 ↔ 2 * T.t < 2 ^ 31 ∧ DelSafe T.t n 0) := by
  obtain ⟨T, d, n, hrun, hwf, -, hperm, hne⟩ :=
    insert_run_create ⟨Nat.le_refl 2, by decide⟩ [1, 2, 3, 4, 5]
  have hk : 0 ∉ n.inorder := fun h => absurd (hperm.mem_iff.mp h) (by simp)
  exact ⟨T, d, n, hrun, hwf, hne (by simp), hk, keepsKeys_iff hwf (hne (by simp)) hk⟩

/--
Eight keys in order make a tree with a full root over minimal children: on the way to
the absent key 0 two of them are merged, and `btree_merge` stores one past the end of
the root's `childrens`.
-/
theorem keepsKeys_fails_eight :
    ∃ T d, ∃ n : Tree (d + 1), run btreeInsert (btreeCreate 2) [1, 2, 3, 4, 5, 6, 7, 8] = some T ∧
      WellFormed T n ∧ n.keys ≠ [] ∧ 0 ∉ n.inorder ∧ btreeDelete T 0 = none ∧
        ¬ KeepsKeys T n 0 := by
  obtain ⟨T, d, n, hrun, hwf, -, hperm, hne⟩ :=
    insert_run_create ⟨Nat.le_refl 2, by decide⟩ [1, 2, 3, 4, 5, 6, 7, 8]
  have heval : ((run btreeInsert (btreeCreate 2) [1, 2, 3, 4, 5, 6, 7, 8]).bind (fun T =>
      btreeDelete T 0)).isNone = true := by
    decide +kernel
  rw [hrun, Option.bind_some, Option.isNone_iff_eq_none] at heval
  refine ⟨T, d, n, hrun, hwf, hne (by simp), ?_, heval, ?_⟩
  · exact fun h => absurd (hperm.mem_iff.mp h) (by simp)
  · rintro ⟨T', hdel, -⟩
    rw [heval] at hdel
    exact absurd hdel (by simp)

end CppTrack.Storage
