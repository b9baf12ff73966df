import CppTrack.Timers.SkipListQueue

/-!
# Which node `zslDelete` takes out

The search goes by the score alone. So the node that is unlinked and freed is the first with the
score of the node that was asked for, and that is another one wherever a node of the same score was
inserted later.
-/

namespace CppTrack.SkipList

open Lib

/-- `zslDelete` unlinks `zn` on every level and frees it, and does so with no other node. -/
def Removes (s : Zskiplist) (zn : Nat) : Prop :=
  ∃ s', zslDelete s zn = some s' ∧
    (∀ i, i < maxLevel → s'.chain i = (s.chain i).map fun xs => xs.filter fun x => x ≠ zn) ∧
    ∀ x, (s'.heap.get x).isSome ↔ (s.heap.get x).isSome ∧ x ≠ zn

/-- No node before `zn` has its score. -/
def FirstOfScore (s : Zskiplist) (zn : Nat) : Prop :=
  ∀ xs, s.chain 0 = some xs → ∀ x ∈ xs.takeWhile fun x => x ≠ zn,
    score s.heap x ≠ score s.heap zn

section

variable {s : Zskiplist} {xs pre post : List Nat} {zn x : Nat} {h : NodeHeap}

theorem isSome_info (h : NodeHeap) (x : Nat) : (info h x).isSome = (h.get x).isSome :=
  Option.isSome_map

theorem filter_ne_middle (hnd : (pre ++ x :: post).Nodup) :
    (pre ++ x :: post).filter (fun y => y ≠ x) = pre ++ post := by
  have hout := (List.nodup_cons.mp (List.nodup_middle.mp hnd)).1
  have hne : ∀ y ∈ pre ++ post, y ≠ x := fun y hy he => hout (he ▸ hy)
  rw [List.filter_append, List.filter_cons_of_neg (by simp), ← List.filter_append]
  exact List.filter_eq_self.mpr fun y hy => decide_eq_true (hne y hy)

/-- The nodes before one that comes behind `pre`. -/
theorem takeWhile_ne_middle (hpre : ∀ y ∈ pre, y ≠ x) :
    (pre ++ x :: post).takeWhile (fun y => y ≠ x) = pre := by
  rw [List.takeWhile_append_of_pos (fun y hy => decide_eq_true (hpre y hy)),
    List.takeWhile_cons_of_neg (by simp), List.append_nil]

theorem Represents.removes_iff (hr : Represents s xs) (hzn : zn ∈ xs) :
    Removes s zn ↔ FirstOfScore s zn := by
  obtain ⟨pre, x, post, rfl, -, -, hless, hx⟩ := hr.first_of_score hzn
  have hnot : ∀ y ∈ pre, y ≠ zn := fun y hy he => Nat.ne_of_lt (hless y hy) (he ▸ rfl)
  obtain ⟨s', hrun, hr', -, hinfo, hgone⟩ := zslDelete_represents hr hzn hless hx
  have hnd := (List.nodup_cons.mp hr.nodup).2
  have hchain : s.chain 0 = some (pre ++ x :: post) := by
    rw [hr.chain_eq (by decide), hr.level_zero]
  have hchain' : s'.chain 0 = some (pre ++ post) := by
    rw [hr'.chain_eq (by decide), hr'.level_zero]
  have hscore : ∀ y ∈ pre ++ x :: post, score s.heap y = some (sc s.heap y) :=
    fun y hy => score_eq (hr.live (List.mem_cons_of_mem _ hy))
  constructor
  · rintro ⟨s'', hrun', hchains, -⟩
    obtain rfl : s' = s'' := Option.some.inj (hrun.symm.trans hrun')
    -- `zn` is not in the chain any more, so it is the node that was unlinked
    have heq : zn = x := by
      have hzero := hchains 0 (by decide)
      rw [hchain', hchain, Option.map_some, Option.some.injEq] at hzero
      have hout : zn ∉ pre ++ post := by
        rw [hzero, List.mem_filter]
        simp
      by_contra hne
      refine hout ?_
      rcases List.mem_append.mp hzn with hin | hin
      · exact List.mem_append_left _ hin
      · exact List.mem_append_right _ ((List.mem_cons.mp hin).resolve_left hne)
    subst heq
    intro ys hys y hy
    obtain rfl : pre ++ zn :: post = ys := Option.some.inj (hchain.symm.trans hys)
    rw [takeWhile_ne_middle hnot] at hy
    rw [hscore y (List.mem_append_left _ hy), hscore zn hzn]
    exact fun he => Nat.ne_of_lt (hless y hy) (Option.some.inj he)
  · intro hfirst
    -- the node that is unlinked is not before `zn`
    have heq : x = zn := by
      by_contra hne
      have hin : x ∈ (pre ++ x :: post).takeWhile fun y => y ≠ zn := by
        rw [List.takeWhile_append_of_pos (fun y hy => decide_eq_true (hnot y hy)),
          List.takeWhile_cons_of_pos (by simpa using hne)]
        exact List.mem_append_right _ List.mem_cons_self
      refine hfirst _ hchain x hin ?_
      rw [hscore x (by simp), hscore zn hzn, hx]
    subst heq
    refine ⟨s', hrun, ?_, ?_⟩
    · intro i hi
      have hsame : level s'.heap i (pre ++ post) = level s.heap i (pre ++ post) := by
        refine level_congr fun y hy => ?_
        have hne : y ≠ x := by
          rw [← filter_ne_middle hnd, List.mem_filter] at hy
          exact of_decide_eq_true hy.2
        rw [lv, hinfo y hne, ← lv]
      rw [hr'.chain_eq hi, hr.chain_eq hi, hsame, Option.map_some, ← filter_ne_middle hnd, level,
        level, List.filter_filter, List.filter_filter]
      simp only [Bool.and_comm]
    · intro y
      rw [← isSome_info, ← isSome_info]
      by_cases hy : y = x
      · rw [hy, hgone]
        simp
      · rw [hinfo y hy]
        exact (and_iff_left hy).symm

end

/--
**The right node is taken out where it is the first of its score.** After any calls, of a node that
is in the list, `zslDelete` unlinks and frees just that one if and only if none before it has the
same score.
-/
theorem zslDelete_removes_iff (ops : List Op)
    (hops : ∀ s, zslCreate = some s → Meets step Accepts s ops) :
    ∃ s xs, history ops = some s ∧ s.chain 0 = some xs ∧
      ∀ zn ∈ xs, Removes s zn ↔ FirstOfScore s zn := by
  obtain ⟨s₀, h₀, hh₀⟩ := zslCreate_holds
  have hstep : ∀ s op, (∃ q, Holds s q) → Accepts s op →
      ∃ s', step s op = some s' ∧ ∃ q, Holds s' q := by
    rintro s op ⟨q, hh⟩ hop
    obtain ⟨s', hrun, hh'⟩ := hh.step hop
    exact ⟨s', hrun, _, hh'⟩
  obtain ⟨s, hrun, q, xs, hr, -⟩ := run_meets Accepts hstep ops s₀ ⟨_, hh₀⟩ (hops s₀ h₀)
  refine ⟨s, xs, ?_, ?_, fun zn hzn => hr.removes_iff hzn⟩
  · rw [history, h₀]
    exact hrun
  · rw [hr.chain_eq (by decide), hr.level_zero]

/-- Two nodes of one score and one of another; two are taken out again. -/
theorem zslDelete_removes_iff_four :
    ∃ s xs, history [.insert 1 5 7, .insert 3 5 8, .insert 2 4 9, .delete 1, .deleteHead] = some s ∧
      s.chain 0 = some xs ∧ ∀ zn ∈ xs, Removes s zn ↔ FirstOfScore s zn := by
  have hm : ∀ o : Option Zskiplist, (∀ s ∈ o, Meets step Accepts s
      [.insert 1 5 7, .insert 3 5 8, .insert 2 4 9, .delete 1, .deleteHead]) → ∀ s, o = some s →
      Meets step Accepts s [.insert 1 5 7, .insert 3 5 8, .insert 2 4 9, .delete 1, .deleteHead] :=
    fun o ho s he => ho s he
  exact zslDelete_removes_iff _ (hm zslCreate (by decide +kernel))

/-- Of two nodes of one score the one inserted first is asked for, and the other is freed. -/
theorem zslDelete_other : ∃ s s', history [.insert 1 5 7, .insert 1 5 8] = some s ∧
    s.chain 0 = some [2, 1] ∧ zslDelete s 1 = some s' ∧ s'.chain 0 = some [1] ∧
    (s'.heap.get 2).isNone ∧ ¬ Removes s 1 := by
  have h : (history [.insert 1 5 7, .insert 1 5 8]).any (fun s => s.chain 0 = some [2, 1] ∧
      (zslDelete s 1).any (fun s' => s'.chain 0 = some [1] ∧ (s'.heap.get 2).isNone)) = true := by
    decide +kernel
  obtain ⟨s, hs, hdelete⟩ := (Option.any_eq_true _ _).mp h
  obtain ⟨hchain, hdelete⟩ := of_decide_eq_true hdelete
  obtain ⟨s', hs', hrest⟩ := (Option.any_eq_true _ _).mp hdelete
  obtain ⟨hchain', hfree⟩ := of_decide_eq_true hrest
  refine ⟨s, s', hs, hchain, hs', hchain', hfree, ?_⟩
  rintro ⟨s'', hs'', hchains, -⟩
  obtain rfl : s' = s'' := Option.some.inj (hs'.symm.trans hs'')
  have hzero := hchains 0 (by decide)
  rw [hchain, hchain'] at hzero
  revert hzero
  decide

end CppTrack.SkipList
