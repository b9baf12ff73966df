import CppTrack.Timers.SingleTw

/-!
# The node pool of the heartbeat wheel

`timer_nodes` is an array of `MAX_TIMER` elements, and `get_timer_node` takes the next node whose
`idx` is zero. The mask `MAX_TIMER` it looks at the index through is one less than a power of two,
so it lets `MAX_TIMER` itself through, which is one past the array; and the node it returns is at
the index as it stands, with no mask.

Until `t_iter` comes there the pool is sound: `idx` is positive exactly in the nodes that some slot
lists. It gets there in the call of `add_conn` number `MAX_TIMER`, however few nodes are pending.
-/

namespace CppTrack.SingleTw

open Lib Wheel

/-! ## Marked nodes -/

namespace Wheel

variable {w : Wheel} {t : Nat}

/-- The node stands in the list of some slot. -/
def Listed (w : Wheel) (t : Nat) : Prop := ∃ i, t ∈ w.tw i

/-- The nodes marked as in use are those that the slots list. -/
def Marked (w : Wheel) : Prop := ∀ t, 0 < (w.timerNodes t).idx ↔ w.Listed t

/-- The same by the record, which is right also while `check_conn` goes along a list. -/
def PendingMarked (w : Wheel) : Prop :=
  ∀ t, 0 < (w.timerNodes t).idx ↔ ∃ a ∈ w.pending, a.tnode = t

/-- The slots list the pending nodes. -/
theorem Filed.listed (hf : Filed w) : w.Listed t ↔ ∃ a ∈ w.pending, a.tnode = t := by
  constructor
  · rintro ⟨i, ht⟩
    rw [hf.slot i] at ht
    obtain ⟨a, ha, rfl⟩ := List.mem_map.mp ht
    exact ⟨a, (List.mem_filter.mp ha).1, rfl⟩
  · rintro ⟨a, ha, rfl⟩
    refine ⟨⟨a.visit % twSize, Nat.mod_lt _ (Nat.zero_lt_succ 15)⟩, ?_⟩
    rw [hf.slot]
    exact List.mem_map_of_mem (List.mem_filter.mpr ⟨ha, decide_eq_true rfl⟩)

theorem PendingMarked.marked (h : PendingMarked w) (hf : Filed w) : Marked w :=
  fun t => (h t).trans hf.listed.symm

theorem PendingMarked.filed (h : PendingMarked w) (hc : Counted w) (c d : Nat) :
    PendingMarked (w.filed c d) := by
  intro t
  rw [pending_filed hc.examined_le]
  show 0 < (Function.update w.timerNodes (w.tIter + 1) _ t).idx ↔ _
  rw [Function.update_apply]
  split
  · rename_i heq
    subst heq
    refine iff_of_true (Nat.zero_lt_succ _) ?_
    exact ⟨_, List.mem_append_right _ (List.mem_singleton_self _), rfl⟩
  · rename_i hne
    rw [h t]
    constructor
    · rintro ⟨a, ha, hat⟩
      exact ⟨a, List.mem_append_left _ ha, hat⟩
    · rintro ⟨a, ha, hat⟩
      rcases List.mem_append.mp ha with ha | ha
      · exact ⟨a, ha, hat⟩
      · obtain rfl := List.mem_singleton.mp ha
        exact absurd hat.symm hne

/-- The node that is examined is the one that loses its mark. -/
theorem PendingMarked.examine (h : PendingMarked w) (call temp : Nat) :
    PendingMarked (w.examine call temp) := by
  intro t
  rw [pending_examine]
  show 0 < (Function.update w.timerNodes temp _ t).idx ↔ _
  rw [Function.update_apply]
  split
  · rename_i heq
    refine iff_of_false (Nat.lt_irrefl 0) ?_
    rintro ⟨a, ha, hat⟩
    exact decide_eq_true_iff.mp (List.mem_filter.mp ha).2 (hat.trans heq)
  · rename_i hne
    rw [h t]
    refine exists_congr fun a => and_congr_left fun hat => ?_
    rw [List.mem_filter, decide_eq_true_eq, hat]
    exact (and_iff_left hne).symm

theorem PendingMarked.examineAll (l : List Nat) (call : Nat) (h : PendingMarked w) :
    PendingMarked (l.foldl (Wheel.examine call) w) := by
  induction l generalizing w with
  | nil => exact h
  | cons t l ih => exact ih (h.examine call t)

theorem PendingMarked.checkConn (h : PendingMarked w) : PendingMarked w.checkConn := by
  have h₁ : PendingMarked { w with tick := addU32 w.tick 1, calls := w.calls + 1 } := h
  exact h₁.examineAll (w.tw (slotOf w.tick)) w.calls

theorem tIter_examineAll (l : List Nat) (call : Nat) (w : Wheel) :
    (l.foldl (Wheel.examine call) w).tIter = w.tIter := by
  induction l generalizing w with
  | nil => rfl
  | cons t l ih => exact ih (w.examine call t)

theorem tIter_checkConn (w : Wheel) : w.checkConn.tIter = w.tIter :=
  tIter_examineAll (w.tw (slotOf w.tick)) w.calls _

end Wheel

/-! ## The pool over a run -/

/--
What is asked of the pool at a call. `get_timer_node` is `none` where it would not end or would
touch what is outside `timer_nodes`.
-/
def PoolKept (w : Wheel) : Call → Prop
  | .addConn cnode delay => ∃ tnode w₁ w', w.getTimerNode = some (tnode, w₁) ∧ tnode < maxTimer ∧
      ¬ w.Listed tnode ∧ 0 < (w₁.timerNodes tnode).idx ∧ w.addConn cnode delay = some w' ∧
      w'.Listed tnode ∧ w'.Marked
  | .checkConn => w.checkConn.Marked

/-- There is a free node left besides the one that is asked for. -/
def Roomy (w : Wheel) : Call → Prop
  | .addConn _ _ => w.pending.length < maxTimer - 1
  | .checkConn => True

/-- The call takes a node. -/
def Call.adds : Call → Bool
  | .addConn _ _ => true
  | .checkConn => false

/-- What the pool rests on. -/
structure Pooled (w : Wheel) : Prop where
  counted : Counted w
  filed : Filed w
  marked : PendingMarked w

namespace Pooled

variable {w w' : Wheel} {i : Call} {c d : Nat}

theorem init : Pooled Wheel.init := by
  obtain ⟨hc, hf, -⟩ := init_sound
  refine ⟨hc, hf, fun t => iff_of_false (Nat.lt_irrefl 0) ?_⟩
  rintro ⟨a, ha, -⟩
  exact absurd ha List.not_mem_nil

theorem step (h : Pooled w) (hstep : SingleTw.step w i = some w') : Pooled w' := by
  obtain ⟨hc, hf⟩ := step_sound ⟨h.counted, h.filed⟩ hstep
  refine ⟨hc, hf, ?_⟩
  cases i with
  | addConn cnode delay =>
      rw [SingleTw.step, h.counted.addConn] at hstep
      obtain ⟨-, heq⟩ := Option.ite_none_right_eq_some.mp hstep
      obtain rfl := Option.some.inj heq
      exact h.marked.filed h.counted cnode delay
  | checkConn =>
      obtain rfl := Option.some.inj hstep
      exact h.marked.checkConn

/-- A call of `add_conn` keeps the pool while the next index is inside the array. -/
theorem kept_addConn (h : Pooled w) :
    PoolKept w (.addConn c d) ↔ w.tIter + 1 < maxTimer := by
  constructor
  · rintro ⟨tnode, w₁, w', -, -, -, -, hadd, -⟩
    rw [h.counted.addConn] at hadd
    exact (Option.ite_none_right_eq_some.mp hadd).1
  · intro hlt
    have hadd : w.addConn c d = some (w.filed c d) := by rw [h.counted.addConn, if_pos hlt]
    have h' : Pooled (w.filed c d) := h.step (i := .addConn c d) hadd
    have hget := h.counted.getTimerNode
    rw [if_pos hlt] at hget
    refine ⟨_, _, _, hget, hlt, ?_, ?_, hadd, ?_, h'.marked.marked h'.filed⟩
    · -- the node has never been taken, so it has no mark
      rw [h.filed.listed, ← h.marked, h.counted.fresh _ (Nat.lt_succ_self _)]
      exact Nat.lt_irrefl 0
    · show 0 < (Function.update w.timerNodes (w.tIter + 1) _ (w.tIter + 1)).idx
      rw [Function.update_self]
      exact Nat.zero_lt_succ _
    · rw [h'.filed.listed, pending_filed h.counted.examined_le]
      exact ⟨_, List.mem_append_right _ (List.mem_singleton_self _), rfl⟩

theorem kept_checkConn (h : Pooled w) : PoolKept w .checkConn := by
  have h' : Pooled w.checkConn := h.step (i := .checkConn) rfl
  exact h'.marked.marked h'.filed

/-- The cursor moves by one in each call of `add_conn`, and is never put back. -/
theorem meets_kept (calls : List Call) (h : Pooled w) :
    Meets SingleTw.step PoolKept w calls ↔ w.tIter + calls.countP Call.adds < maxTimer := by
  induction calls generalizing w with
  | nil => exact iff_of_true trivial h.counted.bound
  | cons i calls ih =>
      cases i with
      | addConn cnode delay =>
          rw [List.countP_cons_of_pos rfl, Meets, h.kept_addConn, SingleTw.step, h.counted.addConn]
          by_cases hlt : w.tIter + 1 < maxTimer
          · have hadd : w.addConn cnode delay = some (w.filed cnode delay) := by
              rw [h.counted.addConn, if_pos hlt]
            have hrest := ih (h.step (i := .addConn cnode delay) hadd)
            rw [if_pos hlt]
            simp only [hlt, true_and, Option.some.injEq, forall_eq', hrest]
            show w.tIter + 1 + _ < _ ↔ _
            omega
          · refine iff_of_false (fun hm => hlt hm.1) ?_
            omega
      | checkConn =>
          have hrest := ih (h.step (i := .checkConn) rfl)
          rw [tIter_checkConn] at hrest
          rw [List.countP_cons_of_neg (Bool.false_ne_true), ← hrest, Meets]
          simp only [h.kept_checkConn, true_and, SingleTw.step, Option.some.injEq, forall_eq']

end Pooled

/--
**The pool holds as long as the array is long.** Every call of a run finds and leaves the pool as
it should be, if and only if the run calls `add_conn` fewer than `MAX_TIMER` times.
-/
theorem pool_kept_iff (calls : List Call) :
    Meets step PoolKept Wheel.init calls ↔ calls.countP Call.adds < maxTimer := by
  rw [Pooled.init.meets_kept]
  show 0 + _ < _ ↔ _
  rw [Nat.zero_add]

/-! ## One connection that goes on -/

/-- A heartbeat, and a turn of the wheel before the next one. -/
def beats : Nat → List Call
  | 0 => []
  | n + 1 => .addConn 1 0 :: (List.replicate twSize .checkConn ++ beats n)

theorem countP_beats (n : Nat) : (beats n).countP Call.adds = n := by
  induction n with
  | zero => rfl
  | succ n ih =>
      rw [beats, List.countP_cons_of_pos rfl, List.countP_append, ih,
        List.countP_eq_zero.mpr, Nat.zero_add]
      intro i hi
      rw [List.eq_of_mem_replicate hi]
      exact Bool.false_ne_true

/-- Each heartbeat has been examined when the next one is added. -/
theorem beats_roomy (n : Nat) {w : Wheel} (h : Pooled w) (hnone : w.pending = []) :
    Meets step Roomy w (beats n) := by
  induction n generalizing w with
  | zero => trivial
  | succ n ih =>
      refine ⟨?_, fun w₁ h₁ => ?_⟩
      · show w.pending.length < _
        rw [hnone]
        decide
      · have hp₁ := h.step h₁
        refine Meets.append Roomy ?_ fun w₂ hrun => ?_
        · refine (meets_iff_split Roomy _ w₁).mpr ?_
          intro pre i post w' heq _
          have hi : i ∈ List.replicate twSize Call.checkConn :=
            heq ▸ List.mem_append_right pre List.mem_cons_self
          exact List.eq_of_mem_replicate hi ▸ trivial
        · have hp₂ : Pooled w₂ := run_keeps (fun _ _ _ hs => hs.step) _ hp₁ hrun
          refine ih hp₂ (List.eq_nil_iff_forall_not_mem.mpr fun a ha => ?_)
          -- the turn of the wheel has come to every node there was
          obtain ⟨w', hrun', -, -, hcalls, hadded⟩ :=
            run_ticks twSize ⟨hp₁.counted, hp₁.filed⟩
          obtain rfl := Option.some.inj (hrun.symm.trans hrun')
          have hlt : a.visit < w₁.calls + twSize :=
            visit_lt ⟨hp₁.counted, hp₁.filed⟩ (hadded ▸ (mem_pending.mp ha).1)
          have hge := (hp₂.filed.window a ha).1
          omega

/-- Though never more than one node is pending, heartbeat number `MAX_TIMER` has no node. -/
theorem cursor_runs_out : ¬ ∀ calls : List Call, Meets step Roomy Wheel.init calls →
    Meets step PoolKept Wheel.init calls := by
  intro h
  have hkept := h (beats maxTimer) (beats_roomy maxTimer Pooled.init rfl)
  rw [Pooled.init.meets_kept, countP_beats] at hkept
  exact absurd hkept (Nat.not_lt.mpr (Nat.le_add_left _ _))

end CppTrack.SingleTw
