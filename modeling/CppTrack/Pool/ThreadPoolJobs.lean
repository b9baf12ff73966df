import CppTrack.Lib.Links
import CppTrack.Pool.ThreadPool

/-!
# Every job is called once

The list of waiting jobs is a stack: a job comes in at the head and goes out there, so the
links to the predecessors, which `LL_ADD` does not keep up, are never followed.
-/

namespace CppTrack.ThreadPool

open Lib

/-- From the head on, following `next`, one meets the items `l`, and none has a predecessor. -/
structure Stack (m : Items) (head : Nat) (l : List Nat) : Prop where
  path : Path (fun i => i) 0 m.next head l
  nonzero : ∀ x ∈ l, x ≠ 0
  first : ∀ x ∈ l, m.prev x = 0
  nodup : l.Nodup

/-- Where the jobs are, as long as nobody shuts the pool down; `l` are the waiting ones. -/
structure Jobs (s : Pool) (l : List Nat) : Prop where
  stack : Stack s.jobs s.waitingJobs l
  perm : (l ++ s.taken.map Prod.snd).Perm s.queued
  nodup : s.queued.Nodup
  once : s.called.Nodup
  called : ∀ x ∈ s.called, x ∈ s.taken
  holds : ∀ w j, s.phase w = .holds j ↔ (w, j) ∈ s.taken ∧ (w, j) ∉ s.called
  running : ∀ w, s.terminate w = false

/-- Every job is somewhere, and no worker sleeps while there is a job for it. -/
def Right (s : Pool) : Prop := ∃ l, Jobs s l ∧ s.jobsCond.Served l.length

/-- The operations other than those of `ntyThreadPoolShutdown`. -/
def Op.working : Op → Bool
  | .shutdown | .mark | .advance | .finish => false
  | _ => true

section

variable {m : Items} {s s' : Pool} {l : List Nat} {item head n worker job u : Nat}

theorem Stack.add (h : Stack m head l) (hitem : item ≠ 0) (hnew : item ∉ l) :
    Stack (llAdd m item head).1 item (item :: l) := by
  have hne : ∀ x ∈ l, x ≠ item := fun x hx hxi => hnew (hxi ▸ hx)
  refine ⟨⟨rfl, ?_⟩, fun x hx => ?_, fun x hx => ?_, List.nodup_cons.mpr ⟨hnew, h.nodup⟩⟩
  · show Path _ 0 (Function.update m.next item head) (Function.update m.next item head item) l
    rw [Function.update_self]
    exact h.path.congr fun x hx => Function.update_of_ne (hne x hx) ..
  · rcases List.mem_cons.mp hx with rfl | hx
    · exact hitem
    · exact h.nonzero x hx
  · show Function.update m.prev item 0 x = 0
    rcases List.mem_cons.mp hx with rfl | hx
    · exact Function.update_self ..
    · rw [Function.update_of_ne (hne x hx)]
      exact h.first x hx

/-! What `LL_REMOVE` does with an item that has no predecessor. -/

theorem llRemove_list (hprev : m.prev item = 0) :
    (llRemove m item head).2 = if head = item then m.next item else head := by
  unfold llRemove
  simp only [hprev, ne_eq, not_true, if_false]
  split_ifs <;> rfl

theorem llRemove_next (hprev : m.prev item = 0) :
    (llRemove m item head).1.next = Function.update m.next item 0 := by
  unfold llRemove
  simp only [hprev, ne_eq, not_true, if_false]
  split <;> rfl

theorem llRemove_prev (hprev : m.prev item = 0) {x : Nat} (hx : m.prev x = 0) :
    (llRemove m item head).1.prev x = 0 := by
  unfold llRemove
  simp only [hprev, ne_eq, not_true, if_false]
  rw [Function.update_apply]
  split
  · rfl
  · split
    · show Function.update m.prev (m.next item) 0 x = 0
      rw [Function.update_apply]
      split
      · rfl
      · exact hx
    · exact hx

/-- At the head `LL_REMOVE` does what it should. -/
theorem Stack.remove (h : Stack m item (item :: l)) :
    Stack (llRemove m item item).1 (llRemove m item item).2 l := by
  obtain ⟨hnew, hnodup⟩ := List.nodup_cons.mp h.nodup
  have hne : ∀ x ∈ l, x ≠ item := fun x hx hxi => hnew (hxi ▸ hx)
  have hprev : m.prev item = 0 := h.first item List.mem_cons_self
  refine ⟨?_, fun x hx => h.nonzero x (List.mem_cons_of_mem _ hx),
    fun x hx => llRemove_prev hprev (h.first x (List.mem_cons_of_mem _ hx)), hnodup⟩
  rw [llRemove_list hprev, llRemove_next hprev, if_pos rfl]
  exact h.path.2.congr fun x hx => Function.update_of_ne (hne x hx) ..

/-! ## The steps of the workers -/

/-- A worker that holds nothing has the mutex. It goes to sleep, or takes the first job. -/
theorem Jobs.pass (h : Jobs s l) (hfree : ∀ j, s.phase worker ≠ .holds j)
    (hserved : s.jobsCond.Served n) (hn : l.length ≤ n + 1) : Right (pass s worker) := by
  unfold ThreadPool.pass
  by_cases hempty : s.waitingJobs = 0
  · have hl : l = [] := Path.eq_nil (hempty ▸ h.stack.path) h.stack.nonzero
    subst hl
    rw [if_pos ⟨hempty, h.running worker⟩]
    refine ⟨[], ⟨h.stack, h.perm, h.nodup, h.once, h.called, fun w j => ?_, h.running⟩,
      CondVar.served_wait⟩
    by_cases hw : w = worker
    · rw [← h.holds, hw]
      simp only [Function.update_self]
      exact ⟨nofun, fun hj => absurd hj (hfree j)⟩
    · simp only [Function.update_of_ne hw]
      exact h.holds w j
  · obtain ⟨hl, -⟩ := h.stack.path.eq_cons hempty
    rw [if_neg (fun hall => hempty hall.1), h.running worker, if_neg (by simp)]
    rw [hl] at h hn
    have htaken : s.waitingJobs ∉ s.taken.map Prod.snd := by
      have hnodup := h.perm.nodup_iff.mpr h.nodup
      exact fun hmem => (List.nodup_append.mp hnodup).2.2 _ List.mem_cons_self _ hmem rfl
    have hfresh : ∀ w, (w, s.waitingJobs) ∉ s.taken :=
      fun w hmem => htaken (List.mem_map_of_mem (f := Prod.snd) hmem)
    refine ⟨l.tail, ⟨h.stack.remove, ?_, h.nodup, h.once,
      fun x hx => List.mem_append_left _ (h.called x hx), fun w j => ?_, h.running⟩,
      hserved.mono (by simpa using hn)⟩
    · refine List.Perm.trans ?_ h.perm
      rw [List.map_append, ← List.append_assoc]
      exact List.perm_append_singleton ..
    · have hmem : (w, j) ∈ s.taken ++ [(worker, s.waitingJobs)] ↔
          (w, j) ∈ s.taken ∨ w = worker ∧ j = s.waitingJobs := by
        rw [List.mem_append, List.mem_singleton, Prod.mk.injEq]
      simp only [hmem]
      by_cases hw : w = worker
      · rw [hw, Function.update_self]
        constructor
        · intro hj
          obtain rfl := Phase.holds.inj hj
          exact ⟨.inr ⟨rfl, rfl⟩, fun hc => hfresh worker (h.called _ hc)⟩
        · rintro ⟨hj | ⟨-, rfl⟩, hc⟩
          · exact absurd ((h.holds worker j).mpr ⟨hj, hc⟩) (hfree j)
          · rfl
      · rw [Function.update_of_ne hw, h.holds]
        simp [hw]

theorem Jobs.call (h : Jobs s l) (hphase : s.phase worker = .holds job) :
    Jobs { s with
      phase := Function.update s.phase worker .top
      called := s.called ++ [(worker, job)] } l := by
  obtain ⟨htaken, hnot⟩ := (h.holds worker job).mp hphase
  refine ⟨h.stack, h.perm, h.nodup, ?_, fun x hx => ?_, fun w j => ?_, h.running⟩
  · refine List.nodup_append.mpr ⟨h.once, List.nodup_singleton _, fun x hx y hy hxy => ?_⟩
    exact hnot (List.mem_singleton.mp hy ▸ hxy ▸ hx)
  · rcases List.mem_append.mp hx with hx | hx
    · exact h.called x hx
    · exact List.mem_singleton.mp hx ▸ htaken
  · simp only [List.mem_append, List.mem_singleton, Prod.mk.injEq, not_or]
    by_cases hw : w = worker
    · rw [hw, Function.update_self]
      refine iff_of_false nofun ?_
      rintro ⟨hj, hc, hne⟩
      have hj' := (h.holds worker j).mpr ⟨hj, hc⟩
      rw [hphase] at hj'
      exact hne ⟨rfl, (Phase.holds.inj hj').symm⟩
    · rw [Function.update_of_ne hw, h.holds]
      simp [hw]

theorem Jobs.queue (h : Jobs s l) (hjob : job ≠ 0) (hnew : job ∉ s.queued)
    (hserved : s.jobsCond.Served l.length) (hqueue : ntyThreadPoolQueue s job u = some s') :
    Right s' := by
  obtain ⟨jobsCond, hnotify, rfl⟩ := Option.map_eq_some_iff.mp hqueue
  have hl : job ∉ l := fun hmem => hnew (h.perm.mem_iff.mp (List.mem_append_left _ hmem))
  refine ⟨job :: l, ⟨h.stack.add hjob hl, ?_, ?_, h.once, h.called, h.holds, h.running⟩,
    hserved.notifyOne hnotify⟩
  · exact ((List.perm_append_singleton job s.queued).trans (h.perm.symm.cons job)).symm
  · refine List.nodup_append.mpr ⟨h.nodup, List.nodup_singleton _, fun x hx y hy hxy => ?_⟩
    exact hnew (List.mem_singleton.mp hy ▸ hxy ▸ hx)

theorem Right.step {op : Op} (h : Right s) (hop : op.working) (hstep : step s op = some s') :
    Right s' := by
  obtain ⟨l, h, hserved⟩ := h
  cases op with
  | queue job u =>
      simp only [ThreadPool.step] at hstep
      split at hstep
      · rename_i hnew
        exact h.queue hnew.1 hnew.2 hserved hstep
      · exact absurd hstep nofun
  | enter worker =>
      simp only [ThreadPool.step] at hstep
      split at hstep
      · rename_i hphase
        rw [← Option.some.inj hstep]
        exact h.pass (by rw [hphase.1]; nofun) hserved (Nat.le_succ _)
      · exact absurd hstep nofun
  | resume worker =>
      simp only [ThreadPool.step] at hstep
      split at hstep
      · rename_i hphase
        obtain ⟨jobsCond, hresume, rfl⟩ := Option.map_eq_some_iff.mp hstep
        have h' : Jobs { s with jobsCond := jobsCond } l :=
          ⟨h.stack, h.perm, h.nodup, h.once, h.called, h.holds, h.running⟩
        exact h'.pass (by rw [hphase.1]; nofun) (hserved.resume hresume)
          (Nat.le_succ_of_pred_le (Nat.le_refl _))
      · exact absurd hstep nofun
  | call worker =>
      simp only [ThreadPool.step] at hstep
      split at hstep
      · rename_i job hphase
        rw [← Option.some.inj hstep]
        exact ⟨l, h.call hphase, hserved⟩
      · exact absurd hstep nofun
  | free worker =>
      simp only [ThreadPool.step] at hstep
      split at hstep
      · rename_i hphase
        rw [← Option.some.inj hstep]
        refine ⟨l, ⟨h.stack, h.perm, h.nodup, h.once, h.called, fun w j => ?_, h.running⟩, hserved⟩
        rw [← h.holds]
        by_cases hw : w = worker
        · simp [hw, hphase.1]
        · simp only [Function.update_of_ne hw]
      · exact absurd hstep nofun
  | shutdown | mark | advance | finish => exact absurd hop nofun

/-- What the creation of the workers does not touch. -/
theorem create_right (workers : List Nat) : Right (ntyThreadPoolCreate workers) := by
  unfold ntyThreadPoolCreate
  have hempty : Jobs emptyPool [] ∧ emptyPool.jobsCond = .empty ∧ emptyPool.taken = [] := by
    refine ⟨⟨⟨rfl, nofun, nofun, List.nodup_nil⟩, List.Perm.refl _, List.nodup_nil,
      List.nodup_nil, nofun, fun w j => ?_, fun _ => rfl⟩, rfl, rfl⟩
    exact iff_of_false nofun (fun h => absurd h.1 List.not_mem_nil)
  suffices h : ∀ s : Pool, Jobs s [] ∧ s.jobsCond = .empty ∧ s.taken = [] →
      Right (workers.foldl addWorker s) from h _ hempty
  induction workers with
  | nil => exact fun s hs => ⟨[], hs.1, hs.2.1 ▸ CondVar.served_empty⟩
  | cons worker workers ih =>
      intro s hs
      refine ih (addWorker s worker) ⟨?_, hs.2⟩
      obtain ⟨h, -, htaken⟩ := hs
      refine ⟨h.stack, h.perm, h.nodup, h.once, h.called, fun w j => ?_, h.running⟩
      show Function.update s.phase worker .top w = .holds j ↔ _
      by_cases hw : w = worker
      · rw [hw, Function.update_self]
        exact iff_of_false nofun fun hj => absurd (htaken ▸ hj.1) List.not_mem_nil
      · rw [Function.update_of_ne hw]
        exact h.holds w j

end

/--
**Every job is called once, and no worker sleeps while there is a job for it.** For any number
of workers and in every order of their steps and of distinct jobs, as long as nobody shuts the
pool down: the jobs that were queued are those that wait and those that were taken, each once;
a worker has called just the jobs it took, but for the one it is about to call, each once; and
while a worker sleeps without having been notified no more jobs wait than workers are notified.
-/
theorem jobs_called_once (workers : List Nat) (ops : List Op) (s : Pool)
    (hworking : ∀ op ∈ ops, op.working)
    (hrun : run step (ntyThreadPoolCreate workers) ops = some s) :
    ∃ l, Path (fun i => i) 0 s.jobs.next s.waitingJobs l ∧
      (l ++ s.taken.map Prod.snd).Perm s.queued ∧ s.queued.Nodup ∧
      s.called.Nodup ∧ (∀ x ∈ s.called, x ∈ s.taken) ∧
      (∀ w j, (w, j) ∈ s.taken → ((w, j) ∉ s.called ↔ s.phase w = .holds j)) ∧
      (s.jobsCond.waiting ≠ [] → l.length ≤ s.jobsCond.notified.length) := by
  obtain ⟨l, h, hserved⟩ := run_keeps_meets (fun _ op => op.working = true)
    (fun _ _ _ hs hop hstep => Right.step hs hop hstep) ops (create_right workers)
    (meets_of_forall ops _ hworking) hrun
  exact ⟨l, h.stack.path, h.perm, h.nodup, h.once, h.called,
    fun w j hj => ⟨fun hc => (h.holds w j).mpr ⟨hj, hc⟩, fun hp => ((h.holds w j).mp hp).2⟩,
    hserved⟩

/-- Two workers, of which one sleeps until the first of two jobs comes. -/
def twoJobs : List Op := [.enter 1, .queue 11 1, .queue 12 0, .enter 2, .call 2, .resume 1]

theorem jobs_called_two :
    ∃ s, run step (ntyThreadPoolCreate [1, 2]) twoJobs = some s ∧
      s.called = [(2, 12)] ∧ s.queued.Nodup := by
  obtain ⟨s, hrun, hs⟩ := (Option.any_eq_true _ _).mp
    (show (run step (ntyThreadPoolCreate [1, 2]) twoJobs).any
      (fun s => decide (s.called = [(2, 12)])) by decide +kernel)
  obtain ⟨-, -, -, hnodup, -⟩ := jobs_called_once [1, 2] twoJobs s (by decide) hrun
  exact ⟨s, hrun, of_decide_eq_true hs, hnodup⟩

end CppTrack.ThreadPool
