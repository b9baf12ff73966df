import CppTrack.Pool.ZeroThreadPoolServe

/-!
# What `waitForAllDone` says

Every task that was given is in the queue, or in the hands of a worker, or over. `waitForAllDone`
returns `true` when it finds the queue empty, and does not look at `_atomic`, so the tasks that
workers have taken and not finished are not done by then.
-/

namespace CppTrack.ZeroThreadPool

open Lib

/-- The task has been run to its end, or discarded because it had expired. -/
def Over (s : Pool) (number : Nat) : Prop := number ∈ s.finished ∨ number ∈ s.discarded

/-- The first `k` tasks have been taken, each by one worker, and the others wait in the queue. -/
structure Accounted (s : Pool) (k : Nat) : Prop where
  queue : s.tasks.map TaskFunc.number = List.range' k (s.given - k)
  le : k ≤ s.given
  taken : ∀ number < k, (∃ w task, (s.phase w).task = some task ∧ task.number = number) ∨
    Over s number
  past : ∀ number, Over s number → number < k
  hand : ∀ w task, (s.phase w).task = some task → task.number < k ∧ ¬ Over s task.number
  apart : ∀ v w task task', (s.phase v).task = some task → (s.phase w).task = some task' →
    task.number = task'.number → v = w

/-- A call counts only tasks that have been given. -/
def Counted (s : Pool) : Prop := ∀ t before, (s.phase t).inCall = some before → before ≤ s.given

/-- Whoever was told that all is done: all was done that had been given before the call, or else
the pool was stopped. -/
def Done (s : Pool) : Prop :=
  ∀ t before, s.phase t = .returned true before →
    s.terminate = true ∨ ∀ number < before, Over s number

/-- No worker has a task in hand that was given before. -/
def HandsFree (s : Pool) (before : Nat) : Prop :=
  ∀ w ∈ s.threads, ∀ task ∈ (s.phase w).task, before ≤ task.number

/-- When a call of `waitForAllDone` finds the queue empty, no worker has a task in hand that was
given before the call. -/
def Patient (s : Pool) : Op → Prop
  | .await t _ => s.tasks = [] → ∀ before ∈ (s.phase t).inCall,
      s.terminate = true ∨ HandsFree s before
  | _ => True

section

variable {s s' : Pool} {op : Op} {c : CondVar} {t w k : Nat} {p : Phase}

/-! ## Every task is accounted for -/

/-- What does not touch the tasks. -/
theorem Accounted.same (h : Accounted s k) (htasks : s'.tasks = s.tasks)
    (hgiven : s'.given = s.given) (hover : ∀ number, Over s' number ↔ Over s number)
    (hhand : ∀ v, (s'.phase v).task = (s.phase v).task) : Accounted s' k := by
  refine ⟨by rw [htasks, hgiven]; exact h.queue, hgiven ▸ h.le, fun number hlt => ?_,
    fun number ho => h.past number ((hover number).mp ho), fun v task hv => ?_,
    fun v w task task' hv hw => h.apart v w task task' (hhand v ▸ hv) (hhand w ▸ hw)⟩
  · rw [hover]
    rcases h.taken number hlt with ⟨v, task, hv, heq⟩ | ho
    · exact .inl ⟨v, task, (hhand v).trans hv, heq⟩
    · exact .inr ho
  · rw [hhand] at hv
    rw [hover]
    exact h.hand v task hv

/-- A thread moves on, with the same task in hand. -/
theorem task_update (hp : p.task = (s.phase t).task) (v : Nat) :
    (Function.update s.phase t p v).task = (s.phase v).task := by
  by_cases hv : v = t
  · rw [hv, Function.update_self, hp]
  · rw [Function.update_of_ne hv]

theorem Accounted.gives (h : Accounted s k) {expireTime : Int} :
    Accounted { s with
      tasks := s.tasks ++ [⟨s.given, expireTime⟩], condition := c, given := s.given + 1 } k := by
  refine ⟨?_, Nat.le_succ_of_le h.le, h.taken, h.past, h.hand, h.apart⟩
  have hle := h.le
  show (s.tasks ++ [_]).map TaskFunc.number = List.range' k (s.given + 1 - k)
  rw [List.map_append, h.queue, Nat.succ_sub hle, List.range'_1_concat, Nat.add_sub_cancel' hle]
  rfl

/-- A worker with free hands takes the first task. -/
theorem Accounted.takes (h : Accounted s k) {task : TaskFunc}
    (hfree : (s.phase w).task = none) (htasks : s.tasks = task :: s'.tasks)
    (hgiven : s'.given = s.given) (hover : ∀ number, Over s' number ↔ Over s number)
    (hphase : s'.phase = Function.update s.phase w (.took task)) : Accounted s' (k + 1) := by
  have hqueue := h.queue
  rw [htasks, List.map_cons] at hqueue
  -- The queue is in order, so its head is the first task that has not been taken.
  obtain ⟨n, hn⟩ : ∃ n, s.given - k = n + 1 := by
    cases hn : s.given - k with
    | zero =>
        rw [hn] at hqueue
        exact absurd hqueue nofun
    | succ n => exact ⟨n, rfl⟩
  rw [hn, List.range'_succ] at hqueue
  obtain ⟨hnumber, hrest⟩ := List.cons.inj hqueue
  have hself : (s'.phase w).task = some task := by
    rw [hphase, Function.update_self]
    rfl
  have hne : ∀ v, v ≠ w → (s'.phase v).task = (s.phase v).task := by
    intro v hv
    rw [hphase, Function.update_of_ne hv]
  have hnew : ∀ v task', v ≠ w → (s'.phase v).task = some task' → task'.number < k := by
    intro v task' hv htask
    exact (h.hand v task' ((hne v hv) ▸ htask)).1
  refine ⟨?_, by omega, fun number hlt => ?_,
    fun number ho => Nat.lt_succ_of_lt (h.past number ((hover number).mp ho)),
    fun v task' hv => ?_, fun v v' task₁ task₂ hv hv' heq => ?_⟩
  · rw [hrest, hgiven, show s.given - (k + 1) = n by omega]
  · by_cases hk : number = k
    · exact .inl ⟨w, task, hself, hnumber.trans hk.symm⟩
    · rw [hover]
      rcases h.taken number (by omega) with ⟨v, task', hv, heq⟩ | ho
      · have hvw : v ≠ w := by
          intro hvw
          rw [hvw, hfree] at hv
          exact absurd hv nofun
        exact .inl ⟨v, task', (hne v hvw).trans hv, heq⟩
      · exact .inr ho
  · rw [hover]
    by_cases hvw : v = w
    · rw [hvw, hself] at hv
      obtain rfl := Option.some.inj hv
      refine ⟨by omega, fun ho => ?_⟩
      have := h.past task.number ho
      omega
    · obtain ⟨hlt, hno⟩ := h.hand v task' ((hne v hvw) ▸ hv)
      exact ⟨by omega, hno⟩
  · by_cases hvw : v = w
    · by_cases hvw' : v' = w
      · exact hvw.trans hvw'.symm
      · rw [hvw, hself] at hv
        obtain rfl := Option.some.inj hv
        have := hnew v' task₂ hvw' hv'
        omega
    · by_cases hvw' : v' = w
      · rw [hvw', hself] at hv'
        obtain rfl := Option.some.inj hv'
        have := hnew v task₁ hvw hv
        omega
      · exact h.apart v v' task₁ task₂ ((hne v hvw) ▸ hv) ((hne v' hvw') ▸ hv') heq

/-- A worker has run its task, or discarded it. -/
theorem Accounted.works (h : Accounted s k) {task : TaskFunc}
    (hw : (s.phase w).task = some task) (htasks : s'.tasks = s.tasks)
    (hgiven : s'.given = s.given)
    (hover : ∀ number, Over s' number ↔ number = task.number ∨ Over s number)
    (hphase : s'.phase = Function.update s.phase w .ran) : Accounted s' k := by
  have hself : (s'.phase w).task = none := by
    rw [hphase, Function.update_self]
    rfl
  have hne : ∀ v, v ≠ w → (s'.phase v).task = (s.phase v).task := by
    intro v hv
    rw [hphase, Function.update_of_ne hv]
  have hold : ∀ v task', (s'.phase v).task = some task' →
      v ≠ w ∧ (s.phase v).task = some task' := by
    intro v task' hv
    by_cases hvw : v = w
    · rw [hvw, hself] at hv
      exact absurd hv nofun
    · exact ⟨hvw, (hne v hvw) ▸ hv⟩
  refine ⟨by rw [htasks, hgiven]; exact h.queue, hgiven ▸ h.le, fun number hlt => ?_,
    fun number ho => ?_, fun v task' hv => ?_, fun v v' task₁ task₂ hv hv' heq => ?_⟩
  · rw [hover]
    rcases h.taken number hlt with ⟨v, task', hv, heq⟩ | ho
    · by_cases hvw : v = w
      · rw [hvw, hw] at hv
        obtain rfl := Option.some.inj hv
        exact .inr (.inl heq.symm)
      · exact .inl ⟨v, task', (hne v hvw).trans hv, heq⟩
    · exact .inr (.inr ho)
  · rcases (hover number).mp ho with rfl | ho
    · exact (h.hand w task hw).1
    · exact h.past number ho
  · obtain ⟨hvw, hv⟩ := hold v task' hv
    obtain ⟨hlt, hno⟩ := h.hand v task' hv
    refine ⟨hlt, fun ho => ?_⟩
    rcases (hover _).mp ho with heq | ho
    · exact hvw (h.apart v w task' task hv hw heq)
    · exact hno ho
  · exact h.apart v v' task₁ task₂ (hold v task₁ hv).2 (hold v' task₂ hv').2 heq

theorem Phase.task_of_get (h : p = .getting ∨ p = .asleep) : p.task = none := by
  rcases h with rfl | rfl
  · rfl
  · rfl

theorem Phase.task_of_not_worker (h : p.worker = false) : p.task = none := by
  cases p <;> first | rfl | exact absurd h nofun

theorem Accounted.step (h : Accounted s k) (heff : Effect s op s') :
    ∃ k', Accounted s' k' := by
  have hmove : ∀ {t p s'}, p.task = (s.phase t).task → s'.tasks = s.tasks → s'.given = s.given →
      (∀ number, Over s' number ↔ Over s number) → s'.phase = Function.update s.phase t p →
      ∃ k', Accounted s' k' := by
    intro t p s' hp htasks hgiven hover hphase
    exact ⟨k, h.same htasks hgiven hover fun v => hphase ▸ task_update hp v⟩
  cases heff with
  | starts hempty hnodup hfresh =>
      refine ⟨k, h.same rfl rfl (fun _ => Iff.rfl) fun v => ?_⟩
      dsimp only
      split
      · rename_i hv
        rw [hfresh v hv]
        rfl
      · rfl
  | runsAlready => exact ⟨k, h⟩
  | gives hc => exact ⟨k, h.gives⟩
  | looks hw => exact hmove (by rw [hw]; rfl) rfl rfl (fun _ => Iff.rfl) rfl
  | leaves hw => exact hmove (by rw [hw]; rfl) rfl rfl (fun _ => Iff.rfl) rfl
  | quits hw => exact hmove (by rw [Phase.task_of_get hw]; rfl) rfl rfl (fun _ => Iff.rfl) rfl
  | sleeps hw => exact hmove (by rw [Phase.task_of_get hw]; rfl) rfl rfl (fun _ => Iff.rfl) rfl
  | takes hw hc hterm htasks =>
      exact ⟨k + 1, h.takes (Phase.task_of_get hw) htasks rfl (fun _ => Iff.rfl) rfl⟩
  | counts hw => exact hmove (by rw [hw]; rfl) rfl rfl (fun _ => Iff.rfl) rfl
  | @works w now task finished discarded hw hover =>
      refine ⟨k, h.works (by rw [hw]; rfl) rfl rfl (fun number => ?_) rfl⟩
      show number ∈ finished ∨ number ∈ discarded ↔ _
      unfold Over
      rcases hover with ⟨rfl, rfl⟩ | ⟨rfl, rfl⟩
      · rw [List.mem_cons, or_assoc]
      · rw [List.mem_cons, or_left_comm]
  | uncounts hw => exact hmove (by rw [hw]; rfl) rfl rfl (fun _ => Iff.rfl) rfl
  | announces hw => exact hmove (by rw [hw]; rfl) rfl rfl (fun _ => Iff.rfl) rfl
  | finishes hw => exact hmove (by rw [hw]; rfl) rfl rfl (fun _ => Iff.rfl) rfl
  | calls ht =>
      have hnone := Phase.task_of_not_worker (Phase.not_worker_of_idle ht).1
      exact hmove (by rw [hnone]; rfl) rfl rfl (fun _ => Iff.rfl) rfl
  | returnsTrue ht =>
      have hnone := Phase.task_of_not_worker (Phase.not_worker_of_inCall ht)
      exact hmove (by rw [hnone]; rfl) rfl rfl (fun _ => Iff.rfl) rfl
  | returnsFalse ht =>
      have hout := Phase.not_worker_of_inCall (Phase.inCall_of_wait (.inr ht))
      have hnone := Phase.task_of_not_worker hout
      exact hmove (by rw [hnone]; rfl) rfl rfl (fun _ => Iff.rfl) rfl
  | waits ht =>
      have hout := Phase.not_worker_of_inCall (Phase.inCall_of_wait ht)
      exact hmove (by rw [Phase.task_of_not_worker hout]; rfl) rfl rfl (fun _ => Iff.rfl) rfl
  | stops => exact ⟨k, h.same rfl rfl (fun _ => Iff.rfl) fun _ => rfl⟩
  | joins => exact ⟨k, h.same rfl rfl (fun _ => Iff.rfl) fun _ => rfl⟩
  | joined => exact ⟨k, h.same rfl rfl (fun _ => Iff.rfl) fun _ => rfl⟩

theorem Counted.moves (h : Counted s) (hphase : s'.phase = Function.update s.phase t p)
    (hgiven : s'.given = s.given) (hp : ∀ before, p.inCall = some before → before ≤ s.given) :
    Counted s' := by
  intro v before hv
  rw [hphase] at hv
  rw [hgiven]
  by_cases hvt : v = t
  · rw [hvt, Function.update_self] at hv
    exact hp before hv
  · rw [Function.update_of_ne hvt] at hv
    exact h v before hv

theorem Counted.step (h : Counted s) (heff : Effect s op s') : Counted s' := by
  cases heff with
  | starts hempty hnodup hfresh =>
      intro v before hv
      dsimp only at hv
      split at hv
      · exact absurd hv nofun
      · exact h v before hv
  | runsAlready => exact h
  | gives => exact fun t before ht => Nat.le_succ_of_le (h t before ht)
  | looks => exact h.moves rfl rfl nofun
  | leaves => exact h.moves rfl rfl nofun
  | quits => exact h.moves rfl rfl nofun
  | sleeps => exact h.moves rfl rfl nofun
  | takes => exact h.moves rfl rfl nofun
  | counts => exact h.moves rfl rfl nofun
  | works => exact h.moves rfl rfl nofun
  | uncounts => exact h.moves rfl rfl nofun
  | announces => exact h.moves rfl rfl nofun
  | finishes => exact h.moves rfl rfl nofun
  | calls => exact h.moves rfl rfl fun before hb => Option.some.inj hb ▸ Nat.le_refl s.given
  | returnsTrue => exact h.moves rfl rfl nofun
  | returnsFalse => exact h.moves rfl rfl nofun
  | @waits t before millsecond timedOut c ht =>
      have hle := h t before (Phase.inCall_of_wait ht)
      exact h.moves rfl rfl fun b hb => Option.some.inj hb ▸ hle
  | stops => exact h
  | joins => exact h
  | joined => exact h

/-! ## When the answer is right -/

theorem Done.moves (h : Done s) (hphase : s'.phase = Function.update s.phase t p)
    (hterm : s'.terminate = s.terminate) (hover : ∀ number, Over s number → Over s' number)
    (hp : ∀ before, p = .returned true before →
      s.terminate = true ∨ ∀ number < before, Over s' number) : Done s' := by
  intro v before hv
  rw [hphase] at hv
  rw [hterm]
  by_cases hvt : v = t
  · rw [hvt, Function.update_self] at hv
    exact hp before hv
  · rw [Function.update_of_ne hvt] at hv
    exact (h v before hv).imp_right fun hall number hlt => hover number (hall number hlt)

/-- An empty queue means that all is done but for what workers have in hand. -/
theorem Accounted.done_iff (h : Accounted s k) (htasks : s.tasks = []) (hcounted : Counted s)
    (hworkers : s.terminate = false → ∀ w, w ∈ s.threads ↔ (s.phase w).worker = true)
    {before : Nat} (ht : (s.phase t).inCall = some before) :
    (s.terminate = true ∨ ∀ number < before, Over s number) ↔
      (s.terminate = true ∨ HandsFree s before) := by
  cases hterm : s.terminate with
  | true => simp
  | false =>
      have hk : s.given ≤ k := by
        have hlength := congrArg List.length h.queue
        rw [htasks, List.length_map, List.length_range', List.length_nil] at hlength
        omega
      have hle := hcounted t before ht
      simp only [Bool.false_eq_true, false_or]
      constructor
      · intro hall w _ task htask
        rw [← Nat.not_lt]
        exact fun hlt => (h.hand w task htask).2 (hall task.number hlt)
      · intro hfree number hlt
        rcases h.taken number (by omega) with ⟨w, task, hw, heq⟩ | ho
        · -- It is in the hands of a worker, which the condition excludes.
          have hworker : (s.phase w).worker = true := by
            cases hp : (s.phase w).worker with
            | true => rfl
            | false =>
                rw [Phase.task_of_not_worker hp] at hw
                exact absurd hw nofun
          have hge := hfree w ((hworkers hterm w).mpr hworker) task hw
          omega
        · exact ho

theorem Done.step (h : Done s) (hacc : Accounted s k) (hcounted : Counted s)
    (hworkers : s.terminate = false → ∀ w, w ∈ s.threads ↔ (s.phase w).worker = true)
    (hpatient : Patient s op) (heff : Effect s op s') : Done s' := by
  cases heff with
  | starts hempty hnodup hfresh =>
      intro v before hv
      dsimp only at hv
      split at hv
      · exact absurd hv nofun
      · exact h v before hv
  | runsAlready => exact h
  | gives => exact h
  | looks => exact h.moves rfl rfl (fun _ => id) nofun
  | leaves => exact h.moves rfl rfl (fun _ => id) nofun
  | quits => exact h.moves rfl rfl (fun _ => id) nofun
  | sleeps => exact h.moves rfl rfl (fun _ => id) nofun
  | takes => exact h.moves rfl rfl (fun _ => id) nofun
  | counts => exact h.moves rfl rfl (fun _ => id) nofun
  | works hw hover =>
      refine h.moves rfl rfl (fun number ho => ?_) nofun
      rcases hover with ⟨rfl, rfl⟩ | ⟨rfl, rfl⟩
      · exact ho.imp_left (List.mem_cons_of_mem _)
      · exact ho.imp_right (List.mem_cons_of_mem _)
  | uncounts => exact h.moves rfl rfl (fun _ => id) nofun
  | announces => exact h.moves rfl rfl (fun _ => id) nofun
  | finishes => exact h.moves rfl rfl (fun _ => id) nofun
  | calls => exact h.moves rfl rfl (fun _ => id) nofun
  | returnsTrue ht hc htasks =>
      refine h.moves rfl rfl (fun _ => id) fun before hb => ?_
      obtain ⟨-, rfl⟩ := Phase.returned.inj hb
      exact (hacc.done_iff htasks hcounted hworkers ht).mpr (hpatient htasks _ ht)
  | returnsFalse => exact h.moves rfl rfl (fun _ => id) nofun
  | waits => exact h.moves rfl rfl (fun _ => id) nofun
  | stops => exact fun _ _ _ => .inl rfl
  | joins => exact h
  | joined => exact h

/-- A thread in a call can always look at the queue, and with an empty one it returns. -/
theorem exists_returnsTrue (hs : Sleeping s) (htasks : s.tasks = []) {before : Nat}
    (ht : (s.phase t).inCall = some before) (timedOut : Bool) :
    ∃ c, step s (.await t timedOut) =
      some ({ s with condition := c }.move t (.returned true before)) := by
  have hempty : s.tasks.isEmpty = true := List.isEmpty_iff.mpr htasks
  cases hp : s.phase t with
  | called millsecond before' =>
      rw [hp] at ht
      obtain rfl := Option.some.inj ht
      refine ⟨s.condition, ?_⟩
      simp only [step, hp, Pool.waitForAllDone, hempty, if_true]
  | waiting millsecond before' =>
      rw [hp] at ht
      obtain rfl := Option.some.inj ht
      obtain ⟨c, hc⟩ := hs.exists_resume (t := t) (by rw [hp]; rfl)
      refine ⟨c, ?_⟩
      simp only [step, hp, hc, Option.map_some, Pool.waitForAllDone, hempty, if_true]
  | _ =>
      rw [hp] at ht
      exact absurd ht nofun

/-- The answers of a step are right if and only if the step is patient. -/
theorem done_iff_patient (hdone : Done s) (hs : Sleeping s) (hacc : Accounted s k)
    (hcounted : Counted s)
    (hworkers : s.terminate = false → ∀ w, w ∈ s.threads ↔ (s.phase w).worker = true) :
    (∀ s', step s op = some s' → Done s') ↔ Patient s op := by
  constructor
  · intro h
    cases op with
    | await t timedOut =>
        intro htasks before ht
        obtain ⟨c, hstep⟩ := exists_returnsTrue hs htasks ht timedOut
        have hright := h _ hstep t before (Function.update_self ..)
        exact (hacc.done_iff htasks hcounted hworkers ht).mp hright
    | _ => trivial
  · intro hpatient s' hstep
    exact hdone.step hacc hcounted hworkers hpatient (step_effect hstep)

end

theorem create_accounted (num : Nat) : Accounted (create num) 0 :=
  ⟨rfl, Nat.le_refl 0, nofun, fun _ ho => absurd ho (by simp [Over, create]), fun _ _ => nofun,
    fun _ _ _ _ => nofun⟩

/-- What holds in a run whose callers of `waitForAllDone` are told so only when all is done. -/
def ToldInTime (s : Pool) : Prop :=
  Done s ∧ Sleeping s ∧ (∃ k, Accounted s k) ∧ Counted s ∧ (s.terminate = false → Steady s)

/--
**What `waitForAllDone` says is right if and only if no worker is at work on an earlier task.**
That is for any number of workers, any threads that call `exec`, `waitForAllDone` and `stop`,
and every interleaving: whoever was told that all is done can rely on it in every state, if and
only if each time the queue was found empty no worker had a task in hand that had been given
before the call, unless the pool was stopped.
-/
theorem waitForAllDone_iff (num : Nat) (ops : List Op) :
    Meets step (fun s op => ∀ s', step s op = some s' → Done s') (create num) ops ↔
      Meets step Patient (create num) ops := by
  have hiff : ∀ s op, ToldInTime s →
      ((∀ s', step s op = some s' → Done s') ↔ Patient s op) := by
    intro s op h
    obtain ⟨hdone, hs, ⟨k, hacc⟩, hcounted, hsteady⟩ := h
    exact done_iff_patient hdone hs hacc hcounted fun h => (hsteady h).threads
  have hkeeps : ∀ s op s', ToldInTime s → Patient s op → step s op = some s' → ToldInTime s' := by
    intro s op s' h hpatient hstep
    obtain ⟨hdone, hs, ⟨k, hacc⟩, hcounted, hsteady⟩ := h
    have heff := step_effect hstep
    exact ⟨hdone.step hacc hcounted (fun h => (hsteady h).threads) hpatient heff, hs.step heff,
      hacc.step heff, hcounted.step heff, fun h => (hsteady (heff.terminate h)).step hs heff h⟩
  refine meets_iff _ hiff hkeeps ops ?_
  exact ⟨fun _ _ => nofun, create_sleeping num, ⟨0, create_accounted num⟩, fun _ _ => nofun,
    fun _ => create_steady num⟩

/-- A worker has taken the only task when `waitForAllDone` is called. -/
def hasty : List Op :=
  [.start [1], .exec 0 0 0, .look 1, .get 1, .call 2 (-1), .await 2 false]

theorem waitForAllDone_untrue :
    ¬ ∀ (num : Nat) (ops : List Op) (s : Pool), run step (create num) ops = some s → Done s := by
  intro h
  obtain ⟨s, hrun, hs⟩ := (Option.any_eq_true _ _).mp
    (show (run step (create 1) hasty).any (fun s => decide (s.phase 2 = .returned true 1 ∧
      s.terminate = false ∧ 0 ∉ s.finished ∧ 0 ∉ s.discarded)) by decide +kernel)
  obtain ⟨hphase, hterm, hfinished, hdiscarded⟩ := of_decide_eq_true hs
  rcases h 1 hasty s hrun 2 1 hphase with hstop | hall
  · exact absurd (hterm.symm.trans hstop) nofun
  · exact (hall 0 Nat.one_pos).elim hfinished hdiscarded

end CppTrack.ZeroThreadPool
