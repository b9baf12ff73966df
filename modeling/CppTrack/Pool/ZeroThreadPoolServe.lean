import CppTrack.Lib.Threads
import CppTrack.Pool.ZeroThreadPool

/-!
# No task is left unserved

A notification of `exec` may wake a caller of `waitForAllDone`, which goes back to sleep. That
does no harm: when every worker sleeps and there is no task, the last worker to look has found
everything done and woken all callers, so the notification reaches a worker; and when some
worker is awake, it comes to `get` on its own.

`Steady` says this of every state before `stop`. Its `pending` is what the last look is for.
-/

namespace CppTrack.ZeroThreadPool

open Lib

/-- The threads in `wait` are those that are there in the program. -/
def Sleeping (s : Pool) : Prop := s.condition.Sleepers fun t => (s.phase t).blocked = true

/-- What holds before `stop`. -/
structure Steady (s : Pool) : Prop where
  stopping : s.stopping = .notCalled
  atomic : ∃ n : Nat, s.atomic = n ∧ Counts (fun p => p.counted = true) s.phase n
  threads : ∀ w, w ∈ s.threads ↔ (s.phase w).worker = true
  pending : (∃ t ∈ s.condition.waiting, t ∉ s.threads) →
    s.tasks ≠ [] ∨ ∃ w, (s.phase w).busy = true
  served : s.tasks ≠ [] → s.threads ≠ [] → ∃ w ∈ s.threads, w ∉ s.condition.waiting

/-- There is a task, a worker sleeps in `get` un-notified, and none has been notified or is on
its way to `get`. -/
def Unserved (s : Pool) : Prop :=
  s.tasks ≠ [] ∧ (∃ w ∈ s.threads, w ∈ s.condition.waiting) ∧
    ∀ w ∈ s.threads, w ∉ s.condition.notified ∧ (s.phase w).blocked = true

section

variable {s s' : Pool} {op : Op} {c : CondVar} {t u w n : Nat} {p : Phase}

theorem Phase.worker_of_busy (h : p.busy = true) : p.worker = true ∧ p.blocked = false := by
  cases p <;> first | exact ⟨rfl, rfl⟩ | exact absurd h nofun

theorem Phase.busy_of_counted (h : p.counted = true) : p.busy = true := by
  cases p <;> first | rfl | exact absurd h nofun

theorem Phase.not_worker (h : p.worker = false) : p.counted = false ∧ p.busy = false := by
  cases p <;> first | exact ⟨rfl, rfl⟩ | exact absurd h nofun

theorem Phase.worker_of_get (h : p = .getting ∨ p = .asleep) :
    p.worker = true ∧ p.counted = false ∧ p.busy = false := by
  rcases h with rfl | rfl
  · exact ⟨rfl, rfl, rfl⟩
  · exact ⟨rfl, rfl, rfl⟩

theorem Phase.inCall_of_wait {millsecond : Int} {before : Nat}
    (h : p = .called millsecond before ∨ p = .waiting millsecond before) :
    p.inCall = some before := by
  rcases h with rfl | rfl
  · rfl
  · rfl

theorem Phase.not_worker_of_idle (h : p.idle = true) : p.worker = false ∧ p.blocked = false := by
  cases p <;> first | exact ⟨rfl, rfl⟩ | exact absurd h nofun

theorem Phase.not_worker_of_inCall {before : Nat} (h : p.inCall = some before) :
    p.worker = false := by
  cases p <;> first | rfl | exact absurd h nofun

/-! ## Who is in `wait` -/

theorem Awake.sleepers (hs : Sleeping s) (hc : Awake s t c) :
    c.Sleepers fun v => v ≠ t ∧ (s.phase v).blocked = true := by
  rcases hc with ⟨hout, rfl⟩ | ⟨-, hresume⟩
  · refine hs.congr fun v => ⟨And.right, fun hv => ⟨fun hvt => ?_, hv⟩⟩
    rw [hvt, hout] at hv
    exact absurd hv nofun
  · exact hs.resume hresume fun v => Iff.rfl

theorem Awake.waiting (hc : Awake s t c) (hu : u ∈ c.waiting) : u ∈ s.condition.waiting := by
  rcases hc with ⟨-, rfl⟩ | ⟨-, hresume⟩
  · exact hu
  · exact CondVar.waiting_resume hresume hu

/-- A thread that has the mutex goes on. -/
theorem Sleeping.goes (hs : Sleeping s) (hc : Awake s t c) (hp : p.blocked = false) :
    c.Sleepers fun v => (Function.update s.phase t p v).blocked = true := by
  refine (Awake.sleepers hs hc).congr fun v => ?_
  by_cases hv : v = t
  · rw [hv, Function.update_self]
    simp [hp]
  · rw [Function.update_of_ne hv]
    simp [hv]

/-- A thread that has the mutex goes to sleep. -/
theorem Sleeping.waits (hs : Sleeping s) (hc : Awake s t c) (hp : p.blocked = true) :
    (c.wait t).Sleepers fun v => (Function.update s.phase t p v).blocked = true := by
  refine (Awake.sleepers hs hc).wait (fun h => h.1 rfl) fun v => ?_
  by_cases hv : v = t
  · rw [hv, Function.update_self]
    simp [hp]
  · rw [Function.update_of_ne hv]
    simp [hv]

theorem awake_of (h : (s.phase t).blocked = false) : Awake s t s.condition := .inl ⟨h, rfl⟩

theorem Sleeping.step (hs : Sleeping s) (h : Effect s op s') : Sleeping s' := by
  cases h with
  | starts hempty hnodup hfresh =>
      refine hs.congr fun v => ?_
      dsimp only
      split
      · rename_i hv
        rw [hfresh v hv]
        exact ⟨nofun, nofun⟩
      · exact Iff.rfl
  | runsAlready => exact hs
  | gives hc => exact hs.notifyOne hc
  | looks hw => exact hs.goes (awake_of (by rw [hw]; rfl)) rfl
  | leaves hw => exact hs.goes (awake_of (by rw [hw]; rfl)) rfl
  | quits hw hc => exact hs.goes hc rfl
  | sleeps hw hc => exact hs.waits hc rfl
  | takes hw hc => exact hs.goes hc rfl
  | counts hw => exact hs.goes (awake_of (by rw [hw]; rfl)) rfl
  | works hw => exact hs.goes (awake_of (by rw [hw]; rfl)) rfl
  | uncounts hw => exact hs.goes (awake_of (by rw [hw]; rfl)) rfl
  | announces hw => exact (hs.goes (awake_of (by rw [hw]; rfl)) rfl).notifyAll
  | finishes hw => exact hs.goes (awake_of (by rw [hw]; rfl)) rfl
  | calls ht => exact hs.goes (awake_of (Phase.not_worker_of_idle ht).2) rfl
  | returnsTrue ht hc => exact hs.goes hc rfl
  | returnsFalse ht hms hc => exact hs.goes hc rfl
  | waits ht hc => exact hs.waits hc rfl
  | stops => exact hs.notifyAll
  | joins => exact hs
  | joined => exact hs

/-! ## Before `stop` -/

theorem Steady.not_busy_of_waiting (h : Steady s) (hs : Sleeping s)
    (hall : ∀ w ∈ s.threads, w ∈ s.condition.waiting) (v : Nat) : (s.phase v).busy = false := by
  rw [Bool.eq_false_iff]
  intro hv
  obtain ⟨hworker, hawake⟩ := Phase.worker_of_busy hv
  have hwait := hall v ((h.threads v).mpr hworker)
  have hblocked := (hs.mem_iff v).mp (List.mem_append_left _ hwait)
  rw [hawake] at hblocked
  exact absurd hblocked nofun

/-- A thread moves on, and neither joins the workers nor forgets to look. -/
theorem Steady.moves (h : Steady s) (hphase : s'.phase = Function.update s.phase t p)
    (hthreads : s'.threads = s.threads) (htasks : s'.tasks = s.tasks)
    (hstop : s'.stopping = s.stopping)
    (hwait : ∀ u ∈ s'.condition.waiting, u ∈ s.condition.waiting)
    (hatomic : ∃ n : Nat, s'.atomic = n ∧ Counts (fun p => p.counted = true) s'.phase n)
    (hworker : p.worker = (s.phase t).worker)
    (hbusy : (s.phase t).busy = true → p.busy = true) : Steady s' := by
  refine ⟨hstop.trans h.stopping, hatomic, fun w => ?_, ?_, ?_⟩
  · rw [hthreads, h.threads, hphase]
    by_cases hw : w = t
    · rw [hw, Function.update_self, hworker]
    · rw [Function.update_of_ne hw]
  · rintro ⟨u, hu, hout⟩
    rw [htasks, hphase]
    rcases h.pending ⟨u, hwait u hu, hthreads ▸ hout⟩ with hne | ⟨w, hw⟩
    · exact .inl hne
    · right
      by_cases hwt : w = t
      · exact ⟨t, by rw [Function.update_self]; exact hbusy (hwt ▸ hw)⟩
      · exact ⟨w, by rw [Function.update_of_ne hwt]; exact hw⟩
  · rw [htasks, hthreads]
    intro hne hsome
    obtain ⟨w, hw, hout⟩ := h.served hne hsome
    exact ⟨w, hw, fun hmem => hout (hwait w hmem)⟩

/-- The number that `_atomic` counts does not change. -/
theorem Steady.uncounted (h : Steady s) (hp : p.counted = (s.phase t).counted) :
    ∃ n : Nat, s.atomic = n ∧
      Counts (fun p => p.counted = true) (Function.update s.phase t p) n := by
  obtain ⟨n, hn, hcounts⟩ := h.atomic
  exact ⟨n, hn, hcounts.stay (by rw [hp])⟩

/-- The workers are the same threads as before. -/
theorem Steady.same_workers (h : Steady s) (hp : p.worker = (s.phase t).worker) (v : Nat) :
    v ∈ s.threads ↔ (Function.update s.phase t p v).worker = true := by
  rw [h.threads]
  by_cases hv : v = t
  · rw [hv, Function.update_self, hp]
  · rw [Function.update_of_ne hv]

theorem Steady.starts (h : Steady s) (hs : Sleeping s) {threads : List Nat}
    (hempty : s.threads = []) (hfresh : ∀ w ∈ threads, s.phase w = .outside) :
    Steady { s with
      threads := threads
      phase := fun t => if t ∈ threads then .top else s.phase t } := by
  have hold : ∀ w, (s.phase w).worker = false := by
    intro w
    rw [Bool.eq_false_iff]
    intro hw
    have hmem := (h.threads w).mpr hw
    rw [hempty] at hmem
    exact absurd hmem List.not_mem_nil
  refine ⟨h.stopping, ?_, fun w => ?_, ?_, ?_⟩
  · obtain ⟨n, hn, S, hS, hcard⟩ := h.atomic
    refine ⟨n, hn, S, fun w => ?_, hcard⟩
    rw [hS]
    dsimp only
    split
    · rename_i hw
      rw [hfresh w hw]
      exact ⟨nofun, nofun⟩
    · exact Iff.rfl
  · dsimp only
    split
    · rename_i hw
      exact ⟨fun _ => rfl, fun _ => hw⟩
    · rename_i hw
      rw [hold w]
      exact ⟨fun h => absurd h hw, nofun⟩
  · rintro ⟨u, hu, -⟩
    rcases h.pending ⟨u, hu, hempty ▸ List.not_mem_nil⟩ with hne | ⟨w, hw⟩
    · exact .inl hne
    · have hworker := (Phase.worker_of_busy hw).1
      rw [hold w] at hworker
      exact absurd hworker nofun
  · intro _ hsome
    obtain ⟨w, hw⟩ := List.exists_mem_of_ne_nil threads hsome
    refine ⟨w, hw, fun hwait => ?_⟩
    have hblocked := (hs.mem_iff w).mp (List.mem_append_left _ hwait)
    rw [hfresh w hw] at hblocked
    exact absurd hblocked nofun

theorem Steady.gives (h : Steady s) (hs : Sleeping s) {expireTime : Int}
    (hc : s.condition.notifyOne u = some c) :
    Steady { s with
      tasks := s.tasks ++ [⟨s.given, expireTime⟩], condition := c, given := s.given + 1 } := by
  refine ⟨h.stopping, h.atomic, h.threads, fun _ => .inl (by simp), ?_⟩
  intro _ hsome
  have hwait : ∀ w, w ∈ c.waiting → w ∈ s.condition.waiting := by
    intro w hw
    rcases CondVar.notifyOne_cases hc with ⟨-, rfl⟩ | ⟨-, rfl⟩
    · exact hw
    · exact List.mem_of_mem_erase hw
  by_cases hall : ∀ w ∈ s.threads, w ∈ s.condition.waiting
  · -- Every worker sleeps, so there is no caller left that the notification could wake.
    have hidle := h.not_busy_of_waiting hs hall
    rcases CondVar.notifyOne_cases hc with ⟨hempty, rfl⟩ | ⟨hu, rfl⟩
    · obtain ⟨w, hw⟩ := List.exists_mem_of_ne_nil s.threads hsome
      exact absurd (hempty ▸ hall w hw) List.not_mem_nil
    · by_cases hmem : u ∈ s.threads
      · refine ⟨u, hmem, ?_⟩
        exact (List.nodup_append.mp hs.nodup).1.not_mem_erase
      · rcases h.pending ⟨u, hu, hmem⟩ with hne | ⟨v, hv⟩
        · obtain ⟨w, hw, hout⟩ := h.served hne hsome
          exact absurd (hall w hw) hout
        · rw [hidle v] at hv
          exact absurd hv nofun
  · obtain ⟨w, hw, hout⟩ : ∃ w ∈ s.threads, w ∉ s.condition.waiting := by
      simpa using hall
    exact ⟨w, hw, fun hmem => hout (hwait w hmem)⟩

/-- A worker finds no task. -/
theorem Steady.sleeps (h : Steady s) (hw : s.phase w = .getting ∨ s.phase w = .asleep)
    (hc : Awake s w c) (htasks : s.tasks = []) :
    Steady ({ s with condition := c.wait w }.move w .asleep) := by
  obtain ⟨hworker, hcounted, hbusy⟩ := Phase.worker_of_get hw
  refine ⟨h.stopping, h.uncounted hcounted.symm, h.same_workers (by rw [hworker]; rfl), ?_,
    fun hne => absurd htasks hne⟩
  · rintro ⟨u, hu, hout⟩
    rcases List.mem_cons.mp hu with rfl | hu
    · exact absurd ((h.threads u).mpr hworker) hout
    · rcases h.pending ⟨u, hc.waiting hu, hout⟩ with hne | ⟨v, hv⟩
      · exact absurd htasks hne
      · right
        refine ⟨v, ?_⟩
        have hvw : v ≠ w := by
          intro heq
          rw [heq, hbusy] at hv
          exact absurd hv nofun
        show (Function.update s.phase w .asleep v).busy = true
        rw [Function.update_of_ne hvw]
        exact hv

/-- A worker takes a task, and is awake. -/
theorem Steady.takes (h : Steady s) (hs : Sleeping s)
    (hw : s.phase w = .getting ∨ s.phase w = .asleep) (hc : Awake s w c) {task : TaskFunc}
    {tasks : List TaskFunc} :
    Steady ({ s with condition := c, tasks := tasks }.move w (.took task)) := by
  obtain ⟨hworker, hcounted, -⟩ := Phase.worker_of_get hw
  refine ⟨h.stopping, h.uncounted hcounted.symm, h.same_workers (by rw [hworker]; rfl),
    fun _ => .inr ⟨w, ?_⟩, fun _ _ => ?_⟩
  · show (Function.update s.phase w (.took task) w).busy = true
    rw [Function.update_self]
    rfl
  · refine ⟨w, (h.threads w).mpr hworker, fun hwait => ?_⟩
    exact (((Awake.sleepers hs hc).mem_iff w).mp (List.mem_append_left _ hwait)).1 rfl

/-- A worker ends its round. -/
theorem Steady.finishes (h : Steady s) (hw : s.phase w = .finishing)
    (hmore : s.atomic ≠ 0 ∨ s.tasks ≠ []) : Steady (s.move w .top) := by
  refine ⟨h.stopping, h.uncounted (by rw [hw]; rfl), h.same_workers (by rw [hw]; rfl),
    fun _ => ?_, h.served⟩
  · rcases hmore with hatomic | hne
    · -- Another worker is counted, and it will look after this one.
      right
      obtain ⟨n, hn, S, hS, rfl⟩ := h.atomic
      obtain ⟨v, hv⟩ : S.Nonempty := by
        rw [← Finset.card_ne_zero]
        exact fun hzero => hatomic (by rw [hn, hzero]; rfl)
      have hcounted := (hS v).mp hv
      have hvw : v ≠ w := by
        rintro rfl
        rw [hw] at hcounted
        exact absurd hcounted nofun
      refine ⟨v, ?_⟩
      show (Function.update s.phase w .top v).busy = true
      rw [Function.update_of_ne hvw]
      exact Phase.busy_of_counted hcounted
    · exact .inl hne

/-- The last worker to finish wakes everybody. -/
theorem Steady.announces (h : Steady s) (hw : s.phase w = .finishing) (htasks : s.tasks = []) :
    Steady ({ s with condition := s.condition.notifyAll }.move w .top) := by
  refine ⟨h.stopping, h.uncounted (by rw [hw]; rfl), h.same_workers (by rw [hw]; rfl), ?_,
    fun hne => ?_⟩
  · rintro ⟨u, hu, -⟩
    exact absurd hu List.not_mem_nil
  · exact absurd htasks hne

/-- A caller goes to sleep because there are tasks. -/
theorem Steady.waits (h : Steady s) {millsecond : Int} {before : Nat}
    (ht : s.phase t = .called millsecond before ∨ s.phase t = .waiting millsecond before)
    (hc : Awake s t c) (htasks : s.tasks ≠ []) :
    Steady ({ s with condition := c.wait t }.move t (.waiting millsecond before)) := by
  have hworker := Phase.not_worker_of_inCall (Phase.inCall_of_wait ht)
  have hcounted := (Phase.not_worker hworker).1
  refine ⟨h.stopping, h.uncounted hcounted.symm, h.same_workers (by rw [hworker]; rfl),
    fun _ => .inl htasks, fun hne hsome => ?_⟩
  · obtain ⟨w, hw, hout⟩ := h.served hne hsome
    refine ⟨w, hw, fun hwait => ?_⟩
    rcases List.mem_cons.mp hwait with rfl | hwait
    · have := (h.threads w).mp hw
      rw [hworker] at this
      exact absurd this nofun
    · exact hout (hc.waiting hwait)

/-- Before `stop` every step keeps the pool steady. -/
theorem Steady.step (h : Steady s) (hs : Sleeping s) (heff : Effect s op s')
    (hbefore : s'.terminate = false) : Steady s' := by
  cases heff with
  | starts hempty hnodup hfresh => exact h.starts hs hempty hfresh
  | runsAlready => exact h
  | gives hc => exact h.gives hs hc
  | looks hw =>
      exact h.moves rfl rfl rfl rfl (fun _ => id) (h.uncounted (by rw [hw]; rfl))
        (by rw [hw]; rfl) (by rw [hw]; exact nofun)
  | leaves hw hterm => exact absurd (hterm.symm.trans hbefore) nofun
  | quits hw hc hterm => exact absurd (hterm.symm.trans hbefore) nofun
  | sleeps hw hc hterm htasks => exact h.sleeps hw hc htasks
  | takes hw hc hterm htasks => exact h.takes hs hw hc
  | counts hw =>
      obtain ⟨n, hn, hcounts⟩ := h.atomic
      refine h.moves rfl rfl rfl rfl (fun _ => id) ⟨n + 1, ?_, ?_⟩ (by rw [hw]; rfl) fun _ => rfl
      · show s.atomic + 1 = _
        rw [hn]
        rfl
      · exact hcounts.enter (by rw [hw]; exact nofun) rfl
  | works hw =>
      exact h.moves rfl rfl rfl rfl (fun _ => id) (h.uncounted (by rw [hw]; rfl))
        (by rw [hw]; rfl) fun _ => rfl
  | uncounts hw =>
      obtain ⟨n, hn, hcounts⟩ := h.atomic
      have hpos : 0 < n := hcounts.pos (by rw [hw]; rfl)
      refine h.moves rfl rfl rfl rfl (fun _ => id) ⟨n - 1, ?_, ?_⟩ (by rw [hw]; rfl) fun _ => rfl
      · show s.atomic - 1 = _
        omega
      · exact hcounts.leave (by rw [hw]; rfl) nofun
  | announces hw hatomic htasks => exact h.announces hw htasks
  | finishes hw hmore => exact h.finishes hw hmore
  | calls ht =>
      have hout := (Phase.not_worker_of_idle ht).1
      obtain ⟨hcounted, hbusy⟩ := Phase.not_worker hout
      exact h.moves rfl rfl rfl rfl (fun _ => id) (h.uncounted hcounted.symm) hout.symm
        (by rw [hbusy]; exact nofun)
  | returnsTrue ht hc =>
      have hout := Phase.not_worker_of_inCall ht
      obtain ⟨hcounted, hbusy⟩ := Phase.not_worker hout
      exact h.moves rfl rfl rfl rfl (fun _ => hc.waiting) (h.uncounted hcounted.symm) hout.symm
        (by rw [hbusy]; exact nofun)
  | returnsFalse ht hms hc =>
      have hout := Phase.not_worker_of_inCall (Phase.inCall_of_wait (.inr ht))
      obtain ⟨hcounted, hbusy⟩ := Phase.not_worker hout
      exact h.moves rfl rfl rfl rfl (fun _ => hc.waiting) (h.uncounted hcounted.symm) hout.symm
        (by rw [hbusy]; exact nofun)
  | waits ht hc htasks => exact h.waits ht hc htasks
  | stops => exact absurd hbefore nofun
  | joins hstop => exact absurd (hstop.symm.trans h.stopping) nofun
  | joined hstop => exact absurd (hstop.symm.trans h.stopping) nofun

/-- `stop` is for good. -/
theorem Effect.terminate (heff : Effect s op s') (h : s'.terminate = false) :
    s.terminate = false := by
  cases heff <;> first | exact h | exact absurd h nofun

theorem create_sleeping (num : Nat) : Sleeping (create num) :=
  CondVar.sleepers_empty fun _ => nofun

theorem create_steady (num : Nat) : Steady (create num) :=
  ⟨rfl, ⟨0, rfl, counts_zero fun _ => nofun⟩, fun _ => ⟨fun h => absurd h List.not_mem_nil, nofun⟩,
    fun ⟨_, hu, _⟩ => absurd hu List.not_mem_nil, fun h => absurd rfl h⟩

/-- A steady pool serves its tasks. -/
theorem Steady.not_unserved (h : Steady s) (hs : Sleeping s) : ¬ Unserved s := by
  rintro ⟨hne, ⟨w₀, hw₀, -⟩, hall⟩
  obtain ⟨w, hw, hout⟩ := h.served hne (List.ne_nil_of_mem hw₀)
  obtain ⟨hnotified, hblocked⟩ := hall w hw
  rcases List.mem_append.mp ((hs.mem_iff w).mpr hblocked) with hwait | hmem
  · exact hout hwait
  · exact hnotified hmem

end

/-- **No task is left unserved before `stop`.** That is for any number of workers, any threads
that call `exec` and `waitForAllDone`, and every interleaving. -/
theorem never_unserved (num : Nat) (ops : List Op) (s : Pool)
    (hrun : run step (create num) ops = some s) (hbefore : s.terminate = false) :
    ¬ Unserved s := by
  have hkeeps : ∀ s op s', Sleeping s ∧ (s.terminate = false → Steady s) → step s op = some s' →
      Sleeping s' ∧ (s'.terminate = false → Steady s') := by
    intro s op s' hs hstep
    have heff := step_effect hstep
    exact ⟨hs.1.step heff, fun h => (hs.2 (heff.terminate h)).step hs.1 heff h⟩
  have hinv := run_keeps hkeeps ops ⟨create_sleeping num, fun _ => create_steady num⟩ hrun
  exact (hinv.2 hbefore).not_unserved hinv.1

/-- Two workers sleep when a task comes. Before the one that was woken has the mutex, a caller
goes to sleep too, and it is the caller that the next notification wakes. -/
def overheard : List Op :=
  [.start [1, 2], .look 1, .get 1, .look 2, .get 2, .exec 0 0 1, .call 3 (-1), .await 3 false,
    .exec 0 0 3, .await 3 false]

theorem never_unserved_overheard :
    ∃ s, run step (create 2) overheard = some s ∧ s.terminate = false ∧ ¬ Unserved s := by
  obtain ⟨s, hrun, hs⟩ := (Option.any_eq_true _ _).mp
    (show (run step (create 2) overheard).any (fun s => !s.terminate) by decide +kernel)
  have hbefore : s.terminate = false := by simpa using hs
  exact ⟨s, hrun, hbefore, never_unserved 2 overheard s hrun hbefore⟩

end CppTrack.ZeroThreadPool
