import CppTrack.Pool.ZeroThreadPoolServe

/-!
# What `stop` does for the callers

`stop` wakes everybody, but a caller of `waitForAllDone` only looks whether there are tasks, and
the workers, once they are told to stop, leave them where they are. So a caller without a time
limit that finds one after `stop` waits for good.
-/

namespace CppTrack.ZeroThreadPool

open Lib

/-- Whoever still waits without a time limit has been notified, and will find no task. -/
def Released (s : Pool) : Prop :=
  ∀ t, (s.phase t).endless = true → t ∈ s.condition.notified ∧ s.tasks = []

/-- Nobody waits without a time limit. -/
def Unawaited (s : Pool) : Prop := ∀ t, (s.phase t).endless = false

/-- `stop` comes when there is no task, or when nobody waits without a time limit, and after it
nobody begins to where there are tasks, and no task is given while somebody does. -/
def Orderly (s : Pool) : Op → Prop
  | .stop => s.tasks = [] ∨ Unawaited s
  | .exec _ _ _ => s.terminate = true → Unawaited s
  | .await t _ => s.terminate = true →
      ∀ millsecond before, s.phase t = .called millsecond before → millsecond < 0 → s.tasks = []
  | _ => True

/-- Somebody waits for the end of tasks that nobody will take. -/
structure Stuck (s : Pool) : Prop where
  terminate : s.terminate = true
  tasks : s.tasks ≠ []
  waits : ∃ t, (s.phase t).endless = true

section

variable {s s' : Pool} {op : Op} {c : CondVar} {t u w : Nat} {p : Phase}

theorem Phase.blocked_of_endless (h : p.endless = true) : p.blocked = true := by
  cases p <;> first | rfl | exact absurd h nofun

theorem Awake.notified (hc : Awake s t c) (hu : u ∈ s.condition.notified) (hne : u ≠ t) :
    u ∈ c.notified := by
  rcases hc with ⟨-, rfl⟩ | ⟨-, hresume⟩
  · exact hu
  · exact CondVar.notified_resume hresume hu hne

/-- A thread moves on, and does not wait without a time limit. -/
theorem Released.moves (h : Released s) (hphase : s'.phase = Function.update s.phase t p)
    (htasks : s'.tasks = s.tasks)
    (hnotified : ∀ u ∈ s.condition.notified, u ≠ t → u ∈ s'.condition.notified)
    (hp : p.endless = false) : Released s' := by
  intro v hv
  rw [hphase] at hv
  rw [htasks]
  by_cases hvt : v = t
  · rw [hvt, Function.update_self, hp] at hv
    exact absurd hv nofun
  · rw [Function.update_of_ne hvt] at hv
    exact ⟨hnotified v (h v hv).1 hvt, (h v hv).2⟩

/-- After `stop` every orderly step keeps the callers released. -/
theorem Released.step (h : s.terminate = true → Released s) (hs : Sleeping s)
    (horderly : Orderly s op) (heff : Effect s op s') (hterm' : s'.terminate = true) :
    Released s' := by
  cases heff with
  | starts hempty hnodup hfresh =>
      intro v hv
      dsimp only at hv
      split at hv
      · exact absurd hv nofun
      · exact h hterm' v hv
  | runsAlready => exact h hterm'
  | gives hc =>
      intro v hv
      have hnot : (s.phase v).endless = false := horderly hterm' v
      exact absurd (hnot.symm.trans hv) nofun
  | looks hw => exact (h hterm').moves rfl rfl (fun _ hu _ => hu) rfl
  | leaves hw => exact (h hterm').moves rfl rfl (fun _ hu _ => hu) rfl
  | quits hw hc => exact (h hterm').moves rfl rfl (fun _ => hc.notified) rfl
  | sleeps hw hc hterm => exact absurd (hterm.symm.trans hterm') nofun
  | takes hw hc hterm => exact absurd (hterm.symm.trans hterm') nofun
  | counts hw => exact (h hterm').moves rfl rfl (fun _ hu _ => hu) rfl
  | works hw => exact (h hterm').moves rfl rfl (fun _ hu _ => hu) rfl
  | uncounts hw => exact (h hterm').moves rfl rfl (fun _ hu _ => hu) rfl
  | announces hw =>
      exact (h hterm').moves rfl rfl (fun _ hu _ => List.mem_append_right _ hu) rfl
  | finishes hw => exact (h hterm').moves rfl rfl (fun _ hu _ => hu) rfl
  | calls ht => exact (h hterm').moves rfl rfl (fun _ hu _ => hu) rfl
  | returnsTrue ht hc => exact (h hterm').moves rfl rfl (fun _ => hc.notified) rfl
  | returnsFalse ht hms hc => exact (h hterm').moves rfl rfl (fun _ => hc.notified) rfl
  | @waits t before millsecond timedOut c ht hc htasks =>
      -- There are tasks, so this caller must have a time limit.
      have hms : ¬ millsecond < 0 := by
        intro hms
        rcases ht with ht | ht
        · exact htasks (horderly hterm' millsecond before ht hms)
        · exact htasks (h hterm' t (by rw [ht]; exact decide_eq_true hms)).2
      exact (h hterm').moves rfl rfl (fun _ => hc.notified) (decide_eq_false hms)
  | stops =>
      intro v hv
      rcases horderly with htasks | hnone
      · refine ⟨?_, htasks⟩
        exact (hs.mem_iff v).mpr (Phase.blocked_of_endless hv)
      · exact absurd ((hnone v).symm.trans hv) nofun
  | joins => exact h hterm'
  | joined => exact h hterm'

/-! ## Without order there is no release -/

theorem Stuck.not_released (h : Stuck s) : ¬ Released s := by
  intro hr
  obtain ⟨t, ht⟩ := h.waits
  exact h.tasks (hr t ht).2

theorem Stuck.moves (h : Stuck s) (hphase : s'.phase = Function.update s.phase w p)
    (hterm : s'.terminate = s.terminate) (htasks : s'.tasks = s.tasks)
    (hp : (s.phase w).endless = true → p.endless = true) : Stuck s' := by
  obtain ⟨t, ht⟩ := h.waits
  refine ⟨hterm.trans h.terminate, htasks ▸ h.tasks, t, ?_⟩
  rw [hphase]
  by_cases htw : t = w
  · rw [htw, Function.update_self]
    exact hp (htw ▸ ht)
  · rw [Function.update_of_ne htw]
    exact ht

theorem Phase.not_endless (h : p.blocked = false) : ¬ p.endless = true := fun he =>
  absurd (h.symm.trans (Phase.blocked_of_endless he)) nofun

/-- A worker is not in `waitForAllDone`. -/
theorem Stuck.works (h : Stuck s) (hphase : s'.phase = Function.update s.phase w p)
    (hterm : s'.terminate = s.terminate) (htasks : s'.tasks = s.tasks)
    (hw : (s.phase w).endless = false) : Stuck s' :=
  h.moves hphase hterm htasks (by rw [hw]; exact nofun)

/-- Whoever is stuck stays so. -/
theorem Stuck.step (h : Stuck s) (heff : Effect s op s') : Stuck s' := by
  cases heff with
  | starts hempty hnodup hfresh =>
      obtain ⟨t, ht⟩ := h.waits
      refine ⟨h.terminate, h.tasks, t, ?_⟩
      dsimp only
      split
      · rename_i hmem
        rw [hfresh t hmem] at ht
        exact absurd ht nofun
      · exact ht
  | runsAlready => exact h
  | gives => exact ⟨h.terminate, by simp, h.waits⟩
  | looks hw => exact h.works rfl rfl rfl (by rw [hw]; rfl)
  | leaves hw => exact h.works rfl rfl rfl (by rw [hw]; rfl)
  | quits hw =>
      rcases hw with hw | hw
      · exact h.works rfl rfl rfl (by rw [hw]; rfl)
      · exact h.works rfl rfl rfl (by rw [hw]; rfl)
  | sleeps hw hc hterm => exact absurd (hterm.symm.trans h.terminate) nofun
  | takes hw hc hterm => exact absurd (hterm.symm.trans h.terminate) nofun
  | counts hw => exact h.works rfl rfl rfl (by rw [hw]; rfl)
  | works hw => exact h.works rfl rfl rfl (by rw [hw]; rfl)
  | uncounts hw => exact h.works rfl rfl rfl (by rw [hw]; rfl)
  | announces hw hatomic htasks => exact absurd htasks h.tasks
  | finishes hw => exact h.works rfl rfl rfl (by rw [hw]; rfl)
  | calls ht =>
      have hblocked := (Phase.not_worker_of_idle ht).2
      exact h.works rfl rfl rfl (Bool.eq_false_iff.mpr (Phase.not_endless hblocked))
  | returnsTrue ht hc htasks => exact absurd htasks h.tasks
  | returnsFalse ht hms =>
      exact h.works rfl rfl rfl (by rw [ht]; exact decide_eq_false (Int.not_lt.mpr hms))
  | waits ht =>
      refine h.moves rfl rfl rfl fun he => ?_
      rcases ht with ht | ht <;> rw [ht] at he
      · exact absurd he nofun
      · exact he
  | stops => exact ⟨rfl, h.tasks, h.waits⟩
  | joins => exact ⟨h.terminate, h.tasks, h.waits⟩
  | joined => exact ⟨h.terminate, h.tasks, h.waits⟩

theorem not_unawaited (h : ¬ Unawaited s) : ∃ t, (s.phase t).endless = true := by
  obtain ⟨t, ht⟩ := not_forall.mp h
  exact ⟨t, by simpa using ht⟩

/-- A step out of order leaves somebody stuck. -/
theorem stuck_of_disorderly (h : ¬ Orderly s op) (heff : Effect s op s') : Stuck s' := by
  cases heff with
  | gives =>
      obtain ⟨hterm, hnot⟩ := Classical.not_imp.mp h
      exact ⟨hterm, by simp, not_unawaited hnot⟩
  | stops =>
      obtain ⟨htasks, hnot⟩ := not_or.mp h
      exact ⟨rfl, htasks, not_unawaited hnot⟩
  | returnsTrue ht hc htasks => exact absurd (fun _ _ _ _ _ => htasks) h
  | @returnsFalse t before millsecond timedOut c ht =>
      refine absurd (fun _ millsecond' before' hcalled => ?_) h
      rw [ht] at hcalled
      exact absurd hcalled nofun
  | @waits t before millsecond timedOut c ht hc htasks =>
      obtain ⟨hterm, hcalled⟩ := Classical.not_imp.mp h
      obtain ⟨millsecond', before', hcalled, hms, -⟩ :
          ∃ ms b, s.phase t = .called ms b ∧ ms < 0 ∧ s.tasks ≠ [] := by
        simpa using hcalled
      refine ⟨hterm, htasks, t, ?_⟩
      show (Function.update s.phase t _ t).endless = true
      rw [Function.update_self]
      rcases ht with ht | ht
      · obtain ⟨rfl, -⟩ := Phase.called.inj (ht.symm.trans hcalled)
        exact decide_eq_true hms
      · exact absurd (ht.symm.trans hcalled) nofun
  | _ => exact absurd trivial h

/-- Once `stop` has set the flag, it stays. -/
theorem Effect.flagged (heff : Effect s op s')
    (h : s.stopping ≠ .notCalled → s.terminate = true) :
    s'.stopping ≠ .notCalled → s'.terminate = true := by
  cases heff with
  | stops => exact fun _ => rfl
  | joins hstop => exact fun _ => h (by rw [hstop]; exact nofun)
  | joined hstop => exact fun _ => h (by rw [hstop]; exact nofun)
  | _ => exact h

end

/--
**`stop` releases the callers if and only if it comes in order.** That is for any number of
workers, any number of tasks, and any interleaving of the calls: in a state where `stop` has
returned nobody is left in a `waitForAllDone` without a time limit, unless notified and with no
task to be found, if and only if each step up to there was orderly.
-/
theorem stop_releases_iff (num : Nat) (ops : List Op) (s : Pool)
    (hrun : run step (create num) ops = some s) (hstop : s.stopping = .returned) :
    Released s ↔ Meets step Orderly (create num) ops := by
  have hruns : ∀ (ops : List Op) (s₀ : Pool), Sleeping s₀ → (s₀.terminate = true → Released s₀) →
      (s₀.stopping ≠ .notCalled → s₀.terminate = true) → run step s₀ ops = some s →
        (Released s ↔ Meets step Orderly s₀ ops) := by
    intro ops
    induction ops with
    | nil =>
        intro s₀ _ hreleased hflagged hrun
        obtain rfl := Option.some.inj hrun
        exact iff_of_true (hreleased (hflagged (by rw [hstop]; exact nofun))) trivial
    | cons op ops ih =>
        intro s₀ hs hreleased hflagged hrun
        obtain ⟨s₁, hstep, hrest⟩ := Option.bind_eq_some_iff.mp hrun
        have heff := step_effect hstep
        by_cases horderly : Orderly s₀ op
        · rw [ih s₁ (hs.step heff) (Released.step hreleased hs horderly heff)
            (heff.flagged hflagged) hrest]
          refine ⟨fun h => ⟨horderly, fun s₂ h₂ => ?_⟩, fun h => h.2 s₁ hstep⟩
          rw [hstep] at h₂
          exact Option.some.inj h₂ ▸ h
        · have hstuck : Stuck s := run_keeps (fun _ _ _ h hstep => h.step (step_effect hstep)) ops
            (stuck_of_disorderly horderly heff) hrest
          exact iff_of_false hstuck.not_released fun h => horderly h.1
  exact hruns ops (create num) (create_sleeping num) nofun (fun h => absurd rfl h) hrun

/-- The only task has been taken when `stop` comes, and the caller that waits for it is woken. -/
def inOrder : List Op :=
  [.start [1], .exec 0 0 0, .call 2 (-1), .await 2 false, .look 1, .get 1, .count 1, .stop,
    .work 1 0, .uncount 1, .finish 1, .look 1, .join, .join]

theorem inOrder_releases :
    ∃ s, run step (create 1) inOrder = some s ∧ s.stopping = .returned ∧
      (Released s ↔ Meets step Orderly (create 1) inOrder) := by
  obtain ⟨s, hrun, hs⟩ := (Option.any_eq_true _ _).mp
    (show (run step (create 1) inOrder).any (fun s => decide (s.stopping = .returned))
      by decide +kernel)
  have hstop := of_decide_eq_true hs
  exact ⟨s, hrun, hstop, stop_releases_iff 1 inOrder s hrun hstop⟩

/-- `stop` comes before the worker has taken the only task. -/
def early : List Op :=
  [.start [1], .exec 0 0 0, .call 2 (-1), .await 2 false, .look 1, .stop, .await 2 false, .get 1,
    .look 1, .join, .join]

theorem stop_leaves_caller :
    ¬ ∀ (num : Nat) (ops : List Op) (s : Pool), run step (create num) ops = some s →
      s.stopping = .returned → Released s := by
  intro h
  obtain ⟨s, hrun, hs⟩ := (Option.any_eq_true _ _).mp
    (show (run step (create 1) early).any (fun s => decide (s.stopping = .returned ∧
      (s.phase 2).endless = true ∧ s.tasks ≠ [])) by decide +kernel)
  obtain ⟨hstop, hendless, htasks⟩ := of_decide_eq_true hs
  exact htasks (h 1 early s hrun hstop 2 hendless).2

end CppTrack.ZeroThreadPool
