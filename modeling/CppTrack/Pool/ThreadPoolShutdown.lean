import CppTrack.Pool.ThreadPoolJobs

/-!
# Shutting the pool down

`ntyThreadPoolShutdown` tells a worker to leave and only then reads where the next one is. A
worker that does not sleep may by then have left and freed its record. If it has not, the walk
comes to the end, and nobody sleeps any more.
-/

namespace CppTrack.ThreadPool

open Lib

/-- The worker has seen that it is to leave. -/
def Pool.Out (s : Pool) (worker : Nat) : Prop :=
  s.phase worker = .leaving ∨ s.phase worker = .gone

/-- No worker that is to leave takes a job, and none that has seen it calls one. -/
def Heeds (s s' : Pool) : Prop :=
  (∀ w j, s.terminate w = true → (w, j) ∈ s'.taken → (w, j) ∈ s.taken) ∧
    ∀ w, s.Out w → s'.Out w ∧ ∀ j, (w, j) ∈ s'.called → (w, j) ∈ s.called

/-- A step that can be made uses no freed record, and after the shutdown nobody sleeps. -/
def Safe (s : Pool) (op : Op) : Prop :=
  Possible s op → ∃ s', step s op = some s' ∧
    (s'.shutdown = .returned → s'.jobsCond.waiting = []) ∧ Heeds s s'

/-- No worker frees its record while the shutdown stands at it. -/
def Patient (s : Pool) : Op → Prop
  | .free worker => s.shutdown ≠ .marked worker
  | _ => True

instance (s : Pool) : (op : Op) → Decidable (Patient s op)
  | .free worker => inferInstanceAs (Decidable (s.shutdown ≠ .marked worker))
  | .queue _ _ | .enter _ | .resume _ | .call _ | .shutdown | .mark | .advance | .finish =>
      .isTrue trivial

/-- How far the walk along the workers `l` has come. -/
def Walk (l : List Nat) (s : Pool) : Prop :=
  match s.shutdown with
  | .notCalled => Path (fun i => i) 0 s.links.next s.workers l ∧ ∀ w, s.terminate w = false
  | .before worker => ∃ l₁ l₂, l = l₁ ++ l₂ ∧ Path (fun i => i) 0 s.links.next worker l₂ ∧
      ∀ w, s.terminate w = true ↔ w ∈ l₁
  | .marked worker => ∃ l₁ l₂, l = l₁ ++ worker :: l₂ ∧
      Path (fun i => i) 0 s.links.next (s.links.next worker) l₂ ∧ s.freed worker = false ∧
      ∀ w, s.terminate w = true ↔ w ∈ l₁ ∨ w = worker
  | .returned => s.jobsCond.waiting = [] ∧ ∀ w ∈ l, s.terminate w = true

/-- What holds while workers are patient. -/
structure Alive (l : List Nat) (s : Pool) : Prop where
  nodup : l.Nodup
  nonzero : ∀ w ∈ l, w ≠ 0
  members : ∀ w, s.phase w ≠ .absent → w ∈ l
  freed : ∀ w, s.freed w = true → s.phase w = .gone
  out : ∀ w, s.Out w → s.terminate w = true
  walk : Walk l s

section

variable {s s' : Pool} {l : List Nat} {worker : Nat} {op : Op}

/-- A record that is not marked to be freed is there. -/
theorem Alive.kept (h : Alive l s) (hw : s.terminate worker = false) :
    s.freed worker = false := by
  by_contra hfreed
  have hgone := h.freed worker (by simpa using hfreed)
  rw [h.out worker (.inr hgone)] at hw
  exact absurd hw nofun

theorem Alive.notFreed (h : Alive l s) (hw : s.phase worker ≠ .gone) :
    s.freed worker = false := by
  by_contra hfreed
  exact hw (h.freed worker (by simpa using hfreed))

/-- The walk does not look at what the workers do. -/
theorem Walk.congr (h : Walk l s) (hshutdown : s'.shutdown = s.shutdown)
    (hlinks : s'.links = s.links) (hworkers : s'.workers = s.workers)
    (hterminate : s'.terminate = s.terminate)
    (hfreed : ∀ w, s.shutdown = .marked w → s'.freed w = s.freed w)
    (hwaiting : s.shutdown = .returned → s'.jobsCond.waiting = []) : Walk l s' := by
  unfold Walk at h ⊢
  rw [hshutdown]
  cases hs : s.shutdown with
  | notCalled =>
      rw [hs] at h
      rw [hlinks, hworkers, hterminate]
      exact h
  | before w =>
      rw [hs] at h
      simp only [hlinks, hterminate]
      exact h
  | marked w =>
      rw [hs] at h
      simp only [hlinks, hterminate, hfreed w hs]
      exact h
  | returned =>
      rw [hs] at h
      rw [hterminate]
      exact ⟨hwaiting hs, h.2⟩

theorem Alive.asleep (h : Alive l s) (hs : s.shutdown = .returned) :
    s.jobsCond.waiting = [] ∧ ∀ w ∈ l, s.terminate w = true := by
  have hwalk := h.walk
  unfold Walk at hwalk
  rw [hs] at hwalk
  exact hwalk

/-- A worker goes from one place to another. -/
theorem Alive.move {p : Phase} {r : Pool} (h : Alive l s) (hphase : s.phase worker ≠ .absent)
    (hin : ¬ s.Out worker) (hs : r.phase = Function.update s.phase worker p)
    (hterminate : r.terminate = s.terminate) (hfreed : r.freed = s.freed)
    (hout : p = .leaving ∨ p = .gone → s.terminate worker = true) (hwalk : Walk l r) :
    Alive l r ∧ ∀ w, s.Out w → r.Out w := by
  have hself : r.phase worker = p := by rw [hs, Function.update_self]
  have hother : ∀ w, w ≠ worker → r.phase w = s.phase w := by
    intro w hw
    rw [hs, Function.update_of_ne hw]
  refine ⟨⟨h.nodup, h.nonzero, fun w hw => ?_, fun w hw => ?_, fun w hw => ?_, hwalk⟩,
    fun w hw => ?_⟩
  · by_cases hww : w = worker
    · exact hww ▸ h.members worker hphase
    · exact h.members w (hother w hww ▸ hw)
  · have hgone := h.freed w (hfreed ▸ hw)
    have hww : w ≠ worker := fun hww => hin (.inr (hww ▸ hgone))
    rw [hother w hww]
    exact hgone
  · rw [hterminate]
    by_cases hww : w = worker
    · rw [hww] at hw ⊢
      unfold Pool.Out at hw
      rw [hself] at hw
      exact hout hw
    · unfold Pool.Out at hw
      rw [hother w hww] at hw
      exact h.out w hw
  · have hww : w ≠ worker := fun hww => hin (hww ▸ hw)
    unfold Pool.Out
    rw [hother w hww]
    exact hw

/-- A worker has the mutex: it sleeps, leaves, or takes a job. -/
theorem Alive.pass (h : Alive l s) (hphase : s.phase worker ≠ .absent) (hin : ¬ s.Out worker) :
    Alive l (pass s worker) ∧ Heeds s (pass s worker) := by
  unfold ThreadPool.pass
  have hmember := h.members worker hphase
  by_cases hterm : s.terminate worker = true
  · -- it sees that it is to leave
    rw [if_neg (by simp [hterm]), if_pos hterm]
    obtain ⟨h', hout⟩ := h.move (p := .leaving)
      (r := { s with phase := Function.update s.phase worker .leaving }) hphase hin rfl rfl rfl
      (fun _ => hterm) h.walk
    exact ⟨h', fun w j _ hj => hj, fun w hw => ⟨hout w hw, fun j hj => hj⟩⟩
  have hnot : s.shutdown ≠ .returned := fun hs => hterm ((h.asleep hs).2 worker hmember)
  by_cases hempty : s.waitingJobs = 0
  · rw [if_pos ⟨hempty, by simpa using hterm⟩]
    obtain ⟨h', hout⟩ := h.move (p := .asleep)
      (r := { s with
        jobsCond := s.jobsCond.wait worker
        phase := Function.update s.phase worker .asleep }) hphase hin rfl rfl rfl nofun
      (h.walk.congr rfl rfl rfl rfl (fun _ _ => rfl) fun hs => absurd hs hnot)
    exact ⟨h', fun w j _ hj => hj, fun w hw => ⟨hout w hw, fun j hj => hj⟩⟩
  · rw [if_neg (fun hall => hempty hall.1), if_neg hterm]
    obtain ⟨h', hout⟩ := h.move (p := .holds s.waitingJobs)
      (r := { s with
        jobs := (llRemove s.jobs s.waitingJobs s.waitingJobs).1
        waitingJobs := (llRemove s.jobs s.waitingJobs s.waitingJobs).2
        phase := Function.update s.phase worker (.holds s.waitingJobs)
        taken := s.taken ++ [(worker, s.waitingJobs)] }) hphase hin rfl rfl rfl nofun
      (h.walk.congr rfl rfl rfl rfl (fun _ _ => rfl) fun hs => absurd hs hnot)
    refine ⟨h', fun w j hw hj => ?_, fun w hw => ⟨hout w hw, fun j hj => hj⟩⟩
    rcases List.mem_append.mp hj with hj | hj
    · exact hj
    · obtain ⟨rfl, -⟩ := Prod.mk.inj (List.mem_singleton.mp hj)
      exact absurd hw hterm

theorem heeds_same (hphase : s'.phase = s.phase) (htaken : s'.taken = s.taken)
    (hcalled : s'.called = s.called) : Heeds s s' := by
  refine ⟨fun w j _ hj => htaken ▸ hj, fun w hw => ⟨?_, fun j hj => hcalled ▸ hj⟩⟩
  unfold Pool.Out
  rw [hphase]
  exact hw

/-- A worker that leaves frees its record, if the walk does not stand at it. -/
theorem Alive.gone (h : Alive l s) (hphase : s.phase worker = .leaving)
    (hpatient : s.shutdown ≠ .marked worker) : Alive l { s with
      freed := Function.update s.freed worker true
      phase := Function.update s.phase worker .gone } ∧
    Heeds s { s with
      freed := Function.update s.freed worker true
      phase := Function.update s.phase worker .gone } := by
  have hself : Function.update s.phase worker .gone worker = .gone := Function.update_self ..
  have hother : ∀ w, w ≠ worker → Function.update s.phase worker .gone w = s.phase w :=
    fun w hw => Function.update_of_ne hw ..
  -- who is out does not change: the worker was leaving and is gone
  have hout : ∀ w, (Function.update s.phase worker .gone w = .leaving ∨
      Function.update s.phase worker .gone w = .gone) ↔ s.Out w := by
    intro w
    by_cases hw : w = worker
    · rw [hw, hself]
      exact iff_of_true (.inr rfl) (.inl hphase)
    · rw [hother w hw]
      rfl
  refine ⟨⟨h.nodup, h.nonzero, fun w hw => ?_, fun w hw => ?_,
    fun w hw => h.out w ((hout w).mp hw), ?_⟩, fun w j _ hj => hj,
    fun w hw => ⟨(hout w).mpr hw, fun j hj => hj⟩⟩
  · by_cases hww : w = worker
    · exact hww ▸ h.members worker (by rw [hphase]; nofun)
    · exact h.members w (hother w hww ▸ hw)
  · by_cases hww : w = worker
    · rw [hww]
      exact hself
    · have hw : Function.update s.freed worker true w = true := hw
      rw [Function.update_of_ne hww] at hw
      exact (hother w hww).trans (h.freed w hw)
  · refine h.walk.congr rfl rfl rfl rfl (fun w hs => ?_) fun hs => (h.asleep hs).1
    -- a worker is not freed while the walk stands at it
    have hw : w ≠ worker := fun hw => hpatient (hw ▸ hs)
    exact Function.update_of_ne hw ..

/-- A worker calls the job it holds. -/
theorem Alive.calls (h : Alive l s) {job : Nat} (hphase : s.phase worker = .holds job) :
    Alive l { s with
      phase := Function.update s.phase worker .top
      called := s.called ++ [(worker, job)] } ∧
    Heeds s { s with
      phase := Function.update s.phase worker .top
      called := s.called ++ [(worker, job)] } := by
  have hin : ¬ s.Out worker := by rintro (hp | hp) <;> rw [hphase] at hp <;> cases hp
  have hthere : s.phase worker ≠ .absent := by rw [hphase]; nofun
  obtain ⟨h', hout⟩ := h.move (p := .top)
    (r := { s with
      phase := Function.update s.phase worker .top
      called := s.called ++ [(worker, job)] }) hthere hin rfl rfl rfl nofun h.walk
  refine ⟨h', fun w j _ hj => hj, fun w hw => ⟨hout w hw, fun j hj => ?_⟩⟩
  rcases List.mem_append.mp hj with hj | hj
  · exact hj
  · obtain ⟨rfl, -⟩ := Prod.mk.inj (List.mem_singleton.mp hj)
    exact absurd hw hin

/-! ## The steps of the shutdown -/

/-- It writes to the record it stands before, which is still there. -/
theorem Alive.mark (h : Alive l s) (hs : s.shutdown = .before worker) (hworker : worker ≠ 0) :
    s.freed worker = false ∧ Alive l { s with
      terminate := Function.update s.terminate worker true
      shutdown := .marked worker } := by
  have hwalk := h.walk
  unfold Walk at hwalk
  rw [hs] at hwalk
  obtain ⟨l₁, l₂, hl, hpath, hterm⟩ := hwalk
  obtain ⟨hl₂, hrest⟩ := hpath.eq_cons hworker
  have hnew : worker ∉ l₁ := by
    have hnodup := h.nodup
    rw [hl, hl₂] at hnodup
    exact fun hmem => (List.nodup_append.mp hnodup).2.2 _ hmem _ List.mem_cons_self rfl
  have hnotTerm : s.terminate worker = false := by
    by_contra hne
    exact hnew ((hterm worker).mp (by simpa using hne))
  have hterm' : ∀ w, Function.update s.terminate worker true w = true ↔ w ∈ l₁ ∨ w = worker := by
    intro w
    by_cases hw : w = worker
    · rw [hw, Function.update_self]
      simp
    · rw [Function.update_of_ne hw, hterm]
      simp [hw]
  refine ⟨h.kept hnotTerm, h.nodup, h.nonzero, h.members, h.freed, fun w hw => ?_,
    ⟨l₁, l₂.tail, hl₂ ▸ hl, hrest, h.kept hnotTerm, hterm'⟩⟩
  exact (hterm' w).mpr (.inl ((hterm w).mp (h.out w hw)))

/-- It reads where the next one is. -/
theorem Alive.advance (h : Alive l s) (hs : s.shutdown = .marked worker) :
    s.freed worker = false ∧
      Alive l { s with shutdown := .before (s.links.next worker) } := by
  have hwalk := h.walk
  unfold Walk at hwalk
  rw [hs] at hwalk
  obtain ⟨l₁, l₂, hl, hpath, hfreed, hterm⟩ := hwalk
  refine ⟨hfreed, h.nodup, h.nonzero, h.members, h.freed, h.out,
    ⟨l₁ ++ [worker], l₂, by rw [hl, List.append_assoc]; rfl, hpath, fun w => ?_⟩⟩
  rw [hterm, List.mem_append, List.mem_singleton]

theorem Alive.finish (h : Alive l s) (hs : s.shutdown = .before 0) :
    Alive l { s with
      workers := 0
      waitingJobs := 0
      jobsCond := s.jobsCond.notifyAll
      shutdown := .returned } := by
  have hwalk := h.walk
  unfold Walk at hwalk
  rw [hs] at hwalk
  obtain ⟨l₁, l₂, hl, hpath, hterm⟩ := hwalk
  have hl₂ : l₂ = [] := hpath.eq_nil fun w hw =>
    h.nonzero w (hl ▸ List.mem_append_right _ hw)
  rw [hl₂, List.append_nil] at hl
  exact ⟨h.nodup, h.nonzero, h.members, h.freed, h.out, rfl, fun w hw => (hterm w).mpr (hl ▸ hw)⟩

/-! ## Runs -/

theorem Alive.step (h : Alive l s) (hpatient : Patient s op) (hpossible : Possible s op) :
    ∃ s', step s op = some s' ∧ Alive l s' ∧ Heeds s s' := by
  cases op with
  | queue job u =>
      -- whoever is notified was asleep, which nobody is once the walk is over
      obtain ⟨hjob, hnew, hnotify⟩ := hpossible
      obtain ⟨c, hc⟩ := Option.isSome_iff_exists.mp hnotify
      simp only [ThreadPool.step, if_pos (And.intro hjob hnew), ntyThreadPoolQueue, hc]
      refine ⟨_, rfl, ⟨h.nodup, h.nonzero, h.members, h.freed, h.out, ?_⟩,
        heeds_same rfl rfl rfl⟩
      refine h.walk.congr rfl rfl rfl rfl (fun _ _ => rfl) fun hs => ?_
      rcases CondVar.notifyOne_cases hc with ⟨hempty, rfl⟩ | ⟨hu, -⟩
      · exact hempty
      · rw [(h.asleep hs).1] at hu
        exact absurd hu List.not_mem_nil
  | enter worker =>
      have hphase : s.phase worker = .top := hpossible
      have hin : ¬ s.Out worker := by rintro (hp | hp) <;> rw [hphase] at hp <;> cases hp
      have hlive : s.phase worker ≠ .gone := by simp [hphase]
      have hfreed := h.notFreed hlive
      simp only [ThreadPool.step, if_pos (And.intro hphase hfreed)]
      exact ⟨_, rfl, h.pass (by simp [hphase]) hin⟩
  | resume worker =>
      obtain ⟨hphase, hresume⟩ := hpossible
      obtain ⟨c, hc⟩ := Option.isSome_iff_exists.mp hresume
      have hin : ¬ s.Out worker := by rintro (hp | hp) <;> rw [hphase] at hp <;> cases hp
      have hlive : s.phase worker ≠ .gone := by simp [hphase]
      have hfreed := h.notFreed hlive
      simp only [ThreadPool.step, if_pos (And.intro hphase hfreed), hc]
      have h' : Alive l { s with jobsCond := c } := by
        refine ⟨h.nodup, h.nonzero, h.members, h.freed, h.out,
          h.walk.congr rfl rfl rfl rfl (fun _ _ => rfl) fun hs => ?_⟩
        rcases CondVar.resume_cases hc with ⟨-, rfl⟩ | ⟨hu, -⟩
        · exact (h.asleep hs).1
        · rw [(h.asleep hs).1] at hu
          exact absurd hu List.not_mem_nil
      exact ⟨_, rfl, h'.pass (by simp [hphase]) hin⟩
  | call worker =>
      obtain ⟨job, hphase⟩ := hpossible
      simp only [ThreadPool.step, hphase]
      exact ⟨_, rfl, h.calls hphase⟩
  | free worker =>
      have hphase : s.phase worker = .leaving := hpossible
      have hlive : s.phase worker ≠ .gone := by simp [hphase]
      have hfreed := h.notFreed hlive
      simp only [ThreadPool.step, if_pos (And.intro hphase hfreed)]
      exact ⟨_, rfl, h.gone hphase hpatient⟩
  | shutdown =>
      have hs : s.shutdown = .notCalled := hpossible
      have hwalk := h.walk
      unfold Walk at hwalk
      rw [hs] at hwalk
      simp only [ThreadPool.step, if_pos hs]
      refine ⟨_, rfl, ⟨h.nodup, h.nonzero, h.members, h.freed, h.out,
        ⟨[], l, rfl, hwalk.1, fun w => ?_⟩⟩, heeds_same rfl rfl rfl⟩
      -- the walk starts with nobody marked
      exact iff_of_false (by simp [hwalk.2 w]) List.not_mem_nil
  | mark =>
      obtain ⟨worker, hs, hworker⟩ := hpossible
      obtain ⟨hfreed, h'⟩ := h.mark hs hworker
      simp only [ThreadPool.step, hs, if_pos (And.intro hworker hfreed)]
      exact ⟨_, rfl, h', heeds_same rfl rfl rfl⟩
  | advance =>
      obtain ⟨worker, hs⟩ := hpossible
      obtain ⟨hfreed, h'⟩ := h.advance hs
      simp only [ThreadPool.step, hs, if_pos hfreed]
      exact ⟨_, rfl, h', heeds_same rfl rfl rfl⟩
  | finish =>
      have hs : s.shutdown = .before 0 := hpossible
      simp only [ThreadPool.step, if_pos hs]
      exact ⟨_, rfl, h.finish hs, heeds_same rfl rfl rfl⟩

theorem possible_of_step (hstep : step s op = some s') : Possible s op := by
  cases op with
  | queue job u =>
      simp only [ThreadPool.step] at hstep
      split at hstep
      · rename_i hnew
        obtain ⟨c, hc, -⟩ := Option.map_eq_some_iff.mp hstep
        exact ⟨hnew.1, hnew.2, Option.isSome_iff_exists.mpr ⟨c, hc⟩⟩
      · exact absurd hstep (Option.some_ne_none _).symm
  | resume worker =>
      simp only [ThreadPool.step] at hstep
      split at hstep
      · rename_i hphase
        obtain ⟨c, hc, -⟩ := Option.map_eq_some_iff.mp hstep
        exact ⟨hphase.1, Option.isSome_iff_exists.mpr ⟨c, hc⟩⟩
      · exact absurd hstep (Option.some_ne_none _).symm
  | enter worker | free worker =>
      simp only [ThreadPool.step] at hstep
      split at hstep
      · rename_i hphase
        exact hphase.1
      · exact absurd hstep (Option.some_ne_none _).symm
  | call worker =>
      simp only [ThreadPool.step] at hstep
      split at hstep
      · rename_i job hphase
        exact ⟨job, hphase⟩
      · exact absurd hstep (Option.some_ne_none _).symm
  | shutdown | finish =>
      simp only [ThreadPool.step] at hstep
      split at hstep
      · assumption
      · exact absurd hstep (Option.some_ne_none _).symm
  | mark =>
      simp only [ThreadPool.step] at hstep
      split at hstep
      · rename_i worker hs
        split at hstep
        · rename_i hworker
          exact ⟨worker, hs, hworker.1⟩
        · exact absurd hstep (Option.some_ne_none _).symm
      · exact absurd hstep (Option.some_ne_none _).symm
  | advance =>
      simp only [ThreadPool.step] at hstep
      split at hstep
      · rename_i worker hs
        exact ⟨worker, hs⟩
      · exact absurd hstep (Option.some_ne_none _).symm

/-- What `ntyThreadPoolCreate` leaves, when the addresses of the workers are different ones. -/
theorem create_alive (workers : List Nat) (hnodup : workers.Nodup) (hnonzero : 0 ∉ workers) :
    ∃ l, Alive l (ntyThreadPoolCreate workers) := by
  suffices h : ∀ (s : Pool) (l : List Nat), Stack s.links s.workers l → (∀ w ∈ workers, w ∉ l) →
      Alive l s → s.shutdown = .notCalled → (∀ w, s.phase w = .top ∨ s.phase w = .absent) →
      ∃ l, Alive l (workers.foldl addWorker s) by
    refine h emptyPool [] ⟨rfl, nofun, nofun, List.nodup_nil⟩ (fun _ _ => List.not_mem_nil)
      ⟨List.nodup_nil, nofun, fun w hw => absurd rfl hw, nofun, fun w hw => ?_,
        ⟨rfl, fun _ => rfl⟩⟩ rfl fun _ => .inr rfl
    rcases hw with hw | hw <;> exact absurd hw nofun
  induction workers with
  | nil => exact fun s l _ _ h _ _ => ⟨l, h⟩
  | cons worker workers ih =>
      intro s l hstack hnew h hs hphase
      obtain ⟨hworker, hnodup⟩ := List.nodup_cons.mp hnodup
      have hzero : worker ≠ 0 := fun hw => hnonzero (hw ▸ List.mem_cons_self)
      have hfresh : worker ∉ l := hnew worker List.mem_cons_self
      have hstack' := hstack.add hzero hfresh
      have hwalk := h.walk
      unfold Walk at hwalk
      rw [hs] at hwalk
      have hphase' : ∀ w, Function.update s.phase worker .top w = .top ∨
          Function.update s.phase worker .top w = .absent := by
        intro w
        by_cases hw : w = worker
        · rw [hw, Function.update_self]
          exact .inl rfl
        · rw [Function.update_of_ne hw]
          exact hphase w
      refine ih hnodup (fun hmem => hnonzero (List.mem_cons_of_mem _ hmem)) (addWorker s worker)
        (worker :: l) hstack' (fun w hw => ?_) ?_ hs hphase'
      · rw [List.mem_cons, not_or]
        exact ⟨fun hww => hworker (hww ▸ hw), hnew w (List.mem_cons_of_mem _ hw)⟩
      · refine ⟨hstack'.nodup, hstack'.nonzero, fun w hw => ?_, fun w hw => ?_, fun w hw => ?_, ?_⟩
        · have hw : Function.update s.phase worker .top w ≠ .absent := hw
          by_cases hww : w = worker
          · exact hww ▸ List.mem_cons_self
          · rw [Function.update_of_ne hww] at hw
            exact List.mem_cons_of_mem _ (h.members w hw)
        · have hgone := h.freed w hw
          rcases hphase w with hp | hp <;> rw [hp] at hgone <;> cases hgone
        · rcases hphase' w with hp | hp <;> rcases hw with hw | hw <;>
            exact absurd (hp.symm.trans hw) nofun
        · unfold Walk
          rw [show (addWorker s worker).shutdown = .notCalled from hs]
          exact ⟨hstack'.path, hwalk.2⟩

end

/--
**Patient workers are not touched after they are gone.** In any run in which no worker frees
its record while the shutdown stands at it, every step that can be made uses no freed record,
nobody sleeps once the shutdown has returned, and no worker takes a job that it is told to
leave, nor calls one that it has seen so.
-/
theorem shutdown_safe (workers : List Nat) (ops : List Op) (hnodup : workers.Nodup)
    (hnonzero : 0 ∉ workers) (hpatient : Meets step Patient (ntyThreadPoolCreate workers) ops) :
    Meets step Safe (ntyThreadPoolCreate workers) ops := by
  obtain ⟨l, hstart⟩ := create_alive workers hnodup hnonzero
  refine Meets.mono Safe (fun s op s' (h : Alive l s) hop hstep => ?_)
    (fun s op h hop hpossible => ?_) ops hstart hpatient
  · obtain ⟨s₁, h₁, hs₁, -⟩ := h.step hop (possible_of_step hstep)
    exact Option.some.inj (h₁.symm.trans hstep) ▸ hs₁
  · obtain ⟨s', hs', h', hheeds⟩ := h.step hop hpossible
    exact ⟨s', hs', fun hret => (h'.asleep hret).1, hheeds⟩

/-- A worker sleeps, another has a job, and both leave after the shutdown. -/
def orderly : List Op :=
  [.enter 1, .queue 11 1, .enter 2, .resume 1, .shutdown, .mark, .advance, .call 2, .mark,
    .advance, .finish, .enter 2, .free 2, .resume 1, .free 1]

theorem orderly_safe : Meets step Safe (ntyThreadPoolCreate [1, 2]) orderly :=
  shutdown_safe [1, 2] orderly (by decide) (by decide) (by decide +kernel)

/-- The shutdown does not stand at a freed record when it is to read the next one from it. -/
def Stands (s : Pool) : Op → Bool
  | .advance =>
      match s.shutdown with
      | .marked worker => !s.freed worker
      | _ => true
  | _ => true

theorem Safe.stands {s : Pool} {op : Op} (h : Safe s op) : Stands s op = true := by
  cases op with
  | advance =>
      unfold Stands
      cases hs : s.shutdown with
      | marked worker =>
          obtain ⟨s', hstep, -⟩ := h ⟨worker, hs⟩
          simp only [step, hs] at hstep
          split at hstep
          · rename_i hfreed
            simp [hfreed]
          · exact absurd hstep (Option.some_ne_none _).symm
      | notCalled | before | returned => rfl
  | _ => rfl

/-- A worker is told to leave, leaves, and frees the record that the shutdown reads next. -/
theorem shutdown_unsafe : ¬ Meets step Safe (ntyThreadPoolCreate [1])
    [.shutdown, .mark, .enter 1, .free 1, .advance] := by
  intro h
  have hstands : Meets step (fun s op => Stands s op = true) (ntyThreadPoolCreate [1])
      [.shutdown, .mark, .enter 1, .free 1, .advance] :=
    Meets.mono _ (fun _ _ _ (_ : True) _ _ => trivial) (fun _ _ _ hsafe => hsafe.stands) _
      trivial h
  exact absurd hstands (by decide +kernel)

end CppTrack.ThreadPool
