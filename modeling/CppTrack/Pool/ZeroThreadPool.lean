import CppTrack.Lib.CondVar
import CppTrack.Lib.Run
import Mathlib.Logic.Function.Basic

/-!
# The thread pool with one condition variable (`zero_threadpool.cpp`)

The workers, which wait for a task in `get`, and the callers of `waitForAllDone`, which wait
until there is none, sleep on the same condition variable. Between two waits a critical section
is one step, and so is each access to `_atomic` or `_bTerminate` outside the mutex.

`stop` joins and deletes the threads without the mutex, so one thread at a time may be in it,
and none in `start` meanwhile.
-/

namespace CppTrack.ZeroThreadPool

open Lib

/-- `TaskFunc`, and as which of the tasks it was given to `exec`. -/
structure TaskFunc where
  number : Nat
  expireTime : Int
  deriving DecidableEq

/-- Where a thread is. -/
inductive Phase
  | outside
  /-- a worker at the test of its loop -/
  | top
  | getting
  | asleep
  | took (task : TaskFunc)
  /-- past `++_atomic` -/
  | running (task : TaskFunc)
  | ran
  /-- past `--_atomic` -/
  | finishing
  /-- in `waitForAllDone`, called when so many tasks had been given -/
  | called (millsecond : Int) (before : Nat)
  | waiting (millsecond : Int) (before : Nat)
  | returned (result : Bool) (before : Nat)
  deriving DecidableEq

namespace Phase

/-- Not in the pool: a thread that may call `waitForAllDone`. -/
def idle : Phase → Bool
  | outside | returned _ _ => true
  | _ => false

/-- In `run`. -/
def worker : Phase → Bool
  | top | getting | asleep | took _ | running _ | ran | finishing => true
  | _ => false

/-- In a wait on the condition variable. -/
def blocked : Phase → Bool
  | asleep | waiting _ _ => true
  | _ => false

/-- A worker that has yet to look whether everything is done. -/
def busy : Phase → Bool
  | took _ | running _ | ran | finishing => true
  | _ => false

/-- A worker that `_atomic` counts. -/
def counted : Phase → Bool
  | running _ | ran => true
  | _ => false

/-- The task that a worker has taken and not finished. -/
def task : Phase → Option TaskFunc
  | took task | running task => some task
  | _ => none

/-- The time of a call of `waitForAllDone` that has not returned. -/
def inCall : Phase → Option Nat
  | called _ before | waiting _ before => some before
  | _ => none

/-- A wait of `waitForAllDone` that only a notification ends. -/
def endless : Phase → Bool
  | waiting millsecond _ => millsecond < 0
  | _ => false

end Phase

/-- Where the call of `stop` is. -/
inductive Stop
  | notCalled
  | joining (i : Nat)
  | returned
  deriving DecidableEq

/-- `ZERO_ThreadPool`, the threads, and a record of the tasks that were given, run to their
end and discarded. -/
structure Pool where
  tasks : List TaskFunc
  threads : List Nat
  condition : CondVar
  threadNum : Nat
  terminate : Bool
  atomic : Int
  phase : Nat → Phase
  stopping : Stop
  given : Nat
  finished : List Nat
  discarded : List Nat

/-- The constructor, and `init`. -/
def create (num : Nat) : Pool :=
  { tasks := [], threads := [], condition := .empty, threadNum := num, terminate := false,
    atomic := 0, phase := fun _ => .outside, stopping := .notCalled, given := 0, finished := [],
    discarded := [] }

namespace Pool

def move (s : Pool) (t : Nat) (p : Phase) : Pool :=
  { s with phase := Function.update s.phase t p }

/-- `start`, which gets its threads under these numbers. -/
def start (s : Pool) (threads : List Nat) : Pool :=
  if s.threads.isEmpty then
    { s with
      threads := threads
      phase := fun t => if t ∈ threads then .top else s.phase t }
  else s

/-- `exec`, whose notification wakes `u`. -/
def exec (s : Pool) (timeoutMs now : Int) (u : Nat) : Option Pool :=
  (s.condition.notifyOne u).map fun condition =>
    { s with
      tasks := s.tasks ++ [⟨s.given, if timeoutMs = 0 then 0 else now + timeoutMs⟩]
      condition := condition
      given := s.given + 1 }

/-- `get` by worker `w`, from the test of its predicate on. -/
def get (s : Pool) (w : Nat) : Pool :=
  if s.terminate then s.move w .top
  else
    match s.tasks with
    | [] => { s with condition := s.condition.wait w }.move w .asleep
    | task :: tasks => { s with tasks := tasks }.move w (.took task)

/-- `run` calls the task, or finds it expired. -/
def work (s : Pool) (w : Nat) (task : TaskFunc) (now : Int) : Pool :=
  if task.expireTime ≠ 0 ∧ task.expireTime < now then
    { s with discarded := task.number :: s.discarded }.move w .ran
  else { s with finished := task.number :: s.finished }.move w .ran

/-- The end of a round of `run`. -/
def finish (s : Pool) (w : Nat) : Pool :=
  if s.atomic = 0 ∧ s.tasks.isEmpty then
    { s with condition := s.condition.notifyAll }.move w .top
  else s.move w .top

/-- `waitForAllDone`, from the test of its predicate on. -/
def waitForAllDone (s : Pool) (t : Nat) (millsecond : Int) (before : Nat) (timedOut : Bool) :
    Pool :=
  if s.tasks.isEmpty then s.move t (.returned true before)
  else if 0 ≤ millsecond ∧ timedOut then s.move t (.returned false before)
  else { s with condition := s.condition.wait t }.move t (.waiting millsecond before)

/-- The critical section of `stop`. -/
def stop (s : Pool) : Pool :=
  { s with terminate := true, condition := s.condition.notifyAll, stopping := .joining 0 }

/-- One round of the loop of `stop`, or what comes after it. -/
def join (s : Pool) (i : Nat) : Option Pool :=
  match s.threads[i]? with
  | some w => if s.phase w = .outside then some { s with stopping := .joining (i + 1) } else none
  | none => some { s with threads := [], stopping := .returned }

end Pool

inductive Op
  | start (threads : List Nat)
  | exec (timeoutMs now : Int) (u : Nat)
  | look (w : Nat)
  | get (w : Nat)
  | count (w : Nat)
  | work (w : Nat) (now : Int)
  | uncount (w : Nat)
  | finish (w : Nat)
  | call (t : Nat) (millsecond : Int)
  | await (t : Nat) (timedOut : Bool)
  | stop
  | join

/-- A step, with `none` where the thread is elsewhere. -/
def step (s : Pool) : Op → Option Pool
  | .start threads =>
      if threads.length = s.threadNum ∧ threads.Nodup ∧ (∀ w ∈ threads, s.phase w = .outside) ∧
        (s.stopping = .notCalled ∨ s.stopping = .returned) then some (s.start threads)
      else none
  | .exec timeoutMs now u => s.exec timeoutMs now u
  | .look w =>
      if s.phase w = .top then some (s.move w (if s.terminate then .outside else .getting))
      else none
  | .get w =>
      match s.phase w with
      | .getting => some (s.get w)
      | .asleep =>
          (s.condition.resume w).map fun condition => { s with condition := condition }.get w
      | _ => none
  | .count w =>
      match s.phase w with
      | .took task => some ({ s with atomic := s.atomic + 1 }.move w (.running task))
      | _ => none
  | .work w now =>
      match s.phase w with
      | .running task => some (s.work w task now)
      | _ => none
  | .uncount w =>
      if s.phase w = .ran then some ({ s with atomic := s.atomic - 1 }.move w .finishing)
      else none
  | .finish w => if s.phase w = .finishing then some (s.finish w) else none
  | .call t millsecond =>
      if (s.phase t).idle ∧ t ∉ s.threads then some (s.move t (.called millsecond s.given))
      else none
  | .await t timedOut =>
      match s.phase t with
      | .called millsecond before => some (s.waitForAllDone t millsecond before false)
      | .waiting millsecond before =>
          (s.condition.resume t).map fun condition =>
            { s with condition := condition }.waitForAllDone t millsecond before timedOut
      | _ => none
  | .stop =>
      match s.stopping with
      | .joining _ => none
      | _ => some s.stop
  | .join =>
      match s.stopping with
      | .joining i => s.join i
      | _ => none

/-! ## What a step does -/

/-- Thread `t` has the mutex for its critical section, and `c` is what it finds. -/
def Awake (s : Pool) (t : Nat) (c : CondVar) : Prop :=
  (s.phase t).blocked = false ∧ c = s.condition ∨
    (s.phase t).blocked = true ∧ s.condition.resume t = some c

inductive Effect (s : Pool) : Op → Pool → Prop
  | starts {threads : List Nat} (hempty : s.threads = []) (hnodup : threads.Nodup)
      (hfresh : ∀ w ∈ threads, s.phase w = .outside) :
      Effect s (.start threads)
        { s with threads := threads, phase := fun t => if t ∈ threads then .top else s.phase t }
  | runsAlready {threads : List Nat} : Effect s (.start threads) s
  | gives {timeoutMs now expireTime : Int} {u : Nat} {c : CondVar}
      (hc : s.condition.notifyOne u = some c) :
      Effect s (.exec timeoutMs now u)
        { s with
          tasks := s.tasks ++ [⟨s.given, expireTime⟩], condition := c, given := s.given + 1 }
  | looks {w : Nat} (hw : s.phase w = .top) (hterm : s.terminate = false) :
      Effect s (.look w) (s.move w .getting)
  | leaves {w : Nat} (hw : s.phase w = .top) (hterm : s.terminate = true) :
      Effect s (.look w) (s.move w .outside)
  | quits {w : Nat} {c : CondVar} (hw : s.phase w = .getting ∨ s.phase w = .asleep)
      (hc : Awake s w c) (hterm : s.terminate = true) :
      Effect s (.get w) ({ s with condition := c }.move w .top)
  | sleeps {w : Nat} {c : CondVar} (hw : s.phase w = .getting ∨ s.phase w = .asleep)
      (hc : Awake s w c) (hterm : s.terminate = false) (htasks : s.tasks = []) :
      Effect s (.get w) ({ s with condition := c.wait w }.move w .asleep)
  | takes {w : Nat} {c : CondVar} {task : TaskFunc} {tasks : List TaskFunc}
      (hw : s.phase w = .getting ∨ s.phase w = .asleep) (hc : Awake s w c)
      (hterm : s.terminate = false) (htasks : s.tasks = task :: tasks) :
      Effect s (.get w) ({ s with condition := c, tasks := tasks }.move w (.took task))
  | counts {w : Nat} {task : TaskFunc} (hw : s.phase w = .took task) :
      Effect s (.count w) ({ s with atomic := s.atomic + 1 }.move w (.running task))
  | works {w : Nat} {now : Int} {task : TaskFunc} {finished discarded : List Nat}
      (hw : s.phase w = .running task)
      (hover : finished = task.number :: s.finished ∧ discarded = s.discarded ∨
        finished = s.finished ∧ discarded = task.number :: s.discarded) :
      Effect s (.work w now) ({ s with finished := finished, discarded := discarded }.move w .ran)
  | uncounts {w : Nat} (hw : s.phase w = .ran) :
      Effect s (.uncount w) ({ s with atomic := s.atomic - 1 }.move w .finishing)
  | announces {w : Nat} (hw : s.phase w = .finishing) (hatomic : s.atomic = 0)
      (htasks : s.tasks = []) :
      Effect s (.finish w) ({ s with condition := s.condition.notifyAll }.move w .top)
  | finishes {w : Nat} (hw : s.phase w = .finishing) (hmore : s.atomic ≠ 0 ∨ s.tasks ≠ []) :
      Effect s (.finish w) (s.move w .top)
  | calls {t : Nat} {millsecond : Int} (ht : (s.phase t).idle = true) (hout : t ∉ s.threads) :
      Effect s (.call t millsecond) (s.move t (.called millsecond s.given))
  | returnsTrue {t before : Nat} {timedOut : Bool} {c : CondVar}
      (ht : (s.phase t).inCall = some before) (hc : Awake s t c) (htasks : s.tasks = []) :
      Effect s (.await t timedOut) ({ s with condition := c }.move t (.returned true before))
  | returnsFalse {t before : Nat} {millsecond : Int} {timedOut : Bool} {c : CondVar}
      (ht : s.phase t = .waiting millsecond before) (hms : 0 ≤ millsecond) (hc : Awake s t c)
      (htasks : s.tasks ≠ []) :
      Effect s (.await t timedOut) ({ s with condition := c }.move t (.returned false before))
  | waits {t before : Nat} {millsecond : Int} {timedOut : Bool} {c : CondVar}
      (ht : s.phase t = .called millsecond before ∨ s.phase t = .waiting millsecond before)
      (hc : Awake s t c) (htasks : s.tasks ≠ []) :
      Effect s (.await t timedOut)
        ({ s with condition := c.wait t }.move t (.waiting millsecond before))
  | stops (hstop : ∀ i, s.stopping ≠ .joining i) : Effect s .stop s.stop
  | joins {w i : Nat} (hstop : s.stopping = .joining i) (hi : s.threads[i]? = some w)
      (hw : s.phase w = .outside) : Effect s .join { s with stopping := .joining (i + 1) }
  | joined {i : Nat} (hstop : s.stopping = .joining i) (hi : s.threads[i]? = none) :
      Effect s .join { s with threads := [], stopping := .returned }

section

variable {s s' : Pool} {op : Op} {c : CondVar} {w t before : Nat} {millsecond : Int}
  {timedOut : Bool}

theorem get_effect (hw : s.phase w = .getting ∨ s.phase w = .asleep) (hc : Awake s w c) :
    Effect s (.get w) ({ s with condition := c }.get w) := by
  unfold Pool.get
  split
  · rename_i hterm
    exact .quits hw hc hterm
  · rename_i hterm
    have hterm : s.terminate = false := Bool.eq_false_iff.mpr hterm
    split
    · rename_i htasks
      exact .sleeps hw hc hterm htasks
    · rename_i task tasks htasks
      exact .takes hw hc hterm htasks

theorem await_effect
    (ht : s.phase t = .called millsecond before ∨ s.phase t = .waiting millsecond before)
    (hc : Awake s t c) {b : Bool} (hb : b = true → s.phase t = .waiting millsecond before) :
    Effect s (.await t timedOut)
      ({ s with condition := c }.waitForAllDone t millsecond before b) := by
  have hcall : (s.phase t).inCall = some before := by
    rcases ht with ht | ht <;> rw [ht] <;> rfl
  unfold Pool.waitForAllDone
  split
  · rename_i htasks
    exact .returnsTrue hcall hc (List.isEmpty_iff.mp htasks)
  · rename_i hempty
    have htasks : s.tasks ≠ [] := fun h => hempty (List.isEmpty_iff.mpr h)
    split
    · rename_i hout
      exact .returnsFalse (hb hout.2) hout.1 hc htasks
    · exact .waits ht hc htasks

theorem step_effect (h : step s op = some s') : Effect s op s' := by
  unfold step at h
  cases op with
  | start threads =>
      obtain ⟨⟨-, hnodup, hfresh, -⟩, heq⟩ := Option.ite_none_right_eq_some.mp h
      rw [← Option.some.inj heq]
      unfold Pool.start
      split
      · rename_i hempty
        exact .starts (List.isEmpty_iff.mp hempty) hnodup hfresh
      · exact .runsAlready
  | exec timeoutMs now u =>
      obtain ⟨c, hc, rfl⟩ := Option.map_eq_some_iff.mp h
      exact .gives hc
  | look w =>
      obtain ⟨hw, heq⟩ := Option.ite_none_right_eq_some.mp h
      rw [← Option.some.inj heq]
      cases hterm : s.terminate with
      | false => exact .looks hw hterm
      | true => exact .leaves hw hterm
  | get w =>
      dsimp only at h
      split at h
      · rename_i hw
        rw [← Option.some.inj h]
        exact get_effect (.inl hw) (.inl ⟨by rw [hw]; rfl, rfl⟩)
      · rename_i hw
        obtain ⟨c, hc, rfl⟩ := Option.map_eq_some_iff.mp h
        exact get_effect (.inr hw) (.inr ⟨by rw [hw]; rfl, hc⟩)
      · exact absurd h nofun
  | count w =>
      dsimp only at h
      split at h
      · rename_i task hw
        rw [← Option.some.inj h]
        exact .counts hw
      · exact absurd h nofun
  | work w now =>
      dsimp only at h
      split at h
      · rename_i task hw
        rw [← Option.some.inj h]
        unfold Pool.work
        split
        · exact .works hw (.inr ⟨rfl, rfl⟩)
        · exact .works hw (.inl ⟨rfl, rfl⟩)
      · exact absurd h nofun
  | uncount w =>
      obtain ⟨hw, heq⟩ := Option.ite_none_right_eq_some.mp h
      rw [← Option.some.inj heq]
      exact .uncounts hw
  | finish w =>
      obtain ⟨hw, heq⟩ := Option.ite_none_right_eq_some.mp h
      rw [← Option.some.inj heq]
      unfold Pool.finish
      split
      · rename_i hdone
        exact .announces hw hdone.1 (List.isEmpty_iff.mp hdone.2)
      · rename_i hmore
        refine .finishes hw ?_
        by_cases hatomic : s.atomic = 0
        · exact .inr fun htasks => hmore ⟨hatomic, List.isEmpty_iff.mpr htasks⟩
        · exact .inl hatomic
  | call t millsecond =>
      obtain ⟨⟨ht, hout⟩, heq⟩ := Option.ite_none_right_eq_some.mp h
      rw [← Option.some.inj heq]
      exact .calls ht hout
  | await t timedOut =>
      dsimp only at h
      split at h
      · rename_i millsecond before ht
        rw [← Option.some.inj h]
        exact await_effect (.inl ht) (.inl ⟨by rw [ht]; rfl, rfl⟩) nofun
      · rename_i millsecond before ht
        obtain ⟨c, hc, rfl⟩ := Option.map_eq_some_iff.mp h
        exact await_effect (.inr ht) (.inr ⟨by rw [ht]; rfl, hc⟩) fun _ => ht
      · exact absurd h nofun
  | stop =>
      dsimp only at h
      split at h
      · exact absurd h nofun
      · rename_i hstop
        rw [← Option.some.inj h]
        exact .stops hstop
  | join =>
      dsimp only at h
      split at h
      · rename_i i hstop
        unfold Pool.join at h
        split at h
        · rename_i w hi
          obtain ⟨hw, heq⟩ := Option.ite_none_right_eq_some.mp h
          rw [← Option.some.inj heq]
          exact .joins hstop hi hw
        · rename_i hi
          rw [← Option.some.inj h]
          exact .joined hstop hi
      · exact absurd h nofun

end

end CppTrack.ZeroThreadPool
