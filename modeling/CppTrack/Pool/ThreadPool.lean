import CppTrack.Lib.CondVar
import CppTrack.Lib.Run
import Mathlib.Logic.Function.Basic

/-!
# The thread pool in C (`thread_pool.c`)

Jobs and workers are in doubly linked lists; an item is its address, and 0 is `NULL`. The
record of a worker is freed by the worker itself, and `none` is an access to it after that.

What a thread does while it holds the mutex is one step. `ntyThreadPoolShutdown` walks along
the workers without the mutex, so each of its accesses to a worker is a step of its own.
-/

namespace CppTrack.ThreadPool

open Lib

/-- The members `prev` and `next` of all items. -/
structure Items where
  prev : Nat → Nat
  next : Nat → Nat

/-- `LL_ADD`. The former head does not learn about it. -/
def llAdd (m : Items) (item list : Nat) : Items × Nat :=
  (⟨Function.update m.prev item 0, Function.update m.next item list⟩, item)

/-- `LL_REMOVE`. -/
def llRemove (m : Items) (item list : Nat) : Items × Nat :=
  let m := if m.prev item ≠ 0 then
    { m with next := Function.update m.next (m.prev item) (m.next item) } else m
  let m := if m.next item ≠ 0 then
    { m with prev := Function.update m.prev (m.next item) (m.prev item) } else m
  let list := if list = item then m.next item else list
  (⟨Function.update m.prev item 0, Function.update m.next item 0⟩, list)

/-- Where a worker is. -/
inductive Phase
  | absent
  | top
  | asleep
  | holds (job : Nat)
  /-- out of the loop, but not yet at `free` -/
  | leaving
  | gone
  deriving DecidableEq

/-- Where the call of `ntyThreadPoolShutdown` is. -/
inductive Shutdown
  | notCalled
  | before (worker : Nat)
  | marked (worker : Nat)
  | returned
  deriving DecidableEq

/-- `nThreadPool` with the records its pointers point to, the threads, and a record of the
jobs that were queued, taken by a worker and called. -/
structure Pool where
  jobs : Items
  waitingJobs : Nat
  links : Items
  workers : Nat
  terminate : Nat → Bool
  freed : Nat → Bool
  jobsCond : CondVar
  phase : Nat → Phase
  shutdown : Shutdown
  queued : List Nat
  taken : List (Nat × Nat)
  called : List (Nat × Nat)

def emptyPool : Pool :=
  { jobs := ⟨fun _ => 0, fun _ => 0⟩, waitingJobs := 0, links := ⟨fun _ => 0, fun _ => 0⟩,
    workers := 0, terminate := fun _ => false, freed := fun _ => false, jobsCond := .empty,
    phase := fun _ => .absent, shutdown := .notCalled, queued := [], taken := [], called := [] }

/-- One round of `ntyThreadPoolCreate`. -/
def addWorker (s : Pool) (worker : Nat) : Pool :=
  let (links, workers) := llAdd s.links worker s.workers
  { s with
    links := links
    workers := workers
    phase := Function.update s.phase worker .top }

/-- `ntyThreadPoolCreate`, which gets its workers at these addresses. -/
def ntyThreadPoolCreate (workers : List Nat) : Pool := workers.foldl addWorker emptyPool

/-- `ntyWorkerThread`, from where it has the mutex until it gives it up. -/
def pass (s : Pool) (worker : Nat) : Pool :=
  if s.waitingJobs = 0 ∧ s.terminate worker = false then
    { s with
      jobsCond := s.jobsCond.wait worker
      phase := Function.update s.phase worker .asleep }
  else if s.terminate worker then
    { s with phase := Function.update s.phase worker .leaving }
  else
    let job := s.waitingJobs
    let (jobs, waitingJobs) := llRemove s.jobs job s.waitingJobs
    { s with
      jobs := jobs
      waitingJobs := waitingJobs
      phase := Function.update s.phase worker (.holds job)
      taken := s.taken ++ [(worker, job)] }

/-- `ntyThreadPoolQueue`, whose signal wakes `u`. -/
def ntyThreadPoolQueue (s : Pool) (job u : Nat) : Option Pool :=
  let (jobs, waitingJobs) := llAdd s.jobs job s.waitingJobs
  (s.jobsCond.notifyOne u).map fun jobsCond =>
    { s with
      jobs := jobs
      waitingJobs := waitingJobs
      jobsCond := jobsCond
      queued := s.queued ++ [job] }

inductive Op
  | queue (job u : Nat)
  | enter (worker : Nat)
  | resume (worker : Nat)
  | call (worker : Nat)
  | free (worker : Nat)
  | shutdown
  | mark
  | advance
  | finish

/-- The program is where it can make the step. A job is queued once. -/
def Possible (s : Pool) : Op → Prop
  | .queue job u => job ≠ 0 ∧ job ∉ s.queued ∧ (s.jobsCond.notifyOne u).isSome
  | .enter worker => s.phase worker = .top
  | .resume worker => s.phase worker = .asleep ∧ (s.jobsCond.resume worker).isSome
  | .call worker => ∃ job, s.phase worker = .holds job
  | .free worker => s.phase worker = .leaving
  | .shutdown => s.shutdown = .notCalled
  | .mark => ∃ worker, s.shutdown = .before worker ∧ worker ≠ 0
  | .advance => ∃ worker, s.shutdown = .marked worker
  | .finish => s.shutdown = .before 0

/-- A step, with `none` also where the record of a worker is used after it was freed. -/
def step (s : Pool) : Op → Option Pool
  | .queue job u =>
      if job ≠ 0 ∧ job ∉ s.queued then ntyThreadPoolQueue s job u else none
  | .enter worker =>
      if s.phase worker = .top ∧ s.freed worker = false then some (pass s worker) else none
  | .resume worker =>
      if s.phase worker = .asleep ∧ s.freed worker = false then
        (s.jobsCond.resume worker).map fun jobsCond => pass { s with jobsCond := jobsCond } worker
      else none
  | .call worker =>
      match s.phase worker with
      | .holds job =>
          some { s with
            phase := Function.update s.phase worker .top
            called := s.called ++ [(worker, job)] }
      | _ => none
  | .free worker =>
      if s.phase worker = .leaving ∧ s.freed worker = false then
        some { s with
          freed := Function.update s.freed worker true
          phase := Function.update s.phase worker .gone }
      else none
  | .shutdown =>
      if s.shutdown = .notCalled then some { s with shutdown := .before s.workers } else none
  | .mark =>
      match s.shutdown with
      | .before worker =>
          if worker ≠ 0 ∧ s.freed worker = false then
            some { s with
              terminate := Function.update s.terminate worker true
              shutdown := .marked worker }
          else none
      | _ => none
  | .advance =>
      match s.shutdown with
      | .marked worker =>
          if s.freed worker = false then
            some { s with shutdown := .before (s.links.next worker) }
          else none
      | _ => none
  | .finish =>
      if s.shutdown = .before 0 then
        some { s with
          workers := 0
          waitingJobs := 0
          jobsCond := s.jobsCond.notifyAll
          shutdown := .returned }
      else none

end CppTrack.ThreadPool
