import CppTrack.Lib.CondVar
import CppTrack.Lib.Run
import Mathlib.Logic.Function.Basic

/-!
# The bounded blocking queue (`sync_queue.h`)

`Put` and `Take` hold the mutex all the time but for their waits, so between two waits each
is one step. A producer that finds the queue full sleeps on `_notFull`, a consumer that finds
it empty on `_notEmpty`; each wakes one sleeper of the other kind when it is done.
-/

namespace CppTrack.Bounded

open Lib

variable {α : Type*}

/-- `SyncQueue`. -/
structure SyncQueue (α : Type*) where
  queue : List α
  notEmpty : CondVar
  notFull : CondVar
  maxSize : Nat

/-- `SyncQueue::SyncQueue`. -/
def SyncQueue.new (maxSize : Nat) : SyncQueue α := ⟨[], .empty, .empty, maxSize⟩

/-- `IsFull`. -/
def SyncQueue.isFull (s : SyncQueue α) : Bool := s.queue.length = s.maxSize

/-- What a thread is in the middle of. -/
inductive Call (α : Type*)
  | put (x : α)
  | take

/-- The queue, the calls that sleep, and what was put and taken in the order of the lock. -/
structure World (α : Type*) where
  q : SyncQueue α
  asleep : Nat → Option (Call α)
  puts : List α
  takes : List α

def start (maxSize : Nat) : World α := ⟨.new maxSize, fun _ => none, [], []⟩

/-- `Put` by thread `t` from the test of its loop on; its notification wakes `u`. -/
def World.put (w : World α) (t : Nat) (x : α) (u : Nat) : Option (World α) :=
  if w.q.isFull then
    some { w with
      q := { w.q with notFull := w.q.notFull.wait t }
      asleep := Function.update w.asleep t (some (.put x)) }
  else
    (w.q.notEmpty.notifyOne u).map fun notEmpty =>
      { w with
        q := { w.q with queue := w.q.queue ++ [x], notEmpty := notEmpty }
        asleep := Function.update w.asleep t none
        puts := w.puts ++ [x] }

/-- `Take` by thread `t` from the test of its loop, `IsEmpty`, on. -/
def World.take (w : World α) (t : Nat) (u : Nat) : Option (World α) :=
  match w.q.queue with
  | [] =>
      some { w with
        q := { w.q with notEmpty := w.q.notEmpty.wait t }
        asleep := Function.update w.asleep t (some .take) }
  | x :: queue =>
      (w.q.notFull.notifyOne u).map fun notFull =>
        { w with
          q := { w.q with queue := queue, notFull := notFull }
          asleep := Function.update w.asleep t none
          takes := w.takes ++ [x] }

inductive Op (α : Type*)
  | put (t : Nat) (x : α) (u : Nat)
  | take (t u : Nat)
  /-- a sleeping thread gets out of `wait` and tests again -/
  | resume (t u : Nat)

def step (w : World α) : Op α → Option (World α)
  | .put t x u => if (w.asleep t).isNone then w.put t x u else none
  | .take t u => if (w.asleep t).isNone then w.take t u else none
  | .resume t u =>
      match w.asleep t with
      | none => none
      | some (.put x) =>
          (w.q.notFull.resume t).bind fun notFull =>
            World.put { w with q := { w.q with notFull := notFull } } t x u
      | some .take =>
          (w.q.notEmpty.resume t).bind fun notEmpty =>
            World.take { w with q := { w.q with notEmpty := notEmpty } } t u

/-! ## Nobody is stranded -/

/-- What holds in every state. -/
structure Steady (w : World α) : Prop where
  bound : w.q.queue.length ≤ w.q.maxSize
  order : w.takes ++ w.q.queue = w.puts
  consumers : w.q.notEmpty.Served w.q.queue.length
  producers : w.q.notFull.Served (w.q.maxSize - w.q.queue.length)

section

variable {w w' : World α} {t u : Nat} {x : α}

/-- `Put`, by a thread that counts among the notified ones until now, or not. -/
theorem Steady.put {n : Nat} (h : w.put t x u = some w')
    (hbound : w.q.queue.length ≤ w.q.maxSize) (horder : w.takes ++ w.q.queue = w.puts)
    (hcons : w.q.notEmpty.Served w.q.queue.length) (hprod : w.q.notFull.Served n)
    (hn : w.q.maxSize - w.q.queue.length ≤ n + 1) : Steady w' := by
  unfold World.put SyncQueue.isFull at h
  split at h
  · rename_i hfull
    have hfull := of_decide_eq_true hfull
    rw [← Option.some.inj h]
    refine ⟨hbound, horder, hcons, ?_⟩
    simp only [hfull, Nat.sub_self]
    exact CondVar.served_wait
  · rename_i hfull
    have hfull : w.q.queue.length ≠ w.q.maxSize := fun heq => hfull (decide_eq_true heq)
    obtain ⟨notEmpty, hnotify, rfl⟩ := Option.map_eq_some_iff.mp h
    refine ⟨?_, ?_, ?_, ?_⟩
    · simp only [List.length_append, List.length_singleton]
      omega
    · rw [← horder]
      exact (List.append_assoc ..).symm
    · simpa using hcons.notifyOne hnotify
    · refine hprod.mono ?_
      simp only [List.length_append, List.length_singleton]
      omega

theorem Steady.take {n : Nat} (h : w.take t u = some w')
    (hbound : w.q.queue.length ≤ w.q.maxSize) (horder : w.takes ++ w.q.queue = w.puts)
    (hcons : w.q.notEmpty.Served n) (hn : w.q.queue.length ≤ n + 1)
    (hprod : w.q.notFull.Served (w.q.maxSize - w.q.queue.length)) : Steady w' := by
  unfold World.take at h
  cases hq : w.q.queue with
  | nil =>
      rw [hq] at h hbound horder hprod
      rw [← Option.some.inj h]
      refine ⟨by simp [hq], by simpa [hq] using horder, ?_, by simpa [hq] using hprod⟩
      simp only [hq, List.length_nil]
      exact CondVar.served_wait
  | cons x queue =>
      rw [hq] at h hbound horder hprod hn
      obtain ⟨notFull, hnotify, rfl⟩ := Option.map_eq_some_iff.mp h
      rw [List.length_cons] at hbound hprod hn
      refine ⟨Nat.le_of_succ_le hbound, ?_, hcons.mono (Nat.le_of_succ_le_succ hn), ?_⟩
      · rw [← horder]
        simp
      · refine (hprod.notifyOne hnotify).mono ?_
        simp only
        omega

/-- Every step keeps all of it, whoever runs and whoever is woken. -/
theorem Steady.step {op : Op α} (h : Steady w) (hstep : Bounded.step w op = some w') :
    Steady w' := by
  cases op with
  | put t x u =>
      simp only [Bounded.step] at hstep
      split at hstep
      · exact Steady.put hstep h.bound h.order h.consumers h.producers (Nat.le_succ _)
      · exact absurd hstep nofun
  | take t u =>
      simp only [Bounded.step] at hstep
      split at hstep
      · exact Steady.take hstep h.bound h.order h.consumers (Nat.le_succ _) h.producers
      · exact absurd hstep nofun
  | resume t u =>
      simp only [Bounded.step] at hstep
      split at hstep
      · exact absurd hstep nofun
      · obtain ⟨notFull, hresume, hput⟩ := Option.bind_eq_some_iff.mp hstep
        exact Steady.put hput h.bound h.order h.consumers (h.producers.resume hresume)
          (Nat.le_succ_of_pred_le (Nat.le_refl _))
      · obtain ⟨notEmpty, hresume, htake⟩ := Option.bind_eq_some_iff.mp hstep
        exact Steady.take htake h.bound h.order (h.consumers.resume hresume)
          (Nat.le_succ_of_pred_le (Nat.le_refl _)) h.producers

end

/--
**The queue is bounded, first in first out, and strands nobody.** For any number of threads
and in every order of their steps: there are never more than `maxSize` elements, what was
taken is a prefix of what was put, and while a consumer sleeps without having been notified
there are no more elements than notified consumers, and likewise for producers and places.
-/
theorem queue_steady (maxSize : Nat) (ops : List (Op α)) (w : World α)
    (hrun : run step (start maxSize) ops = some w) :
    w.q.queue.length ≤ w.q.maxSize ∧ w.takes <+: w.puts ∧
      (w.q.notEmpty.waiting ≠ [] → w.q.queue.length ≤ w.q.notEmpty.notified.length) ∧
      (w.q.notFull.waiting ≠ [] →
        w.q.maxSize - w.q.queue.length ≤ w.q.notFull.notified.length) := by
  have h : Steady w := run_keeps (fun _ _ _ hs hstep => Steady.step hs hstep) ops
    ⟨Nat.zero_le _, rfl, CondVar.served_empty, CondVar.served_empty⟩ hrun
  exact ⟨h.bound, ⟨w.q.queue, h.order⟩, h.consumers, h.producers⟩

/-- A consumer comes before the producer and a newcomer overtakes it. -/
theorem queue_steady_overtaken :
    ∃ w : World Nat, run step (start 1) [.take 1 0, .put 2 7 1, .take 3 0, .resume 1 0] = some w ∧
      w.takes = [7] ∧ w.takes <+: w.puts := by
  obtain ⟨w, hrun, hw⟩ := (Option.any_eq_true _ _).mp
    (show (run step (start 1) [.take 1 0, .put 2 7 1, .take 3 0, .resume 1 0]).any
      (fun w : World Nat => decide (w.takes = [7])) by decide +kernel)
  exact ⟨w, hrun, of_decide_eq_true hw, (queue_steady 1 _ w hrun).2.1⟩

end CppTrack.Bounded
