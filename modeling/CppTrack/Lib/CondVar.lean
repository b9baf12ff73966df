import Mathlib.Data.List.Basic

/-!
# Condition variables

Threads sleep on a condition variable until they are notified, or wake up for no reason, or
because their time is over. A thread that has been notified still has to get the mutex back,
and until then it is among the `notified` ones.

`Served` is what keeps a program from losing a wake-up: as long as some thread sleeps without
having been notified, there are as many notified ones as there is work to do. `Sleepers` says
who is in `wait` at all.
-/

namespace CppTrack.Lib

/-- The threads that sleep, and those that were notified and have not yet resumed. -/
structure CondVar where
  waiting : List Nat
  notified : List Nat
  deriving DecidableEq

namespace CondVar

def empty : CondVar := ⟨[], []⟩

/-- `wait`, up to where the thread sleeps. -/
def wait (c : CondVar) (t : Nat) : CondVar := { c with waiting := t :: c.waiting }

/-- `notify_one`, which wakes `u` if anybody sleeps. -/
def notifyOne (c : CondVar) (u : Nat) : Option CondVar :=
  if c.waiting.isEmpty then some c
  else if u ∈ c.waiting then some ⟨c.waiting.erase u, u :: c.notified⟩
  else none

/-- `notify_all`. -/
def notifyAll (c : CondVar) : CondVar := ⟨[], c.waiting ++ c.notified⟩

/-- Thread `t` gets out of `wait`, notified or not. -/
def resume (c : CondVar) (t : Nat) : Option CondVar :=
  if t ∈ c.notified then some { c with notified := c.notified.erase t }
  else if t ∈ c.waiting then some { c with waiting := c.waiting.erase t }
  else none

/-- While anybody sleeps there is a notified thread for each of the `n` things to do. -/
def Served (c : CondVar) (n : Nat) : Prop := c.waiting ≠ [] → n ≤ c.notified.length

/-- The threads in `wait` are those that `P` holds of, and none is there twice. -/
structure Sleepers (c : CondVar) (P : Nat → Prop) : Prop where
  nodup : (c.waiting ++ c.notified).Nodup
  mem_iff : ∀ t, t ∈ c.waiting ++ c.notified ↔ P t

section

variable {c c' : CondVar} {t u n : Nat} {P Q : Nat → Prop}

theorem notifyOne_cases (h : c.notifyOne u = some c') :
    c.waiting = [] ∧ c' = c ∨
      u ∈ c.waiting ∧ c' = ⟨c.waiting.erase u, u :: c.notified⟩ := by
  unfold notifyOne at h
  split at h
  · rename_i hempty
    exact .inl ⟨List.isEmpty_iff.mp hempty, (Option.some.inj h).symm⟩
  · split at h
    · rename_i hu
      exact .inr ⟨hu, (Option.some.inj h).symm⟩
    · exact absurd h nofun

/-- A notification can always be made. -/
theorem exists_notifyOne (c : CondVar) : ∃ u c', c.notifyOne u = some c' := by
  unfold notifyOne
  cases hw : c.waiting with
  | nil => exact ⟨0, c, rfl⟩
  | cons u l => exact ⟨u, _, if_pos List.mem_cons_self⟩

theorem resume_cases (h : c.resume t = some c') :
    t ∈ c.notified ∧ c' = { c with notified := c.notified.erase t } ∨
      t ∈ c.waiting ∧ c' = { c with waiting := c.waiting.erase t } := by
  unfold resume at h
  split at h
  · rename_i ht
    exact .inl ⟨ht, (Option.some.inj h).symm⟩
  · split at h
    · rename_i ht
      exact .inr ⟨ht, (Option.some.inj h).symm⟩
    · exact absurd h nofun

theorem served_empty : empty.Served n := fun h => absurd rfl h

theorem Served.mono {m : Nat} (h : c.Served n) (hm : m ≤ n) : c.Served m :=
  fun hw => Nat.le_trans hm (h hw)

/-- A thread may only sleep when there is nothing to do. -/
theorem served_wait : (c.wait t).Served 0 := fun _ => Nat.zero_le _

/-- There is one more thing to do, and it is announced. -/
theorem Served.notifyOne (h : c.Served n) (hc : c.notifyOne u = some c') : c'.Served (n + 1) := by
  rcases notifyOne_cases hc with ⟨hempty, rfl⟩ | ⟨hu, rfl⟩
  · exact fun hw => absurd hempty hw
  · exact fun _ => Nat.succ_le_succ (h (List.ne_nil_of_mem hu))

/-- A thread that resumes takes one thing on, or finds none. -/
theorem Served.resume (h : c.Served n) (hc : c.resume t = some c') : c'.Served (n - 1) := by
  rcases resume_cases hc with ⟨ht, rfl⟩ | ⟨ht, rfl⟩
  · intro hw
    have hle := h hw
    rw [List.length_erase_of_mem ht]
    omega
  · intro hw
    have hle := h (List.ne_nil_of_mem ht)
    simp only
    omega

theorem sleepers_empty (h : ∀ t, ¬ P t) : empty.Sleepers P :=
  ⟨List.nodup_nil, fun t => ⟨fun ht => absurd ht List.not_mem_nil, fun ht => absurd ht (h t)⟩⟩

theorem Sleepers.congr (h : c.Sleepers P) (hiff : ∀ t, Q t ↔ P t) : c.Sleepers Q :=
  ⟨h.nodup, fun t => (h.mem_iff t).trans (hiff t).symm⟩

/-- Thread `t`, which is not in `wait`, gets there. -/
theorem Sleepers.wait (h : c.Sleepers P) (ht : ¬ P t) (hiff : ∀ v, Q v ↔ v = t ∨ P v) :
    (c.wait t).Sleepers Q := by
  refine ⟨List.nodup_cons.mpr ⟨fun hmem => ht ((h.mem_iff t).mp hmem), h.nodup⟩, ?_⟩
  intro v
  rw [hiff, ← h.mem_iff]
  exact List.mem_cons

/-- A notification leaves the threads where they are. -/
theorem Sleepers.notifyOne (h : c.Sleepers P) (hc : c.notifyOne u = some c') : c'.Sleepers P := by
  rcases notifyOne_cases hc with ⟨-, rfl⟩ | ⟨hu, rfl⟩
  · exact h
  · have hperm : (c.waiting.erase u ++ u :: c.notified).Perm (c.waiting ++ c.notified) :=
      List.perm_middle.trans ((List.perm_cons_erase hu).symm.append_right _)
    exact ⟨hperm.nodup_iff.mpr h.nodup, fun t => hperm.mem_iff.trans (h.mem_iff t)⟩

theorem Sleepers.notifyAll (h : c.Sleepers P) : c.notifyAll.Sleepers P := ⟨h.nodup, h.mem_iff⟩

/-- Thread `t` gets out of `wait`. -/
theorem Sleepers.resume (h : c.Sleepers P) (hc : c.resume t = some c')
    (hiff : ∀ v, Q v ↔ v ≠ t ∧ P v) : c'.Sleepers Q := by
  have hlist : c'.waiting ++ c'.notified = (c.waiting ++ c.notified).erase t := by
    rcases resume_cases hc with ⟨ht, rfl⟩ | ⟨ht, rfl⟩
    · have hnot : t ∉ c.waiting := fun hw => (List.nodup_append.mp h.nodup).2.2 t hw t ht rfl
      exact (List.erase_append_right _ hnot).symm
    · exact (List.erase_append_left _ ht).symm
  refine ⟨hlist ▸ h.nodup.erase t, ?_⟩
  intro v
  rw [hlist, h.nodup.mem_erase_iff, hiff, h.mem_iff]

/-- Whoever is in `wait` can get out of it. -/
theorem Sleepers.exists_resume (h : c.Sleepers P) (ht : P t) : ∃ c', c.resume t = some c' := by
  unfold CondVar.resume
  rcases List.mem_append.mp ((h.mem_iff t).mpr ht) with hw | hn
  · by_cases hn : t ∈ c.notified
    · exact ⟨_, if_pos hn⟩
    · exact ⟨_, (if_neg hn).trans (if_pos hw)⟩
  · exact ⟨_, if_pos hn⟩

/-- Nobody begins to wait when a thread resumes. -/
theorem waiting_resume (hc : c.resume t = some c') (hu : u ∈ c'.waiting) : u ∈ c.waiting := by
  rcases resume_cases hc with ⟨-, rfl⟩ | ⟨-, rfl⟩
  · exact hu
  · exact List.mem_of_mem_erase hu

/-- The other threads that were notified still are. -/
theorem notified_resume (hc : c.resume t = some c') (hu : u ∈ c.notified) (hne : u ≠ t) :
    u ∈ c'.notified := by
  rcases resume_cases hc with ⟨-, rfl⟩ | ⟨-, rfl⟩
  · exact (List.mem_erase_of_ne hne).mpr hu
  · exact hu

end

end CondVar

end CppTrack.Lib
