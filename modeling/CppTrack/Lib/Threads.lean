import Mathlib.Data.Finset.Card
import Mathlib.Logic.Function.Basic
import CppTrack.Lib.Run

/-!
# Interleaved threads

Any number of threads share a state `σ`; each has a place `π` in its own program, with
the values of its local variables. A thread moves by one atomic action at a time, and a
run is a list of moves: every interleaving is such a list.

`interference_free` is the rule for invariants of such systems. Besides a property of
the shared state there is one of each thread, and one of each two of them; it is enough
that a move keeps the first, establishes the second for the thread that made it, and does
not harm what any other thread relies on. What involves all threads at once is a number
of them, and `Counts` follows it.
-/

namespace CppTrack.Lib

/-- The shared state and where each thread is. -/
structure Threads (σ π : Type*) where
  shared : σ
  pc : Nat → π

variable {σ π ι : Type*}

/-- Thread `t` makes the move `i`. -/
def Threads.step (move : Nat → σ → π → ι → Option (σ × π)) (c : Threads σ π) (i : Nat × ι) :
    Option (Threads σ π) :=
  (move i.1 c.shared (c.pc i.1) i.2).map fun x =>
    { shared := x.1, pc := Function.update c.pc i.1 x.2 }

variable {move : Nat → σ → π → ι → Option (σ × π)} {c c' : Threads σ π} {i : Nat × ι}

theorem Threads.step_eq_some (h : c.step move i = some c') :
    ∃ g p, move i.1 c.shared (c.pc i.1) i.2 = some (g, p) ∧
      c' = { shared := g, pc := Function.update c.pc i.1 p } := by
  obtain ⟨x, hx, rfl⟩ := Option.map_eq_some_iff.mp h
  exact ⟨x.1, x.2, hx, rfl⟩

/-- The other threads stay where they are. -/
theorem Threads.step_pc_of_ne (h : c.step move i = some c') {u : Nat} (hu : u ≠ i.1) :
    c'.pc u = c.pc u := by
  obtain ⟨g, p, -, rfl⟩ := Threads.step_eq_some h
  exact Function.update_of_ne hu _ _

/-! ## The rule for invariants -/

section

variable (shared : σ → Prop) (own : σ → Nat → π → Prop) (apart : π → π → Prop)

/-- The shared state is right, so is each thread, and so are each two of them. -/
structure Invariant (c : Threads σ π) : Prop where
  shared : shared c.shared
  own : ∀ t, own c.shared t (c.pc t)
  apart : ∀ t u, t ≠ u → apart (c.pc t) (c.pc u)

variable {shared own apart}

/-- One move keeps the invariant if it does not interfere with the other threads. -/
theorem interference_free (hsymm : ∀ p q, apart p q → apart q p)
    (hmove : ∀ g p, move i.1 c.shared (c.pc i.1) i.2 = some (g, p) →
      shared g ∧ own g i.1 p ∧ ∀ u, u ≠ i.1 → own g u (c.pc u) ∧ apart p (c.pc u))
    (hc : Invariant shared own apart c) (hstep : c.step move i = some c') :
    Invariant shared own apart c' := by
  obtain ⟨g, p, hrun, rfl⟩ := Threads.step_eq_some hstep
  obtain ⟨hg, hp, hothers⟩ := hmove g p hrun
  refine ⟨hg, fun u => ?_, fun u v huv => ?_⟩
  · dsimp only
    by_cases hu : u = i.1
    · rw [hu, Function.update_self]
      exact hp
    · rw [Function.update_of_ne hu]
      exact (hothers u hu).1
  · dsimp only
    by_cases hu : u = i.1
    · have hv : v ≠ i.1 := fun hv => huv (hu.trans hv.symm)
      rw [hu, Function.update_self, Function.update_of_ne hv]
      exact (hothers v hv).2
    · rw [Function.update_of_ne hu]
      by_cases hv : v = i.1
      · rw [hv, Function.update_self]
        exact hsymm _ _ (hothers u hu).2
      · rw [Function.update_of_ne hv]
        exact hc.apart u v huv

end

/-! ## How many threads there are at some places -/

/-- Just `n` threads are at a place in `P`. -/
def Counts (P : π → Prop) (pc : Nat → π) (n : Nat) : Prop :=
  ∃ S : Finset Nat, (∀ t, t ∈ S ↔ P (pc t)) ∧ S.card = n

section

variable {P : π → Prop} {pc : Nat → π} {n : Nat} {t : Nat} {p : π}

theorem counts_zero (h : ∀ t, ¬ P (pc t)) : Counts P pc 0 :=
  ⟨∅, fun t => by simpa using h t, rfl⟩

theorem Counts.pos (hc : Counts P pc n) (ht : P (pc t)) : 0 < n := by
  obtain ⟨S, hS, rfl⟩ := hc
  exact Finset.card_pos.mpr ⟨t, (hS t).mpr ht⟩

/-- Membership after one thread has moved. -/
theorem mem_update_iff (pc : Nat → π) (t u : Nat) (p : π) :
    P (Function.update pc t p u) ↔ if u = t then P p else P (pc u) := by
  by_cases hu : u = t
  · rw [hu, Function.update_self, if_pos rfl]
  · rw [Function.update_of_ne hu, if_neg hu]

/-- A thread that stays in `P`, or out of it. -/
theorem Counts.stay (hc : Counts P pc n) (hiff : P p ↔ P (pc t)) :
    Counts P (Function.update pc t p) n := by
  obtain ⟨S, hS, rfl⟩ := hc
  refine ⟨S, fun u => ?_, rfl⟩
  rw [mem_update_iff (P := P), hS]
  split
  · rename_i hu
    rw [hu, hiff]
  · rfl

theorem Counts.enter (hc : Counts P pc n) (hout : ¬ P (pc t)) (hp : P p) :
    Counts P (Function.update pc t p) (n + 1) := by
  obtain ⟨S, hS, rfl⟩ := hc
  refine ⟨insert t S, fun u => ?_, Finset.card_insert_of_notMem fun h => hout ((hS t).mp h)⟩
  rw [mem_update_iff (P := P), Finset.mem_insert, hS]
  by_cases hu : u = t
  · simp [hu, hp]
  · simp [hu]

theorem Counts.leave (hc : Counts P pc n) (hin : P (pc t)) (hp : ¬ P p) :
    Counts P (Function.update pc t p) (n - 1) := by
  obtain ⟨S, hS, rfl⟩ := hc
  refine ⟨S.erase t, fun u => ?_, Finset.card_erase_of_mem ((hS t).mpr hin)⟩
  rw [mem_update_iff (P := P), Finset.mem_erase, hS]
  by_cases hu : u = t
  · simp [hu, hp]
  · simp [hu]

end

end CppTrack.Lib
