import Mathlib.Data.List.Basic

/-!
# Paths with dots in them

A relative path is a row of moves, up to the parent or down into a directory. Resolving it by its
text alone gives the number of parents that are left at its front, and the names behind them.

A path that begins with some directory stays below that directory if no part of the rest goes up
more often than down. There is one other way to end there: to leave it by one level and to come
back in by its name.
-/

namespace CppTrack.Lib

/-- A component of a path. -/
inductive Move (ν : Type*) where
  | up
  | down (name : ν)

/-- A resolved path: parents first, then names, the last of them first. -/
structure Place (ν : Type*) where
  parents : Nat
  names : List ν

variable {ν : Type*}

def Place.go (p : Place ν) : Move ν → Place ν
  | .down name => { p with names := name :: p.names }
  | .up =>
      match p.names with
      | [] => { p with parents := p.parents + 1 }
      | _ :: names => { p with names }

def resolve (ms : List (Move ν)) : Place ν := ms.foldl Place.go ⟨0, []⟩

/-- The place is a directory here, or below it. -/
def Place.Under (root : ν) (p : Place ν) : Prop := p.parents = 0 ∧ p.names.getLast? = some root

/-- How often a path goes up. -/
def ups : List (Move ν) → Nat
  | [] => 0
  | .up :: ms => ups ms + 1
  | .down _ :: ms => ups ms

/-- How often it goes down. -/
def downs : List (Move ν) → Nat
  | [] => 0
  | .up :: ms => downs ms
  | .down _ :: ms => downs ms + 1

/-- No part of the path goes up more than `d` levels. -/
def ClimbsAtMost (d : Nat) (ms : List (Move ν)) : Prop :=
  ∀ pre, pre <+: ms → ups pre ≤ downs pre + d

/-- The path goes up `d` levels, then down into `root`, and stays there. -/
def Reenters (root : ν) (d : Nat) (ms : List (Move ν)) : Prop :=
  ∃ pre post, ms = pre ++ .down root :: post ∧ ClimbsAtMost d pre ∧ ups pre = downs pre + d ∧
    ClimbsAtMost 0 post

section

variable {root name : ν} {d : Nat} {ms : List (Move ν)} {p : Place ν}

theorem climbsAtMost_nil (d : Nat) : ClimbsAtMost (ν := ν) d [] := by
  intro pre hpre
  rw [List.prefix_nil.mp hpre]
  exact Nat.zero_le _

theorem climbsAtMost_down : ClimbsAtMost d (.down name :: ms) ↔ ClimbsAtMost (d + 1) ms := by
  constructor
  · intro h pre hpre
    have hle := h (.down name :: pre) ((List.prefix_cons_inj _).mpr hpre)
    simp only [ups, downs] at hle
    omega
  · intro h pre hpre
    rcases List.prefix_cons_iff.mp hpre with rfl | ⟨pre, rfl, hpre'⟩
    · exact Nat.zero_le _
    · have hle := h pre hpre'
      simp only [ups, downs]
      omega

theorem climbsAtMost_up : ClimbsAtMost d (.up :: ms) ↔ 0 < d ∧ ClimbsAtMost (d - 1) ms := by
  constructor
  · intro h
    have hpos : 1 ≤ 0 + d := h [.up] ((List.prefix_cons_inj _).mpr List.nil_prefix)
    refine ⟨by omega, fun pre hpre => ?_⟩
    have hle := h (.up :: pre) ((List.prefix_cons_inj _).mpr hpre)
    simp only [ups, downs] at hle
    omega
  · intro ⟨hpos, h⟩ pre hpre
    rcases List.prefix_cons_iff.mp hpre with rfl | ⟨pre, rfl, hpre'⟩
    · exact Nat.zero_le _
    · have hle := h pre hpre'
      simp only [ups, downs]
      omega

theorem reenters_nil : ¬ Reenters root d [] := by
  intro ⟨pre, post, heq, _⟩
  exact absurd heq.symm (by simp)

/-- Going down is coming in, if it is the way in, and there are no levels to go up. -/
theorem reenters_down : Reenters root d (.down name :: ms) ↔
    (d = 0 ∧ name = root ∧ ClimbsAtMost 0 ms) ∨ Reenters root (d + 1) ms := by
  constructor
  · intro ⟨pre, post, heq, hpre, hups, hpost⟩
    cases pre with
    | nil =>
        obtain ⟨hname, rfl⟩ := List.cons.inj heq
        have hd : 0 = 0 + d := hups
        exact .inl ⟨by omega, Move.down.inj hname, hpost⟩
    | cons m pre =>
        obtain ⟨rfl, hrest⟩ := List.cons.inj heq
        simp only [ups, downs] at hups
        exact .inr ⟨pre, post, hrest, climbsAtMost_down.mp hpre, by omega, hpost⟩
  · intro h
    rcases h with ⟨rfl, rfl, hpost⟩ | ⟨pre, post, heq, hpre, hups, hpost⟩
    · exact ⟨[], ms, rfl, climbsAtMost_nil 0, rfl, hpost⟩
    · refine ⟨.down name :: pre, post, ?_, climbsAtMost_down.mpr hpre, ?_, hpost⟩
      · rw [heq]
        rfl
      · simp only [ups, downs]
        omega

theorem reenters_up : Reenters root d (.up :: ms) ↔ 0 < d ∧ Reenters root (d - 1) ms := by
  constructor
  · intro ⟨pre, post, heq, hpre, hups, hpost⟩
    cases pre with
    | nil => exact absurd (List.cons.inj heq).1 nofun
    | cons m pre =>
        obtain ⟨rfl, hrest⟩ := List.cons.inj heq
        obtain ⟨hpos, hpre⟩ := climbsAtMost_up.mp hpre
        simp only [ups, downs] at hups
        exact ⟨hpos, pre, post, hrest, hpre, by omega, hpost⟩
  · intro ⟨hpos, pre, post, heq, hpre, hups, hpost⟩
    refine ⟨.up :: pre, post, ?_, climbsAtMost_up.mpr ⟨hpos, hpre⟩, ?_, hpost⟩
    · rw [heq]
      rfl
    · simp only [ups, downs]
      omega

/-- A parent in front stays there. -/
theorem not_under_foldl (hp : p.parents ≠ 0) : ¬ (ms.foldl Place.go p).Under root := by
  induction ms generalizing p with
  | nil => exact fun h => hp h.1
  | cons m ms ih =>
      rw [List.foldl_cons]
      refine ih ?_
      cases m with
      | down name => exact hp
      | up =>
          rw [Place.go]
          split
          · exact Nat.succ_ne_zero _
          · exact hp

/-- From a place some levels below here. -/
theorem under_foldl_iff (names : List ν) :
    (ms.foldl Place.go ⟨0, names⟩).Under root ↔
      (names.getLast? = some root ∧ ClimbsAtMost (names.length - 1) ms) ∨
        Reenters root names.length ms := by
  induction ms generalizing names with
  | nil =>
      rw [or_iff_left reenters_nil, and_iff_left (climbsAtMost_nil _)]
      exact and_iff_right rfl
  | cons m ms ih =>
      rw [List.foldl_cons]
      cases m with
      | down name =>
          have hgo : Place.go ⟨0, names⟩ (.down name) = ⟨0, name :: names⟩ := rfl
          rw [hgo, ih, reenters_down, climbsAtMost_down, List.length_cons, Nat.add_sub_cancel]
          cases names with
          | nil => simp
          | cons n names => simp
      | up =>
          rw [reenters_up, climbsAtMost_up]
          cases names with
          | nil =>
              have hgo : Place.go ⟨0, ([] : List ν)⟩ .up = ⟨1, []⟩ := rfl
              rw [hgo]
              refine iff_of_false (not_under_foldl Nat.one_ne_zero) ?_
              simp
          | cons n names =>
              have hgo : Place.go ⟨0, n :: names⟩ .up = ⟨0, names⟩ := rfl
              rw [hgo, ih]
              cases names with
              | nil => simp
              | cons n' names => simp

/--
A path that begins with `root` ends below it, if and only if its rest goes nowhere up more often
than down, or leaves by one level and comes back by the same name.
-/
theorem resolve_under_iff : (resolve (.down root :: ms)).Under root ↔
    ClimbsAtMost 0 ms ∨ Reenters root 1 ms := by
  have hgo : Place.go ⟨0, []⟩ (.down root) = ⟨0, [root]⟩ := rfl
  rw [resolve, List.foldl_cons, hgo, under_foldl_iff, List.getLast?_singleton]
  exact or_congr_left (and_iff_right rfl)

end

end CppTrack.Lib
