import Mathlib.Algebra.Group.Nat.Defs
import Mathlib.Data.List.Perm.Lattice
import Mathlib.Data.List.Pairwise

/-!
# What the C library hands out

`malloc` and `posix_memalign` answer a request with memory that nobody else has, and
`free` takes back what they handed out and nothing else. Which address they answer with is
up to them, so it is a parameter: anything that keeps to `Malloc` will do. Giving back an
address that is not handed out, or giving one back twice, has no meaning.
-/

namespace CppTrack.Lib

/-- A stretch of memory. -/
structure Region where
  start : Nat
  size : Nat
  deriving DecidableEq

/-- One of the two ends before the other starts. -/
def Region.Apart (r r' : Region) : Prop :=
  r.start + r.size ≤ r'.start ∨ r'.start + r'.size ≤ r.start

theorem Region.Apart.symm {r r' : Region} (h : r.Apart r') : r'.Apart r := Or.symm h

/-- Regions that are apart contain regions that are. -/
theorem Region.Apart.mono {r r' q q' : Region} (h : r.Apart r') (hq : r.start ≤ q.start)
    (hqe : q.start + q.size ≤ r.start + r.size) (hq' : r'.start ≤ q'.start)
    (hqe' : q'.start + q'.size ≤ r'.start + r'.size) : q.Apart q' :=
  h.imp (fun h => by omega) (fun h => by omega)

/--
The answers of the allocator to a request for `size` bytes at a multiple of `align`, when
`calls` requests were made before and `live` is handed out. An empty region may be had at
the null pointer, which is not handed out. Nothing is said of when it has no more.
-/
structure Allocator where
  take : (calls : Nat) → (live : List Region) → (align size : Nat) → Option Nat
  aligned : ∀ {calls live align size p}, take calls live align size = some p → align ∣ p
  null : ∀ {calls live align size}, take calls live align size = some 0 → size = 0
  fresh : ∀ {calls live align size p}, take calls live align size = some p → p ≠ 0 →
    ∀ r ∈ live, r.start ≠ p ∧ r.Apart ⟨p, size⟩

/-- An allocator whose addresses are those of a program. -/
structure Malloc extends Allocator where
  /-- Programs live in the lower half of the address space. -/
  low : ∀ {calls live align size p}, take calls live align size = some p → p + size ≤ 2 ^ 63

/-- What is handed out once `p` is the answer. -/
def handOut (live : List Region) (p size : Nat) : List Region :=
  if p = 0 then live else ⟨p, size⟩ :: live

/-- `free(p)`. -/
def free (live : List Region) (p : Nat) : Option (List Region) :=
  if p = 0 then some live
  else if p ∈ live.map Region.start then some (live.eraseP fun r => r.start = p)
  else none

/-- `free` one pointer after another. -/
def freeAll : (live : List Region) → List Nat → Option (List Region)
  | live, [] => some live
  | live, p :: ps => (free live p).bind fun live => freeAll live ps

variable {live live' : List Region} {p : Nat} {ps qs : List Nat}

theorem map_start_eraseP (live : List Region) (p : Nat) :
    (live.eraseP fun r => r.start = p).map Region.start = (live.map Region.start).erase p := by
  induction live with
  | nil => rfl
  | cons r live ih =>
      rw [List.map_cons]
      by_cases hr : r.start = p
      · rw [List.eraseP_cons_of_pos (by simpa using hr), hr, List.erase_cons_head]
      · rw [List.eraseP_cons_of_neg (by simpa using hr), List.map_cons, ih,
          List.erase_cons_tail (by simpa using hr)]

/-- What is handed out can be given back, and then the rest is handed out. -/
theorem free_perm (h : (live.map Region.start).Perm (p :: qs)) (hp : p ≠ 0) :
    ∃ live', free live p = some live' ∧ live'.Sublist live ∧
      (live'.map Region.start).Perm qs := by
  refine ⟨live.eraseP fun r => r.start = p, ?_, List.eraseP_sublist, ?_⟩
  · rw [free, if_neg hp, if_pos (h.mem_iff.mpr List.mem_cons_self)]
  · rw [map_start_eraseP]
    have hperm := h.erase p
    rwa [List.erase_cons_head] at hperm

theorem freeAll_perm (hps : ∀ p ∈ ps, p ≠ 0) (h : (live.map Region.start).Perm (ps ++ qs)) :
    ∃ live', freeAll live ps = some live' ∧ live'.Sublist live ∧
      (live'.map Region.start).Perm qs := by
  induction ps generalizing live with
  | nil => exact ⟨live, rfl, .refl live, h⟩
  | cons p ps ih =>
      obtain ⟨live₁, h₁, hsub₁, hperm₁⟩ := free_perm h (hps p List.mem_cons_self)
      obtain ⟨live₂, h₂, hsub₂, hperm₂⟩ :=
        ih (fun q hq => hps q (List.mem_cons_of_mem _ hq)) hperm₁
      refine ⟨live₂, ?_, hsub₂.trans hsub₁, hperm₂⟩
      rw [freeAll, h₁]
      exact h₂

/-- What is not given back stays handed out. -/
theorem mem_free {r : Region} (h : free live p = some live') (hr : r ∈ live) (hne : r.start ≠ p) :
    r ∈ live' := by
  unfold free at h
  split at h
  · exact Option.some.inj h ▸ hr
  · split at h
    · exact Option.some.inj h ▸ (List.mem_eraseP_of_neg (by simpa using hne)).mpr hr
    · exact absurd h nofun

theorem mem_freeAll {r : Region} (h : freeAll live ps = some live') (hr : r ∈ live)
    (hne : r.start ∉ ps) : r ∈ live' := by
  induction ps generalizing live with
  | nil => exact Option.some.inj h ▸ hr
  | cons p ps ih =>
      obtain ⟨live₁, h₁, h₂⟩ := Option.bind_eq_some_iff.mp h
      rw [List.mem_cons, not_or] at hne
      exact ih h₂ (mem_free h₁ hr hne.1) hne.2

/-! ## An allocator -/

/-- Where the last of the regions ends. -/
def top (live : List Region) : Nat := live.foldr (fun r t => max (r.start + r.size) t) 0

theorem le_top {r : Region} (h : r ∈ live) : r.start + r.size ≤ top live := by
  induction live with
  | nil => exact absurd h List.not_mem_nil
  | cons q live ih =>
      show _ ≤ max (q.start + q.size) (top live)
      rcases List.mem_cons.mp h with rfl | h
      · exact Nat.le_max_left ..
      · exact Nat.le_trans (ih h) (Nat.le_max_right ..)

theorem lt_top_up (live : List Region) {align : Nat} (h : align ≠ 0) :
    top live < (top live / align + 1) * align := by
  rw [Nat.mul_comm]
  exact Nat.lt_mul_div_succ _ (Nat.pos_of_ne_zero h)

/-- The allocator that goes up and never down, and has always more. -/
def bumpAllocator : Allocator where
  take _ live align size :=
    if align ≠ 0 then some ((top live / align + 1) * align) else none
  aligned h := by
    obtain ⟨-, h⟩ := Option.ite_none_right_eq_some.mp h
    exact Option.some.inj h ▸ Nat.dvd_mul_left ..
  null {_ live _ _} h := by
    obtain ⟨hne, h⟩ := Option.ite_none_right_eq_some.mp h
    exact absurd (Option.some.inj h) (Nat.ne_of_gt (Nat.zero_lt_of_lt (lt_top_up live hne)))
  fresh {_ live _ _ _} h _ r hr := by
    obtain ⟨hne, h⟩ := Option.ite_none_right_eq_some.mp h
    have hlt := Option.some.inj h ▸ lt_top_up live hne
    refine ⟨Nat.ne_of_lt ?_, .inl (Nat.le_trans (le_top hr) (Nat.le_of_lt hlt))⟩
    have := le_top hr
    omega

/-- The allocator that goes up and never down while there is room. -/
def bumpMalloc : Malloc where
  take _ live align size :=
    let p := (top live / align + 1) * align
    if align ≠ 0 ∧ p + size ≤ 2 ^ 63 then some p else none
  aligned h := by
    obtain ⟨-, h⟩ := Option.ite_none_right_eq_some.mp h
    exact Option.some.inj h ▸ Nat.dvd_mul_left ..
  null {_ live _ _} h := by
    obtain ⟨⟨hne, -⟩, h⟩ := Option.ite_none_right_eq_some.mp h
    exact absurd (Option.some.inj h) (Nat.ne_of_gt (Nat.zero_lt_of_lt (lt_top_up live hne)))
  fresh {_ live _ _ _} h _ r hr := by
    obtain ⟨⟨hne, -⟩, h⟩ := Option.ite_none_right_eq_some.mp h
    have hlt := Option.some.inj h ▸ lt_top_up live hne
    exact ⟨Nat.ne_of_lt (by have := le_top hr; omega),
      .inl (Nat.le_trans (le_top hr) (Nat.le_of_lt hlt))⟩
  low h := by
    obtain ⟨⟨-, hle⟩, h⟩ := Option.ite_none_right_eq_some.mp h
    exact Option.some.inj h ▸ hle

end CppTrack.Lib
