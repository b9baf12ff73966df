import CppTrack.Memory.MemPoolRelease

/-!
# The recursion of `mp_alloc`

The record of a large allocation comes from `mp_alloc`, which may find the record too large for
the blocks in its turn and go to `mp_alloc_large` again. Here the functions are written with that
recursion, under a bound on how deep it nests, and the question is whether some bound is enough.

`malloc` is an allocator of which it is not known when it has no more: a recursion that only ends
when memory runs out does not end here. Blocks and `mp_memalign` go to `posix_memalign`, as before.
What a call does on its way back, a write outside the block it was cut off among it, does not keep
it from coming back; following a `next` that nobody wrote does.
-/

namespace CppTrack.Memory.Recursion

open Lib

/-! ## The functions -/

/-- Why there is no result. -/
inductive Stop where
  /-- The calls nest deeper than the bound. -/
  | deep
  /-- A `next` that nobody wrote is followed. -/
  | lost
  /-- Memory that the pool does not have is written or given back, on the way back. -/
  | wild

/-- The call comes back. -/
def Ended {α : Type} : Except Stop α → Prop
  | .ok _ => True
  | .error .wild => True
  | .error .deep => False
  | .error .lost => False

abbrev Result := Except Stop (Ptr × State)

/-- A request that the blocks serve. -/
def cut (M : Malloc) (f : Nat → Nat) (size : Nat) (s : State) : Result :=
  match fromBlocks M f size s with
  | some x => .ok x
  | none => .error .lost

/-- The record of a large allocation, from a call of `mp_alloc`. -/
def newRecord (alloc : State → Result) (p : Nat) (s : State) : Except Stop (Nat × State) :=
  match alloc s with
  | .ok (r, s) =>
      if r.addr = 0 then
        match free s.live p with
        | some live => .ok (0, { s with live := live })
        | none => .error .wild
      else if r.Writable sizeofLarge then
        .ok (p, { s with pool := { s.pool with large := ⟨r.addr, p⟩ :: s.pool.large } })
      else .error .wild
  | .error e => .error e

/-- `malloc` has answered `p`. -/
def taken (s : State) (p size : Nat) : State :=
  { s with calls := s.calls + 1, live := handOut s.live p size }

/-- `mp_alloc_large`. -/
def mpAllocLarge (A : Allocator) (alloc : State → Result) (size : Nat) (s : State) : Result :=
  match A.take s.calls s.live mallocAlignment size with
  | none => .ok (null, s.refused)
  | some p =>
      match reuse p 0 s.pool.large with
      | some large =>
          .ok (⟨p, p + size⟩, { taken s p size with pool := { s.pool with large := large } })
      | none => (newRecord alloc p (taken s p size)).map fun x => (⟨x.1, x.1 + size⟩, x.2)

/-- `mp_alloc`, for calls nested at most `fuel` deep. -/
def mpAlloc (A : Allocator) (M : Malloc) : (fuel : Nat) → (size : Nat) → State → Result
  | 0, _, _ => .error .deep
  | fuel + 1, size, s =>
      if size ≤ s.pool.max then cut M mpAlignPtr size s
      else mpAllocLarge A (mpAlloc A M fuel sizeofLarge) size s

/-- `mp_nalloc`. -/
def mpNalloc (A : Allocator) (M : Malloc) (fuel size : Nat) (s : State) : Result :=
  if size ≤ s.pool.max then cut M id size s
  else mpAllocLarge A (mpAlloc A M fuel sizeofLarge) size s

/-- `mp_calloc`. -/
def mpCalloc (A : Allocator) (M : Malloc) (fuel size : Nat) (s : State) : Result :=
  match mpAlloc A M fuel size s with
  | .ok (p, s) => if p.addr = 0 ∨ p.Writable size then .ok (p, s) else .error .wild
  | .error e => .error e

/-- `mp_memalign`. -/
def mpMemalign (A : Allocator) (M : Malloc) (fuel size alignment : Nat) (s : State) : Result :=
  match M.take s.calls s.live alignment size with
  | none => .ok (null, s.refused)
  | some p =>
      (newRecord (mpAlloc A M fuel sizeofLarge) p (taken s p size)).map
        fun x => (⟨x.1, x.1 + size⟩, x.2)

inductive Allocation
  | alloc (size : Nat)
  | nalloc (size : Nat)
  | calloc (size : Nat)
  | memalign (size alignment : Nat)

def allocate (A : Allocator) (M : Malloc) (fuel : Nat) (s : State) : Allocation → Result
  | .alloc size => mpAlloc A M fuel size s
  | .nalloc size => mpNalloc A M fuel size s
  | .calloc size => mpCalloc A M fuel size s
  | .memalign size alignment => mpMemalign A M fuel size alignment s

/-- The states of a pool of `size` bytes, in memory that held `junk` where the `next` of the head
is, after any calls that came back. -/
inductive Reached (A : Allocator) (M : Malloc) (junk size : Nat) : State → Prop
  | created {s : State} : mpCreatePool M junk size = some (some s) → Reached A M junk size s
  | allocated {s s' : State} {r : Ptr} (fuel : Nat) (a : Allocation) : Reached A M junk size s →
      allocate A M fuel s a = .ok (r, s') → Reached A M junk size s'
  | freed {s s' : State} (p : Nat) : Reached A M junk size s → mpFree p s = some s' →
      Reached A M junk size s'
  | reset {s s' : State} : Reached A M junk size s → mpResetPool s = some s' →
      Reached A M junk size s'

/-! ## When it ends -/

/-- One of the records that are searched is not in use. -/
def Unused (s : State) : Prop := ∃ l ∈ s.pool.large.take 5, l.alloc = 0

/-- A record is no large request itself, and the walk for it ends. -/
def RecordEnds (s : State) : Prop :=
  sizeofLarge ≤ s.pool.max ∧ Ends mpAlignPtr sizeofLarge s

/-- A small request ends its walk, a large one has a record. -/
def AllocEnds (f : Nat → Nat) (size : Nat) (s : State) : Prop :=
  (size ≤ s.pool.max → Ends f size s) ∧ (s.pool.max < size → Unused s ∨ RecordEnds s)

def Bottoms (M : Malloc) (s : State) : Allocation → Prop
  | .alloc size => AllocEnds mpAlignPtr size s
  | .nalloc size => AllocEnds id size s
  | .calloc size => AllocEnds mpAlignPtr size s
  | .memalign size alignment => (M.take s.calls s.live alignment size).isSome → RecordEnds s

section

variable {A : Allocator} {M : Malloc} {f : Nat → Nat} {size p fuel : Nat} {s s' : State}
  {alloc : State → Result}

theorem ended_error {α β : Type} (e : Stop) :
    Ended (.error e : Except Stop α) ↔ Ended (.error e : Except Stop β) := by
  cases e <;> exact Iff.rfl

theorem ended_map {α β : Type} (g : α → β) (x : Except Stop α) : Ended (x.map g) ↔ Ended x := by
  cases x with
  | ok y => exact Iff.rfl
  | error e => exact ended_error e

theorem cut_ended (hnodes : s.pool.nodes ≠ []) : Ended (cut M f size s) ↔ Ends f size s := by
  obtain ⟨head, nodes, hhead⟩ := List.exists_cons_of_ne_nil hnodes
  rw [cut, fromBlocks, Ends]
  cases hwalk : walk f size (s.pool.nodes.drop s.pool.current) with
  | some x =>
      obtain ⟨m, bs⟩ := x
      obtain ⟨-, b, -, -, -, -, hfind⟩ := walk_eq_some hwalk
      rw [hfind]
      exact iff_of_true trivial nofun
  | none =>
      rw [walk_eq_none hwalk]
      simp only [forall_const]
      by_cases hnext : s.pool.next = 0
      · refine iff_of_true ?_ hnext
        simp only [if_pos hnext, mpAllocBlock, hhead]
        cases hreq : request M s mpAlignment (subU64 head.end_ head.addr) with
        | none => trivial
        | some x =>
            obtain ⟨q, -, rfl⟩ := Option.map_eq_some_iff.mp hreq
            simp only [if_pos hnext]
            trivial
      · simp only [if_neg hnext]
        exact iff_of_false id hnext

theorem newRecord_ended : Ended (newRecord alloc p s) ↔ Ended (alloc s) := by
  rw [newRecord]
  cases alloc s with
  | error e => exact ended_error e
  | ok x =>
      refine iff_of_true ?_ trivial
      dsimp only
      split
      · split <;> trivial
      · split <;> trivial

theorem reuse_eq_none {n : Nat} (hn : n ≤ 4) (ls : List Large) :
    reuse p n ls = none ↔ ∀ l ∈ ls.take (5 - n), l.alloc ≠ 0 := by
  induction ls generalizing n with
  | nil => simp [reuse]
  | cons l ls ih =>
      rw [reuse, show 5 - n = (4 - n) + 1 by omega, List.take_succ_cons, List.forall_mem_cons]
      by_cases hl : l.alloc = 0
      · rw [if_pos hl]
        exact iff_of_false (Option.some_ne_none _) fun h => h.1 hl
      · rw [if_neg hl]
        by_cases hlast : n > 3
        · rw [if_pos hlast, show 4 - n = 0 by omega]
          exact iff_of_true rfl ⟨hl, by simp⟩
        · rw [if_neg hlast, Option.map_eq_none_iff, ih (by omega),
            show 5 - (n + 1) = 4 - n by omega]
          exact (and_iff_right hl).symm

theorem not_unused (p : Nat) : ¬ Unused s ↔ reuse p 0 s.pool.large = none := by
  rw [reuse_eq_none (Nat.zero_le 4), Unused, not_exists]
  simp only [not_and]

/-- A large request ends if its record does, where it needs one. -/
theorem mpAllocLarge_ended : Ended (mpAllocLarge A alloc size s) ↔
    ∀ p, A.take s.calls s.live mallocAlignment size = some p → ¬ Unused s →
      Ended (alloc (taken s p size)) := by
  rw [mpAllocLarge]
  cases A.take s.calls s.live mallocAlignment size with
  | none => exact iff_of_true trivial nofun
  | some p =>
      simp only [Option.some.injEq, forall_eq', not_unused p]
      cases reuse p 0 s.pool.large with
      | some large => exact iff_of_true trivial nofun
      | none => simp only [ended_map, newRecord_ended, forall_const]

/-- What the recursion rests on: where records are too large, there has never been one. -/
structure Rooted (s : State) : Prop where
  nodes : s.pool.nodes ≠ []
  large : s.pool.max < sizeofLarge → s.pool.large = []

theorem RecordEnds.ended (h : RecordEnds s) (hs : Rooted s) :
    Ended (mpAlloc A M (fuel + 1) sizeofLarge s) := by
  rw [mpAlloc, if_pos h.1]
  exact (cut_ended hs.nodes).mpr h.2

/-- Where `malloc` has always more, only a record that is cut off a block ends the recursion. -/
theorem recordEnds_of_ended (hs : Rooted s)
    (h : Ended (mpAlloc bumpAllocator M fuel sizeofLarge s)) : RecordEnds s := by
  induction fuel generalizing s with
  | zero => exact absurd h id
  | succ fuel ih =>
      rw [mpAlloc] at h
      split at h
      · rename_i hmax
        exact ⟨hmax, (cut_ended hs.nodes).mp h⟩
      · rename_i hmax
        have hnone : ¬ Unused s := by
          rintro ⟨l, hl, -⟩
          rw [hs.large (Nat.lt_of_not_le hmax)] at hl
          exact absurd hl List.not_mem_nil
        -- the same request again, from the same pool
        exact ih (s := taken s _ sizeofLarge) ⟨hs.nodes, hs.large⟩
          (mpAllocLarge_ended.mp h _ rfl hnone)

/-- `mp_alloc` and `mp_nalloc`. -/
theorem serve_ended (hs : Rooted s) :
    (∀ A : Allocator, ∃ fuel, Ended (if size ≤ s.pool.max then cut M f size s
      else mpAllocLarge A (mpAlloc A M fuel sizeofLarge) size s)) ↔ AllocEnds f size s := by
  rw [AllocEnds]
  by_cases hsize : size ≤ s.pool.max
  · simp only [if_pos hsize, cut_ended hs.nodes]
    constructor
    · intro h
      obtain ⟨-, hends⟩ := h bumpAllocator
      exact ⟨fun _ => hends, fun hlt => absurd hsize (Nat.not_le.mpr hlt)⟩
    · intro h A
      exact ⟨0, h.1 hsize⟩
  · simp only [if_neg hsize]
    constructor
    · intro h
      refine ⟨fun hle => absurd hle hsize, fun _ => ?_⟩
      obtain ⟨fuel, hended⟩ := h bumpAllocator
      by_cases hunused : Unused s
      · exact .inl hunused
      · exact .inr (recordEnds_of_ended (s := taken s _ size) ⟨hs.nodes, hs.large⟩
          (mpAllocLarge_ended.mp hended _ rfl hunused))
    · intro h A
      refine ⟨1, mpAllocLarge_ended.mpr fun p _ hunused => ?_⟩
      have hends : RecordEnds (taken s p size) :=
        (h.2 (Nat.lt_of_not_le hsize)).resolve_left hunused
      exact hends.ended ⟨hs.nodes, hs.large⟩

/-- Any of the four calls. -/
theorem allocate_ended (hs : Rooted s) (a : Allocation) :
    (∀ A : Allocator, ∃ fuel, Ended (allocate A M fuel s a)) ↔ Bottoms M s a := by
  -- `mp_alloc` nests once deeper than what it does
  have hmpAlloc : ∀ size, (∀ A : Allocator, ∃ fuel, Ended (mpAlloc A M fuel size s)) ↔
      AllocEnds mpAlignPtr size s := by
    intro size
    rw [← serve_ended (M := M) hs]
    refine forall_congr' fun A => ?_
    constructor
    · rintro ⟨fuel, hended⟩
      cases fuel with
      | zero => exact absurd hended id
      | succ fuel => exact ⟨fuel, hended⟩
    · rintro ⟨fuel, hended⟩
      exact ⟨fuel + 1, hended⟩
  cases a with
  | alloc size => exact hmpAlloc size
  | nalloc size => exact serve_ended hs
  | calloc size =>
      refine Iff.trans (forall_congr' fun A => exists_congr fun fuel => ?_) (hmpAlloc size)
      show Ended (mpCalloc A M fuel size s) ↔ _
      rw [mpCalloc]
      cases mpAlloc A M fuel size s with
      | error e => exact Iff.rfl
      | ok x =>
          refine iff_of_true ?_ trivial
          dsimp only
          split <;> trivial
  | memalign size alignment =>
      rw [Bottoms]
      cases htake : M.take s.calls s.live alignment size with
      | none =>
          refine iff_of_true (fun A => ⟨0, ?_⟩) nofun
          rw [allocate, mpMemalign, htake]
          trivial
      | some p =>
          have hrec : ∀ A fuel, Ended (allocate A M fuel s (.memalign size alignment)) ↔
              Ended (mpAlloc A M fuel sizeofLarge (taken s p size)) := by
            intro A fuel
            rw [allocate, mpMemalign, htake]
            exact (ended_map _ _).trans newRecord_ended
          simp only [hrec, Option.isSome_some, forall_const]
          constructor
          · intro h
            obtain ⟨fuel, hended⟩ := h bumpAllocator
            exact recordEnds_of_ended (s := taken s p size) ⟨hs.nodes, hs.large⟩ hended
          · intro h A
            have h : RecordEnds (taken s p size) := h
            exact ⟨1, h.ended ⟨hs.nodes, hs.large⟩⟩

/-! ## Where records are too large, there has never been one -/

/-- What a call leaves of the pool it found. -/
structure Keeps (s s' : State) : Prop where
  nodes : s'.pool.nodes ≠ []
  max : s'.pool.max = s.pool.max
  large : s.pool.max < sizeofLarge → s'.pool.large = []

theorem Keeps.rooted (h : Keeps s s') : Rooted s' :=
  ⟨h.nodes, fun hmax => h.large (h.max ▸ hmax)⟩

variable {r : Ptr}

theorem cut_keeps (hs : Rooted s) (h : cut M f size s = .ok (r, s')) : Keeps s s' := by
  rw [cut, fromBlocks] at h
  split at h
  · rename_i x heq
    obtain rfl := Except.ok.inj h
    split at heq
    · rename_i m bs hwalk
      obtain ⟨pre, b, post, -, rfl, -⟩ := walk_eq_some hwalk
      obtain ⟨-, rfl⟩ := Prod.mk.inj (Option.some.inj heq)
      exact ⟨by simp, rfl, hs.large⟩
    · obtain ⟨-, heq⟩ := Option.ite_none_right_eq_some.mp heq
      rw [mpAllocBlock] at heq
      split at heq
      · exact absurd heq nofun
      · dsimp only at heq
        split at heq
        · obtain ⟨-, rfl⟩ := Prod.mk.inj (Option.some.inj heq)
          exact ⟨hs.nodes, rfl, hs.large⟩
        · rename_i hreq
          obtain ⟨q, -, hq⟩ := Option.map_eq_some_iff.mp hreq
          obtain ⟨-, rfl⟩ := Prod.mk.inj hq
          obtain ⟨-, heq⟩ := Option.ite_none_right_eq_some.mp heq
          obtain ⟨-, rfl⟩ := Prod.mk.inj (Option.some.inj heq)
          exact ⟨by simp, rfl, hs.large⟩
  · exact absurd h nofun

/-- A record that comes from `mp_alloc` where it is too large does not come at all. -/
def Recording (alloc : State → Result) : Prop :=
  ∀ s r s', Rooted s → alloc s = .ok (r, s') →
    Keeps s s' ∧ (s.pool.max < sizeofLarge → r.addr = 0)

theorem newRecord_keeps {q : Nat} (halloc : Recording alloc) (hs : Rooted s)
    (h : newRecord alloc p s = .ok (q, s')) :
    Keeps s s' ∧ (s.pool.max < sizeofLarge → q = 0) := by
  rw [newRecord] at h
  split at h
  · rename_i r s₁ heq
    obtain ⟨hkeeps, hnull⟩ := halloc s r s₁ hs heq
    split at h
    · split at h
      · obtain ⟨rfl, rfl⟩ := Prod.mk.inj (Except.ok.inj h)
        exact ⟨⟨hkeeps.nodes, hkeeps.max, hkeeps.large⟩, fun _ => rfl⟩
      · exact absurd h nofun
    · rename_i hr
      split at h
      · obtain ⟨rfl, rfl⟩ := Prod.mk.inj (Except.ok.inj h)
        exact ⟨⟨hkeeps.nodes, hkeeps.max, fun hmax => absurd (hnull hmax) hr⟩,
          fun hmax => absurd (hnull hmax) hr⟩
      · exact absurd h nofun
  · exact absurd h nofun

/-- A new record, and the pointer made of what it holds. -/
theorem newRecord_map_keeps (halloc : Recording alloc) (hs : Rooted s)
    (h : (newRecord alloc p s).map (fun x => (Ptr.mk x.1 (x.1 + size), x.2)) = .ok (r, s')) :
    Keeps s s' ∧ (s.pool.max < sizeofLarge → r.addr = 0) := by
  cases hrec : newRecord alloc p s with
  | error e =>
      rw [hrec] at h
      exact absurd h nofun
  | ok x =>
      rw [hrec] at h
      obtain ⟨rfl, rfl⟩ := Prod.mk.inj (Except.ok.inj h)
      exact newRecord_keeps halloc hs hrec

theorem mpAllocLarge_keeps (halloc : Recording alloc) (hs : Rooted s)
    (h : mpAllocLarge A alloc size s = .ok (r, s')) :
    Keeps s s' ∧ (s.pool.max < sizeofLarge → r.addr = 0) := by
  rw [mpAllocLarge] at h
  split at h
  · obtain ⟨rfl, rfl⟩ := Prod.mk.inj (Except.ok.inj h)
    exact ⟨⟨hs.nodes, rfl, hs.large⟩, fun _ => rfl⟩
  · rename_i p _
    split at h
    · rename_i large hreuse
      obtain ⟨rfl, rfl⟩ := Prod.mk.inj (Except.ok.inj h)
      have hnone : s.pool.max < sizeofLarge → False := by
        intro hmax
        rw [hs.large hmax] at hreuse
        exact absurd hreuse nofun
      exact ⟨⟨hs.nodes, rfl, fun hmax => (hnone hmax).elim⟩, fun hmax => (hnone hmax).elim⟩
    · have hs₁ : Rooted (taken s p size) := ⟨hs.nodes, hs.large⟩
      obtain ⟨hkeeps, hnull⟩ := newRecord_map_keeps halloc hs₁ h
      exact ⟨⟨hkeeps.nodes, hkeeps.max, hkeeps.large⟩, hnull⟩

/-- `mp_alloc` keeps the pool as it is, and has no large memory where a record is large. -/
theorem mpAlloc_keeps (hs : Rooted s) (h : mpAlloc A M fuel size s = .ok (r, s')) :
    Keeps s s' ∧ (s.pool.max < size → s.pool.max < sizeofLarge → r.addr = 0) := by
  induction fuel generalizing size s r s' with
  | zero => exact absurd h nofun
  | succ fuel ih =>
      rw [mpAlloc] at h
      split at h
      · rename_i hle
        exact ⟨cut_keeps hs h, fun hlt => absurd hle (Nat.not_le.mpr hlt)⟩
      · have hrec : Recording (mpAlloc A M fuel sizeofLarge) := by
          intro s r s' hs h
          obtain ⟨hkeeps, hnull⟩ := ih hs h
          exact ⟨hkeeps, fun hmax => hnull hmax hmax⟩
        obtain ⟨hkeeps, hnull⟩ := mpAllocLarge_keeps hrec hs h
        exact ⟨hkeeps, fun _ => hnull⟩

theorem recording (A : Allocator) (M : Malloc) (fuel : Nat) :
    Recording (mpAlloc A M fuel sizeofLarge) := by
  intro s r s' hs h
  obtain ⟨hkeeps, hnull⟩ := mpAlloc_keeps hs h
  exact ⟨hkeeps, fun hmax => hnull hmax hmax⟩

theorem allocate_keeps (hs : Rooted s) {a : Allocation} (h : allocate A M fuel s a = .ok (r, s')) :
    Keeps s s' := by
  cases a with
  | alloc size => exact (mpAlloc_keeps hs h).1
  | nalloc size =>
      rw [allocate, mpNalloc] at h
      split at h
      · exact cut_keeps hs h
      · exact (mpAllocLarge_keeps (recording A M fuel) hs h).1
  | calloc size =>
      rw [allocate, mpCalloc] at h
      split at h
      · rename_i heq
        split at h
        · obtain ⟨rfl, rfl⟩ := Prod.mk.inj (Except.ok.inj h)
          exact (mpAlloc_keeps hs heq).1
        · exact absurd h nofun
      · exact absurd h nofun
  | memalign size alignment =>
      rw [allocate, mpMemalign] at h
      split at h
      · obtain ⟨rfl, rfl⟩ := Prod.mk.inj (Except.ok.inj h)
        exact ⟨hs.nodes, rfl, hs.large⟩
      · rename_i p _
        have hs₁ : Rooted (taken s p size) := ⟨hs.nodes, hs.large⟩
        obtain ⟨hkeeps, -⟩ := newRecord_map_keeps (recording A M fuel) hs₁ h
        exact ⟨hkeeps.nodes, hkeeps.max, hkeeps.large⟩

theorem Reached.rooted {junk : Nat} (h : Reached A M junk size s) : Rooted s := by
  induction h with
  | @created s hcreate =>
      unfold mpCreatePool at hcreate
      simp only at hcreate
      split at hcreate
      · exact absurd hcreate (by simp)
      · obtain ⟨-, heq⟩ := Option.ite_none_right_eq_some.mp hcreate
        obtain rfl := Option.some.inj (Option.some.inj heq)
        exact ⟨List.cons_ne_nil _ _, fun _ => rfl⟩
  | allocated fuel a _ h ih => exact (allocate_keeps ih h).rooted
  | @freed s s' p _ h ih =>
      rw [mpFree] at h
      split at h
      · rename_i hany
        obtain ⟨live, -, rfl⟩ := Option.map_eq_some_iff.mp h
        refine ⟨ih.nodes, fun hmax => ?_⟩
        rw [ih.large hmax] at hany
        exact absurd hany nofun
      · exact Option.some.inj h ▸ ih
  | @reset s s' _ h ih =>
      obtain ⟨live, -, h⟩ := Option.bind_eq_some_iff.mp h
      obtain ⟨-, heq⟩ := Option.ite_none_right_eq_some.mp h
      obtain rfl := Option.some.inj heq
      exact ⟨List.map_eq_nil_iff.not.mpr ih.nodes, fun _ => rfl⟩

end

/-! ## The pool without the recursion -/

theorem newRecord_of_some {A : Allocator} {M : Malloc} {p : Nat} {s : State} {x : Nat × State}
    (fuel : Nat) (h : Memory.newRecord M p s = some x) :
    newRecord (mpAlloc A M (fuel + 1) sizeofLarge) p s = .ok x := by
  obtain ⟨hmax, h⟩ := Option.ite_none_right_eq_some.mp h
  obtain ⟨⟨r, s₁⟩, hblocks, h⟩ := Option.bind_eq_some_iff.mp h
  have halloc : mpAlloc A M (fuel + 1) sizeofLarge s = .ok (r, s₁) := by
    rw [mpAlloc, if_pos hmax, cut, hblocks]
  rw [newRecord, halloc]
  dsimp only at h ⊢
  split at h
  · rename_i hr
    obtain ⟨live, hfree, rfl⟩ := Option.map_eq_some_iff.mp h
    rw [if_pos hr, hfree]
  · rename_i hr
    obtain ⟨hw, h⟩ := Option.ite_none_right_eq_some.mp h
    rw [if_neg hr, if_pos hw]
    exact congrArg Except.ok (Option.some.inj h)

/-- The model of the pool without the recursion is a part of this one: what comes back there comes
back here, with the same pointer and in the same state. -/
theorem mpAlloc_of_some {M : Malloc} {size : Nat} {s : State} {x : Ptr × State} (fuel : Nat)
    (h : Memory.mpAlloc M size s = some x) :
    mpAlloc M.toAllocator M (fuel + 2) size s = .ok x := by
  rw [Memory.mpAlloc] at h
  rw [mpAlloc]
  split at h
  · rename_i hle
    rw [if_pos hle, cut, h]
  · rename_i hlt
    rw [if_neg hlt, mpAllocLarge]
    rw [Memory.mpAllocLarge, request] at h
    cases htake : M.take s.calls s.live mallocAlignment size with
    | none =>
        rw [htake] at h
        exact congrArg Except.ok (Option.some.inj h)
    | some p =>
        rw [htake] at h
        dsimp only [Option.map_some] at h ⊢
        cases hreuse : reuse p 0 s.pool.large with
        | some large =>
            rw [hreuse] at h
            exact congrArg Except.ok (Option.some.inj h)
        | none =>
            rw [hreuse] at h
            obtain ⟨y, hrec, rfl⟩ := Option.map_eq_some_iff.mp h
            have hrec' := newRecord_of_some (A := M.toAllocator) fuel hrec
            exact congrArg (Except.map _) hrec'

/--
**Allocations come back.** In any state of any pool, a request comes back whatever `malloc`
answers if and only if it ends its walk, or, where it is a large one, a record is unused or can be
cut off a block.
-/
theorem allocate_ends_iff {A : Allocator} {M : Malloc} {junk size : Nat} {s : State}
    (h : Reached A M junk size s) (a : Allocation) :
    (∀ A' : Allocator, ∃ fuel, Ended (allocate A' M fuel s a)) ↔ Bottoms M s a :=
  allocate_ended h.rooted a

/-- A new pool with room for records, and a request too large for its blocks. -/
theorem allocate_ends_iff_hundred : ∃ s, mpCreatePool bumpMalloc 0 64 = some (some s) ∧
    ((∀ A' : Allocator, ∃ fuel, Ended (allocate A' bumpMalloc fuel s (.alloc 100))) ↔
      Bottoms bumpMalloc s (.alloc 100)) := by
  obtain ⟨s, hcreate⟩ : ∃ s, mpCreatePool bumpMalloc 0 64 = some (some s) := ⟨_, rfl⟩
  have hreached : Reached bumpAllocator bumpMalloc 0 64 s := .created hcreate
  exact ⟨s, hcreate, allocate_ends_iff hreached (.alloc 100)⟩

/-- In a pool of eight bytes a record is itself a large request, and so is the record for that. -/
theorem allocate_endless : ¬ ∀ (A : Allocator) (M : Malloc) (junk size : Nat) (s : State),
    Reached A M junk size s → ∀ a, ∀ A' : Allocator, ∃ fuel, Ended (allocate A' M fuel s a) := by
  intro h
  obtain ⟨s, hcreate, hmax, hnone⟩ : ∃ s, mpCreatePool bumpMalloc 0 8 = some (some s) ∧
      s.pool.max = 8 ∧ s.pool.large = [] := ⟨_, rfl, rfl, rfl⟩
  have hreached : Reached bumpAllocator bumpMalloc 0 8 s := .created hcreate
  have hends := (allocate_ended hreached.rooted (.alloc 100)).mp
    (h bumpAllocator bumpMalloc 0 8 s hreached (.alloc 100))
  rcases hends.2 (by rw [hmax]; decide) with ⟨l, hl, -⟩ | ⟨hle, -⟩
  · rw [hnone] at hl
    exact absurd hl List.not_mem_nil
  · rw [hmax] at hle
    exact absurd hle (by decide)

end CppTrack.Memory.Recursion
