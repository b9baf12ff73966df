import CppTrack.Net.Reactor
import CppTrack.Net.RingBufProof

/-!
# The slots of the table

The cursor `iter` only ever grows. As long as the scan stops below `MAX_CONN` the masked
index it tests and the plain one it returns are the same, and the slot returned is free.
The mask is `MAX_CONN` itself, though, one less than a power of two, so a scan that gets to
`MAX_CONN` tests an element past the end of the array. That is when every slot after the
cursor is taken, and at the latest when as many events have been set up as there are slots.
-/

namespace CppTrack.Net

open Lib RingBuf

/-- A history of the table. -/
inductive SlotOp
  | new (fd : Nat) (memIn memOut : Nat → UInt8)
  | free (i : Nat)

def slotStep (r : Reactor) : SlotOp → Option Reactor
  | .new fd memIn memOut => (newEvent r fd memIn memOut).map Prod.snd
  | .free i =>
      if i < maxConn then
        some { r with events := Function.update r.events i (freeEvent (r.events i)) }
      else none

/-- `create_reactor`: the memory is zeroed. -/
def createReactor : Reactor where
  events := fun _ =>
    { fd := 0
      input := { buf := fun _ => 0, size := 0, writePos := 0, readPos := 0 }
      output := { buf := fun _ => 0, size := 0, writePos := 0, readPos := 0 } }
  iter := 0

/-- The number of live events. -/
def live (r : Reactor) : Nat := ((List.range maxConn).filter fun i => (r.events i).fd > 0).length

/-- Fewer than `MAX_CONN` events are live when one is set up. -/
def Few (r : Reactor) : SlotOp → Prop
  | .new _ _ _ => live r < maxConn
  | .free _ => True

/-- `new_event` stays in the array and returns a slot that was not occupied. -/
def SlotRight (r : Reactor) : SlotOp → Prop
  | .new fd memIn memOut => ∃ i r', newEvent r fd memIn memOut = some (i, r') ∧ i < maxConn ∧
      (r.events i).fd = 0 ∧ (r'.events i).fd = fd ∧ ∀ j, j ≠ i → r'.events j = r.events j
  | .free _ => True

/-- There is a free slot after the cursor. -/
def Room (r : Reactor) : SlotOp → Prop
  | .new _ _ _ => ∃ j, r.iter < j ∧ j < maxConn ∧ (r.events j).fd = 0
  | .free _ => True

theorem and_maxConn {i : Nat} (hi : i ≤ maxConn) : i &&& maxConn = i := by
  unfold maxConn at *
  rw [Nat.and_two_pow_sub_one_eq_mod]
  omega

section

variable {r : Reactor} {events : Nat → Event} {fuel iter : Nat}

/-- The scan finds a free slot if there is one on its way through the array. -/
theorem scan_some (hiter : iter ≤ maxConn) (hfuel : maxConn ≤ fuel + iter)
    (hfree : ∃ j, iter ≤ j ∧ j < maxConn ∧ (events j).fd = 0) :
    ∃ j, scan events fuel iter = some j ∧ iter ≤ j ∧ j < maxConn ∧ (events j).fd = 0 := by
  obtain ⟨j, hj, hlt, h0⟩ := hfree
  induction fuel generalizing iter with
  | zero => omega
  | succ fuel ih =>
      rw [scan, and_maxConn hiter, if_pos (by omega)]
      by_cases hfd : (events iter).fd > 0
      · -- this one is occupied
        have hne : iter ≠ j := by
          rintro rfl
          omega
        rw [if_pos hfd]
        obtain ⟨k, hscan, hle, hk⟩ := @ih (iter + 1) (by omega) (by omega) (by omega)
        exact ⟨k, hscan, by omega, hk⟩
      · rw [if_neg hfd]
        exact ⟨iter, rfl, Nat.le_refl _, by omega, by omega⟩

/-- Otherwise it leaves the array. -/
theorem scan_none (hiter : iter ≤ maxConn)
    (hfull : ∀ j, iter ≤ j → j < maxConn → (events j).fd ≠ 0) : scan events fuel iter = none := by
  induction fuel generalizing iter with
  | zero =>
      rw [scan, and_maxConn hiter]
      split
      · rename_i hlt
        rw [if_pos (Nat.pos_of_ne_zero (hfull iter (Nat.le_refl _) hlt))]
      · rfl
  | succ fuel ih =>
      rw [scan, and_maxConn hiter]
      split
      · rename_i hlt
        rw [if_pos (Nat.pos_of_ne_zero (hfull iter (Nat.le_refl _) hlt))]
        exact ih hlt fun j hj => hfull j (by omega)
      · rfl

/-- **`new_event`**, when there is room after the cursor. -/
theorem newEvent_room (hroom : ∃ j, r.iter < j ∧ j < maxConn ∧ (r.events j).fd = 0) (fd : Nat)
    (memIn memOut : Nat → UInt8) :
    ∃ i input output, newEvent r fd memIn memOut =
        some (i, { events := Function.update r.events i ⟨fd, input, output⟩, iter := i }) ∧
      rbInit memIn (1024 * 16) = some input ∧ rbInit memOut (1024 * 16) = some output ∧
      i < maxConn ∧ (r.events i).fd = 0 := by
  obtain ⟨input, hin, -⟩ := rbInit_ok memIn (show 1024 * 16 ≤ 2 ^ 31 by decide)
  obtain ⟨output, hout, -⟩ := rbInit_ok memOut (show 1024 * 16 ≤ 2 ^ 31 by decide)
  obtain ⟨j, hj, hlt, h0⟩ := hroom
  obtain ⟨i, hscan, -, hi, hfree⟩ : ∃ i, scan r.events (maxConn + 1) (r.iter + 1) = some i ∧
      r.iter + 1 ≤ i ∧ i < maxConn ∧ (r.events i).fd = 0 :=
    scan_some (by omega) (by omega) ⟨j, hj, hlt, h0⟩
  refine ⟨i, input, output, ?_, hin, hout, hi, hfree⟩
  simp only [newEvent, getEvent, hscan, hin, hout, Option.bind_eq_bind, Option.bind_some]
  rw [if_pos hi]

/-- **`new_event`**, when there is not. -/
theorem newEvent_none (hiter : r.iter < maxConn)
    (hfull : ¬ ∃ j, r.iter < j ∧ j < maxConn ∧ (r.events j).fd = 0) (fd : Nat)
    (memIn memOut : Nat → UInt8) : newEvent r fd memIn memOut = none := by
  have hscan : scan r.events (maxConn + 1) (r.iter + 1) = none :=
    scan_none hiter fun j hj hlt h0 => hfull ⟨j, hj, hlt, h0⟩
  simp only [newEvent, getEvent, hscan, Option.bind_eq_bind, Option.bind_none]

theorem slotRight_iff_room (hiter : r.iter < maxConn) (op : SlotOp) :
    SlotRight r op ↔ Room r op := by
  cases op with
  | new fd memIn memOut =>
      constructor
      · rintro ⟨i, r', hnew, -⟩
        by_contra hfull
        rw [newEvent_none hiter hfull] at hnew
        exact absurd hnew nofun
      · intro hroom
        obtain ⟨i, input, output, hnew, -, -, hi, hfree⟩ := newEvent_room hroom fd memIn memOut
        refine ⟨i, _, hnew, hi, hfree, ?_, fun j hj => Function.update_of_ne hj _ _⟩
        show (Function.update r.events i _ i).fd = fd
        rw [Function.update_self]
  | free i => exact Iff.rfl

theorem slotStep_iter (hiter : r.iter < maxConn) {op : SlotOp} {r' : Reactor} (hroom : Room r op)
    (hstep : slotStep r op = some r') : r'.iter < maxConn := by
  cases op with
  | new fd memIn memOut =>
      obtain ⟨i, input, output, hnew, -, -, hi, -⟩ := newEvent_room hroom fd memIn memOut
      unfold slotStep at hstep
      simp only [hnew, Option.map_some, Option.some.injEq] at hstep
      obtain rfl := hstep
      exact hi
  | free i =>
      unfold slotStep at hstep
      simp only at hstep
      split at hstep
      · obtain rfl := Option.some.inj hstep
        exact hiter
      · exact absurd hstep nofun

end

/--
**Slots are right as long as there is one after the cursor.** Through any history of
`new_event` and `free_event`, the scan stays in the array and finds a slot that is not
occupied, each time, if and only if each time one of the slots after the cursor is free.
-/
theorem slots_right_iff (ops : List SlotOp) :
    Meets slotStep SlotRight createReactor ops ↔ Meets slotStep Room createReactor ops :=
  meets_iff SlotRight (fun r op (hiter : r.iter < maxConn) => slotRight_iff_room hiter op)
    (fun _ _ _ hiter hroom hstep => slotStep_iter hiter hroom hstep) ops
    (show 0 < maxConn by decide)

/-! ## As many connections as there are slots, one after another -/

/-- An event is set up and freed again, `n` times from slot `a + 1` on. -/
def oneByOne : (a n : Nat) → List SlotOp
  | _, 0 => []
  | a, n + 1 => .new 5 (fun _ => 0) (fun _ => 0) :: .free (a + 1) :: oneByOne (a + 1) n

section

variable {r : Reactor}

theorem live_zero (h : ∀ i, (r.events i).fd = 0) : live r = 0 := by
  unfold live
  rw [List.filter_eq_nil_iff.mpr, List.length_nil]
  intro i _
  simp [h i]

/-- Each pair uses the slot after the cursor, and leaves the table empty. -/
theorem pair_step (h : ∀ i, (r.events i).fd = 0) (hiter : r.iter + 1 < maxConn) :
    ∃ r₁ r₂, slotStep r (.new 5 (fun _ => 0) (fun _ => 0)) = some r₁ ∧
      slotStep r₁ (.free (r.iter + 1)) = some r₂ ∧ (∀ i, (r₂.events i).fd = 0) ∧
      r₂.iter = r.iter + 1 := by
  obtain ⟨input, hin, -⟩ := rbInit_ok (fun _ => 0) (show 1024 * 16 ≤ 2 ^ 31 by decide)
  have hscan : scan r.events (maxConn + 1) (r.iter + 1) = some (r.iter + 1) := by
    rw [scan, and_maxConn (Nat.le_of_lt hiter), if_pos hiter, if_neg (by simp [h])]
  refine ⟨⟨Function.update r.events (r.iter + 1) ⟨5, input, input⟩, r.iter + 1⟩, _, ?_,
    if_pos hiter, fun i => ?_, rfl⟩
  · simp only [slotStep, newEvent, getEvent, hscan, hin, Option.bind_eq_bind, Option.bind_some]
    rw [if_pos hiter]
    rfl
  · show (Function.update (Function.update r.events _ _) _ _ i).fd = 0
    by_cases hi : i = r.iter + 1
    · rw [hi, Function.update_self]
      rfl
    · rw [Function.update_of_ne hi, Function.update_of_ne hi]
      exact h i

theorem oneByOne_few (n : Nat) (h : ∀ i, (r.events i).fd = 0) (hn : r.iter + n ≤ maxConn) :
    Meets slotStep Few r (oneByOne r.iter n) := by
  have hlive : live r < maxConn := by
    rw [live_zero h]
    decide
  induction n generalizing r with
  | zero => trivial
  | succ n ih =>
      refine ⟨hlive, fun r₁ h₁ => ⟨trivial, fun r₂ h₂ => ?_⟩⟩
      by_cases hiter : r.iter + 1 < maxConn
      · obtain ⟨r₁', r₂', h₁', h₂', hfd, hit⟩ := pair_step h hiter
        obtain rfl := Option.some.inj (h₁'.symm.trans h₁)
        obtain rfl := Option.some.inj (h₂'.symm.trans h₂)
        rw [← hit]
        refine ih hfd (by omega) ?_
        rw [live_zero hfd]
        decide
      · -- past the end of the array nothing follows
        have hfull : ¬ ∃ j, r.iter < j ∧ j < maxConn ∧ (r.events j).fd = 0 := by
          rintro ⟨j, hj, hlt, -⟩
          omega
        unfold slotStep at h₁
        simp only [newEvent_none (show r.iter < maxConn by omega) hfull, Option.map_none] at h₁
        exact absurd h₁ nofun

theorem oneByOne_not_right (n : Nat) (h : ∀ i, (r.events i).fd = 0) (hpos : 0 < n)
    (hn : r.iter + n = maxConn) : ¬ Meets slotStep SlotRight r (oneByOne r.iter n) := by
  induction n generalizing r with
  | zero => omega
  | succ n ih =>
      intro hm
      by_cases hiter : r.iter + 1 < maxConn
      · obtain ⟨r₁, r₂, h₁, h₂, hfd, hit⟩ := pair_step h hiter
        have hm := (hm.2 r₁ h₁).2 r₂ h₂
        rw [← hit] at hm
        exact ih hfd (by omega) (by omega) hm
      · obtain ⟨i, r', hnew, -⟩ := hm.1
        rw [newEvent_none (by omega) fun ⟨j, hj, hlt, _⟩ => by omega] at hnew
        exact absurd hnew nofun

end

/-- With one event live at a time, the 65535th `new_event` leaves the array. -/
theorem slots_wrong :
    ∃ ops, Meets slotStep Few createReactor ops ∧ ¬ Meets slotStep SlotRight createReactor ops :=
  ⟨oneByOne 0 maxConn,
    oneByOne_few (r := createReactor) maxConn (fun _ => rfl) (by simp [createReactor]),
    oneByOne_not_right (r := createReactor) maxConn (fun _ => rfl) (by decide)
      (by simp [createReactor])⟩

end CppTrack.Net
