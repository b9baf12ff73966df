import Mathlib.Algebra.BigOperators.Group.Finset.Basic
import Mathlib.Algebra.Order.Group.Multiset
import Mathlib.Tactic.Abel
import Mathlib.Tactic.FinCases
import CppTrack.Timers.TimeWheel

/-!
# The slots of the timing wheel

Where `add_node` files a node, which slot a tick of the clock empties, and that the
two agree. Write `D` for the tick a node was asked to fire at, not wrapped. In
`near` it sits in the slot of `D` and `D` is less than 256 ticks away. In slot `j`
of level `i` it waits for the clock to enter `D`'s own block of that level, which
is ahead and less than a full turn of the level away.

There is one exception. `timer_shift` skips index 0 of a level and goes on to the
next, so slot 0 of the three lower levels is never emptied; and `add_node` does file
nodes there. `Dead` names those slots and `Kept` the calls of `add_timer` that avoid
them.
-/

namespace CppTrack.TimeWheel

open Lib

variable {α : Type}

/-! ## Slot arithmetic -/

/-- Ticks one slot of level `i` stands for. -/
def block (i : Fin 4) : Nat := 2 ^ (8 + 6 * i.val)

theorem nearIdx_val (x : Nat) : (nearIdx x).val = x % 256 :=
  Nat.and_two_pow_sub_one_eq_mod x 8

theorem levelIdx_val (x : Nat) : (levelIdx x).val = x % 64 :=
  Nat.and_two_pow_sub_one_eq_mod x 6

theorem addNode_eq (T : STimer α) (node : TimerNode α) :
    T.addNode node = T.link (fileSlot (subU32 node.expire T.time) node.expire) node := by
  simp only [STimer.addNode, fileSlot]
  split_ifs <;> first | rfl | contradiction

/-- The slots no cascade ever empties: index 0 of the three lower levels. -/
def Dead : Slot → Prop
  | .inl _ => False
  | .inr (i, j) => j.val = 0 ∧ i.val < 3

/--
`add_timer` called with relative time `time` while the clock shows `now` does not
file its node at index 0 of one of the three lower levels.
-/
def Kept (now time : Nat) : Prop :=
  ∀ k ∈ [8, 14, 20], 2 ^ k ≤ time → time < 2 ^ (k + 6) →
    (addU32 now time >>> k) &&& timeLevelMask ≠ 0

instance (now time : Nat) : Decidable (Kept now time) := by unfold Kept; infer_instance

theorem kept_iff (now time : Nat) :
    Kept now time ↔ ¬ Dead (fileSlot time (addU32 now time)) := by
  have hmask (x : Nat) : x &&& timeLevelMask = x % 64 := levelIdx_val x
  simp only [Kept, List.mem_cons, List.not_mem_nil, or_false, forall_eq_or_imp, forall_eq, hmask,
    fileSlot]
  split_ifs <;> simp only [Dead, levelIdx_val, Nat.reducePow, Nat.reduceAdd] <;> simp <;> omega

/-! ## Lists of slots -/

namespace STimer

theorem slot_setSlot (T : STimer α) (s : Slot) (l : List (TimerNode α)) :
    (T.setSlot s l).slot = Function.update T.slot s l := by
  funext s'
  rcases s with j | ⟨i, j⟩ <;> rcases s' with j' | ⟨i', j'⟩
  · simp [slot, setSlot, Function.update_apply]
  · simp [slot, setSlot]
  · simp [slot, setSlot]
  · by_cases hi : i' = i
    · subst hi; simp [slot, setSlot, Function.update_apply]
    · simp [slot, setSlot, hi]

@[simp] theorem time_setSlot (T : STimer α) (s : Slot) (l : List (TimerNode α)) :
    (T.setSlot s l).time = T.time := by
  cases s <;> rfl

@[simp] theorem time_link (T : STimer α) (s : Slot) (node : TimerNode α) :
    (T.link s node).time = T.time := time_setSlot _ _ _

theorem mem_link {T : STimer α} {s s' : Slot} {node nd : TimerNode α} :
    nd ∈ (T.link s node).slot s' ↔ nd ∈ T.slot s' ∨ (s' = s ∧ nd = node) := by
  rw [link, slot_setSlot, Function.update_apply]
  split
  · rename_i h; subst h; simp
  · rename_i h; simp [h]

/-- Everything linked anywhere in the wheel. -/
def pending (T : STimer α) : Multiset (TimerNode α) := ∑ s : Slot, (T.slot s : Multiset _)

theorem mem_pending {T : STimer α} {nd : TimerNode α} : nd ∈ T.pending ↔ ∃ s, nd ∈ T.slot s := by
  simp [pending, Multiset.mem_sum]

theorem pending_setSlot (T : STimer α) (s : Slot) (l : List (TimerNode α)) :
    (T.setSlot s l).pending + T.slot s = T.pending + l := by
  have hsplit (T' : STimer α) :
      T'.pending = T'.slot s + ∑ x ∈ Finset.univ.erase s, (T'.slot x : Multiset (TimerNode α)) :=
    (Finset.add_sum_erase _ _ (Finset.mem_univ s)).symm
  have hrest : ∑ x ∈ Finset.univ.erase s, ((T.setSlot s l).slot x : Multiset (TimerNode α))
      = ∑ x ∈ Finset.univ.erase s, (T.slot x : Multiset (TimerNode α)) := by
    refine Finset.sum_congr rfl (fun x hx => ?_)
    rw [slot_setSlot, Function.update_of_ne (Finset.ne_of_mem_erase hx)]
  rw [hsplit, hsplit T, hrest, slot_setSlot, Function.update_self]
  abel

theorem pending_link (T : STimer α) (s : Slot) (node : TimerNode α) :
    (T.link s node).pending = T.pending + {node} := by
  have h := pending_setSlot T s (T.slot s ++ [node])
  rw [← Multiset.coe_add, ← add_assoc, add_right_comm] at h
  exact add_right_cancel h

theorem pending_clear (T : STimer α) (s : Slot) :
    (T.setSlot s []).pending + T.slot s = T.pending := by
  simpa using pending_setSlot T s []

@[simp] theorem slot_create (s : Slot) : (timerCreateTimer : STimer α).slot s = [] := by
  cases s <;> rfl

theorem pending_create : (timerCreateTimer : STimer α).pending = 0 := by
  simp [pending]

/-- Moving the clock moves no node. -/
theorem pending_time (T : STimer α) (n : Nat) :
    ({ T with time := n } : STimer α).pending = T.pending :=
  Finset.sum_congr rfl (fun s _ => by cases s <;> rfl)

-- 512 slots: the sum is only ever used through the lemmas above
attribute [irreducible] pending

end STimer

/-! ## Where a node waits -/

/--
A node due at tick `D` may sit in slot `s` when `n` ticks have passed. In `near`
its tick is not before `a`; in a level its block does not start before `b`. The
two bounds move separately because one tick first cascades and then hands over.
The dead slots hold just the nodes whose `add_timer` did not avoid them.
-/
def Waits (a b n D : Nat) (kept : Prop) : Slot → Prop
  | .inl j => kept ∧ j.val = D % 256 ∧ a ≤ D ∧ D < n + 256
  | .inr (i, j) => j.val = D / block i % 64 ∧
      (if j.val = 0 ∧ i.val < 3 then ¬ kept
       else kept ∧ b ≤ D - D % block i ∧ D < n + 64 * block i)

theorem block_zero : block 0 = 256 := rfl
theorem block_one : block 1 = 16384 := rfl
theorem block_two : block 2 = 1048576 := rfl
theorem block_three : block 3 = 67108864 := rfl

/-- A node at least one block away, and less than a turn, may wait in that level. -/
theorem waits_level {a n D : Nat} {kept : Prop} {i : Fin 4} {j : Fin timeLevel}
    (hj : j.val = D / block i % 64) (hlo : block i ≤ D - n) (hhi : D < n + 64 * block i)
    (hkept : kept ↔ ¬ Dead (.inr (i, j))) : Waits a (n + 1) n D kept (.inr (i, j)) := by
  refine ⟨hj, ?_⟩
  split
  · rename_i h; exact fun hk => hkept.mp hk h
  · rename_i h
    have hpos : 0 < block i := Nat.two_pow_pos _
    have := Nat.mod_lt D hpos
    exact ⟨hkept.mpr h, by omega, hhi⟩

/-- Filing a node puts it where it may wait, from the next tick on for a level. -/
theorem waits_fileSlot {a n D : Nat} {kept : Prop} (ha : a ≤ D) (hfit : D - n < wordSize)
    (hkept : kept ↔ ¬ Dead (fileSlot (D - n) (D % wordSize))) :
    Waits a (n + 1) n D kept (fileSlot (D - n) (D % wordSize)) := by
  rw [wordSize_eq] at *
  revert hkept
  rw [fileSlot]
  split_ifs <;> intro hkept
  · rw [Waits, nearIdx_val]
    exact ⟨hkept.mpr (fun h => h), by omega, ha, by omega⟩
  · refine waits_level ?_ ?_ ?_ hkept <;>
      simp only [levelIdx_val, Nat.shiftRight_eq_div_pow, block_zero, Nat.reducePow] <;> omega
  · refine waits_level ?_ ?_ ?_ hkept <;>
      simp only [levelIdx_val, Nat.shiftRight_eq_div_pow, block_one, Nat.reducePow] <;> omega
  · refine waits_level ?_ ?_ ?_ hkept <;>
      simp only [levelIdx_val, Nat.shiftRight_eq_div_pow, block_two, Nat.reducePow] <;> omega
  · refine waits_level ?_ ?_ ?_ hkept <;>
      simp only [levelIdx_val, Nat.shiftRight_eq_div_pow, block_three, Nat.reducePow] <;> omega

/-- The clock, at tick `n`, has just entered the block of slot `j` of level `i`. -/
structure Enters (n : Nat) (i : Fin 4) (j : Fin timeLevel) : Prop where
  aligned : n % block i = 0
  index : n / block i % 64 = j.val
  live : ¬ (j.val = 0 ∧ i.val < 3)

/-- At most one slot is entered at a time. -/
theorem Enters.unique {n : Nat} {i i' : Fin 4} {j j' : Fin timeLevel}
    (h : Enters n i j) (h' : Enters n i' j') : i = i' ∧ j = j' := by
  obtain ⟨h₁, h₂, h₃⟩ := h
  obtain ⟨h₁', h₂', h₃'⟩ := h'
  have hi : i = i' := by
    fin_cases i <;> fin_cases i' <;>
      simp [block_zero, block_one, block_two, block_three] at * <;> omega
  subst hi
  exact ⟨rfl, Fin.ext (by omega)⟩

/-- Everything in the slot being entered is due within that block. -/
theorem Enters.due {n D : Nat} {kept : Prop} {i : Fin 4} {j : Fin timeLevel}
    (h : Enters n i j) (hw : Waits n n n D kept (.inr (i, j))) :
    kept ∧ n ≤ D ∧ D - n < block i := by
  obtain ⟨h₁, h₂, h₃⟩ := h
  obtain ⟨hj, hw⟩ := hw
  rw [if_neg h₃] at hw
  obtain ⟨hk, hw⟩ := hw
  refine ⟨hk, ?_⟩
  fin_cases i <;> simp [block_zero, block_one, block_two, block_three] at * <;> omega

/-- What is due within the block just entered is never filed in a dead slot. -/
theorem Enters.refile {n D : Nat} {i : Fin 4} {j : Fin timeLevel} (h : Enters n i j)
    (hn : n ≤ D) (hD : D - n < block i) : ¬ Dead (fileSlot (D - n) (D % wordSize)) := by
  obtain ⟨h₁, -, -⟩ := h
  rw [fileSlot, wordSize_eq]
  split_ifs <;> simp only [Dead, levelIdx_val, Nat.shiftRight_eq_div_pow, Nat.reducePow,
    not_false_eq_true]
  all_goals fin_cases i <;> simp [block_zero, block_one, block_two, block_three] at * <;> omega

/-- A slot that is not the one being entered keeps waiting through the tick. -/
theorem waits_of_not_entered {n D : Nat} {kept : Prop} {s : Slot} (hw : Waits n n n D kept s)
    (hs : ∀ i j, s = .inr (i, j) → ¬ Enters n i j) : Waits n (n + 1) n D kept s := by
  rcases s with j | ⟨i, j⟩
  · exact hw
  · obtain ⟨hj, hw⟩ := hw
    refine ⟨hj, ?_⟩
    split
    · rename_i h; rwa [if_pos h] at hw
    · rename_i h
      rw [if_neg h] at hw
      obtain ⟨hk, hw, hturn⟩ := hw
      refine ⟨hk, ?_, hturn⟩
      by_contra hlt
      -- otherwise the node's block starts exactly now
      have hpos : 0 < block i := Nat.two_pow_pos _
      have hdiv := Nat.div_add_mod D (block i)
      have hn : n = block i * (D / block i) := by omega
      refine hs i j rfl ⟨?_, ?_, h⟩
      · rw [hn]; exact Nat.mul_mod_right _ _
      · rw [hj, hn, Nat.mul_div_cancel_left _ hpos]

/-! ## One tick of the clock -/

/--
One round of the loop, at level `i`: `mask` is the block size of the level and
`time` counts blocks.
-/
theorem shiftLoop_round (T : STimer α) (ct rounds : Nat) (i : Fin 4) :
    T.shiftLoop ct (rounds + 1) i (block i) (ct / block i) =
      if ct % block i = 0 then
        if ct / block i % 64 ≠ 0 then some (T.moveList i (levelIdx (ct / block i)))
        else T.shiftLoop ct rounds (i + 1) (64 * block i) (ct / (64 * block i))
      else some T := by
  have hmask : block i <<< timeLevelShift = 64 * block i := by
    rw [Nat.shiftLeft_eq, Nat.mul_comm]; rfl
  have htime : (ct / block i) >>> timeLevelShift = ct / (64 * block i) := by
    rw [Nat.shiftRight_eq_div_pow, Nat.div_div_eq_div_mul, Nat.mul_comm]; rfl
  have hand : ct &&& (block i - 1) = ct % block i := Nat.and_two_pow_sub_one_eq_mod _ _
  rw [STimer.shiftLoop, hmask, htime, hand]
  by_cases h₁ : ct % block i = 0
  · by_cases h₂ : ct / block i % 64 = 0 <;> simp [h₁, h₂, levelIdx_val]
  · simp [h₁]

/-- The loop's test and index at level `i` say whether the clock enters a slot there. -/
theorem enters_of_index {n : Nat} {i : Fin 4} (h₁ : n % wordSize % block i = 0)
    (h₂ : n % wordSize / block i % 64 ≠ 0) :
    Enters n i (levelIdx (n % wordSize / block i)) := by
  refine ⟨?_, ?_, fun h => h₂ (by rw [← levelIdx_val]; exact h.1)⟩ <;>
    (try rw [levelIdx_val]) <;> rw [wordSize_eq] at *
  all_goals fin_cases i <;>
    simp [block_zero, block_one, block_two, block_three] at * <;> omega

/--
The loop of `timer_shift` ends within the four levels unless the clock is zero,
and either moves the list of the slot the clock enters, or no slot is entered.
-/
theorem shiftLoop_spec (T : STimer α) {n : Nat} (hn : n % wordSize ≠ 0) :
    ∃ T', T.shiftLoop (n % wordSize) 4 0 (block 0) (n % wordSize / block 0) = some T' ∧
      ((∃ i j, Enters n i j ∧ T' = T.moveList i j) ∨
        ((∀ i j, ¬ Enters n i j) ∧ T' = T)) := by
  have hr0 := shiftLoop_round T (n % wordSize) 3 0
  have hr1 := shiftLoop_round T (n % wordSize) 2 1
  have hr2 := shiftLoop_round T (n % wordSize) 1 2
  have hr3 := shiftLoop_round T (n % wordSize) 0 3
  have hmove (i : Fin 4) (h₁ : n % wordSize % block i = 0)
      (h₂ : n % wordSize / block i % 64 ≠ 0) :
      ∃ T', some (T.moveList i (levelIdx (n % wordSize / block i))) = some T' ∧
        ((∃ i j, Enters n i j ∧ T' = T.moveList i j) ∨ ((∀ i j, ¬ Enters n i j) ∧ T' = T)) :=
    ⟨_, rfl, Or.inl ⟨i, _, enters_of_index h₁ h₂, rfl⟩⟩
  by_cases h₀ : n % wordSize % block 0 = 0
  · by_cases g₀ : n % wordSize / block 0 % 64 ≠ 0
    · rw [if_pos h₀, if_pos g₀] at hr0
      exact hr0 ▸ hmove 0 h₀ g₀
    have h₁ : n % wordSize % block 1 = 0 := by
      rw [block_zero] at h₀ g₀; rw [block_one]; omega
    rw [if_pos h₀, if_neg g₀] at hr0
    by_cases g₁ : n % wordSize / block 1 % 64 ≠ 0
    · rw [if_pos h₁, if_pos g₁] at hr1
      exact hr0.trans hr1 ▸ hmove 1 h₁ g₁
    have h₂ : n % wordSize % block 2 = 0 := by
      rw [block_one] at h₁ g₁; rw [block_two]; omega
    rw [if_pos h₁, if_neg g₁] at hr1
    by_cases g₂ : n % wordSize / block 2 % 64 ≠ 0
    · rw [if_pos h₂, if_pos g₂] at hr2
      exact (hr0.trans hr1).trans hr2 ▸ hmove 2 h₂ g₂
    have h₃ : n % wordSize % block 3 = 0 := by
      rw [block_two] at h₂ g₂; rw [block_three]; omega
    -- a nonzero clock with its low 26 bits clear has a nonzero top index
    have g₃ : n % wordSize / block 3 % 64 ≠ 0 := by
      rw [block_three] at h₃ ⊢; rw [wordSize_eq] at *; omega
    rw [if_pos h₂, if_neg g₂] at hr2
    rw [if_pos h₃, if_pos g₃] at hr3
    exact ((hr0.trans hr1).trans hr2).trans hr3 ▸ hmove 3 h₃ g₃
  · rw [if_neg h₀] at hr0
    refine ⟨T, hr0, Or.inr ⟨fun i j h => h₀ ?_, rfl⟩⟩
    have h₁ := h.aligned
    rw [wordSize_eq, block_zero]
    fin_cases i <;> simp [block_zero, block_one, block_two, block_three] at h₁ <;> omega

/--
`timer_shift` goes through, and either moves the list of the one slot the clock
enters, or no slot is entered.
-/
theorem timerShift_spec (T : STimer α) {n : Nat} (hn : T.time = n % wordSize) :
    ∃ T', T.timerShift = some T' ∧
      ((∃ i j, Enters (n + 1) i j ∧
          T' = ({ T with time := (n + 1) % wordSize } : STimer α).moveList i j) ∨
        ((∀ i j, ¬ Enters (n + 1) i j) ∧ T' = { T with time := (n + 1) % wordSize })) := by
  have hct : addU32 T.time 1 = (n + 1) % wordSize := by rw [hn, addU32_mod]
  simp only [STimer.timerShift, hct]
  split
  · rename_i h0
    rw [wordSize_eq] at h0
    have hal : (n + 1) % block 3 = 0 := by rw [block_three]; omega
    have hix : (n + 1) / block 3 % 64 = 0 := by rw [block_three]; omega
    exact ⟨_, rfl, Or.inl ⟨3, ⟨0, by decide⟩, ⟨hal, hix, by simp⟩, rfl⟩⟩
  · rename_i h0
    have hstart : ((n + 1) % wordSize) >>> timeNearShift = (n + 1) % wordSize / block 0 := by
      rw [Nat.shiftRight_eq_div_pow]; rfl
    rw [hstart]
    exact shiftLoop_spec _ h0

end CppTrack.TimeWheel
