import CppTrack.Lib.Run
import CppTrack.Locks.LockTable
import Mathlib.Data.List.Nodup

/-!
# How large the table gets

Threads lock and unlock one after another and none of them waits. An entry is emptied at the
unlock and used again for the next lock, but `lockidx` goes up at every lock all the same. So
the table is right for as long as there are at most `MAX` locks in all, however few are held.
-/

namespace CppTrack.Locks

open Lib

/-- A lock or an unlock with its hooks. -/
inductive TableOp
  | lock (threadId lockaddr : Nat)
  | unlock (threadId lockaddr : Nat)

/-- The table, and the mutexes that are held with their holders. -/
structure Table where
  tg : TaskGraph
  held : List (Nat × Nat)

/-- Nobody waits, at most `MAX` mutexes are held, and one is unlocked by its holder. -/
def Legal (held : List (Nat × Nat)) : TableOp → Prop
  | .lock _ lockaddr => lockaddr ≠ 0 ∧ (∀ u, (lockaddr, u) ∉ held) ∧ held.length < maxVertices
  | .unlock threadId lockaddr => (lockaddr, threadId) ∈ held

/-- The mutexes that are held after an operation. -/
def heldAfter (held : List (Nat × Nat)) : TableOp → List (Nat × Nat)
  | .lock threadId lockaddr => (lockaddr, threadId) :: held
  | .unlock threadId lockaddr => held.erase (lockaddr, threadId)

/-- Every operation is legal. -/
def LegalRun : (held : List (Nat × Nat)) → List TableOp → Prop
  | _, [] => True
  | held, op :: ops => Legal held op ∧ LegalRun (heldAfter held op) ops

/-- `pthread_mutex_lock` and `pthread_mutex_unlock`, hooks included. -/
def tableStep (s : Table) (op : TableOp) : Option Table :=
  (match op with
    | .lock threadId lockaddr =>
        (lockBefore s.tg threadId lockaddr).bind fun tg => lockAfter tg threadId lockaddr
    | .unlock _ lockaddr => unlockAfter s.tg lockaddr).map
  fun tg => { tg := tg, held := heldAfter s.held op }

def startTable : Table := ⟨emptyTaskGraph, []⟩

/-- The table has not outgrown its array, and every held mutex is in one entry, with its holder. -/
def TableRight (s : Table) : Prop :=
  s.tg.lockidx ≤ maxVertices ∧ ∀ x ∈ s.held, ∃ i,
    (i < s.tg.lockidx ∧ (s.tg.locklist i).lockId = x.1 ∧ (s.tg.locklist i).id = x.2) ∧
      ∀ j, j < s.tg.lockidx → (s.tg.locklist j).lockId = x.1 → j = i

/-- An operation touches no more than the array and leaves the table right. -/
def LeavesRight (s : Table) (op : TableOp) : Prop := ∃ s', tableStep s op = some s' ∧ TableRight s'

/-- How many locks there are. -/
def locks (ops : List TableOp) : Nat :=
  ops.countP fun op => match op with
    | .lock _ _ => true
    | .unlock _ _ => false

/-- What holds after `n` locks. -/
structure TableOk (n : Nat) (s : Table) : Prop where
  lockidx : s.tg.lockidx = n
  room : n ≤ maxVertices
  keys : (s.held.map Prod.fst).Nodup
  nonzero : ∀ x ∈ s.held, x.1 ≠ 0
  degress : ∀ i, (s.tg.locklist i).degress = 0
  entry : ∀ i, (s.tg.locklist i).lockId ≠ 0 →
    i < n ∧ ((s.tg.locklist i).lockId, (s.tg.locklist i).id) ∈ s.held
  found : ∀ x ∈ s.held, ∃ i, i < n ∧ (s.tg.locklist i).lockId = x.1 ∧ (s.tg.locklist i).id = x.2
  unique : ∀ i j, (s.tg.locklist i).lockId ≠ 0 →
    (s.tg.locklist i).lockId = (s.tg.locklist j).lockId → i = j

section

variable {locklist : Nat → Lock} {p : Lock → Bool} {n i : Nat} {s : Table}
  {threadId lockaddr : Nat}

/-! ## Searching -/

theorem scan_eq_some {r : Nat} (hr : i ≤ r) (hrn : r < i + n) (hn : i + n ≤ maxVertices)
    (hp : p (locklist r) = true) (hfirst : ∀ j, i ≤ j → j < r → p (locklist j) = false) :
    scan locklist p n i = some (some r) := by
  induction n generalizing i with
  | zero => omega
  | succ n ih =>
      rw [scan, if_pos (by omega)]
      by_cases hir : i = r
      · rw [hir, if_pos hp]
      · rw [hfirst i (Nat.le_refl i) (by omega), if_neg (by simp)]
        exact ih (by omega) (by omega) (by omega) fun j hj => hfirst j (by omega)

theorem scan_eq_none (hn : i + n ≤ maxVertices)
    (hall : ∀ j, i ≤ j → j < i + n → p (locklist j) = false) :
    scan locklist p n i = some none := by
  induction n generalizing i with
  | zero => rfl
  | succ n ih =>
      rw [scan, if_pos (by omega), hall i (Nat.le_refl i) (by omega), if_neg (by simp)]
      exact ih (by omega) fun j hj hjn => hall j (by omega) (by omega)

/-- Within the array the search ends, at the first entry or at none. -/
theorem scan_cases (hn : i + n ≤ maxVertices) :
    (scan locklist p n i = some none ∧ ∀ j, i ≤ j → j < i + n → p (locklist j) = false) ∨
      ∃ r, scan locklist p n i = some (some r) ∧ i ≤ r ∧ r < i + n ∧ p (locklist r) = true := by
  induction n generalizing i with
  | zero => exact .inl ⟨rfl, fun j hj hjn => by omega⟩
  | succ n ih =>
      rw [scan, if_pos (show i < maxVertices by omega)]
      by_cases hp : p (locklist i) = true
      · exact .inr ⟨i, if_pos hp, Nat.le_refl i, by omega, hp⟩
      · rw [if_neg hp]
        rcases ih (i := i + 1) (by omega) with ⟨hscan, hall⟩ | ⟨r, hscan, hr, hrn, hpr⟩
        · refine .inl ⟨hscan, fun j hj hjn => ?_⟩
          by_cases hij : j = i
          · rw [hij]
            simpa using hp
          · exact hall j (by omega) (by omega)
        · exact .inr ⟨r, hscan, by omega, by omega, hpr⟩

/-- What is found passes the test. -/
theorem scan_spec {r : Nat} (h : scan locklist p n i = some (some r)) : p (locklist r) = true := by
  induction n generalizing i with
  | zero => exact absurd h nofun
  | succ n ih =>
      rw [scan] at h
      split at h
      · split at h
        · rename_i hp
          rw [← Option.some.inj (Option.some.inj h)]
          exact hp
        · exact ih h
      · exact absurd h nofun

theorem searchLock_none {tg : TaskGraph} (hn : tg.lockidx ≤ maxVertices)
    (h : ∀ j, j < tg.lockidx → (tg.locklist j).lockId ≠ lockaddr) :
    searchLock tg lockaddr = some none :=
  scan_eq_none (by omega) fun j _ hj => by simpa using h j (by omega)

theorem searchLock_some {tg : TaskGraph} (hn : tg.lockidx ≤ maxVertices) (hi : i < tg.lockidx)
    (hlock : (tg.locklist i).lockId = lockaddr)
    (hunique : ∀ j, j < tg.lockidx → (tg.locklist j).lockId = lockaddr → j = i) :
    searchLock tg lockaddr = some (some i) :=
  scan_eq_some (Nat.zero_le i) (by omega) (by omega) (by simpa using hlock) fun j _ hj => by
    by_contra hne
    have := hunique j (by omega) (by simpa using hne)
    omega

/-- Where a new entry goes. -/
theorem searchEmptyLock_eq {tg : TaskGraph} (hn : tg.lockidx ≤ maxVertices)
    (hbound : ∀ j, (tg.locklist j).lockId ≠ 0 → j < tg.lockidx) :
    ∃ e, searchEmptyLock tg = some e ∧ e ≤ tg.lockidx ∧ (tg.locklist e).lockId = 0 := by
  unfold searchEmptyLock
  rcases scan_cases (p := fun l => l.lockId = 0) (show 0 + tg.lockidx ≤ maxVertices by omega) with
    ⟨hscan, -⟩ | ⟨r, hscan, -, hr, hp⟩
  · refine ⟨tg.lockidx, by rw [hscan]; rfl, Nat.le_refl _, ?_⟩
    by_contra hne
    exact Nat.lt_irrefl _ (hbound _ hne)
  · exact ⟨r, by rw [hscan]; rfl, by omega, of_decide_eq_true hp⟩

/-- Without an entry for the mutex `lock_before` does nothing. -/
theorem lockBefore_absent {tg : TaskGraph} (hn : tg.lockidx ≤ maxVertices)
    (h : ∀ j, j < tg.lockidx → (tg.locklist j).lockId ≠ lockaddr) :
    lockBefore tg threadId lockaddr = some tg := by
  obtain ⟨tg', hfold, rfl⟩ := foldlM_inv (f := beforeEntry threadId lockaddr) (fun _ t => t = tg)
    (List.range tg.lockidx) (s := tg) (fun i idx t hidx ht => by
      obtain ⟨hi, rfl⟩ := List.getElem?_eq_some_iff.mp hidx
      rw [List.length_range] at hi
      subst ht
      refine ⟨t, ?_, rfl⟩
      unfold beforeEntry
      rw [List.getElem_range, if_pos (by omega)]
      exact if_neg (h i hi)) rfl
  exact hfold

/-! ## Operations -/

theorem TableOk.right (h : TableOk n s) : TableRight s := by
  refine ⟨h.lockidx ▸ h.room, fun x hx => ?_⟩
  obtain ⟨i, hi, hlock, hid⟩ := h.found x hx
  refine ⟨i, ⟨h.lockidx ▸ hi, hlock, hid⟩, fun j _ hj => ?_⟩
  exact (h.unique i j (hlock ▸ h.nonzero x hx) (hlock.trans hj.symm)).symm

theorem unlock_ok (h : TableOk n s) (hlegal : Legal s.held (.unlock threadId lockaddr)) :
    ∃ s', tableStep s (.unlock threadId lockaddr) = some s' ∧ TableOk n s' := by
  obtain ⟨i, hi, hlock, hid⟩ := h.found _ hlegal
  simp only at hlock hid
  have hne : lockaddr ≠ 0 := h.nonzero _ hlegal
  have hsearch : searchLock s.tg lockaddr = some (some i) :=
    searchLock_some (h.lockidx ▸ h.room) (h.lockidx ▸ hi) hlock
      fun j _ hj => (h.unique i j (hlock ▸ hne) (hlock.trans hj.symm)).symm
  have hself : Function.update s.tg.locklist i ⟨0, 0, 0⟩ i = ⟨0, 0, 0⟩ := Function.update_self ..
  have hother : ∀ j, j ≠ i → Function.update s.tg.locklist i ⟨0, 0, 0⟩ j = s.tg.locklist j :=
    fun j hj => Function.update_of_ne hj ..
  refine ⟨⟨s.tg.setLock i ⟨0, 0, 0⟩, s.held.erase (lockaddr, threadId)⟩, ?_, ?_⟩
  · unfold tableStep unlockAfter heldAfter
    simp only [hsearch, Option.bind_eq_bind, Option.bind_some, h.degress i, if_true]
    rfl
  have hheld : ∀ x, x ∈ s.held.erase (lockaddr, threadId) ↔ x ∈ s.held ∧ x.1 ≠ lockaddr := by
    intro x
    rw [(List.Nodup.of_map _ h.keys).mem_erase_iff, and_comm]
    refine and_congr_right fun hx => not_congr ⟨fun heq => heq ▸ rfl, fun heq => ?_⟩
    exact List.inj_on_of_nodup_map h.keys hx hlegal heq
  refine ⟨h.lockidx, h.room, h.keys.sublist (List.erase_sublist.map _),
    fun x hx => h.nonzero x ((hheld x).mp hx).1, fun j => ?_, fun j hj => ?_, fun x hx => ?_,
    fun j k hj hjk => ?_⟩ <;> simp only [TaskGraph.setLock] at *
  · by_cases hji : j = i
    · rw [hji, hself]
    · rw [hother j hji]
      exact h.degress j
  · by_cases hji : j = i
    · rw [hji, hself] at hj
      exact absurd rfl hj
    · rw [hother j hji] at hj ⊢
      obtain ⟨hjn, hmem⟩ := h.entry j hj
      refine ⟨hjn, (hheld _).mpr ⟨hmem, fun heq => hji ?_⟩⟩
      exact h.unique j i hj (heq.trans hlock.symm)
  · obtain ⟨hx, hxl⟩ := (hheld x).mp hx
    obtain ⟨j, hj, hjl, hjd⟩ := h.found x hx
    have hji : j ≠ i := fun hji => hxl (hjl.symm.trans (hji ▸ hlock))
    exact ⟨j, hj, by rw [hother j hji]; exact ⟨hjl, hjd⟩⟩
  · have hji : j ≠ i := fun hji => hj (by rw [hji, hself])
    rw [hother j hji] at hj hjk
    by_cases hki : k = i
    · rw [hki, hself] at hjk
      exact absurd hjk hj
    · rw [hother k hki] at hjk
      exact h.unique j k hj hjk

/-- A lock makes `lockidx` larger, wherever the entry is. -/
theorem lock_eq (h : TableOk n s) (hlegal : Legal s.held (.lock threadId lockaddr)) :
    ∃ e, e ≤ n ∧ (s.tg.locklist e).lockId = 0 ∧
      tableStep s (.lock threadId lockaddr) =
        if e < maxVertices then
          some ⟨{ s.tg.setLock e ⟨threadId, lockaddr, 0⟩ with lockidx := s.tg.lockidx + 1 },
            (lockaddr, threadId) :: s.held⟩
        else none := by
  have hroom : s.tg.lockidx ≤ maxVertices := h.lockidx ▸ h.room
  obtain ⟨e, he, hen, hempty⟩ := searchEmptyLock_eq hroom fun j hj => h.lockidx ▸ (h.entry j hj).1
  refine ⟨e, h.lockidx ▸ hen, hempty, ?_⟩
  have habsent : ∀ j, j < s.tg.lockidx → (s.tg.locklist j).lockId ≠ lockaddr := fun j _ hj =>
    hlegal.2.1 _ (hj ▸ (h.entry j (hj ▸ hlegal.1)).2)
  have hentry : (⟨threadId, lockaddr, (s.tg.locklist e).degress⟩ : Lock) =
      ⟨threadId, lockaddr, 0⟩ := by rw [h.degress e]
  unfold tableStep
  simp only [lockBefore_absent hroom habsent, Option.bind_some]
  unfold lockAfter
  simp only [searchLock_none hroom habsent, he, Option.bind_eq_bind, Option.bind_some, hentry]
  split <;> rfl

theorem lock_ok (h : TableOk n s) (hn : n < maxVertices)
    (hlegal : Legal s.held (.lock threadId lockaddr)) :
    ∃ s', tableStep s (.lock threadId lockaddr) = some s' ∧ TableOk (n + 1) s' := by
  obtain ⟨e, hen, hempty, hstep⟩ := lock_eq h hlegal
  rw [if_pos (Nat.lt_of_le_of_lt hen hn)] at hstep
  refine ⟨_, hstep, ?_⟩
  obtain ⟨hne, hfree, -⟩ := hlegal
  have hself : Function.update s.tg.locklist e ⟨threadId, lockaddr, 0⟩ e =
      ⟨threadId, lockaddr, 0⟩ := Function.update_self ..
  have hother : ∀ j, j ≠ e →
      Function.update s.tg.locklist e ⟨threadId, lockaddr, 0⟩ j = s.tg.locklist j :=
    fun j hj => Function.update_of_ne hj ..
  have hnew : ∀ j, (s.tg.locklist j).lockId ≠ lockaddr :=
    fun j hj => hfree _ (hj ▸ (h.entry j (hj ▸ hne)).2)
  refine ⟨congrArg (· + 1) h.lockidx, hn, ?_, fun x hx => ?_, fun j => ?_, fun j hj => ?_,
    fun x hx => ?_,
    fun j k hj hjk => ?_⟩ <;> simp only [TaskGraph.setLock] at *
  · refine List.nodup_cons.mpr ⟨fun hmem => ?_, h.keys⟩
    obtain ⟨⟨m, u⟩, hx, rfl⟩ := List.mem_map.mp hmem
    exact hfree u hx
  · rcases List.mem_cons.mp hx with rfl | hx
    · exact hne
    · exact h.nonzero x hx
  · by_cases hje : j = e
    · rw [hje, hself]
    · rw [hother j hje]
      exact h.degress j
  · by_cases hje : j = e
    · rw [hje, hself]
      exact ⟨Nat.lt_succ_of_le hen, List.mem_cons_self⟩
    · rw [hother j hje] at hj ⊢
      obtain ⟨hjn, hmem⟩ := h.entry j hj
      exact ⟨Nat.lt_succ_of_lt hjn, List.mem_cons_of_mem _ hmem⟩
  · rcases List.mem_cons.mp hx with rfl | hx
    · exact ⟨e, Nat.lt_succ_of_le hen, by rw [hself], by rw [hself]⟩
    · obtain ⟨j, hjn, hjl, hjd⟩ := h.found x hx
      have hje : j ≠ e := fun hje => h.nonzero x hx (hjl.symm.trans (hje ▸ hempty))
      exact ⟨j, Nat.lt_succ_of_lt hjn, by rw [hother j hje]; exact ⟨hjl, hjd⟩⟩
  · by_cases hje : j = e
    · by_cases hke : k = e
      · rw [hje, hke]
      · rw [hje, hself, hother k hke] at hjk
        exact absurd hjk.symm (hnew k)
    · rw [hother j hje] at hj hjk
      by_cases hke : k = e
      · rw [hke, hself] at hjk
        exact absurd hjk (hnew j)
      · rw [hother k hke] at hjk
        exact h.unique j k hj hjk

theorem meets_iff_locks {ops : List TableOp} (h : TableOk n s) (hlegal : LegalRun s.held ops) :
    Meets tableStep LeavesRight s ops ↔ n + locks ops ≤ maxVertices := by
  induction ops generalizing n s with
  | nil => exact iff_of_true trivial h.room
  | cons op ops ih =>
      obtain ⟨hop, hrest⟩ := hlegal
      cases op with
      | unlock threadId lockaddr =>
          obtain ⟨s', hstep, h'⟩ := unlock_ok h hop
          have hheld : s'.held = heldAfter s.held (.unlock threadId lockaddr) := by
            obtain ⟨tg, -, rfl⟩ := Option.map_eq_some_iff.mp hstep
            rfl
          have hlocks : locks (.unlock threadId lockaddr :: ops) = locks ops :=
            List.countP_cons_of_neg (by simp)
          rw [hlocks, ← ih h' (hheld ▸ hrest)]
          constructor
          · exact fun hmeets => hmeets.2 s' hstep
          · refine fun hmeets => ⟨⟨s', hstep, h'.right⟩, fun t ht => ?_⟩
            exact Option.some.inj (hstep.symm.trans ht) ▸ hmeets
      | lock threadId lockaddr =>
          have hlocks : locks (.lock threadId lockaddr :: ops) = locks ops + 1 :=
            List.countP_cons_of_pos (by simp)
          by_cases hn : n < maxVertices
          · obtain ⟨s', hstep, h'⟩ := lock_ok h hn hop
            have hheld : s'.held = heldAfter s.held (.lock threadId lockaddr) := by
              obtain ⟨tg, -, rfl⟩ := Option.map_eq_some_iff.mp hstep
              rfl
            rw [hlocks, show n + (locks ops + 1) = n + 1 + locks ops by omega,
              ← ih h' (hheld ▸ hrest)]
            constructor
            · exact fun hmeets => hmeets.2 s' hstep
            · refine fun hmeets => ⟨⟨s', hstep, h'.right⟩, fun t ht => ?_⟩
              exact Option.some.inj (hstep.symm.trans ht) ▸ hmeets
          · -- the array is used up
            refine iff_of_false (fun hmeets => ?_) (by omega)
            obtain ⟨s', hstep, hright, -⟩ := hmeets.1
            obtain ⟨e, -, -, heq⟩ := lock_eq h hop
            rw [heq] at hstep
            split at hstep
            · rw [← Option.some.inj hstep] at hright
              simp only [h.lockidx] at hright
              omega
            · exact absurd hstep nofun

theorem startTable_ok : TableOk 0 startTable where
  lockidx := rfl
  room := Nat.zero_le _
  keys := List.nodup_nil
  nonzero _ hx := absurd hx List.not_mem_nil
  degress _ := rfl
  entry _ h := absurd rfl h
  found _ hx := absurd hx List.not_mem_nil
  unique _ _ h := absurd rfl h

end

/--
**The table stays within its array if and only if there are at most `MAX` locks.** That is
for any legal run of locks and unlocks, and then every held mutex is in one entry, with its
holder.
-/
theorem table_right_iff (ops : List TableOp) (hlegal : LegalRun [] ops) :
    Meets tableStep LeavesRight startTable ops ↔ locks ops ≤ maxVertices := by
  rw [meets_iff_locks startTable_ok hlegal, Nat.zero_add]

/-- A thread locks and unlocks the same mutex, again and again. -/
def lockings : (n : Nat) → List TableOp
  | 0 => []
  | n + 1 => .lock 1 7 :: .unlock 1 7 :: lockings n

theorem lockings_legal (n : Nat) : LegalRun [] (lockings n) := by
  induction n with
  | zero => trivial
  | succ n ih => exact ⟨⟨by decide, fun u => List.not_mem_nil, by decide⟩, List.mem_cons_self, ih⟩

theorem table_right_twice :
    Meets tableStep LeavesRight startTable (lockings 2) ↔ locks (lockings 2) ≤ maxVertices :=
  table_right_iff (lockings 2) (lockings_legal 2)

/-- After 101 times `lockidx` has passed the array, with never more than one mutex held. -/
theorem table_outgrown : ¬ Meets tableStep LeavesRight startTable (lockings 101) := by
  rw [meets_iff_locks startTable_ok (lockings_legal 101)]
  decide +kernel

end CppTrack.Locks
