import CppTrack.Lib.Prefix
import CppTrack.Timers.RbTimer
import Mathlib.Data.Finset.Max

/-!
# What the red-black timers do around the wrap of the clock

The tree is ordered by the wrapped difference of the keys, which is the order of the true times as
long as they lie within half a turn of the clock. `expire_timer` compares the keys with the clock
as they are. So it finds the timers that are due if and only if the clock has not wrapped between
them and now, and does not wrap before the next one.
-/

namespace CppTrack.RbTimer

open Lib

/-- No entry is behind one to its left. -/
def Ordered (t : Tree) : Prop := t.entries.Pairwise fun a b => 0 ≤ ahead a.key b.key

/-- The leftmost entry is a minimum of the order of insertion. -/
def MinFirst (t : Tree) : Prop :=
  ∀ m ∈ t.min, ∀ e ∈ t.entries, ¬ (e.key - m.key).toInt < 0

def due (now : BitVec 32) (e : TimerEntry) : Bool := remaining now e ≤ 0

/-- What `expire_timer` takes for due. -/
def passed (now : BitVec 32) (e : TimerEntry) : Bool := e.key ≤ now

/-- `expire_timer` runs the timers that are due, in their order, and keeps the others, and
`find_nearest_expire_timer` says whether there are any. -/
def ExpiryRight (B : Balance) (t : Tree) (now : BitVec 32) : Prop :=
  ∃ left ran, expireTimer B t now = some (left, ran) ∧
    ran.Perm (t.entries.filter (due now)) ∧
    ran.Pairwise (fun a b => remaining now a ≤ remaining now b) ∧
    left.entries.Perm (t.entries.filter fun e => !due now e) ∧
    (findNearestExpireTimer t now = 0 ↔ ran ≠ [])

/-- The clock has not wrapped since a timer that is due, and will not until the first that is
not. -/
def ClockAgrees (t : Tree) (now : BitVec 32) : Prop :=
  (∀ e ∈ t.entries, remaining now e ≤ 0 → e.key ≤ now) ∧
    ∀ e ∈ t.entries, 0 < remaining now e →
      (∀ e' ∈ t.entries, 0 < remaining now e' → remaining now e ≤ remaining now e') → now < e.key

/-- What `find_nearest_expire_timer` should say: negative only if there is no timer, 0 if the
earliest is due, and else how long it is until then. -/
def SleepRight (find : Tree → BitVec 32 → Int) (t : Tree) (now : BitVec 32) : Prop :=
  (find t now < 0 → t.entries = []) ∧
    ∀ e ∈ t.entries, (∀ e' ∈ t.entries, remaining now e ≤ remaining now e') →
      (remaining now e ≤ 0 → find t now = 0) ∧
        (0 < remaining now e → find t now = remaining now e)

section

variable {B : Balance} {t t' l r : Tree} {e m : TimerEntry} {now base key : BitVec 32}

/-! ## The tree is the list of its entries -/

theorem Tree.Rotates.entries_eq (h : Tree.Rotates t t') : t'.entries = t.entries := by
  induction h with
  | refl => rfl
  | trans _ _ ih₁ ih₂ => exact ih₂.trans ih₁
  | left a x b y c => simp [Tree.entries]
  | right a x b y c => simp [Tree.entries]
  | inLeft x r _ ih => simp only [Tree.entries, ih]
  | inRight l x _ ih => simp only [Tree.entries, ih]

theorem Tree.min_eq (t : Tree) : t.min = t.entries.head? := by
  fun_induction Tree.min t with
  | case1 => rfl
  | case2 entry right => rfl
  | case3 left e right entry right' ih =>
      rw [ih]
      simp [Tree.entries]

theorem Tree.dropMin_entries (t : Tree) : t.dropMin.entries = t.entries.tail := by
  fun_induction Tree.dropMin t with
  | case1 => rfl
  | case2 entry right => rfl
  | case3 left e right entry right' ih =>
      rw [Tree.entries, ih]
      refine (List.tail_append_of_ne_nil ?_).symm
      simp [Tree.entries]

theorem Tree.join_entries (l r : Tree) : (Tree.join l r).entries = l.entries ++ r.entries := by
  have hmin := r.min_eq
  unfold Tree.join
  split
  · rfl
  · rename_i hnone
    rw [hnone] at hmin
    rw [List.head?_eq_none_iff.mp hmin.symm, List.append_nil]
  · rename_i subst _ hsome
    rw [hsome] at hmin
    rw [Tree.entries, Tree.dropMin_entries]
    obtain ⟨rest, hrest⟩ := List.head?_eq_some_iff.mp hmin.symm
    rw [hrest]
    rfl

theorem Tree.unlink_entries (e : TimerEntry) (t : Tree) :
    (t.unlink e).entries = t.entries.erase e := by
  induction t with
  | sentinel => rfl
  | node left entry right ihl ihr =>
      unfold Tree.unlink
      split
      · rename_i hmem
        rw [Tree.entries, Tree.entries, ihl, List.erase_append_left _ hmem]
      · rename_i hmem
        rw [Tree.entries, List.erase_append_right _ hmem]
        split
        · rename_i heq
          rw [Tree.join_entries, heq, List.erase_cons_head]
        · rename_i hne
          rw [Tree.entries, ihr, List.erase_cons_tail (by simpa using hne)]

theorem delTimer_entries (B : Balance) (t : Tree) (e : TimerEntry) :
    (delTimer B t e).entries = t.entries.erase e :=
  (B.deleted_rotates _).entries_eq.trans (t.unlink_entries e)

/-! ## The tree keeps the order of its insertions -/

/-- A new entry comes to lie behind those that are not ahead of it, and before the others. -/
theorem Tree.insertTimerValue_entries (hord : Ordered t) (hwin : InWindow base t e.key) :
    ∃ l₁ l₂, t.entries = l₁ ++ l₂ ∧ (t.insertTimerValue e).entries = l₁ ++ e :: l₂ ∧
      (∀ a ∈ l₁, 0 ≤ ahead a.key e.key) ∧ ∀ b ∈ l₂, 0 ≤ ahead e.key b.key := by
  induction t with
  | sentinel => exact ⟨[], [], rfl, rfl, by simp, by simp⟩
  | node left temp right ihl ihr =>
      obtain ⟨hold, hnew⟩ := hwin
      obtain ⟨hleft, hrest, hacross⟩ := List.pairwise_append.mp hord
      obtain ⟨htemp, hright⟩ := List.pairwise_cons.mp hrest
      have hmem : ∀ a, a ∈ left.entries ∨ a = temp ∨ a ∈ right.entries → Within base a.key := by
        intro a ha
        exact hold a (by simpa [Tree.entries] using ha)
      have hwtemp := hmem temp (.inr (.inl rfl))
      unfold Tree.insertTimerValue
      split
      · rename_i hlt
        obtain ⟨l₁, l₂, hsplit, hins, hbelow, habove⟩ :=
          ihl hleft ⟨fun a ha => hmem a (.inl ha), hnew⟩
        refine ⟨l₁, l₂ ++ temp :: right.entries, by simp [Tree.entries, hsplit],
          by simp [Tree.entries, hins], hbelow, fun b hb => ?_⟩
        have hpast : ahead base e.key < ahead base temp.key := by
          have hneg : ahead temp.key e.key < 0 := hlt
          rw [ahead_sub hwtemp hnew] at hneg
          omega
        rcases List.mem_append.mp hb with hb | hb
        · exact habove b hb
        · rcases List.mem_cons.mp hb with rfl | hb
          · rw [ahead_le_iff hnew hwtemp]
            omega
          · -- It is not behind `temp`, and so not behind the new entry.
            have hwb := hmem b (.inr (.inr hb))
            have hle := (ahead_le_iff hwtemp hwb).mp (htemp b hb)
            rw [ahead_le_iff hnew hwb]
            omega
      · rename_i hge
        obtain ⟨l₁, l₂, hsplit, hins, hbelow, habove⟩ :=
          ihr hright ⟨fun a ha => hmem a (.inr (.inr ha)), hnew⟩
        refine ⟨left.entries ++ temp :: l₁, l₂, by simp [Tree.entries, hsplit],
          by simp [Tree.entries, hins], fun a ha => ?_, habove⟩
        have hpast : ahead base temp.key ≤ ahead base e.key := by
          have hpos : ¬ ahead temp.key e.key < 0 := hge
          rw [ahead_sub hwtemp hnew] at hpos
          omega
        rcases List.mem_append.mp ha with ha | ha
        · have hwa := hmem a (.inl ha)
          have hle := (ahead_le_iff hwa hwtemp).mp (hacross a ha temp List.mem_cons_self)
          rw [ahead_le_iff hwa hnew]
          omega
        · rcases List.mem_cons.mp ha with rfl | ha
          · rw [ahead_le_iff hwtemp hnew]
            omega
          · exact hbelow a ha

theorem Ordered.add {addr : Nat} {msec clock : BitVec 32} (hord : Ordered t)
    (hwin : InWindow base t (msec + clock)) : Ordered (addTimer B t addr msec clock) := by
  obtain ⟨l₁, l₂, hsplit, hins, hbelow, habove⟩ :=
    Tree.insertTimerValue_entries (e := ⟨addr, msec + clock⟩) hord hwin
  unfold Ordered addTimer
  rw [(B.inserted_rotates _).entries_eq, hins]
  unfold Ordered at hord
  rw [hsplit] at hord
  obtain ⟨h₁, h₂, hacross⟩ := List.pairwise_append.mp hord
  refine List.pairwise_append.mpr ⟨h₁, List.pairwise_cons.mpr ⟨habove, h₂⟩, fun a ha b hb => ?_⟩
  rcases List.mem_cons.mp hb with rfl | hb
  · exact hbelow a ha
  · exact hacross a ha b hb

theorem Ordered.sublist (hord : Ordered t) (h : t'.entries.Sublist t.entries) : Ordered t' :=
  List.Pairwise.sublist h hord

/-! ## What `expire_timer` takes -/

/-- It takes entries from the left as long as their keys are not past the clock. -/
theorem expireLoop_eq (B : Balance) (now : BitVec 32) (fuel : Nat) (t : Tree)
    (hfuel : t.entries.length < fuel) :
    ∃ left, expireLoop B now fuel t =
        some (left, t.entries.takeWhile (passed now)) ∧
      left.entries = t.entries.dropWhile (passed now) := by
  induction fuel generalizing t with
  | zero => exact absurd hfuel (Nat.not_lt_zero _)
  | succ fuel ih =>
      rw [expireLoop, t.min_eq]
      cases hl : t.entries with
      | nil => exact ⟨t, rfl, hl⟩
      | cons e rest =>
          simp only [List.head?_cons, gt_iff_lt]
          by_cases hkey : now < e.key
          · have hneg : ¬ passed now e = true := by simpa [passed] using hkey
            rw [if_pos hkey, List.takeWhile_cons_of_neg hneg, List.dropWhile_cons_of_neg hneg]
            exact ⟨t, rfl, hl⟩
          · have hpos : passed now e = true := by simpa [passed] using hkey
            have hrest : (delTimer B t e).entries = rest := by
              rw [delTimer_entries, hl, List.erase_cons_head]
            obtain ⟨left, hloop, hleft⟩ := ih (delTimer B t e) (by
              rw [hrest]
              rw [hl, List.length_cons] at hfuel
              omega)
            rw [if_neg hkey, hloop, List.takeWhile_cons_of_pos hpos,
              List.dropWhile_cons_of_pos hpos, ← hrest]
            exact ⟨left, rfl, hleft⟩

theorem expireTimer_eq (B : Balance) (t : Tree) (now : BitVec 32) :
    ∃ left, expireTimer B t now =
        some (left, t.entries.takeWhile (passed now)) ∧
      left.entries = t.entries.dropWhile (passed now) :=
  expireLoop_eq B now _ t (Nat.lt_succ_self _)

/-- Every step keeps the order. -/
theorem Ordered.step (hord : Ordered t) {op : Op} (hfits : Fits t op)
    (hstep : step B t op = some t') : Ordered t' := by
  cases op with
  | add addr msec clock =>
      obtain ⟨base, hwin⟩ := hfits
      obtain ⟨-, heq⟩ := Option.ite_none_right_eq_some.mp hstep
      exact Option.some.inj heq ▸ hord.add hwin
  | del e =>
      obtain ⟨-, heq⟩ := Option.ite_none_right_eq_some.mp hstep
      refine Option.some.inj heq ▸ hord.sublist ?_
      rw [delTimer_entries]
      exact List.erase_sublist
  | expire clock =>
      obtain ⟨x, hx, rfl⟩ := Option.map_eq_some_iff.mp hstep
      obtain ⟨left, heq, hleft⟩ := expireTimer_eq B t clock
      rw [heq] at hx
      obtain rfl := Option.some.inj hx
      refine hord.sublist ?_
      rw [hleft]
      exact List.dropWhile_sublist _

theorem ordered_run (ops : List Op) (hrun : run (step B) .sentinel ops = some t)
    (hfits : Meets (step B) Fits .sentinel ops) : Ordered t :=
  run_keeps_meets Fits (fun _ _ _ hord hok hstep => Ordered.step hord hok hstep) ops
    (show Ordered .sentinel from List.Pairwise.nil) hfits hrun

/-! ## When that is what is due -/

theorem due_iff : due now e = true ↔ remaining now e ≤ 0 := decide_eq_true_iff

theorem not_due_iff : due now e = false ↔ 0 < remaining now e := by
  rw [← Bool.not_eq_true, due_iff, Int.not_le]

theorem passed_iff : passed now e = true ↔ e.key ≤ now := decide_eq_true_iff

theorem not_passed_iff : passed now e = false ↔ now < e.key := by
  rw [← Bool.not_eq_true, passed_iff, BitVec.not_le]

/-- In a window the entries are in the order of their times. -/
theorem Ordered.pairwise (hord : Ordered t) (hwin : InWindow base t now) :
    t.entries.Pairwise fun a b => remaining now a ≤ remaining now b := by
  obtain ⟨hold, hnow⟩ := hwin
  refine List.Pairwise.imp_of_mem (fun {a b} ha hb hab => ?_) hord
  unfold remaining
  rw [ahead_sub hnow (hold a ha), ahead_sub hnow (hold b hb)]
  have hle := (ahead_le_iff (hold a ha) (hold b hb)).mp hab
  omega

/-- What is due is on the left. -/
theorem due_first (hsorted : t.entries.Pairwise fun a b => remaining now a ≤ remaining now b) :
    t.entries.Pairwise fun a b => due now b = true → due now a = true := by
  refine hsorted.imp fun hab hb => ?_
  rw [due_iff] at *
  omega

/-- The first entry that is not due is the earliest such. -/
theorem first_not_due
    (hsorted : t.entries.Pairwise fun a b => remaining now a ≤ remaining now b)
    (he : e ∈ (t.entries.dropWhile (due now)).head?) :
    e ∈ t.entries ∧ 0 < remaining now e ∧
      ∀ e' ∈ t.entries, 0 < remaining now e' → remaining now e ≤ remaining now e' := by
  have hnot := not_due_iff.mp (head_dropWhile he)
  obtain ⟨rest, hrest⟩ := List.head?_eq_some_iff.mp he
  have hsplit : t.entries = t.entries.takeWhile (due now) ++ e :: rest := by
    rw [← hrest, List.takeWhile_append_dropWhile]
  refine ⟨hsplit ▸ List.mem_append_right _ List.mem_cons_self, hnot, fun e' he' hpos => ?_⟩
  rw [hsplit] at he' hsorted
  obtain ⟨-, htail, -⟩ := List.pairwise_append.mp hsorted
  rcases List.mem_append.mp he' with hbefore | hafter
  · have hdue := due_iff.mp (List.mem_takeWhile_imp hbefore)
    omega
  · rcases List.mem_cons.mp hafter with rfl | hafter
    · exact Int.le_refl _
    · exact (List.pairwise_cons.mp htail).1 e' hafter

/-- The two ways to compare with the clock find the same entries if and only if the clock
agrees. -/
theorem takeWhile_eq_iff
    (hsorted : t.entries.Pairwise fun a b => remaining now a ≤ remaining now b) :
    t.entries.takeWhile (passed now) = t.entries.takeWhile (due now) ↔ ClockAgrees t now := by
  have hfilter := filter_eq_takeWhile (due_first hsorted)
  constructor
  · intro heq
    have hdrop := (takeWhile_eq_of_length (congrArg List.length heq)).2
    constructor
    · intro e he hdue
      have hmem : e ∈ t.entries.takeWhile (passed now) := by
        rw [heq, ← hfilter]
        exact List.mem_filter.mpr ⟨he, due_iff.mpr hdue⟩
      exact passed_iff.mp (List.mem_takeWhile_imp hmem)
    · intro e he hpos hfirst
      -- The head of the rest is as early as `e`, so it has the same key.
      have hmem : e ∈ t.entries.dropWhile (due now) := by
        rw [← filter_not_eq_dropWhile (due_first hsorted)]
        exact List.mem_filter.mpr ⟨he, by rw [not_due_iff.mpr hpos]; rfl⟩
      cases hrest : t.entries.dropWhile (due now) with
      | nil => exact absurd (hrest ▸ hmem) List.not_mem_nil
      | cons h rest =>
          have hhead : h ∈ (t.entries.dropWhile (due now)).head? := by rw [hrest]; rfl
          obtain ⟨hh, hhpos, hhfirst⟩ := first_not_due hsorted hhead
          have hkey : h.key = e.key := by
            refine eq_of_ahead_eq (Int.le_antisymm (hhfirst e he hpos) (hfirst h hh hhpos))
          rw [← hkey]
          exact not_passed_iff.mp (head_dropWhile (hdrop ▸ hhead))
  · rintro ⟨hold, hnext⟩
    have hall : ∀ e ∈ t.entries.takeWhile (due now), passed now e = true := by
      intro e he
      have hmem : e ∈ t.entries := (List.takeWhile_sublist _).subset he
      exact passed_iff.mpr (hold e hmem (due_iff.mp (List.mem_takeWhile_imp he)))
    have hhead : ∀ e ∈ (t.entries.dropWhile (due now)).head?, passed now e = false := by
      intro e he
      obtain ⟨hmem, hpos, hfirst⟩ := first_not_due hsorted he
      exact not_passed_iff.mpr (hnext e hmem hpos hfirst)
    have htake := (takeWhile_append_eq hall hhead).1
    rwa [List.takeWhile_append_dropWhile] at htake

theorem findNearestExpireTimer_eq_zero_iff (t : Tree) (now : BitVec 32) :
    findNearestExpireTimer t now = 0 ↔ t.entries.takeWhile (due now) ≠ [] := by
  unfold findNearestExpireTimer
  rw [t.min_eq]
  cases hl : t.entries with
  | nil => simp
  | cons e rest =>
      simp only [List.head?_cons]
      by_cases hpos : 0 < remaining now e
      · rw [List.takeWhile_cons_of_neg (by rw [not_due_iff.mpr hpos]; nofun)]
        have hdiff : (e.key - now).toInt > 0 := hpos
        simp only [if_pos hdiff, ne_eq, not_true, iff_false]
        omega
      · rw [List.takeWhile_cons_of_pos (due_iff.mpr (Int.not_lt.mp hpos))]
        have hdiff : ¬ (e.key - now).toInt > 0 := hpos
        simp only [if_neg hdiff, ne_eq, reduceCtorEq, not_false_eq_true]

/-- **`expire_timer` is right if and only if the clock agrees.** That is for any timers that a
program adds and deletes while their keys lie within half a turn of the clock, any balancing of
the tree, and any time within that half turn. -/
theorem expiry_right_iff (B : Balance) (ops : List Op) (t : Tree) (base now : BitVec 32)
    (hrun : run (step B) .sentinel ops = some t) (hfits : Meets (step B) Fits .sentinel ops)
    (hwin : InWindow base t now) : ExpiryRight B t now ↔ ClockAgrees t now := by
  have hsorted := (ordered_run ops hrun hfits).pairwise hwin
  have hdue := due_first hsorted
  obtain ⟨left, hexpire, hleft⟩ := expireTimer_eq B t now
  rw [← takeWhile_eq_iff hsorted]
  unfold ExpiryRight
  rw [hexpire, filter_eq_takeWhile hdue, filter_not_eq_dropWhile hdue,
    findNearestExpireTimer_eq_zero_iff]
  constructor
  · rintro ⟨_, _, heq, hran, -⟩
    obtain ⟨-, rfl⟩ := Prod.mk.inj (Option.some.inj heq)
    exact (takeWhile_eq_of_length hran.length_eq).1
  · intro heq
    have hdrop := (takeWhile_eq_of_length (congrArg List.length heq)).2
    refine ⟨left, _, rfl, ?_, ?_, ?_, ?_⟩
    · rw [heq]
    · exact hsorted.sublist (List.takeWhile_sublist _)
    · rw [hleft, hdrop]
    · rw [heq]

end

instance (base key : BitVec 32) (t : Tree) : Decidable (InWindow base t key) :=
  inferInstanceAs (Decidable ((∀ e ∈ t.entries, Within base e.key) ∧ Within base key))

/-- Two timers, added shortly before the clock wraps round; one of them is due after that. -/
def acrossWrap : List Op := [.add 1 5 0xFFFFFFF0, .add 2 0x20 0xFFFFFFF0]

def acrossWrapTree : Tree :=
  .node .sentinel ⟨1, 0xFFFFFFF5⟩ (.node .sentinel ⟨2, 0x10⟩ .sentinel)

theorem acrossWrap_run : run (step .none) .sentinel acrossWrap = some acrossWrapTree := rfl

theorem acrossWrap_fits : Meets (step .none) Fits .sentinel acrossWrap := by
  refine ⟨⟨0xFFFFFFF0, by decide⟩, fun t h => ⟨⟨0xFFFFFFF0, ?_⟩, fun _ _ => trivial⟩⟩
  have hstep : step .none .sentinel (.add 1 5 0xFFFFFFF0) =
      some (.node .sentinel ⟨1, 0xFFFFFFF5⟩ .sentinel) := rfl
  obtain rfl := Option.some.inj (hstep.symm.trans h)
  decide

theorem expiry_right_iff_acrossWrap :
    ExpiryRight .none acrossWrapTree 0xFFFFFFF8 ↔ ClockAgrees acrossWrapTree 0xFFFFFFF8 :=
  expiry_right_iff .none acrossWrap acrossWrapTree 0xFFFFFFF0 0xFFFFFFF8 acrossWrap_run
    acrossWrap_fits (by decide)

/-- After the wrap the timer that is due looks as if it were far ahead. -/
theorem expiry_wrong :
    ¬ ∀ (B : Balance) (ops : List Op) (t : Tree) (base now : BitVec 32),
      run (step B) .sentinel ops = some t → Meets (step B) Fits .sentinel ops →
        InWindow base t now → ExpiryRight B t now := by
  intro h
  obtain ⟨left, ran, heq, hran, -⟩ := h .none acrossWrap acrossWrapTree 0xFFFFFFF0 0x8
    acrossWrap_run acrossWrap_fits (by decide)
  have hnone : (expireTimer .none acrossWrapTree 0x8).map (fun r => r.2) = some [] := by
    decide +kernel
  rw [heq] at hnone
  have hlength : (acrossWrapTree.entries.filter (due 0x8)).length = 1 := by decide +kernel
  have hran_nil : ran = [] := Option.some.inj hnone
  rw [← hran.length_eq, hran_nil] at hlength
  exact absurd hlength nofun

/-! ## The sleep of the reactor -/

section

variable {t : Tree} {m : TimerEntry} {now : BitVec 32}

/-- The assumption of the reactor holds of the trees that a program builds. -/
theorem Ordered.minFirst (hord : Ordered t) : MinFirst t := by
  intro m hm e he
  rw [t.min_eq] at hm
  obtain ⟨rest, hrest⟩ := List.head?_eq_some_iff.mp hm
  unfold Ordered at hord
  rw [hrest] at hord he
  rw [Int.not_lt]
  rcases List.mem_cons.mp he with rfl | he
  · exact (ahead_self e.key).ge
  · exact (List.pairwise_cons.mp hord).1 e he

theorem reactorFindNearestExpireTimer_eq (hm : t.min = some m) (now : BitVec 32) :
    reactorFindNearestExpireTimer t now = remaining now m := by
  unfold reactorFindNearestExpireTimer remaining ahead
  rw [hm]
  dsimp only
  split
  · rfl
  · rename_i hzero
    have hdiff : m.key - now = 0 := by simpa using hzero
    rw [hdiff]

/-- **The sleep of the reactor is right if and only if no timer is overdue.** That is for any
tree whose leftmost entry is a minimum of the order of insertion, and any clock. -/
theorem reactor_sleep_iff (t : Tree) (now : BitVec 32) (hmin : MinFirst t) :
    SleepRight reactorFindNearestExpireTimer t now ↔ ∀ e ∈ t.entries, 0 ≤ remaining now e := by
  cases hm : t.min with
  | none =>
      have hnil := List.head?_eq_none_iff.mp (t.min_eq.symm.trans hm)
      simp [SleepRight, hnil]
  | some m =>
      have hfind := reactorFindNearestExpireTimer_eq hm now
      have hmem : m ∈ t.entries := List.mem_of_mem_head? (t.min_eq.symm.trans hm)
      constructor
      · rintro ⟨-, hsleep⟩ e he
        rw [← Int.not_lt]
        intro hover
        obtain ⟨e₀, he₀, hfirst⟩ :=
          t.entries.toFinset.exists_min_image (remaining now) ⟨e, List.mem_toFinset.mpr he⟩
        simp only [List.mem_toFinset] at he₀ hfirst
        have hzero := (hsleep e₀ he₀ hfirst).1 (by have := hfirst e he; omega)
        -- The answer 0 means that the minimum is due just now, so the overdue one is before it.
        have hkey : m.key = now := by
          refine eq_of_ahead_eq (hfind.symm.trans (hzero.trans (ahead_self now).symm))
        exact hmin m hm e he (hkey ▸ hover)
      · intro hnone
        have hwithin : ∀ e ∈ t.entries, Within now e.key := fun e he => within_iff.mpr (hnone e he)
        refine ⟨fun hneg => ?_, fun e he hfirst => ?_⟩
        · have := hnone m hmem
          omega
        · have hle := Int.not_lt.mp (hmin m hm e he)
          have hge := (ahead_le_iff (hwithin m hmem) (hwithin e he)).mp hle
          have heq : remaining now e = remaining now m := Int.le_antisymm (hfirst m hmem) hge
          rw [hfind, heq]
          have hpos := hnone m hmem
          exact ⟨fun h => Int.le_antisymm h hpos, fun _ => rfl⟩

theorem reactor_sleep_iff_acrossWrap :
    SleepRight reactorFindNearestExpireTimer acrossWrapTree 0xFFFFFFF2 ↔
      ∀ e ∈ acrossWrapTree.entries, 0 ≤ remaining 0xFFFFFFF2 e :=
  reactor_sleep_iff acrossWrapTree 0xFFFFFFF2 (by unfold MinFirst; decide)

/-- A timer that is one millisecond overdue makes `epoll_wait` wait for good. -/
theorem reactor_sleep_wrong :
    ¬ ∀ (t : Tree) (now : BitVec 32), MinFirst t →
      SleepRight reactorFindNearestExpireTimer t now := by
  intro h
  have hright := h (.node .sentinel ⟨1, 100⟩ .sentinel) 101 (by unfold MinFirst; decide)
  exact absurd (hright.1 (by decide)) nofun

end

end CppTrack.RbTimer
