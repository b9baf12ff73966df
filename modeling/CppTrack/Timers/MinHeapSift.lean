import CppTrack.Lib.Sift
import CppTrack.Timers.MinHeap

/-!
# The sifts of the min-heap

Both loops take a hole at some place of the array and put an entry down somewhere.
`Around` is the array while there is a hole: every other place holds an entry that
knows it is there. `Sifted` is what the loops promise, and `Lib.Holed` what they need.
-/

namespace CppTrack.TimerHeap

open Lib

namespace MinHeap

/-- The heap after a successful `place`. -/
def placed (s : MinHeap) (i e : Nat) : MinHeap :=
  { s with p := Function.update s.p i (some e) }.setIdx e i

theorem place_eq {s : MinHeap} {i : Nat} (hi : i < s.a) (e : Nat) :
    s.place i e = some (s.placed i e) := if_pos hi

section

variable (s : MinHeap) (i e t x : Nat)

@[simp] theorem placed_n : (s.placed i e).n = s.n := rfl
@[simp] theorem placed_a : (s.placed i e).a = s.a := rfl
@[simp] theorem placed_p : (s.placed i e).p = Function.update s.p i (some e) := rfl
@[simp] theorem setIdx_n : (s.setIdx e i).n = s.n := rfl
@[simp] theorem setIdx_a : (s.setIdx e i).a = s.a := rfl
@[simp] theorem setIdx_p : (s.setIdx e i).p = s.p := rfl
@[simp] theorem setTime_n : (s.setTime e t).n = s.n := rfl
@[simp] theorem setTime_a : (s.setTime e t).a = s.a := rfl
@[simp] theorem setTime_p : (s.setTime e t).p = s.p := rfl

theorem idx_setIdx : (s.setIdx e i).idx x = if x = e then i else s.idx x := by
  simp only [idx, setIdx, Function.update_apply]
  split <;> rfl

@[simp] theorem time_setIdx : (s.setIdx e i).time x = s.time x := by
  simp only [time, setIdx, Function.update_apply]
  split
  · rename_i hx
    rw [hx]
  · rfl

theorem idx_placed : (s.placed i e).idx x = if x = e then i else s.idx x := idx_setIdx _ i e x

@[simp] theorem time_placed : (s.placed i e).time x = s.time x := time_setIdx _ i e x

@[simp] theorem idx_setTime : (s.setTime e t).idx x = s.idx x := by
  simp only [idx, setTime, Function.update_apply]
  split
  · rename_i hx
    rw [hx]
  · rfl

theorem time_setTime : (s.setTime e t).time x = if x = e then t else s.time x := by
  simp only [time, setTime, Function.update_apply]
  split <;> rfl

end

end MinHeap

/-- Every place but `h` holds an entry, `f` says which, and the entry knows its place. -/
structure Around (s : MinHeap) (f : Nat → Nat) (h : Nat) : Prop where
  cap : s.n ≤ s.a
  slot : ∀ i, i < s.n → i ≠ h → s.p i = some (f i)
  back : ∀ i, i < s.n → i ≠ h → s.idx (f i) = i

/-- What a sift that starts with hole `h` and ends by putting `e` down has done. -/
structure Sifted (s : MinHeap) (f : Nat → Nat) (h e : Nat) (s' : MinHeap) (f' : Nat → Nat) :
    Prop where
  n : s'.n = s.n
  a : s'.a = s.a
  time : ∀ x, s'.time x = s.time x
  around : Around s' f' s'.n
  mem : ∀ x, (∃ i, i < s.n ∧ f' i = x) ↔ x = e ∨ ∃ i, i < s.n ∧ i ≠ h ∧ f i = x
  idx : ∀ x, x ≠ e → (∀ i, i < s.n → i ≠ h → f i ≠ x) → s'.idx x = s.idx x
  heap : IsHeap s.time f' s.n

section

variable {s s' : MinHeap} {f f' : Nat → Nat} {h i e : Nat}

theorem Around.slot_eq (ha : Around s f h) (hi : i < s.n) (hih : i ≠ h) :
    s.slot i = some (f i) := by
  rw [MinHeap.slot, if_pos (Nat.lt_of_lt_of_le hi ha.cap), ha.slot i hi hih]

/-- Different places hold different entries. -/
theorem Around.inj (ha : Around s f h) {j : Nat} (hi : i < s.n) (hih : i ≠ h) (hj : j < s.n)
    (hjh : j ≠ h) (he : f i = f j) : i = j := by
  rw [← ha.back i hi hih, ← ha.back j hj hjh, he]

/-- An entry moves into the hole, and leaves one where it was. -/
theorem Around.move (ha : Around s f h) (hi : i < s.n) (hih : i ≠ h) :
    Around (s.placed h (f i)) (Function.update f h (f i)) i where
  cap := ha.cap
  slot := by
    intro j hj hji
    simp only [MinHeap.placed_p, Function.update_apply]
    split
    · rfl
    · rename_i hjh
      exact ha.slot j hj hjh
  back := by
    intro j hj hji
    rw [MinHeap.idx_placed, Function.update_apply]
    by_cases hjh : j = h
    · rw [if_pos hjh, if_pos rfl, hjh]
    · rw [if_neg hjh, if_neg (fun he => hji (ha.inj hj hjh hi hih he)), ha.back j hj hjh]

/-- The hole is filled. -/
theorem Around.fill (ha : Around s f h) (he : ∀ i, i < s.n → i ≠ h → f i ≠ e) :
    Around (s.placed h e) (Function.update f h e) s.n where
  cap := ha.cap
  slot := by
    intro j hj _
    simp only [MinHeap.placed_p, Function.update_apply]
    split
    · rfl
    · rename_i hjh
      exact ha.slot j hj hjh
  back := by
    intro j hj _
    rw [MinHeap.idx_placed, Function.update_apply]
    by_cases hjh : j = h
    · rw [if_pos hjh, if_pos rfl, hjh]
    · rw [if_neg hjh, if_neg (he j hj hjh), ha.back j hj hjh]

theorem Sifted.of_fill (ha : Around s f h) (hh : h < s.n) (he : ∀ i, i < s.n → i ≠ h → f i ≠ e)
    (hheap : IsHeap s.time (Function.update f h e) s.n) :
    Sifted s f h e (s.placed h e) (Function.update f h e) where
  n := rfl
  a := rfl
  time := s.time_placed h e
  around := ha.fill he
  mem := by
    intro x
    constructor
    · rintro ⟨i, hi, rfl⟩
      by_cases hih : i = h
      · exact .inl (by rw [hih, Function.update_self])
      · exact .inr ⟨i, hi, hih, by rw [Function.update_of_ne hih]⟩
    · rintro (rfl | ⟨i, hi, hih, rfl⟩)
      · exact ⟨h, hh, Function.update_self ..⟩
      · exact ⟨i, hi, Function.update_of_ne hih ..⟩
  idx := by
    intro x hx _
    rw [MinHeap.idx_placed, if_neg hx]
  heap := hheap

/-- A sift may begin by moving an entry into the hole. -/
theorem Sifted.of_move (hh : h < s.n) (hi : i < s.n) (hih : i ≠ h)
    (hs : Sifted (s.placed h (f i)) (Function.update f h (f i)) i e s' f') :
    Sifted s f h e s' f' where
  n := hs.n
  a := hs.a
  time := fun x => (hs.time x).trans (s.time_placed h (f i) x)
  around := hs.around
  mem := by
    intro x
    refine (hs.mem x).trans (or_congr Iff.rfl ?_)
    constructor
    · rintro ⟨j, hj, hji, rfl⟩
      by_cases hjh : j = h
      · exact ⟨i, hi, hih, by rw [hjh, Function.update_self]⟩
      · exact ⟨j, hj, hjh, by rw [Function.update_of_ne hjh]⟩
    · rintro ⟨j, hj, hjh, rfl⟩
      by_cases hji : j = i
      · exact ⟨h, hh, hih.symm, by rw [hji, Function.update_self]⟩
      · exact ⟨j, hj, hji, Function.update_of_ne hjh ..⟩
  idx := by
    intro x hx hno
    rw [hs.idx x hx, MinHeap.idx_placed, if_neg (fun he => hno i hi hih he.symm)]
    intro j hj hji
    rw [Function.update_apply]
    split
    · exact hno i hi hih
    · rename_i hjh
      exact hno j hj hjh
  heap := by
    have hheap := hs.heap
    rwa [show (s.placed h (f i)).time = s.time from funext (s.time_placed h (f i))] at hheap

end

/-! ## The loops -/

theorem parentIdx_eq {h : Nat} (hpos : 0 < h) (hlt : h < wordSize) :
    subU32 h 1 / 2 = parent h := by
  unfold subU32 parent
  rw [wordSize_eq] at *
  omega

/-- What the entry `e` in the hand may not be: one that is in the array already. -/
def Outside (s : MinHeap) (f : Nat → Nat) (h e : Nat) : Prop := ∀ i, i < s.n → i ≠ h → f i ≠ e

theorem Outside.move {s : MinHeap} {f : Nat → Nat} {h i e : Nat} (ho : Outside s f h e)
    (hi : i < s.n) (hih : i ≠ h) :
    Outside (s.placed h (f i)) (Function.update f h (f i)) i e := by
  intro j hj hji
  rw [Function.update_apply]
  split
  · exact ho i hi hih
  · rename_i hjh
    exact ho j hj hjh

theorem shiftUpLoop_sifted {e : Nat} (fuel : Nat) {s : MinHeap} {f : Nat → Nat} {h : Nat}
    (ha : Around s f h) (hf : Holed s.time f s.n h) (hh : h < s.n) (hword : s.n < wordSize)
    (ho : Outside s f h e)
    (hdown : ∀ i, 0 < i → i < s.n → parent i = h → s.time e ≤ s.time (f i)) (hfuel : h ≤ fuel) :
    ∃ s' f', shiftUpLoop e fuel s h = some s' ∧ Sifted s f h e s' f' := by
  induction fuel generalizing s f h with
  | zero =>
      obtain rfl : h = 0 := by omega
      rw [shiftUpLoop, if_pos rfl, MinHeap.place_eq (Nat.lt_of_lt_of_le hh ha.cap)]
      exact ⟨_, _, rfl, .of_fill ha hh ho (hf.fill (by omega) hdown)⟩
  | succ fuel ih =>
      have hcap := Nat.lt_of_lt_of_le hh ha.cap
      rw [shiftUpLoop]
      by_cases h₀ : h = 0
      · rw [if_pos h₀, MinHeap.place_eq hcap]
        exact ⟨_, _, rfl, .of_fill ha hh ho (hf.fill (by omega) hdown)⟩
      · have hpos : 0 < h := by omega
        have hlt := parent_lt hpos
        simp only [if_neg h₀, parentIdx_eq hpos (by omega), Option.bind_eq_bind]
        rw [ha.slot_eq (by omega) (by omega), Option.bind_some]
        by_cases hg : s.time e < s.time (f (parent h))
        · rw [if_pos (show s.greater (f (parent h)) e = true from decide_eq_true hg),
            MinHeap.place_eq hcap, Option.bind_some]
          have htime : (s.placed h (f (parent h))).time = s.time :=
            funext (s.time_placed h (f (parent h)))
          obtain ⟨s', f', hrun, hs⟩ := ih (ha.move (by omega) (by omega))
            (htime ▸ hf.up hpos hh) (show parent h < s.n by omega) hword
            (ho.move (by omega) (by omega))
            (htime ▸ hf.up_children hpos (Nat.le_of_lt hg)) (by omega)
          exact ⟨s', f', hrun, .of_move hh (by omega) (by omega) hs⟩
        · rw [if_neg (by simpa [MinHeap.greater] using hg), MinHeap.place_eq hcap]
          exact ⟨_, _, rfl, .of_fill ha hh ho (hf.fill (fun _ => by omega) hdown)⟩

theorem minChild_eq {h : Nat} (hlt : 2 * (h + 1) < wordSize) :
    2 * addU32 h 1 % wordSize = 2 * (h + 1) := by
  unfold addU32
  rw [wordSize_eq] at *
  omega

/-- The loop of the downward sift looks at the smaller of the hole's children. -/
theorem takesLeft_spec {s : MinHeap} {f : Nat → Nat} {h : Nat} (ha : Around s f h)
    (hle : 2 * (h + 1) ≤ s.n) :
    ∃ dec, takesLeft s (2 * (h + 1)) = some dec ∧
      2 * (h + 1) - dec.toNat < s.n ∧ parent (2 * (h + 1) - dec.toNat) = h ∧
      ∀ i, 0 < i → i < s.n → parent i = h →
        s.time (f (2 * (h + 1) - dec.toNat)) ≤ s.time (f i) := by
  unfold takesLeft
  by_cases hlast : 2 * (h + 1) = s.n
  · -- there is no right child
    rw [if_pos hlast]
    refine ⟨true, rfl, show 2 * (h + 1) - 1 < s.n by omega,
      show (2 * (h + 1) - 1 - 1) / 2 = h by omega, fun i h₀ hi hp => ?_⟩
    obtain rfl : i = 2 * (h + 1) - 1 := by
      unfold parent at hp
      omega
    exact Nat.le_refl _
  · rw [if_neg hlast, ha.slot_eq (i := 2 * (h + 1)) (by omega) (by omega),
      ha.slot_eq (i := 2 * (h + 1) - 1) (by omega) (by omega)]
    refine ⟨_, rfl, ?_, ?_, fun i h₀ hi hp => ?_⟩
    · have := Bool.toNat_le (s.greater (f (2 * (h + 1))) (f (2 * (h + 1) - 1)))
      omega
    · have := Bool.toNat_le (s.greater (f (2 * (h + 1))) (f (2 * (h + 1) - 1)))
      unfold parent
      omega
    · have hchild : i = 2 * (h + 1) - 1 ∨ i = 2 * (h + 1) := by
        unfold parent at hp
        omega
      by_cases hg : s.time (f (2 * (h + 1) - 1)) < s.time (f (2 * (h + 1)))
      · rw [show s.greater (f (2 * (h + 1))) (f (2 * (h + 1) - 1)) = true from decide_eq_true hg]
        rcases hchild with rfl | rfl
        · exact Nat.le_refl _
        · exact Nat.le_of_lt hg
      · rw [show s.greater (f (2 * (h + 1))) (f (2 * (h + 1) - 1)) = false from
          decide_eq_false hg]
        rcases hchild with rfl | rfl
        · exact Nat.le_of_not_lt hg
        · exact Nat.le_refl _

theorem shiftDownLoop_sifted {e : Nat} (fuel : Nat) {s : MinHeap} {f : Nat → Nat} {h : Nat}
    (ha : Around s f h) (hf : Holed s.time f s.n h) (hh : h < s.n) (hword : 2 * s.n < wordSize)
    (ho : Outside s f h e) (hup : 0 < h → s.time (f (parent h)) ≤ s.time e)
    (hfuel : s.n ≤ fuel + h) :
    ∃ s' f', shiftDownLoop e fuel s h = some s' ∧ Sifted s f h e s' f' := by
  induction fuel generalizing s f h with
  | zero => omega
  | succ fuel ih =>
      have hcap := Nat.lt_of_lt_of_le hh ha.cap
      rw [shiftDownLoop]
      simp only [minChild_eq (show 2 * (h + 1) < wordSize by omega), Option.bind_eq_bind]
      by_cases hle : 2 * (h + 1) ≤ s.n
      · obtain ⟨dec, hdec, hmn, hp, hmin⟩ := takesLeft_spec ha hle
        rw [if_pos hle, hdec, Option.bind_some]
        generalize hm : 2 * (h + 1) - dec.toNat = m at hmn hp hmin
        have hpos : 0 < m := by
          have := Bool.toNat_le dec
          omega
        have hlt := parent_lt hpos
        rw [ha.slot_eq hmn (by omega), Option.bind_some]
        by_cases hg : s.time (f m) < s.time e
        · rw [if_pos (show s.greater e (f m) = true from decide_eq_true hg),
            MinHeap.place_eq hcap, Option.bind_some]
          have htime : (s.placed h (f m)).time = s.time := funext (s.time_placed h (f m))
          have hup' : 0 < m → s.time (Function.update f h (f m) (parent m)) ≤ s.time e := by
            intro _
            rw [hp, Function.update_self]
            exact Nat.le_of_lt hg
          obtain ⟨s', f', hrun, hs⟩ := ih (ha.move hmn (by omega))
            (htime ▸ hf.down hpos hmn hp hmin) (show m < s.n from hmn) hword
            (ho.move hmn (by omega)) (htime ▸ hup') (show s.n ≤ fuel + m by omega)
          exact ⟨s', f', hrun, .of_move hh hmn (by omega) hs⟩
        · rw [if_neg (by simpa [MinHeap.greater] using hg), MinHeap.place_eq hcap]
          exact ⟨_, _, rfl, .of_fill ha hh ho (hf.fill hup
            (fun i h₀ hi hpi => Nat.le_trans (Nat.le_of_not_lt hg) (hmin i h₀ hi hpi)))⟩
      · rw [if_neg hle, MinHeap.place_eq hcap]
        refine ⟨_, _, rfl, .of_fill ha hh ho (hf.fill hup fun i h₀ hi hpi => ?_)⟩
        -- the only child there can be is the one just before the end
        exact absurd hi (by unfold parent at hpi; omega)

end CppTrack.TimerHeap
