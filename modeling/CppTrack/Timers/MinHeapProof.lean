import Mathlib.Data.List.Nodup
import CppTrack.Timers.MinHeapSift

/-!
# The min-heap over whole histories

`Valid` is what the heap is between two calls: ordered, every entry in it knowing its
place, and every other entry that was ever initialised knowing that it has none.
`Effect` is what each call is for, as a change of the collection of entries. Every call
the interface allows is carried out, keeps `Valid` and has its `Effect`.
-/

namespace CppTrack.TimerHeap

open Lib

/-- The heap between two calls. -/
structure Valid (w : World) : Prop where
  size : w.heap.n ≤ w.heap.a
  small : w.heap.n < 2 ^ 31
  filled : ∀ i, i < w.heap.n → ∃ e, w.heap.p i = some e
  order : ∀ i e d, 0 < i → i < w.heap.n → w.heap.p i = some e → w.heap.p ((i - 1) / 2) = some d →
    w.heap.time d ≤ w.heap.time e
  back : ∀ i e, i < w.heap.n → w.heap.p i = some e → w.heap.idx e = i
  absent : ∀ e ∈ w.known, e ∉ w.heap.contents → w.heap.idx e = noIdx
  inside : ∀ e ∈ w.heap.contents, e ∈ w.known

/-- The calls a caller may make: no entry is in the heap twice, only entries that were
initialised are asked about, and the heap stays below `2 ^ 31` entries. -/
def Accepts (w : World) : Op → Prop
  | .init e => e ∉ w.heap.contents
  | .push e _ => e ∉ w.heap.contents ∧ w.heap.n + 1 < 2 ^ 31
  | .pop => True
  | .erase e => e ∈ w.known
  | .adjust e _ => e ∈ w.known ∧ (e ∉ w.heap.contents → w.heap.n + 1 < 2 ^ 31)

instance (w : World) : (op : Op) → Decidable (Accepts w op)
  | .init e => inferInstanceAs (Decidable (e ∉ w.heap.contents))
  | .push e _ => inferInstanceAs (Decidable (e ∉ w.heap.contents ∧ w.heap.n + 1 < 2 ^ 31))
  | .pop => inferInstanceAs (Decidable True)
  | .erase e => inferInstanceAs (Decidable (e ∈ w.known))
  | .adjust e _ => inferInstanceAs
      (Decidable (e ∈ w.known ∧ (e ∉ w.heap.contents → w.heap.n + 1 < 2 ^ 31)))

/-- The time of an entry once the caller has set it. -/
def timeAfter (w : World) (x : Nat) : Op → Nat
  | .push e t => if x = e then t else w.heap.time x
  | .adjust e t => if x = e then t else w.heap.time x
  | _ => w.heap.time x

/-- What a call does to the collection of entries, and what it returns. -/
def Changes (w : World) (op : Op) (r : Ret) (w' : World) : Prop :=
  match op with
  | .init _ => w'.heap.contents = w.heap.contents
  | .push e _ => r = .code 0 ∧ w'.heap.contents.Perm (e :: w.heap.contents)
  | .pop =>
      if w.heap.contents = [] then r = .entry none ∧ w'.heap.contents = []
      else ∃ e, r = .entry (some e) ∧ w.heap.contents.Perm (e :: w'.heap.contents) ∧
        ∀ x ∈ w.heap.contents, w.heap.time e ≤ w.heap.time x
  | .erase e =>
      if e ∈ w.heap.contents then r = .code 0 ∧ w.heap.contents.Perm (e :: w'.heap.contents)
      else r = .code (-1) ∧ w'.heap.contents = w.heap.contents
  | .adjust e _ =>
      r = .code 0 ∧ if e ∈ w.heap.contents then w'.heap.contents.Perm w.heap.contents
        else w'.heap.contents.Perm (e :: w.heap.contents)

/-- The whole effect of a call. -/
def Effect (w : World) (op : Op) (r : Ret) (w' : World) : Prop :=
  Changes w op r w' ∧ ∀ x, w'.heap.time x = timeAfter w x op

/-! ## The array as a function -/

/-- `f` says which entry is at which place of a heap without a hole. -/
structure Shape (s : MinHeap) (f : Nat → Nat) : Prop where
  around : Around s f s.n
  heap : IsHeap s.time f s.n

section

variable {s s' : MinHeap} {f f' : Nat → Nat} {h e i : Nat} {w : World}

theorem Around.contents_eq (ha : Around s f s.n) : s.contents = (List.range s.n).map f := by
  unfold MinHeap.contents
  rw [← List.filterMap_eq_map]
  refine List.filterMap_congr fun i hi => ?_
  have hlt := List.mem_range.mp hi
  exact ha.slot i hlt (Nat.ne_of_lt hlt)

theorem Around.mem_contents (ha : Around s f s.n) {x : Nat} :
    x ∈ s.contents ↔ ∃ i, i < s.n ∧ f i = x := by
  simp [ha.contents_eq]

theorem Around.nodup (ha : Around s f s.n) : s.contents.Nodup := by
  rw [ha.contents_eq]
  refine List.Nodup.map_on (fun i hi j hj he => ?_) List.nodup_range
  have hi' := List.mem_range.mp hi
  have hj' := List.mem_range.mp hj
  exact ha.inj hi' (Nat.ne_of_lt hi') hj' (Nat.ne_of_lt hj') he

/-- A place taken out of a heap leaves an array around it. -/
theorem Around.open_ (ha : Around s f s.n) (h : Nat) : Around s f h where
  cap := ha.cap
  slot := fun i hi _ => ha.slot i hi (Nat.ne_of_lt hi)
  back := fun i hi _ => ha.back i hi (Nat.ne_of_lt hi)

theorem Valid.shape (hv : Valid w) : ∃ f, Shape w.heap f := by
  choose! f hf using hv.filled
  refine ⟨f, ⟨hv.size, fun i hi _ => hf i hi, fun i hi _ => hv.back i _ hi (hf i hi)⟩,
    fun i h₀ hi => ?_⟩
  have hlt := parent_lt h₀
  exact hv.order i _ _ h₀ hi (hf i hi) (hf (parent i) (by omega))

theorem Shape.valid (hs : Shape w.heap f) (hsmall : w.heap.n < 2 ^ 31)
    (habsent : ∀ e ∈ w.known, e ∉ w.heap.contents → w.heap.idx e = noIdx)
    (hinside : ∀ e ∈ w.heap.contents, e ∈ w.known) : Valid w where
  size := hs.around.cap
  small := hsmall
  filled := fun i hi => ⟨f i, hs.around.slot i hi (Nat.ne_of_lt hi)⟩
  order := by
    intro i e d h₀ hi he hd
    have hlt : (i - 1) / 2 < w.heap.n := by omega
    rw [hs.around.slot i hi (Nat.ne_of_lt hi), Option.some.injEq] at he
    rw [hs.around.slot _ hlt (Nat.ne_of_lt hlt), Option.some.injEq] at hd
    rw [← he, ← hd]
    exact hs.heap i h₀ hi
  back := by
    intro i e hi he
    rw [hs.around.slot i hi (Nat.ne_of_lt hi), Option.some.injEq] at he
    rw [← he, hs.around.back i hi (Nat.ne_of_lt hi)]
  absent := habsent
  inside := hinside

theorem Sifted.shape (hs : Sifted s f h e s' f') : Shape s' f' := by
  refine ⟨hs.around, ?_⟩
  rw [show s'.time = s.time from funext hs.time, hs.n]
  exact hs.heap

theorem Sifted.mem_contents (hs : Sifted s f h e s' f') {x : Nat} :
    x ∈ s'.contents ↔ x = e ∨ ∃ i, i < s.n ∧ i ≠ h ∧ f i = x := by
  rw [hs.shape.around.mem_contents, hs.n]
  exact hs.mem x

/-! ## Putting an entry down at a place in the middle -/

/-- Whichever way it goes, the entry ends up where it belongs. -/
theorem minHeapReplace_sifted (ha : Around s f h) (hf : Holed s.time f s.n h) (hh : h < s.n)
    (hword : 2 * s.n < wordSize) (ho : Outside s f h e) :
    ∃ s' f', minHeapReplace s h e = some s' ∧ Sifted s f h e s' f' := by
  unfold minHeapReplace belowParent
  by_cases h₀ : 0 < h
  · have hlt := parent_lt h₀
    have hslot := ha.slot_eq (i := parent h) (by omega) (by omega)
    simp only [if_pos h₀, parentIdx_eq h₀ (by omega), hslot, Option.map_some,
      Option.bind_eq_bind, Option.bind_some]
    by_cases hg : s.time e < s.time (f (parent h))
    · -- the first round up is not tested again
      rw [if_pos (show s.greater (f (parent h)) e = true from decide_eq_true hg)]
      unfold minHeapShiftUpUnconditional
      simp only [parentIdx_eq h₀ (by omega), hslot, Option.bind_eq_bind, Option.bind_some,
        MinHeap.place_eq (Nat.lt_of_lt_of_le hh ha.cap)]
      have htime : (s.placed h (f (parent h))).time = s.time :=
        funext (s.time_placed h (f (parent h)))
      obtain ⟨s', f', hrun, hs⟩ := shiftUpLoop_sifted (e := e) (parent h)
        (ha.move (by omega) (by omega)) (htime ▸ hf.up h₀ hh) (show parent h < s.n by omega)
        (show s.n < wordSize by omega) (ho.move (by omega) (by omega))
        (htime ▸ hf.up_children h₀ (Nat.le_of_lt hg)) (Nat.le_refl _)
      exact ⟨s', f', hrun, .of_move hh (by omega) (by omega) hs⟩
    · rw [if_neg (by simpa [MinHeap.greater] using hg)]
      exact shiftDownLoop_sifted s.n ha hf hh hword ho (fun _ => Nat.le_of_not_lt hg) (by omega)
  · simp only [if_neg h₀, Option.bind_eq_bind, Option.bind_some]
    exact shiftDownLoop_sifted s.n ha hf hh hword ho (fun hp => absurd hp h₀) (by omega)

/-! ## Taking an entry out -/

/-- The heap with its last place given up. -/
def MinHeap.shrunk (s : MinHeap) : MinHeap := { s with n := s.n - 1 }

/-- The entry `e` is out of the heap, but still believes it has a place. -/
structure Removed (s : MinHeap) (e : Nat) (s' : MinHeap) : Prop where
  n : s'.n = s.n - 1
  shape : ∃ f', Shape s' f'
  time : ∀ x, s'.time x = s.time x
  mem : ∀ x, x ∈ s'.contents ↔ x ∈ s.contents ∧ x ≠ e
  idx : ∀ x, x ∉ s.contents → s'.idx x = s.idx x

theorem Shape.shrunk (hs : Shape s f) (h : Nat) : Around s.shrunk f h where
  cap := Nat.le_trans (Nat.sub_le _ _) hs.around.cap
  slot := fun i hi _ => hs.around.slot i (Nat.lt_of_lt_of_le hi (Nat.sub_le _ _))
    (Nat.ne_of_lt (Nat.lt_of_lt_of_le hi (Nat.sub_le _ _)))
  back := fun i hi _ => hs.around.back i (Nat.lt_of_lt_of_le hi (Nat.sub_le _ _))
    (Nat.ne_of_lt (Nat.lt_of_lt_of_le hi (Nat.sub_le _ _)))

/-- The last entry is put down in the place of another. -/
theorem Sifted.removed (hs : Shape s f) (hi : i < s.n - 1)
    (hsift : Sifted s.shrunk f i (f (s.n - 1)) s' f') : Removed s (f i) s' where
  n := hsift.n
  shape := ⟨f', hsift.shape⟩
  time := hsift.time
  mem := by
    intro x
    rw [hsift.mem_contents, hs.around.mem_contents]
    constructor
    · rintro (rfl | ⟨j, hj, hji, rfl⟩)
      · refine ⟨⟨s.n - 1, by omega, rfl⟩, fun he => ?_⟩
        have := hs.around.inj (by omega) (by omega) (by omega) (by omega) he
        omega
      · have hj' : j < s.n - 1 := hj
        refine ⟨⟨j, by omega, rfl⟩, fun he => hji ?_⟩
        exact hs.around.inj (by omega) (by omega) (by omega) (by omega) he
    · rintro ⟨⟨j, hj, rfl⟩, hne⟩
      rcases Nat.lt_or_ge j (s.n - 1) with hlt | hge
      · exact .inr ⟨j, hlt, fun he => hne (he ▸ rfl), rfl⟩
      · exact .inl (by rw [show j = s.n - 1 by omega])
  idx := by
    intro x hx
    rw [hs.around.mem_contents] at hx
    refine hsift.idx x (fun he => hx ⟨s.n - 1, by omega, he.symm⟩) fun j hj _ he => hx ⟨j, ?_, he⟩
    exact Nat.lt_of_lt_of_le hj (Nat.sub_le _ _)

/-- The last entry is put down where it was, beyond the end. -/
theorem Shape.removed_last (hs : Shape s f) (hn : 0 < s.n) :
    Removed s (f (s.n - 1)) (s.shrunk.placed (s.n - 1) (f (s.n - 1))) := by
  have hin : ∀ j, j < s.n - 1 → f j ≠ f (s.n - 1) := by
    intro j hj he
    have := hs.around.inj (by omega) (by omega) (by omega) (by omega) he
    omega
  have ha : Around (s.shrunk.placed (s.n - 1) (f (s.n - 1))) f (s.n - 1) := by
    refine ⟨(hs.shrunk 0).cap, fun j hj _ => ?_, fun j hj _ => ?_⟩
    · have hj' : j < s.n - 1 := hj
      rw [MinHeap.placed_p, Function.update_of_ne (by omega)]
      exact hs.around.slot j (by omega) (by omega)
    · have hj' : j < s.n - 1 := hj
      rw [MinHeap.idx_placed, if_neg (hin j hj')]
      exact hs.around.back j (by omega) (by omega)
  refine ⟨rfl, ⟨f, ha, ?_⟩, fun x => s.shrunk.time_placed _ _ x, fun x => ?_, fun x hx => ?_⟩
  · intro j h₀ hj
    simp only [MinHeap.time_placed]
    exact hs.heap j h₀ (Nat.lt_of_lt_of_le hj (Nat.sub_le _ _))
  · rw [ha.mem_contents, hs.around.mem_contents]
    constructor
    · rintro ⟨j, hj, rfl⟩
      have hj' : j < s.n - 1 := hj
      exact ⟨⟨j, by omega, rfl⟩, hin j hj'⟩
    · rintro ⟨⟨j, hj, rfl⟩, hne⟩
      refine ⟨j, show j < s.n - 1 from ?_, rfl⟩
      rcases Nat.lt_or_ge j (s.n - 1) with hlt | hge
      · exact hlt
      · exact absurd (by rw [show j = s.n - 1 by omega]) hne
  · rw [MinHeap.idx_placed, if_neg]
    · rfl
    · exact fun he => hx (hs.around.mem_contents.mpr ⟨s.n - 1, by omega, he.symm⟩)

theorem shiftDownLoop_end (fuel : Nat) (hn : s.n < s.a) (hword : 2 * (s.n + 1) < wordSize) :
    shiftDownLoop e fuel s s.n = some (s.placed s.n e) := by
  rw [shiftDownLoop, minChild_eq hword]
  simp only [if_neg (show ¬ 2 * (s.n + 1) ≤ s.n by omega)]
  exact MinHeap.place_eq hn e

theorem Shape.slot_last (hs : Shape s f) (hn : 0 < s.n) :
    s.shrunk.slot (s.n - 1) = some (f (s.n - 1)) := by
  have hcap := hs.around.cap
  unfold MinHeap.slot MinHeap.shrunk
  rw [if_pos (show s.n - 1 < s.a by omega)]
  exact hs.around.slot (s.n - 1) (by omega) (by omega)

/-- Whatever place the hole is at, the last entry can be put down below or above it. -/
theorem minHeapReplace_removed (hs : Shape s f) (hsmall : s.n < 2 ^ 31) (hi : i < s.n) :
    ∃ s', minHeapReplace s.shrunk i (f (s.n - 1)) = some s' ∧ Removed s (f i) s' := by
  have hcap := hs.around.cap
  rcases Nat.lt_or_ge i (s.n - 1) with hlt | hge
  · have ho : Outside s.shrunk f i (f (s.n - 1)) := by
      intro j hj _ he
      have hj' : j < s.n - 1 := hj
      have := hs.around.inj (by omega) (by omega) (by omega) (by omega) he
      omega
    obtain ⟨s', f', hrun, hsift⟩ := minHeapReplace_sifted (hs.shrunk i)
      ((hs.heap.le_of_lt (Nat.sub_le _ _)).holed i) hlt
      (show 2 * (s.n - 1) < wordSize by rw [wordSize_eq]; omega) ho
    exact ⟨s', hrun, hsift.removed hs hlt⟩
  · -- the entry was the last one: it is above no other, and not below its parent
    obtain rfl : i = s.n - 1 := by omega
    refine ⟨_, ?_, hs.removed_last (by omega)⟩
    have hend : shiftDownLoop (f (s.n - 1)) s.shrunk.n s.shrunk (s.n - 1) =
        some (s.shrunk.placed (s.n - 1) (f (s.n - 1))) :=
      shiftDownLoop_end (s := s.shrunk) _ (show s.n - 1 < s.a by omega)
        (show 2 * (s.n - 1 + 1) < wordSize by rw [wordSize_eq]; omega)
    have hup : belowParent s.shrunk (s.n - 1) (f (s.n - 1)) = some false := by
      unfold belowParent
      by_cases h₀ : 0 < s.n - 1
      · have hlt := parent_lt h₀
        rw [if_pos h₀, parentIdx_eq h₀ (by rw [wordSize_eq]; omega),
          (hs.shrunk (s.n - 1)).slot_eq (show parent (s.n - 1) < s.n - 1 from hlt) (by omega),
          Option.map_some, Option.some.injEq]
        exact decide_eq_false (Nat.not_lt.mpr (hs.heap (s.n - 1) h₀ (by omega)))
      · rw [if_neg h₀]
    unfold minHeapReplace
    rw [hup]
    exact hend

/-! ## One call -/

theorem setIdx_contents : (s.setIdx e i).contents = s.contents := rfl

theorem Shape.setIdx (hs : Shape s f) (he : e ∉ s.contents) (i : Nat) : Shape (s.setIdx e i) f where
  around := by
    refine ⟨hs.around.cap, hs.around.slot, fun j hj hjn => ?_⟩
    rw [MinHeap.idx_setIdx, if_neg]
    · exact hs.around.back j hj hjn
    · exact fun hje => he (hs.around.mem_contents.mpr ⟨j, hj, hje⟩)
  heap := by
    intro j h₀ hj
    simp only [MinHeap.time_setIdx]
    exact hs.heap j h₀ hj

/-- An entry that is out of the heap is told so. -/
theorem Removed.valid (hr : Removed w.heap e s') (hv : Valid w) :
    Valid { w with heap := s'.setIdx e noIdx } := by
  obtain ⟨f', hs⟩ := hr.shape
  have hout : e ∉ s'.contents := fun he => ((hr.mem e).mp he).2 rfl
  refine Shape.valid (hs.setIdx hout noIdx) ?_ ?_ fun x hx => hv.inside x ((hr.mem x).mp hx).1
  · have := hv.small
    simp only [MinHeap.setIdx_n, hr.n]
    omega
  · intro x hx hnot
    rw [MinHeap.idx_setIdx]
    split
    · rfl
    · rename_i hne
      have hx' : x ∉ w.heap.contents := fun hin => hnot ((hr.mem x).mpr ⟨hin, hne⟩)
      rw [hr.idx x hx']
      exact hv.absent x hx hx'

theorem Removed.perm (hr : Removed s e s') (hs : Shape s f) (he : e ∈ s.contents) :
    s.contents.Perm (e :: (s'.setIdx e noIdx).contents) := by
  obtain ⟨f', hs'⟩ := hr.shape
  rw [setIdx_contents, List.perm_ext_iff_of_nodup hs.around.nodup]
  · intro x
    rw [List.mem_cons, hr.mem]
    by_cases hx : x = e
    · simp [hx, he]
    · simp [hx]
  · exact List.nodup_cons.mpr ⟨fun h => ((hr.mem e).mp h).2 rfl, hs'.around.nodup⟩

theorem subU32_one (h₀ : 0 < i) (hi : i < 2 ^ 31) : subU32 i 1 = i - 1 := by
  unfold subU32
  rw [wordSize_eq]
  omega

theorem minHeapPop_eq (h₀ : 0 < s.n) (hn : s.n < 2 ^ 31) :
    minHeapPop s = (s.slot 0).bind fun e => (s.shrunk.slot (s.n - 1)).bind fun last =>
      (minHeapShiftDown s.shrunk 0 last).bind fun s => some (some e, s.setIdx e noIdx) := by
  unfold minHeapPop
  rw [if_pos (Nat.pos_iff_ne_zero.mp h₀), subU32_one h₀ hn]
  rfl

theorem minHeapErase_eq (h₀ : 0 < s.n) (hn : s.n < 2 ^ 31) (he : noIdx ≠ s.idx e) :
    minHeapErase s e = (s.shrunk.slot (s.n - 1)).bind fun last =>
      (minHeapReplace s.shrunk (s.idx e) last).bind fun s => some (0, s.setIdx e noIdx) := by
  unfold minHeapErase
  rw [if_pos he, subU32_one h₀ hn]
  rfl

theorem contents_eq_nil_iff (ha : Around s f s.n) : s.contents = [] ↔ s.n = 0 := by
  rw [ha.contents_eq]
  simp

theorem pop_effect (hv : Valid w) :
    ∃ r w', exec w .pop = some (r, w') ∧ Valid w' ∧ Effect w .pop r w' := by
  obtain ⟨f, hs⟩ := hv.shape
  have hnil := contents_eq_nil_iff hs.around
  by_cases h₀ : w.heap.n = 0
  · refine ⟨.entry none, w, ?_, hv, ?_, fun _ => rfl⟩
    · simp [exec, minHeapPop, h₀]
    · simp only [Changes, if_pos (hnil.mpr h₀)]
      exact ⟨trivial, hnil.mpr h₀⟩
  · have hpos : 0 < w.heap.n := Nat.pos_of_ne_zero h₀
    have htop : w.heap.slot 0 = some (f 0) := hs.around.slot_eq hpos (by omega)
    have hmem : f 0 ∈ w.heap.contents := hs.around.mem_contents.mpr ⟨0, hpos, rfl⟩
    obtain ⟨s', hrun, hr⟩ := minHeapReplace_removed hs hv.small hpos
    -- at the top nothing is above, so putting down is sifting down
    have hdown : minHeapShiftDown w.heap.shrunk 0 (f (w.heap.n - 1)) = some s' := by
      rw [← hrun]
      rfl
    refine ⟨.entry (some (f 0)), { w with heap := s'.setIdx (f 0) noIdx }, ?_, hr.valid hv,
      ?_, fun x => ?_⟩
    · simp only [exec, minHeapPop_eq hpos hv.small, htop, hs.slot_last hpos, hdown,
        Option.bind_some, Option.map_some]
    · simp only [Changes, if_neg (fun hn => h₀ (hnil.mp hn))]
      refine ⟨f 0, rfl, hr.perm hs hmem, fun x hx => ?_⟩
      obtain ⟨i, hi, rfl⟩ := hs.around.mem_contents.mp hx
      exact hs.heap.top_le i hi
    · rw [MinHeap.time_setIdx, hr.time]
      rfl

/-- The place an initialised entry claims is where it is. -/
theorem Valid.idx_eq_iff (hv : Valid w) (hk : e ∈ w.known) :
    noIdx = w.heap.idx e ↔ e ∉ w.heap.contents := by
  constructor
  · intro hidx hin
    obtain ⟨f, hs⟩ := hv.shape
    obtain ⟨i, hi, rfl⟩ := hs.around.mem_contents.mp hin
    have hsmall := hv.small
    rw [hs.around.back i hi (by omega), noIdx, wordSize_eq] at hidx
    omega
  · exact fun hout => (hv.absent e hk hout).symm

theorem erase_effect (hv : Valid w) (hk : e ∈ w.known) :
    ∃ r w', exec w (.erase e) = some (r, w') ∧ Valid w' ∧ Effect w (.erase e) r w' := by
  obtain ⟨f, hs⟩ := hv.shape
  by_cases hin : e ∈ w.heap.contents
  · obtain ⟨i, hi, rfl⟩ := hs.around.mem_contents.mp hin
    have hidx : noIdx ≠ w.heap.idx (f i) := fun h => (hv.idx_eq_iff hk).mp h hin
    have hback : w.heap.idx (f i) = i := hs.around.back i hi (by omega)
    have hpos : 0 < w.heap.n := by omega
    obtain ⟨s', hrun, hr⟩ := minHeapReplace_removed hs hv.small hi
    refine ⟨.code 0, { w with heap := s'.setIdx (f i) noIdx }, ?_, hr.valid hv, ?_, fun x => ?_⟩
    · simp only [exec, minHeapErase_eq hpos hv.small hidx, hs.slot_last hpos, hback, hrun,
        Option.bind_some, Option.map_some]
    · simp only [Changes, if_pos hin]
      exact ⟨trivial, hr.perm hs hin⟩
    · rw [MinHeap.time_setIdx, hr.time]
      rfl
  · refine ⟨.code (-1), w, ?_, hv, ?_, fun _ => rfl⟩
    · have hidx : ¬ noIdx ≠ w.heap.idx e := fun h => h ((hv.idx_eq_iff hk).mpr hin)
      simp only [exec, minHeapErase, if_neg hidx, Option.map_some]
    · simp only [Changes, if_neg hin]
      exact ⟨trivial, trivial⟩

/-- The entry `e` is new in the heap. -/
structure Inserted (s : MinHeap) (e : Nat) (s' : MinHeap) : Prop where
  n : s'.n = s.n + 1
  shape : ∃ f', Shape s' f'
  time : ∀ x, s'.time x = s.time x
  mem : ∀ x, x ∈ s'.contents ↔ x = e ∨ x ∈ s.contents
  idx : ∀ x, x ≠ e → x ∉ s.contents → s'.idx x = s.idx x

theorem minHeapReserve_true (s : MinHeap) (n : Nat) :
    ∃ a, minHeapReserve true s n = (0, { s with a := a }) ∧ n ≤ a := by
  unfold minHeapReserve
  by_cases hn : s.a < n
  · refine ⟨_, by rw [if_pos hn]; rfl, ?_⟩
    split <;> split <;> omega
  · exact ⟨s.a, by rw [if_neg hn], by omega⟩

/-- The heap with one more place, at its end. -/
def MinHeap.grown (s : MinHeap) (a : Nat) : MinHeap := { s with n := s.n + 1, a := a }

theorem minHeapPush_inserted (hs : Shape s f) (hn : s.n + 1 < 2 ^ 31) (he : e ∉ s.contents) :
    ∃ s', minHeapPush true s e = some (0, s') ∧ Inserted s e s' := by
  have hadd : addU32 s.n 1 = s.n + 1 := by
    unfold addU32
    rw [wordSize_eq]
    omega
  obtain ⟨a, ha, hcap⟩ := minHeapReserve_true s (s.n + 1)
  have hg : Around (s.grown a) f s.n := by
    refine ⟨hcap, fun i hi hin => ?_, fun i hi hin => ?_⟩
    · exact hs.around.slot i (show i < s.n from lt_of_le_of_ne (Nat.le_of_lt_succ hi) hin) hin
    · exact hs.around.back i (show i < s.n from lt_of_le_of_ne (Nat.le_of_lt_succ hi) hin) hin
  have hlt : ∀ i, i < (s.grown a).n → i ≠ s.n → i < s.n :=
    fun i hi hin => lt_of_le_of_ne (Nat.le_of_lt_succ hi) hin
  have hholed : Holed s.time f (s.n + 1) s.n := by
    constructor
    · intro i h₀ hi hin _
      exact hs.heap i h₀ (by omega)
    · intro i h₀ hi hp _
      have := parent_lt h₀
      omega
  obtain ⟨s', f', hrun, hsift⟩ := shiftUpLoop_sifted (e := e) s.n hg hholed
    (show s.n < s.n + 1 by omega) (show s.n + 1 < wordSize by rw [wordSize_eq]; omega)
    (fun i hi hin hie => he (hs.around.mem_contents.mpr ⟨i, hlt i hi hin, hie⟩))
    (fun i h₀ hi hp => absurd (parent_lt h₀) (by have : i < s.n + 1 := hi; omega))
    (Nat.le_refl _)
  refine ⟨s', ?_, hsift.n, ⟨f', hsift.shape⟩, hsift.time, fun x => ?_, fun x hx hnot => ?_⟩
  · unfold minHeapPush
    simp only [hadd, ha]
    rw [if_neg (by simp)]
    exact congrArg (Option.bind · _) hrun
  · rw [hsift.mem_contents, hs.around.mem_contents]
    refine or_congr Iff.rfl ⟨?_, ?_⟩
    · rintro ⟨i, hi, hin, rfl⟩
      exact ⟨i, hlt i hi hin, rfl⟩
    · rintro ⟨i, hi, rfl⟩
      exact ⟨i, Nat.lt_succ_of_lt hi, Nat.ne_of_lt hi, rfl⟩
  · refine hsift.idx x hx fun i hi hin hie => hnot ?_
    exact hs.around.mem_contents.mpr ⟨i, hlt i hi hin, hie⟩

theorem Inserted.valid (hi : Inserted s e s') (hv : Valid w)
    (hn : w.heap.n + 1 < 2 ^ 31) (hsn : s.n = w.heap.n) (hcon : s.contents = w.heap.contents)
    (hidx : ∀ x, s.idx x = w.heap.idx x) (known : List Nat)
    (hknown : ∀ x, x ∈ known ↔ x = e ∨ x ∈ w.known) :
    Valid { heap := s', known := known } := by
  obtain ⟨f', hs⟩ := hi.shape
  refine Shape.valid hs ?_ (fun x hx hnot => ?_) fun x hx => ?_
  · simp only [hi.n, hsn]
    exact hn
  · have hne : x ≠ e := fun he => hnot ((hi.mem x).mpr (.inl he))
    have hout : x ∉ w.heap.contents := fun h => hnot ((hi.mem x).mpr (.inr (hcon ▸ h)))
    rw [hi.idx x hne (hcon ▸ hout), hidx]
    exact hv.absent x (((hknown x).mp hx).resolve_left hne) hout
  · rcases (hi.mem x).mp hx with he | hin
    · exact (hknown x).mpr (.inl he)
    · exact (hknown x).mpr (.inr (hv.inside x (hcon ▸ hin)))

theorem Inserted.perm (hi : Inserted s e s') (hs : Shape s f) (he : e ∉ s.contents) :
    s'.contents.Perm (e :: s.contents) := by
  obtain ⟨f', hs'⟩ := hi.shape
  rw [List.perm_ext_iff_of_nodup hs'.around.nodup (List.nodup_cons.mpr ⟨he, hs.around.nodup⟩)]
  intro x
  rw [hi.mem, List.mem_cons]

theorem Around.setTime (ha : Around s f h) (e t : Nat) : Around (s.setTime e t) f h where
  cap := ha.cap
  slot := ha.slot
  back := by
    intro i hi hih
    rw [MinHeap.idx_setTime]
    exact ha.back i hi hih

/-- The time of an entry outside may be anything. -/
theorem Shape.setTime (hs : Shape s f) (he : e ∉ s.contents) (t : Nat) :
    Shape (s.setTime e t) f where
  around := hs.around.setTime e t
  heap := by
    have hne : ∀ i, i < s.n → f i ≠ e := fun i hi h => he (hs.around.mem_contents.mpr ⟨i, hi, h⟩)
    intro i h₀ hi
    have hi' : i < s.n := hi
    have hlt := parent_lt h₀
    rw [MinHeap.time_setTime, MinHeap.time_setTime, if_neg (hne i hi'),
      if_neg (hne (parent i) (by omega))]
    exact hs.heap i h₀ hi

theorem push_effect {t : Nat} (hv : Valid w) (he : e ∉ w.heap.contents)
    (hn : w.heap.n + 1 < 2 ^ 31) :
    ∃ r w', exec w (.push e t) = some (r, w') ∧ Valid w' ∧ Effect w (.push e t) r w' := by
  obtain ⟨f, hs⟩ := hv.shape
  obtain ⟨s', hrun, hi⟩ := minHeapPush_inserted (hs.setTime he t) hn he
  refine ⟨.code 0, { heap := s', known := e :: w.known }, ?_, ?_, ⟨rfl, ?_⟩, fun x => ?_⟩
  · simp only [exec, hrun, Option.map_some]
  · exact hi.valid hv hn rfl rfl (w.heap.idx_setTime e t) (e :: w.known) fun x => List.mem_cons
  · exact hi.perm (hs.setTime he t) he
  · exact (hi.time x).trans (w.heap.time_setTime e t x)

/-- An entry whose time has changed goes up or down to where it belongs now. -/
theorem minHeapReplace_adjusted {t : Nat} (hs : Shape s f) (hn : s.n < 2 ^ 31) (hi : i < s.n) :
    ∃ s' f', minHeapReplace (s.setTime (f i) t) i (f i) = some s' ∧
      Sifted (s.setTime (f i) t) f i (f i) s' f' := by
  have hne : ∀ j, j < s.n → j ≠ i → f j ≠ f i :=
    fun j hj hji he => hji (hs.around.inj hj (by omega) hi (by omega) he)
  refine minHeapReplace_sifted ((hs.around.open_ i).setTime _ t) ?_ hi
    (show 2 * s.n < wordSize by rw [wordSize_eq]; omega) hne
  refine (hs.heap.holed i).congr fun j hj hji => ?_
  rw [MinHeap.time_setTime, if_neg (hne j hj hji)]

theorem adjust_effect {t : Nat} (hv : Valid w) (hk : e ∈ w.known)
    (hn : e ∉ w.heap.contents → w.heap.n + 1 < 2 ^ 31) :
    ∃ r w', exec w (.adjust e t) = some (r, w') ∧ Valid w' ∧ Effect w (.adjust e t) r w' := by
  obtain ⟨f, hs⟩ := hv.shape
  by_cases hin : e ∈ w.heap.contents
  · obtain ⟨i, hi, rfl⟩ := hs.around.mem_contents.mp hin
    have hback : w.heap.idx (f i) = i := hs.around.back i hi (by omega)
    have hidx : ¬ noIdx = i := fun h => (hv.idx_eq_iff hk).mp (h.trans hback.symm) hin
    obtain ⟨s', f', hrun, hsift⟩ := minHeapReplace_adjusted (t := t) hs hv.small hi
    -- the same entries are in the heap as before
    have hmem : ∀ x, x ∈ s'.contents ↔ x ∈ w.heap.contents := by
      intro x
      rw [hsift.mem_contents, hs.around.mem_contents]
      constructor
      · rintro (rfl | ⟨j, hj, -, rfl⟩)
        · exact ⟨i, hi, rfl⟩
        · exact ⟨j, hj, rfl⟩
      · rintro ⟨j, hj, rfl⟩
        by_cases hji : j = i
        · exact .inl (hji ▸ rfl)
        · exact .inr ⟨j, hj, hji, rfl⟩
    refine ⟨.code 0, { w with heap := s' }, ?_, ?_, ⟨rfl, ?_⟩, fun x => ?_⟩
    · simp only [exec, minHeapAdjust, MinHeap.idx_setTime, hback, if_neg hidx, hrun,
        Option.bind_eq_bind, Option.bind_some, Option.map_some]
    · refine Shape.valid hsift.shape ?_ (fun x hx hnot => ?_) fun x hx => ?_
      · rw [hsift.n]
        exact hv.small
      · have hout : x ∉ w.heap.contents := fun h => hnot ((hmem x).mpr h)
        rw [hsift.idx x (fun he => hout (he ▸ hin))
          (fun j hj _ he => hout (hs.around.mem_contents.mpr ⟨j, hj, he⟩)), MinHeap.idx_setTime]
        exact hv.absent x hx hout
      · exact hv.inside x ((hmem x).mp hx)
    · rw [if_pos hin, List.perm_ext_iff_of_nodup hsift.shape.around.nodup hs.around.nodup]
      exact hmem
    · exact (hsift.time x).trans (w.heap.time_setTime (f i) t x)
  · obtain ⟨s', hrun, hi⟩ := minHeapPush_inserted (hs.setTime hin t) (hn hin) hin
    have hidx : noIdx = w.heap.idx e := (hv.idx_eq_iff hk).mpr hin
    refine ⟨.code 0, { w with heap := s' }, ?_, ?_, ⟨rfl, ?_⟩, fun x => ?_⟩
    · simp only [exec, minHeapAdjust, MinHeap.idx_setTime, if_pos hidx, hrun, Option.map_some]
    · refine hi.valid hv (hn hin) rfl rfl (w.heap.idx_setTime e t) w.known fun x => ?_
      exact ⟨.inr, fun h => h.elim (fun he => he ▸ hk) id⟩
    · rw [if_neg hin]
      exact hi.perm (hs.setTime hin t) hin
    · exact (hi.time x).trans (w.heap.time_setTime e t x)

theorem init_effect (hv : Valid w) (he : e ∉ w.heap.contents) :
    ∃ r w', exec w (.init e) = some (r, w') ∧ Valid w' ∧ Effect w (.init e) r w' := by
  obtain ⟨f, hs⟩ := hv.shape
  refine ⟨.void, _, rfl, ?_, rfl, fun x => w.heap.time_setIdx noIdx e x⟩
  refine Shape.valid (hs.setIdx he noIdx) hv.small (fun x hx hnot => ?_) fun x hx => ?_
  · show (w.heap.setIdx e noIdx).idx x = noIdx
    rw [MinHeap.idx_setIdx]
    split
    · rfl
    · rename_i hne
      exact hv.absent x ((List.mem_cons.mp hx).resolve_left hne) hnot
  · exact List.mem_cons_of_mem e (hv.inside x hx)

end

/-! ## Histories -/

theorem call_effect (w : World) (op : Op) (hv : Valid w) (hop : Accepts w op) :
    ∃ r w', exec w op = some (r, w') ∧ Valid w' ∧ Effect w op r w' := by
  cases op with
  | init e => exact init_effect hv hop
  | push e t => exact push_effect hv hop.1 hop.2
  | pop => exact pop_effect hv
  | erase e => exact erase_effect hv hop
  | adjust e t => exact adjust_effect hv hop.1 hop.2

theorem start_valid (entry : Nat → TimerEntry) : Valid (start entry) where
  size := Nat.le_refl 0
  small := Nat.two_pow_pos 31
  filled := fun i hi => absurd hi (Nat.not_lt_zero i)
  order := fun i _ _ _ hi => absurd hi (Nat.not_lt_zero i)
  back := fun i _ hi => absurd hi (Nat.not_lt_zero i)
  absent := fun _ he => absurd he List.not_mem_nil
  inside := fun _ he => absurd he List.not_mem_nil

/--
**Every history of the heap.** From an empty heap, any sequence of allowed calls goes
through, and after it the heap is ordered, the places its entries know are right, and
each next call changes the collection of entries as it should.
-/
theorem heap_histories (entry : Nat → TimerEntry) (ops : List Op)
    (hops : Meets step Accepts (start entry) ops) :
    ∃ w, run step (start entry) ops = some w ∧ Valid w ∧
      ∀ op, Accepts w op → ∃ r w', exec w op = some (r, w') ∧ Valid w' ∧ Effect w op r w' := by
  have hstep : ∀ w op, Valid w → Accepts w op → ∃ w', step w op = some w' ∧ Valid w' := by
    intro w op hv hop
    obtain ⟨r, w', hrun, hv', -⟩ := call_effect w op hv hop
    exact ⟨w', by rw [step, hrun]; rfl, hv'⟩
  obtain ⟨w, hrun, hv⟩ := run_meets Accepts hstep ops (start entry) (start_valid entry) hops
  exact ⟨w, hrun, hv, fun op hop => call_effect w op hv hop⟩

/-- The last entry erased, an outsider erased, and a time changed each way. -/
theorem heap_histories_nine :
    Meets step Accepts (start fun _ => ⟨0, 0⟩) [.push 1 5, .push 2 3, .push 3 9, .erase 3,
      .erase 3, .adjust 1 2, .adjust 3 1, .adjust 3 8, .pop] ∧
    ∃ w, run step (start fun _ => ⟨0, 0⟩) [.push 1 5, .push 2 3, .push 3 9, .erase 3,
      .erase 3, .adjust 1 2, .adjust 3 1, .adjust 3 8, .pop] = some w ∧ Valid w ∧
      ∀ op, Accepts w op → ∃ r w', exec w op = some (r, w') ∧ Valid w' ∧ Effect w op r w' :=
  ⟨by decide +kernel, heap_histories _ _ (by decide +kernel)⟩

end CppTrack.TimerHeap
