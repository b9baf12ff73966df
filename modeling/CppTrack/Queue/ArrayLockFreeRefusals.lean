import CppTrack.Queue.ArrayLockFreeProof

/-!
# When a refusal is true

The tests for a full and for an empty queue compare two indices that were loaded one after
the other, and compare them modulo the size. If the second index has run so far in between
that it comes round to the first, the call returns `false` although the queue was never
full, or never empty. `Unlapped` says that this does not happen at a move; in runs of such
moves every refusal is true.
-/

namespace CppTrack.ArrayQueue

open Lib

variable {α : Type} {size : Nat}

/-- Every call that returned `false` had seen the queue full, or empty. -/
def Truthful (g : Shared α) : Prop :=
  (∀ b ∈ g.refusedFull, b = true) ∧ ∀ b ∈ g.refusedEmpty, b = true

instance (g : Shared α) : Decidable (Truthful g) :=
  inferInstanceAs (Decidable ((∀ b ∈ g.refusedFull, b = true) ∧ ∀ b ∈ g.refusedEmpty, b = true))

/-- The index a test loads second has not come round to the one it loaded first, and no call
is begun beyond those a word can count. -/
def UnlappedAt (size : Nat) (g : Shared α) : Pc α → Prop
  | .idle => g.calls + 1 < 2 ^ 64
  | .enqLoadRead _ w => w < g.readIndex → countToIndex size (w + 1) ≠ countToIndex size g.readIndex
  | .deqLoadMax r => r + size ≤ g.maximumReadIndex →
      countToIndex size r ≠ countToIndex size g.maximumReadIndex
  | _ => True

instance (g : Shared α) : (p : Pc α) → Decidable (UnlappedAt size g p)
  | .idle => inferInstanceAs (Decidable (g.calls + 1 < 2 ^ 64))
  | .enqLoadRead _ w => inferInstanceAs (Decidable (w < g.readIndex →
      countToIndex size (w + 1) ≠ countToIndex size g.readIndex))
  | .deqLoadMax r => inferInstanceAs (Decidable (r + size ≤ g.maximumReadIndex →
      countToIndex size r ≠ countToIndex size g.maximumReadIndex))
  | .enqLoadWrite _ | .enqCas _ _ | .enqStore _ _ | .enqCommit _ | .enqCount | .deqLoadRead
  | .deqCopy _ | .deqCas _ _ | .deqCount => inferInstanceAs (Decidable True)

def Unlapped (size : Nat) (c : Threads (Shared α) (Pc α)) (i : Nat × Act α) : Prop :=
  UnlappedAt size c.shared (c.pc i.1)

instance (c : Threads (Shared α) (Pc α)) (i : Nat × Act α) : Decidable (Unlapped size c i) :=
  inferInstanceAs (Decidable (UnlappedAt size c.shared (c.pc i.1)))

/-- Whoever is calling has seen what there was to see. -/
structure Seen (size : Nat) (g : Shared α) : Prop where
  full : g.isFull size = true → ∀ t, g.sawFull t = true
  empty : g.isEmpty = true → ∀ t, g.sawEmpty t = true
  truthful : Truthful g

/-- A producer that loaded `m_writeIndex` when the queue was full has seen it full. -/
def Saw (size : Nat) (g : Shared α) (t : Nat) : Pc α → Prop
  | .enqLoadRead _ w => w + 1 ≤ g.readIndex + size ∧
      (w + 1 = g.readIndex + size → g.sawFull t = true)
  | _ => True

/-- What a move may do to what was seen. -/
structure Looks (size : Nat) (t : Nat) (g g' : Shared α) (p p' : Pc α) : Prop where
  read_le : g.readIndex ≤ g'.readIndex
  others : ∀ u, u ≠ t → g'.sawFull u = g.sawFull u
  load : ∀ a w, p' = .enqLoadRead a w → w = g'.writeIndex
  full : g'.refusedFull = g.refusedFull ∨
    ∃ a w, p = .enqLoadRead a w ∧ countToIndex size (w + 1) = countToIndex size g.readIndex ∧
      g'.refusedFull = g.sawFull t :: g.refusedFull
  empty : g'.refusedEmpty = g.refusedEmpty ∨
    ∃ r, p = .deqLoadMax r ∧ countToIndex size r = countToIndex size g.maximumReadIndex ∧
      g'.refusedEmpty = g.sawEmpty t :: g.refusedEmpty

section

variable {g g' : Shared α} {t : Nat} {p p' : Pc α}

theorem readIndex_count (g : Shared α) (n : Nat) :
    ({ g with count := n } : Shared α).readIndex = g.readIndex := rfl

/-- A move that leaves alone what this is about. -/
theorem Looks.quiet (hread : g.readIndex ≤ g'.readIndex)
    (hsaw : ∀ u, u ≠ t → g'.sawFull u = g.sawFull u) (hfull : g'.refusedFull = g.refusedFull)
    (hempty : g'.refusedEmpty = g.refusedEmpty) (hload : ∀ a w, p' ≠ .enqLoadRead a w) :
    Looks size t g g' p p' where
  read_le := hread
  others := hsaw
  load := fun a w he => absurd he (hload a w)
  full := .inl hfull
  empty := .inl hempty

theorem act_looks {i : Act α} (hg : Sound size g) (hp : Own size g p)
    (hword : g.writeIndex < 2 ^ 64) (hcalling : Calling p → g.writeIndex + 1 < 2 ^ 64)
    (hact : act size t g p i = some (g', p')) : Looks size t g g' p p' := by
  cases acts_of_act hact with
  | enqueue a =>
      exact .quiet (Nat.le_refl _) (fun u hu => Function.update_of_ne hu _ _) rfl rfl nofun
  | dequeue =>
      exact .quiet (Nat.le_refl _) (fun u hu => Function.update_of_ne hu _ _) rfl rfl nofun
  | loadWrite a =>
      refine ⟨Nat.le_refl _, fun _ _ => rfl, fun b w he => ?_, .inl rfl, .inl rfl⟩
      exact (Pc.enqLoadRead.inj he).2.symm
  | @full a w htest =>
      -- refused as full
      have hcalling := hcalling trivial
      have hle : w ≤ g.writeIndex := hp
      rw [addU64_of_lt (show w + 1 < 2 ^ 64 by omega)] at htest
      exact ⟨Nat.le_refl _, fun _ _ => rfl, nofun, .inr ⟨a, w, rfl, htest, rfl⟩, .inl rfl⟩
  | reserved a =>
      generalize addU64 g.writeIndex 1 = n
      exact .quiet (Nat.le_refl _) (fun _ _ => rfl) rfl rfl nofun
  | committed =>
      generalize addU64 g.maximumReadIndex 1 = n
      exact .quiet (Nat.le_refl _) (fun _ _ => rfl) rfl rfl nofun
  | counted n h =>
      exact .quiet (Nat.le_of_eq (readIndex_count g n).symm) (fun _ _ => rfl) rfl rfl nofun
  | @empty r htest =>
      -- refused as empty
      exact ⟨Nat.le_refl _, fun _ _ => rfl, nofun, .inl rfl, .inr ⟨r, rfl, htest, rfl⟩⟩
  | taken a =>
      obtain ⟨hle, hlt, -⟩ := hp
      have hmax := hg.max_le
      rw [addU64_of_lt (show g.readIndex + 1 < 2 ^ 64 by omega)]
      exact .quiet (Nat.le_succ _) (fun _ _ => rfl) rfl rfl nofun
  | _ => exact .quiet (Nat.le_refl _) (fun _ _ => rfl) rfl rfl nofun

/-! ## The two tests -/

/-- A producer that is refused and was not lapped has seen the queue full. -/
theorem full_of_test {w : Nat} (hsaw : w + 1 ≤ g.readIndex + size)
    (htest : countToIndex size (w + 1) = countToIndex size g.readIndex)
    (hun : w < g.readIndex → countToIndex size (w + 1) ≠ countToIndex size g.readIndex) :
    w + 1 = g.readIndex + size := by
  rcases Nat.lt_or_ge w g.readIndex with hlt | hge
  · exact absurd htest (hun hlt)
  · rcases Nat.lt_or_eq_of_le hsaw with hlt | heq
    · exact absurd htest.symm (slot_ne (by omega) hlt)
    · exact heq

/-- A consumer that is refused and was not lapped finds the queue empty. -/
theorem empty_of_test {r : Nat} (hg : Sound size g) (hle : r ≤ g.readIndex)
    (htest : countToIndex size r = countToIndex size g.maximumReadIndex)
    (hun : r + size ≤ g.maximumReadIndex →
      countToIndex size r ≠ countToIndex size g.maximumReadIndex) : g.isEmpty = true := by
  have hread := hg.read_le
  rcases Nat.lt_or_ge g.maximumReadIndex (r + size) with hlt | hge
  · rcases Nat.lt_or_ge r g.maximumReadIndex with hr | hr
    · exact absurd htest (slot_ne hr hlt)
    · exact beq_iff_eq.mpr (show g.readIndex = g.maximumReadIndex by omega)
  · exact absurd htest (hun hge)

end

/-! ## Runs -/

section

variable {c c' : Threads (Shared α) (Pc α)} {i : Nat × Act α}

/-- What every thread has seen is kept with the rest. -/
def Watched (size : Nat) (c : Threads (Shared α) (Pc α)) : Prop :=
  Invariant (Seen size) (Saw size) (fun _ _ => True) c

theorem watched_step (hcount : Counted c) (hinv : Inv size c) (hcalls : c.shared.calls < 2 ^ 64)
    (hw : Watched size c) (hun : Unlapped size c i) (hstep : c.step (move size) i = some c') :
    Watched size c' := by
  have hsound' := (inv_step hcount hinv hcalls hstep).shared
  obtain ⟨n, hn, hle⟩ := hcount
  obtain ⟨g₁, p₁, hact₁, rfl⟩ := step_act hstep
  refine interference_free (fun _ _ _ => trivial) (fun g p hmove => ?_) hw hstep
  obtain ⟨x, hact, hx⟩ := Option.map_eq_some_iff.mp hmove
  obtain ⟨rfl, rfl⟩ := Prod.mk.inj hx
  obtain ⟨rfl, rfl⟩ := Prod.mk.inj (Option.some.inj (hact₁.symm.trans hact))
  have hlook := act_looks hinv.shared (hinv.own i.1) (by omega)
    (fun hin => by have := hn.pos hin; omega) hact
  have hown := hinv.own i.1
  have hsaw := hw.own i.1
  unfold Unlapped UnlappedAt at hun
  refine ⟨⟨fun h t => ?_, fun h t => ?_, ?_, ?_⟩, ?_, fun u hu => ⟨?_, trivial⟩⟩
  · exact Bool.or_eq_true_iff.mpr (.inr h)
  · exact Bool.or_eq_true_iff.mpr (.inr h)
  · intro b hb
    rcases hlook.full with hsame | ⟨a, w, hp, htest, hcons⟩
    · exact hw.shared.truthful.1 b (hsame ▸ hb)
    · rcases List.mem_cons.mp (hcons ▸ hb) with rfl | hb
      · rw [hp] at hun hsaw
        exact hsaw.2 (full_of_test hsaw.1 htest hun)
      · exact hw.shared.truthful.1 b hb
  · intro b hb
    rcases hlook.empty with hsame | ⟨r, hp, htest, hcons⟩
    · exact hw.shared.truthful.2 b (hsame ▸ hb)
    · rcases List.mem_cons.mp (hcons ▸ hb) with rfl | hb
      · rw [hp] at hun hown
        exact hw.shared.empty (empty_of_test hinv.shared hown htest hun) i.1
      · exact hw.shared.truthful.2 b hb
  · -- who has just loaded `m_writeIndex` sees the queue as it is now
    cases hp : x.2 with
    | enqLoadRead a w =>
        have hw := hlook.load a w hp
        have hroom := hsound'.write_le
        subst hw
        refine ⟨hroom, fun he => Bool.or_eq_true_iff.mpr (.inr ?_)⟩
        exact beq_iff_eq.mpr he
    | _ => trivial
  · have hq := hw.own u
    generalize c.pc u = q at hq ⊢
    cases q with
    | enqLoadRead a w =>
        have hread := hlook.read_le
        obtain ⟨h₁, h₂⟩ := hq
        refine ⟨show w + 1 ≤ x.1.readIndex + size by omega, fun he => ?_⟩
        have he : w + 1 = x.1.readIndex + size := he
        refine Bool.or_eq_true_iff.mpr (.inl ?_)
        rw [hlook.others u hu]
        exact h₂ (by omega)
    | _ => trivial

theorem start_watched (hsize : 2 ≤ size) (mem : Nat → α) : Watched size (start mem) := by
  refine ⟨⟨fun h => ?_, fun _ _ => rfl, by simp [start, Truthful]⟩, fun _ => trivial,
    fun _ _ _ => trivial⟩
  have h : 0 + 1 = 0 + size := beq_iff_eq.mp h
  omega

theorem unlapped_calls (hcalls : c.shared.calls < 2 ^ 64) (hun : Unlapped size c i)
    (hstep : c.step (move size) i = some c') : c'.shared.calls < 2 ^ 64 := by
  obtain ⟨g, p, hact, rfl⟩ := step_act hstep
  show g.calls < 2 ^ 64
  rcases act_counts hact with ⟨hidle, -, h⟩ | ⟨-, -, -, h⟩ | ⟨-, -, h⟩
  · unfold Unlapped at hun
    rw [hidle] at hun
    rw [h]
    exact hun
  · rwa [h]
  · rwa [h]

end

/--
**Refusals are true where no test is lapped.** In a run in which no test finds the index it
loads second come round to the one it loaded first, a call that returned `false` had seen
the queue full, or empty.
-/
theorem refusals_truthful (hsize : 2 ≤ size) (mem : Nat → α) (moves : List (Nat × Act α))
    (c : Threads (Shared α) (Pc α))
    (hmoves : Meets (Threads.step (move size)) (Unlapped size) (start mem) moves)
    (hrun : runs size mem moves = some c) : Truthful c.shared := by
  have hstep : ∀ (c : Threads (Shared α) (Pc α)) i c',
      (c.shared.calls < 2 ^ 64 ∧ Counted c ∧ Inv size c ∧ Watched size c) →
      Unlapped size c i → c.step (move size) i = some c' →
      c'.shared.calls < 2 ^ 64 ∧ Counted c' ∧ Inv size c' ∧ Watched size c' := by
    rintro c i c' ⟨hcalls, hcount, hinv, hw⟩ hun hstep
    exact ⟨unlapped_calls hcalls hun hstep, (counted_step hcount hstep).1,
      inv_step hcount hinv hcalls hstep, watched_step hcount hinv hcalls hw hun hstep⟩
  have h := run_keeps_meets (Unlapped size) hstep moves
    ⟨Nat.two_pow_pos 64, (start_inv hsize mem).1, (start_inv hsize mem).2,
      start_watched hsize mem⟩ hmoves hrun
  exact h.2.2.2.shared.truthful

/-- A whole `enqueue` by itself, and a whole `dequeue`. -/
def enqueueAlone (t a : Nat) : List (Nat × Act Nat) := (t, .enqueue a) :: List.replicate 6 (t, .go)

def dequeueAlone (t : Nat) : List (Nat × Act Nat) := (t, .dequeue) :: List.replicate 5 (t, .go)

theorem refusals_truthful_two :
    ∃ c, Meets (Threads.step (move 2)) (Unlapped 2) (start fun _ => 0)
        ([(2, .dequeue), (2, .go), (2, .go)] ++ enqueueAlone 0 7 ++
          [(1, .enqueue 8), (1, .go), (1, .go)] ++ dequeueAlone 2) ∧
      runs 2 (fun _ => 0) ([(2, .dequeue), (2, .go), (2, .go)] ++ enqueueAlone 0 7 ++
          [(1, .enqueue 8), (1, .go), (1, .go)] ++ dequeueAlone 2) = some c ∧
      c.shared.refusedFull.length = 1 ∧ c.shared.refusedEmpty.length = 1 ∧ Truthful c.shared := by
  have h : (runs 2 (fun _ => 0) ([(2, .dequeue), (2, .go), (2, .go)] ++ enqueueAlone 0 7 ++
      [(1, .enqueue 8), (1, .go), (1, .go)] ++ dequeueAlone 2)).any (fun c =>
        c.shared.refusedFull.length = 1 ∧ c.shared.refusedEmpty.length = 1) = true := by
    decide +kernel
  obtain ⟨c, hrun, hc⟩ := (Option.any_eq_true _ _).mp h
  have hc := of_decide_eq_true hc
  have hm : Meets (Threads.step (move 2)) (Unlapped 2) (start fun _ => 0)
      ([(2, .dequeue), (2, .go), (2, .go)] ++ enqueueAlone 0 7 ++
        [(1, .enqueue 8), (1, .go), (1, .go)] ++ dequeueAlone 2) := by decide +kernel
  exact ⟨c, hm, hrun, hc.1, hc.2, refusals_truthful (Nat.le_refl 2) _ _ c hm hrun⟩

/-- Between the two loads of thread 0 one element goes through the queue: it is refused, and
the queue never held more than that one. And between the two loads of another consumer two
elements come and one goes: it is refused, and the queue was never empty. -/
theorem refusal_untrue :
    (∃ c, runs 3 (fun _ => 0) ([(0, .enqueue 7), (0, .go)] ++ enqueueAlone 1 8 ++
        dequeueAlone 2 ++ [(0, .go)]) = some c ∧ ¬ ∀ b ∈ c.shared.refusedFull, b = true) ∧
    ∃ c, runs 3 (fun _ => 0) (enqueueAlone 1 7 ++ [(0, .dequeue), (0, .go)] ++
        enqueueAlone 1 8 ++ dequeueAlone 2 ++ enqueueAlone 1 9 ++ [(0, .go)]) = some c ∧
      ¬ ∀ b ∈ c.shared.refusedEmpty, b = true := by
  have h₁ : (runs 3 (fun _ => 0) ([(0, .enqueue 7), (0, .go)] ++ enqueueAlone 1 8 ++
      dequeueAlone 2 ++ [(0, .go)])).any
        (fun c => ¬ ∀ b ∈ c.shared.refusedFull, b = true) = true := by decide +kernel
  have h₂ : (runs 3 (fun _ => 0) (enqueueAlone 1 7 ++ [(0, .dequeue), (0, .go)] ++
      enqueueAlone 1 8 ++ dequeueAlone 2 ++ enqueueAlone 1 9 ++ [(0, .go)])).any
        (fun c => ¬ ∀ b ∈ c.shared.refusedEmpty, b = true) = true := by decide +kernel
  obtain ⟨c, hrun, hc⟩ := (Option.any_eq_true _ _).mp h₁
  obtain ⟨c', hrun', hc'⟩ := (Option.any_eq_true _ _).mp h₂
  exact ⟨⟨c, hrun, of_decide_eq_true hc⟩, ⟨c', hrun', of_decide_eq_true hc'⟩⟩

end CppTrack.ArrayQueue
