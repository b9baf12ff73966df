import CppTrack.Queue.ArrayLockFree

/-!
# No loss, no duplication, first in first out

The stale copies a thread holds are harmless because the indices only grow. A consumer
may copy a slot that is being overwritten, but only if `m_readIndex` has left the index it
loaded, and then its CAS fails: so what is required of the copy (`Own`) is required only
while `m_readIndex` is still there. A producer's reserved slot is nobody else's (`Apart`).

Indices are words. They do not wrap because each of them counts finished calls, and the
call that would wrap one is not finished (`Counted`).
-/

namespace CppTrack.ArrayQueue

open Lib

variable {α : Type} {size : Nat}

/-- The index a producer has reserved and not committed. -/
def reserved : Pc α → Option Nat
  | .enqStore _ w => some w
  | .enqCommit w => some w
  | _ => none

/-- No two producers have reserved the same index. -/
def Apart (p q : Pc α) : Prop := ∀ w, reserved p = some w → reserved q ≠ some w

/-- The shared state between two moves. -/
structure Sound (size : Nat) (g : Shared α) : Prop where
  read_le : g.readIndex ≤ g.maximumReadIndex
  max_le : g.maximumReadIndex ≤ g.writeIndex
  write_le : g.writeIndex + 1 ≤ g.readIndex + size
  enqueued : g.enqueued.length = g.writeIndex
  dequeued : g.dequeued = g.enqueued.take g.readIndex
  slots : ∀ i, g.readIndex ≤ i → i < g.maximumReadIndex →
    g.enqueued[i]? = some (g.thequeue (countToIndex size i))

/-- What a thread relies on. -/
def Own (size : Nat) (g : Shared α) : Pc α → Prop
  | .enqLoadRead _ w => w ≤ g.writeIndex
  | .enqCas _ w => w ≤ g.writeIndex ∧ (w = g.writeIndex → w + 2 ≤ g.readIndex + size)
  | .enqStore a w => g.maximumReadIndex ≤ w ∧ w < g.writeIndex ∧ g.enqueued[w]? = some a
  | .enqCommit w => g.maximumReadIndex ≤ w ∧ w < g.writeIndex ∧
      g.enqueued[w]? = some (g.thequeue (countToIndex size w))
  | .deqLoadMax r => r ≤ g.readIndex
  | .deqCopy r => r ≤ g.readIndex ∧ r < g.maximumReadIndex
  | .deqCas r a => r ≤ g.readIndex ∧ r < g.maximumReadIndex ∧
      (r = g.readIndex → g.enqueued[r]? = some a)
  | _ => True

theorem apart_symm {p q : Pc α} (h : Apart p q) : Apart q p := fun w hq hp => h w hp hq

theorem apart_of_none {p : Pc α} (hp : reserved p = none) (q : Pc α) : Apart p q :=
  fun w hw => by rw [hp] at hw; exact absurd hw (by simp)

/-- Two indices less than the size apart are not in the same slot. -/
theorem slot_ne {i j : Nat} (hij : i < j) (hj : j < i + size) :
    countToIndex size i ≠ countToIndex size j := by
  intro he
  have hd : size ∣ j - i := Nat.dvd_of_mod_eq_zero (Nat.sub_mod_eq_zero_of_mod_eq he.symm)
  have := Nat.eq_zero_of_dvd_of_lt hd (by omega)
  omega

/-! ## The four ways the shared state changes -/

section

variable {g : Shared α} {q : Pc α}

/-- A slot is reserved. -/
def reserve (g : Shared α) (a : α) : Shared α :=
  { g with writeIndex := g.writeIndex + 1, enqueued := g.enqueued ++ [a] }

/-- A slot is filled. -/
def fill (size : Nat) (g : Shared α) (a : α) (w : Nat) : Shared α :=
  { g with thequeue := Function.update g.thequeue (countToIndex size w) a }

/-- A slot is committed. -/
def commit (g : Shared α) : Shared α := { g with maximumReadIndex := g.maximumReadIndex + 1 }

/-- A slot is given up, and its value kept. -/
def consume (g : Shared α) (a : α) : Shared α :=
  { g with readIndex := g.readIndex + 1, dequeued := g.dequeued ++ [a] }

theorem getElem?_append_of_some {l : List α} {a : α} {i : Nat} (h : l[i]? = some a) (b : α) :
    (l ++ [b])[i]? = some a := by
  have hlt := (List.getElem?_eq_some_iff.mp h).1
  rw [List.getElem?_append_left hlt, h]

theorem reserve_sound (hg : Sound size g) (a : α) (hroom : g.writeIndex + 2 ≤ g.readIndex + size) :
    Sound size (reserve g a) where
  read_le := hg.read_le
  max_le := Nat.le_succ_of_le hg.max_le
  write_le := hroom
  enqueued := by simp [reserve, hg.enqueued]
  dequeued := by
    have := hg.read_le
    have := hg.max_le
    show g.dequeued = (g.enqueued ++ [a]).take g.readIndex
    rw [List.take_append_of_le_length (by rw [hg.enqueued]; omega)]
    exact hg.dequeued
  slots := fun i h₁ h₂ => getElem?_append_of_some (hg.slots i h₁ h₂) a

theorem reserve_own (a : α) (hq : Own size g q) : Own size (reserve g a) q := by
  cases q with
  | enqLoadRead b w => exact Nat.le_succ_of_le hq
  | enqCas b w =>
      refine ⟨Nat.le_succ_of_le hq.1, fun he => ?_⟩
      have he : w = g.writeIndex + 1 := he
      have := hq.1
      omega
  | enqStore b w => exact ⟨hq.1, Nat.lt_succ_of_lt hq.2.1, getElem?_append_of_some hq.2.2 a⟩
  | enqCommit w => exact ⟨hq.1, Nat.lt_succ_of_lt hq.2.1, getElem?_append_of_some hq.2.2 a⟩
  | deqLoadMax r => exact hq
  | deqCopy r => exact hq
  | deqCas r b => exact ⟨hq.1, hq.2.1, fun he => getElem?_append_of_some (hq.2.2 he) a⟩
  | _ => trivial

theorem fill_sound (hg : Sound size g) {a : α} {w : Nat} (h₁ : g.maximumReadIndex ≤ w)
    (h₂ : w < g.writeIndex) : Sound size (fill size g a w) where
  read_le := hg.read_le
  max_le := hg.max_le
  write_le := hg.write_le
  enqueued := hg.enqueued
  dequeued := hg.dequeued
  slots := by
    intro i hi hlt
    have hlt : i < g.maximumReadIndex := hlt
    have hi : g.readIndex ≤ i := hi
    have := hg.write_le
    show g.enqueued[i]? = some (Function.update g.thequeue _ a _)
    rw [Function.update_of_ne (slot_ne (by omega) (by omega))]
    exact hg.slots i hi hlt

/-- Only who has reserved the slot relies on what is in it. -/
theorem fill_own (hg : Sound size g) {a : α} {w : Nat} (h₁ : g.maximumReadIndex ≤ w)
    (h₂ : w < g.writeIndex) (hq : Own size g q) (hne : reserved q ≠ some w) :
    Own size (fill size g a w) q := by
  cases q with
  | enqCommit v =>
      have hvw : v ≠ w := fun he => hne (congrArg some he)
      obtain ⟨hv₁, hv₂, hv₃⟩ := hq
      have := hg.write_le
      have := hg.read_le
      refine ⟨hv₁, hv₂, ?_⟩
      show g.enqueued[v]? = some (Function.update g.thequeue _ a _)
      rw [Function.update_of_ne, hv₃]
      rcases Nat.lt_or_gt_of_ne hvw with hlt | hgt
      · exact slot_ne hlt (by omega)
      · exact (slot_ne hgt (by omega)).symm
  | _ => exact hq

theorem commit_sound (hg : Sound size g) (hlt : g.maximumReadIndex < g.writeIndex)
    (hslot : g.enqueued[g.maximumReadIndex]? =
      some (g.thequeue (countToIndex size g.maximumReadIndex))) : Sound size (commit g) where
  read_le := Nat.le_succ_of_le hg.read_le
  max_le := hlt
  write_le := hg.write_le
  enqueued := hg.enqueued
  dequeued := hg.dequeued
  slots := by
    intro i hi hlt
    rcases Nat.lt_or_eq_of_le (Nat.le_of_lt_succ hlt) with h | h
    · exact hg.slots i hi h
    · rw [show i = g.maximumReadIndex from h]
      exact hslot

theorem commit_own (hq : Own size g q) (hne : reserved q ≠ some g.maximumReadIndex) :
    Own size (commit g) q := by
  cases q with
  | enqStore b w =>
      refine ⟨Nat.lt_of_le_of_ne hq.1 fun he => hne ?_, hq.2⟩
      exact congrArg some he.symm
  | enqCommit w =>
      refine ⟨Nat.lt_of_le_of_ne hq.1 fun he => hne ?_, hq.2⟩
      exact congrArg some he.symm
  | deqCopy r => exact ⟨hq.1, Nat.lt_succ_of_lt hq.2⟩
  | deqCas r b => exact ⟨hq.1, Nat.lt_succ_of_lt hq.2.1, hq.2.2⟩
  | _ => exact hq

theorem consume_sound (hg : Sound size g) {a : α} (hlt : g.readIndex < g.maximumReadIndex)
    (ha : g.enqueued[g.readIndex]? = some a) : Sound size (consume g a) where
  read_le := hlt
  max_le := hg.max_le
  write_le := by
    have := hg.write_le
    show g.writeIndex + 1 ≤ g.readIndex + 1 + size
    omega
  enqueued := hg.enqueued
  dequeued := by
    show g.dequeued ++ [a] = g.enqueued.take (g.readIndex + 1)
    rw [List.take_add_one, ha, hg.dequeued]
    rfl
  slots := fun i hi h => hg.slots i (Nat.le_of_succ_le hi) h

theorem consume_own {a : α} (hq : Own size g q) : Own size (consume g a) q := by
  cases q with
  | enqCas b w =>
      refine ⟨hq.1, fun he => ?_⟩
      have := hq.2 he
      show w + 2 ≤ g.readIndex + 1 + size
      omega
  | deqLoadMax r => exact Nat.le_succ_of_le hq
  | deqCopy r => exact ⟨Nat.le_succ_of_le hq.1, hq.2⟩
  | deqCas r b =>
      refine ⟨Nat.le_succ_of_le hq.1, hq.2.1, fun he => ?_⟩
      -- a consumer that was there when it looked is late now
      have he : r = g.readIndex + 1 := he
      have := hq.1
      omega
  | _ => exact hq

/-! ## One move -/

/-- A call that has yet to reserve its slot. -/
def Calling : Pc α → Prop
  | .enqLoadWrite _ => True
  | .enqLoadRead _ _ => True
  | .enqCas _ _ => True
  | _ => False

theorem sound_congr {g' : Shared α} (hq : g'.toQueue = g.toQueue) (he : g'.enqueued = g.enqueued)
    (hd : g'.dequeued = g.dequeued) (hg : Sound size g) : Sound size g' := by
  obtain ⟨h₁, h₂, h₃, h₄, h₅, h₆⟩ := hg
  constructor <;> simpa only [hq, he, hd]

theorem own_congr {g' : Shared α} (hq : g'.toQueue = g.toQueue) (he : g'.enqueued = g.enqueued)
    {q : Pc α} (h : Own size g q) : Own size g' q := by
  cases q <;> simp only [Own, hq, he] at h ⊢ <;> exact h

theorem Own.reserved_lt {q : Pc α} (hq : Own size g q) {w : Nat} (hw : reserved q = some w) :
    w < g.writeIndex := by
  cases q with
  | enqStore a v => exact Option.some.inj hw ▸ hq.2.1
  | enqCommit v => exact Option.some.inj hw ▸ hq.2.1
  | _ => exact absurd hw (by simp [reserved])

/-- What a move has to leave behind. -/
structure Keeps (size : Nat) (g g' : Shared α) (p p' : Pc α) : Prop where
  sound : Sound size g'
  own : Own size g' p'
  others : ∀ q, Own size g q → Apart p q → Own size g' q
  apart : ∀ q, Own size g q → Apart p q → Apart p' q

/-- A move that changes nothing that matters to the queue. -/
theorem Keeps.quiet {g' : Shared α} {p p' : Pc α} (hg : Sound size g)
    (hq : g'.toQueue = g.toQueue) (he : g'.enqueued = g.enqueued)
    (hd : g'.dequeued = g.dequeued) (hown : Own size g p') (hres : reserved p' = none) :
    Keeps size g g' p p' where
  sound := sound_congr hq he hd hg
  own := own_congr hq he hown
  others := fun _ h _ => own_congr hq he h
  apart := fun q _ _ => apart_of_none hres q

/-- The queue counts its elements too, but nothing depends on it. -/
theorem Keeps.count {p p' : Pc α} (hg : Sound size g) (n : Nat) (hown : Own size g p')
    (hres : reserved p' = none) : Keeps size g { g with count := n } p p' := by
  refine ⟨?_, ?_, fun q h _ => ?_, fun q _ _ => apart_of_none hres q⟩
  · obtain ⟨h₁, h₂, h₃, h₄, h₅, h₆⟩ := hg
    exact ⟨h₁, h₂, h₃, h₄, h₅, h₆⟩
  · cases p' <;> exact hown
  · cases q <;> exact h

/-- The reserved place is above every other, so no writer holds it. -/
theorem reserve_keeps (hg : Sound size g) {a : α} (hp : Own size g (.enqCas a g.writeIndex)) :
    Keeps size g (reserve g a) (.enqCas a g.writeIndex) (.enqStore a g.writeIndex) where
  sound := reserve_sound hg a (hp.2 rfl)
  own := by
    refine ⟨hg.max_le, Nat.lt_succ_self _, ?_⟩
    show (g.enqueued ++ [a])[g.writeIndex]? = some a
    rw [← hg.enqueued, List.getElem?_concat_length]
  others := fun _ hq _ => reserve_own a hq
  apart := by
    intro q hq _ w hw hqw
    have hw : g.writeIndex = w := Option.some.inj hw
    have := hq.reserved_lt hqw
    omega

/-- No other writer has reserved this place. -/
theorem fill_keeps (hg : Sound size g) {a : α} {w : Nat} (hp : Own size g (.enqStore a w)) :
    Keeps size g (fill size g a w) (.enqStore a w) (.enqCommit w) where
  sound := fill_sound hg hp.1 hp.2.1
  own := by
    refine ⟨hp.1, hp.2.1, ?_⟩
    show g.enqueued[w]? = some (Function.update g.thequeue _ a _)
    rw [Function.update_self]
    exact hp.2.2
  others := fun _ hq hap => fill_own hg hp.1 hp.2.1 hq (hap w rfl)
  apart := fun _ _ hap => hap

/-- The place is the lowest that is reserved and not committed. -/
theorem commit_keeps (hg : Sound size g) (hp : Own size g (.enqCommit g.maximumReadIndex)) :
    Keeps size g (commit g) (.enqCommit g.maximumReadIndex) .enqCount where
  sound := commit_sound hg hp.2.1 hp.2.2
  own := trivial
  others := fun _ hq hap => commit_own hq (hap _ rfl)
  apart := fun q _ _ => apart_of_none rfl q

/-- Nobody has taken since the copy, so the copy is still what is first. -/
theorem consume_keeps (hg : Sound size g) {a : α} (hp : Own size g (.deqCas g.readIndex a)) :
    Keeps size g (consume g a) (.deqCas g.readIndex a) .deqCount where
  sound := consume_sound hg hp.2.1 (hp.2.2 rfl)
  own := trivial
  others := fun _ hq _ => consume_own hq
  apart := fun q _ _ => apart_of_none rfl q

/-- What a move does, branch by branch. -/
inductive Acts (size t : Nat) (g : Shared α) : Pc α → Shared α → Pc α → Prop
  | enqueue (a : α) : Acts size t g .idle (g.begin t) (.enqLoadWrite a)
  | dequeue : Acts size t g .idle (g.begin t) .deqLoadRead
  | loadWrite (a : α) : Acts size t g (.enqLoadWrite a) g (.enqLoadRead a g.writeIndex)
  | full {a : α} {w : Nat}
      (h : countToIndex size (addU64 w 1) = countToIndex size g.readIndex) :
      Acts size t g (.enqLoadRead a w)
        { g with refusedFull := g.sawFull t :: g.refusedFull } .idle
  | notFull {a : α} {w : Nat}
      (h : countToIndex size (addU64 w 1) ≠ countToIndex size g.readIndex) :
      Acts size t g (.enqLoadRead a w) g (.enqCas a w)
  | reserved (a : α) : Acts size t g (.enqCas a g.writeIndex)
      { g with writeIndex := addU64 g.writeIndex 1, enqueued := g.enqueued ++ [a] }
      (.enqStore a g.writeIndex)
  | overtaken (a : α) (w : Nat) : Acts size t g (.enqCas a w) g (.enqLoadWrite a)
  | stored (a : α) (w : Nat) : Acts size t g (.enqStore a w)
      { g with thequeue := Function.update g.thequeue (countToIndex size w) a } (.enqCommit w)
  | committed : Acts size t g (.enqCommit g.maximumReadIndex)
      { g with maximumReadIndex := addU64 g.maximumReadIndex 1 } .enqCount
  | waits (w : Nat) : Acts size t g (.enqCommit w) g (.enqCommit w)
  | counted {p : Pc α} (n : Nat) (h : p = .enqCount ∨ p = .deqCount) :
      Acts size t g p { g with count := n } .idle
  | loadRead : Acts size t g .deqLoadRead g (.deqLoadMax g.readIndex)
  | empty {r : Nat} (h : countToIndex size r = countToIndex size g.maximumReadIndex) :
      Acts size t g (.deqLoadMax r)
        { g with refusedEmpty := g.sawEmpty t :: g.refusedEmpty } .idle
  | notEmpty {r : Nat} (h : countToIndex size r ≠ countToIndex size g.maximumReadIndex) :
      Acts size t g (.deqLoadMax r) g (.deqCopy r)
  | copied (r : Nat) :
      Acts size t g (.deqCopy r) g (.deqCas r (g.thequeue (countToIndex size r)))
  | taken (a : α) : Acts size t g (.deqCas g.readIndex a)
      { g with readIndex := addU64 g.readIndex 1, dequeued := g.dequeued ++ [a] } .deqCount
  | late (r : Nat) (a : α) : Acts size t g (.deqCas r a) g .deqLoadRead

theorem acts_of_act {t : Nat} {g' : Shared α} {p p' : Pc α} {i : Act α}
    (hact : act size t g p i = some (g', p')) : Acts size t g p g' p' := by
  cases i with
  | enqueue a =>
      cases p <;> simp only [act, reduceCtorEq, Option.some.injEq, Prod.mk.injEq] at hact
      obtain ⟨rfl, rfl⟩ := hact
      exact .enqueue a
  | dequeue =>
      cases p <;> simp only [act, reduceCtorEq, Option.some.injEq, Prod.mk.injEq] at hact
      obtain ⟨rfl, rfl⟩ := hact
      exact .dequeue
  | go =>
      cases p with
      | idle => exact absurd hact (by simp [act])
      | enqLoadWrite a =>
          obtain ⟨rfl, rfl⟩ := Prod.mk.inj (Option.some.inj hact)
          exact .loadWrite a
      | enqLoadRead a w =>
          simp only [act] at hact
          split_ifs at hact with htest
          · obtain ⟨rfl, rfl⟩ := Prod.mk.inj (Option.some.inj hact)
            exact .full htest
          · obtain ⟨rfl, rfl⟩ := Prod.mk.inj (Option.some.inj hact)
            exact .notFull htest
      | enqCas a w =>
          simp only [act] at hact
          split_ifs at hact with hcas
          · subst hcas
            obtain ⟨rfl, rfl⟩ := Prod.mk.inj (Option.some.inj hact)
            exact .reserved a
          · obtain ⟨rfl, rfl⟩ := Prod.mk.inj (Option.some.inj hact)
            exact .overtaken a w
      | enqStore a w =>
          obtain ⟨rfl, rfl⟩ := Prod.mk.inj (Option.some.inj hact)
          exact .stored a w
      | enqCommit w =>
          simp only [act] at hact
          split_ifs at hact with hcas
          · subst hcas
            obtain ⟨rfl, rfl⟩ := Prod.mk.inj (Option.some.inj hact)
            exact .committed
          · obtain ⟨rfl, rfl⟩ := Prod.mk.inj (Option.some.inj hact)
            exact .waits w
      | enqCount =>
          obtain ⟨rfl, rfl⟩ := Prod.mk.inj (Option.some.inj hact)
          exact .counted _ (.inl rfl)
      | deqLoadRead =>
          obtain ⟨rfl, rfl⟩ := Prod.mk.inj (Option.some.inj hact)
          exact .loadRead
      | deqLoadMax r =>
          simp only [act] at hact
          split_ifs at hact with htest
          · obtain ⟨rfl, rfl⟩ := Prod.mk.inj (Option.some.inj hact)
            exact .empty htest
          · obtain ⟨rfl, rfl⟩ := Prod.mk.inj (Option.some.inj hact)
            exact .notEmpty htest
      | deqCopy r =>
          obtain ⟨rfl, rfl⟩ := Prod.mk.inj (Option.some.inj hact)
          exact .copied r
      | deqCas r a =>
          simp only [act] at hact
          split_ifs at hact with hcas
          · subst hcas
            obtain ⟨rfl, rfl⟩ := Prod.mk.inj (Option.some.inj hact)
            exact .taken a
          · obtain ⟨rfl, rfl⟩ := Prod.mk.inj (Option.some.inj hact)
            exact .late r a
      | deqCount =>
          obtain ⟨rfl, rfl⟩ := Prod.mk.inj (Option.some.inj hact)
          exact .counted _ (.inr rfl)

theorem act_keeps {t : Nat} {g' : Shared α} {p p' : Pc α} {i : Act α} (hg : Sound size g)
    (hp : Own size g p) (hcalling : Calling p → g.writeIndex + 1 < 2 ^ 64)
    (hword : g.writeIndex < 2 ^ 64) (hact : act size t g p i = some (g', p')) :
    Keeps size g g' p p' := by
  cases acts_of_act hact with
  | enqueue a => exact .quiet hg rfl rfl rfl trivial rfl
  | dequeue => exact .quiet hg rfl rfl rfl trivial rfl
  | loadWrite a => exact .quiet hg rfl rfl rfl (Nat.le_refl _) rfl
  | full htest => exact .quiet hg rfl rfl rfl trivial rfl
  | @notFull a w hne =>
      -- the queue is not full if nobody has reserved since
      have hcalling := hcalling trivial
      have hle : w ≤ g.writeIndex := hp
      rw [addU64_of_lt (show w + 1 < 2 ^ 64 by omega)] at hne
      refine .quiet hg rfl rfl rfl ⟨hle, fun he => ?_⟩ rfl
      have hroom := hg.write_le
      rcases Nat.lt_or_eq_of_le hroom with hlt | heq
      · omega
      · refine absurd ?_ hne
        rw [he, heq, countToIndex, Nat.add_mod_right, ← countToIndex]
  | reserved a =>
      rw [addU64_of_lt (hcalling trivial)]
      exact reserve_keeps hg hp
  | overtaken a w => exact .quiet hg rfl rfl rfl trivial rfl
  | stored a w => exact fill_keeps hg hp
  | committed =>
      have hlt := hp.2.1
      rw [addU64_of_lt (show g.maximumReadIndex + 1 < 2 ^ 64 by omega)]
      exact commit_keeps hg hp
  | waits w =>
      -- it is not its turn, and nothing changes
      exact ⟨hg, hp, fun q hq _ => hq, fun q _ hap => hap⟩
  | counted n h => exact .count hg n trivial rfl
  | loadRead => exact .quiet hg rfl rfl rfl (Nat.le_refl _) rfl
  | empty htest => exact .quiet hg rfl rfl rfl trivial rfl
  | @notEmpty r hne =>
      have hle : r ≤ g.readIndex := hp
      have hread := hg.read_le
      refine .quiet hg rfl rfl rfl ⟨hle, lt_of_le_of_ne (by omega) fun he => hne ?_⟩ rfl
      rw [he]
  | copied r =>
      obtain ⟨hle, hlt⟩ := hp
      exact .quiet hg rfl rfl rfl ⟨hle, hlt, fun he => hg.slots r (Nat.le_of_eq he.symm) hlt⟩ rfl
  | taken a =>
      have hlt := hp.2.1
      have hmax := hg.max_le
      rw [addU64_of_lt (show g.readIndex + 1 < 2 ^ 64 by omega)]
      exact consume_keeps hg hp
  | late r a => exact .quiet hg rfl rfl rfl trivial rfl

/-! ## Calls and indices -/

/-- The threads at a place where their call counts but its slot does not yet. -/
def Counted (c : Threads (Shared α) (Pc α)) : Prop :=
  ∃ n, Counts Calling c.pc n ∧ c.shared.writeIndex + n ≤ c.shared.calls

theorem writeIndex_count (g : Shared α) (n : Nat) :
    ({ g with count := n } : Shared α).writeIndex = g.writeIndex := rfl

/-- A move begins a call, ends the reserving of a slot, or does neither. -/
theorem act_counts {t : Nat} {g' : Shared α} {p p' : Pc α} {i : Act α}
    (hact : act size t g p i = some (g', p')) :
    (p = .idle ∧ g'.writeIndex = g.writeIndex ∧ g'.calls = g.calls + 1) ∨
    (Calling p ∧ ¬ Calling p' ∧ g'.writeIndex ≤ g.writeIndex + 1 ∧ g'.calls = g.calls) ∨
    ((Calling p' ↔ Calling p) ∧ g'.writeIndex = g.writeIndex ∧ g'.calls = g.calls) := by
  cases acts_of_act hact with
  | enqueue a => exact .inl ⟨rfl, rfl, rfl⟩
  | dequeue => exact .inl ⟨rfl, rfl, rfl⟩
  | full htest => exact .inr (.inl ⟨trivial, id, Nat.le_succ _, rfl⟩)
  | reserved a => exact .inr (.inl ⟨trivial, id, addU64_le g.writeIndex 1, rfl⟩)
  | counted n h =>
      rcases h with rfl | rfl
      · exact .inr (.inr ⟨Iff.rfl, writeIndex_count g n, rfl⟩)
      · exact .inr (.inr ⟨Iff.rfl, writeIndex_count g n, rfl⟩)
  | _ => exact .inr (.inr ⟨Iff.rfl, rfl, rfl⟩)

end

section

variable {c c' : Threads (Shared α) (Pc α)} {i : Nat × Act α}

/-- A step is an `act`, after which everybody looks. -/
theorem step_act (hstep : c.step (move size) i = some c') :
    ∃ g p, act size i.1 c.shared (c.pc i.1) i.2 = some (g, p) ∧
      c' = { shared := g.observe size, pc := Function.update c.pc i.1 p } := by
  obtain ⟨g, p, hmove, rfl⟩ := Threads.step_eq_some hstep
  obtain ⟨x, hact, hx⟩ := Option.map_eq_some_iff.mp hmove
  obtain ⟨rfl, rfl⟩ := Prod.mk.inj hx
  exact ⟨x.1, x.2, hact, rfl⟩

theorem counted_step (hc : Counted c) (hstep : c.step (move size) i = some c') :
    Counted c' ∧ c.shared.calls ≤ c'.shared.calls := by
  obtain ⟨n, hn, hle⟩ := hc
  obtain ⟨g, p, hact, rfl⟩ := step_act hstep
  rcases act_counts hact with ⟨hidle, hw, hcalls⟩ | ⟨hin, hout, hw, hcalls⟩ | ⟨hiff, hw, hcalls⟩
  · have hout : ¬ Calling (c.pc i.1) := by rw [hidle]; exact id
    refine ⟨?_, show c.shared.calls ≤ g.calls by omega⟩
    by_cases hp : Calling p
    · exact ⟨n + 1, hn.enter hout hp, show g.writeIndex + (n + 1) ≤ g.calls by omega⟩
    · exact ⟨n, hn.stay (iff_of_false hp hout), show g.writeIndex + n ≤ g.calls by omega⟩
  · have hpos := hn.pos hin
    exact ⟨⟨n - 1, hn.leave hin hout, show g.writeIndex + (n - 1) ≤ g.calls by omega⟩,
      Nat.le_of_eq hcalls.symm⟩
  · exact ⟨⟨n, hn.stay hiff, show g.writeIndex + n ≤ g.calls by omega⟩,
      Nat.le_of_eq hcalls.symm⟩

/-- The invariant of the queue. -/
def Inv (size : Nat) (c : Threads (Shared α) (Pc α)) : Prop :=
  Invariant (Sound size) (fun g _ => Own size g) Apart c

theorem inv_step (hcount : Counted c) (hc : Inv size c) (hcalls : c.shared.calls < 2 ^ 64)
    (hstep : c.step (move size) i = some c') : Inv size c' := by
  obtain ⟨n, hn, hle⟩ := hcount
  refine interference_free (fun _ _ => apart_symm) (fun g p hmove => ?_) hc hstep
  obtain ⟨x, hact, hx⟩ := Option.map_eq_some_iff.mp hmove
  obtain ⟨rfl, rfl⟩ := Prod.mk.inj hx
  obtain ⟨h₁, h₂, h₃, h₄⟩ := act_keeps hc.shared (hc.own i.1)
    (fun hin => by have := hn.pos hin; omega) (by omega) hact
  refine ⟨sound_congr (g := x.1) rfl rfl rfl h₁, own_congr (g := x.1) rfl rfl h₂,
    fun u hu => ?_⟩
  have hap := hc.apart i.1 u hu.symm
  exact ⟨own_congr (g := x.1) rfl rfl (h₃ _ (hc.own u) hap), h₄ _ (hc.own u) hap⟩

theorem start_inv (hsize : 2 ≤ size) (mem : Nat → α) :
    Counted (start mem) ∧ Inv size (start mem) := by
  refine ⟨⟨0, counts_zero fun _ => id, Nat.le_refl 0⟩, ⟨?_, fun _ => trivial, fun _ _ _ => ?_⟩⟩
  · exact {
      read_le := Nat.le_refl 0
      max_le := Nat.le_refl 0
      write_le := by
        show 0 + 1 ≤ 0 + size
        omega
      enqueued := rfl
      dequeued := rfl
      slots := fun i _ hi => absurd hi (Nat.not_lt_zero i) }
  · exact apart_of_none rfl _

/-- The calls of a run that ends within the words never left them. -/
theorem runs_inv (hsize : 2 ≤ size) (mem : Nat → α) (moves : List (Nat × Act α))
    (hrun : runs size mem moves = some c) (hcalls : c.shared.calls < 2 ^ 64) :
    Counted c ∧ Inv size c := by
  have hstep : ∀ (c : Threads (Shared α) (Pc α)) i c',
      Counted c ∧ (c.shared.calls < 2 ^ 64 → Inv size c) →
      c.step (move size) i = some c' →
      Counted c' ∧ (c'.shared.calls < 2 ^ 64 → Inv size c') := by
    rintro c i c' ⟨hcount, hinv⟩ hstep
    obtain ⟨hcount', hle⟩ := counted_step hcount hstep
    have hlt := fun h : c'.shared.calls < 2 ^ 64 => Nat.lt_of_le_of_lt hle h
    exact ⟨hcount', fun h => inv_step hcount (hinv (hlt h)) (hlt h) hstep⟩
  have h := run_keeps hstep moves
    ⟨(start_inv hsize mem).1, fun _ => (start_inv hsize mem).2⟩ hrun
  exact ⟨h.1, h.2 hcalls⟩

end

/--
**First in, first out.** However the moves of the producers and consumers interleave, the
indices stay in order and within the array, and what was dequeued is a first part of what
was enqueued.
-/
theorem queue_fifo (hsize : 2 ≤ size) (mem : Nat → α) (moves : List (Nat × Act α))
    (c : Threads (Shared α) (Pc α)) (hrun : runs size mem moves = some c)
    (hcalls : c.shared.calls < 2 ^ 64) :
    c.shared.readIndex ≤ c.shared.maximumReadIndex ∧
      c.shared.maximumReadIndex ≤ c.shared.writeIndex ∧
      c.shared.writeIndex ≤ c.shared.readIndex + size - 1 ∧
      c.shared.dequeued <+: c.shared.enqueued := by
  obtain ⟨-, hinv⟩ := runs_inv hsize mem moves hrun hcalls
  have hg := hinv.shared
  refine ⟨hg.read_le, hg.max_le, ?_, ?_⟩
  · have := hg.write_le
    omega
  · rw [hg.dequeued]
    exact List.take_prefix _ _

/-- One producer passes another, and a stale consumer fails its CAS. -/
theorem queue_fifo_four :
    ∃ c, runs 3 (fun _ => 0) [(0, .enqueue 7), (1, .enqueue 8), (0, .go), (1, .go), (1, .go),
      (1, .go), (0, .go), (0, .go), (1, .go), (1, .go), (2, .dequeue), (3, .dequeue), (2, .go),
      (3, .go), (2, .go), (3, .go), (2, .go), (3, .go), (3, .go), (2, .go)] = some c ∧
      c.shared.calls < 2 ^ 64 ∧ c.shared.readIndex ≤ c.shared.maximumReadIndex ∧
      c.shared.maximumReadIndex ≤ c.shared.writeIndex ∧
      c.shared.writeIndex ≤ c.shared.readIndex + 3 - 1 ∧
      c.shared.dequeued <+: c.shared.enqueued := by
  have h : (runs 3 (fun _ => 0) [(0, .enqueue 7), (1, .enqueue 8), (0, .go), (1, .go), (1, .go),
      (1, .go), (0, .go), (0, .go), (1, .go), (1, .go), (2, .dequeue), (3, .dequeue), (2, .go),
      (3, .go), (2, .go), (3, .go), (2, .go), (3, .go), (3, .go), (2, .go)]).any
      (fun c => c.shared.calls < 2 ^ 64) = true := by decide +kernel
  obtain ⟨c, hrun, hcalls⟩ := Option.any_eq_true _ _ |>.mp h
  have hcalls := of_decide_eq_true hcalls
  exact ⟨c, hrun, hcalls, queue_fifo (by decide) _ _ c hrun hcalls⟩

end CppTrack.ArrayQueue
