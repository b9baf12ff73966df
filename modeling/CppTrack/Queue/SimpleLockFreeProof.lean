import CppTrack.Queue.SimpleLockFreeParts

/-!
# What the threads may rely on

A thread that has a node, or the right to an item, keeps it whatever the others do. What it
has loaded may be stale, but a stale link is never that of the queue's head or the free
list's again, because a node comes back with a higher version. `Respects` says this of one
move, and `own_stable` that it is enough.

One thing is not respected. A consumer that has set the flag on the head, and not taken the
item yet, does not have the node: the others may remove it, and fill it again.
-/

namespace CppTrack.SimpleQueue

open Lib

variable {α : Type}

/-! ## What a thread has -/

/-- The node is in the hands of thread `t`. -/
def Hand (t : Nat) : Place → Prop
  | .producer u => u = t
  | .consumer u => u = t
  | _ => False

/-- The thread has the right to an item. -/
def Holds (g : Shared α) (t : Nat) (e : Item α) : Prop :=
  e ∈ g.enqueued ∧ g.owner e.1 = .thread t

/-- A link that the head will never be again. -/
def Stale (g : Shared α) (raw : Idx) : Prop :=
  clearConsumedFlag raw ∈ g.gone ∨ g.head = setConsumedFlag raw ∧ raw.consumed = false

/-- A producer's node. -/
def Mine (g : Shared α) (t : Nat) (idx : Idx) : Prop :=
  g.place idx.node = .producer t ∧ Current g.reuses idx

/-- A consumer's node. -/
def Out (g : Shared α) (t : Nat) (raw : Idx) : Prop :=
  g.place raw.node = .consumer t ∧ Current g.reuses (clearConsumedFlag raw)

/-- What a thread relies on. -/
def Own (g : Shared α) (t : Nat) : Pc α → Prop
  | .idle => True
  | .popLoad e => Holds g t e
  | .popNext e head => Holds g t e ∧ head ≠ .null ∧
      (head ∈ g.free ∨ head.version < g.reuses head.node)
  | .popSwap e head next => Holds g t e ∧ head ≠ .null ∧
      (head ∈ g.free ∧ g.next head.node = next ∨ head.version < g.reuses head.node)
  | .newNode e => Holds g t e
  | .clearNext e idx => Holds g t e ∧ Mine g t idx
  | .fill e idx => Holds g t e ∧ Mine g t idx ∧ g.next idx.node = .null
  | .loadTail e idx => Holds g t e ∧ Mine g t idx ∧ g.next idx.node = .null ∧
      g.item idx.node = some e
  | .swapTail e idx _ => Holds g t e ∧ Mine g t idx ∧ g.next idx.node = .null ∧
      g.item idx.node = some e
  | .link idx tail => g.linker tail.node = some (t, idx)
  | .loadHead => True
  | .loadNext raw => g.head = raw ∨ Stale g raw
  | .mark _ => True
  | .take raw => ∃ e, g.item raw.node = some e ∧ Holds g t e
  | .advance raw next => (g.head = raw ∧ g.next raw.node = next ∨ Stale g raw) ∧ next ≠ .null
  | .read raw => Out g t raw ∧ ∃ e, g.item raw.node = some e ∧ Holds g t e
  | .pushLoad raw got => Out g t raw ∧ ∀ e, got = some e → Holds g t e
  | .pushNext raw _ got => Out g t raw ∧ ∀ e, got = some e → Holds g t e
  | .pushSwap raw head got => Out g t raw ∧ (∀ e, got = some e → Holds g t e) ∧
      g.next raw.node = head

/-- The node whose item a thread has the right to but not the node. -/
def taking : Pc α → Option Nat
  | .take raw => some raw.node
  | _ => none

/-! ## What a move leaves to the others -/

/-- What the other threads can rely on when thread `t` moves. -/
structure Respects (t : Nat) (g g' : Shared α) : Prop where
  nodes : ∀ u n, u ≠ t → Hand u (g.place n) → g'.place n = g.place n ∧
    g'.reuses n = g.reuses n ∧ g'.next n = g.next n ∧ g'.item n = g.item n
  holds : ∀ u e, u ≠ t → Holds g u e → Holds g' u e
  linker : ∀ u n i, u ≠ t → g.linker n = some (u, i) → g'.linker n = some (u, i)
  free : ∀ i ∈ g.free, i ∈ g'.free ∧ g'.next i.node = g.next i.node ∨
    i.version < g'.reuses i.node
  reuses : ∀ n, g.reuses n ≤ g'.reuses n
  gone : ∀ i ∈ g.gone, i ∈ g'.gone
  head : g'.head = g.head ∧
      (g.next g.head.node ≠ .null → g'.next g.head.node = g.next g.head.node) ∨
    Stale g' g.head

section

variable {t u : Nat} {g g' g'' : Shared α} {q : Pc α} {raw idx : Idx} {e : Item α} {n : Nat}

theorem Respects.refl (t : Nat) (g : Shared α) : Respects t g g where
  nodes := fun _ _ _ _ => ⟨rfl, rfl, rfl, rfl⟩
  holds := fun _ _ _ h => h
  linker := fun _ _ _ _ h => h
  free := fun _ h => .inl ⟨h, rfl⟩
  reuses := fun _ => Nat.le_refl _
  gone := fun _ h => h
  head := .inl ⟨rfl, fun _ => rfl⟩

theorem Respects.stale (h : Respects t g g') (hs : Stale g raw) : Stale g' raw := by
  rcases hs with hs | ⟨hs, hraw⟩
  · exact .inl (h.gone _ hs)
  · rcases h.head with ⟨he, -⟩ | hst
    · exact .inr ⟨he.trans hs, hraw⟩
    · -- the head with its flag set can only have left
      rcases hst with hgone | ⟨-, hflag⟩
      · rw [hs] at hgone
        exact .inl hgone
      · rw [hs] at hflag
        exact absurd hflag (Bool.noConfusion)

theorem Respects.trans (h : Respects t g g') (h' : Respects t g' g'') : Respects t g g'' where
  nodes := fun u n hu hn => by
    obtain ⟨h₁, h₂, h₃, h₄⟩ := h.nodes u n hu hn
    obtain ⟨h₅, h₆, h₇, h₈⟩ := h'.nodes u n hu (h₁ ▸ hn)
    exact ⟨h₅.trans h₁, h₆.trans h₂, h₇.trans h₃, h₈.trans h₄⟩
  holds := fun u e hu he => h'.holds u e hu (h.holds u e hu he)
  linker := fun u n i hu hl => h'.linker u n i hu (h.linker u n i hu hl)
  free := fun i hi => by
    rcases h.free i hi with ⟨hi', hn⟩ | hlt
    · rcases h'.free i hi' with ⟨hi'', hn'⟩ | hlt
      · exact .inl ⟨hi'', hn'.trans hn⟩
      · exact .inr hlt
    · exact .inr (Nat.lt_of_lt_of_le hlt (h'.reuses _))
  reuses := fun n => Nat.le_trans (h.reuses n) (h'.reuses n)
  gone := fun i hi => h'.gone i (h.gone i hi)
  head := by
    rcases h.head with ⟨he, hn⟩ | hst
    · rcases h'.head with ⟨he', hn'⟩ | hst
      · rw [he] at he' hn'
        refine .inl ⟨he', fun hne => ?_⟩
        rw [hn' (by rw [hn hne]; exact hne), hn hne]
      · exact .inr (he ▸ hst)
    · exact .inr (h'.stale hst)

theorem Respects.seen (h : Respects t g g') (hs : g.head = raw ∨ Stale g raw) :
    g'.head = raw ∨ Stale g' raw := by
  rcases hs with rfl | hs
  · rcases h.head with ⟨he, -⟩ | hst
    · exact .inl he
    · exact .inr hst
  · exact .inr (h.stale hs)

theorem Respects.mine (h : Respects t g g') (hu : u ≠ t) (hm : Mine g u idx) :
    Mine g' u idx ∧ g'.next idx.node = g.next idx.node ∧ g'.item idx.node = g.item idx.node := by
  obtain ⟨hp, hcur⟩ := hm
  obtain ⟨h₁, h₂, h₃, h₄⟩ := h.nodes u idx.node hu (by rw [hp]; rfl)
  refine ⟨⟨h₁.trans hp, ?_⟩, h₃, h₄⟩
  unfold Current
  rw [h₂]
  exact hcur

theorem Respects.out (h : Respects t g g') (hu : u ≠ t) (hm : Out g u raw) :
    Out g' u raw ∧ g'.next raw.node = g.next raw.node ∧ g'.item raw.node = g.item raw.node := by
  obtain ⟨hp, hcur⟩ := hm
  obtain ⟨h₁, h₂, h₃, h₄⟩ := h.nodes u raw.node hu (by rw [hp]; rfl)
  refine ⟨⟨h₁.trans hp, hcur.1.trans ?_, hcur.2⟩, h₃, h₄⟩
  exact h₂.symm

/-- A move that respects the others leaves them what they rely on. -/
theorem own_stable (h : Respects t g g') (hu : u ≠ t)
    (htake : ∀ n, taking q = some n → g'.item n = g.item n) (hq : Own g u q) : Own g' u q := by
  have hgot : ∀ got : Option (Item α), (∀ e, got = some e → Holds g u e) →
      ∀ e, got = some e → Holds g' u e :=
    fun got hgot e he => h.holds u e hu (hgot e he)
  cases q with
  | idle => trivial
  | popLoad e => exact h.holds u e hu hq
  | popNext e head =>
      obtain ⟨he, hne, hhead⟩ := hq
      refine ⟨h.holds u e hu he, hne, ?_⟩
      rcases hhead with hf | hlt
      · rcases h.free head hf with ⟨hf', -⟩ | hlt
        · exact .inl hf'
        · exact .inr hlt
      · exact .inr (Nat.lt_of_lt_of_le hlt (h.reuses _))
  | popSwap e head next =>
      obtain ⟨he, hne, hhead⟩ := hq
      refine ⟨h.holds u e hu he, hne, ?_⟩
      rcases hhead with ⟨hf, hn⟩ | hlt
      · rcases h.free head hf with ⟨hf', hn'⟩ | hlt
        · exact .inl ⟨hf', hn'.trans hn⟩
        · exact .inr hlt
      · exact .inr (Nat.lt_of_lt_of_le hlt (h.reuses _))
  | newNode e => exact h.holds u e hu hq
  | clearNext e idx => exact ⟨h.holds u e hu hq.1, (h.mine hu hq.2).1⟩
  | fill e idx =>
      obtain ⟨he, hm, hn⟩ := hq
      obtain ⟨hm', hn', -⟩ := h.mine hu hm
      exact ⟨h.holds u e hu he, hm', hn'.trans hn⟩
  | loadTail e idx =>
      obtain ⟨he, hm, hn, hi⟩ := hq
      obtain ⟨hm', hn', hi'⟩ := h.mine hu hm
      exact ⟨h.holds u e hu he, hm', hn'.trans hn, hi'.trans hi⟩
  | swapTail e idx tail =>
      obtain ⟨he, hm, hn, hi⟩ := hq
      obtain ⟨hm', hn', hi'⟩ := h.mine hu hm
      exact ⟨h.holds u e hu he, hm', hn'.trans hn, hi'.trans hi⟩
  | link idx tail => exact h.linker u _ idx hu hq
  | loadHead => trivial
  | loadNext raw => exact h.seen hq
  | mark raw => trivial
  | take raw =>
      obtain ⟨e, hi, he⟩ := hq
      exact ⟨e, (htake _ rfl).trans hi, h.holds u e hu he⟩
  | advance raw next =>
      obtain ⟨hs, hne⟩ := hq
      refine ⟨?_, hne⟩
      rcases hs with ⟨rfl, hn⟩ | hs
      · rcases h.head with ⟨he, hkeep⟩ | hst
        · exact .inl ⟨he, (hkeep (hn ▸ hne)).trans hn⟩
        · exact .inr hst
      · exact .inr (h.stale hs)
  | read raw =>
      obtain ⟨ho, e, hi, he⟩ := hq
      obtain ⟨ho', -, hi'⟩ := h.out hu ho
      exact ⟨ho', e, hi'.trans hi, h.holds u e hu he⟩
  | pushLoad raw got => exact ⟨(h.out hu hq.1).1, hgot got hq.2⟩
  | pushNext raw head got => exact ⟨(h.out hu hq.1).1, hgot got hq.2⟩
  | pushSwap raw head got =>
      obtain ⟨ho, he, hn⟩ := hq
      obtain ⟨ho', hn', -⟩ := h.out hu ho
      exact ⟨ho', hgot got he, hn'.trans hn⟩

end

/-! ## The shared state -/

/-- The links of the queue. -/
def Shared.queue (g : Shared α) : List Idx := clearConsumedFlag g.head :: g.rest

/-- Those whose items nobody has a right to. -/
def Shared.full (g : Shared α) : List Idx := if g.head.consumed then g.rest else g.queue

/-- The shared state between two moves. -/
structure Good (g : Shared α) : Prop where
  queued : Queued g.next g.linker g.place g.reuses (clearConsumedFlag g.head) g.rest g.tail
  freed : Freed g.next g.place g.reuses g.freeListHead g.free
  placed : Placed g.nextNode g.place g.reuses g.gone
  filled : Filled g.item g.owner g.enqueued g.full
  recorded : Recorded g.owner g.enqueued g.returned

end CppTrack.SimpleQueue
