import CppTrack.Lib.Links
import CppTrack.Queue.SimpleLockFree

/-!
# The two lists of nodes, and the items in them

The queue and the free list are paths of links, and no node is in both: `Place` says where
each node is. In the queue a node may not point to its successor yet, for the thread that
put the successor there stores the link afterwards; `succ` knows the successor anyway.

An item is in a node of the queue, or a thread has the right to it, or it was returned:
`Owner` says which, so it cannot be returned twice.

Each of these is stated of the fields it is about, with what it takes to keep it when some
node changes hands.
-/

namespace CppTrack.SimpleQueue

open Lib

/-- The link has the version that its node has now. -/
def Current (reuses : Nat → Nat) (i : Idx) : Prop := i.version = reuses i.node ∧ i.consumed = false

/-- The link of a node, even if it is not stored yet. -/
def succ (next : Nat → Idx) (linker : Nat → Option (Nat × Idx)) (n : Nat) : Idx :=
  match linker n with
  | some (_, i) => i
  | none => next n

/-- Out of the queue, and not yet taken from the free list. -/
def Left : Place → Prop
  | .free => True
  | .consumer _ => True
  | _ => False

/-- The queue goes from `first` through `rest`, and ends at `tail`. -/
structure Queued (next : Nat → Idx) (linker : Nat → Option (Nat × Idx)) (place : Nat → Place)
    (reuses : Nat → Nat) (first : Idx) (rest : List Idx) (tail : Idx) : Prop where
  current : ∀ i ∈ first :: rest, place i.node = .queue ∧ Current reuses i
  nodup : ((first :: rest).map Idx.node).Nodup
  path : Path Idx.node .null (succ next linker) first (first :: rest)
  tail_mem : tail ∈ first :: rest
  tail_last : succ next linker tail.node = .null
  linker : ∀ n t i, linker n = some (t, i) → place n = .queue ∧ next n = .null ∧ i ≠ .null

/-- The free list goes from `start` through `free`. -/
structure Freed (next : Nat → Idx) (place : Nat → Place) (reuses : Nat → Nat) (start : Idx)
    (free : List Idx) : Prop where
  current : ∀ i ∈ free, place i.node = .free ∧ Current reuses i
  nodup : (free.map Idx.node).Nodup
  path : Path Idx.node .null next start free

/-- Where the nodes are that are in neither list. -/
structure Placed (nextNode : Nat) (place : Nat → Place) (reuses : Nat → Nat) (gone : List Idx) :
    Prop where
  fresh : ∀ n, n = 0 ∨ nextNode ≤ n → place n = .unused
  unused : ∀ n, place n = .unused → reuses n = 0
  gone : ∀ i ∈ gone, i.version < reuses i.node ∨ i.version = reuses i.node ∧ Left (place i.node)

section

variable {α : Type}

/-- The nodes `full` have an item that nobody has a right to yet. -/
def Filled (item : Nat → Option (Item α)) (owner : Nat → Owner) (enqueued : List (Item α))
    (full : List Idx) : Prop :=
  ∀ i ∈ full, ∃ e, item i.node = some e ∧ e ∈ enqueued ∧ owner e.1 = .node i.node

/-- What was enqueued and returned. -/
structure Recorded (owner : Nat → Owner) (enqueued returned : List (Item α)) : Prop where
  fresh : ∀ k, enqueued.length ≤ k → owner k = .nobody
  known : ∀ e ∈ returned, e ∈ enqueued ∧ owner e.1 = .returned
  once : (returned.map Prod.fst).Nodup

end

/-! ## The queue -/

section

variable {next : Nat → Idx} {linker : Nat → Option (Nat × Idx)} {place : Nat → Place}
  {reuses : Nat → Nat} {first tail i x : Idx} {rest : List Idx} {n t : Nat}

theorem succ_of_next (hlink : ∀ n t i, linker n = some (t, i) → place n = .queue ∧
    next n = .null ∧ i ≠ .null) (hn : next n ≠ .null) : succ next linker n = next n := by
  unfold succ
  cases hl : linker n with
  | none => rfl
  | some x => exact absurd (hlink n x.1 x.2 hl).2.1 hn

/-- Nobody has yet to store the link of the last node. -/
theorem Queued.tail_linker (h : Queued next linker place reuses first rest tail) :
    linker tail.node = none ∧ next tail.node = .null := by
  have hlast := h.tail_last
  unfold succ at hlast
  cases hl : linker tail.node with
  | none =>
      rw [hl] at hlast
      exact ⟨rfl, hlast⟩
  | some x =>
      rw [hl] at hlast
      exact absurd hlast (h.linker _ x.1 x.2 hl).2.2

/-- A node that is not in the queue changes. -/
theorem Queued.elsewhere (h : Queued next linker place reuses first rest tail)
    (hn : place n ≠ .queue) (p : Place) (x : Idx) (k : Nat) :
    Queued (Function.update next n x) linker (Function.update place n p)
      (Function.update reuses n k) first rest tail := by
  have hne : ∀ i ∈ first :: rest, i.node ≠ n := fun i hi he => hn (he ▸ (h.current i hi).1)
  have hsucc : ∀ i ∈ first :: rest,
      succ (Function.update next n x) linker i.node = succ next linker i.node := by
    intro i hi
    unfold succ
    cases linker i.node with
    | none => exact Function.update_of_ne (hne i hi) _ _
    | some y => rfl
  refine ⟨fun i hi => ?_, h.nodup, h.path.congr hsucc, h.tail_mem,
    (hsucc _ h.tail_mem).trans h.tail_last, fun m t i hl => ?_⟩
  · unfold Current
    rw [Function.update_of_ne (hne i hi), Function.update_of_ne (hne i hi)]
    exact h.current i hi
  · obtain ⟨h₁, h₂, h₃⟩ := h.linker m t i hl
    have hm : m ≠ n := fun he => hn (he ▸ h₁)
    rw [Function.update_of_ne hm, Function.update_of_ne hm]
    exact ⟨h₁, h₂, h₃⟩

/-- A node is put at the end. -/
theorem Queued.append (h : Queued next linker place reuses first rest tail)
    (hplace : place x.node ≠ .queue) (hcur : Current reuses x) (hnull : x ≠ .null)
    (hfirst : ∀ i ∈ first :: rest, i ≠ .null) (hx : next x.node = .null) :
    Queued next (Function.update linker tail.node (some (t, x)))
      (Function.update place x.node .queue) reuses first (rest ++ [x]) x := by
  have hne : ∀ i ∈ first :: rest, i.node ≠ x.node :=
    fun i hi he => hplace (he ▸ (h.current i hi).1)
  have hxl : linker x.node = none := by
    cases hl : linker x.node with
    | none => rfl
    | some y => exact absurd (h.linker _ y.1 y.2 hl).1 hplace
  have hxs : succ next linker x.node = .null := by
    unfold succ
    rw [hxl]
    exact hx
  have hsucc : succ next (Function.update linker tail.node (some (t, x))) =
      Function.update (succ next linker) tail.node x := by
    funext m
    unfold succ
    by_cases hm : m = tail.node
    · rw [hm, Function.update_self, Function.update_self]
    · rw [Function.update_of_ne hm, Function.update_of_ne hm]
  have hnew : x.node ∉ (first :: rest).map Idx.node := by
    intro hmem
    obtain ⟨i, hi, he⟩ := List.mem_map.mp hmem
    exact hne i hi he
  have htail := hne tail h.tail_mem
  refine ⟨fun i hi => ?_, ?_, ?_, ?_, ?_, fun m u i hl => ?_⟩
  · rw [← List.cons_append] at hi
    rcases List.mem_append.mp hi with hi | hi
    · rw [Function.update_of_ne (hne i hi)]
      exact h.current i hi
    · obtain rfl := List.mem_singleton.mp hi
      rw [Function.update_self]
      exact ⟨rfl, hcur⟩
  · rw [← List.cons_append, List.map_append, List.nodup_append]
    refine ⟨h.nodup, List.nodup_singleton _, ?_⟩
    rintro a ha b hb rfl
    obtain rfl := List.mem_singleton.mp hb
    exact hnew ha
  · rw [hsucc, ← List.cons_append]
    exact h.path.concat hfirst h.nodup h.tail_mem h.tail_last hxs hnew
  · exact List.mem_cons_of_mem _ (List.mem_append_right _ List.mem_cons_self)
  · rw [hsucc, Function.update_of_ne htail.symm]
    exact hxs
  · by_cases hm : m = tail.node
    · rw [hm, Function.update_self] at hl
      obtain ⟨rfl, rfl⟩ := Prod.mk.inj (Option.some.inj hl)
      rw [hm, Function.update_of_ne htail]
      exact ⟨(h.current _ h.tail_mem).1, h.tail_linker.2, hnull⟩
    · rw [Function.update_of_ne hm] at hl
      obtain ⟨h₁, h₂, h₃⟩ := h.linker m u i hl
      have hmx : m ≠ x.node := fun he => hplace (he ▸ h₁)
      rw [Function.update_of_ne hmx]
      exact ⟨h₁, h₂, h₃⟩

/-- A link that was known is stored. -/
theorem Queued.link (h : Queued next linker place reuses first rest tail)
    (hl : linker n = some (t, x)) :
    Queued (Function.update next n x) (Function.update linker n none) place reuses first rest
      tail := by
  have hsucc : succ (Function.update next n x) (Function.update linker n none) =
      succ next linker := by
    funext m
    unfold succ
    by_cases hm : m = n
    · subst hm
      rw [Function.update_self, Function.update_self, hl]
    · rw [Function.update_of_ne hm, Function.update_of_ne hm]
  refine ⟨h.current, h.nodup, hsucc ▸ h.path, h.tail_mem, hsucc ▸ h.tail_last, fun m u i hm => ?_⟩
  by_cases hmn : m = n
  · rw [hmn, Function.update_self] at hm
    exact absurd hm (by simp)
  · rw [Function.update_of_ne hmn] at hm ⊢
    exact h.linker m u i hm

/-- What `first` points to is the second node. -/
theorem Queued.second (h : Queued next linker place reuses first rest tail)
    (hx : next first.node = x) (hnull : x ≠ .null) :
    rest = x :: rest.tail ∧ Path Idx.node .null (succ next linker) x rest := by
  have hsucc := succ_of_next h.linker (hx ▸ hnull)
  have hpath := h.path.2
  rw [hsucc, hx] at hpath
  exact ⟨(hpath.eq_cons hnull).1, hpath⟩

/-- The first node leaves. -/
theorem Queued.advance (h : Queued next linker place reuses first rest tail)
    (hx : next first.node = x) (hnull : x ≠ .null) (p : Place) :
    Queued next linker (Function.update place first.node p) reuses x rest.tail tail := by
  obtain ⟨hrest, hpath⟩ := h.second hx hnull
  have hsub : ∀ i ∈ x :: rest.tail, i ∈ rest := fun i hi => hrest ▸ hi
  have hnodup := h.nodup
  rw [List.map_cons, List.nodup_cons] at hnodup
  have hne : ∀ i ∈ rest, i.node ≠ first.node :=
    fun i hi he => hnodup.1 (he ▸ List.mem_map_of_mem hi)
  have hlast : tail ≠ first := by
    intro he
    have hlast := h.tail_linker.2
    rw [he, hx] at hlast
    exact hnull hlast
  refine ⟨fun i hi => ?_, hrest ▸ hnodup.2, hrest ▸ hpath, ?_, h.tail_last, fun m t i hl => ?_⟩
  · rw [Function.update_of_ne (hne i (hsub i hi))]
    exact h.current i (List.mem_cons_of_mem _ (hsub i hi))
  · rw [← hrest]
    rcases List.mem_cons.mp h.tail_mem with he | hmem
    · exact absurd he hlast
    · exact hmem
  · obtain ⟨h₁, h₂, h₃⟩ := h.linker m t i hl
    have hm : m ≠ first.node := by
      rintro rfl
      exact hnull (hx ▸ h₂)
    rw [Function.update_of_ne hm]
    exact ⟨h₁, h₂, h₃⟩

end

/-! ## The free list -/

section

variable {next : Nat → Idx} {place : Nat → Place} {reuses : Nat → Nat} {start i : Idx}
  {free gone : List Idx} {n nextNode : Nat} {p : Place}

/-- A node that is not in the free list changes. -/
theorem Freed.elsewhere (h : Freed next place reuses start free) (hn : place n ≠ .free)
    (p : Place) (x : Idx) (k : Nat) :
    Freed (Function.update next n x) (Function.update place n p) (Function.update reuses n k)
      start free := by
  have hne : ∀ i ∈ free, i.node ≠ n := fun i hi he => hn (he ▸ (h.current i hi).1)
  refine ⟨fun i hi => ?_, h.nodup, h.path.congr fun i hi => ?_⟩
  · unfold Current
    rw [Function.update_of_ne (hne i hi), Function.update_of_ne (hne i hi)]
    exact h.current i hi
  · exact Function.update_of_ne (hne i hi) _ _

/-- The first node is taken. -/
theorem Freed.pop (h : Freed next place reuses start free) (hstart : start ≠ .null)
    (p : Place) (k : Nat) :
    Freed next (Function.update place start.node p) (Function.update reuses start.node k)
      (next start.node) free.tail := by
  obtain ⟨hcons, hpath⟩ := h.path.eq_cons hstart
  have hnodup := h.nodup
  rw [hcons, List.map_cons, List.nodup_cons] at hnodup
  refine ⟨fun i hi => ?_, hnodup.2, hpath⟩
  have hne : i.node ≠ start.node := fun he => hnodup.1 (he ▸ List.mem_map_of_mem hi)
  unfold Current
  rw [Function.update_of_ne hne, Function.update_of_ne hne]
  exact h.current i (List.mem_of_mem_tail hi)

/-- A node that points to the first is put before it. -/
theorem Freed.push (h : Freed next place reuses start free) (hcur : Current reuses i)
    (hi : place i.node ≠ .free) (hnext : next i.node = start) :
    Freed next (Function.update place i.node .free) reuses i (i :: free) := by
  have hne : ∀ j ∈ free, j.node ≠ i.node := fun j hj he => hi (he ▸ (h.current j hj).1)
  refine ⟨fun j hj => ?_, ?_, rfl, hnext ▸ h.path⟩
  · rcases List.mem_cons.mp hj with rfl | hj
    · rw [Function.update_self]
      exact ⟨rfl, hcur⟩
    · rw [Function.update_of_ne (hne j hj)]
      exact h.current j hj
  · rw [List.map_cons, List.nodup_cons]
    refine ⟨fun hmem => ?_, h.nodup⟩
    obtain ⟨j, hj, he⟩ := List.mem_map.mp hmem
    exact hne j hj he

/-! ## The other nodes -/

theorem Placed.ne_null (h : Placed nextNode place reuses gone) (hi : place i.node ≠ .unused) :
    i ≠ .null := by
  rintro rfl
  exact hi (h.fresh 0 (.inl rfl))

/-- A node changes hands. -/
theorem Placed.move (h : Placed nextNode place reuses gone) (hn : place n ≠ .unused)
    (hp : p ≠ .unused) (hleft : Left (place n) → Left p) :
    Placed nextNode (Function.update place n p) reuses gone := by
  refine ⟨fun m hm => update_eq_of_ne (h.fresh m hm) hn p, fun m hm => ?_, fun i hi => ?_⟩
  · by_cases he : m = n
    · rw [he, Function.update_self] at hm
      exact absurd hm hp
    · rw [Function.update_of_ne he] at hm
      exact h.unused m hm
  · rcases h.gone i hi with hlt | ⟨heq, hl⟩
    · exact .inl hlt
    · refine .inr ⟨heq, ?_⟩
      by_cases he : i.node = n
      · rw [he, Function.update_self]
        exact hleft (he ▸ hl)
      · rw [Function.update_of_ne he]
        exact hl

/-- A node is taken from the free list. -/
theorem Placed.pop (h : Placed nextNode place reuses gone) (hn : place n = .free) (t : Nat) :
    Placed nextNode (Function.update place n (.producer t))
      (Function.update reuses n (reuses n + 1)) gone := by
  have hun : place n ≠ .unused := by rw [hn]; exact nofun
  refine ⟨fun m hm => update_eq_of_ne (h.fresh m hm) hun _, fun m hm => ?_, fun i hi => ?_⟩
  · by_cases he : m = n
    · rw [he, Function.update_self] at hm
      exact absurd hm nofun
    · rw [Function.update_of_ne he] at hm ⊢
      exact h.unused m hm
  · by_cases he : i.node = n
    · -- its version was not higher than the old one
      rw [he, Function.update_self]
      refine .inl (Nat.lt_succ_of_le ?_)
      rcases h.gone i hi with hlt | ⟨heq, -⟩
      · exact he ▸ Nat.le_of_lt hlt
      · exact he ▸ Nat.le_of_eq heq
    · rw [Function.update_of_ne he, Function.update_of_ne he]
      exact h.gone i hi

/-- A node is used for the first time. -/
theorem Placed.alloc (h : Placed nextNode place reuses gone) (hpos : nextNode ≠ 0) (t : Nat) :
    Placed (nextNode + 1) (Function.update place nextNode (.producer t)) reuses gone := by
  have hun := h.fresh nextNode (.inr (Nat.le_refl _))
  refine ⟨fun m hm => ?_, fun m hm => ?_, fun i hi => ?_⟩
  · rw [Function.update_of_ne (by omega)]
    exact h.fresh m (by omega)
  · by_cases he : m = nextNode
    · rw [he, Function.update_self] at hm
      exact absurd hm nofun
    · rw [Function.update_of_ne he] at hm
      exact h.unused m hm
  · rcases h.gone i hi with hlt | ⟨heq, hl⟩
    · exact .inl hlt
    · refine .inr ⟨heq, ?_⟩
      rw [Function.update_of_ne fun he => ?_]
      · exact hl
      · rw [he, hun] at hl
        exact hl

/-- The first node has left the queue. -/
theorem Placed.leave (h : Placed nextNode place reuses gone) (hi : place i.node = .queue)
    (hcur : Current reuses i) (t : Nat) :
    Placed nextNode (Function.update place i.node (.consumer t)) reuses (i :: gone) := by
  obtain ⟨h₁, h₂, h₃⟩ := h.move (n := i.node) (p := .consumer t) (by rw [hi]; exact nofun) nofun
    fun _ => trivial
  refine ⟨h₁, h₂, fun j hj => ?_⟩
  rcases List.mem_cons.mp hj with rfl | hj
  · exact .inr ⟨hcur.1, by rw [Function.update_self]; trivial⟩
  · exact h₃ j hj

/-- No node that is in the queue or at a producer is known by a link that left. -/
theorem Placed.not_gone (h : Placed nextNode place reuses gone) (hcur : Current reuses i)
    (hi : ¬ Left (place i.node)) : i ∉ gone := by
  intro hmem
  rcases h.gone i hmem with hlt | ⟨-, hl⟩
  · rw [hcur.1] at hlt
    exact Nat.lt_irrefl _ hlt
  · exact hi hl

end

/-! ## The items -/

section

variable {α : Type} {item : Nat → Option (Item α)} {owner : Nat → Owner}
  {enqueued returned : List (Item α)} {full : List Idx} {i : Idx} {e : Item α} {o : Owner}

/-- The right to another item changes hands. -/
theorem Filled.claim (h : Filled item owner enqueued full) {k : Nat}
    (hk : ∀ i ∈ full, owner k ≠ .node i.node) (o : Owner) :
    Filled item (Function.update owner k o) enqueued full := by
  intro i hi
  obtain ⟨e, he, hmem, ho⟩ := h i hi
  exact ⟨e, he, hmem, update_eq_of_ne ho (hk i hi) o⟩

/-- Another node is filled. -/
theorem Filled.elsewhere (h : Filled item owner enqueued full) {n : Nat}
    (hn : ∀ i ∈ full, i.node ≠ n) (x : Option (Item α)) :
    Filled (Function.update item n x) owner enqueued full := by
  intro i hi
  rw [Function.update_of_ne (hn i hi)]
  exact h i hi

theorem Filled.subset (h : Filled item owner enqueued full) {l : List Idx}
    (hl : ∀ i ∈ l, i ∈ full) : Filled item owner enqueued l := fun i hi => h i (hl i hi)

theorem Filled.more (h : Filled item owner enqueued full) (e : Item α) :
    Filled item owner (enqueued ++ [e]) full := by
  intro i hi
  obtain ⟨f, hf, hmem, ho⟩ := h i hi
  exact ⟨f, hf, List.mem_append_left _ hmem, ho⟩

/-- The right to an item that was not returned changes hands. -/
theorem Recorded.claim (h : Recorded owner enqueued returned) {k : Nat}
    (hk : owner k ≠ .nobody) (hr : owner k ≠ .returned) (o : Owner) :
    Recorded (Function.update owner k o) enqueued returned := by
  refine ⟨fun m hm => update_eq_of_ne (h.fresh m hm) hk o, fun e he => ?_, h.once⟩
  obtain ⟨h₁, h₂⟩ := h.known e he
  exact ⟨h₁, update_eq_of_ne h₂ hr o⟩

/-- A call begins. -/
theorem Recorded.begin (h : Recorded owner enqueued returned) (x : α) (t : Nat) :
    Recorded (Function.update owner enqueued.length (.thread t))
      (enqueued ++ [(enqueued.length, x)]) returned := by
  have hfresh := h.fresh _ (Nat.le_refl _)
  refine ⟨fun m hm => ?_, fun e he => ?_, h.once⟩
  · rw [List.length_append, List.length_singleton] at hm
    rw [Function.update_of_ne (by omega)]
    exact h.fresh m (by omega)
  · obtain ⟨h₁, h₂⟩ := h.known e he
    exact ⟨List.mem_append_left _ h₁, update_eq_of_ne h₂ (by rw [hfresh]; exact nofun) _⟩

/-- Who has the right to an item returns it. -/
theorem Recorded.give (h : Recorded owner enqueued returned) {t : Nat} (he : e ∈ enqueued)
    (ho : owner e.1 = .thread t) :
    Recorded (Function.update owner e.1 .returned) enqueued (returned ++ [e]) := by
  obtain ⟨h₁, h₂, h₃⟩ := h.claim (k := e.1) (by rw [ho]; exact nofun) (by rw [ho]; exact nofun)
    .returned
  refine ⟨h₁, fun f hf => ?_, ?_⟩
  · rcases List.mem_append.mp hf with hf | hf
    · exact h₂ f hf
    · obtain rfl := List.mem_singleton.mp hf
      exact ⟨he, Function.update_self ..⟩
  · rw [List.map_append, List.nodup_append]
    refine ⟨h₃, List.nodup_singleton _, ?_⟩
    rintro a ha b hb rfl
    obtain rfl := List.mem_singleton.mp hb
    obtain ⟨f, hf, hfa⟩ := List.mem_map.mp ha
    have hret := (h.known f hf).2
    rw [hfa, ho] at hret
    exact absurd hret nofun

end

end CppTrack.SimpleQueue
