import CppTrack.Queue.SimpleLockFreeProof

/-!
# The ways the shared state changes

Each is shown to keep the shared state right and to respect the other threads (`Keeps`). A
thread that takes a node out of the queue together with its item does two of them at once,
and so does one that frees a node and returns an item.
-/

namespace CppTrack.SimpleQueue

open Lib

variable {α : Type}

/-- What a change of thread `t` has to leave behind. -/
structure Keeps (t : Nat) (g g' : Shared α) : Prop where
  good : Good g'
  respects : Respects t g g'

section

variable {t n : Nat} {g g' g'' : Shared α} {raw idx tail : Idx} {e : Item α}

theorem Keeps.refl (hg : Good g) (t : Nat) : Keeps t g g := ⟨hg, .refl t g⟩

theorem Keeps.trans (h : Keeps t g g') (h' : Keeps t g' g'') : Keeps t g g'' :=
  ⟨h'.good, h.respects.trans h'.respects⟩

/-- Nobody else has a node that thread `t` has, or that nobody has. -/
theorem Hand.ne {u m : Nat} (hm : Hand u (g.place m)) (hu : u ≠ t)
    (hn : ∀ u, u ≠ t → ¬ Hand u (g.place n)) : m ≠ n := fun he => hn u hu (he ▸ hm)

theorem hand_self {p : Place} (hp : Hand t p) : ∀ u, u ≠ t → ¬ Hand u p := by
  intro u hu hu'
  cases p with
  | producer v => exact hu (hu'.symm.trans hp)
  | consumer v => exact hu (hu'.symm.trans hp)
  | _ => exact hp

/-- No link of the queue is null, nor is that of a node a thread has. -/
theorem Good.ne_null (hg : Good g) (hi : g.place idx.node ≠ .unused) : idx ≠ .null :=
  hg.placed.ne_null hi

theorem Good.queue_ne_null (hg : Good g) : ∀ i ∈ g.queue, i ≠ .null := by
  intro i hi
  refine hg.ne_null ?_
  rw [(hg.queued.current i hi).1]
  exact nofun

theorem Good.full_subset (g : Shared α) : ∀ i ∈ g.full, i ∈ g.queue := by
  intro i hi
  unfold Shared.full at hi
  split at hi
  · exact List.mem_cons_of_mem _ hi
  · exact hi

theorem Good.rest_full (g : Shared α) : ∀ i ∈ g.rest, i ∈ g.full := by
  intro i hi
  unfold Shared.full
  split
  · exact hi
  · exact List.mem_cons_of_mem _ hi

/-- The nodes after the first are others. -/
theorem Good.rest_ne (hg : Good g) : ∀ i ∈ g.rest, i.node ≠ g.head.node := by
  have hnodup := hg.queued.nodup
  rw [List.map_cons, List.nodup_cons] at hnodup
  exact fun i hi he => hnodup.1 (he ▸ List.mem_map_of_mem hi)

theorem Good.full_ne (hg : Good g) (hn : g.place n ≠ .queue) : ∀ i ∈ g.full, i.node ≠ n :=
  fun i hi he => hn (he ▸ (hg.queued.current i (Good.full_subset g i hi)).1)

/-- What left the queue is not its head. -/
theorem Good.not_stale (hg : Good g) (hs : Stale g raw) : g.head ≠ raw := by
  rintro rfl
  have hcur := hg.queued.current _ List.mem_cons_self
  rcases hs with hgone | ⟨hflag, hraw⟩
  · refine hg.placed.not_gone hcur.2 ?_ hgone
    rw [hcur.1]
    exact id
  · rw [hflag] at hraw
    exact absurd hraw Bool.noConfusion

/-! ## Items -/

theorem begin_keeps (hg : Good g) (x : α) (t : Nat) :
    Keeps t g { g with
      enqueued := g.enqueued ++ [(g.enqueued.length, x)]
      owner := Function.update g.owner g.enqueued.length (.thread t) } := by
  have hfresh := hg.recorded.fresh _ (Nat.le_refl _)
  refine ⟨⟨hg.queued, hg.freed, hg.placed, ?_, hg.recorded.begin x t⟩, ?_⟩
  · exact (hg.filled.claim (fun i _ => by rw [hfresh]; exact nofun) _).more _
  · refine { Respects.refl t g with holds := fun u e hu he => ?_ }
    refine ⟨List.mem_append_left _ he.1, update_eq_of_ne he.2 ?_ _⟩
    rw [hfresh]
    exact nofun

/-- The right to an item changes hands. -/
theorem claim_keeps (hg : Good g) {k : Nat} (hk : ∀ i ∈ g.full, g.owner k ≠ .node i.node)
    (hn : g.owner k ≠ .nobody) (hr : g.owner k ≠ .returned)
    (ht : ∀ u, u ≠ t → g.owner k ≠ .thread u) (o : Owner) :
    Keeps t g { g with owner := Function.update g.owner k o } := by
  refine ⟨⟨hg.queued, hg.freed, hg.placed, hg.filled.claim hk o, hg.recorded.claim hn hr o⟩, ?_⟩
  exact { Respects.refl t g with
    holds := fun u e hu he => ⟨he.1, update_eq_of_ne he.2 (ht u hu) o⟩ }

theorem give_keeps (hg : Good g) (he : Holds g t e) : Keeps t g (g.give e) := by
  refine ⟨⟨hg.queued, hg.freed, hg.placed, ?_, hg.recorded.give he.1 he.2⟩, ?_⟩
  · exact hg.filled.claim (fun i _ => by rw [he.2]; exact nofun) _
  · refine { Respects.refl t g with holds := fun u f hu hf => ?_ }
    refine ⟨hf.1, update_eq_of_ne hf.2 ?_ _⟩
    rw [he.2]
    exact fun h => hu (Owner.thread.inj h).symm

/-- The flag of the head is set. -/
theorem flag_keeps (hg : Good g) (hraw : g.head = clearConsumedFlag raw) (t : Nat) :
    Keeps t g { g with head := setConsumedFlag raw } := by
  have hq : clearConsumedFlag g.head = clearConsumedFlag raw := by rw [hraw]; rfl
  refine ⟨⟨?_, hg.freed, hg.placed, hg.filled.subset (Good.rest_full g), hg.recorded⟩, ?_⟩
  · have hqueued := hg.queued
    rw [hq] at hqueued
    exact hqueued
  · refine { Respects.refl t g with head := .inr (.inr ⟨?_, ?_⟩) }
    · rw [hraw]
      rfl
    · rw [hraw]
      rfl

/-! ## Nodes of one thread -/

/-- The thread stores the link of a node it has. -/
theorem store_keeps (hg : Good g) (hn : Hand t (g.place n)) (x : Idx) :
    Keeps t g { g with next := Function.update g.next n x } := by
  have hq : g.place n ≠ .queue := fun h => by rw [h] at hn; exact hn
  have hf : g.place n ≠ .free := fun h => by rw [h] at hn; exact hn
  have hqueued := hg.queued.elsewhere hq (g.place n) x (g.reuses n)
  have hfreed := hg.freed.elsewhere hf (g.place n) x (g.reuses n)
  rw [Function.update_eq_self, Function.update_eq_self] at hqueued hfreed
  refine ⟨⟨hqueued, hfreed, hg.placed, hg.filled, hg.recorded⟩, ?_⟩
  refine { Respects.refl t g with
    nodes := fun u m hu hm => ⟨rfl, rfl, ?_, rfl⟩
    free := fun i hi => .inl ⟨hi, ?_⟩
    head := .inl ⟨rfl, fun _ => ?_⟩ }
  · exact Function.update_of_ne (hm.ne hu (hand_self hn)) _ _
  · have hne : i.node ≠ n := fun he => hf (he ▸ (hg.freed.current i hi).1)
    exact Function.update_of_ne hne _ _
  · have hne : g.head.node ≠ n := fun he => hq (he ▸ (hg.queued.current _ List.mem_cons_self).1)
    exact Function.update_of_ne hne _ _

/-- A producer fills its node. -/
theorem fill_keeps (hg : Good g) (hn : Hand t (g.place n)) (x : Option (Item α)) :
    Keeps t g { g with item := Function.update g.item n x } := by
  have hq : g.place n ≠ .queue := fun h => by rw [h] at hn; exact hn
  refine ⟨⟨hg.queued, hg.freed, hg.placed, ?_, hg.recorded⟩, ?_⟩
  · exact hg.filled.elsewhere (hg.full_ne hq) x
  · refine { Respects.refl t g with nodes := fun u m hu hm => ⟨rfl, rfl, rfl, ?_⟩ }
    exact Function.update_of_ne (hm.ne hu (hand_self hn)) _ _

/-- A node is used for the first time. -/
theorem alloc_keeps (hg : Good g) (t : Nat) :
    Keeps t g { g with
      nextNode := g.nextNode + 1
      place := Function.update g.place g.nextNode (.producer t) } ∧ g.reuses g.nextNode = 0 := by
  have hun := hg.placed.fresh g.nextNode (.inr (Nat.le_refl _))
  have hq : g.place g.nextNode ≠ .queue := by rw [hun]; exact nofun
  have hf : g.place g.nextNode ≠ .free := by rw [hun]; exact nofun
  have hpos : g.nextNode ≠ 0 := by
    -- the first node of the queue has a number
    intro h0
    have hhead := hg.placed.fresh g.head.node (.inr (by omega))
    have hplace := (hg.queued.current _ List.mem_cons_self).1
    exact absurd (hhead.symm.trans hplace) nofun
  have hqueued := hg.queued.elsewhere hq (.producer t) (g.next g.nextNode) (g.reuses g.nextNode)
  have hfreed := hg.freed.elsewhere hf (.producer t) (g.next g.nextNode) (g.reuses g.nextNode)
  rw [Function.update_eq_self, Function.update_eq_self] at hqueued hfreed
  refine ⟨⟨⟨hqueued, hfreed, hg.placed.alloc hpos t, hg.filled, hg.recorded⟩, ?_⟩,
    hg.placed.unused _ hun⟩
  refine { Respects.refl t g with nodes := fun u m hu hm => ⟨?_, rfl, rfl, rfl⟩ }
  refine Function.update_of_ne (hm.ne hu fun v _ hv => ?_) _ _
  rw [hun] at hv
  exact hv

/-! ## The free list -/

/-- The first node of the free list is taken. -/
theorem pop_keeps (hg : Good g) (hnull : g.freeListHead ≠ .null) (t : Nat) :
    Keeps t g { g with
      freeListHead := g.next g.freeListHead.node
      free := g.free.tail
      place := Function.update g.place g.freeListHead.node (.producer t)
      reuses := Function.update g.reuses g.freeListHead.node
        (g.reuses g.freeListHead.node + 1) } := by
  obtain ⟨hcons, -⟩ := hg.freed.path.eq_cons hnull
  have hmem : g.freeListHead ∈ g.free := by rw [hcons]; exact List.mem_cons_self
  obtain ⟨hplace, hver, -⟩ := hg.freed.current _ hmem
  have hq : g.place g.freeListHead.node ≠ .queue := by rw [hplace]; exact nofun
  have hqueued := hg.queued.elsewhere hq (.producer t) (g.next g.freeListHead.node)
    (g.reuses g.freeListHead.node + 1)
  rw [Function.update_eq_self] at hqueued
  refine ⟨⟨hqueued, hg.freed.pop hnull _ _, hg.placed.pop hplace t, hg.filled, hg.recorded⟩, ?_⟩
  refine { Respects.refl t g with
    nodes := fun u m hu hm => ?_
    free := fun i hi => ?_
    reuses := fun m => ?_ }
  · have hne : m ≠ g.freeListHead.node := by
      refine hm.ne hu fun v _ hv => ?_
      rw [hplace] at hv
      exact hv
    exact ⟨Function.update_of_ne hne _ _, Function.update_of_ne hne _ _, rfl, rfl⟩
  · rw [hcons] at hi
    rcases List.mem_cons.mp hi with rfl | hi
    · -- the node taken has a higher version now
      refine .inr ?_
      show _ < Function.update g.reuses _ _ _
      rw [Function.update_self, ← hver]
      exact Nat.lt_succ_self _
    · exact .inl ⟨hi, rfl⟩
  · show _ ≤ Function.update g.reuses _ _ _
    by_cases hm : m = g.freeListHead.node
    · rw [hm, Function.update_self]
      exact Nat.le_succ _
    · rw [Function.update_of_ne hm]

/-- A consumer frees its node. -/
theorem push_keeps (hg : Good g) (hout : Out g t raw) (hnext : g.next raw.node = g.freeListHead) :
    Keeps t g { g with
      freeListHead := clearConsumedFlag raw
      free := clearConsumedFlag raw :: g.free
      place := Function.update g.place raw.node .free } := by
  obtain ⟨hplace, hcur⟩ := hout
  have hq : g.place raw.node ≠ .queue := by rw [hplace]; exact nofun
  have hf : g.place raw.node ≠ .free := by rw [hplace]; exact nofun
  have hu : g.place raw.node ≠ .unused := by rw [hplace]; exact nofun
  have hqueued := hg.queued.elsewhere hq .free (g.next raw.node) (g.reuses raw.node)
  rw [Function.update_eq_self, Function.update_eq_self] at hqueued
  refine ⟨⟨hqueued, hg.freed.push hcur hf hnext, ?_, hg.filled, hg.recorded⟩, ?_⟩
  · exact hg.placed.move hu nofun fun _ => trivial
  · refine { Respects.refl t g with
      nodes := fun u m hu hm => ⟨?_, rfl, rfl, rfl⟩
      free := fun i hi => .inl ⟨List.mem_cons_of_mem _ hi, rfl⟩ }
    refine Function.update_of_ne (hm.ne hu (hand_self ?_)) _ _
    rw [hplace]
    rfl

/-! ## The queue -/

/-- A producer puts its node at the end, and gives up the item. -/
theorem append_keeps (hg : Good g) (hmine : Mine g t idx) (he : Holds g t e)
    (hnext : g.next idx.node = .null) (hitem : g.item idx.node = some e) :
    Keeps t g { g with
      tail := idx
      rest := g.rest ++ [idx]
      place := Function.update g.place idx.node .queue
      owner := Function.update g.owner e.1 (.node idx.node)
      linker := Function.update g.linker g.tail.node (some (t, idx)) } := by
  obtain ⟨hplace, hcur⟩ := hmine
  have hq : g.place idx.node ≠ .queue := by rw [hplace]; exact nofun
  have hf : g.place idx.node ≠ .free := by rw [hplace]; exact nofun
  have hu : g.place idx.node ≠ .unused := by rw [hplace]; exact nofun
  have hfreed := hg.freed.elsewhere hf .queue (g.next idx.node) (g.reuses idx.node)
  rw [Function.update_eq_self, Function.update_eq_self] at hfreed
  have hthread : ∀ u, u ≠ t → g.owner e.1 ≠ .thread u := by
    intro u hu h
    rw [he.2] at h
    exact hu (Owner.thread.inj h).symm
  refine ⟨⟨?_, hfreed, ?_, fun i hi => ?_, ?_⟩, ?_⟩
  · exact hg.queued.append hq hcur (hg.ne_null hu) hg.queue_ne_null hnext
  · exact hg.placed.move hu nofun fun h => by rw [hplace] at h; exact h
  · have hi : i ∈ g.full ∨ i = idx := by
      unfold Shared.full Shared.queue at hi ⊢
      split at hi
      · rw [if_pos (by assumption)]
        exact (List.mem_append.mp hi).imp_right List.mem_singleton.mp
      · rw [if_neg (by assumption)]
        rw [← List.cons_append] at hi
        exact (List.mem_append.mp hi).imp_right List.mem_singleton.mp
    rcases hi with hi | rfl
    · exact hg.filled.claim (fun i _ => by rw [he.2]; exact nofun) _ i hi
    · exact ⟨e, hitem, he.1, Function.update_self ..⟩
  · exact hg.recorded.claim (by rw [he.2]; exact nofun) (by rw [he.2]; exact nofun) _
  · refine { Respects.refl t g with
      nodes := fun u m hu hm => ⟨?_, rfl, rfl, rfl⟩
      holds := fun u f hu hf => ⟨hf.1, update_eq_of_ne hf.2 (hthread u hu) _⟩
      linker := fun u m i _ hl => update_eq_of_ne hl ?_ _ }
    · refine Function.update_of_ne (hm.ne hu (hand_self ?_)) _ _
      rw [hplace]
      rfl
    · rw [hg.queued.tail_linker.1]
      exact nofun

/-- The link to the node is stored. -/
theorem link_keeps (hg : Good g) (hl : g.linker n = some (t, idx)) :
    Keeps t g { g with
      next := Function.update g.next n idx
      linker := Function.update g.linker n none } := by
  obtain ⟨hplace, hnull, -⟩ := hg.queued.linker n t idx hl
  have hf : g.place n ≠ .free := by rw [hplace]; exact nofun
  have hfreed := hg.freed.elsewhere hf (g.place n) idx (g.reuses n)
  rw [Function.update_eq_self, Function.update_eq_self] at hfreed
  refine ⟨⟨hg.queued.link hl, hfreed, hg.placed, hg.filled, hg.recorded⟩, ?_⟩
  refine { Respects.refl t g with
    nodes := fun u m hu hm => ⟨rfl, rfl, ?_, rfl⟩
    linker := fun u m i hu hm => update_eq_of_ne hm ?_ _
    free := fun i hi => .inl ⟨hi, ?_⟩
    head := .inl ⟨rfl, fun hne => ?_⟩ }
  · refine Function.update_of_ne (hm.ne hu fun v _ hv => ?_) _ _
    rw [hplace] at hv
    exact hv
  · rw [hl]
    exact fun h => hu (Prod.mk.inj (Option.some.inj h)).1.symm
  · have hin : i.node ≠ n := fun he => hf (he ▸ (hg.freed.current i hi).1)
    exact Function.update_of_ne hin _ _
  · have hhn : g.head.node ≠ n := fun he => hne (he ▸ hnull)
    exact Function.update_of_ne hhn _ _

/-- The first node is out of the queue. -/
def advanced (t : Nat) (g : Shared α) : Shared α :=
  { g with
    head := g.next g.head.node
    rest := g.rest.tail
    gone := clearConsumedFlag g.head :: g.gone
    place := Function.update g.place g.head.node (.consumer t) }

/-- The second node is the head then, and was not consumed. -/
theorem Good.advanced_queue (hg : Good g) (hnull : g.next g.head.node ≠ .null) (t : Nat) :
    (advanced t g).queue = g.rest ∧ (advanced t g).head.consumed = false := by
  have hrest : g.rest = g.next g.head.node :: g.rest.tail := (hg.queued.second rfl hnull).1
  have hflag : (g.next g.head.node).consumed = false := by
    refine (hg.queued.current _ (List.mem_cons_of_mem _ ?_)).2.2
    rw [hrest]
    exact List.mem_cons_self
  refine ⟨?_, hflag⟩
  show clearConsumedFlag (g.next g.head.node) :: g.rest.tail = g.rest
  have hclear : clearConsumedFlag (g.next g.head.node) = g.next g.head.node := by
    generalize g.next g.head.node = x at hflag
    cases x
    exact congrArg _ hflag.symm
  rw [hclear, ← hrest]

theorem advance_keeps (hg : Good g) (hnull : g.next g.head.node ≠ .null) (t : Nat) :
    Keeps t g (advanced t g) := by
  have hfirst := hg.queued.current _ List.mem_cons_self
  have hplace : g.place g.head.node = .queue := hfirst.1
  have hf : g.place g.head.node ≠ .free := by rw [hplace]; exact nofun
  have hfreed := hg.freed.elsewhere hf (.consumer t) (g.next g.head.node) (g.reuses g.head.node)
  rw [Function.update_eq_self, Function.update_eq_self] at hfreed
  obtain ⟨hqueue, hflag⟩ := hg.advanced_queue hnull t
  have hsecond := (hg.queued.second rfl hnull).1
  refine ⟨⟨?_, hfreed, hg.placed.leave (i := clearConsumedFlag g.head) hplace hfirst.2 t, ?_,
    hg.recorded⟩, ?_⟩
  · have hhead : clearConsumedFlag (g.next g.head.node) = g.next g.head.node :=
      (List.cons.inj (hqueue.trans hsecond)).1
    show Queued _ _ _ _ (clearConsumedFlag (g.next g.head.node)) _ _
    rw [hhead]
    exact hg.queued.advance rfl hnull _
  · refine hg.filled.subset fun i hi => Good.rest_full g i ?_
    rw [← hqueue]
    exact Good.full_subset _ i hi
  · refine { Respects.refl t g with
      nodes := fun u m hu hm => ⟨?_, rfl, rfl, rfl⟩
      gone := fun i hi => List.mem_cons_of_mem _ hi
      head := .inr (.inl List.mem_cons_self) }
    refine Function.update_of_ne (hm.ne hu fun v _ hv => ?_) _ _
    rw [hplace] at hv
    exact hv

/-- The item of a head whose flag is not set. -/
theorem Good.head_item (hg : Good g) (hflag : g.head.consumed = false)
    (hitem : g.item g.head.node = some e) : e ∈ g.enqueued ∧ g.owner e.1 = .node g.head.node := by
  have hfull : clearConsumedFlag g.head ∈ g.full := by
    unfold Shared.full
    rw [hflag]
    exact List.mem_cons_self
  obtain ⟨f, hf, hmem, ho⟩ := hg.filled _ hfull
  obtain rfl : f = e := Option.some.inj (hf.symm.trans hitem)
  exact ⟨hmem, ho⟩

/-- With the flag, or with the head, a consumer gets the right to the item. -/
theorem Keeps.claim (h : Keeps t g g') (hg : Good g) (howner : g'.owner = g.owner)
    (hfull : ∀ i ∈ g'.full, i ∈ g.rest) (ho : g.owner e.1 = .node g.head.node) :
    Keeps t g { g' with owner := Function.update g'.owner e.1 (.thread t) } := by
  rw [← howner] at ho
  refine h.trans (claim_keeps h.good (fun i hi => ?_) ?_ ?_ (fun u _ => ?_) _)
  · rw [ho]
    exact fun he => hg.rest_ne i (hfull i hi) (Owner.node.inj he).symm
  · rw [ho]
    exact nofun
  · rw [ho]
    exact nofun
  · rw [ho]
    exact nofun

end

end CppTrack.SimpleQueue
