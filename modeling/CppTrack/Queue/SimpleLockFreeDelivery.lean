import CppTrack.Queue.SimpleLockFreeMoves

/-!
# Each item once, unless a node is filled under a reader

Every move of a thread is one of the changes, so it keeps what the threads rely on, with
one exception: a producer that fills a node whose item another thread has the right to and
has not taken. In a run where that never happens each item is returned at most once. It
can happen, and then an item is returned twice and another is lost.
-/

namespace CppTrack.SimpleQueue

open Lib

variable {α : Type}

/-- A version and a node's number fit into their bits. -/
def Fits (g : Shared α) : Pc α → Prop
  | .popSwap _ head _ => g.freeListHead = head → g.reuses head.node + 1 < 2 ^ 24
  | .newNode _ => g.nextNode < 2 ^ 39
  | _ => True

/-- The node that a producer is about to fill. -/
def filling : Pc α → Option Nat
  | .fill _ idx => some idx.node
  | _ => none

/-- Nobody fills a node out of which another thread has yet to take an item. -/
def Careful (c : Threads (Shared α) (Pc α)) (i : Nat × Act α) : Prop :=
  Fits c.shared (c.pc i.1) ∧
    ∀ n, filling (c.pc i.1) = some n → ∀ u, taking (c.pc u) ≠ some n

theorem incrVersion_of_lt {i : Idx} (hi : i.version + 1 < 2 ^ 24) :
    incrVersion i = { i with version := i.version + 1 } := by
  unfold incrVersion
  rw [Nat.mod_eq_of_lt hi]

theorem idxOfCount_of_lt {k : Nat} (hk : k < 2 ^ 39) : idxOfCount k = ⟨0, k, false⟩ := by
  unfold idxOfCount
  rw [Nat.mod_eq_of_lt hk, Nat.div_eq_of_lt hk, Nat.zero_mod]

section

variable {t : Nat} {g g' : Shared α} {p p' : Pc α}

theorem popFrom_own (hg : Good g) {e : Item α} (he : Holds g t e) :
    Own g t (popFrom e g.freeListHead) := by
  unfold popFrom
  split
  · exact he
  · rename_i hnull
    refine ⟨he, hnull, .inl ?_⟩
    rw [(hg.freed.path.eq_cons hnull).1]
    exact List.mem_cons_self

/-- The weak compare-and-swap fails, and the loop goes on. -/
theorem fail_keeps (hg : Good g) (hp : Own g t p) (hact : act t g p .fail = some (g', p')) :
    Keeps t g g' ∧ Own g' t p' := by
  cases p <;> simp only [act, reduceCtorEq, Option.some.injEq, Prod.mk.injEq] at hact
  case popSwap e head next =>
    obtain ⟨rfl, rfl⟩ := hact
    exact ⟨.refl hg t, popFrom_own hg hp.1⟩
  case swapTail e idx tail =>
    obtain ⟨rfl, rfl⟩ := hact
    exact ⟨.refl hg t, hp⟩
  case advance raw next =>
    obtain ⟨rfl, rfl⟩ := hact
    exact ⟨.refl hg t, trivial⟩
  case pushSwap raw head got =>
    obtain ⟨rfl, rfl⟩ := hact
    exact ⟨.refl hg t, hp.1, hp.2.1⟩

/-- `freeListHead.compare_exchange_weak(head, next)` -/
theorem popSwap_keeps (hg : Good g) {e : Item α} {head next : Idx}
    (hp : Own g t (.popSwap e head next)) (hfits : Fits g (.popSwap e head next))
    (hact : act t g (.popSwap e head next) .go = some (g', p')) :
    Keeps t g g' ∧ Own g' t p' := by
  obtain ⟨he, hnull, hhead⟩ := hp
  simp only [act] at hact
  split at hact
  · rename_i heq
    obtain ⟨rfl, rfl⟩ := Prod.mk.inj (Option.some.inj hact)
    have hlt := hfits heq
    subst heq
    have hmem : g.freeListHead ∈ g.free := by
      rw [(hg.freed.path.eq_cons hnull).1]
      exact List.mem_cons_self
    obtain ⟨-, hver, hflag⟩ := hg.freed.current _ hmem
    -- it has not been reused since its link was read
    rcases hhead with ⟨-, rfl⟩ | hold
    · have hkeeps := pop_keeps hg hnull t
      rw [incrVersion_of_lt (hver ▸ hlt)]
      refine ⟨hkeeps, he, Function.update_self .., ?_, hflag⟩
      show _ = Function.update g.reuses _ _ _
      rw [Function.update_self, hver]
    · exact absurd hver (Nat.ne_of_lt hold)
  · obtain ⟨rfl, rfl⟩ := Prod.mk.inj (Option.some.inj hact)
    exact ⟨.refl hg t, popFrom_own hg he⟩

/-- `tail.compare_exchange_weak(tail_, nodeIdx)` -/
theorem swapTail_keeps (hg : Good g) {e : Item α} {idx tail : Idx}
    (hp : Own g t (.swapTail e idx tail))
    (hact : act t g (.swapTail e idx tail) .go = some (g', p')) :
    Keeps t g g' ∧ Own g' t p' := by
  simp only [act] at hact
  split at hact
  · rename_i heq
    obtain ⟨rfl, rfl⟩ := Prod.mk.inj (Option.some.inj hact)
    obtain ⟨he, hmine, hnext, hitem⟩ := hp
    subst heq
    exact ⟨append_keeps hg hmine he hnext hitem, Function.update_self ..⟩
  · obtain ⟨rfl, rfl⟩ := Prod.mk.inj (Option.some.inj hact)
    exact ⟨.refl hg t, hp⟩

/-- `headNode->next`, and what is done about it -/
theorem loadNext_keeps (hg : Good g) {raw : Idx} (hp : Own g t (.loadNext raw))
    (hact : act t g (.loadNext raw) .go = some (g', p')) : Keeps t g g' ∧ Own g' t p' := by
  simp only [act] at hact
  split at hact
  · split at hact
    · obtain ⟨rfl, rfl⟩ := Prod.mk.inj (Option.some.inj hact)
      exact ⟨.refl hg t, trivial⟩
    · obtain ⟨rfl, rfl⟩ := Prod.mk.inj (Option.some.inj hact)
      exact ⟨.refl hg t, trivial⟩
  · rename_i hnull
    obtain ⟨rfl, rfl⟩ := Prod.mk.inj (Option.some.inj hact)
    exact ⟨.refl hg t, hp.imp_left fun h => ⟨h, rfl⟩, hnull⟩

/-- `head.compare_exchange_strong(head_, set_consumed_flag(head_))` -/
theorem mark_keeps (hg : Good g) {raw : Idx}
    (hact : act t g (.mark raw) .go = some (g', p')) : Keeps t g g' ∧ Own g' t p' := by
  simp only [act] at hact
  split at hact
  · rename_i hhead
    split at hact
    · rename_i e hitem
      obtain ⟨rfl, rfl⟩ := Prod.mk.inj (Option.some.inj hact)
      have hnode : g.item g.head.node = some e := by rw [hhead]; exact hitem
      obtain ⟨hmem, ho⟩ := hg.head_item (by rw [hhead]; rfl) hnode
      have hflag := flag_keeps hg hhead t
      exact ⟨hflag.claim hg rfl (fun i hi => hi) ho, e, hitem, hmem, Function.update_self ..⟩
    · exact absurd hact nofun
  · obtain ⟨rfl, rfl⟩ := Prod.mk.inj (Option.some.inj hact)
    exact ⟨.refl hg t, trivial⟩

/-- `head.compare_exchange_weak(rawHead_, next)` -/
theorem advance_act_keeps (hg : Good g) {raw next : Idx} (hp : Own g t (.advance raw next))
    (hact : act t g (.advance raw next) .go = some (g', p')) :
    Keeps t g g' ∧ Own g' t p' := by
  obtain ⟨hseen, hnull⟩ := hp
  simp only [act] at hact
  split at hact
  · rename_i hhead
    rcases hseen with ⟨-, rfl⟩ | hstale
    · subst hhead
      have hkeeps := advance_keeps hg hnull t
      have hcur := (hg.queued.current _ List.mem_cons_self).2
      split at hact
      · obtain ⟨rfl, rfl⟩ := Prod.mk.inj (Option.some.inj hact)
        exact ⟨hkeeps, ⟨Function.update_self .., hcur⟩, nofun⟩
      · rename_i hraw
        obtain ⟨e, hitem, he⟩ := Option.map_eq_some_iff.mp hact
        obtain ⟨rfl, rfl⟩ := Prod.mk.inj he
        obtain ⟨hmem, ho⟩ := hg.head_item (Bool.eq_false_iff.mpr hraw) hitem
        have hfull : ∀ i ∈ (advanced t g).full, i ∈ g.rest :=
          fun i hi => (hg.advanced_queue hnull t).1 ▸ Good.full_subset _ i hi
        exact ⟨hkeeps.claim hg rfl hfull ho, ⟨Function.update_self .., hcur⟩, e, hitem, hmem,
          Function.update_self ..⟩
    · exact absurd hhead (hg.not_stale hstale)
  · obtain ⟨rfl, rfl⟩ := Prod.mk.inj (Option.some.inj hact)
    exact ⟨.refl hg t, trivial⟩

/-- `freeListHead.compare_exchange_weak(head, idx)` -/
theorem pushSwap_keeps (hg : Good g) {raw head : Idx} {got : Option (Item α)}
    (hp : Own g t (.pushSwap raw head got))
    (hact : act t g (.pushSwap raw head got) .go = some (g', p')) :
    Keeps t g g' ∧ Own g' t p' := by
  obtain ⟨hout, hgot, hnext⟩ := hp
  simp only [act] at hact
  split at hact
  · rename_i hhead
    have hkeeps := push_keeps hg hout (hnext.trans hhead.symm)
    cases got with
    | none =>
        obtain ⟨rfl, rfl⟩ := Prod.mk.inj (Option.some.inj hact)
        exact ⟨hkeeps, trivial⟩
    | some e =>
        obtain ⟨rfl, rfl⟩ := Prod.mk.inj (Option.some.inj hact)
        exact ⟨hkeeps.trans (give_keeps hkeeps.good (hgot e rfl)), trivial⟩
  · obtain ⟨rfl, rfl⟩ := Prod.mk.inj (Option.some.inj hact)
    exact ⟨.refl hg t, hout, hgot⟩

/-- One move keeps what its thread relies on, and respects the others. -/
theorem act_keeps (hg : Good g) (hp : Own g t p) (hfits : Fits g p) {i : Act α}
    (hact : act t g p i = some (g', p')) : Keeps t g g' ∧ Own g' t p' := by
  cases i with
  | enqueue x =>
      cases p <;> simp only [act, reduceCtorEq, Option.some.injEq, Prod.mk.injEq] at hact
      obtain ⟨rfl, rfl⟩ := hact
      exact ⟨begin_keeps hg x t, List.mem_append_right _ List.mem_cons_self,
        Function.update_self ..⟩
  | tryDequeue =>
      cases p <;> simp only [act, reduceCtorEq, Option.some.injEq, Prod.mk.injEq] at hact
      obtain ⟨rfl, rfl⟩ := hact
      exact ⟨.refl hg t, trivial⟩
  | fail => exact fail_keeps hg hp hact
  | go =>
      cases p with
      | idle => exact absurd hact (by simp [act])
      | popLoad e =>
          obtain ⟨rfl, rfl⟩ := Prod.mk.inj (Option.some.inj hact)
          exact ⟨.refl hg t, popFrom_own hg hp⟩
      | popNext e head =>
          obtain ⟨rfl, rfl⟩ := Prod.mk.inj (Option.some.inj hact)
          exact ⟨.refl hg t, hp.1, hp.2.1, hp.2.2.imp_left fun h => ⟨h, rfl⟩⟩
      | popSwap e head next => exact popSwap_keeps hg hp hfits hact
      | newNode e =>
          simp only [act, idxOfCount_of_lt hfits, Option.some.injEq, Prod.mk.injEq] at hact
          obtain ⟨rfl, rfl⟩ := hact
          obtain ⟨hkeeps, hzero⟩ := alloc_keeps hg t
          exact ⟨hkeeps, hp, Function.update_self .., hzero.symm, rfl⟩
      | clearNext e idx =>
          obtain ⟨rfl, rfl⟩ := Prod.mk.inj (Option.some.inj hact)
          obtain ⟨he, hmine⟩ := hp
          exact ⟨store_keeps hg (by rw [hmine.1]; rfl) _, he, hmine, Function.update_self ..⟩
      | fill e idx =>
          obtain ⟨rfl, rfl⟩ := Prod.mk.inj (Option.some.inj hact)
          obtain ⟨he, hmine, hnext⟩ := hp
          exact ⟨fill_keeps hg (by rw [hmine.1]; rfl) _, he, hmine, hnext,
            Function.update_self ..⟩
      | loadTail e idx =>
          obtain ⟨rfl, rfl⟩ := Prod.mk.inj (Option.some.inj hact)
          exact ⟨.refl hg t, hp⟩
      | swapTail e idx tail => exact swapTail_keeps hg hp hact
      | link idx tail =>
          obtain ⟨rfl, rfl⟩ := Prod.mk.inj (Option.some.inj hact)
          exact ⟨link_keeps hg hp, trivial⟩
      | loadHead =>
          obtain ⟨rfl, rfl⟩ := Prod.mk.inj (Option.some.inj hact)
          exact ⟨.refl hg t, .inl rfl⟩
      | loadNext raw => exact loadNext_keeps hg hp hact
      | mark raw => exact mark_keeps hg hact
      | take raw =>
          obtain ⟨e, hitem, he⟩ := hp
          simp only [act, hitem, Option.map_some, Option.some.injEq, Prod.mk.injEq] at hact
          obtain ⟨rfl, rfl⟩ := hact
          exact ⟨give_keeps hg he, trivial⟩
      | advance raw next => exact advance_act_keeps hg hp hact
      | read raw =>
          obtain ⟨hout, e, hitem, he⟩ := hp
          simp only [act, hitem, Option.map_some, Option.some.injEq, Prod.mk.injEq] at hact
          obtain ⟨rfl, rfl⟩ := hact
          exact ⟨.refl hg t, hout, fun f hf => Option.some.inj hf ▸ he⟩
      | pushLoad raw got =>
          obtain ⟨rfl, rfl⟩ := Prod.mk.inj (Option.some.inj hact)
          exact ⟨.refl hg t, hp⟩
      | pushNext raw head got =>
          obtain ⟨rfl, rfl⟩ := Prod.mk.inj (Option.some.inj hact)
          obtain ⟨hout, hgot⟩ := hp
          exact ⟨store_keeps hg (by rw [hout.1]; rfl) _, hout, hgot, Function.update_self ..⟩
      | pushSwap raw head got => exact pushSwap_keeps hg hp hact

end

/-! ## Runs -/

/-- Only a producer that fills its node writes an item. -/
theorem act_item {t : Nat} {g g' : Shared α} {p p' : Pc α} {i : Act α}
    (hact : act t g p i = some (g', p')) (n : Nat) (hn : filling p ≠ some n) :
    g'.item n = g.item n := by
  cases i with
  | enqueue x =>
      cases p <;> simp only [act, reduceCtorEq, Option.some.injEq, Prod.mk.injEq] at hact
      exact hact.1 ▸ rfl
  | tryDequeue =>
      cases p <;> simp only [act, reduceCtorEq, Option.some.injEq, Prod.mk.injEq] at hact
      exact hact.1 ▸ rfl
  | fail =>
      cases p <;> simp only [act, reduceCtorEq, Option.some.injEq, Prod.mk.injEq] at hact <;>
        exact hact.1 ▸ rfl
  | go =>
      cases p with
      | idle => exact absurd hact (by simp [act])
      | fill e idx =>
          obtain ⟨rfl, rfl⟩ := Prod.mk.inj (Option.some.inj hact)
          exact Function.update_of_ne (fun he => hn (congrArg some he.symm)) _ _
      | popSwap e head next | swapTail e idx tail =>
          simp only [act] at hact
          split at hact <;> obtain ⟨rfl, rfl⟩ := Prod.mk.inj (Option.some.inj hact) <;> rfl
      | loadNext raw =>
          simp only [act] at hact
          split at hact
          · split at hact <;> obtain ⟨rfl, rfl⟩ := Prod.mk.inj (Option.some.inj hact) <;> rfl
          · obtain ⟨rfl, rfl⟩ := Prod.mk.inj (Option.some.inj hact)
            rfl
      | mark raw =>
          simp only [act] at hact
          split at hact
          · split at hact
            · obtain ⟨rfl, rfl⟩ := Prod.mk.inj (Option.some.inj hact)
              rfl
            · exact absurd hact nofun
          · obtain ⟨rfl, rfl⟩ := Prod.mk.inj (Option.some.inj hact)
            rfl
      | take raw | read raw =>
          obtain ⟨e, -, he⟩ := Option.map_eq_some_iff.mp hact
          obtain ⟨rfl, rfl⟩ := Prod.mk.inj he
          rfl
      | advance raw next =>
          simp only [act] at hact
          split at hact
          · split at hact
            · obtain ⟨rfl, rfl⟩ := Prod.mk.inj (Option.some.inj hact)
              rfl
            · obtain ⟨e, -, he⟩ := Option.map_eq_some_iff.mp hact
              obtain ⟨rfl, rfl⟩ := Prod.mk.inj he
              rfl
          · obtain ⟨rfl, rfl⟩ := Prod.mk.inj (Option.some.inj hact)
            rfl
      | pushSwap raw head got =>
          simp only [act] at hact
          split at hact
          · cases got <;> obtain ⟨rfl, rfl⟩ := Prod.mk.inj (Option.some.inj hact) <;> rfl
          · obtain ⟨rfl, rfl⟩ := Prod.mk.inj (Option.some.inj hact)
            rfl
      | _ =>
          obtain ⟨rfl, rfl⟩ := Prod.mk.inj (Option.some.inj hact)
          rfl

section

variable {c c' : Threads (Shared α) (Pc α)} {i : Nat × Act α}

/-- The invariant of the queue. -/
def Inv (c : Threads (Shared α) (Pc α)) : Prop := Invariant Good Own (fun _ _ => True) c

theorem inv_step (hc : Inv c) (hi : Careful c i) (hstep : c.step act i = some c') : Inv c' := by
  refine interference_free (fun _ _ _ => trivial) (fun g p hact => ?_) hc hstep
  obtain ⟨hkeeps, hown⟩ := act_keeps hc.shared (hc.own i.1) hi.1 hact
  refine ⟨hkeeps.good, hown, fun u hu => ⟨?_, trivial⟩⟩
  refine own_stable hkeeps.respects hu (fun n hn => ?_) (hc.own u)
  exact act_item hact n fun hfill => hi.2 n hfill u hn

theorem start_inv : Inv (start : Threads (Shared α) (Pc α)) := by
  refine ⟨⟨?_, ?_, ?_, ?_, ?_⟩, fun _ => trivial, fun _ _ _ => trivial⟩
  · refine ⟨fun i hi => ?_, List.nodup_singleton _, ⟨rfl, rfl⟩, List.mem_cons_self, rfl, nofun⟩
    obtain rfl := List.mem_singleton.mp hi
    exact ⟨rfl, rfl, rfl⟩
  · exact ⟨nofun, List.nodup_nil, rfl⟩
  · refine ⟨fun n hn => ?_, fun _ _ => rfl, nofun⟩
    have hn : n = 0 ∨ 2 ≤ n := hn
    have hne : n ≠ 1 := by omega
    show Function.update (fun _ : Nat => Place.unused) 1 .queue n = .unused
    exact Function.update_of_ne hne _ _
  · exact nofun
  · exact ⟨fun _ _ => rfl, nofun, List.nodup_nil⟩

theorem Good.delivered {g : Shared α} (hg : Good g) : Delivered g :=
  ⟨fun e he => (hg.recorded.known e he).1, hg.recorded.once⟩

end

/--
**Each item once, if no node is filled under a reader.** In a run in which no producer
fills a node that another thread has yet to take an item out of, what is returned was
enqueued, and no item is returned twice.
-/
theorem delivered_once (moves : List (Nat × Act α)) (c : Threads (Shared α) (Pc α))
    (hmoves : Meets (Threads.step act) Careful start moves) (hrun : runs moves = some c) :
    Delivered c.shared := by
  have hinv : Inv c := run_keeps_meets Careful (fun _ _ _ hc hi hstep => inv_step hc hi hstep)
    moves start_inv hmoves hrun
  exact hinv.shared.delivered

/-! Where only the threads below `k` move, a run can be checked. -/

/-- `Careful`, as far as the threads below `k` are concerned. -/
def CarefulBelow (k : Nat) (c : Threads (Shared α) (Pc α)) (i : Nat × Act α) : Prop :=
  i.1 < k ∧ Fits c.shared (c.pc i.1) ∧
    ∀ n ∈ filling (c.pc i.1), ∀ u < k, taking (c.pc u) ≠ some n

instance (g : Shared α) (p : Pc α) : Decidable (Fits g p) := by
  cases p
  case popSwap => exact inferInstanceAs (Decidable (_ → _))
  case newNode => exact inferInstanceAs (Decidable (_ < _))
  all_goals exact .isTrue trivial

instance (k : Nat) (c : Threads (Shared α) (Pc α)) (i : Nat × Act α) :
    Decidable (CarefulBelow k c i) :=
  inferInstanceAs (Decidable (_ ∧ _ ∧ _))

theorem careful_of_below (k : Nat) (moves : List (Nat × Act α))
    (hm : Meets (Threads.step act) (CarefulBelow k) start moves) :
    Meets (Threads.step act) Careful start moves := by
  refine Meets.mono Careful
    (fun c i c' (hidle : ∀ u, k ≤ u → c.pc u = .idle) hi hstep u hu => ?_)
    (fun c i hidle hi => ?_) moves (fun _ _ => rfl) hm
  · rw [Threads.step_pc_of_ne hstep (Nat.ne_of_gt (Nat.lt_of_lt_of_le hi.1 hu))]
    exact hidle u hu
  · refine ⟨hi.2.1, fun n hn u => ?_⟩
    by_cases hu : u < k
    · exact hi.2.2 n hn u hu
    · rw [hidle u (Nat.le_of_not_lt hu)]
      exact nofun

/-- Thread `t` goes on for `n` moves. -/
def goes (t n : Nat) : List (Nat × Act Nat) := List.replicate n (t, .go)

/-- A node is used again, and one consumer passes another. -/
def passed : List (Nat × Act Nat) :=
  (0, .enqueue 7) :: goes 0 7 ++ (1, .tryDequeue) :: goes 1 10 ++ (0, .enqueue 8) :: goes 0 8 ++
    (1, .tryDequeue) :: (2, .tryDequeue) :: goes 1 2 ++ goes 2 3 ++ goes 1 1 ++
    (0, .enqueue 9) :: goes 0 4 ++ goes 2 7 ++ goes 0 3 ++ goes 1 10

theorem delivered_once_three :
    ∃ c, Meets (Threads.step act) Careful start passed ∧ runs passed = some c ∧
      c.shared.returned.length = 3 ∧ Delivered c.shared := by
  have h : (runs passed).any (fun c => c.shared.returned.length = 3) = true := by decide +kernel
  obtain ⟨c, hrun, hc⟩ := (Option.any_eq_true _ _).mp h
  have hm : Meets (Threads.step act) (CarefulBelow 3) start passed := by decide +kernel
  have hm := careful_of_below 3 passed hm
  exact ⟨c, hm, hrun, of_decide_eq_true hc, delivered_once passed c hm hrun⟩

/-- Thread 1 has set the flag and stops before it takes the item 7. Thread 2 frees its node,
which is filled with 9; thread 1 takes that, and so does thread 2. -/
theorem delivered_twice :
    ∃ c, runs ((0, .enqueue 7) :: goes 0 7 ++ (1, .tryDequeue) :: goes 1 9 ++ (0, .enqueue 8) ::
        goes 0 8 ++ (2, .tryDequeue) :: goes 2 10 ++ (0, .enqueue 9) :: goes 0 5 ++ goes 1 1 ++
        goes 0 3 ++ (2, .tryDequeue) :: goes 2 10) = some c ∧ ¬ Delivered c.shared := by
  have h : (runs ((0, .enqueue 7) :: goes 0 7 ++ (1, .tryDequeue) :: goes 1 9 ++
      (0, .enqueue 8) :: goes 0 8 ++ (2, .tryDequeue) :: goes 2 10 ++ (0, .enqueue 9) ::
      goes 0 5 ++ goes 1 1 ++ goes 0 3 ++ (2, .tryDequeue) :: goes 2 10)).any
        (fun c => c.shared.returned.map Prod.fst = [1, 2, 2]) = true := by
    decide +kernel
  obtain ⟨c, hrun, hc⟩ := (Option.any_eq_true _ _).mp h
  refine ⟨c, hrun, fun hd => ?_⟩
  have hnodup := hd.2
  rw [of_decide_eq_true hc] at hnodup
  exact absurd hnodup (by decide)

end CppTrack.SimpleQueue
