import CppTrack.Lib.Run

/-!
# Waiting for the lock-free pipe (`ypipe.hpp`, `4_test_lock_free_queue.cpp`)

A pipe with one writer and one reader, and the two threads of the test that block on a
condition variable. A pointer into the queue is the number of elements before it. The
writer's pointers `w` and `f` and the reader's `r` are each one thread's own; `c` is where
they meet, and is `none` where the source has `NULL`: the reader is asleep.

Each access to `c`, to the mutex or to the condition variable is a move of its own. A
waiting thread may also wake up for no reason.
-/

namespace CppTrack.BlockingPipe

open Lib

/-- `ypipe_t<int, N>`. -/
structure YPipe where
  slots : Nat → Nat
  front : Nat
  back : Nat
  w : Nat
  f : Nat
  r : Option Nat
  c : Option Nat

/-- `ypipe_t::ypipe_t`. -/
def YPipe.init : YPipe :=
  { slots := fun _ => 0, front := 0, back := 0, w := 0, f := 0, r := some 0, c := some 0 }

/-- `write(value_, false)`. -/
def YPipe.write (p : YPipe) (value : Nat) : YPipe :=
  { p with
    slots := Function.update p.slots p.back value
    back := p.back + 1
    f := p.back + 1 }

/-- `flush`, up to the compare-and-swap. `none` if it failed. -/
def YPipe.flushCas (p : YPipe) : Option YPipe :=
  if p.w = p.f then some p
  else if p.c = some p.w then some { p with c := some p.f, w := p.f }
  else none

/-- `flush`, after a compare-and-swap that failed. -/
def YPipe.flushSet (p : YPipe) : YPipe := { p with c := some p.f, w := p.f }

/-- `check_read`. -/
def YPipe.checkRead (p : YPipe) : Bool × YPipe :=
  if p.r.isSome ∧ some p.front ≠ p.r then (true, p)
  else
    let p' := { p with r := p.c, c := if p.c = some p.front then none else p.c }
    (decide (p'.r.isSome ∧ some p.front ≠ p'.r), p')

/-- The rest of `read`. -/
def YPipe.take (p : YPipe) : Nat × YPipe := (p.slots p.front, { p with front := p.front + 1 })

/-- What the producer does next, `last` if it has left its loop. -/
inductive Producer
  | loop (i : Nat)
  | flush (i : Nat)
  | flushSet (i : Nat)
  | lock (i : Nat) (last : Bool)
  | notify (i : Nat) (last : Bool)
  | unlock (i : Nat) (last : Bool)
  | finished
  deriving DecidableEq

/-- What the consumer does next. -/
inductive Consumer
  | read
  | take
  | lock
  | wait
  /-- blocked in `wait`, not notified -/
  | waiting
  /-- notified, or woken for no reason; to get the mutex back -/
  | woken
  | unlock
  | test
  | finished
  deriving DecidableEq

inductive Party
  | producer
  | consumer
  deriving DecidableEq

structure State where
  pipe : YPipe
  mutex : Option Party
  producer : Producer
  consumer : Consumer
  countPush : Nat
  countPop : Nat

inductive Move
  | producer
  | consumer
  | spurious
  deriving DecidableEq

/-- `notify_one`. -/
def Consumer.notified : Consumer → Consumer
  | .waiting => .woken
  | c => c

/-- `yqueue_producer_thread_condition`, for `n` items. -/
def produce (n : Nat) (s : State) : Option State :=
  match s.producer with
  | .loop i =>
      if i < n then
        some { s with
          pipe := s.pipe.write s.countPush
          countPush := s.countPush + 1
          producer := .flush (i + 1) }
      else some { s with producer := .lock i true }
  | .flush i =>
      match s.pipe.flushCas with
      | some p => some { s with pipe := p, producer := .loop i }
      | none => some { s with producer := .flushSet i }
  | .flushSet i => some { s with pipe := s.pipe.flushSet, producer := .lock i false }
  | .lock i last =>
      if s.mutex = none then some { s with mutex := some .producer, producer := .notify i last }
      else none
  | .notify i last =>
      some { s with consumer := s.consumer.notified, producer := .unlock i last }
  | .unlock i last =>
      some { s with mutex := none, producer := if last then .finished else .loop i }
  | .finished => none

/-- `yqueue_consumer_thread_condition`, with one producer of `n` items. -/
def consume (n : Nat) (s : State) : Option State :=
  match s.consumer with
  | .read =>
      let x := s.pipe.checkRead
      some { s with pipe := x.2, consumer := if x.1 then .take else .lock }
  | .take =>
      some { s with
        pipe := s.pipe.take.2
        countPop := s.countPop + 1
        consumer := .test }
  | .lock =>
      if s.mutex = none then some { s with mutex := some .consumer, consumer := .wait } else none
  | .wait => some { s with mutex := none, consumer := .waiting }
  | .waiting => none
  | .woken =>
      if s.mutex = none then some { s with mutex := some .consumer, consumer := .unlock }
      else none
  | .unlock => some { s with mutex := none, consumer := .test }
  | .test => some { s with consumer := if n ≤ s.countPop then .finished else .read }
  | .finished => none

def step (n : Nat) (s : State) : Move → Option State
  | .producer => produce n s
  | .consumer => consume n s
  | .spurious => if s.consumer = .waiting then some { s with consumer := .woken } else none

def start : State :=
  { pipe := .init, mutex := none, producer := .loop 0, consumer := .read, countPush := 0,
    countPop := 0 }

/-- Nobody will wake the consumer, and there is something for it to read. -/
def Stranded (s : State) : Prop :=
  s.producer = .finished ∧ s.consumer = .waiting ∧ s.pipe.front < s.pipe.w

instance (s : State) : Decidable (Stranded s) := inferInstanceAs (Decidable (_ ∧ _ ∧ _))

/-! ## The pipe -/

/-- What the pointers always satisfy. -/
structure YPipe.Ok (p : YPipe) : Prop where
  front_le : p.front ≤ p.w
  flushed_le : p.w ≤ p.f
  asleep : p.c = some p.w ∨ p.c = none ∧ p.w = p.front
  prefetched : ∀ x, p.r = some x → p.front ≤ x ∧ x ≤ p.w

section

variable {p : YPipe}

theorem YPipe.init_ok : YPipe.init.Ok :=
  ⟨Nat.le_refl 0, Nat.le_refl 0, .inl rfl,
    fun _ hx => ⟨Nat.zero_le _, Nat.le_of_eq (Option.some.inj hx).symm⟩⟩

theorem YPipe.Ok.write (h : p.Ok) (value : Nat) (hback : p.f = p.back) : (p.write value).Ok where
  front_le := h.front_le
  flushed_le := by
    show p.w ≤ p.back + 1
    have := h.flushed_le
    omega
  asleep := h.asleep
  prefetched := h.prefetched

theorem YPipe.Ok.flushSet (h : p.Ok) : p.flushSet.Ok where
  front_le := Nat.le_trans h.front_le h.flushed_le
  flushed_le := Nat.le_refl _
  asleep := .inl rfl
  prefetched := fun x hx => ⟨(h.prefetched x hx).1, Nat.le_trans (h.prefetched x hx).2 h.flushed_le⟩

/-- `flush` tells whether the reader is asleep. -/
theorem YPipe.Ok.flushCas (h : p.Ok) :
    (∃ p', p.flushCas = some p' ∧ p'.Ok ∧ p'.front = p.front ∧ p'.f = p.f ∧ p'.back = p.back ∧
        p.w ≤ p'.w ∧ p'.r = p.r) ∨
      p.flushCas = none ∧ p.c = none := by
  unfold YPipe.flushCas
  split
  · exact .inl ⟨p, rfl, h, rfl, rfl, rfl, Nat.le_refl _, rfl⟩
  · split
    · exact .inl ⟨_, rfl, h.flushSet, rfl, rfl, rfl, h.flushed_le, rfl⟩
    · rename_i hc
      rcases h.asleep with hw | ⟨hn, -⟩
      · exact absurd hw hc
      · exact .inr ⟨rfl, hn⟩

/-- `check_read` finds something if and only if something was flushed. -/
theorem YPipe.Ok.checkRead (h : p.Ok) :
    p.checkRead.2.Ok ∧ p.checkRead.2.front = p.front ∧ p.checkRead.2.w = p.w ∧
      p.checkRead.2.f = p.f ∧ p.checkRead.2.back = p.back ∧
      (p.checkRead.1 = true ↔ p.front < p.w) := by
  unfold YPipe.checkRead
  split
  · rename_i hr
    refine ⟨h, rfl, rfl, rfl, rfl, iff_of_true rfl ?_⟩
    obtain ⟨x, hx⟩ := Option.isSome_iff_exists.mp hr.1
    have hb := h.prefetched x hx
    have hne : p.front ≠ x := fun he => hr.2 (he ▸ hx.symm)
    omega
  · have hle := h.front_le
    rcases h.asleep with hw | ⟨hn, hwf⟩
    · by_cases he : p.w = p.front
      · -- the reader goes to sleep
        refine ⟨⟨hle, h.flushed_le, .inr ⟨?_, he⟩, fun x hx => ?_⟩, rfl, rfl, rfl, rfl, ?_⟩
        · show (if p.c = some p.front then none else p.c) = none
          rw [if_pos (he ▸ hw)]
        · have hx : p.w = x := Option.some.inj (hw.symm.trans hx)
          exact ⟨hx ▸ hle, Nat.le_of_eq hx.symm⟩
        · simp [hw, he]
      · refine ⟨⟨hle, h.flushed_le, .inl ?_, fun x hx => ?_⟩, rfl, rfl, rfl, rfl, ?_⟩
        · show (if p.c = some p.front then none else p.c) = some p.w
          rw [if_neg fun hc => he (Option.some.inj (hw.symm.trans hc)), hw]
        · have hx : p.w = x := Option.some.inj (hw.symm.trans hx)
          exact ⟨hx ▸ hle, Nat.le_of_eq hx.symm⟩
        · simp only [hw, Option.isSome_some, true_and, ne_eq, Option.some.injEq, decide_eq_true_eq]
          omega
    · refine ⟨⟨hle, h.flushed_le, .inr ⟨?_, hwf⟩, fun x hx => ?_⟩, rfl, rfl, rfl, rfl, ?_⟩
      · show (if p.c = some p.front then none else p.c) = none
        rw [hn, if_neg nofun]
      · exact absurd (hn.symm.trans hx) nofun
      · simp [hn, hwf]

theorem YPipe.checkRead_ne (h : p.checkRead.1 = true) : some p.front ≠ p.checkRead.2.r := by
  unfold YPipe.checkRead at h ⊢
  split at h
  · rename_i hr
    rw [if_pos hr]
    exact hr.2
  · rename_i hr
    rw [if_neg hr]
    exact (of_decide_eq_true h).2

theorem YPipe.Ok.take (h : p.Ok) (hlt : p.front < p.w) (hr : ∀ x, p.r = some x → p.front < x) :
    p.take.2.Ok where
  front_le := hlt
  flushed_le := h.flushed_le
  asleep := by
    rcases h.asleep with hw | ⟨-, hwf⟩
    · exact .inl hw
    · omega
  prefetched := fun x hx => ⟨hr x hx, (h.prefetched x hx).2⟩

end

/-! ## The two threads -/

/-- The producer has sent its last notification. -/
def Producer.Past : Producer → Prop
  | .unlock _ true => True
  | .finished => True
  | _ => False

/-- The consumer found nothing, and is on its way to the wait. -/
def Consumer.OnTheWay : Consumer → Prop
  | .lock => True
  | .wait => True
  | _ => False

/-- The last notification does not come when the consumer is on its way to the wait and
there is something for it to read. -/
def Careful (s : State) (m : Move) : Prop :=
  m = .producer → (∃ i, s.producer = .notify i true) → s.consumer.OnTheWay →
    s.pipe.front = s.pipe.w

/-- What holds between two moves. -/
structure Good (s : State) : Prop where
  pipe : s.pipe.Ok
  back : s.pipe.f = s.pipe.back
  take : s.consumer = .take →
    s.pipe.front < s.pipe.w ∧ ∀ x, s.pipe.r = some x → s.pipe.front < x
  past : s.producer.Past → s.consumer.OnTheWay ∨ s.consumer = .waiting → s.pipe.front = s.pipe.w

section

variable {n : Nat} {s s' : State}

/-- The producer writes or flushes: it is not past its last notification. -/
theorem Good.push (h : Good s) {p : YPipe} (hp : p.Ok) (hback : p.f = p.back)
    (hfront : p.front = s.pipe.front) (hw : s.pipe.w ≤ p.w) (hr : p.r = s.pipe.r) {q : Producer}
    (hq : ¬ q.Past) (k : Nat) : Good { s with pipe := p, producer := q, countPush := k } where
  pipe := hp
  back := hback
  take := fun ht => by
    obtain ⟨hlt, hx⟩ := h.take ht
    refine ⟨?_, fun x hrx => ?_⟩
    · show p.front < p.w
      omega
    · rw [hr] at hrx
      exact hfront ▸ hx x hrx
  past := fun hpast => absurd hpast hq

theorem produce_good (h : Good s) (hcare : Careful s .producer) (hstep : produce n s = some s') :
    Good s' := by
  unfold produce at hstep
  have hpipe := h.pipe
  cases hp : s.producer with
  | loop i =>
      rw [hp] at hstep
      simp only at hstep
      split at hstep
      · obtain rfl := Option.some.inj hstep
        exact h.push (hpipe.write _ h.back) rfl rfl (Nat.le_refl _) rfl id _
      · obtain rfl := Option.some.inj hstep
        exact h.push hpipe h.back rfl (Nat.le_refl _) rfl id _
  | flush i =>
      rw [hp] at hstep
      simp only at hstep
      rcases hpipe.flushCas with ⟨p, hcas, hok, hfront, hf, hback, hw, hr⟩ | ⟨hcas, -⟩
      · rw [hcas] at hstep
        obtain rfl := Option.some.inj hstep
        exact h.push hok (hf.trans (h.back.trans hback.symm)) hfront hw hr id _
      · rw [hcas] at hstep
        obtain rfl := Option.some.inj hstep
        exact h.push hpipe h.back rfl (Nat.le_refl _) rfl id _
  | flushSet i =>
      rw [hp] at hstep
      obtain rfl := Option.some.inj hstep
      exact h.push hpipe.flushSet h.back rfl hpipe.flushed_le rfl id _
  | lock i last =>
      rw [hp] at hstep
      simp only at hstep
      split at hstep
      · obtain rfl := Option.some.inj hstep
        exact ⟨hpipe, h.back, h.take, fun hpast => absurd hpast id⟩
      · exact absurd hstep nofun
  | notify i last =>
      rw [hp] at hstep
      obtain rfl := Option.some.inj hstep
      refine ⟨hpipe, h.back, fun ht => ?_, fun hpast hway => ?_⟩
      · refine h.take ?_
        cases hc : s.consumer <;> rw [hc] at ht <;> first | exact ht | exact absurd ht nofun
      · -- who was waiting is not any more
        have hway' : s.consumer.OnTheWay := by
          cases hc : s.consumer <;> rw [hc] at hway <;>
            first | trivial | exact absurd hway (by simp [Consumer.notified, Consumer.OnTheWay])
        refine hcare rfl ⟨i, ?_⟩ hway'
        rw [hp]
        cases last with
        | true => rfl
        | false => exact absurd hpast id
  | unlock i last =>
      rw [hp] at hstep
      obtain rfl := Option.some.inj hstep
      refine ⟨hpipe, h.back, h.take, fun hpast hway => h.past ?_ hway⟩
      rw [hp]
      cases last with
      | true => trivial
      | false => exact absurd hpast id
  | finished =>
      rw [hp] at hstep
      exact absurd hstep nofun

/-- The consumer moves to a place where nothing is asked of it. -/
theorem Good.move (h : Good s) (c : Consumer) (ht : c ≠ .take) (hc : ¬ c.OnTheWay)
    (hw : c ≠ .waiting) (m : Option Party) : Good { s with mutex := m, consumer := c } where
  pipe := h.pipe
  back := h.back
  take := fun he => absurd he ht
  past := fun _ hway => (hway.elim hc hw).elim

theorem consume_good (h : Good s) (hstep : consume n s = some s') : Good s' := by
  unfold consume at hstep
  cases hc : s.consumer with
  | read =>
      rw [hc] at hstep
      obtain rfl := Option.some.inj hstep
      obtain ⟨hok, hfront, hw, hf, hback, hiff⟩ := h.pipe.checkRead
      refine ⟨hok, hf.trans (h.back.trans hback.symm), fun ht => ?_, fun _ hway => ?_⟩
      · have htrue : s.pipe.checkRead.1 = true := by
          by_contra hfalse
          simp [hfalse] at ht
        show s.pipe.checkRead.2.front < s.pipe.checkRead.2.w ∧
          ∀ x, s.pipe.checkRead.2.r = some x → s.pipe.checkRead.2.front < x
        rw [hfront, hw]
        refine ⟨hiff.mp htrue, fun x hx => ?_⟩
        have hne := YPipe.checkRead_ne htrue
        rw [hx] at hne
        have hle := (hok.prefetched x hx).1
        rw [hfront] at hle
        exact Nat.lt_of_le_of_ne hle fun he => hne (congrArg some he)
      · -- nothing was found, so nothing was there
        have hfalse : ¬ s.pipe.checkRead.1 = true := by
          intro htrue
          simp [htrue, Consumer.OnTheWay] at hway
        show s.pipe.checkRead.2.front = s.pipe.checkRead.2.w
        rw [hfront, hw]
        exact Nat.le_antisymm h.pipe.front_le (Nat.le_of_not_lt fun hlt => hfalse (hiff.mpr hlt))
  | take =>
      rw [hc] at hstep
      obtain rfl := Option.some.inj hstep
      obtain ⟨hlt, hx⟩ := h.take hc
      exact ⟨h.pipe.take hlt hx, h.back, nofun,
        fun _ hway => absurd hway (by simp [Consumer.OnTheWay])⟩
  | lock =>
      rw [hc] at hstep
      simp only at hstep
      split at hstep
      · obtain rfl := Option.some.inj hstep
        exact ⟨h.pipe, h.back, nofun, fun hp _ => h.past hp (.inl (by rw [hc]; trivial))⟩
      · exact absurd hstep nofun
  | wait =>
      rw [hc] at hstep
      obtain rfl := Option.some.inj hstep
      exact ⟨h.pipe, h.back, nofun, fun hp _ => h.past hp (.inl (by rw [hc]; trivial))⟩
  | waiting =>
      rw [hc] at hstep
      exact absurd hstep nofun
  | woken =>
      rw [hc] at hstep
      simp only at hstep
      split at hstep
      · obtain rfl := Option.some.inj hstep
        exact h.move .unlock nofun id nofun _
      · exact absurd hstep nofun
  | unlock =>
      rw [hc] at hstep
      obtain rfl := Option.some.inj hstep
      exact h.move .test nofun id nofun _
  | test =>
      rw [hc] at hstep
      obtain rfl := Option.some.inj hstep
      refine h.move _ ?_ ?_ ?_ _ <;> split <;> exact nofun
  | finished =>
      rw [hc] at hstep
      exact absurd hstep nofun

theorem good_step (h : Good s) {m : Move} (hcare : Careful s m) (hstep : step n s m = some s') :
    Good s' := by
  cases m with
  | producer => exact produce_good h hcare hstep
  | consumer => exact consume_good h hstep
  | spurious =>
      unfold step at hstep
      simp only at hstep
      split at hstep
      · obtain rfl := Option.some.inj hstep
        exact h.move .woken nofun id nofun _
      · exact absurd hstep nofun

theorem start_good : Good start :=
  ⟨YPipe.init_ok, rfl, nofun, fun hp => absurd hp id⟩

end

/--
**Nobody is stranded unless the last notification comes too early.** In a run where it does
not come between the read that finds nothing and the wait, the consumer is never left
waiting with something to read when the producer has finished.
-/
theorem never_stranded (n : Nat) (moves : List Move) (s : State)
    (hmoves : Meets (step n) Careful start moves) (hrun : run (step n) start moves = some s) :
    ¬ Stranded s := by
  have hgood : Good s :=
    run_keeps_meets Careful (fun _ _ _ h hcare hstep => good_step h hcare hstep)
    moves start_good hmoves hrun
  rintro ⟨hp, hc, hlt⟩
  refine absurd (hgood.past ?_ (.inr hc)) (Nat.ne_of_lt hlt)
  rw [hp]
  trivial

instance (s : State) (m : Move) : Decidable (Careful s m) :=
  have : Decidable (∃ i, s.producer = .notify i true) :=
    match h : s.producer with
    | .notify i true => .isTrue ⟨i, rfl⟩
    | .notify i false => .isFalse (by simp)
    | .loop i | .flush i | .flushSet i | .lock i _ | .unlock i _ | .finished => .isFalse (by simp)
  have : Decidable s.consumer.OnTheWay :=
    match s.consumer with
    | .lock | .wait => .isTrue trivial
    | .read | .take | .waiting | .woken | .unlock | .test | .finished => .isFalse id
  inferInstanceAs (Decidable (_ → _ → _ → _))

/-- Each party makes some moves. -/
def producerMoves (k : Nat) : List Move := List.replicate k .producer

def consumerMoves (k : Nat) : List Move := List.replicate k .consumer

/-- The consumer waits for each of two items. -/
theorem never_stranded_two :
    ∃ s, Meets (step 2) Careful start (consumerMoves 3 ++ producerMoves 6 ++ consumerMoves 9 ++
        producerMoves 10 ++ consumerMoves 6) ∧
      run (step 2) start (consumerMoves 3 ++ producerMoves 6 ++ consumerMoves 9 ++
        producerMoves 10 ++ consumerMoves 6) = some s ∧ s.countPop = 2 ∧ ¬ Stranded s := by
  have h : (run (step 2) start (consumerMoves 3 ++ producerMoves 6 ++ consumerMoves 9 ++
      producerMoves 10 ++ consumerMoves 6)).any (fun s => s.countPop = 2) = true := by
    decide +kernel
  obtain ⟨s, hrun, hs⟩ := (Option.any_eq_true _ _).mp h
  have hm : Meets (step 2) Careful start (consumerMoves 3 ++ producerMoves 6 ++ consumerMoves 9 ++
      producerMoves 10 ++ consumerMoves 6) := by
    decide +kernel
  exact ⟨s, hm, hrun, of_decide_eq_true hs, never_stranded 2 _ s hm hrun⟩

/-- Between the read that finds nothing and the wait, one item is written and both
notifications are sent. -/
theorem stranded :
    ∃ s, run (step 1) start (consumerMoves 1 ++ producerMoves 10 ++ consumerMoves 2) = some s ∧
      Stranded s := by
  have h : (run (step 1) start (consumerMoves 1 ++ producerMoves 10 ++ consumerMoves 2)).any
      (fun s => Stranded s) = true := by
    decide +kernel
  obtain ⟨s, hrun, hs⟩ := (Option.any_eq_true _ _).mp h
  exact ⟨s, hrun, of_decide_eq_true hs⟩

end CppTrack.BlockingPipe
