import CppTrack.Coroutine.ScheduleProof

/-!
# The bit of the sleepers

Whether a coroutine sleeps is written down twice, as a bit of its status word and as its place in
the sleeping tree, and the routines that change one do not all change the other:
`nty_schedule_desched_wait` empties the word before it asks it whether there is something to take
out of the tree, `nty_schedule_expired` takes a coroutine out and leaves its bit, and
`nty_schedule_sched_sleepdown` takes out whatever it finds under the old key.

Two of these come to light only later, at a yield, and not at every one: a coroutine that sets a
timer again is in the tree with its bit, whatever was before. So `Since` records beside a run what
has happened since the coroutine was resumed, and `Timely` says of a step, by what was recorded,
that it leaves nobody with a bit and no place or with a place and no bit.
-/

namespace CppTrack.NtyCo

open Lib State

namespace State

/-- The coroutine is there and its status word has the bit. -/
def has (s : State) (c : Nat) (x : Status) : Bool := (s.cos c).any fun co => co.status x

/-- The coroutine stands at the yield of a wait. -/
def standsAtWait (s : State) (c : Nat) : Bool := (s.cos c).any fun co => co.waits.isSome

/-- Who is in the sleeping tree has the bit, and the other way round. -/
def Mirrors (s : State) : Prop := ∀ c, c ∈ s.sleeping ↔ s.has c .sleeping = true

/-- Whom a step resumes that is not for a timer. -/
def wakes (s : State) : Label → Option Nat
  | .ready => s.ready.head?
  | .event =>
      match s.phase with
      | .events ((fd, _) :: _) => s.findWaiting fd
      | _ => none
  | _ => none

/-- Under the key that the running coroutine had last there is another's timer. -/
def takesOther (s : State) : Bool :=
  s.curr.any fun c => (s.findSleeping (s.sleepUsecs c)).any fun d => d ≠ c

end State

/-- The bit and the tree agree at the yield, and one that comes back from a wait by
`nty_schedule_desched_wait` is in neither tree. -/
def MirrorRight (s : State) (l : Label) : Prop :=
  (∀ c, s.curr = some c → ∀ s₁, s.yieldAt c l = some s₁ → s₁.Mirrors) ∧
  ∀ s' c, step s l = some s' → s.curr = none → s'.curr = some c → s.standsAtWait c →
    c ∉ s'.waiting ∧ c ∉ s'.sleeping

/-- What has happened since the coroutine that runs was resumed. -/
structure Since where
  /-- It was resumed by its timer, not from a wait, and has not set another. -/
  late : Bool := false
  /-- It took out another's timer. -/
  lost : Bool := false

namespace Since

def after (s : State) (l : Label) (g : Since) : Since :=
  match l with
  | .create => g
  | .expire _ => { late := s.minSleeping.any fun c => !s.standsAtWait c }
  | .sleep msecs _ => if msecs = 0 then {} else { lost := g.lost || s.takesOther }
  | _ => {}

def Nothing (g : Since) : Prop := g.late = false ∧ g.lost = false

end Since

/-- The condition on a step, and on what was recorded before it. -/
def Timely (r : State × Since) : Label → Prop
  | .sleep msecs _ => msecs = 0 → r.2.Nothing
  | .finish => r.2.Nothing
  | .wait _ _ 0 _ =>
      r.2.Nothing ∧ ∀ c, r.1.curr = some c → r.1.findSleeping (r.1.sleepUsecs c) = none
  | .wait _ _ 1 _ => r.2.Nothing
  | .wait _ _ _ _ => r.2.lost = false ∧ r.1.takesOther = false
  | l => ∀ c, r.1.wakes l = some c → r.1.standsAtWait c → c ∉ r.1.sleeping

/-! ## What a run keeps -/

namespace State

/-- The bit is left of a timer that is gone. -/
def Astray (s : State) (c : Nat) : Prop := s.has c .sleeping = true ∧ c ∉ s.sleeping

end State

structure Mirrored (s : State) (g : Since) : Prop where
  marked : ∀ c ∈ s.sleeping, s.has c .sleeping = true
  late : ∀ c, s.curr = some c → (g.late = true ↔ s.Astray c)
  lost : g.lost = true ↔ ∃ c, s.curr ≠ some c ∧ s.Astray c
  idle : s.curr = none → g.lost = false
  fresh : ∀ c, s.has c .new = true → s.has c .sleeping = false ∧ s.curr ≠ some c

section

variable {s s' : State} {c d : Nat} {co : Co} {fd : Int} {g : Since}

theorem has_of_cos (h : s.cos c = some co) (x : Status) : s.has c x = co.status x := by
  rw [has, h]
  rfl

theorem has_set (s : State) (c : Nat) (co : Co) (d : Nat) (x : Status) :
    (s.set c co).has d x = if d = c then co.status x else s.has d x := by
  show Option.any _ (Function.update s.cos c (some co) d) = _
  rw [Function.update_apply]
  split
  · rfl
  · rfl

theorem sleepUsecs_of_cos (h : s.cos c = some co) : s.sleepUsecs c = co.sleepUsecs := by
  rw [State.sleepUsecs, h]
  rfl

/-- The bit and the tree agree if nobody in the tree lacks it and nobody has it left. -/
theorem mirrors_iff_astray (hmark : ∀ c ∈ s.sleeping, s.has c .sleeping = true) :
    s.Mirrors ↔ ∀ c, ¬ s.Astray c := by
  constructor
  · intro h c hc
    exact hc.2 ((h c).mpr hc.1)
  · intro h c
    refine ⟨hmark c, fun hc => ?_⟩
    by_contra hnot
    exact h c ⟨hc, hnot⟩

/-- What was recorded says whether they agree, while a coroutine runs. -/
theorem Mirrored.mirrors_iff (h : Mirrored s g) (hcurr : s.curr = some c) :
    s.Mirrors ↔ g.Nothing := by
  rw [mirrors_iff_astray h.marked]
  constructor
  · intro hno
    refine ⟨?_, ?_⟩
    · exact Bool.eq_false_iff.mpr fun hlate => hno c ((h.late c hcurr).mp hlate)
    · refine Bool.eq_false_iff.mpr fun hlost => ?_
      obtain ⟨d, -, hd⟩ := h.lost.mp hlost
      exact hno d hd
  · rintro ⟨hlate, hlost⟩ d hd
    by_cases hdc : d = c
    · subst hdc
      exact absurd ((h.late d hcurr).mpr hd) (Bool.eq_false_iff.mp hlate)
    · refine absurd (h.lost.mpr ⟨d, fun heq => hdc ?_, hd⟩) (Bool.eq_false_iff.mp hlost)
      exact Option.some.inj (heq.symm.trans hcurr)

/-- They agree when none runs. -/
theorem Mirrored.mirrors (h : Mirrored s g) (hidle : s.curr = none) : s.Mirrors := by
  rw [mirrors_iff_astray h.marked]
  intro d hd
  refine absurd (h.lost.mpr ⟨d, ?_, hd⟩) (Bool.eq_false_iff.mp (h.idle hidle))
  rw [hidle]
  exact nofun

/-- Nothing of it has changed. -/
theorem Mirrored.congr (h : Mirrored s g) (hsleeping : s'.sleeping = s.sleeping)
    (hcurr : s'.curr = s.curr) (hsleep : ∀ d, s'.has d .sleeping = s.has d .sleeping)
    (hnew : ∀ d, s'.has d .new = s.has d .new) : Mirrored s' g := by
  have hastray : ∀ d, s'.Astray d ↔ s.Astray d := by
    intro d
    rw [Astray, Astray, hsleep, hsleeping]
  refine ⟨fun d hd => ?_, fun d hd => ?_, ?_, fun hd => ?_, fun d hd => ?_⟩
  · rw [hsleep]
    exact h.marked d (hsleeping ▸ hd)
  · rw [hastray]
    exact h.late d (hcurr ▸ hd)
  · simp only [hcurr, hastray]
    exact h.lost
  · exact h.idle (hcurr ▸ hd)
  · rw [hsleep, hcurr]
    exact h.fresh d (hnew d ▸ hd)

/-! ## Setting a timer -/

theorem mem_removeFound (s : State) (usecs d : Nat) :
    d ∈ (s.removeFound usecs).sleeping ↔ d ∈ s.sleeping ∧ s.findSleeping usecs ≠ some d := by
  rw [removeFound]
  split
  · rename_i tmp hfind
    show d ∈ s.sleeping.filter _ ↔ _
    rw [List.mem_filter, hfind]
    refine and_congr_right fun _ => ?_
    rw [decide_eq_true_iff, ne_comm, ne_eq, ne_eq, Option.some.injEq]
  · rename_i hfind
    rw [hfind]
    exact ⟨fun hd => ⟨hd, (Option.some_ne_none _).symm⟩, fun hd => hd.1⟩

/-- Who is found is in the tree. -/
theorem mem_of_findSleeping {usecs : Nat} (h : s.findSleeping usecs = some d) :
    d ∈ s.sleeping :=
  List.mem_of_find?_eq_some h

theorem sleepdown_zero {now : Nat} (h : s.schedSleepdown c co 0 now = some s') :
    s'.curr = s.curr ∧ (∀ d x, s'.has d x = if d = c then co.status x else s.has d x) ∧
      ∀ d, d ∈ s'.sleeping ↔ d ∈ s.sleeping ∧ s.findSleeping co.sleepUsecs ≠ some d := by
  obtain ⟨sleeping, heq, -⟩ := removeFound_eq s co.sleepUsecs
  have hmem := mem_removeFound s co.sleepUsecs
  rw [schedSleepdown, if_pos rfl] at h
  rw [heq] at h hmem
  obtain rfl := Option.some.inj h
  exact ⟨rfl, fun d x => has_set s c _ d x, hmem⟩

theorem sleepdown_pos {msecs now : Nat} (hpos : msecs ≠ 0)
    (h : s.schedSleepdown c co msecs now = some s') :
    s'.curr = s.curr ∧
      (∀ d x, s'.has d x = if d = c then co.status.set .sleeping x else s.has d x) ∧
      ∀ d, d ∈ s'.sleeping ↔
        d = c ∨ d ∈ s.sleeping ∧ s.findSleeping co.sleepUsecs ≠ some d := by
  obtain ⟨sleeping, heq, -⟩ := removeFound_eq s co.sleepUsecs
  have hmem := mem_removeFound s co.sleepUsecs
  rw [schedSleepdown, if_neg hpos] at h
  rw [heq] at h hmem
  obtain ⟨usecs, -, rfl⟩ := Option.map_eq_some_iff.mp h
  refine ⟨rfl, fun d x => has_set s c _ d x, fun d => ?_⟩
  exact List.mem_cons.trans (or_congr_right (hmem d))

/-- Another's timer is taken out. -/
theorem takesOther_iff (hcurr : s.curr = some c) :
    s.takesOther = true ↔ ∃ d, d ≠ c ∧ s.findSleeping (s.sleepUsecs c) = some d := by
  rw [takesOther, hcurr, Option.any_some]
  cases s.findSleeping (s.sleepUsecs c) with
  | none => simp
  | some d => simp

/-- A coroutine with a timer is in order. Whose timer it took out is not. -/
theorem Mirrored.timer {msecs now : Nat} (h : Mirrored s g) (hcurr : s.curr = some c)
    (hco : s.cos c = some co) (hpos : msecs ≠ 0)
    (hstep : s.schedSleepdown c co msecs now = some s') :
    Mirrored s' { lost := g.lost || s.takesOther } := by
  obtain ⟨hcurr', hhas, hmem⟩ := sleepdown_pos hpos hstep
  rw [← sleepUsecs_of_cos hco] at hmem
  have hself : s'.has c .sleeping = true := by
    rw [hhas, if_pos rfl]
    rfl
  have hother : ∀ d, d ≠ c →
      (s'.Astray d ↔ s.Astray d ∨ s.findSleeping (s.sleepUsecs c) = some d) := by
    intro d hd
    rw [Astray, Astray, hhas, if_neg hd, hmem, or_iff_right hd]
    constructor
    · rintro ⟨hbit, hnot⟩
      by_cases hin : d ∈ s.sleeping
      · exact .inr (not_not.mp fun hne => hnot ⟨hin, hne⟩)
      · exact .inl ⟨hbit, hin⟩
    · rintro (⟨hbit, hnot⟩ | hfind)
      · exact ⟨hbit, fun hin => hnot hin.1⟩
      · exact ⟨h.marked d (mem_of_findSleeping hfind), fun hin => hin.2 hfind⟩
  refine ⟨fun d hd => ?_, fun d hd => ?_, ?_, fun hd => ?_, fun d hd => ?_⟩
  · by_cases hdc : d = c
    · exact hdc ▸ hself
    · rw [hhas, if_neg hdc]
      exact h.marked d (((hmem d).mp hd).resolve_left hdc).1
  · obtain rfl := Option.some.inj (hcurr.symm.trans (hcurr'.symm.trans hd))
    exact iff_of_false Bool.false_ne_true fun hastray => hastray.2 ((hmem c).mpr (.inl rfl))
  · show (g.lost || s.takesOther) = true ↔ _
    rw [Bool.or_eq_true, h.lost, takesOther_iff hcurr, ← exists_or, hcurr', hcurr]
    refine exists_congr fun d => ?_
    rw [ne_eq, Option.some.injEq, eq_comm (a := c), ← and_or_left]
    exact and_congr_right fun hd => (hother d hd).symm
  · exact absurd (hcurr.symm.trans (hcurr'.symm.trans hd)) nofun
  · have hdc : d ≠ c := by
      rintro rfl
      rw [hhas, if_pos rfl] at hd
      exact (h.fresh d ((has_of_cos hco .new).trans hd)).2 hcurr
    rw [hhas, if_neg hdc] at hd ⊢
    exact hcurr' ▸ h.fresh d hd

/-- Without a time a timer is only taken out. -/
theorem Mirrored.timer_zero {now : Nat} (h : Mirrored s g) (hcurr : s.curr = some c)
    (hco : s.cos c = some co) (hstep : s.schedSleepdown c co 0 now = some s') :
    s'.Mirrors ↔ g.Nothing ∧ s.findSleeping (s.sleepUsecs c) = none := by
  obtain ⟨-, hhas, hmem⟩ := sleepdown_zero hstep
  rw [← sleepUsecs_of_cos hco] at hmem
  have hsame : ∀ d, s'.has d .sleeping = s.has d .sleeping := by
    intro d
    rw [hhas]
    split
    · rename_i hd
      exact hd ▸ (has_of_cos hco .sleeping).symm
    · rfl
  rw [← h.mirrors_iff hcurr]
  constructor
  · intro hm
    have hnone : s.findSleeping (s.sleepUsecs c) = none := by
      rw [Option.eq_none_iff_forall_ne_some]
      intro d hfind
      have hbit := h.marked d (mem_of_findSleeping hfind)
      exact ((hmem d).mp ((hm d).mpr ((hsame d).trans hbit))).2 hfind
    refine ⟨fun d => ?_, hnone⟩
    rw [← hsame, ← hm d, hmem, hnone]
    exact (and_iff_left nofun).symm
  · rintro ⟨hm, hnone⟩ d
    rw [hmem, hsame, hnone, ← hm d]
    exact and_iff_left nofun

/-! ## Yields -/

/-- After a yield at which they agree nothing is left to remember. -/
theorem Mirrors.yielded (hm : s.Mirrors)
    (hnew : ∀ d, s.has d .new = true → s.has d .sleeping = false)
    (hlinked : (s.coroutineResumed c).Linked) : Mirrored (s.coroutineResumed c) {} := by
  have hcurr : (s.coroutineResumed c).curr = none := by
    rw [coroutineResumed]
    split
    · rfl
    · rfl
  have hsleeping : (s.coroutineResumed c).sleeping = s.sleeping := by
    rw [coroutineResumed]
    split
    · rfl
    · rfl
  -- who is left is as it was
  have hleft : ∀ d x, ((s.coroutineResumed c).cos d).isSome = true →
      (s.coroutineResumed c).has d x = s.has d x := by
    intro d x
    rw [coroutineResumed]
    split
    · show (Function.update s.cos c none d).isSome = true →
        Option.any _ (Function.update s.cos c none d) = _
      rw [Function.update_apply]
      split
      · exact fun hd => absurd hd Bool.false_ne_true
      · exact fun _ => rfl
    · exact fun _ => rfl
  have hsome : ∀ d x, (s.coroutineResumed c).has d x = true →
      ((s.coroutineResumed c).cos d).isSome = true := by
    intro d x hd
    obtain ⟨co, hco, -⟩ := (Option.any_eq_true _ _).mp hd
    exact Option.isSome_of_eq_some hco
  have hno : ∀ d, ¬ (s.coroutineResumed c).Astray d := by
    rintro d ⟨hbit, hnot⟩
    rw [hleft d _ (hsome d _ hbit)] at hbit
    exact hnot (hsleeping ▸ (hm d).mpr hbit)
  refine ⟨fun d hd => ?_, fun d hd => ?_, ?_, fun _ => rfl, fun d hd => ⟨?_, ?_⟩⟩
  · have hin : d ∈ (s.coroutineResumed c).ready ++ (s.coroutineResumed c).sleeping ++
        (s.coroutineResumed c).waiting := List.mem_append_left _ (List.mem_append_right _ hd)
    rw [hleft d _ (hlinked d hin)]
    exact (hm d).mp (hsleeping ▸ hd)
  · rw [hcurr] at hd
    exact absurd hd (Option.some_ne_none _).symm
  · refine iff_of_false Bool.false_ne_true ?_
    rintro ⟨d, -, hd⟩
    exact hno d hd
  · have hlive := hsome d _ hd
    rw [hleft d _ hlive] at hd ⊢
    exact hnew d hd
  · rw [hcurr]
    exact (Option.some_ne_none _).symm

/-- A wait, up to its yield: whether they agree there. -/
theorem Mirrored.wait {events timeout now : Nat} (h : Mirrored s g) (hcurr : s.curr = some c)
    (hco : s.cos c = some co)
    (hyield : s.schedWait c { co with waits := some fd } fd events timeout now = some s') :
    s'.Mirrors ↔ Timely (s, g) (.wait fd events timeout now) := by
  obtain ⟨status, hsame, -, hcases⟩ := schedWait_cases hyield
  -- the status word has another bit now, that is not one of the two
  let co' : Co := { co with waits := some fd, status := status, fd := fd }
  let t : State := { s.set c co' with waiting := c :: s.waiting }
  have hhas : ∀ d x, x ≠ .waitRead → t.has d x = s.has d x := by
    intro d x hx
    show (s.set c co').has d x = _
    rw [has_set]
    split
    · rename_i hd
      rw [hd, has_of_cos hco]
      exact hsame x hx
    · rfl
  have ht : Mirrored t g :=
    h.congr rfl rfl (fun d => hhas d _ nofun) (fun d => hhas d _ nofun)
  have hcot : t.cos c = some co' := Function.update_self _ _ _
  have hkey : t.sleepUsecs = s.sleepUsecs := by
    funext d
    show Option.getD (Option.map _ (Function.update s.cos c _ d)) 0 = _
    rw [Function.update_apply]
    split
    · rename_i hd
      rw [hd, sleepUsecs_of_cos hco]
      rfl
    · rfl
  have hfind : ∀ usecs, t.findSleeping usecs = s.findSleeping usecs := by
    intro usecs
    rw [findSleeping, findSleeping, hkey]
    rfl
  match timeout, hcases with
  | 0, .inr ⟨_, hstep⟩ =>
      rw [ht.timer_zero hcurr hcot hstep, hfind, hkey]
      refine and_congr_right fun _ => ⟨fun hnone d hd => ?_, fun hnone => hnone c hcurr⟩
      obtain rfl := Option.some.inj (hcurr.symm.trans hd)
      exact hnone
  | 1, .inl ⟨_, heq⟩ =>
      rw [heq]
      exact ht.mirrors_iff hcurr
  | 1, .inr ⟨hne, _⟩ => exact absurd rfl hne
  | n + 2, .inr ⟨_, hstep⟩ =>
      have hcurr' : s'.curr = some c := (sleepdown_pos (Nat.succ_ne_zero _) hstep).1.trans hcurr
      have htakes : t.takesOther = s.takesOther := by
        rw [takesOther, takesOther, hkey]
        simp only [hfind]
        rfl
      rw [(ht.timer hcurr hcot (Nat.succ_ne_zero _) hstep).mirrors_iff hcurr', htakes]
      show false = false ∧ (g.lost || s.takesOther) = false ↔ g.lost = false ∧ s.takesOther = false
      rw [Bool.or_eq_false_iff]
      exact and_iff_right rfl

/-- The last words of a coroutine are about other bits. -/
theorem finish_has (hco : s.cos c = some co) (hyield : s.yieldAt c .finish = some s') {x : Status}
    (hx : d ≠ c ∨ x = .new ∨ x = .sleeping) : s'.has d x = s.has d x := by
  rw [yieldAt, hco] at hyield
  obtain rfl := Option.some.inj hyield
  rw [has_set]
  split
  · rename_i hd
    rw [hd, has_of_cos hco]
    rcases hx.resolve_left (not_not.mpr hd) with rfl | rfl <;> rfl
  · rfl

/-- A call up to its yield does not touch the others, and makes nobody new. -/
theorem yieldAt_has {l : Label} (hco : s.cos c = some co) (hyield : s.yieldAt c l = some s')
    {x : Status} (hx : d ≠ c ∨ x = .new) : s'.has d x = s.has d x := by
  cases l with
  | sleep msecs now =>
      obtain ⟨-, heq⟩ := Option.ite_none_right_eq_some.mp hyield
      obtain rfl := Option.some.inj heq
      rfl
  | wait fd events timeout now =>
      rw [yieldAt, hco] at hyield
      obtain ⟨usecs, status, sleeping, rfl, -, hsame, -⟩ := schedWait_spec hyield
      show (s.set c _).has d x = _
      rw [has_set]
      split
      · rename_i hd
        obtain rfl := hx.resolve_left (not_not.mpr hd)
        rw [hd, has_of_cos hco]
        exact hsame .new (by simp) (by simp)
      · rfl
  | finish => exact finish_has hco hyield (hx.imp_right Or.inl)
  | create => exact absurd hyield (Option.some_ne_none _).symm
  | start => exact absurd hyield (Option.some_ne_none _).symm
  | expire now => exact absurd hyield (Option.some_ne_none _).symm
  | ready => exact absurd hyield (Option.some_ne_none _).symm
  | epoll now evs => exact absurd hyield (Option.some_ne_none _).symm
  | event => exact absurd hyield (Option.some_ne_none _).symm

/-- At a yield the bit and the tree agree where the condition is met, and only there. -/
theorem Mirrored.yield_iff {l : Label} (h : Mirrored s g) (hcurr : s.curr = some c)
    (hco : s.cos c = some co) (hyield : s.yieldAt c l = some s') :
    s'.Mirrors ↔ Timely (s, g) l := by
  cases l with
  | sleep msecs now =>
      obtain ⟨⟨hzero, -⟩, heq⟩ := Option.ite_none_right_eq_some.mp hyield
      obtain rfl := Option.some.inj heq
      exact (h.mirrors_iff hcurr).trans ⟨fun hno _ => hno, fun hno => hno hzero⟩
  | wait fd events timeout now =>
      rw [yieldAt, hco] at hyield
      exact h.wait hcurr hco hyield
  | finish =>
      have hhas : ∀ d, s'.has d .sleeping = s.has d .sleeping := fun d =>
        finish_has hco hyield (.inr (.inr rfl))
      rw [yieldAt, hco] at hyield
      obtain rfl := Option.some.inj hyield
      refine Iff.trans ?_ (h.mirrors_iff hcurr)
      exact forall_congr' fun d => by rw [hhas]; rfl
  | create => exact absurd hyield (Option.some_ne_none _).symm
  | start => exact absurd hyield (Option.some_ne_none _).symm
  | expire now => exact absurd hyield (Option.some_ne_none _).symm
  | ready => exact absurd hyield (Option.some_ne_none _).symm
  | epoll now evs => exact absurd hyield (Option.some_ne_none _).symm
  | event => exact absurd hyield (Option.some_ne_none _).symm

/-! ## Resuming -/

/-- What `nty_coroutine_resume` leaves, after `nty_schedule_desched_wait` where it waited. -/
theorem resume_spec (h : Wired s) (hresume : s.coroutineResume c = some s') :
    s'.curr = some c ∧ s'.sleeping = s.sleeping ∧
      (∀ d, d ≠ c → ∀ x, s'.has d x = s.has d x) ∧ s'.has c .new = false ∧
      (s.standsAtWait c = true → (∀ x, s'.has c x = false) ∧ c ∉ s'.waiting) ∧
      (s.standsAtWait c = false → (s.has c .new = true → s'.has c .sleeping = false) ∧
        (s.has c .new = false → s'.has c .sleeping = s.has c .sleeping)) := by
  obtain ⟨co, hco, -⟩ := Option.bind_eq_some_iff.mp hresume
  have hstands : s.standsAtWait c = co.waits.isSome := by
    rw [standsAtWait, hco]
    rfl
  rw [hstands]
  cases hw : co.waits with
  | none =>
      rw [resume_idle hco hw] at hresume
      obtain rfl := Option.some.inj hresume
      have hhas : ∀ d x, ({ s.set c (coroutineInit co) with curr := some c } : State).has d x =
          if d = c then (coroutineInit co).status x else s.has d x := has_set s c _
      refine ⟨rfl, rfl, fun d hd x => ?_, ?_, fun hwait => absurd hwait Bool.false_ne_true,
        fun _ => ⟨fun hnew => ?_, fun hnew => ?_⟩⟩
      · rw [hhas, if_neg hd]
      · rw [hhas, if_pos rfl, coroutineInit]
        split
        · rfl
        · rename_i hnot
          exact Bool.eq_false_iff.mpr hnot
      · rw [has_of_cos hco] at hnew
        rw [hhas, if_pos rfl, coroutineInit, if_pos hnew]
        rfl
      · rw [has_of_cos hco] at hnew
        rw [hhas, if_pos rfl, coroutineInit, if_neg (Bool.eq_false_iff.mp hnew), has_of_cos hco]
  | some fd =>
      rw [resume_waiting h hco hw] at hresume
      obtain rfl := Option.some.inj hresume
      have hhas : ∀ d x, (woken s c co).has d x =
          if d = c then false else s.has d x :=
        has_set s c { co with status := .zero, waits := none }
      refine ⟨rfl, rfl, fun d hd x => ?_, ?_, fun _ => ⟨fun x => ?_, fun hin => ?_⟩,
        fun hwait => absurd hwait Bool.false_ne_true.symm⟩
      · rw [hhas, if_neg hd]
      · rw [hhas, if_pos rfl]
      · rw [hhas, if_pos rfl]
      · exact of_decide_eq_true (List.mem_filter.mp hin).2 rfl

/-- One coroutine is resumed, the others are as they were. -/
theorem Mirrored.woken {late : Bool} (h : Mirrored s g) (hidle : s.curr = none)
    (hcurr : s'.curr = some c) (hsleeping : ∀ d, d ≠ c → (d ∈ s'.sleeping ↔ d ∈ s.sleeping))
    (hhas : ∀ d, d ≠ c → ∀ x, s'.has d x = s.has d x) (hnew : s'.has c .new = false)
    (hmark : c ∈ s'.sleeping → s'.has c .sleeping = true)
    (hlate : late = true ↔ s'.Astray c) : Mirrored s' { late := late } := by
  have hm := (mirrors_iff_astray h.marked).mp (h.mirrors hidle)
  refine ⟨fun d hd => ?_, fun d hd => ?_, ?_, fun hd => ?_, fun d hd => ?_⟩
  · by_cases hdc : d = c
    · exact hdc ▸ hmark (hdc ▸ hd)
    · rw [hhas d hdc]
      exact h.marked d ((hsleeping d hdc).mp hd)
  · obtain rfl := Option.some.inj (hcurr.symm.trans hd)
    exact hlate
  · refine iff_of_false Bool.false_ne_true ?_
    rintro ⟨d, hd, hbit, hnot⟩
    have hdc : d ≠ c := fun heq => hd (heq ▸ hcurr)
    rw [hhas d hdc] at hbit
    exact hm d ⟨hbit, fun hin => hnot ((hsleeping d hdc).mpr hin)⟩
  · exact absurd (hcurr.symm.trans hd) nofun
  · have hdc : d ≠ c := by
      rintro rfl
      exact absurd (hd.symm.trans hnew) nofun
    rw [hhas d hdc] at hd ⊢
    exact ⟨(h.fresh d hd).1, fun heq => hdc (Option.some.inj (heq.symm.trans hcurr))⟩

/-- One that is resumed from the queue or for a descriptor has to be out of the sleeping tree if it
waited: its word is empty then, and it is not taken out. -/
theorem Mirrored.fetched {t : State} (h : Mirrored s g) (hidle : s.curr = none) (ht : Wired t)
    (hsleeping : t.sleeping = s.sleeping) (hother : ∀ d, d ≠ c → ∀ x, t.has d x = s.has d x)
    (hstands : t.standsAtWait c = s.standsAtWait c)
    (hself : s.standsAtWait c = false → ∀ x, t.has c x = s.has c x)
    (hresume : t.coroutineResume c = some s') :
    ((s.standsAtWait c = true → c ∉ s'.waiting ∧ c ∉ s'.sleeping) ↔
      (s.standsAtWait c = true → c ∉ s.sleeping)) ∧
    ((s.standsAtWait c = true → c ∉ s.sleeping) → Mirrored s' {}) := by
  obtain ⟨hcurr, hsl, hhas, hnew, hwaits, hruns⟩ := resume_spec ht hresume
  rw [hsleeping] at hsl
  rw [hstands] at hwaits hruns
  refine ⟨imp_congr_right fun hst => ?_, fun hout => ?_⟩
  · rw [hsl]
    exact and_iff_right (hwaits hst).2
  · have hagree : c ∈ s'.sleeping ↔ s'.has c .sleeping = true := by
      rw [hsl]
      cases hst : s.standsAtWait c with
      | true =>
          rw [(hwaits hst).1]
          exact iff_of_false (hout hst) Bool.false_ne_true
      | false =>
          obtain ⟨hnew₁, hnew₀⟩ := hruns hst
          rw [hself hst] at hnew₁ hnew₀
          rw [h.mirrors hidle c]
          cases hn : s.has c .new with
          | true => rw [hnew₁ hn, (h.fresh c hn).1]
          | false => rw [hnew₀ hn, hself hst]
    refine h.woken hidle hcurr (fun d _ => hsl ▸ Iff.rfl)
      (fun d hd x => (hhas d hd x).trans (hother d hd x)) hnew hagree.mp ?_
    exact iff_of_false Bool.false_ne_true fun hastray => hastray.2 (hagree.mpr hastray.1)

/-- For the one that is woken, the condition is about that one. -/
theorem forall_woken_iff {l : Label} (hwho : s.wakes l = some c) :
    (∀ d, s.wakes l = some d → s.standsAtWait d = true → d ∉ s.sleeping) ↔
      (s.standsAtWait c = true → c ∉ s.sleeping) := by
  refine ⟨fun hall => hall c hwho, fun hall d hd => ?_⟩
  obtain rfl := Option.some.inj (hwho.symm.trans hd)
  exact hall

theorem Wakes.mirror {l : Label} {t : State} (hwakes : Wakes s l c t) (h : Mirrored s g)
    (hw : Wired s) (hclean : Clean s) (hidle : s.curr = none)
    (hresume : t.coroutineResume c = some s') :
    ((s.standsAtWait c = true → c ∉ s'.waiting ∧ c ∉ s'.sleeping) ↔ Timely (s, g) l) ∧
      (Timely (s, g) l → Mirrored s' (g.after s l)) := by
  obtain ⟨ht, -⟩ := hwakes.wired hw hclean
  cases hwakes with
  | expire now c hmin hle =>
      have hin : c ∈ s.sleeping := List.argmin_mem hmin
      obtain ⟨hcurr, hsl, hhas, hnew, hwaits, hruns⟩ := resume_spec ht hresume
      have hout : c ∉ s'.sleeping := by
        rw [hsl]
        exact fun hc => of_decide_eq_true (List.mem_filter.mp hc).2 rfl
      have hsleeping : ∀ d, d ≠ c → (d ∈ s'.sleeping ↔ d ∈ s.sleeping) := by
        intro d hd
        rw [hsl]
        show d ∈ s.sleeping.filter _ ↔ _
        rw [List.mem_filter]
        exact and_iff_left (decide_eq_true hd)
      refine ⟨iff_of_true (fun hst => ⟨(hwaits hst).2, hout⟩) nofun, fun _ => ?_⟩
      have hafter : g.after s (.expire now) = { late := !s.standsAtWait c } := by
        rw [Since.after, hmin]
        rfl
      rw [hafter]
      refine h.woken hidle hcurr hsleeping hhas hnew (fun hc => absurd hc hout) ?_
      -- its bit is still there, but for the wait
      show (!s.standsAtWait c) = true ↔ s'.has c .sleeping = true ∧ c ∉ s'.sleeping
      rw [and_iff_left hout]
      cases hst : s.standsAtWait c with
      | true => rw [(hwaits hst).1]; rfl
      | false =>
          have hbit := h.marked c hin
          have hold : s.has c .new = false := by
            refine Bool.eq_false_iff.mpr fun hn => ?_
            exact absurd ((h.fresh c hn).1.symm.trans hbit) nofun
          rw [(hruns hst).2 hold]
          exact iff_of_true rfl hbit
  | ready phase c rest hready =>
      have htimely : Timely (s, g) .ready ↔ (s.standsAtWait c = true → c ∉ s.sleeping) := by
        refine forall_woken_iff ?_
        rw [wakes, hready]
        rfl
      rw [htimely]
      exact h.fetched hidle ht rfl (fun _ _ _ => rfl) rfl (fun _ _ => rfl) hresume
  | event fd isEof evs c co status hphase hfind hco =>
      have htimely : Timely (s, g) .event ↔ (s.standsAtWait c = true → c ∉ s.sleeping) := by
        refine forall_woken_iff ?_
        rw [wakes, hphase]
        exact hfind
      rw [htimely]
      -- it waits, so what was left of its word does not matter
      obtain ⟨fd', hwire⟩ := hw.waiter c (List.mem_of_find?_eq_some hfind)
      have hwaits : co.waits = some fd' :=
        (Prod.mk.inj (Option.some.inj ((wire_of_cos hco).symm.trans hwire))).2
      have hst : s.standsAtWait c = true := by
        rw [standsAtWait, hco, Option.any_some, hwaits]
        rfl
      refine h.fetched hidle ht rfl (fun d hd x => ?_) ?_ (fun hno => ?_) hresume
      · exact (has_set s c _ d x).trans (if_neg hd)
      · rw [hst]
        show Option.any _ (Function.update s.cos c _ c) = true
        rw [Function.update_self, Option.any_some, hwaits]
        rfl
      · exact absurd (hst.symm.trans hno) nofun

/-! ## Steps -/

theorem Mirrored.create (h : Mirrored s g) (hw : Wired s) : Mirrored s.coroutineCreate g := by
  have hhas : ∀ d x, s.coroutineCreate.has d x =
      if d = s.spawned then StatusWord.zero.set .new x else s.has d x := has_set s s.spawned _
  have hnone : s.cos s.spawned = none := by
    rw [← Option.not_isSome_iff_eq_none, ← wire_isSome]
    exact fun hc => Nat.lt_irrefl _ (hw.named s.spawned hc)
  have hsleep : ∀ d, s.coroutineCreate.has d .sleeping = s.has d .sleeping := by
    intro d
    rw [hhas]
    split
    · rename_i hd
      rw [hd, has, hnone]
      rfl
    · rfl
  have hastray : ∀ d, s.coroutineCreate.Astray d ↔ s.Astray d := by
    intro d
    rw [Astray, Astray, hsleep]
    rfl
  refine ⟨fun d hd => ?_, fun d hd => ?_, ?_, h.idle, fun d hd => ?_⟩
  · rw [hsleep]
    exact h.marked d hd
  · rw [hastray]
    exact h.late d hd
  · simp only [hastray]
    exact h.lost
  · by_cases hdc : d = s.spawned
    · subst hdc
      refine ⟨?_, fun hcurr => ?_⟩
      · rw [hhas, if_pos rfl]
        rfl
      · obtain ⟨fd, hwire⟩ := hw.curr s.spawned hcurr
        exact Nat.lt_irrefl _ (hw.named s.spawned (Option.isSome_of_eq_some hwire))
    · rw [hhas, if_neg hdc] at hd
      rw [hsleep]
      exact h.fresh d hd

/-- A call that yields. -/
theorem Mirrored.yield {l : Label} {s₁ : State} (h : Mirrored s g) (hcurr : s.curr = some c)
    (hco : s.cos c = some co) (hyield : s.yieldAt c l = some s₁) :
    ((∀ s₂, s.yieldAt c l = some s₂ → s₂.Mirrors) ↔ Timely (s, g) l) ∧
      (Timely (s, g) l → (s₁.coroutineResumed c).Linked →
        Mirrored (s₁.coroutineResumed c) {}) := by
  have hiff := h.yield_iff hcurr hco hyield
  refine ⟨⟨fun hall => hiff.mp (hall s₁ hyield), fun ht s₂ hs₂ => ?_⟩, fun ht hlinked => ?_⟩
  · exact Option.some.inj (hyield.symm.trans hs₂) ▸ hiff.mpr ht
  · refine Mirrors.yielded (hiff.mpr ht) (fun d hd => ?_) hlinked
    rw [yieldAt_has hco hyield (.inr rfl)] at hd
    obtain ⟨hsleep, hne⟩ := h.fresh d hd
    rw [yieldAt_has hco hyield (.inl fun hdc : d = c => hne (hdc ▸ hcurr))]
    exact hsleep

theorem running_mirror {l : Label} (h : Mirrored s g) (hw : Wired s) (hcurr : s.curr = some c)
    (hstep : s.running c l = some s') :
    ((∀ s₁, s.yieldAt c l = some s₁ → s₁.Mirrors) ↔ Timely (s, g) l) ∧
      (Timely (s, g) l → s'.Linked → Mirrored s' (g.after s l)) := by
  obtain ⟨fd, hwire⟩ := hw.curr c hcurr
  obtain ⟨co, hco, -⟩ := Option.map_eq_some_iff.mp hwire
  cases l with
  | create =>
      obtain rfl := Option.some.inj hstep
      refine ⟨iff_of_true (fun s₁ hs₁ => ?_) (fun c hc => ?_), fun _ _ => h.create hw⟩
      · exact absurd hs₁ (Option.some_ne_none _).symm
      · exact absurd hc (Option.some_ne_none _).symm
  | sleep msecs now =>
      rw [running] at hstep
      split at hstep
      · rename_i hzero
        obtain ⟨s₁, hyield, rfl⟩ := Option.map_eq_some_iff.mp hstep
        rw [Since.after, if_pos hzero]
        exact h.yield hcurr hco hyield
      · rename_i hpos
        rw [hco] at hstep
        rw [Since.after, if_neg hpos]
        refine ⟨iff_of_true (fun s₁ hs₁ => ?_) fun hzero => absurd hzero hpos, fun _ _ => ?_⟩
        · exact absurd (Option.ite_none_right_eq_some.mp hs₁).1.1 hpos
        · exact h.timer hcurr hco hpos hstep
  | wait fd events timeout now =>
      obtain ⟨s₁, hyield, rfl⟩ := Option.map_eq_some_iff.mp hstep
      exact h.yield hcurr hco hyield
  | finish =>
      obtain ⟨s₁, hyield, rfl⟩ := Option.map_eq_some_iff.mp hstep
      exact h.yield hcurr hco hyield
  | start => exact absurd hstep (Option.some_ne_none _).symm
  | expire now => exact absurd hstep (Option.some_ne_none _).symm
  | ready => exact absurd hstep (Option.some_ne_none _).symm
  | epoll now evs => exact absurd hstep (Option.some_ne_none _).symm
  | event => exact absurd hstep (Option.some_ne_none _).symm

/-- The scheduler makes no call of a coroutine. -/
theorem timely_scheduling {l : Label} {phase : Phase} (hstep : s.scheduling l phase = some s') :
    Timely (s, g) l ↔
      ∀ c, s.wakes l = some c → s.standsAtWait c = true → c ∉ s.sleeping := by
  cases l with
  | sleep msecs now => exact absurd hstep nofun
  | wait fd events timeout now => exact absurd hstep nofun
  | finish => exact absurd hstep nofun
  | create => exact Iff.rfl
  | start => exact Iff.rfl
  | expire now => exact Iff.rfl
  | ready => exact Iff.rfl
  | epoll now evs => exact Iff.rfl
  | event => exact Iff.rfl

theorem after_lost {l : Label} {phase : Phase} (hlost : g.lost = false)
    (hstep : s.scheduling l phase = some s') : (g.after s l).lost = false := by
  cases l with
  | sleep msecs now => exact absurd hstep nofun
  | create => exact hlost
  | start => rfl
  | expire now => rfl
  | ready => rfl
  | epoll now evs => rfl
  | event => rfl
  | wait fd events timeout now => rfl
  | finish => rfl

theorem scheduling_mirror {l : Label} (h : Mirrored s g) (hw : Wired s) (hclean : Clean s)
    (hidle : s.curr = none) (hstep : s.scheduling l s.phase = some s') :
    ((∀ c, s'.curr = some c → s.standsAtWait c = true → c ∉ s'.waiting ∧ c ∉ s'.sleeping) ↔
      Timely (s, g) l) ∧ (Timely (s, g) l → Mirrored s' (g.after s l)) := by
  rcases scheduling_cases hclean hstep with
    ⟨rfl, rfl⟩ | ⟨hready, hevent, phase, rfl⟩ | ⟨c, t, hwakes, hresume⟩
  · refine ⟨iff_of_true (fun c hc => ?_) nofun, fun _ => h.create hw⟩
    exact absurd (hidle.symm.trans hc) nofun
  · -- none is resumed
    have hnone : ∀ c, s.wakes l ≠ some c := by
      intro c hc
      cases l with
      | ready =>
          rw [wakes, hready rfl] at hc
          exact absurd hc nofun
      | event =>
          rw [wakes, hevent rfl] at hc
          exact absurd hc nofun
      | create => exact absurd hc nofun
      | start => exact absurd hc nofun
      | expire now => exact absurd hc nofun
      | epoll now evs => exact absurd hc nofun
      | sleep msecs now => exact absurd hc nofun
      | wait fd events timeout now => exact absurd hc nofun
      | finish => exact absurd hc nofun
    have hno := (mirrors_iff_astray h.marked).mp (h.mirrors hidle)
    have hlost := after_lost (h.idle hidle) hstep
    refine ⟨iff_of_true (fun c hc => ?_) ?_, fun _ => ⟨h.marked, fun c hc => ?_, ?_,
      fun _ => hlost, h.fresh⟩⟩
    · exact absurd (hidle.symm.trans hc) nofun
    · rw [timely_scheduling hstep]
      exact fun c hc => absurd hc (hnone c)
    · exact absurd (hidle.symm.trans hc) nofun
    · refine iff_of_false (Bool.eq_false_iff.mp hlost) ?_
      rintro ⟨c, -, hc⟩
      exact hno c hc
  · obtain ⟨hcurr, -⟩ := resume_spec (hwakes.wired hw hclean).1 hresume
    obtain ⟨hiff, hkeep⟩ := hwakes.mirror h hw hclean hidle hresume
    refine ⟨Iff.trans ⟨fun hall => hall c hcurr, fun hc d hd => ?_⟩ hiff, hkeep⟩
    obtain rfl := Option.some.inj (hcurr.symm.trans hd)
    exact hc

/-- What holds in a run: where a freed coroutine is linked it ends. -/
def Sound (r : State × Since) : Prop :=
  r.1.Linked → (Wired r.1 ∧ Clean r.1) ∧ Mirrored r.1 r.2

theorem mirror_step {l : Label} (h : Sound (s, g)) (hstep : step s l = some s') :
    (MirrorRight s l ↔ Timely (s, g) l) ∧
      (Timely (s, g) l → Sound (s', g.after s l)) := by
  obtain ⟨hl, hgo⟩ := Option.ite_none_right_eq_some.mp hstep
  obtain ⟨hinv, hm⟩ := h hl
  have hinv' : s'.Linked → Wired s' ∧ Clean s' :=
    fun hl' => step_inv hinv (linked_of_step hinv.1 hstep hl') hstep
  cases hcurr : s.curr with
  | some c =>
      rw [hcurr] at hgo
      obtain ⟨hiff, hkeep⟩ := running_mirror hm hinv.1 hcurr hgo
      refine ⟨Iff.trans ⟨fun hr => hr.1 c hcurr, fun hall => ⟨fun d hd => ?_, ?_⟩⟩ hiff,
        fun ht hl' => ⟨hinv' hl', hkeep ht hl'⟩⟩
      · obtain rfl := Option.some.inj (hcurr.symm.trans hd)
        exact hall
      · intro s₁ d _ hidle
        exact absurd (hcurr.symm.trans hidle) nofun
  | none =>
      rw [hcurr] at hgo
      obtain ⟨hiff, hkeep⟩ := scheduling_mirror hm hinv.1 hinv.2 hcurr hgo
      refine ⟨Iff.trans ⟨fun hr d hd => hr.2 s' d hstep hcurr hd, fun hall => ⟨?_, ?_⟩⟩ hiff,
        fun ht hl' => ⟨hinv' hl', hkeep ht⟩⟩
      · intro d hd
        exact absurd (hcurr.symm.trans hd) nofun
      · intro s₁ d hs₁ _ hd
        obtain rfl := Option.some.inj (hstep.symm.trans hs₁)
        exact hall d hd

end

/--
**The bit of the sleepers is right in a run**, at every yield and after every
`nty_schedule_desched_wait`, if and only if every step of it is timely.
-/
theorem mirror_iff (labels : List Label) {s : State} (hrun : run step init labels = some s) :
    Meets step MirrorRight init labels ↔
      Meets (recorded step fun s l g => Since.after s l g) Timely (init, {}) labels := by
  have hsound : Sound (init, {}) := by
    refine fun _ => ⟨init_inv, fun c hc => absurd hc List.not_mem_nil, nofun, ?_, fun _ => rfl,
      nofun⟩
    refine iff_of_false Bool.false_ne_true ?_
    rintro ⟨c, -, hc, -⟩
    exact absurd hc nofun
  have hiff : ∀ s g l s', Sound (s, g) → step s l = some s' →
      (MirrorRight s l ↔ Timely (s, g) l) :=
    fun s g l s' hs hstep => (mirror_step hs hstep).1
  have hinv : ∀ s g l s', Sound (s, g) → Timely (s, g) l → step s l = some s' →
      Sound (s', g.after s l) :=
    fun s g l s' hs hok hstep => (mirror_step hs hstep).2 hok
  exact meets_iff_recorded _ hiff hinv labels hsound hrun

/-- A coroutine waits and its time runs out. -/
theorem mirror_iff_timeout : ∃ s,
    run step init [.create, .start, .expire 0, .ready, .wait 3 1 10 0, .epoll 0 [], .event,
      .expire 20000, .finish] = some s ∧
    (Meets step MirrorRight init [.create, .start, .expire 0, .ready, .wait 3 1 10 0,
        .epoll 0 [], .event, .expire 20000, .finish] ↔
      Meets (recorded step fun s l g => Since.after s l g) Timely (init, {})
        [.create, .start, .expire 0, .ready, .wait 3 1 10 0, .epoll 0 [], .event,
          .expire 20000, .finish]) := by
  obtain ⟨s, hrun⟩ := Option.isSome_iff_exists.mp
    (show (run step init [.create, .start, .expire 0, .ready, .wait 3 1 10 0, .epoll 0 [], .event,
      .expire 20000, .finish]).isSome = true by decide)
  exact ⟨s, hrun, mirror_iff _ hrun⟩

/-- The descriptor is ready before the time is over: its timer stays where it is. -/
theorem mirror_ready : ¬ ∀ (labels : List Label) (s : State),
    run step init labels = some s → Meets step MirrorRight init labels := by
  intro h
  let pre : List Label :=
    [.create, .start, .expire 0, .ready, .wait 3 1 10 0, .epoll 0 [(3, false)]]
  obtain ⟨s, hrun, hs⟩ := (Option.any_eq_true _ _).mp
    (show (run step init pre).any (fun s => s.curr.isNone && s.standsAtWait 0 &&
      (step s .event).any fun s' => s'.curr == some 0 && s'.sleeping.contains 0) = true by decide)
  obtain ⟨s', hstep, hs'⟩ := (Option.any_eq_true _ _).mp (Bool.and_eq_true_iff.mp hs).2
  obtain ⟨hidle, hstands⟩ := Bool.and_eq_true_iff.mp (Bool.and_eq_true_iff.mp hs).1
  obtain ⟨hcurr, hin⟩ := Bool.and_eq_true_iff.mp hs'
  have hgo : run step init (pre ++ [.event]) = some s' := by
    rw [run_append, hrun]
    show (step s .event).bind some = _
    rw [hstep]
    rfl
  have hright := (meets_iff_split MirrorRight _ init).mp (h _ s' hgo) pre .event [] s rfl hrun
  have hout :=
    hright.2 s' 0 hstep (Option.isNone_iff_eq_none.mp hidle) (beq_iff_eq.mp hcurr) hstands
  exact hout.2 (List.contains_iff_mem.mp hin)

end CppTrack.NtyCo
