import CppTrack.Coroutine.Schedule
import CppTrack.Lib.Run

/-!
# Coroutines that are gone

A coroutine is freed when it returns, wherever it is linked then. What is proved here is when it is
linked nowhere. That it is not in the waiting tree follows from how the waits are made: a coroutine
is there while it stands at the yield of a wait and at no other time (`Wired`), and no coroutine is
freed by the second loop (`Clean`). The queue and the sleeping tree are another matter: there it is
for the program to see to it (`Unlinked`).

A step changes one coroutine and the places of that one. `Frame` says that of a step, `Stands` how
that one stands when the step is over, and `Wired.frame` puts them together for every step.
-/

namespace CppTrack.NtyCo

open Lib State

namespace State

/-- What the waiting tree has to do with: a coroutine's descriptor, and the one it waits for. -/
def wire (s : State) (c : Nat) : Option (Int × Option Int) :=
  (s.cos c).map fun co => (co.fd, co.waits)

end State

/-! ## Steps on one coroutine -/

structure Wired (s : State) : Prop where
  linked : s.Linked
  named : ∀ c, (s.wire c).isSome → c < s.spawned
  /-- Who is in the waiting tree stands at the yield of a wait for its descriptor. -/
  waiter : ∀ c ∈ s.waiting, ∃ fd, s.wire c = some (fd, some fd)
  waits : ∀ c fd fd', s.wire c = some (fd, some fd') → c ∈ s.waiting
  apart : ∀ c ∈ s.waiting, ∀ d ∈ s.waiting, s.wire c = s.wire d → c = d
  curr : ∀ c, s.curr = some c → ∃ fd, s.wire c = some (fd, none)

/-- Nothing has changed but the coroutine, and nobody has a new place but it. -/
structure Frame (s s' : State) (c : Nat) : Prop where
  wire : ∀ d, d ≠ c → s'.wire d = s.wire d
  spawned : s.spawned ≤ s'.spawned
  ready : ∀ d, d ≠ c → d ∈ s'.ready → d ∈ s.ready
  sleeping : ∀ d, d ≠ c → d ∈ s'.sleeping → d ∈ s.sleeping
  waiting : ∀ d, d ≠ c → (d ∈ s'.waiting ↔ d ∈ s.waiting)

/-- How a coroutine stands when a step on it is over. -/
inductive Stands (s : State) (c : Nat) : Prop where
  | idle (fd : Int) : s.wire c = some (fd, none) → c ∉ s.waiting → Stands s c
  | waits (fd : Int) : s.wire c = some (fd, some fd) → c ∈ s.waiting →
      (∀ d ∈ s.waiting, s.wire d = some (fd, some fd) → d = c) → Stands s c
  | freed : s.wire c = none → c ∉ s.ready → c ∉ s.sleeping → c ∉ s.waiting → Stands s c

section

variable {s s' : State} {c d : Nat} {co : Co} {fd : Int}

theorem wire_isSome : (s.wire c).isSome = (s.cos c).isSome := Option.isSome_map ..

theorem wire_set (s : State) (c : Nat) (co : Co) :
    (s.set c co).wire = Function.update s.wire c (some (co.fd, co.waits)) := by
  funext d
  show Option.map _ (Function.update s.cos c (some co) d) = _
  rw [Function.update_apply, Function.update_apply]
  split <;> rfl

theorem wire_self (s : State) (c : Nat) (co : Co) :
    (s.set c co).wire c = some (co.fd, co.waits) := by
  rw [wire_set, Function.update_self]

theorem wire_of_cos (h : s.cos c = some co) : s.wire c = some (co.fd, co.waits) := by
  rw [wire, h]
  rfl

theorem Frame.set (s : State) (c : Nat) (co : Co) : Frame s (s.set c co) c := by
  refine ⟨fun d hd => ?_, Nat.le_refl _, fun _ _ h => h, fun _ _ h => h, fun _ _ => Iff.rfl⟩
  rw [wire_set, Function.update_of_ne hd]

theorem Wired.live (h : Wired s) (hc : c ∈ s.ready ∨ c ∈ s.sleeping ∨ c ∈ s.waiting) :
    (s.wire c).isSome := by
  rw [wire_isSome]
  refine h.linked c ?_
  rw [List.mem_append, List.mem_append, or_assoc]
  exact hc

theorem Wired.frame (h : Wired s) (hf : Frame s s' c) (hc : Stands s' c) (hname : c < s'.spawned)
    (hcurr : ∀ d, s'.curr = some d → ∃ fd, s'.wire d = some (fd, none)) : Wired s' := by
  refine ⟨fun d hd => ?_, fun d hd => ?_, fun d hd => ?_, fun d fd fd' hd => ?_,
    fun d hd e he heq => ?_, hcurr⟩
  · rw [← wire_isSome]
    rw [List.mem_append, List.mem_append, or_assoc] at hd
    by_cases hdc : d = c
    · subst hdc
      cases hc with
      | idle fd hw _ => exact Option.isSome_of_eq_some hw
      | waits fd hw _ _ => exact Option.isSome_of_eq_some hw
      | freed _ hr hs hw => exact absurd hd (by simp [hr, hs, hw])
    · rw [hf.wire d hdc]
      exact h.live (hd.imp (hf.ready d hdc) (.imp (hf.sleeping d hdc) (hf.waiting d hdc).mp))
  · by_cases hdc : d = c
    · exact hdc ▸ hname
    · rw [hf.wire d hdc] at hd
      exact Nat.lt_of_lt_of_le (h.named d hd) hf.spawned
  · by_cases hdc : d = c
    · subst hdc
      cases hc with
      | idle fd _ hnot => exact absurd hd hnot
      | waits fd hw _ _ => exact ⟨fd, hw⟩
      | freed _ _ _ hnot => exact absurd hd hnot
    · rw [hf.wire d hdc]
      exact h.waiter d ((hf.waiting d hdc).mp hd)
  · by_cases hdc : d = c
    · subst hdc
      cases hc with
      | idle fd hw _ => exact absurd (hw.symm.trans hd) (by simp)
      | waits fd _ hin _ => exact hin
      | freed hw _ _ _ => exact absurd (hw.symm.trans hd) nofun
    · rw [hf.wire d hdc] at hd
      exact (hf.waiting d hdc).mpr (h.waits d fd fd' hd)
  · -- two that wait are apart, also where one of them has just come
    have hnew : ∀ e ∈ s'.waiting, s'.wire c = s'.wire e → c ∈ s'.waiting → c = e := by
      intro e he heq hin
      cases hc with
      | idle fd _ hnot => exact absurd hin hnot
      | waits fd hw _ hother => exact (hother e he (heq ▸ hw)).symm
      | freed _ _ _ hnot => exact absurd hin hnot
    by_cases hdc : d = c
    · subst hdc
      exact hnew e he heq hd
    · by_cases hec : e = c
      · subst hec
        exact (hnew d hd heq.symm he).symm
      · rw [hf.wire d hdc, hf.wire e hec] at heq
        exact h.apart d ((hf.waiting d hdc).mp hd) e ((hf.waiting e hec).mp he) heq

/-- A step that changes no wire and no place but that some are given up. -/
theorem Wired.less (h : Wired s) (hwire : s'.wire = s.wire) (hspawned : s'.spawned = s.spawned)
    (hready : ∀ d ∈ s'.ready, d ∈ s.ready) (hsleeping : ∀ d ∈ s'.sleeping, d ∈ s.sleeping)
    (hwaiting : s'.waiting = s.waiting) (hcurr : s'.curr = s.curr) : Wired s' := by
  refine ⟨fun d hd => ?_, hwire ▸ hspawned ▸ h.named, hwire ▸ hwaiting ▸ h.waiter,
    hwire ▸ hwaiting ▸ h.waits, hwire ▸ hwaiting ▸ h.apart, hwire ▸ hcurr ▸ h.curr⟩
  rw [← wire_isSome, hwire]
  rw [List.mem_append, List.mem_append, or_assoc] at hd
  exact h.live (hd.imp (hready d) (.imp (hsleeping d) fun hd => hwaiting ▸ hd))

/-- The coroutine that runs is not in the waiting tree. -/
theorem Wired.curr_not_waiting (h : Wired s) (hc : s.curr = some c) : c ∉ s.waiting := by
  intro hin
  obtain ⟨fd, hw⟩ := h.curr c hc
  obtain ⟨fd', hw'⟩ := h.waiter c hin
  exact absurd (hw.symm.trans hw') (by simp)

/-! ## The sleeping tree -/

theorem removeFound_eq (s : State) (usecs : Nat) :
    ∃ sleeping, s.removeFound usecs = { s with sleeping := sleeping } ∧
      ∀ d ∈ sleeping, d ∈ s.sleeping := by
  rw [removeFound]
  split
  · exact ⟨_, rfl, fun d hd => (List.mem_filter.mp hd).1⟩
  · exact ⟨s.sleeping, rfl, fun d hd => hd⟩

/-- What `nty_schedule_sched_sleepdown` leaves. -/
theorem schedSleepdown_spec {msecs now : Nat}
    (h : s.schedSleepdown c co msecs now = some s') :
    ∃ usecs status sleeping,
      s' = { s.set c { co with sleepUsecs := usecs, status := status } with
        sleeping := sleeping } ∧
      (∀ d ∈ sleeping, d ≠ c → d ∈ s.sleeping) ∧ ∀ x, x ≠ .sleeping → status x = co.status x := by
  obtain ⟨sleeping, heq, hsub⟩ := removeFound_eq s co.sleepUsecs
  rw [schedSleepdown, heq] at h
  split at h
  · obtain rfl := Option.some.inj h
    exact ⟨_, co.status, sleeping, rfl, fun d hd _ => hsub d hd, fun _ _ => rfl⟩
  · obtain ⟨usecs, -, rfl⟩ := Option.map_eq_some_iff.mp h
    refine ⟨usecs, co.status.set .sleeping, c :: sleeping, rfl, fun d hd hdc => ?_, fun x hx => ?_⟩
    · exact hsub d ((List.mem_cons.mp hd).resolve_left hdc)
    · exact Function.update_of_ne hx _ _

/-! ## Waking up -/

theorem findWaiting_self (hin : c ∈ s.waiting) (hfd : s.fd c = some fd)
    (hone : ∀ d ∈ s.waiting, s.fd d = some fd → d = c) : s.findWaiting fd = some c := by
  cases hfind : s.findWaiting fd with
  | none =>
      have hnone := List.find?_eq_none.mp hfind c hin
      exact absurd (decide_eq_true hfd) hnone
  | some d =>
      have hpred := List.find?_some (show s.waiting.find? _ = some d from hfind)
      rw [hone d (List.mem_of_find?_eq_some hfind) (of_decide_eq_true hpred)]

theorem fd_eq_of_wire {w : Option Int} (h : s.wire c = some (fd, w)) : s.fd c = some fd := by
  obtain ⟨co, hco, heq⟩ := Option.map_eq_some_iff.mp h
  rw [State.fd, hco, ← (Prod.mk.inj heq).1]
  rfl

/-- The one that waits for a descriptor is found by it. -/
theorem Wired.find (h : Wired s) (hw : s.wire c = some (fd, some fd)) :
    s.findWaiting fd = some c := by
  have hin := h.waits c fd fd hw
  refine findWaiting_self hin (fd_eq_of_wire hw) fun d hd hfd => ?_
  refine h.apart d hd c hin ?_
  obtain ⟨fd', hw'⟩ := h.waiter d hd
  obtain rfl := Option.some.inj ((fd_eq_of_wire hw').symm.trans hfd)
  exact hw'.trans hw.symm

/-- A coroutine that waited, back in its own code: it is out of the waiting tree and its status
word is empty. -/
def woken (s : State) (c : Nat) (co : Co) : State :=
  { (s.removeWaiting c).set c { co with status := .zero, waits := none } with curr := some c }

theorem init_eq (co : Co) : ∃ status, coroutineInit co = { co with status := status } := by
  rw [coroutineInit]
  split
  · exact ⟨_, rfl⟩
  · exact ⟨co.status, rfl⟩

theorem resume_idle (hco : s.cos c = some co) (hw : co.waits = none) :
    s.coroutineResume c = some { s.set c (coroutineInit co) with curr := some c } := by
  obtain ⟨status, hinit⟩ := init_eq co
  obtain ⟨st, fd, usecs, w⟩ := co
  obtain rfl : w = none := hw
  rw [coroutineResume, hco, Option.bind_some, hinit]

theorem resume_waiting (h : Wired s) (hco : s.cos c = some co) (hw : co.waits = some fd) :
    s.coroutineResume c = some (woken s c co) := by
  have hwire : s.wire c = some (co.fd, some fd) := by rw [wire_of_cos hco, hw]
  have hin : c ∈ s.waiting := h.waits c co.fd fd hwire
  obtain ⟨fd', hwire'⟩ := h.waiter c hin
  obtain ⟨hfd, hfd'⟩ := Prod.mk.inj (Option.some.inj (hwire.symm.trans hwire'))
  obtain rfl : co.fd = fd := hfd.trans (Option.some.inj hfd').symm
  obtain ⟨status, hinit⟩ := init_eq co
  rw [coroutineResume, hco, Option.bind_some, hw, hinit]
  -- the tree and the descriptors are still the same
  let s₁ : State :=
    { s.set c { co with status := status, waits := none } with curr := some c }
  have hfds : ∀ d, s₁.fd d = s.fd d := by
    intro d
    show Option.map _ (Function.update s.cos c _ d) = Option.map _ (s.cos d)
    rw [Function.update_apply]
    split
    · rename_i hd
      rw [hd, hco]
      rfl
    · rfl
  have hfind : s₁.findWaiting co.fd = some c := by
    show s.waiting.find? _ = some c
    simp only [hfds]
    exact h.find hwire
  have hco₁ : s₁.cos c = some { co with status := status, waits := none } :=
    Function.update_self _ _ _
  show (s₁.deschedWait co.fd).map Prod.snd = _
  rw [deschedWait, hfind, Option.bind_some, hco₁]
  simp only [Option.map_some]
  rw [deschedSleepdown, if_neg (show ¬ StatusWord.zero .sleeping = true from Bool.false_ne_true)]
  refine congrArg some ?_
  show ({ s with
    cos := Function.update (Function.update s.cos c _) c _
    waiting := _
    curr := _ } : State) = _
  rw [Function.update_idem]
  rfl

/-- No sign of an end in a status word. -/
def Clear (w : StatusWord) : Prop := w .fdeof = false ∧ w .exited = false

/-- No coroutine is at its end. -/
def Clean (s : State) : Prop := ∀ c co, s.cos c = some co → Clear co.status

theorem Clean.set (h : ∀ d co', d ≠ c → s.cos d = some co' → Clear co'.status)
    (hco : Clear co.status) : Clean (s.set c co) := by
  intro d co' hd
  have hd : Function.update s.cos c (some co) d = some co' := hd
  rw [Function.update_apply] at hd
  split at hd
  · exact Option.some.inj hd ▸ hco
  · rename_i hdc
    exact h d co' hdc hd

theorem clear_init (h : Clear co.status) : Clear (coroutineInit co).status := by
  rw [coroutineInit]
  split
  · exact ⟨rfl, rfl⟩
  · exact h

/-- A coroutine is resumed, that may have an end of file reported if it waits. -/
theorem resume_inv (h : Wired s)
    (hclean : ∀ d co', s.cos d = some co' → (d = c → co'.waits = none) → Clear co'.status)
    (hstep : s.coroutineResume c = some s') : Wired s' ∧ Clean s' := by
  obtain ⟨co, hco, -⟩ := Option.bind_eq_some_iff.mp hstep
  have hwire := wire_of_cos hco
  have hname : c < s.spawned := h.named c (Option.isSome_of_eq_some hwire)
  have hother : ∀ d co', d ≠ c → s.cos d = some co' → Clear co'.status :=
    fun d co' hd hco' => hclean d co' hco' fun heq => absurd heq hd
  cases hw : co.waits with
  | none =>
      rw [resume_idle hco hw] at hstep
      obtain rfl := Option.some.inj hstep
      obtain ⟨status, hinit⟩ := init_eq co
      have hidle : ({ s.set c (coroutineInit co) with curr := some c } : State).wire c =
          some (co.fd, none) := by
        show (s.set c (coroutineInit co)).wire c = _
        rw [wire_self, hinit, hw]
      have hf := Frame.set s c (coroutineInit co)
      refine ⟨h.frame ⟨hf.wire, hf.spawned, hf.ready, hf.sleeping, hf.waiting⟩
        (.idle co.fd hidle fun hin => ?_) hname fun d hd => ?_, ?_⟩
      · obtain ⟨fd, hw'⟩ := h.waiter c hin
        rw [hwire, hw] at hw'
        exact absurd hw' (by simp)
      · obtain rfl := Option.some.inj hd
        exact ⟨co.fd, hidle⟩
      · exact Clean.set hother (clear_init (hclean c co hco fun _ => hw))
  | some fd =>
      rw [resume_waiting h hco hw] at hstep
      obtain rfl := Option.some.inj hstep
      have hidle : (woken s c co).wire c = some (co.fd, none) :=
        wire_self s c { co with status := .zero, waits := none }
      have hf := Frame.set s c { co with status := .zero, waits := none }
      refine ⟨h.frame ⟨hf.wire, hf.spawned, hf.ready, hf.sleeping, fun d hd => ?_⟩
        (.idle co.fd hidle fun hin => ?_) hname fun d hd => ?_, ?_⟩
      · show d ∈ s.waiting.filter _ ↔ _
        rw [List.mem_filter]
        exact and_iff_left (decide_eq_true hd)
      · exact of_decide_eq_true (List.mem_filter.mp hin).2 rfl
      · obtain rfl := Option.some.inj hd
        exact ⟨co.fd, hidle⟩
      · exact Clean.set (s := s) hother ⟨rfl, rfl⟩

/-! ## The calls of a coroutine -/

theorem create_inv (h : Wired s) (hclean : Clean s) :
    Wired s.coroutineCreate ∧ Clean s.coroutineCreate := by
  have hnew : ∀ d, (s.wire d).isSome → d ≠ s.spawned :=
    fun d hd => Nat.ne_of_lt (h.named d hd)
  have hidle : s.coroutineCreate.wire s.spawned = some (-1, none) := wire_self s s.spawned _
  have hf := Frame.set s s.spawned
    { status := StatusWord.zero.set .new, fd := -1, sleepUsecs := 0, waits := none }
  refine ⟨h.frame ⟨hf.wire, Nat.le_succ _, fun d hd hin => ?_, hf.sleeping, hf.waiting⟩
    (.idle _ hidle fun hin => ?_) (Nat.lt_succ_self _) fun d hd => ?_,
    Clean.set (fun d co' _ => hclean d co') ⟨rfl, rfl⟩⟩
  · rcases List.mem_append.mp hin with hin | hin
    · exact hin
    · exact absurd (List.mem_singleton.mp hin) hd
  · exact hnew _ (h.live (.inr (.inr hin))) rfl
  · obtain ⟨fd, hw⟩ := h.curr d hd
    exact ⟨fd, (hf.wire d (hnew d (Option.isSome_of_eq_some hw))).trans hw⟩

theorem resumed_eq (hco : s.cos c = some co) (hexit : co.status .exited = false) :
    s.coroutineResumed c = { s with curr := none } := by
  rw [coroutineResumed, hco]
  simp [hexit]

/-- `nty_schedule_sched_wait` puts the coroutine into the waiting tree and then sets its timer. -/
theorem schedWait_cases {events timeout now : Nat}
    (h : s.schedWait c co fd events timeout now = some s') :
    ∃ status, (∀ x, x ≠ .waitRead → status x = co.status x) ∧ s.findWaiting fd = none ∧
      let co' : Co := { co with status := status, fd := fd }
      let t : State := { s.set c co' with waiting := c :: s.waiting }
      (timeout = 1 ∧ s' = t) ∨ (timeout ≠ 1 ∧ t.schedSleepdown c co' timeout now = some s') := by
  rw [schedWait] at h
  split at h
  · exact absurd h nofun
  · obtain ⟨status, hstatus, h⟩ := Option.bind_eq_some_iff.mp h
    refine ⟨status, fun x hx => ?_, ?_⟩
    · split at hstatus
      · rw [Option.some.inj hstatus]
      · obtain ⟨-, hset⟩ := Option.ite_none_right_eq_some.mp hstatus
        rw [← Option.some.inj hset]
        exact Function.update_of_ne hx _ _
    · dsimp only at h
      split at h
      · exact absurd h nofun
      · rename_i hfind
        refine ⟨Option.not_isSome_iff_eq_none.mp hfind, ?_⟩
        split at h
        · rename_i hone
          exact .inl ⟨hone, (Option.some.inj h).symm⟩
        · rename_i hone
          exact .inr ⟨hone, h⟩

/-- What `nty_schedule_sched_wait` leaves. -/
theorem schedWait_spec {events timeout now : Nat}
    (h : s.schedWait c co fd events timeout now = some s') :
    ∃ usecs status sleeping,
      s' = { s.set c { co with status := status, fd := fd, sleepUsecs := usecs } with
        sleeping := sleeping
        waiting := c :: s.waiting } ∧
      (∀ d ∈ sleeping, d ≠ c → d ∈ s.sleeping) ∧
      (∀ x, x ≠ .sleeping → x ≠ .waitRead → status x = co.status x) ∧
      s.findWaiting fd = none := by
  obtain ⟨status, hsame, hfind, ⟨-, rfl⟩ | ⟨-, h⟩⟩ := schedWait_cases h
  · exact ⟨co.sleepUsecs, status, s.sleeping, rfl, fun d hd _ => hd, fun x _ => hsame x, hfind⟩
  · obtain ⟨usecs, status', sleeping, rfl, hsub, hstatus'⟩ := schedSleepdown_spec h
    refine ⟨usecs, status', sleeping, ?_, hsub, fun x hx hx' => ?_, hfind⟩
    · show ({ s with
        cos := Function.update (Function.update s.cos c _) c _
        sleeping := _
        waiting := _ } : State) = _
      rw [Function.update_idem]
      rfl
    · rw [hstatus' x hx]
      exact hsame x hx'

/-- What the running coroutine has to see to. -/
def Unlinked (s : State) : Label → Prop
  | .sleep msecs _ => msecs = 0 → ∀ c ∈ s.curr, c ∉ s.ready
  | .finish => ∀ c ∈ s.curr, c ∉ s.ready ∧ c ∉ s.sleeping
  | _ => True

instance (s : State) : (l : Label) → Decidable (Unlinked s l)
  | .sleep msecs _ => inferInstanceAs (Decidable (msecs = 0 → ∀ c ∈ s.curr, c ∉ s.ready))
  | .finish => inferInstanceAs (Decidable (∀ c ∈ s.curr, c ∉ s.ready ∧ c ∉ s.sleeping))
  | .create => .isTrue trivial
  | .start => .isTrue trivial
  | .expire _ => .isTrue trivial
  | .ready => .isTrue trivial
  | .epoll _ _ => .isTrue trivial
  | .event => .isTrue trivial
  | .wait _ _ _ _ => .isTrue trivial

/-- A timer is set. -/
theorem sleep_inv {msecs now : Nat} (h : Wired s) (hclean : Clean s) (hcurr : s.curr = some c)
    (hco : s.cos c = some co) (hstep : s.schedSleepdown c co msecs now = some s') :
    Wired s' ∧ Clean s' := by
  obtain ⟨usecs, status, sleeping, rfl, hsub, hstatus⟩ := schedSleepdown_spec hstep
  have hf := Frame.set s c { co with sleepUsecs := usecs, status := status }
  have hwire := wire_of_cos hco
  obtain ⟨fd, hw⟩ := h.curr c hcurr
  have hidle := (wire_self s c { co with sleepUsecs := usecs, status := status }).trans
    (hwire.symm.trans hw)
  refine ⟨h.frame ⟨hf.wire, hf.spawned, hf.ready, fun d hd hin => hsub d hin hd, hf.waiting⟩
    (.idle fd hidle (h.curr_not_waiting hcurr)) (h.named c (Option.isSome_of_eq_some hwire))
    fun d hd => ?_, ?_⟩
  · obtain rfl := Option.some.inj (hcurr.symm.trans hd)
    exact ⟨fd, hidle⟩
  · have hold := hclean c co hco
    refine Clean.set (s := s) (fun d co' _ => hclean d co') ⟨?_, ?_⟩
    · exact (hstatus .fdeof nofun).trans hold.1
    · exact (hstatus .exited nofun).trans hold.2

/-- `nty_coroutine_sleep(0)`. -/
theorem sleepZero_inv (h : Wired s) (hclean : Clean s) (hcurr : s.curr = some c) :
    Wired { s with ready := s.ready ++ [c], curr := none } ∧
      Clean { s with ready := s.ready ++ [c], curr := none } := by
  obtain ⟨fd, hw⟩ := h.curr c hcurr
  refine ⟨h.frame (c := c) ⟨fun _ _ => rfl, Nat.le_refl _, fun d hd hin => ?_,
    fun _ _ hin => hin, fun _ _ => Iff.rfl⟩ (.idle fd hw (h.curr_not_waiting hcurr))
    (h.named c (Option.isSome_of_eq_some hw)) nofun, hclean⟩
  rcases List.mem_append.mp hin with hin | hin
  · exact hin
  · exact absurd (List.mem_singleton.mp hin) hd

/-- A wait, up to its yield. -/
theorem wait_inv {events timeout now : Nat} (h : Wired s) (hclean : Clean s)
    (hco : s.cos c = some co)
    (hyield : s.schedWait c { co with waits := some fd } fd events timeout now = some s') :
    Wired (s'.coroutineResumed c) ∧ Clean (s'.coroutineResumed c) := by
  obtain ⟨usecs, status, sleeping, rfl, hsub, hstatus, hnone⟩ := schedWait_spec hyield
  have hold := hclean c co hco
  have hclear : Clear status := by
    refine ⟨?_, ?_⟩
    · exact (hstatus .fdeof nofun nofun).trans hold.1
    · exact (hstatus .exited nofun nofun).trans hold.2
  let co' : Co := { co with status := status, fd := fd, sleepUsecs := usecs, waits := some fd }
  have hself : ({ s.set c co' with sleeping := sleeping, waiting := c :: s.waiting } :
      State).cos c = some co' := Function.update_self _ _ _
  rw [resumed_eq hself hclear.2]
  have hf := Frame.set s c co'
  have hwaits := wire_self s c co'
  refine ⟨h.frame ⟨hf.wire, hf.spawned, hf.ready, fun d hd hin => hsub d hin hd, fun d hd => ?_⟩
    (.waits fd hwaits List.mem_cons_self fun d hd hw => ?_)
    (h.named c (Option.isSome_of_eq_some (wire_of_cos hco))) nofun,
    Clean.set (s := s) (fun d co' _ => hclean d co') hclear⟩
  · show d ∈ c :: s.waiting ↔ _
    rw [List.mem_cons]
    exact or_iff_right hd
  · -- nobody else waits for the descriptor: it is not in the tree
    by_contra hdc
    have hin : d ∈ s.waiting := (List.mem_cons.mp hd).resolve_left hdc
    have hw : s.wire d = some (fd, some fd) := (hf.wire d hdc).symm.trans hw
    have hnot := List.find?_eq_none.mp hnone d hin
    exact hnot (decide_eq_true (fd_eq_of_wire hw))

/-- A coroutine's end, where it is not linked. -/
theorem finish_inv (h : Wired s) (hclean : Clean s) (hcurr : s.curr = some c)
    (hout : c ∉ s.ready ∧ c ∉ s.sleeping) (hco : s.cos c = some co) :
    Wired { s with cos := Function.update s.cos c none, curr := none } ∧
      Clean { s with cos := Function.update s.cos c none, curr := none } := by
  let s' : State := { s with cos := Function.update s.cos c none, curr := none }
  have hwire : s'.wire c = none := by
    show Option.map _ (Function.update s.cos c none c) = none
    rw [Function.update_self]
    rfl
  have hother : ∀ d, d ≠ c → s'.wire d = s.wire d := by
    intro d hd
    show Option.map _ (Function.update s.cos c none d) = _
    rw [Function.update_of_ne hd]
    rfl
  have hframe : Frame s s' c :=
    ⟨hother, Nat.le_refl _, fun _ _ hin => hin, fun _ _ hin => hin, fun _ _ => Iff.rfl⟩
  have hfreed : Stands s' c := .freed hwire hout.1 hout.2 (h.curr_not_waiting hcurr)
  refine ⟨h.frame hframe hfreed (h.named c (Option.isSome_of_eq_some (wire_of_cos hco))) nofun,
    fun d co' hd => ?_⟩
  have hd : Function.update s.cos c none d = some co' := hd
  rw [Function.update_apply] at hd
  split at hd
  · exact absurd hd nofun
  · exact hclean d co' hd

/-- What is left when a coroutine has returned. -/
theorem finish_eq (hco : s.cos c = some co) :
    s.running c .finish =
      some { s with cos := Function.update s.cos c none, curr := none } := by
  show (s.yieldAt c .finish).map _ = _
  rw [yieldAt, hco]
  simp only [Option.map_some]
  rw [coroutineResumed, show (s.set c _).cos c = some _ from Function.update_self _ _ _]
  simp only [Option.any_some]
  rw [if_pos (by rfl)]
  refine congrArg some ?_
  show ({ s with cos := Function.update (Function.update s.cos c _) c none, curr := none } :
    State) = _
  rw [Function.update_idem]

/-! ## Runs -/

theorem running_inv {l : Label} (h : Wired s) (hclean : Clean s) (hcurr : s.curr = some c)
    (hok : Unlinked s l) (hstep : s.running c l = some s') : Wired s' ∧ Clean s' := by
  obtain ⟨fd, hw⟩ := h.curr c hcurr
  obtain ⟨co, hco, -⟩ := Option.map_eq_some_iff.mp hw
  cases l with
  | create =>
      obtain rfl := Option.some.inj hstep
      exact create_inv h hclean
  | sleep msecs now =>
      rw [running] at hstep
      split at hstep
      · obtain ⟨s₁, hyield, rfl⟩ := Option.map_eq_some_iff.mp hstep
        obtain ⟨-, heq⟩ := Option.ite_none_right_eq_some.mp hyield
        obtain rfl := Option.some.inj heq
        have hlive := hclean c co hco
        rw [resumed_eq (s := { s with ready := s.ready ++ [c] }) hco hlive.2]
        exact sleepZero_inv h hclean hcurr
      · rw [hco] at hstep
        exact sleep_inv h hclean hcurr hco hstep
  | wait fd events timeout now =>
      obtain ⟨s₁, hyield, rfl⟩ := Option.map_eq_some_iff.mp hstep
      rw [yieldAt, hco] at hyield
      exact wait_inv h hclean hco hyield
  | finish =>
      rw [finish_eq hco] at hstep
      obtain rfl := Option.some.inj hstep
      exact finish_inv h hclean hcurr (hok c hcurr) hco
  | start => exact absurd hstep nofun
  | expire now => exact absurd hstep nofun
  | ready => exact absurd hstep nofun
  | epoll now evs => exact absurd hstep nofun
  | event => exact absurd hstep nofun

/-- A step of the scheduler that resumes a coroutine, and the state in which it does. -/
inductive Wakes (s : State) : Label → Nat → State → Prop where
  | expire (now c : Nat) : s.minSleeping = some c → s.sleepUsecs c ≤ now →
      Wakes s (.expire now) c (s.removeSleeping c)
  | ready (phase : Phase) (c : Nat) (rest : List Nat) : s.ready = c :: rest →
      Wakes s .ready c { s with ready := rest, phase := phase }
  | event (fd : Int) (isEof : Bool) (evs : List (Int × Bool)) (c : Nat) (co : Co)
      (status : StatusWord) : s.phase = .events ((fd, isEof) :: evs) →
      s.findWaiting fd = some c → s.cos c = some co →
      Wakes s .event c { s.set c { co with status := status } with phase := .events evs }

/-- One event: the one that waits is found. -/
theorem event_cases {evs : List (Int × Bool)} (hphase : s.phase = .events evs)
    (hstep : s.eventOne evs = some s') :
    (evs = [] ∧ s' = s.again) ∨ ∃ c t, Wakes s .event c t ∧ t.coroutineResume c = some s' := by
  cases evs with
  | nil => exact .inl ⟨rfl, (Option.some.inj hstep).symm⟩
  | cons ev evs =>
      obtain ⟨fd, isEof⟩ := ev
      obtain ⟨⟨c, s₁⟩, hsearch, hstep⟩ := Option.bind_eq_some_iff.mp hstep
      obtain ⟨d, hfind, hs₁⟩ := Option.bind_eq_some_iff.mp hsearch
      obtain ⟨co, hco, heq⟩ := Option.map_eq_some_iff.mp hs₁
      obtain ⟨rfl, rfl⟩ := Prod.mk.inj heq
      have hwake := fun status => Wakes.event fd isEof evs d co status hphase hfind hco
      dsimp only at hstep
      rw [show ({ s.set d { co with status := .zero } with phase := .events evs } :
        State).cos d = some { co with status := .zero } from Function.update_self _ _ _] at hstep
      cases isEof with
      | true =>
          let s₀ : State := { s.set d { co with status := .zero } with phase := .events evs }
          have htwice : s₀.set d { co with status := StatusWord.zero.set .fdeof } =
              { s.set d { co with status := StatusWord.zero.set .fdeof } with
                phase := .events evs } := by
            show ({ s with
              cos := Function.update (Function.update s.cos d _) d _
              phase := .events evs } : State) = _
            rw [Function.update_idem]
            rfl
          refine .inr ⟨d, _, hwake (StatusWord.zero.set .fdeof), ?_⟩
          rw [← htwice]
          exact hstep
      | false => exact .inr ⟨d, _, hwake .zero, hstep⟩

/-- What a step of the scheduler does, where nobody is in the queue at its end. -/
theorem scheduling_cases {l : Label} (hclean : Clean s)
    (hstep : s.scheduling l s.phase = some s') :
    (l = .create ∧ s' = s.coroutineCreate) ∨
    ((l = .ready → s.ready = []) ∧ (l = .event → s.phase = .events []) ∧
      ∃ phase, s' = { s with phase := phase }) ∨
    ∃ c t, Wakes s l c t ∧ t.coroutineResume c = some s' := by
  rw [State.scheduling.eq_def] at hstep
  split at hstep
  · exact .inl ⟨rfl, (Option.some.inj hstep).symm⟩
  · exact .inr (.inl ⟨nofun, nofun, _, (Option.some.inj hstep).symm⟩)
  · rename_i now _
    rw [expireOne] at hstep
    split at hstep
    · rename_i c hmin
      split at hstep
      · rename_i hle
        exact .inr (.inr ⟨c, _, .expire now c hmin hle, hstep⟩)
      · exact .inr (.inl ⟨nofun, nofun, _, (Option.some.inj hstep).symm⟩)
    · exact .inr (.inl ⟨nofun, nofun, _, (Option.some.inj hstep).symm⟩)
  · rename_i last _
    rw [readyOne] at hstep
    split at hstep
    · rename_i hready
      exact .inr (.inl ⟨fun _ => hready, nofun, _, (Option.some.inj hstep).symm⟩)
    · rename_i c rest hready
      obtain ⟨co, hco, hstep⟩ := Option.bind_eq_some_iff.mp hstep
      rw [if_neg (Bool.eq_false_iff.mp (hclean c co hco).1)] at hstep
      exact .inr (.inr ⟨c, _, .ready _ c rest hready, hstep⟩)
  · rw [State.epoll] at hstep
    split at hstep
    · obtain ⟨-, heq⟩ := Option.ite_none_right_eq_some.mp hstep
      exact .inr (.inl ⟨nofun, nofun, _, (Option.some.inj heq).symm⟩)
    · obtain ⟨-, heq⟩ := Option.ite_none_right_eq_some.mp hstep
      exact .inr (.inl ⟨nofun, nofun, _, (Option.some.inj heq).symm⟩)
  · rename_i evs hphase
    rcases event_cases hphase hstep with ⟨rfl, rfl⟩ | hwake
    · exact .inr (.inl ⟨nofun, fun _ => hphase, _, rfl⟩)
    · exact .inr (.inr hwake)
  · exact absurd hstep nofun

/-- Up to there nothing has happened to the waiting tree, and an end of file is only reported to
one that waits. -/
theorem Wakes.wired {l : Label} {t : State} (hw : Wakes s l c t) (h : Wired s)
    (hclean : Clean s) :
    Wired t ∧
      ∀ d co', t.cos d = some co' → (d = c → co'.waits = none) → Clear co'.status := by
  cases hw with
  | expire now c hmin hle =>
      exact ⟨h.less rfl rfl (fun _ hd => hd) (fun _ hd => (List.mem_filter.mp hd).1) rfl rfl,
        fun d co' hd _ => hclean d co' hd⟩
  | ready phase c rest hready =>
      refine ⟨h.less rfl rfl (fun d hd => ?_) (fun _ hd => hd) rfl rfl,
        fun d co' hd _ => hclean d co' hd⟩
      rw [hready]
      exact List.mem_cons_of_mem c hd
  | event fd isEof evs c co status hphase hfind hco =>
      obtain ⟨fd', hwire⟩ := h.waiter c (List.mem_of_find?_eq_some hfind)
      have hwaits : co.waits = some fd' :=
        (Prod.mk.inj (Option.some.inj ((wire_of_cos hco).symm.trans hwire))).2
      have hsame : (s.set c { co with status := status }).wire = s.wire := by
        rw [wire_set, ← wire_of_cos hco, Function.update_eq_self]
      refine ⟨h.less hsame rfl (fun _ hd => hd) (fun _ hd => hd) rfl rfl, fun d co' hd hidle => ?_⟩
      have hd : Function.update s.cos c _ d = some co' := hd
      rw [Function.update_apply] at hd
      split at hd
      · rename_i hdc
        obtain rfl := Option.some.inj hd
        exact absurd (hwaits.symm.trans (hidle hdc)) nofun
      · exact hclean d co' hd

theorem scheduling_inv {l : Label} (h : Wired s) (hclean : Clean s)
    (hstep : s.scheduling l s.phase = some s') : Wired s' ∧ Clean s' := by
  rcases scheduling_cases hclean hstep with ⟨-, rfl⟩ | ⟨-, -, phase, rfl⟩ | ⟨c, t, hw, hresume⟩
  · exact create_inv h hclean
  · exact ⟨h.less rfl rfl (fun _ hd => hd) (fun _ hd => hd) rfl rfl, hclean⟩
  · obtain ⟨ht, hcleant⟩ := hw.wired h hclean
    exact resume_inv ht hcleant hresume

theorem step_inv {l : Label} (h : Wired s ∧ Clean s) (hok : Unlinked s l)
    (hstep : step s l = some s') : Wired s' ∧ Clean s' := by
  obtain ⟨-, hstep⟩ := Option.ite_none_right_eq_some.mp hstep
  split at hstep
  · rename_i c hcurr
    exact running_inv h.1 h.2 hcurr hok hstep
  · exact scheduling_inv h.1 h.2 hstep

theorem init_inv : Wired init ∧ Clean init := by
  refine ⟨⟨fun c hc => absurd hc List.not_mem_nil, fun c hc => absurd hc nofun,
    fun c hc => absurd hc List.not_mem_nil, fun c fd fd' hc => absurd hc nofun,
    fun c hc => absurd hc List.not_mem_nil, nofun⟩, nofun⟩

/-- A coroutine that returns while it is linked stays linked, and then nothing more is said. -/
theorem linked_of_step {l : Label} (h : Wired s) (hstep : step s l = some s') (hl : s'.Linked) :
    Unlinked s l := by
  obtain ⟨-, hstep⟩ := Option.ite_none_right_eq_some.mp hstep
  cases l with
  | sleep msecs now =>
      intro hzero c hcurr
      have hcurr : s.curr = some c := hcurr
      rw [hcurr] at hstep
      dsimp only [running] at hstep
      rw [if_pos hzero] at hstep
      obtain ⟨s₁, hyield, -⟩ := Option.map_eq_some_iff.mp hstep
      exact (Option.ite_none_right_eq_some.mp hyield).1.2
  | finish =>
      intro c hcurr
      have hcurr : s.curr = some c := hcurr
      rw [hcurr] at hstep
      obtain ⟨fd, hw⟩ := h.curr c hcurr
      obtain ⟨co, hco, -⟩ := Option.map_eq_some_iff.mp hw
      obtain rfl := Option.some.inj ((finish_eq hco).symm.trans hstep)
      -- the record is gone
      have hgone : c ∉ s.ready ++ s.sleeping ++ s.waiting := by
        intro hin
        have hlive : (Function.update s.cos c none c).isSome = true := hl c hin
        rw [Function.update_self] at hlive
        exact absurd hlive nofun
      simp only [List.mem_append, not_or] at hgone
      exact hgone.1
  | create => trivial
  | start => trivial
  | expire now => trivial
  | ready => trivial
  | epoll now evs => trivial
  | event => trivial
  | wait fd events timeout now => trivial

end

/--
**Coroutines that are gone are linked nowhere**, in the state that a run reaches, if and only if in
the whole run no coroutine returned while it was in the ready queue or in the sleeping tree, and
none went to the end of the queue that was in it.
-/
theorem freed_linked_iff (labels : List Label) {s : State} (hrun : run step init labels = some s) :
    s.Linked ↔ Meets step Unlinked init labels := by
  constructor
  · intro hl
    have hgo : ∀ (labels : List Label) (s₀ : State), Wired s₀ ∧ Clean s₀ →
        run step s₀ labels = some s → Meets step Unlinked s₀ labels := by
      intro labels
      induction labels with
      | nil => exact fun _ _ _ => trivial
      | cons l labels ih =>
          intro s₀ h₀ hrun
          obtain ⟨s₁, h₁, hrest⟩ := Option.bind_eq_some_iff.mp hrun
          -- the next state is linked: it is the last one, or a step was made from it
          have hl₁ : s₁.Linked := by
            cases labels with
            | nil => exact Option.some.inj hrest ▸ hl
            | cons l' labels =>
                obtain ⟨s₂, h₂, -⟩ := Option.bind_eq_some_iff.mp hrest
                exact (Option.ite_none_right_eq_some.mp h₂).1
          have hok := linked_of_step h₀.1 h₁ hl₁
          refine ⟨hok, fun s₂ h₂ => ?_⟩
          obtain rfl := Option.some.inj (h₁.symm.trans h₂)
          exact ih s₁ (step_inv h₀ hok h₁) hrest
    exact hgo labels init init_inv hrun
  · intro hm
    exact (run_keeps_meets Unlinked (fun _ _ _ => step_inv) labels init_inv hm hrun).1.linked

/-- A coroutine that only returns. -/
theorem freed_linked_iff_one : ∃ s,
    run step init [.create, .start, .expire 0, .ready, .finish] = some s ∧
      (s.Linked ↔ Meets step Unlinked init [.create, .start, .expire 0, .ready, .finish]) := by
  obtain ⟨s, hrun⟩ := Option.isSome_iff_exists.mp
    (show (run step init [.create, .start, .expire 0, .ready, .finish]).isSome = true by decide)
  exact ⟨s, hrun, freed_linked_iff _ hrun⟩

/-- A coroutine that sets a timer, which does not yield, and returns. -/
theorem linked_timer : ¬ ∀ (labels : List Label) (s : State),
    run step init labels = some s → s.Linked := by
  intro h
  obtain ⟨s, hrun, hnot⟩ := (Option.any_eq_true _ _).mp
    (show (run step init [.create, .start, .expire 0, .ready, .sleep 10 0, .finish]).any
      (fun s => decide (¬ s.Linked)) = true by decide)
  exact of_decide_eq_true hnot (h _ s hrun)

end CppTrack.NtyCo
