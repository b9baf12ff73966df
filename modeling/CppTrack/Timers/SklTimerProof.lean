import CppTrack.Timers.SklTimer

/-!
# When a round of the skip list's timers is right

`expire_timer` runs the handler of the first timer and then takes out whatever is first. A new
timer goes before those of its own score, so what is first is still the same timer if and only if
all that the handler adds is due later, and not at the same millisecond either.
-/

namespace CppTrack.SklTimer

open Lib SkipList

/-- The list holds these timers, none of them has run, and no timer will get the name of one that
has. -/
structure Fresh (s : Zskiplist) (ran : List Nat) (q : Queue) : Prop where
  holds : Holds s q
  pending : ∀ e ∈ q.items, e.id ∉ ran
  past : ∀ x ∈ ran, x < q.next

/-- Another timer is before `e`. -/
def Displaced (q : Queue) (e : Entry) : Prop :=
  ∃ h tl, q.items = h :: tl ∧ h.id ≠ e.id ∧ e ∈ tl

section

variable {w w' w₁ : Timers} {s s' : Zskiplist} {q q' : Queue} {e : Entry} {rest : List Entry}
  {a : Add} {adds : List Add} {ran : List Nat} {now x t handler : Nat} {op : TimerOp}

/-! ## The skip list as a queue of timers -/

theorem chain_of_holds (hh : Holds s q) : s.chain 0 = some (q.items.map Entry.id) := by
  obtain ⟨xs, hr, hitems, -⟩ := hh
  rw [hr.chain_eq (by decide), hr.level_zero, hitems, List.map_map]
  exact congrArg some (List.map_id' xs).symm

theorem min_of_holds (hh : Holds s q) : zslMin s = some (q.items.head?.map Entry.id) := by
  obtain ⟨xs, hr, hitems, -⟩ := hh
  have hpath := hr.path 0 (by decide)
  rw [hr.level_zero] at hpath
  unfold zslMin
  rw [Path.forward_eq hpath, hitems, List.head?_map, Option.map_map]
  exact congrArg some (Option.map_id' ..).symm

theorem score_of_holds (hh : Holds s q) (he : e ∈ q.items) : score s.heap e.id = some e.score := by
  obtain ⟨xs, hr, hitems, -⟩ := hh
  rw [hitems] at he
  obtain ⟨x, hx, rfl⟩ := List.mem_map.mp he
  exact score_eq (hr.live (List.mem_cons_of_mem _ hx))

theorem ids_of_holds (hh : Holds s q) :
    (q.items.map Entry.id).Nodup ∧ ∀ e ∈ q.items, e.id < q.next := by
  obtain ⟨xs, hr, hitems, hnext⟩ := hh
  have hids : q.items.map Entry.id = xs := by
    rw [hitems, List.map_map]
    exact List.map_id' xs
  refine ⟨hids ▸ (List.nodup_cons.mp hr.nodup).2, fun e he => ?_⟩
  have hx : e.id ∈ xs := hids ▸ List.mem_map_of_mem he
  exact hnext ▸ hr.inside e.id (List.mem_cons_of_mem _ hx)

theorem deleteHead_holds (hh : Holds s q) (h : zslDeleteHead s = some s') :
    Holds s' (q.call .deleteHead) := by
  obtain ⟨s'', hrun, hh'⟩ := hh.step (show Accepts s .deleteHead from trivial)
  exact Option.some.inj (hrun.symm.trans h) ▸ hh'

/-- A new timer is the only entry that was not there before. -/
theorem mem_insert (he : e ∈ (q.call (.insert t handler)).items) :
    e = ⟨q.next, t, handler⟩ ∨ e ∈ q.items := by
  rcases List.mem_append.mp he with he | he
  · exact .inr ((List.takeWhile_sublist _).subset he)
  · rcases List.mem_cons.mp he with he | he
    · exact .inl he
    · exact .inr ((List.dropWhile_sublist _).subset he)

theorem mem_delete {zn : Nat} (he : e ∈ (q.call (.delete zn)).items) : e ∈ q.items := by
  unfold Queue.call at he
  dsimp only at he
  split at he
  · exact he
  · rcases List.mem_append.mp he with he | he
    · exact (List.takeWhile_sublist _).subset he
    · exact (List.dropWhile_sublist _).subset (List.mem_of_mem_tail he)

theorem next_delete (q : Queue) (zn : Nat) : (q.call (.delete zn)).next = q.next := by
  unfold Queue.call
  dsimp only
  split <;> rfl

/-! ## What a handler's calls do to the first timer -/

theorem addTimer_spec (h : addTimer w a = some w') :
    1 ≤ a.level ∧ a.level ≤ maxLevel ∧ ∃ r, zslInsert w.zsl a.level (addU32 a.msec a.clock)
      a.handler = some r ∧ w' = { w with zsl := r.2, clock := a.clock } := by
  obtain ⟨⟨-, -, hlow, hhigh⟩, hins⟩ := Option.ite_none_right_eq_some.mp h
  obtain ⟨r, hr, rfl⟩ := Option.map_eq_some_iff.mp hins
  exact ⟨hlow, hhigh, r, hr, rfl⟩

theorem Fresh.add (hf : Fresh w.zsl ran q) (h : addTimer w a = some w') :
    Fresh w'.zsl ran (q.call (.insert (addU32 a.msec a.clock) a.handler)) ∧ w'.ran = w.ran ∧
      w'.now = w.now := by
  obtain ⟨hlow, hhigh, r, hr, rfl⟩ := addTimer_spec h
  have hok : Accepts w.zsl (.insert a.level (addU32 a.msec a.clock) a.handler) := ⟨hlow, hhigh⟩
  obtain ⟨s', hrun, hh⟩ := hf.holds.step hok
  rw [SkipList.step, hr] at hrun
  obtain rfl := Option.some.inj hrun
  refine ⟨⟨hh, fun e he => ?_, fun x hx => Nat.lt_succ_of_lt (hf.past x hx)⟩, rfl, rfl⟩
  rcases mem_insert he with rfl | he
  · exact fun hmem => Nat.lt_irrefl _ (hf.past _ hmem)
  · exact hf.pending e he

theorem insert_after (handler : Nat) (hitems : q.items = e :: rest) (hlt : e.score < t) :
    ∃ rest', (q.call (.insert t handler)).items = e :: rest' := by
  unfold Queue.call
  dsimp only
  rw [hitems, List.takeWhile_cons_of_pos (by simpa using hlt)]
  exact ⟨_, rfl⟩

theorem insert_before (hitems : q.items = e :: rest) (hle : t ≤ e.score) (hid : e.id < q.next) :
    Displaced (q.call (.insert t handler)) e := by
  refine ⟨⟨q.next, t, handler⟩, e :: rest, ?_, Nat.ne_of_gt hid, List.mem_cons_self⟩
  unfold Queue.call
  dsimp only
  rw [hitems, List.takeWhile_cons_of_neg (by simpa using hle),
    List.dropWhile_cons_of_neg (by simpa using hle)]
  rfl

/-- Once another timer is before it, one more does not bring it to the front. -/
theorem Displaced.insert (h : Displaced q e) (hid : e.id < q.next) :
    Displaced (q.call (.insert t handler)) e := by
  obtain ⟨d, tl, hitems, hne, hmem⟩ := h
  by_cases hlt : d.score < t
  · have hsplit := List.takeWhile_append_dropWhile (p := fun e : Entry => decide (e.score < t))
      (l := tl)
    refine ⟨d, tl.takeWhile (fun e => decide (e.score < t)) ++
      ⟨q.next, t, handler⟩ :: tl.dropWhile (fun e => decide (e.score < t)), ?_, hne, ?_⟩
    · unfold Queue.call
      dsimp only
      rw [hitems, List.takeWhile_cons_of_pos (by simpa using hlt),
        List.dropWhile_cons_of_pos (by simpa using hlt)]
      rfl
    · rw [← hsplit] at hmem
      rcases List.mem_append.mp hmem with hmem | hmem
      · exact List.mem_append_left _ hmem
      · exact List.mem_append_right _ (List.mem_cons_of_mem _ hmem)
  · refine ⟨⟨q.next, t, handler⟩, d :: tl, ?_, Nat.ne_of_gt hid, List.mem_cons_of_mem _ hmem⟩
    unfold Queue.call
    dsimp only
    rw [hitems, List.takeWhile_cons_of_neg (by simpa using hlt),
      List.dropWhile_cons_of_neg (by simpa using hlt)]
    rfl

/-- A handler that only adds later timers leaves its own first. -/
theorem handler_first (adds : List Add) (hf : Fresh w.zsl ran q) (hitems : q.items = e :: rest)
    (hlater : ∀ a ∈ adds, e.score < addU32 a.msec a.clock) (hrun : run addTimer w adds = some w₁) :
    ∃ q₁ rest₁, Fresh w₁.zsl ran q₁ ∧ q₁.items = e :: rest₁ ∧ w₁.ran = w.ran := by
  induction adds generalizing w q rest with
  | nil =>
      obtain rfl := Option.some.inj hrun
      exact ⟨q, rest, hf, hitems, rfl⟩
  | cons a adds ih =>
      obtain ⟨w₂, hadd, hrest⟩ := Option.bind_eq_some_iff.mp hrun
      obtain ⟨hf₂, hran, -⟩ := hf.add hadd
      obtain ⟨rest₂, hitems₂⟩ := insert_after a.handler hitems
        (hlater a List.mem_cons_self)
      obtain ⟨q₁, rest₁, hf₁, hitems₁, hran₁⟩ := ih hf₂ hitems₂
        (fun b hb => hlater b (List.mem_cons_of_mem _ hb)) hrest
      exact ⟨q₁, rest₁, hf₁, hitems₁, hran₁.trans hran⟩

theorem handler_displaced (adds : List Add) (hf : Fresh w.zsl ran q) (h : Displaced q e)
    (hrun : run addTimer w adds = some w₁) : ∃ q₁, Fresh w₁.zsl ran q₁ ∧ Displaced q₁ e := by
  induction adds generalizing w q with
  | nil => exact ⟨q, Option.some.inj hrun ▸ hf, h⟩
  | cons a adds ih =>
      obtain ⟨w₂, hadd, hrest⟩ := Option.bind_eq_some_iff.mp hrun
      have hid : e.id < q.next := by
        obtain ⟨d, tl, hitems, -, hmem⟩ := h
        exact (ids_of_holds hf.holds).2 e (hitems ▸ List.mem_cons_of_mem _ hmem)
      exact ih (hf.add hadd).1 (h.insert hid) hrest

/-- A handler that adds a timer that is not later puts it before its own. -/
theorem handler_not_first (adds : List Add) (hf : Fresh w.zsl ran q)
    (hitems : q.items = e :: rest) (ha : a ∈ adds) (hle : addU32 a.msec a.clock ≤ e.score)
    (hrun : run addTimer w adds = some w₁) : ∃ q₁, Fresh w₁.zsl ran q₁ ∧ Displaced q₁ e := by
  induction adds generalizing w q rest with
  | nil => exact absurd ha List.not_mem_nil
  | cons b adds ih =>
      obtain ⟨w₂, hadd, hrest⟩ := Option.bind_eq_some_iff.mp hrun
      have hf₂ := (hf.add hadd).1
      have hid := (ids_of_holds hf.holds).2 e (hitems ▸ List.mem_cons_self)
      by_cases hb : addU32 b.msec b.clock ≤ e.score
      · exact handler_displaced adds hf₂ (insert_before hitems hb hid) hrest
      · obtain ⟨rest₂, hitems₂⟩ := insert_after b.handler hitems (Nat.not_le.mp hb)
        refine ih hf₂ hitems₂ ((List.mem_cons.mp ha).resolve_left fun hab => ?_) hrest
        exact hb (hab ▸ hle)

/-! ## One round -/

theorem nextDue_spec (hh : Holds w.zsl q) (h : nextDue w now = some (some x)) :
    ∃ e rest, q.items = e :: rest ∧ e.id = x ∧ e.score ≤ now := by
  unfold nextDue at h
  rw [min_of_holds hh] at h
  cases hitems : q.items with
  | nil =>
      rw [hitems] at h
      exact absurd (Option.some.inj h) nofun
  | cons e rest =>
      rw [hitems] at h
      have hscore := score_of_holds hh (hitems ▸ List.mem_cons_self)
      simp only [List.head?_cons, Option.map_some, Option.bind_eq_bind, Option.bind_some,
        hscore] at h
      split at h
      · exact absurd (Option.some.inj h) nofun
      · rename_i hdue
        exact ⟨e, rest, rfl, Option.some.inj (Option.some.inj h), Nat.not_lt.mp hdue⟩

theorem expireRound_due (h : expireRound w now adds = some w')
    (hdue : nextDue w now = some (some x)) :
    ∃ w₁ s', runHandler w x adds = some w₁ ∧ zslDeleteHead w₁.zsl = some s' ∧
      w' = { w₁ with zsl := s' } := by
  unfold expireRound at h
  simp only [hdue, Option.bind_eq_bind, Option.bind_some] at h
  obtain ⟨w₁, hrun, h⟩ := Option.bind_eq_some_iff.mp h
  obtain ⟨s', hdel, h⟩ := Option.bind_eq_some_iff.mp h
  exact ⟨w₁, s', hrun, hdel, (Option.some.inj h).symm⟩

/-- A round whose handler only adds later timers takes out the timer that has run. -/
theorem round_first (hf : Fresh w.zsl w.ran q) (hdue : nextDue w now = some (some x))
    (hlater : ∀ sx, score w.zsl.heap x = some sx → ∀ a ∈ adds, sx < addU32 a.msec a.clock)
    (hround : expireRound w now adds = some w') :
    ∃ (w₁ : Timers) (l : List Nat), runHandler w x adds = some w₁ ∧
      w₁.zsl.chain 0 = some (x :: l) ∧ w'.zsl.chain 0 = some l ∧
      ∃ q', Fresh w'.zsl w'.ran q' := by
  obtain ⟨e, rest, hitems, rfl, hle⟩ := nextDue_spec hf.holds hdue
  obtain ⟨w₁, s', hrun, hdel, rfl⟩ := expireRound_due hround hdue
  have hscore := score_of_holds hf.holds (hitems ▸ List.mem_cons_self)
  obtain ⟨q₁, rest₁, hf₁, hitems₁, hran₁⟩ :=
    handler_first (w := { w with ran := e.id :: w.ran }) adds hf hitems
      (fun a ha => hlater e.score hscore a ha) hrun
  have hran₁ : w₁.ran = e.id :: w.ran := hran₁
  have htail : (q₁.call .deleteHead).items = rest₁ := congrArg List.tail hitems₁
  have hh' := deleteHead_holds hf₁.holds hdel
  have hids := ids_of_holds hf₁.holds
  rw [hitems₁, List.map_cons, List.nodup_cons] at hids
  obtain ⟨⟨hnot, -⟩, hlt⟩ := hids
  refine ⟨w₁, rest₁.map Entry.id, hrun, ?_, ?_, q₁.call .deleteHead, hh', ?_, ?_⟩
  · rw [chain_of_holds hf₁.holds, hitems₁]
    rfl
  · rw [chain_of_holds hh', htail]
  · intro d hd hmem
    rw [htail] at hd
    rw [hran₁] at hmem
    rcases List.mem_cons.mp hmem with heq | hmem
    · exact hnot (heq ▸ List.mem_map_of_mem hd)
    · exact hf₁.pending d (hitems₁ ▸ List.mem_cons_of_mem _ hd) hmem
  · intro y hy
    rw [hran₁] at hy
    rcases List.mem_cons.mp hy with rfl | hy
    · exact hlt e List.mem_cons_self
    · exact hf₁.past y hy

/-- A round whose handler adds a timer that is not later takes another timer out. -/
theorem round_other (hf : Fresh w.zsl w.ran q) (hdue : nextDue w now = some (some x)) {sx : Nat}
    (hsx : score w.zsl.heap x = some sx) (ha : a ∈ adds) (hle : addU32 a.msec a.clock ≤ sx)
    (hround : expireRound w now adds = some w') :
    ∃ (w₁ : Timers) (y : Nat) (l : List Nat), runHandler w x adds = some w₁ ∧ y ≠ x ∧ y ∉ l ∧
      w₁.zsl.chain 0 = some (y :: l) ∧ w'.zsl.chain 0 = some l := by
  obtain ⟨e, rest, hitems, rfl, -⟩ := nextDue_spec hf.holds hdue
  obtain ⟨w₁, s', hrun, hdel, rfl⟩ := expireRound_due hround hdue
  have hscore := score_of_holds hf.holds (hitems ▸ List.mem_cons_self)
  rw [Option.some.inj (hsx.symm.trans hscore)] at hle
  obtain ⟨q₁, hf₁, d, tl, hitems₁, hne, -⟩ := handler_not_first
    (w := { w with ran := e.id :: w.ran }) adds ⟨hf.holds, hf.pending, hf.past⟩ hitems ha hle hrun
  have htail : (q₁.call .deleteHead).items = tl := congrArg List.tail hitems₁
  have hids := (ids_of_holds hf₁.holds).1
  rw [hitems₁, List.map_cons, List.nodup_cons] at hids
  refine ⟨w₁, d.id, tl.map Entry.id, hrun, hne, hids.1, ?_, ?_⟩
  · rw [chain_of_holds hf₁.holds, hitems₁]
    rfl
  · rw [chain_of_holds (deleteHead_holds hf₁.holds hdel), htail]

theorem roundRight_iff (hf : Fresh w.zsl w.ran q) (hstep : timerStep w op = some w') :
    RoundRight w op ↔ Later w op := by
  cases op with
  | round adds =>
      obtain ⟨now, hnow, hround⟩ := Option.bind_eq_some_iff.mp hstep
      constructor
      · intro hright now₁ x sx hnow₁ hdue hsx a ha
        obtain rfl := Option.some.inj (hnow.symm.trans hnow₁)
        by_contra hnot
        obtain ⟨w₁, y, l, hrun, hne, hy, hl₁, hl⟩ :=
          round_other hf hdue hsx ha (Nat.not_lt.mp hnot) hround
        obtain ⟨-, w₂, l₂, hrun₂, hl₂, -, herase⟩ := hright now x w' hnow hdue hround
        obtain rfl := Option.some.inj (hrun.symm.trans hrun₂)
        rw [hl₁, Option.some.injEq] at hl₂
        rw [hl, ← hl₂, List.erase_cons_tail (by simpa using hne), Option.some.injEq] at herase
        -- the timer that was first would still be there
        exact hy (herase ▸ List.mem_cons_self)
      · intro hlater now₁ x w₂ hnow₁ hdue hround₂
        obtain ⟨w₁, l, hrun, hl₁, hl, -⟩ :=
          round_first hf hdue (fun sx => hlater now₁ x sx hnow₁ hdue) hround₂
        obtain ⟨e, rest, hitems, rfl, -⟩ := nextDue_spec hf.holds hdue
        refine ⟨hf.pending e (hitems ▸ List.mem_cons_self), w₁, _, hrun, hl₁,
          List.mem_cons_self, ?_⟩
        rw [List.erase_cons_head, hl]
  | add a => exact Iff.rfl
  | del zn => exact Iff.rfl
  | expire clock => exact Iff.rfl

/-! ## Runs -/

theorem nextDue_isSome (now : Nat) (hh : Holds w.zsl q) : ∃ r, nextDue w now = some r := by
  unfold nextDue
  rw [min_of_holds hh]
  cases hitems : q.items with
  | nil => exact ⟨none, rfl⟩
  | cons e rest =>
      have hscore := score_of_holds hh (hitems ▸ List.mem_cons_self)
      simp only [List.head?_cons, Option.map_some, Option.bind_eq_bind, Option.bind_some, hscore]
      split
      · exact ⟨none, rfl⟩
      · exact ⟨some e.id, rfl⟩

theorem Fresh.step (hf : ∃ q, Fresh w.zsl w.ran q) (hlater : Later w op)
    (hstep : timerStep w op = some w') : ∃ q, Fresh w'.zsl w'.ran q := by
  obtain ⟨q, hf⟩ := hf
  cases op with
  | add a =>
      obtain ⟨-, hadd⟩ := Option.ite_none_right_eq_some.mp hstep
      obtain ⟨hf', hran, -⟩ := hf.add hadd
      exact ⟨_, hran ▸ hf'⟩
  | del zn =>
      obtain ⟨⟨-, hin⟩, hdel⟩ := Option.ite_none_right_eq_some.mp hstep
      obtain ⟨zsl, hzsl, rfl⟩ := Option.map_eq_some_iff.mp hdel
      have hok : Accepts w.zsl (.delete zn) := hin
      obtain ⟨s', hrun, hh⟩ := hf.holds.step hok
      obtain rfl := Option.some.inj (hzsl.symm.trans hrun)
      refine ⟨_, hh, fun e he => hf.pending e (mem_delete he), fun x hx => ?_⟩
      rw [Op.call, next_delete]
      exact hf.past x hx
  | expire clock =>
      obtain ⟨-, heq⟩ := Option.ite_none_right_eq_some.mp hstep
      obtain rfl := Option.some.inj heq
      exact ⟨q, hf⟩
  | round adds =>
      obtain ⟨now, hnow, hround⟩ := Option.bind_eq_some_iff.mp hstep
      obtain ⟨r, hr⟩ := nextDue_isSome now hf.holds
      cases r with
      | none =>
          unfold expireRound at hround
          simp only [hr, Option.bind_eq_bind, Option.bind_some, Option.some.injEq] at hround
          exact hround ▸ ⟨q, hf⟩
      | some x =>
          obtain ⟨-, -, -, -, -, q', hf'⟩ :=
            round_first hf hr (fun sx => hlater now x sx hnow hr) hround
          exact ⟨q', hf'⟩

/-- A round comes to its end, if the handler's calls are ones that can be made. -/
theorem round_returns (hf : Fresh w.zsl w.ran q) (hcalls : ∀ x, nextDue w now = some (some x) →
    Meets addTimer (fun w a => w.clock ≤ a.clock ∧ a.clock < wordSize ∧ 1 ≤ a.level ∧
      a.level ≤ maxLevel) { w with ran := x :: w.ran } adds) :
    ∃ w', expireRound w now adds = some w' := by
  obtain ⟨r, hr⟩ := nextDue_isSome now hf.holds
  unfold expireRound
  simp only [hr, Option.bind_eq_bind, Option.bind_some]
  cases r with
  | none => exact ⟨_, rfl⟩
  | some x =>
      have hadd : ∀ (w : Timers) (a : Add), (∃ q, Holds w.zsl q) →
          (w.clock ≤ a.clock ∧ a.clock < wordSize ∧ 1 ≤ a.level ∧ a.level ≤ maxLevel) →
          ∃ w', addTimer w a = some w' ∧ ∃ q, Holds w'.zsl q := by
        intro w a hh hok
        obtain ⟨q, hh⟩ := hh
        have haccepts : Accepts w.zsl (.insert a.level (addU32 a.msec a.clock) a.handler) :=
          hok.2.2
        obtain ⟨s', hrun, hh'⟩ := hh.step haccepts
        obtain ⟨r, hr, rfl⟩ := Option.map_eq_some_iff.mp hrun
        refine ⟨{ w with zsl := r.2, clock := a.clock }, ?_, _, hh'⟩
        rw [addTimer, if_pos hok, hr]
        rfl
      obtain ⟨w₁, hrun, q₁, hh₁⟩ :=
        run_meets _ hadd adds { w with ran := x :: w.ran } ⟨q, hf.holds⟩ (hcalls x hr)
      obtain ⟨s', hdel, -⟩ := hh₁.step (show Accepts w₁.zsl .deleteHead from trivial)
      have hdel : zslDeleteHead w₁.zsl = some s' := hdel
      exact ⟨{ w₁ with zsl := s' }, by simp only [runHandler, hrun, hdel, Option.bind_some]⟩

theorem initTimer_fresh (hinit : initTimer = some w) : ∃ q, Fresh w.zsl w.ran q := by
  obtain ⟨s, hs, hh⟩ := zslCreate_holds
  obtain ⟨s', hs', rfl⟩ := Option.map_eq_some_iff.mp hinit
  obtain rfl := Option.some.inj (hs.symm.trans hs')
  exact ⟨_, hh, fun e he => absurd he List.not_mem_nil, fun x hx => absurd hx List.not_mem_nil⟩

/--
Every round takes out just the timer whose handler it ran, and had not run before, if and only if
whatever a handler adds is due later than its own timer.
-/
theorem fires_once_iff {w₀ : Timers} (ops : List TimerOp) (hinit : initTimer = some w₀)
    (hrun : run timerStep w₀ ops = some w) :
    Meets timerStep RoundRight w₀ ops ↔ Meets timerStep Later w₀ ops := by
  have hinv : ∀ s op s', (∃ q, Fresh s.zsl s.ran q) → Later s op → timerStep s op = some s' →
      ∃ q, Fresh s'.zsl s'.ran q := fun _ _ _ hf hlater hstep => Fresh.step hf hlater hstep
  refine meets_iff_of_run _ (fun s op s' hf hstep => ?_) hinv ops (initTimer_fresh hinit) hrun
  obtain ⟨q, hf⟩ := hf
  exact roundRight_iff hf hstep

/-- A timer that arms another for a millisecond later. -/
def armsLater : List TimerOp :=
  [.add ⟨1, 5, 0, 1⟩, .expire 5, .round [⟨2, 1, 5, 2⟩], .round []]

theorem fires_once_armsLater : ∃ w₀ w, initTimer = some w₀ ∧
    run timerStep w₀ armsLater = some w ∧
      (Meets timerStep RoundRight w₀ armsLater ↔ Meets timerStep Later w₀ armsLater) := by
  have hgoes : (initTimer.bind fun w₀ => run timerStep w₀ armsLater).isSome := by decide +kernel
  obtain ⟨w, hw⟩ := Option.isSome_iff_exists.mp hgoes
  obtain ⟨w₀, hinit, hrun⟩ := Option.bind_eq_some_iff.mp hw
  exact ⟨w₀, w, hinit, hrun, fires_once_iff armsLater hinit hrun⟩

/-- A timer that arms another with no delay is run again in the next round. -/
theorem round_runs_twice : ¬ ∀ ops w₀ w, initTimer = some w₀ → run timerStep w₀ ops = some w →
    w.ran.Nodup := by
  intro h
  have hgoes : (initTimer.bind fun w₀ => run timerStep w₀ [.add ⟨1, 5, 0, 1⟩, .expire 5,
      .round [⟨1, 0, 5, 2⟩], .round []]).any (fun w => decide (w.ran = [1, 1])) := by
    decide +kernel
  obtain ⟨w, hw, hran⟩ := (Option.any_eq_true _ _).mp hgoes
  obtain ⟨w₀, hinit, hrun⟩ := Option.bind_eq_some_iff.mp hw
  have hnodup := h _ w₀ w hinit hrun
  rw [of_decide_eq_true hran] at hnodup
  exact absurd hnodup (by decide)

end

end CppTrack.SklTimer
