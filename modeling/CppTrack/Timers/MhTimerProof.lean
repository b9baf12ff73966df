import CppTrack.Timers.MhTimer
import CppTrack.Timers.MinHeapProof

/-!
# What the timers in the min-heap do

Two things go wrong only at the edges. The sleep is a signed wrapped difference of times that
`expire_timer` and the heap compare as they are, so the two agree as long as the timer at the top
is within half a turn of the clock. And `expire_timer` pops whatever is at the top when the
handler returns, so a round is right if and only if that is still the timer it has fired.
-/

namespace CppTrack.TimerHeap

open Lib

section

variable {w w' w₁ : World} {e te msec clock cur : Nat} {c : Call}

/-! ## One call -/

/-- The top is an entry with the least time. -/
theorem Valid.top (hv : Valid w) :
    w.heap.contents = [] ∧ minHeapTop w.heap = some none ∨
      ∃ te, minHeapTop w.heap = some (some te) ∧ te ∈ w.heap.contents ∧
        ∀ x ∈ w.heap.contents, w.heap.time te ≤ w.heap.time x := by
  obtain ⟨f, hs⟩ := hv.shape
  have hnil := contents_eq_nil_iff hs.around
  unfold minHeapTop
  by_cases h₀ : w.heap.n = 0
  · exact .inl ⟨hnil.mpr h₀, if_neg (fun h => h h₀)⟩
  · have hpos : 0 < w.heap.n := Nat.pos_of_ne_zero h₀
    refine .inr ⟨f 0, ?_, hs.around.mem_contents.mpr ⟨0, hpos, rfl⟩, fun x hx => ?_⟩
    · rw [if_pos h₀, hs.around.slot_eq hpos (by omega)]
      rfl
    · obtain ⟨i, hi, rfl⟩ := hs.around.mem_contents.mp hx
      exact hs.heap.top_le i hi

/-- New memory may be written. -/
theorem Valid.cleared (hv : Valid w) (he : e ∉ w.known) :
    Valid { w with heap := w.heap.cleared e } := by
  have hout : e ∉ w.heap.contents := fun h => he (hv.inside e h)
  have hentry : ∀ x, x ≠ e → (w.heap.cleared e).entry x = w.heap.entry x :=
    fun x hx => Function.update_of_ne hx ..
  obtain ⟨f, hs⟩ := hv.shape
  have hne : ∀ i, i < w.heap.n → f i ≠ e :=
    fun i hi h => hout (hs.around.mem_contents.mpr ⟨i, hi, h⟩)
  refine Shape.valid (w := { w with heap := w.heap.cleared e }) (f := f) ⟨⟨hs.around.cap,
    hs.around.slot, fun i hi hin => ?_⟩, fun i h₀ hi => ?_⟩ hv.small (fun x hx hnot => ?_) hv.inside
  · show ((w.heap.cleared e).entry (f i)).minHeapIdx = i
    rw [hentry _ (hne i hi)]
    exact hs.around.back i hi hin
  · have hlt := parent_lt h₀
    have hi' : i < w.heap.n := hi
    show ((w.heap.cleared e).entry _).time ≤ ((w.heap.cleared e).entry _).time
    rw [hentry _ (hne i hi'), hentry _ (hne (parent i) (by omega))]
    exact hs.heap i h₀ hi
  · have hx' : x ∈ w.known := hx
    show ((w.heap.cleared e).entry x).minHeapIdx = noIdx
    rw [hentry x fun h => he (h ▸ hx')]
    exact hv.absent x hx' hnot

/-- `add_timer` adds the timer. -/
theorem addTimer_effect (msec clock : Nat) (hv : Valid w) (he : e ∉ w.known)
    (hn : w.heap.n + 1 < 2 ^ 31) :
    ∃ w', addTimer w e msec clock = some w' ∧ Valid w' ∧
      w'.heap.contents.Perm (e :: w.heap.contents) ∧
      ∀ x, w'.heap.time x = if x = e then addU32 clock msec else w.heap.time x := by
  have hout : e ∉ w.heap.contents := fun h => he (hv.inside e h)
  obtain ⟨r, w', hrun, hv', ⟨-, hperm⟩, htime⟩ :=
    push_effect (t := addU32 clock msec) (hv.cleared he) hout hn
  refine ⟨w', by rw [addTimer, step, hrun]; rfl, hv', hperm, fun x => ?_⟩
  rw [htime]
  show (if x = e then _ else (w.heap.cleared e).time x) = _
  split
  · rfl
  · rename_i hx
    exact congrArg TimerEntry.time (Function.update_of_ne hx ..)

/-- `del_timer` takes a timer out, if it is in. -/
theorem delTimer_effect (hv : Valid w) (he : e ∈ w.known) :
    ∃ w', delTimer w e = some w' ∧ Valid w' ∧
      (∀ x ∈ w'.heap.contents, x ∈ w.heap.contents) ∧ ∀ x, w'.heap.time x = w.heap.time x := by
  obtain ⟨r, w', hrun, hv', hchanges, htime⟩ := erase_effect hv he
  refine ⟨w', by rw [delTimer, step, hrun]; rfl, hv', fun x hx => ?_, htime⟩
  simp only [Changes] at hchanges
  split at hchanges
  · exact hchanges.2.mem_iff.mpr (List.mem_cons_of_mem _ hx)
  · exact hchanges.2 ▸ hx

theorem Valid.call (hv : Valid w) (hcall : call w c = some w') : Valid w' := by
  cases c with
  | add e msec clock =>
      obtain ⟨⟨he, hn⟩, hadd⟩ := Option.ite_none_right_eq_some.mp hcall
      obtain ⟨w'', hadd', hv', -⟩ := addTimer_effect msec clock hv he hn
      exact Option.some.inj (hadd'.symm.trans hadd) ▸ hv'
  | del e =>
      obtain ⟨he, hdel⟩ := Option.ite_none_right_eq_some.mp hcall
      obtain ⟨w'', hdel', hv', -⟩ := delTimer_effect hv he
      exact Option.some.inj (hdel'.symm.trans hdel) ▸ hv'

/-! ## Sleep and expiry -/

/-- Every time in the heap is a `uint32_t`. -/
def Words (w : World) : Prop := ∀ x ∈ w.heap.contents, w.heap.time x < wordSize

theorem Words.call (hw : Words w) (hv : Valid w) (hcall : TimerHeap.call w c = some w') :
    Words w' := by
  cases c with
  | add e msec clock =>
      obtain ⟨⟨he, hn⟩, hadd⟩ := Option.ite_none_right_eq_some.mp hcall
      obtain ⟨w'', hadd', -, hperm, htime⟩ :=
        addTimer_effect msec clock hv he hn
      obtain rfl := Option.some.inj (hadd'.symm.trans hadd)
      intro x hx
      rw [htime]
      split
      · exact addU32_lt clock msec
      · rename_i hne
        exact hw x ((List.mem_cons.mp (hperm.mem_iff.mp hx)).resolve_left hne)
  | del e =>
      obtain ⟨he, hdel⟩ := Option.ite_none_right_eq_some.mp hcall
      obtain ⟨w'', hdel', -, hsub, htime⟩ := delTimer_effect hv he
      obtain rfl := Option.some.inj (hdel'.symm.trans hdel)
      intro x hx
      rw [htime]
      exact hw x (hsub x hx)

/-- The wrapped difference of two words, as an `int`. -/
theorem int32_subU32 {a b : Nat} (ha : a < wordSize) (hb : b < wordSize) :
    (b ≤ a → a - b < 2 ^ 31 → int32 (subU32 a b) = a - b) ∧
      (b ≤ a → 2 ^ 31 ≤ a - b → int32 (subU32 a b) < 0) ∧
      (a < b → b - a ≤ 2 ^ 31 → int32 (subU32 a b) < 0) ∧
      (a < b → 2 ^ 31 < b - a → 0 < int32 (subU32 a b)) := by
  unfold int32 subU32
  rw [wordSize_eq] at *
  omega

theorem fires_iff (htop : minHeapTop w.heap = some (some te)) :
    Fires w.heap cur ↔ w.heap.time te ≤ cur := by
  unfold Fires nextExpired
  rw [htop]
  simp only [Option.bind_eq_bind, Option.bind_some]
  split
  · rename_i hlate
    refine iff_of_false (fun ⟨te', h⟩ => ?_) (Nat.not_le.mpr hlate)
    exact absurd (Option.some.inj h) nofun
  · rename_i hdue
    exact iff_of_true ⟨te, rfl⟩ (Nat.not_lt.mp hdue)

theorem agrees_iff (hv : Valid w) (hw : Words w) {now : Nat} (hnow : now < wordSize) :
    Agrees w.heap now ↔ SleepFits w.heap now := by
  rcases hv.top with ⟨hnil, htop⟩ | ⟨te, htop, hmem, -⟩
  · have hfind : findNearestExpireTimer w.heap now = some (-1) := by
      unfold findNearestExpireTimer
      rw [htop]
      rfl
    have hfires : ¬ Fires w.heap now := by
      rintro ⟨te, h⟩
      unfold nextExpired at h
      rw [htop] at h
      exact absurd (Option.some.inj h) nofun
    refine iff_of_true ⟨-1, hfind, iff_of_false nofun hfires, iff_of_true rfl hnil,
      fun h => absurd hnil h⟩ fun te h => ?_
    rw [htop] at h
    exact absurd (Option.some.inj h) nofun
  · have hne : w.heap.contents ≠ [] := List.ne_nil_of_mem hmem
    have hword := hw te hmem
    obtain ⟨hahead, hfar, hbehind, hlong⟩ := int32_subU32 hword hnow
    have hfind : findNearestExpireTimer w.heap now =
        some (if int32 (subU32 (w.heap.time te) now) > 0 then
          int32 (subU32 (w.heap.time te) now) else 0) := by
      unfold findNearestExpireTimer
      rw [htop]
      rfl
    unfold Agrees SleepFits
    simp only [htop, Option.some.injEq, forall_eq', fires_iff htop, hfind, exists_eq_left', hne,
      iff_false, ne_eq, not_false_eq_true, true_implies]
    generalize int32 (subU32 (w.heap.time te) now) = diff at *
    constructor
    · rintro ⟨hzero, -⟩
      -- The answer is 0 just when the difference is not positive.
      constructor
      · intro hle
        by_contra hlt
        have hpos := hlong (by omega) (by omega)
        rw [if_pos hpos] at hzero
        omega
      · intro hlt
        by_contra hge
        have hneg := hfar (by omega) (by omega)
        rw [if_neg (by omega)] at hzero
        omega
    · rintro ⟨hpast, hfuture⟩
      by_cases hle : w.heap.time te ≤ now
      · have hneg : ¬ diff > 0 := by
          have := hpast hle
          rcases Nat.lt_or_ge (w.heap.time te) now with hlt | hge
          · have := hbehind hlt (by omega)
            omega
          · have := hahead hge (by omega)
            omega
        rw [if_neg hneg]
        refine ⟨by omega, by omega, 0, rfl, ?_, fun d' hd' => absurd hd' (Nat.not_lt_zero d')⟩
        unfold addU32
        rw [wordSize_eq] at *
        omega
      · have hfit := hfuture (by omega)
        have hdiff := hahead (by omega) hfit
        rw [if_pos (by omega)]
        refine ⟨by omega, by omega, w.heap.time te - now, by omega, ?_, fun d' hd' => ?_⟩
        · unfold addU32
          rw [wordSize_eq] at *
          omega
        · unfold addU32
          rw [wordSize_eq] at *
          omega

end

/-- **Sleep and expiry agree if and only if the timer at the top is within half a turn of the
clock.** That is for any timers added and deleted at any times, and any time. -/
theorem sleep_agrees_iff (entry : Nat → TimerEntry) (calls : List Call) (w : World) (now : Nat)
    (hrun : run call (start entry) calls = some w) (hnow : now < wordSize) :
    Agrees w.heap now ↔ SleepFits w.heap now := by
  have hkeeps : ∀ w c w', Valid w ∧ Words w → call w c = some w' → Valid w' ∧ Words w' := by
    intro w c w' h hcall
    exact ⟨h.1.call hcall, h.2.call h.1 hcall⟩
  have h := run_keeps hkeeps calls
    ⟨start_valid entry, fun x hx => absurd hx List.not_mem_nil⟩ hrun
  exact agrees_iff h.1 h.2 hnow

/-- Three timers, of which one is deleted and one lies past the wrap of the clock. -/
def threeTimers : List Call := [.add 1 100 4294967290, .add 2 50 1000, .add 3 7 1000, .del 3]

theorem sleep_agrees_three : ∃ w, run call (start fun _ => ⟨0, 0⟩) threeTimers = some w ∧
    (Agrees w.heap 1005 ↔ SleepFits w.heap 1005) := by
  obtain ⟨w, hrun⟩ := Option.isSome_iff_exists.mp
    (show (run call (start fun _ => ⟨0, 0⟩) threeTimers).isSome by decide +kernel)
  exact ⟨w, hrun, sleep_agrees_iff _ threeTimers w 1005 hrun (by decide)⟩

/-- A timer set for a month. Its time is more than half a turn ahead, so `expire_timer` would not
fire it, but the sleep is 0. -/
theorem sleep_disagrees :
    ¬ ∀ (entry : Nat → TimerEntry) (calls : List Call) (w : World) (now : Nat),
      run call (start entry) calls = some w → now < wordSize → Agrees w.heap now := by
  intro h
  obtain ⟨w, hrun, hw⟩ := (Option.any_eq_true _ _).mp
    (show (run call (start fun _ => ⟨0, 0⟩) [.add 1 2592000000 0]).any
      (fun w => decide (findNearestExpireTimer w.heap 0 = some 0 ∧
        nextExpired w.heap 0 = some none)) by decide +kernel)
  obtain ⟨hfind, hnext⟩ := of_decide_eq_true hw
  obtain ⟨r, hr, hzero, -⟩ := h _ _ w 0 hrun (by decide)
  obtain ⟨te, hfires⟩ := hzero.mp (Option.some.inj (hr.symm.trans hfind))
  exact absurd (hnext.symm.trans hfires) nofun

/-! ## Handlers that use the timers -/

section

variable {w w' w₁ : World} {e te cur : Nat} {calls : List Call} {op : TimerOp}

theorem Valid.handler (hv : Valid w) (hrun : run TimerHeap.call w calls = some w') : Valid w' :=
  run_keeps (fun _ _ _ hv hcall => hv.call hcall) calls hv hrun

/-- What is popped is what was at the top. -/
theorem top_of_pop {s s' : MinHeap} (h : minHeapPop s = some (some e, s')) :
    minHeapTop s = some (some e) := by
  unfold minHeapPop at h
  unfold minHeapTop
  split at h
  · rename_i hn
    rw [if_pos hn]
    obtain ⟨x, hx, h⟩ := Option.bind_eq_some_iff.mp h
    obtain ⟨last, -, h⟩ := Option.bind_eq_some_iff.mp h
    obtain ⟨s'', -, h⟩ := Option.bind_eq_some_iff.mp h
    obtain ⟨hxe, -⟩ := Prod.mk.inj (Option.some.inj h)
    rw [hx, hxe]
    rfl
  · exact absurd (Prod.mk.inj (Option.some.inj h)).1 nofun

/-- After the handler the top is taken out, whatever it is. -/
theorem afterHandler_effect (hv : Valid w) (te : Nat) :
    ∃ w', afterHandler w te = some w' ∧
      (∀ x, x ∈ w'.known ↔ x ∈ w.known ∧ x ≠ te) ∧
      (∀ x ∈ w'.known, x ∉ w'.heap.contents → w'.heap.idx x = noIdx) ∧
      Valid { w' with known := w.known } ∧
      (w.heap.contents = [] ∧ w'.heap.contents = [] ∨
        ∃ p, minHeapTop w.heap = some (some p) ∧
          w.heap.contents.Perm (p :: w'.heap.contents)) := by
  obtain ⟨r, w₂, hpop, hv₂, hchanges, -⟩ := pop_effect hv
  have hexec := hpop
  unfold exec at hexec
  obtain ⟨x, hx, heq⟩ := Option.map_eq_some_iff.mp hexec
  obtain ⟨hret, rfl⟩ := Prod.mk.inj heq
  refine ⟨freed { w with heap := x.2 } te, by rw [afterHandler, step, hpop]; rfl, fun y => ?_,
    fun y hy hnot => ?_, hv₂, ?_⟩
  · simp [freed, List.mem_filter]
  · have hknown : y ∈ w.known := (List.mem_filter.mp hy).1
    exact hv₂.absent y hknown hnot
  · simp only [Changes] at hchanges
    split at hchanges
    · rename_i hnil
      exact .inl ⟨hnil, hchanges.2⟩
    · obtain ⟨p, hp, hperm, -⟩ := hchanges
      have hsome : x.1 = some p := Ret.entry.inj (hret.trans hp)
      have hpopped : minHeapPop w.heap = some (some p, x.2) := by rw [hx, ← hsome]
      exact .inr ⟨p, top_of_pop hpopped, hperm⟩

theorem expireOnce_fired (h : expireOnce w cur calls = some (some te, w')) :
    nextExpired w.heap cur = some (some te) ∧
      ∃ w₁, run call w calls = some w₁ ∧ afterHandler w₁ te = some w' := by
  unfold expireOnce at h
  obtain ⟨next, hnext, h⟩ := Option.bind_eq_some_iff.mp h
  cases next with
  | none => exact absurd (Prod.mk.inj (Option.some.inj h)).1 nofun
  | some x =>
      obtain ⟨w₁, hrun, h⟩ := Option.bind_eq_some_iff.mp h
      obtain ⟨w₂, hafter, h⟩ := Option.bind_eq_some_iff.mp h
      obtain ⟨hx, rfl⟩ := Prod.mk.inj (Option.some.inj h)
      obtain rfl := Option.some.inj hx
      exact ⟨hnext, w₁, hrun, hafter⟩

theorem expireOnce_eq (hnext : nextExpired w.heap cur = some (some te))
    (hrun : run call w calls = some w₁) (hafter : afterHandler w₁ te = some w') :
    expireOnce w cur calls = some (some te, w') := by
  unfold expireOnce
  rw [hnext]
  simp only [Option.bind_eq_bind, Option.bind_some, hrun, hafter]

/-- A timer that is at the top when its handler returns is the one that goes. -/
theorem round_right_iff (hv : Valid w) : RoundRight w op ↔ KeepsTop w op := by
  cases op with
  | call c => exact Iff.rfl
  | expire cur calls =>
      constructor
      · intro hright te w₁ hnext hrun
        have hv₁ := hv.handler hrun
        obtain ⟨w', hafter, -, -, hv', hcases⟩ := afterHandler_effect hv₁ te
        obtain ⟨w₁', hrun', hout, hothers, -⟩ := hright te w' (expireOnce_eq hnext hrun hafter)
        obtain rfl := Option.some.inj (hrun.symm.trans hrun')
        rcases hcases with ⟨hnil, -⟩ | ⟨p, htop, hperm⟩
        · exact .inr hnil
        · -- Were it another one that was popped, then that one would be missing.
          left
          by_cases hp : p = te
          · rw [htop, hp]
          · obtain ⟨f, hs⟩ := hv₁.shape
            have hnodup := hperm.nodup_iff.mp hs.around.nodup
            have hgone := (List.nodup_cons.mp hnodup).1
            have hwas := hperm.mem_iff.mpr List.mem_cons_self
            exact absurd ((hothers p hp).mpr hwas) hgone
      · intro hkeeps te w' hfired
        obtain ⟨hnext, w₁, hrun, hafter⟩ := expireOnce_fired hfired
        have hv₁ := hv.handler hrun
        obtain ⟨w'', hafter', hknown, -, hv', hcases⟩ := afterHandler_effect hv₁ te
        obtain rfl := Option.some.inj (hafter.symm.trans hafter')
        have hin : ∀ x, x ≠ te → x ∈ w'.heap.contents → x ∈ w'.known :=
          fun x hx hmem => (hknown x).mpr ⟨hv'.inside x hmem, hx⟩
        rcases hcases with ⟨hnil, hnil'⟩ | ⟨p, htop, hperm⟩
        · refine ⟨w₁, hrun, ?_, fun x _ => by rw [hnil, hnil'], fun x hx => ?_⟩
          · rw [hnil']
            exact List.not_mem_nil
          · rw [hnil'] at hx
            exact absurd hx List.not_mem_nil
        · have hp : p = te := by
            rcases hkeeps te w₁ hnext hrun with htop' | hnil
            · exact Option.some.inj (Option.some.inj (htop.symm.trans htop'))
            · exact absurd (hnil ▸ hperm.mem_iff.mpr List.mem_cons_self) List.not_mem_nil
          subst hp
          obtain ⟨f, hs⟩ := hv₁.shape
          have hgone := (List.nodup_cons.mp (hperm.nodup_iff.mp hs.around.nodup)).1
          refine ⟨w₁, hrun, hgone, fun x hx => ?_, fun x hx => hin x (fun h => hgone (h ▸ hx)) hx⟩
          rw [hperm.mem_iff, List.mem_cons]
          exact ⟨.inr, fun h => h.resolve_left hx⟩

/-- A right round leaves a heap in order. -/
theorem Valid.round (hv : Valid w) (hright : RoundRight w op) (hstep : timerStep w op = some w') :
    Valid w' := by
  cases op with
  | call c => exact hv.call hstep
  | expire cur calls =>
      obtain ⟨⟨fired, w''⟩, hround, rfl⟩ := Option.map_eq_some_iff.mp hstep
      cases fired with
      | none =>
          unfold expireOnce at hround
          obtain ⟨next, hnext, h⟩ := Option.bind_eq_some_iff.mp hround
          cases next with
          | none =>
              obtain ⟨-, rfl⟩ := Prod.mk.inj (Option.some.inj h)
              exact hv
          | some x =>
              obtain ⟨w₁, hrun, h⟩ := Option.bind_eq_some_iff.mp h
              obtain ⟨w₂, hafter, h⟩ := Option.bind_eq_some_iff.mp h
              exact absurd (Prod.mk.inj (Option.some.inj h)).1 nofun
      | some te =>
          obtain ⟨w₁, hrun, -, -, hlive⟩ := hright te w'' hround
          obtain ⟨-, w₁', hrun', hafter⟩ := expireOnce_fired hround
          obtain ⟨w₂, hafter', hknown, habsent, hv', -⟩ :=
            afterHandler_effect (hv.handler hrun') te
          obtain rfl := Option.some.inj (hafter.symm.trans hafter')
          obtain ⟨f, hs⟩ := hv'.shape
          exact Shape.valid hs hv'.small habsent hlive

end

/-- **The rounds of `expire_timer` are right if and only if each handler leaves its timer at the
top, or the heap empty.** That is for any timers, and any handlers that add and delete timers. -/
theorem rounds_right_iff (entry : Nat → TimerEntry) (ops : List TimerOp) :
    Meets timerStep RoundRight (start entry) ops ↔ Meets timerStep KeepsTop (start entry) ops :=
  meets_iff RoundRight (fun _ _ hv => round_right_iff hv)
    (fun _ _ _ hv hkeeps hstep => hv.round ((round_right_iff hv).mpr hkeeps) hstep) ops
    (start_valid entry)

/-- The handler of a timer adds one that is due earlier, which is popped in its place. -/
theorem round_wrong :
    ¬ ∀ (entry : Nat → TimerEntry) (ops : List TimerOp),
      Meets timerStep RoundRight (start entry) ops := by
  intro h
  have hround := h (fun _ => ⟨0, 0⟩) [.call (.add 1 5 0), .expire 10 [.add 2 0 3]]
  obtain ⟨w, hcall, hw⟩ := (Option.any_eq_true _ _).mp
    (show (timerStep (start fun _ => ⟨0, 0⟩) (.call (.add 1 5 0))).any
      (fun w => (expireOnce w 10 [.add 2 0 3]).any fun r =>
        decide (r.1 = some 1 ∧ 1 ∈ r.2.heap.contents)) by decide +kernel)
  obtain ⟨⟨fired, w'⟩, hexpire, hw'⟩ := (Option.any_eq_true _ _).mp hw
  obtain ⟨rfl, hmem⟩ := of_decide_eq_true hw'
  obtain ⟨w₁, -, hout, -⟩ := (hround.2 w hcall).1 1 w' hexpire
  exact hout hmem

end CppTrack.TimerHeap
