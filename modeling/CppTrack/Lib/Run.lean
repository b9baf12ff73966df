import Mathlib.Data.List.Basic

/-!
# Runs of a partial step function

A program driven from outside is a step function `σ → ι → Option σ`: one call
`i` of its interface takes the state on, or gets stuck (`none`) when the call
never returns or does something the language leaves undefined. A run is a list
of calls.

Everything proved about such a program here has one of two shapes. Either every
call is safe from every state satisfying an invariant, or it is safe only when
the call meets a condition in the state it is made from; `Meets` says the latter
of a whole run. Both are one induction, made once in `run_meets`.
-/

namespace CppTrack.Lib

variable {σ ι : Type*}

/-- Make the calls of `is` one after another. -/
def run (step : σ → ι → Option σ) : σ → List ι → Option σ
  | s, [] => some s
  | s, i :: is => (step s i).bind (fun s' => run step s' is)

/-- Every call of the run meets `ok` in the state it is made from. -/
def Meets (step : σ → ι → Option σ) (ok : σ → ι → Prop) : σ → List ι → Prop
  | _, [] => True
  | s, i :: is => ok s i ∧ ∀ s', step s i = some s' → Meets step ok s' is

variable {step : σ → ι → Option σ} (ok : σ → ι → Prop) {Inv : σ → Prop}

/-- A run can be checked by making it. -/
def Meets.decide [∀ s i, Decidable (ok s i)] : (is : List ι) → (s : σ) →
    Decidable (Meets step ok s is)
  | [], _ => .isTrue trivial
  | i :: is, s =>
      match hs : step s i with
      | none => decidable_of_iff (ok s i) (by simp [Meets, hs])
      | some s' =>
          have := Meets.decide is s'
          decidable_of_iff (ok s i ∧ Meets step ok s' is) (by simp [Meets, hs])

instance [∀ s i, Decidable (ok s i)] (is : List ι) (s : σ) : Decidable (Meets step ok s is) :=
  Meets.decide ok is s

/--
**The invariant rule.** If a call that meets `ok` goes through and keeps the
invariant, then a run all of whose calls meet `ok` goes through and keeps it.
-/
theorem run_meets
    (hstep : ∀ s i, Inv s → ok s i → ∃ s', step s i = some s' ∧ Inv s') :
    ∀ (is : List ι) (s : σ), Inv s → Meets step ok s is →
      ∃ s', run step s is = some s' ∧ Inv s'
  | [], s, hs, _ => ⟨s, rfl, hs⟩
  | i :: is, s, hs, hm => by
      obtain ⟨s₁, h₁, hs₁⟩ := hstep s i hs hm.1
      obtain ⟨s₂, h₂, hs₂⟩ := run_meets hstep is s₁ hs₁ (hm.2 s₁ h₁)
      exact ⟨s₂, by rw [run, h₁]; exact h₂, hs₂⟩

/--
The invariant rule where the condition is exact: a run goes through if and only if all
its calls meet it.
-/
theorem run_isSome_iff_meets
    (hstep : ∀ s i, Inv s → ok s i → ∃ s', step s i = some s' ∧ Inv s')
    (hstuck : ∀ s i, Inv s → ¬ ok s i → step s i = none) (is : List ι) (s : σ) (hs : Inv s) :
    (∃ s', run step s is = some s') ↔ Meets step ok s is := by
  constructor
  · induction is generalizing s with
    | nil => exact fun _ => trivial
    | cons i is ih =>
        rintro ⟨s', hrun⟩
        by_cases hok : ok s i
        · obtain ⟨s₁, h₁, hs₁⟩ := hstep s i hs hok
          rw [run, h₁] at hrun
          refine ⟨hok, fun s₂ h₂ => ?_⟩
          rw [h₁] at h₂
          exact Option.some.inj h₂ ▸ ih s₁ hs₁ ⟨s', hrun⟩
        · rw [run, hstuck s i hs hok] at hrun
          exact absurd hrun (by simp)
  · intro hm
    obtain ⟨s', hrun, -⟩ := run_meets ok hstep is s hs hm
    exact ⟨s', hrun⟩

/-- A condition that does not look at the state is met if every call meets it. -/
theorem meets_of_forall {fits : ι → Prop} (is : List ι) (s : σ) (h : ∀ i ∈ is, fits i) :
    Meets step (fun _ i => fits i) s is := by
  induction is generalizing s with
  | nil => trivial
  | cons i is ih =>
      refine ⟨h i List.mem_cons_self, fun s' _ => ih s' fun j hj => ?_⟩
      exact h j (List.mem_cons_of_mem i hj)

theorem Meets.and {ok' : σ → ι → Prop} (is : List ι) {s : σ} (h : Meets step ok s is)
    (h' : Meets step ok' s is) : Meets step (fun s i => ok s i ∧ ok' s i) s is := by
  induction is generalizing s with
  | nil => trivial
  | cons i is ih => exact ⟨⟨h.1, h'.1⟩, fun s₁ h₁ => ih (h.2 s₁ h₁) (h'.2 s₁ h₁)⟩

/-- A run in two parts meets a condition if both of its parts do. -/
theorem Meets.append {is js : List ι} {s : σ} (h : Meets step ok s is)
    (h' : ∀ s', run step s is = some s' → Meets step ok s' js) : Meets step ok s (is ++ js) := by
  induction is generalizing s with
  | nil => exact h' s rfl
  | cons i is ih =>
      refine ⟨h.1, fun s₁ h₁ => ih (h.2 s₁ h₁) fun s' hrun => h' s' ?_⟩
      rw [run, h₁]
      exact hrun

/-- A run meets a condition if each call meets it in the state that the calls before it reach. -/
theorem meets_iff_split (is : List ι) (s : σ) : Meets step ok s is ↔
    ∀ pre i post s', is = pre ++ i :: post → run step s pre = some s' → ok s' i := by
  induction is generalizing s with
  | nil =>
      refine iff_of_true trivial ?_
      intro pre i post s' heq
      exact absurd heq.symm (by simp)
  | cons j is ih =>
      constructor
      · intro hm pre i post s' heq hrun
        cases pre with
        | nil =>
            obtain ⟨rfl, -⟩ := List.cons.inj heq
            exact Option.some.inj hrun ▸ hm.1
        | cons k pre =>
            obtain ⟨rfl, htail⟩ := List.cons.inj heq
            obtain ⟨s₁, h₁, hrun⟩ := Option.bind_eq_some_iff.mp hrun
            exact (ih s₁).mp (hm.2 s₁ h₁) pre i post s' htail hrun
      · intro h
        refine ⟨h [] j is s rfl rfl, fun s₁ h₁ => (ih s₁).mpr ?_⟩
        intro pre i post s' heq hrun
        refine h (j :: pre) i post s' (by rw [heq]; rfl) ?_
        rw [run, h₁]
        exact hrun

/-- A condition may be met because of an invariant and of another condition. -/
theorem Meets.mono {ok' : σ → ι → Prop}
    (hinv : ∀ s i s', Inv s → ok' s i → step s i = some s' → Inv s')
    (himp : ∀ s i, Inv s → ok' s i → ok s i) (is : List ι) {s : σ} (hs : Inv s)
    (hm : Meets step ok' s is) : Meets step ok s is := by
  induction is generalizing s with
  | nil => trivial
  | cons i is ih =>
      exact ⟨himp s i hs hm.1, fun s' h => ih (hinv s i s' hs hm.1 h) (hm.2 s' h)⟩

/-- Two conditions that are the same where the invariant holds are met by the same runs. -/
theorem meets_iff {ok' : σ → ι → Prop} (hiff : ∀ s i, Inv s → (ok s i ↔ ok' s i))
    (hinv : ∀ s i s', Inv s → ok' s i → step s i = some s' → Inv s') (is : List ι) {s : σ}
    (hs : Inv s) : Meets step ok s is ↔ Meets step ok' s is :=
  ⟨Meets.mono ok' (fun s i s' hs hok => hinv s i s' hs ((hiff s i hs).mp hok))
      (fun s i hs => (hiff s i hs).mp) is hs,
    Meets.mono ok hinv (fun s i hs => (hiff s i hs).mpr) is hs⟩

/-- The same for a run that goes through, where only calls that can be made matter. -/
theorem meets_iff_of_run {ok' : σ → ι → Prop}
    (hiff : ∀ s i s', Inv s → step s i = some s' → (ok s i ↔ ok' s i))
    (hinv : ∀ s i s', Inv s → ok' s i → step s i = some s' → Inv s') (is : List ι) {s s' : σ}
    (hs : Inv s) (hrun : run step s is = some s') : Meets step ok s is ↔ Meets step ok' s is := by
  induction is generalizing s with
  | nil => exact Iff.rfl
  | cons i is ih =>
      obtain ⟨s₁, h₁, hrest⟩ := Option.bind_eq_some_iff.mp hrun
      have hhead := hiff s i s₁ hs h₁
      refine and_congr_right_iff.mpr ?_ |>.trans (and_congr_left_iff.mpr fun _ => hhead)
      intro hok
      have htail := ih (hinv s i s₁ hs (hhead.mp hok) h₁) hrest
      refine forall_congr' fun s₂ => imp_congr_right fun h₂ => ?_
      rw [h₁] at h₂
      exact Option.some.inj h₂ ▸ htail

/-- The invariant rule for the states a run reaches, where the run may also get stuck. -/
theorem run_keeps_meets
    (hstep : ∀ s i s', Inv s → ok s i → step s i = some s' → Inv s') (is : List ι) {s s' : σ}
    (hs : Inv s) (hm : Meets step ok s is) (hrun : run step s is = some s') : Inv s' := by
  induction is generalizing s with
  | nil => exact Option.some.inj hrun ▸ hs
  | cons i is ih =>
      obtain ⟨s₁, h₁, h₂⟩ := Option.bind_eq_some_iff.mp hrun
      exact ih (hstep s i s₁ hs hm.1 h₁) (hm.2 s₁ h₁) h₂

/-- The same for an invariant of every step. -/
theorem run_keeps (hstep : ∀ s i s', Inv s → step s i = some s' → Inv s') (is : List ι)
    {s s' : σ} (hs : Inv s) (hrun : run step s is = some s') : Inv s' :=
  run_keeps_meets (fun _ _ => True) (fun s i s' hs _ => hstep s i s' hs) is hs
    (meets_of_forall is s fun _ _ => trivial) hrun

/-- `P` holds in every state that the run comes through. -/
def Always (step : σ → ι → Option σ) (P : σ → Prop) (s : σ) (is : List ι) : Prop :=
  ∀ pre s', pre <+: is → run step s pre = some s' → P s'

theorem always_nil {P : σ → Prop} {s : σ} : Always step P s [] ↔ P s := by
  constructor
  · intro h
    exact h [] s (List.prefix_refl _) rfl
  · intro hs pre s' hpre hrun
    obtain rfl := List.prefix_nil.mp hpre
    exact Option.some.inj hrun ▸ hs

theorem always_cons {P : σ → Prop} {s s₁ : σ} {i : ι} {is : List ι} (h₁ : step s i = some s₁) :
    Always step P s (i :: is) ↔ P s ∧ Always step P s₁ is := by
  constructor
  · intro h
    refine ⟨h [] s List.nil_prefix rfl, fun pre s' hpre hrun => ?_⟩
    refine h (i :: pre) s' (List.cons_prefix_cons.mpr ⟨rfl, hpre⟩) ?_
    rw [run, h₁]
    exact hrun
  · rintro ⟨hs, h⟩ pre s' hpre hrun
    cases pre with
    | nil => exact Option.some.inj hrun ▸ hs
    | cons j pre =>
        obtain ⟨rfl, htail⟩ := List.cons_prefix_cons.mp hpre
        rw [run, h₁] at hrun
        exact h pre s' htail hrun

/--
What one call does to a property decides it for whole runs: if a call keeps the property just
when it meets a condition, then the property holds all along a run just when all calls meet it.
-/
theorem always_iff_meets {P : σ → Prop}
    (hinv : ∀ s i s', Inv s → step s i = some s' → Inv s')
    (hiff : ∀ s i s', Inv s → P s → step s i = some s' → (P s' ↔ ok s i)) (is : List ι) {s s' : σ}
    (hs : Inv s) (hP : P s) (hrun : run step s is = some s') :
    Always step P s is ↔ Meets step ok s is := by
  induction is generalizing s with
  | nil => exact iff_of_true (always_nil.mpr hP) trivial
  | cons i is ih =>
      obtain ⟨s₁, h₁, hrest⟩ := Option.bind_eq_some_iff.mp hrun
      have hhead := hiff s i s₁ hs hP h₁
      rw [always_cons h₁]
      constructor
      · rintro ⟨-, h⟩
        have hP₁ : P s₁ := h [] s₁ List.nil_prefix rfl
        refine ⟨hhead.mp hP₁, fun s₂ h₂ => ?_⟩
        obtain rfl : s₁ = s₂ := Option.some.inj (h₁.symm.trans h₂)
        exact (ih (hinv s i s₁ hs h₁) hP₁ hrest).mp h
      · rintro ⟨hok, h⟩
        exact ⟨hP, (ih (hinv s i s₁ hs h₁) (hhead.mpr hok) hrest).mpr (h s₁ h₁)⟩

/-- A run is the run of its first part followed by the run of the rest. -/
theorem run_append (is js : List ι) (s : σ) :
    run step s (is ++ js) = (run step s is).bind (fun s' => run step s' js) := by
  induction is generalizing s with
  | nil => rfl
  | cons i is ih =>
      rw [List.cons_append, run, run, Option.bind_assoc]
      exact congrArg _ (funext ih)

/-! ## A history beside a run -/

variable {γ : Type*} {after : σ → ι → γ → γ}

/-- The same program with a record of what happened, which it never looks at. -/
def recorded (step : σ → ι → Option σ) (after : σ → ι → γ → γ) (r : σ × γ) (i : ι) :
    Option (σ × γ) :=
  (step r.1 i).map fun s' => (s', after r.1 i r.2)

theorem run_recorded (is : List ι) (s : σ) (g : γ) :
    (run (recorded step after) (s, g) is).map Prod.fst = run step s is := by
  induction is generalizing s g with
  | nil => rfl
  | cons i is ih =>
      rw [run, run, recorded]
      cases step s i with
      | none => rfl
      | some s₁ => exact ih s₁ (after s i g)

/-- The record does not change which runs meet a condition on the program. -/
theorem meets_recorded (is : List ι) (s : σ) (g : γ) :
    Meets (recorded step after) (fun r => ok r.1) (s, g) is ↔ Meets step ok s is := by
  induction is generalizing s g with
  | nil => exact Iff.rfl
  | cons i is ih =>
      refine and_congr_right fun _ => ⟨fun h s₁ h₁ => ?_, fun h r hr => ?_⟩
      · exact (ih s₁ (after s i g)).mp (h (s₁, after s i g) (by rw [recorded, h₁]; rfl))
      · obtain ⟨s₁, h₁, rfl⟩ := Option.map_eq_some_iff.mp hr
        exact (ih s₁ _).mpr (h s₁ h₁)

/-- A condition on the program is one on the record, in a run that goes through. -/
theorem meets_iff_recorded {ok' : σ × γ → ι → Prop} {Inv : σ × γ → Prop}
    (hiff : ∀ s g i s', Inv (s, g) → step s i = some s' → (ok s i ↔ ok' (s, g) i))
    (hinv : ∀ s g i s', Inv (s, g) → ok' (s, g) i → step s i = some s' →
      Inv (s', after s i g)) (is : List ι) {s s' : σ} {g : γ} (hs : Inv (s, g))
    (hrun : run step s is = some s') :
    Meets step ok s is ↔ Meets (recorded step after) ok' (s, g) is := by
  have hfst : (run (recorded step after) (s, g) is).map Prod.fst = run step s is :=
    run_recorded is s g
  rw [← hfst] at hrun
  obtain ⟨r, hrun, -⟩ := Option.map_eq_some_iff.mp hrun
  refine (meets_recorded ok is s g).symm.trans (meets_iff_of_run _ ?_ ?_ is hs hrun)
  · intro r i r' hr hstep
    obtain ⟨s₁, h₁, -⟩ := Option.map_eq_some_iff.mp hstep
    exact hiff r.1 r.2 i s₁ hr h₁
  · intro r i r' hr hok hstep
    obtain ⟨s₁, h₁, rfl⟩ := Option.map_eq_some_iff.mp hstep
    exact hinv r.1 r.2 i s₁ hr hok h₁

/-! ## Loops over a list -/

variable {β : Type*} {f : σ → β → Option σ}

/-- A loop over a list goes through, if each of its turns does and takes the invariant on. -/
theorem foldlM_inv (P : Nat → σ → Prop) (l : List β)
    (h : ∀ i b s, l[i]? = some b → P i s → ∃ s', f s b = some s' ∧ P (i + 1) s') {s : σ}
    (hs : P 0 s) : ∃ s', l.foldlM f s = some s' ∧ P l.length s' := by
  induction l generalizing P s with
  | nil => exact ⟨s, rfl, hs⟩
  | cons b l ih =>
      obtain ⟨s₁, h₁, hs₁⟩ := h 0 b s rfl hs
      obtain ⟨s₂, h₂, hs₂⟩ := ih (fun i => P (i + 1)) (fun i c t hc => h (i + 1) c t hc) hs₁
      refine ⟨s₂, ?_, hs₂⟩
      rw [List.foldlM_cons, h₁]
      exact h₂

/-- The same for a loop that is known to go through. -/
theorem foldlM_keeps (P : Nat → σ → Prop) (l : List β)
    (h : ∀ i b s s', l[i]? = some b → P i s → f s b = some s' → P (i + 1) s') {s s' : σ}
    (hs : P 0 s) (hfold : l.foldlM f s = some s') : P l.length s' := by
  induction l generalizing P s with
  | nil => exact Option.some.inj hfold ▸ hs
  | cons b l ih =>
      rw [List.foldlM_cons] at hfold
      obtain ⟨s₁, h₁, h₂⟩ := Option.bind_eq_some_iff.mp hfold
      have hs₁ : P 1 s₁ := h 0 b s s₁ rfl hs h₁
      exact ih (fun i => P (i + 1)) (fun i c t t' hc => h (i + 1) c t t' hc) hs₁ h₂

end CppTrack.Lib
