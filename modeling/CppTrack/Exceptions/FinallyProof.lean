import CppTrack.Exceptions.Finally
import CppTrack.Exceptions.TryCatchProof

/-!
# When the code after `Finally` is run

The expanded program and the reference go side by side until a clause of a block with a `Finally`
is left by a jump: that jump passes the block's `Finally` by, and nothing afterwards can make up
for it, since marks are only added (`exec_grows`) and no frame is used again (`Tidy`). So the marks
are right at the end exactly if the two never parted, and what holds in between is `Ends`, as for
the blocks without a `Finally`.
-/

namespace CppTrack.TryFinally

open TryCatch

/-! ## Marks -/

section

variable {marks marks' : List Mark} {f : Nat}

theorem Once.of_prefix (hp : marks <+: marks') (h : Once marks') : Once marks := by
  obtain ⟨rest, rfl⟩ := hp
  refine ⟨fun f => Nat.le_trans ?_ (h.atMost f), fun pre f post heq => ?_⟩
  · rw [List.count_append]
    exact Nat.le_add_right _ _
  · exact h.before pre f (post ++ rest) (by rw [heq, List.append_assoc, List.cons_append])

theorem Once.final (h : Once marks) (hf : marks.count (.final f) = 0) :
    Once (marks ++ [.final f]) := by
  refine ⟨fun g => ?_, fun pre g post heq => ?_⟩
  · rw [List.count_append]
    by_cases hg : g = f
    · subst hg
      exact Nat.le_of_eq (by rw [hf, List.count_singleton_self])
    · rw [List.count_singleton, if_neg (by simpa using Ne.symm hg)]
      exact h.atMost g
  · -- the mark that was added is not one of control leaving
    rcases List.append_eq_append_iff.mp heq with ⟨rest, hpre, htail⟩ | ⟨rest, hmarks, htail⟩
    · cases rest with
      | nil => exact absurd htail nofun
      | cons k rest =>
          have hnil : rest ++ Mark.left g :: post = [] := (List.cons.inj htail).2.symm
          exact absurd hnil (by simp)
    · cases rest with
      | nil => exact absurd htail.symm nofun
      | cons k rest =>
          obtain ⟨rfl, -⟩ := List.cons.inj htail
          exact h.before pre g rest hmarks

theorem Once.left (h : Once marks) (hf : marks.count (.final f) = 1) :
    Once (marks ++ [.left f]) := by
  refine ⟨fun g => ?_, fun pre g post heq => ?_⟩
  · rw [List.count_append, List.count_singleton, if_neg nofun]
    exact h.atMost g
  · rcases List.append_eq_append_iff.mp heq with ⟨rest, hpre, htail⟩ | ⟨rest, hmarks, htail⟩
    · cases rest with
      | nil =>
          obtain ⟨hfg, -⟩ := List.cons.inj htail
          obtain rfl := Mark.left.inj hfg
          rw [hpre, List.append_nil]
          exact hf
      | cons k rest =>
          have hnil : rest ++ Mark.left g :: post = [] := (List.cons.inj htail).2.symm
          exact absurd hnil (by simp)
    · cases rest with
      | nil =>
          obtain ⟨hfg, -⟩ := List.cons.inj htail
          obtain rfl := Mark.left.inj hfg
          rw [← (hmarks.trans (List.append_nil pre))]
          exact hf
      | cons k rest =>
          obtain ⟨rfl, -⟩ := List.cons.inj htail
          exact h.before pre g rest hmarks

/-- A block that is left without its `Finally` part. -/
theorem not_once (hf : marks.count (.final f) = 0) : ¬ Once (marks ++ [.left f]) := by
  intro h
  have hone := h.before marks f [] rfl
  omega

end

variable {σ Exn Fn : Type}

/-! ## Marks are only added, and the flag only raised -/

theorem fell_marks (flag : ExceptionFlag) (m : Recorded σ Exn) :
    (Reached.fell flag m).state.marks = m.marks := by
  rw [Reached.fell]
  split <;> rfl

theorem endTry_marks (before : Option Nat) (frame : Nat) (c : Reached σ Exn) :
    (c.endTry before frame).2.marks = c.state.marks := by
  rw [Reached.endTry.eq_def]
  split <;> rfl

theorem quit_grows (fin : Option (Stmt σ Exn Fn)) (frame : Nat) (p : Outcome × Recorded σ Exn) :
    p.2.marks <+: (quit fin frame p).2.marks := by
  obtain ⟨o, m⟩ := p
  have hmark : m.marks <+: (if fin.isSome then m.mark (.left frame) else m).marks := by
    split
    · exact List.prefix_append _ _
    · exact List.prefix_rfl
  cases o with
  | normal => exact hmark
  | jump target val => exact hmark
  | stopped => exact List.prefix_rfl
  | undefined => exact List.prefix_rfl

section

variable {run : Running σ Exn Fn} {rrun : RefRunning σ Exn Fn}
  {catches : List (Exn × Stmt σ Exn Fn)} {fin : Option (Stmt σ Exn Fn)} {frame : Nat}
  {active : Bool}

theorem finallyPart_marks (s : Stmt σ Exn Fn) (flag : ExceptionFlag) (m : Recorded σ Exn) :
    (finallyPart run (some s) frame (.after flag m)).state.marks =
      (run s (m.mark (.final frame))).2.marks := by
  rw [finallyPart]
  split
  · rename_i m' heq
    rw [fell_marks, heq]
  · rename_i o' m' _ heq
    rw [heq]
    rfl

theorem finallyPart_grows (h : ∀ s m, m.marks <+: (run s m).2.marks) (c : Reached σ Exn) :
    c.state.marks <+: (finallyPart run fin frame c).state.marks := by
  cases c with
  | left o m => exact List.prefix_rfl
  | after flag m =>
      cases fin with
      | none => exact List.prefix_rfl
      | some s =>
          rw [finallyPart_marks]
          exact (List.prefix_append m.marks [Mark.final frame]).trans
            (h s (m.mark (.final frame)))

theorem refFinally_some (s : Stmt σ Exn Fn) {l : Left Exn} (hl : l ≠ .stopped)
    (r : Tracked σ Exn) : refFinally rrun (some s) active (l, r) =
      match rrun s active r with
      | (.normal, r') => (l, r')
      | l' => l' := by
  cases l with
  | stopped => exact absurd rfl hl
  | normal => rfl
  | thrown e site => rfl

theorem refFinally_escaped (s : Stmt σ Exn Fn) {l : Left Exn} (hl : l ≠ .stopped)
    (r : Tracked σ Exn) :
    (refFinally rrun (some s) active (l, r)).2.escaped = (rrun s active r).2.escaped := by
  rw [refFinally_some s hl]
  split
  · rename_i heq
    rw [heq]
  · rfl

theorem refFinally_none (p : Left Exn × Tracked σ Exn) : refFinally rrun none active p = p := by
  obtain ⟨l, r⟩ := p
  cases l <;> rfl

theorem refFinally_sticks (h : ∀ s a r, r.escaped = true → (rrun s a r).2.escaped = true)
    (p : Left Exn × Tracked σ Exn) (hp : p.2.escaped = true) :
    (refFinally rrun fin active p).2.escaped = true := by
  cases fin with
  | none =>
      rw [refFinally_none]
      exact hp
  | some s =>
      obtain ⟨l, r⟩ := p
      by_cases hl : l = .stopped
      · subst hl
        exact hp
      · rw [refFinally_escaped s hl]
        exact h s active r hp

theorem refEnd_escaped (p : Left Exn × Tracked σ Exn) :
    (refEnd active p).2.escaped = p.2.escaped := by
  obtain ⟨l, r⟩ := p
  cases l <;> rfl

/-- A statement after another one only adds marks, if it does itself. -/
theorem seq_marks {next : Recorded σ Exn → Outcome × Recorded σ Exn}
    (h : ∀ m, m.marks <+: (next m).2.marks) (q : Outcome × Recorded σ Exn) :
    q.2.marks <+: (match q with
      | (.normal, m') => next m'
      | r => r).2.marks := by
  split
  · exact h _
  · exact List.prefix_rfl

theorem seq_escaped {next : Tracked σ Exn → Left Exn × Tracked σ Exn}
    (h : ∀ r, r.escaped = true → (next r).2.escaped = true) (q : Left Exn × Tracked σ Exn)
    (hq : q.2.escaped = true) :
    (match q with
      | (.normal, r') => next r'
      | l => l).2.escaped = true := by
  split
  · exact h _ hq
  · exact hq

variable [DecidableEq Exn]

theorem chain_grows (h : ∀ s m, m.marks <+: (run s m).2.marks) (p : Outcome × Recorded σ Exn) :
    p.2.marks <+: (chain run catches frame p).state.marks := by
  obtain ⟨o, m⟩ := p
  cases o with
  | normal => exact (fell_marks .entered m).symm ▸ List.prefix_rfl
  | jump target val =>
      rw [chain]
      split
      · split
        · split
          · rename_i c _
            have hc := h c.2 m
            split
            · rename_i m' heq
              rw [heq] at hc
              rw [fell_marks]
              exact hc
            · rename_i o' m' _ heq
              rw [heq] at hc
              exact hc
          · exact List.prefix_rfl
        · exact List.prefix_rfl
      · exact List.prefix_rfl
  | stopped => exact List.prefix_rfl
  | undefined => exact List.prefix_rfl

theorem refChain_sticks (h : ∀ s a r, r.escaped = true → (rrun s a r).2.escaped = true)
    (p : Left Exn × Tracked σ Exn) (hp : p.2.escaped = true) :
    (refChain rrun catches fin active p).2.escaped = true := by
  obtain ⟨l, r⟩ := p
  cases l with
  | thrown e site =>
      rw [refChain]
      split
      · rename_i c _
        have hc := h c.2 active r hp
        split
        · rename_i heq
          rw [heq] at hc
          show (_ || _) = true
          rw [hc]
          rfl
        · exact hc
      · exact hp
  | normal => exact hp
  | stopped => exact hp

variable {P : Fn → Stmt σ Exn Fn}

theorem exec_grows (fuel : Nat) (s : Stmt σ Exn Fn) (m : Recorded σ Exn) :
    m.marks <+: (exec P fuel s m).2.marks := by
  induction fuel generalizing s m with
  | zero => exact List.prefix_rfl
  | succ fuel ih =>
      cases s with
      | act f => exact List.prefix_rfl
      | throw e site cause => exact List.prefix_rfl
      | ite c s t => exact ih _ m
      | call f => exact ih _ m
      | loop c s =>
          rw [exec]
          split
          · exact ih _ m
          · exact List.prefix_rfl
      | seq s t =>
          exact (ih s m).trans (seq_marks (ih t) (exec P fuel s m))
      | tryCatch body catches fin =>
          rw [exec]
          refine List.IsPrefix.trans ?_ (quit_grows fin m.next _)
          rw [endTry_marks]
          refine List.IsPrefix.trans ?_ (finallyPart_grows ih _)
          exact (ih body { m with toMachine := m.enter }).trans (chain_grows ih _)

theorem ref_sticks (fuel : Nat) (s : Stmt σ Exn Fn) (active : Bool) (r : Tracked σ Exn)
    (hr : r.escaped = true) : (ref P fuel s active r).2.escaped = true := by
  induction fuel generalizing s active r with
  | zero => exact hr
  | succ fuel ih =>
      cases s with
      | act f => exact hr
      | throw e site cause => exact hr
      | ite c s t => exact ih _ active r hr
      | call f => exact ih _ active r hr
      | loop c s =>
          rw [ref]
          split
          · exact ih _ active r hr
          · exact hr
      | seq s t =>
          exact seq_escaped (ih t active) (ref P fuel s active r) (ih s active r hr)
      | tryCatch body catches fin =>
          rw [ref, refEnd_escaped]
          exact refFinally_sticks ih _ (refChain_sticks ih _ (ih body true r hr))

end

/-! ## Side by side -/

/-- The marks are right so far, and none is of a frame still to come. -/
structure Tidy (m : Recorded σ Exn) : Prop where
  once : Once m.marks
  fresh : ∀ f, m.next ≤ f → m.marks.count (.final f) = 0

/-- What a statement does from `m` on, as far as no clause has been left past its `Finally`. -/
structure Sim (m m' : Recorded σ Exn) (o : Outcome) (l : Left Exn × Tracked σ Exn) : Prop where
  ends : Ends m.toMachine m'.toMachine o (l.1, l.2.toPlain)
  tidy : Tidy m'
  /-- The marks of the blocks around are not touched. -/
  older : ∀ f, f < m.next → m'.marks.count (.final f) = m.marks.count (.final f)
  kept : l.2.escaped = false

/-- `run` and `rrun` go side by side, if at the end nothing has gone wrong for one of them. -/
def Simulates (run : Running σ Exn Fn) (rrun : RefRunning σ Exn Fn) : Prop :=
  ∀ s m r, Sound m.toMachine → Tidy m → r.toPlain = m.plain → r.escaped = false →
    (Once (run s m).2.marks ∨ (rrun s m.stack.isSome r).2.escaped = false) →
    Sim m (run s m).2 (run s m).1 (rrun s m.stack.isSome r)

section

variable {m m' m'' : Recorded σ Exn} {o o' : Outcome} {r : Tracked σ Exn} {l : Left Exn}
  {p : Left Exn × Tracked σ Exn} {flag : ExceptionFlag} {e : Exn} {site : Site} {n : Nat}

theorem Sim.andThen (hm : Sound m.toMachine) (h : Sim m m' o (.normal, r))
    (h' : Sim m' m'' o' p) : Sim m m'' o' p := by
  refine ⟨h.ends.andThen hm h'.ends, h'.tidy, fun f hf => ?_, h'.kept⟩
  rw [h'.older f (Nat.lt_of_lt_of_le hf h.ends.next), h.older f hf]

/-- What comes after without marks and without frames. -/
theorem Sim.machine (h : Sim m m' o (l, r)) {mach : Machine σ Exn} {q : Left Exn × Plain σ Exn}
    (hends : Ends m.toMachine mach o' q) (hnext : mach.next = m'.next) :
    Sim m { m' with toMachine := mach } o' (q.1, { r with toPlain := q.2 }) := by
  refine ⟨hends, ⟨h.tidy.once, fun f hf => h.tidy.fresh f ?_⟩, h.older, h.kept⟩
  have hf : mach.next ≤ f := hf
  exact hnext ▸ hf

theorem Sim.refl (ht : Tidy m) (hr : r.toPlain = m.plain) (hkept : r.escaped = false) :
    Sim m m .normal (.normal, r) := by
  refine ⟨?_, ht, fun _ _ => rfl, hkept⟩
  show Ends _ _ _ (_, r.toPlain)
  rw [hr]
  exact ⟨rfl, rfl, Nat.le_refl _, id, rfl, rfl, fun _ _ => rfl⟩

theorem count_final (m : Recorded σ Exn) {f g : Nat} (hne : f ≠ g) :
    (m.mark (.final g)).marks.count (.final f) = m.marks.count (.final f) := by
  show (m.marks ++ [_]).count _ = _
  rw [List.count_append, List.count_singleton, if_neg (by simpa using Ne.symm hne)]
  rfl

theorem count_left (m : Recorded σ Exn) (f g : Nat) :
    (m.mark (.left g)).marks.count (.final f) = m.marks.count (.final f) := by
  show (m.marks ++ [_]).count _ = _
  rw [List.count_append, List.count_singleton, if_neg nofun]
  rfl

/-- A pending exception is in the frame of the block. -/
def Pending (m m' : Recorded σ Exn) (flag : ExceptionFlag) (l : Left Exn) : Prop :=
  flag ≠ .thrown ∧ l = .normal ∨ flag = .thrown ∧ ∃ e site message, l = .thrown e site ∧
    m'.frames m.next = some ⟨some (e, site), m.stack, message⟩

/--
Control has come to the end of a branch of the block entered at `m`. As far as the blocks around
are concerned everything has fallen through.
-/
structure Through (m m' : Recorded σ Exn) (flag : ExceptionFlag) (l : Left Exn)
    (r : Tracked σ Exn) (n : Nat) : Prop where
  sim : Sim m m' .normal (.normal, r)
  inside : m.next < m'.next
  pending : Pending m m' flag l
  count : m'.marks.count (.final m.next) = n

end

/-- What the chain has come to. -/
inductive Chained (m : Recorded σ Exn) (fin : Option (Stmt σ Exn Fn)) :
    Reached σ Exn → Left Exn × Tracked σ Exn → Prop where
  | through {m' : Recorded σ Exn} {flag : ExceptionFlag} {l : Left Exn} {r : Tracked σ Exn} :
      Through m m' flag l r 0 → Chained m fin (.after flag m') (l, r)
  | stopped {m' : Recorded σ Exn} {r : Tracked σ Exn} :
      Sim m m' .stopped (.stopped, r) → Chained m fin (.left .stopped m') (.stopped, r)
  | passed {m' : Recorded σ Exn} {r : Tracked σ Exn} {target : Nat} {val : ExceptionFlag}
      {e : Exn} {site : Site} : fin = none →
      Sim m m' (.jump target val) (.thrown e site, r) →
      Chained m fin (.left (.jump target val) m') (.thrown e site, r)
  /-- The clause of a block with a `Finally` was left by a jump. -/
  | escaped {m' : Recorded σ Exn} {r : Tracked σ Exn} {target : Nat} {val : ExceptionFlag}
      {e : Exn} {site : Site} : fin.isSome = true → r.escaped = true →
      m'.marks.count (.final m.next) = 0 →
      Chained m fin (.left (.jump target val) m') (.thrown e site, r)

/-- The same after `Finally`. -/
inductive Closed (m : Recorded σ Exn) (fin : Option (Stmt σ Exn Fn)) :
    Reached σ Exn → Left Exn × Tracked σ Exn → Prop where
  | through {m' : Recorded σ Exn} {flag : ExceptionFlag} {l : Left Exn} {r : Tracked σ Exn}
      {n : Nat} : Through m m' flag l r n → (fin.isSome = true → n = 1) →
      Closed m fin (.after flag m') (l, r)
  | stopped {m' : Recorded σ Exn} {r : Tracked σ Exn} :
      Sim m m' .stopped (.stopped, r) → Closed m fin (.left .stopped m') (.stopped, r)
  | thrown {m' : Recorded σ Exn} {r : Tracked σ Exn} {target : Nat} {val : ExceptionFlag}
      {e : Exn} {site : Site} : Sim m m' (.jump target val) (.thrown e site, r) →
      (fin.isSome = true → m'.marks.count (.final m.next) = 1) →
      Closed m fin (.left (.jump target val) m') (.thrown e site, r)

/-! ## One block -/

section

variable {m m' m'' : Recorded σ Exn} {o o' : Outcome} {r : Tracked σ Exn} {l : Left Exn}
  {p : Left Exn × Tracked σ Exn} {flag : ExceptionFlag} {e : Exn} {site : Site} {n : Nat}
  {run : Running σ Exn Fn} {rrun : RefRunning σ Exn Fn} {fin : Option (Stmt σ Exn Fn)}

theorem fell_of_ne (hflag : flag ≠ .entered) (m : Recorded σ Exn) :
    Reached.fell flag m = .after flag m := by
  rw [Reached.fell, Machine.branchEnd, if_neg hflag]

/-- `Try` makes no marks. -/
theorem Tidy.enter (ht : Tidy m) : Tidy { m with toMachine := m.enter } :=
  ⟨ht.once, fun f hf => ht.fresh f (Nat.le_of_succ_le hf)⟩

/-- From inside the block to the block. -/
theorem Sim.outside (h : Sim { m with toMachine := m.enter } m' o p)
    (hends : Ends m.toMachine m'.toMachine o' (l, p.2.toPlain)) : Sim m m' o' (l, p.2) :=
  ⟨hends, h.tidy, fun f hf => h.older f (Nat.lt_succ_of_lt hf), h.kept⟩

/-- The body has come to its end. -/
theorem body_fell (ht : Tidy m) (h : Sim { m with toMachine := m.enter } m' o (.normal, r)) :
    o = .normal ∧ Chained m fin (.fell .entered m') (.normal, r) := by
  obtain ⟨ho, hpop, hends⟩ := h.ends.fell
  refine ⟨ho, ?_⟩
  have hfell : Reached.fell .entered m' =
      .after .entered { m' with stack := m.stack } := by
    rw [Reached.fell, Machine.branchEnd, if_pos rfl, hpop]
  rw [hfell]
  refine .through ⟨⟨hends, ⟨h.tidy.once, h.tidy.fresh⟩,
      fun f hf => h.older f (Nat.lt_succ_of_lt hf), h.kept⟩,
    h.ends.next, .inl ⟨by simp, rfl⟩, ?_⟩
  exact (h.older m.next (Nat.lt_succ_self _)).trans (ht.fresh m.next (Nat.le_refl _))

/-- `Finally`, where no clause was left past it. -/
theorem finallyPart_closed (hsim : Simulates run rrun) (hm : Sound m.toMachine)
    {c : Reached σ Exn} (h : Chained m fin c p) (hkept : p.2.escaped = false)
    (hok : Once (finallyPart run fin m.next c).state.marks ∨
      (refFinally rrun fin m.stack.isSome p).2.escaped = false) :
    Closed m fin (finallyPart run fin m.next c) (refFinally rrun fin m.stack.isSome p) := by
  cases h with
  | stopped h => exact .stopped h
  | passed hfin h =>
      subst hfin
      exact .thrown h nofun
  | escaped _ hesc _ => exact absurd (hesc.symm.trans hkept) nofun
  | @through m' flag l r h =>
      cases fin with
      | none =>
          rw [refFinally_none]
          exact .through h nofun
      | some s =>
          have hl : l ≠ .stopped := by
            rintro rfl
            rcases h.pending with ⟨-, hl⟩ | ⟨-, _, _, _, hl, -⟩
            · exact absurd hl nofun
            · exact absurd hl nofun
          rw [finallyPart_marks, refFinally_escaped s hl] at hok
          -- the part is begun, once
          have hmid : Sim m (m'.mark (.final m.next)) .normal (.normal, r) := by
            refine ⟨h.sim.ends, ⟨h.sim.tidy.once.final h.count, fun f hf => ?_⟩, fun f hf => ?_,
              h.sim.kept⟩
            · have hne : f ≠ m.next := Nat.ne_of_gt (Nat.lt_of_lt_of_le h.inside hf)
              rw [count_final m' hne]
              exact h.sim.tidy.fresh f hf
            · rw [count_final m' (Nat.ne_of_lt hf)]
              exact h.sim.older f hf
          have hone : (m'.mark (.final m.next)).marks.count (.final m.next) = 1 := by
            show (m'.marks ++ [_]).count _ = 1
            rw [List.count_append, h.count, List.count_singleton_self]
          have hstack : m'.stack = m.stack := h.sim.ends.left.2.1
          have hrun := hsim s (m'.mark (.final m.next)) r (h.sim.ends.sound hm) hmid.tidy
            h.sim.ends.plain_eq.symm h.sim.kept
          rw [show (m'.mark (.final m.next)).stack = m.stack from hstack] at hrun
          have hrun := hrun hok
          rw [finallyPart, refFinally_some s hl]
          cases hexec : run s (m'.mark (.final m.next)) with
          | mk o m'' =>
          cases href : rrun s m.stack.isSome r with
          | mk l' r' =>
          rw [hexec, href] at hrun
          have hafter := hmid.andThen hm hrun
          have hcount : m''.marks.count (.final m.next) = 1 :=
            (hrun.older m.next h.inside).trans hone
          have hleft := hrun.ends.left
          cases l' with
          | normal =>
              obtain ⟨rfl, -, hsame⟩ := hleft
              have hflag :
                  (if flag = .entered then ExceptionFlag.finalized else flag) ≠ .entered := by
                split
                · exact nofun
                · assumption
              show Closed m (some s) (Reached.fell _ m'') (l, r')
              rw [fell_of_ne hflag]
              refine .through ⟨hafter, Nat.lt_of_lt_of_le h.inside hrun.ends.next, ?_, hcount⟩
                fun _ => rfl
              rcases h.pending with ⟨hthrown, hl⟩ | ⟨rfl, e, site, message, hl, hframe⟩
              · refine .inl ⟨?_, hl⟩
                split
                · exact nofun
                · exact hthrown
              · refine .inr ⟨rfl, e, site, message, hl, ?_⟩
                rw [hsame m.next h.inside]
                exact hframe
          | thrown e site =>
              obtain ⟨top, f, message, -, -, rfl, -⟩ := hleft
              exact .thrown hafter fun _ => hcount
          | stopped =>
              obtain rfl := hleft
              exact .stopped hafter

/-- The mark of control leaving. -/
theorem Sim.quit (h : Sim m m' o p)
    (hcount : fin.isSome = true → o ≠ .stopped → m'.marks.count (.final m.next) = 1) :
    Sim m (TryFinally.quit fin m.next (o, m')).2 (TryFinally.quit fin m.next (o, m')).1 p := by
  have hmark : o ≠ .stopped →
      Sim m (if fin.isSome then m'.mark (.left m.next) else m') o p := by
    intro ho
    split
    · rename_i hfin
      refine ⟨h.ends, ⟨h.tidy.once.left (hcount hfin ho), fun f hf => ?_⟩, fun f hf => ?_, h.kept⟩
      · rw [count_left]
        exact h.tidy.fresh f hf
      · rw [count_left]
        exact h.older f hf
    · exact h
  cases o with
  | normal => exact hmark nofun
  | jump target val => exact hmark nofun
  | stopped => exact h
  | undefined => exact h

theorem throw_next (m : Machine σ Exn) (e : Exn) (site : Site) (cause : Option (List Char)) :
    (m.ntyExceptionThrow e site cause).2.next = m.next := by
  rw [Machine.ntyExceptionThrow]
  split
  · split
    · dsimp only
      split
      · rename_i heq
        obtain ⟨_, -, rfl⟩ := Option.map_eq_some_iff.mp heq
        rfl
      · rfl
    · rfl
  · rfl

theorem endTry_next (m : Machine σ Exn) (before : Option Nat) (frame : Nat)
    (flag : ExceptionFlag) : (m.endTry before frame flag).2.next = m.next := by
  rw [Machine.endTry]
  split
  · split
    · rename_i excep site _
      have hnext := throw_next m excep site none
      split
      · rename_i heq
        rw [heq] at hnext
        exact hnext
      · rename_i heq
        rw [heq] at hnext
        exact hnext
    · rfl
  · rfl

/-- `EndTry` and the way out. -/
theorem endTry_sim (hm : Sound m.toMachine) {c : Reached σ Exn} (h : Closed m fin c p) :
    Sim m (quit fin m.next (c.endTry m.stack m.next)).2
      (quit fin m.next (c.endTry m.stack m.next)).1 (refEnd m.stack.isSome p) := by
  cases h with
  | stopped h => exact h
  | @thrown m' r target val e site h hcount =>
      obtain ⟨top, f, message, htop, -⟩ := h.ends.left
      have hraise : refEnd m.stack.isSome (.thrown e site, r) = (.thrown e site, r) := by
        rw [htop]
        rfl
      rw [hraise]
      have hleave : Sim m { m' with toMachine := m'.leave m.next } (.jump target val)
          (.thrown e site, r) :=
        h.machine (h.ends.leave hm (Nat.le_refl _)) rfl
      exact hleave.quit fun hfin _ => hcount hfin
  | @through m' flag l r n h hcount =>
      have hnext := endTry_next m'.toMachine m.stack m.next flag
      have hone : fin.isSome = true → m'.marks.count (.final m.next) = 1 := by
        intro hfin
        rw [h.count, hcount hfin]
      have hend : Sim m ((Reached.after flag m').endTry m.stack m.next).2
          ((Reached.after flag m').endTry m.stack m.next).1 (refEnd m.stack.isSome (l, r)) := by
        rcases h.pending with ⟨hflag, rfl⟩ | ⟨rfl, e, site, message, rfl, hframe⟩
        · exact h.sim.machine (h.sim.ends.endTry hm hflag) hnext
        · exact h.sim.machine (h.sim.ends.endTry_thrown hm hframe) hnext
      exact hend.quit fun hfin _ => hone hfin

variable [DecidableEq Exn] {catches : List (Exn × Stmt σ Exn Fn)}

/-- The chain, from the body's end on. -/
theorem chain_chained (hsim : Simulates run rrun) (hm : Sound m.toMachine) (ht : Tidy m)
    (h : Sim { m with toMachine := m.enter } m' o (l, r))
    (hok : Once (chain run catches m.next (o, m')).state.marks ∨
      (refChain rrun catches fin m.stack.isSome (l, r)).2.escaped = false) :
    Chained m fin (chain run catches m.next (o, m'))
      (refChain rrun catches fin m.stack.isSome (l, r)) := by
  have hfresh : m'.marks.count (.final m.next) = 0 :=
    (h.older m.next (Nat.lt_succ_self _)).trans (ht.fresh m.next (Nat.le_refl _))
  cases l with
  | stopped =>
      obtain rfl := h.ends.left
      refine .stopped (h.outside (l := .stopped) ?_)
      exact ⟨h.ends.store, h.ends.out, Nat.le_of_succ_le h.ends.next, h.ends.balanced, rfl⟩
  | normal =>
      obtain ⟨rfl, hchained⟩ : _ ∧ Chained m fin _ _ := body_fell ht h
      exact hchained
  | thrown e site =>
      obtain ⟨rfl, ⟨message, hframe⟩, hstack, hmid⟩ := h.ends.entered
      have hmid : Sim m m' .normal (.normal, r) := h.outside hmid
      have hfind : (catches.find? fun c => (some (e, site)).map Prod.fst = some c.1) =
          catches.find? fun c => c.1 = e := find_clause e site catches
      rw [chain, if_pos rfl, hframe] at hok ⊢
      rw [refChain] at hok ⊢
      simp only [hfind] at hok ⊢
      cases hclause : catches.find? fun c => c.1 = e with
      | none =>
          exact .through ⟨hmid, h.ends.next, .inr ⟨rfl, e, site, message, rfl, hframe⟩, hfresh⟩
      | some c =>
          rw [hclause] at hok
          have hrun := hsim c.2 m' r (hmid.ends.sound hm) hmid.tidy hmid.ends.plain_eq.symm
            hmid.kept
          rw [hstack] at hrun
          dsimp only at hok ⊢
          cases hexec : run c.2 m' with
          | mk o' m'' =>
          cases href : rrun c.2 m.stack.isSome r with
          | mk l' r' =>
          rw [hexec, href] at hrun hok
          have hrun := hrun (by
            refine hok.imp (fun honce => ?_) fun hkept => ?_
            · cases o' <;> exact honce
            · cases l' with
              | thrown e site => exact (Bool.or_eq_false_iff.mp hkept).1
              | normal => exact hkept
              | stopped => exact hkept)
          have hafter := hmid.andThen hm hrun
          have hinside : m.next < m''.next := Nat.lt_of_lt_of_le h.ends.next hrun.ends.next
          have hcount : m''.marks.count (.final m.next) = 0 :=
            (hrun.older m.next h.ends.next).trans hfresh
          have hleft := hrun.ends.left
          cases l' with
          | normal =>
              obtain ⟨rfl, -, -⟩ := hleft
              exact .through ⟨hafter, hinside, .inl ⟨nofun, rfl⟩, hcount⟩
          | thrown e site =>
              obtain ⟨top, f, message, -, -, rfl, -⟩ := hleft
              cases fin with
              | none =>
                  refine .passed rfl ⟨hafter.ends, hafter.tidy, hafter.older, ?_⟩
                  exact (Bool.or_false r'.escaped).trans hafter.kept
              | some s => exact .escaped rfl (Bool.or_true r'.escaped) hcount
          | stopped =>
              obtain rfl := hleft
              exact .stopped hafter

/-- A whole block. -/
theorem block_sim (hsim : Simulates run rrun) (hgrows : ∀ s m, m.marks <+: (run s m).2.marks)
    (hsticks : ∀ s a r, r.escaped = true → (rrun s a r).2.escaped = true)
    (body : Stmt σ Exn Fn) (hm : Sound m.toMachine) (ht : Tidy m) (hr : r.toPlain = m.plain)
    (hkept : r.escaped = false) {whole : Outcome × Recorded σ Exn} {c : Reached σ Exn}
    (hc : c = chain run catches m.next (run body { m with toMachine := m.enter }))
    (hwhole : whole = quit fin m.next ((finallyPart run fin m.next c).endTry m.stack m.next))
    (hp : p = refChain rrun catches fin m.stack.isSome (rrun body true r))
    (hok : Once whole.2.marks ∨
      (refEnd m.stack.isSome (refFinally rrun fin m.stack.isSome p)).2.escaped = false) :
    Sim m whole.2 whole.1 (refEnd m.stack.isSome (refFinally rrun fin m.stack.isSome p)) := by
  subst hwhole
  -- nothing has gone wrong at any earlier point
  have hfin : Once (finallyPart run fin m.next c).state.marks ∨
      (refFinally rrun fin m.stack.isSome p).2.escaped = false := by
    refine hok.imp (fun h => h.of_prefix ?_) fun h => ?_
    · rwa [refEnd_escaped] at h
    · rw [← endTry_marks m.stack m.next]
      exact quit_grows fin m.next _
  have hchain : Once c.state.marks ∨ p.2.escaped = false := by
    refine hfin.imp (fun h => h.of_prefix (finallyPart_grows hgrows c)) fun h => ?_
    refine Bool.eq_false_iff.mpr fun hesc => ?_
    exact Bool.eq_false_iff.mp h (refFinally_sticks hsticks p hesc)
  have hbody : Once (run body { m with toMachine := m.enter }).2.marks ∨
      (rrun body true r).2.escaped = false := by
    refine hchain.imp (fun h => h.of_prefix (hc ▸ chain_grows hgrows _)) fun h => ?_
    refine Bool.eq_false_iff.mpr fun hesc => ?_
    exact Bool.eq_false_iff.mp h (hp ▸ refChain_sticks hsticks _ hesc)
  have h := hsim body { m with toMachine := m.enter } r hm.enter ht.enter hr hkept hbody
  have hchained : Chained m fin c p := by
    rw [hc, hp] at hchain ⊢
    exact chain_chained hsim hm ht h hchain
  have hkept' : p.2.escaped = false := by
    cases hchained with
    | through h => exact h.sim.kept
    | stopped h => exact h.kept
    | passed _ h => exact h.kept
    | @escaped m' r target val e site hsome hesc hcount =>
        -- the block has been left without its `Finally`
        rcases hok with honce | hkept
        · refine absurd honce ?_
          show ¬ Once (if fin.isSome then _ else _ : Recorded σ Exn).marks
          rw [if_pos hsome]
          exact not_once hcount
        · rw [refEnd_escaped] at hkept
          exact absurd (refFinally_sticks hsticks _ hesc) (Bool.eq_false_iff.mp hkept)
  exact endTry_sim hm (finallyPart_closed hsim hm hchained hkept' hfin)

end

/-! ## Every statement -/

variable [DecidableEq Exn] {P : Fn → Stmt σ Exn Fn}

theorem exec_sim (fuel : Nat) : Simulates (exec P fuel) (ref P fuel) := by
  induction fuel with
  | zero =>
      intro s m r _ ht hr hkept _
      have h := Sim.refl ht hr hkept
      exact ⟨⟨h.ends.store, h.ends.out, h.ends.next, h.ends.balanced, rfl⟩, ht, h.older, hkept⟩
  | succ fuel ih =>
      intro s m r hm ht hr hkept hok
      have hrefl := Sim.refl ht hr hkept
      have hstore : m.store = r.store := hrefl.ends.store
      cases s with
      | act f =>
          have hends : Ends m.toMachine { m.toMachine with store := f m.store } .normal
              (.normal, { r.toPlain with store := f r.store }) :=
            ⟨congrArg f hstore, hrefl.ends.out, Nat.le_refl _, id, rfl, rfl, fun _ _ => rfl⟩
          exact hrefl.machine hends rfl
      | throw e site cause =>
          have hends := throw_ends hm e site (cause m.store)
          rw [← hr, hstore] at hends
          have hnext := throw_next m.toMachine e site (cause r.store)
          rw [exec, ref, hstore]
          exact hrefl.machine hends hnext
      | ite c s t =>
          rw [exec, ref, ← hstore] at hok ⊢
          exact ih _ m r hm ht hr hkept hok
      | call f => exact ih _ m r hm ht hr hkept hok
      | loop c s =>
          rw [exec, ref, ← hstore] at hok ⊢
          split
          · rename_i hc
            rw [if_pos hc, if_pos hc] at hok
            exact ih _ m r hm ht hr hkept hok
          · exact hrefl
      | seq s t =>
          have hfirst : Once (exec P fuel s m).2.marks ∨
              (ref P fuel s m.stack.isSome r).2.escaped = false := by
            refine hok.imp (fun h => h.of_prefix (seq_marks (exec_grows fuel t) _)) fun h => ?_
            refine Bool.eq_false_iff.mpr fun hesc => ?_
            exact Bool.eq_false_iff.mp h (seq_escaped (ref_sticks fuel t _) _ hesc)
          have h := ih s m r hm ht hr hkept hfirst
          rw [exec, ref] at hok ⊢
          cases hexec : exec P fuel s m with
          | mk o m' =>
          cases href : ref P fuel s m.stack.isSome r with
          | mk l r' =>
          rw [hexec, href] at h hok
          have hleft := h.ends.left
          cases l with
          | normal =>
              obtain ⟨rfl, hstack, -⟩ := hleft
              have h' := ih t m' r' (h.ends.sound hm) h.tidy h.ends.plain_eq.symm h.kept
              rw [hstack] at h'
              exact h.andThen hm (h' hok)
          | thrown e site =>
              obtain ⟨top, f, message, -, -, rfl, -⟩ := hleft
              exact h
          | stopped =>
              obtain rfl := hleft
              exact h
      | tryCatch body catches fin =>
          exact block_sim ih (exec_grows fuel) (ref_sticks fuel) body hm ht hr hkept rfl rfl rfl hok

/-- The program and the reference from the start. -/
theorem exec_sim_init (P : Fn → Stmt σ Exn Fn) (fuel : Nat) (s : Stmt σ Exn Fn) (store : σ)
    (hok : Once (exec P fuel s (Recorded.init store)).2.marks ∨
      (ref P fuel s false (Tracked.init store)).2.escaped = false) :
    Sim (Recorded.init store) (exec P fuel s (Recorded.init store)).2
      (exec P fuel s (Recorded.init store)).1 (ref P fuel s false (Tracked.init store)) := by
  have hm : Sound (Machine.init store : Machine σ Exn) := ⟨.empty, fun _ h => absurd h nofun⟩
  have ht : Tidy (Recorded.init store : Recorded σ Exn) := by
    refine ⟨⟨fun f => Nat.zero_le 1, fun pre f post heq => ?_⟩, fun f _ => rfl⟩
    exact absurd heq.symm (by simp [Recorded.init])
  exact exec_sim fuel s (Recorded.init store) (Tracked.init store) hm ht rfl rfl hok

/-- Where no clause is left past a `Finally`, the program does what the reference does. -/
theorem exec_follows (P : Fn → Stmt σ Exn Fn) (fuel : Nat) (s : Stmt σ Exn Fn) (store : σ)
    (hkept : (ref P fuel s false (Tracked.init store)).2.escaped = false) :
    (exec P fuel s (Recorded.init store)).2.plain =
      (ref P fuel s false (Tracked.init store)).2.toPlain :=
  (exec_sim_init P fuel s store (.inr hkept)).ends.plain_eq

/--
**The code after `Finally`.** However many steps a program is given, the code after each `Finally`
is begun exactly once before control leaves its block, if and only if in the reference run no
clause of a block with a `Finally` is left by an exception.
-/
theorem finally_once_iff (P : Fn → Stmt σ Exn Fn) (fuel : Nat) (s : Stmt σ Exn Fn) (store : σ) :
    Once (exec P fuel s (Recorded.init store)).2.marks ↔
      (ref P fuel s false (Tracked.init store)).2.escaped = false := by
  constructor
  · intro honce
    exact (exec_sim_init P fuel s store (.inl honce)).kept
  · intro hkept
    exact (exec_sim_init P fuel s store (.inr hkept)).tidy.once

/-- A clause that throws: the block is left and the code after its `Finally` is not run. -/
theorem finally_skipped : ¬ ∀ (P : Unit → Stmt Nat Bool Unit) (fuel : Nat)
    (s : Stmt Nat Bool Unit) (store : Nat), Once (exec P fuel s (Recorded.init store)).2.marks := by
  intro h
  let site : Site := ⟨"main", "trycatch_finally.c", 0⟩
  let inner : Stmt Nat Bool Unit := .tryCatch (.throw true site fun _ => none)
    [(true, .throw false site fun _ => none)] (some (.act (· + 1)))
  have honce := h (fun _ => .act id) 5 (.tryCatch inner [(false, .act id)] none) 0
  have hmarks : (exec (fun _ => .act id) 5 (.tryCatch inner [(false, .act id)] none)
      (Recorded.init 0)).2.marks = [.left 1] := by decide
  rw [hmarks] at honce
  exact absurd (honce.before [] 1 [] rfl) nofun
end CppTrack.TryFinally
