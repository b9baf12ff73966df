import CppTrack.Exceptions.TryCatch

/-!
# The exception macros are structured exceptions

The frame stack is pushed in one place and popped in four. What carries the proof is that a
statement leaves it in one of two ways: if it falls through, as it found it; if it jumps, it jumps
to the frame that was on top, with that frame popped and filled in (`Ends`). Both are by induction
on the steps, and so is that every block that is jumped to has not been left.
-/

namespace CppTrack.TryCatch

variable {σ Exn Fn : Type}

/--
The frames from a pointer on: none of their blocks has been left, and each was pushed before those
above it.
-/
inductive OnStack (frames : Nat → Option (ExceptionFrame Exn)) : Option Nat → Prop where
  | empty : OnStack frames none
  | frame {top : Nat} {f : ExceptionFrame Exn} :
      frames top = some f → (∀ p, f.prev = some p → p < top) → OnStack frames f.prev →
      OnStack frames (some top)

/-- What holds of the machine wherever it is in the program. -/
structure Sound (m : Machine σ Exn) : Prop where
  onStack : OnStack m.frames m.stack
  below : ∀ top, m.stack = some top → top < m.next

/-- Only frames from the top one down matter. -/
theorem OnStack.congr {frames frames' : Nat → Option (ExceptionFrame Exn)} {p : Option Nat}
    (h : OnStack frames p) {n : Nat} (hp : ∀ top, p = some top → top < n)
    (hsame : ∀ i, i < n → frames' i = frames i) : OnStack frames' p := by
  induction h with
  | empty => exact .empty
  | @frame top f hf hprev hrest ih =>
      have htop := hp top rfl
      exact .frame ((hsame top htop).trans hf) hprev
        (ih fun q hq => Nat.lt_trans (hprev q hq) htop)

/-- The frame the stack points to. -/
theorem Sound.top {m : Machine σ Exn} (h : Sound m) {top : Nat} (htop : m.stack = some top) :
    ∃ f, m.frames top = some f ∧ (∀ p, f.prev = some p → p < top) ∧ OnStack m.frames f.prev := by
  have hon := h.onStack
  rw [htop] at hon
  cases hon with
  | frame hf hprev hrest => exact ⟨_, hf, hprev, hrest⟩

/-- How `exec` leaves a statement, against how `ref` leaves it. -/
def Matches (m m' : Machine σ Exn) (o : Outcome) : Left Exn → Prop
  | .normal => o = .normal ∧ m'.stack = m.stack ∧ ∀ i, i < m.next → m'.frames i = m.frames i
  | .thrown e site => ∃ top f message, m.stack = some top ∧ m.frames top = some f ∧
      o = .jump top .thrown ∧ m'.stack = f.prev ∧
      m'.frames top = some ⟨some (e, site), f.prev, message⟩ ∧
      ∀ i, i < m.next → i ≠ top → m'.frames i = m.frames i
  | .stopped => o = .stopped

/-- `EndTry` leaves the stack as `Try` found it. -/
def Balanced (m : Machine σ Exn) : Prop := ∀ b ∈ m.ends, b.1 = b.2

/-- What running a statement from `m` does, against the reference. -/
structure Ends (m m' : Machine σ Exn) (o : Outcome) (r : Left Exn × Plain σ Exn) : Prop where
  store : m'.store = r.2.store
  out : m'.out = r.2.out
  next : m.next ≤ m'.next
  balanced : Balanced m → Balanced m'
  left : Matches m m' o r.1

/-- The machine without its exception machinery. -/
def Machine.plain (m : Machine σ Exn) : Plain σ Exn := ⟨m.store, m.out⟩

section

variable {m m' m'' : Machine σ Exn} {o o' : Outcome} {r : Plain σ Exn}
  {l : Left Exn × Plain σ Exn} {e : Exn} {site : Site}

theorem Ends.plain_eq {left : Left Exn} (h : Ends m m' o (left, r)) : m'.plain = r := by
  show (⟨m'.store, m'.out⟩ : Plain σ Exn) = r
  rw [h.store, h.out]

/-- A statement that fell through leaves the stack sound. -/
theorem Ends.sound (hm : Sound m) (h : Ends m m' o (.normal, r)) : Sound m' := by
  obtain ⟨-, hstack, hsame⟩ := h.left
  refine ⟨hstack ▸ hm.onStack.congr hm.below hsame, fun top htop => ?_⟩
  exact Nat.lt_of_lt_of_le (hm.below top (hstack ▸ htop)) h.next

/-- A statement after one that fell through. -/
theorem Ends.andThen (hm : Sound m) (h : Ends m m' o (.normal, r)) (h' : Ends m' m'' o' l) :
    Ends m m'' o' l := by
  obtain ⟨-, hstack, hsame⟩ := h.left
  refine ⟨h'.store, h'.out, Nat.le_trans h.next h'.next, fun hb => h'.balanced (h.balanced hb), ?_⟩
  have hle := h.next
  have hleft := h'.left
  cases hl : l.1 with
  | normal =>
      rw [hl] at hleft
      obtain ⟨ho, hstack', hsame'⟩ := hleft
      refine ⟨ho, hstack'.trans hstack, fun i hi => ?_⟩
      rw [hsame' i (Nat.lt_of_lt_of_le hi hle), hsame i hi]
  | thrown e site =>
      rw [hl] at hleft
      obtain ⟨top, f, message, htop, hf, ho, hprev, hframe, hsame'⟩ := hleft
      rw [hstack] at htop
      rw [hsame top (hm.below top htop)] at hf
      refine ⟨top, f, message, htop, hf, ho, hprev, hframe, fun i hi hne => ?_⟩
      rw [hsame' i (Nat.lt_of_lt_of_le hi hle) hne, hsame i hi]
  | stopped =>
      rw [hl] at hleft
      exact hleft

/-- `ntyExceptionThrow` jumps to the top frame, or reports if there is none. -/
theorem throw_ends (hm : Sound m) (e : Exn) (site : Site) (cause : Option (List Char)) :
    Ends m (m.ntyExceptionThrow e site cause).2 (m.ntyExceptionThrow e site cause).1
      (raise m.stack.isSome e site cause m.plain) := by
  rw [Machine.ntyExceptionThrow, raise]
  cases htop : m.stack with
  | none =>
      exact ⟨rfl, rfl, Nat.le_refl _, id, rfl, htop.symm, fun _ _ => rfl⟩
  | some top =>
      obtain ⟨f, hf, -, -⟩ := hm.top htop
      simp only [hf, Machine.popStack, Option.bind_some, Function.update_self,
        Option.map_some, Option.isSome_some, if_true]
      refine ⟨rfl, rfl, Nat.le_refl _, id, top, f, _, htop, hf, rfl, rfl,
        Function.update_self _ _ _, fun i _ hne => ?_⟩
      exact Function.update_of_ne hne _ _

/-! ## One block -/

theorem Machine.enter_frames {i : Nat} (hi : i < m.next) : m.enter.frames i = m.frames i :=
  Function.update_of_ne (Nat.ne_of_lt hi) _ _

/-- `Try` pushes a frame. -/
theorem Sound.enter (hm : Sound m) : Sound m.enter := by
  have hold := hm.onStack.congr hm.below fun i hi => Machine.enter_frames hi
  refine ⟨.frame (Function.update_self _ _ _) hm.below hold, ?_⟩
  intro top htop
  obtain rfl := Option.some.inj htop
  exact Nat.lt_succ_self _

/-- The block of `Try` is left by a clause or by the end of its body, at the stack it found. -/
theorem completed_ends {before : Machine σ Exn} {frame : Nat} (hframe : before.next ≤ frame)
    (hstack : m.stack = before.stack) (hnext : before.next ≤ m.next)
    (hbal : Balanced before → Balanced m)
    (hsame : ∀ i, i < before.next → m.frames i = before.frames i) :
    Ends before { m.leave frame with ends := m.ends ++ [(before.stack, m.stack)] } .normal
      (.normal, m.plain) := by
  refine ⟨rfl, rfl, hnext, fun hb b hin => ?_, rfl, hstack, fun i hi => ?_⟩
  · rcases List.mem_append.mp hin with hin | hin
    · exact hbal hb b hin
    · obtain rfl := List.mem_singleton.mp hin
      exact hstack.symm
  · show Function.update m.frames frame none i = before.frames i
    rw [Function.update_of_ne (Nat.ne_of_lt (Nat.lt_of_lt_of_le hi hframe))]
    exact hsame i hi

/-- The frame of a block that is left by a jump goes with it. -/
theorem Ends.leave (hm : Sound m) {frame : Nat} (hframe : m.next ≤ frame)
    (h : Ends m m' o (.thrown e site, r)) : Ends m (m'.leave frame) o (.thrown e site, r) := by
  obtain ⟨top, f, message, htop, hf, ho, hprev, hfilled, hsame⟩ := h.left
  have hout : ∀ i, i < m.next → (m'.leave frame).frames i = m'.frames i := by
    intro i hi
    exact Function.update_of_ne (Nat.ne_of_lt (Nat.lt_of_lt_of_le hi hframe)) _ _
  refine ⟨h.store, h.out, h.next, h.balanced, top, f, message, htop, hf, ho, hprev, ?_, ?_⟩
  · rw [hout top (hm.below top htop)]
    exact hfilled
  · intro i hi hne
    rw [hout i hi]
    exact hsame i hi hne

/-- The body has come to its end and its frame is taken off the stack. -/
theorem Ends.fell (h : Ends m.enter m' o (.normal, r)) :
    o = .normal ∧ m'.popStack = some { m' with stack := m.stack } ∧
      Ends m { m' with stack := m.stack } .normal (.normal, r) := by
  obtain ⟨ho, hstack, hsame⟩ := h.left
  have hframe : m'.frames m.next = some ⟨none, m.stack, []⟩ :=
    (hsame m.next (Nat.lt_succ_self _)).trans (Function.update_self _ _ _)
  have hpop : m'.popStack = some { m' with stack := m.stack } := by
    rw [Machine.popStack, hstack]
    show ((m'.frames m.next).map fun frame => _) = _
    rw [hframe]
    rfl
  refine ⟨ho, hpop, h.store, h.out, Nat.le_of_succ_le h.next, h.balanced, rfl, rfl,
    fun i hi => ?_⟩
  exact (hsame i (Nat.lt_succ_of_lt hi)).trans (Machine.enter_frames hi)

/-- The body has been left by an exception that is in its frame; as far as the blocks around are
concerned, it has fallen through. -/
theorem Ends.entered (h : Ends m.enter m' o (.thrown e site, r)) :
    o = .jump m.next .thrown ∧
      (∃ message, m'.frames m.next = some ⟨some (e, site), m.stack, message⟩) ∧
      m'.stack = m.stack ∧ Ends m m' .normal (.normal, r) := by
  obtain ⟨top, f, message, htop, hf, ho, hstack, hframe, hsame⟩ := h.left
  obtain rfl := Option.some.inj htop
  have hpushed : m.enter.frames m.next = some ⟨none, m.stack, []⟩ := Function.update_self _ _ _
  obtain rfl := Option.some.inj (hpushed.symm.trans hf)
  have hstack : m'.stack = m.stack := hstack
  refine ⟨ho, ⟨message, hframe⟩, hstack, h.store, h.out, Nat.le_of_succ_le h.next, h.balanced, rfl,
    hstack, fun i hi => ?_⟩
  rw [hsame i (Nat.lt_succ_of_lt hi) (Nat.ne_of_lt hi)]
  exact Machine.enter_frames hi

/-- A block whose clause, or the throw at whose end, ends in some way ends in that way. -/
theorem Ends.close (hm : Sound m) (h : Ends m m'' o l) :
    (o = .normal ∧ Ends m { m''.leave m.next with ends := m''.ends ++ [(m.stack, m''.stack)] }
        .normal l) ∨
      (∃ target val, o = .jump target val ∧ Ends m (m''.leave m.next) o l) ∨
      (o = .stopped ∧ l.1 = .stopped) := by
  obtain ⟨left, r⟩ := l
  cases left with
  | normal =>
      obtain ⟨rfl, hstack, hsame⟩ := h.left
      rw [← h.plain_eq]
      exact .inl ⟨rfl, completed_ends (Nat.le_refl _) hstack h.next h.balanced hsame⟩
  | thrown e site =>
      obtain ⟨top, f, message, -, -, rfl, -⟩ := h.left
      exact .inr (.inl ⟨_, _, rfl, h.leave hm (Nat.le_refl _)⟩)
  | stopped =>
      obtain rfl := h.left
      exact .inr (.inr ⟨rfl, rfl⟩)

/-- `EndTry` with nothing to throw on. -/
theorem Ends.endTry (hm : Sound m) (h : Ends m m' .normal (.normal, r)) {flag : ExceptionFlag}
    (hflag : flag ≠ .thrown) :
    Ends m (m'.endTry m.stack m.next flag).2 (m'.endTry m.stack m.next flag).1 (.normal, r) := by
  rw [Machine.endTry, if_neg hflag]
  rcases h.close hm with ⟨-, hends⟩ | ⟨_, _, ho, -⟩ | ⟨ho, -⟩
  · exact hends
  · exact absurd ho nofun
  · exact absurd ho nofun

/-- `EndTry` with an exception in the frame, which goes to the next block. -/
theorem Ends.endTry_thrown (hm : Sound m) (h : Ends m m' .normal (.normal, r))
    {prev : Option Nat} {message : List Char}
    (hframe : m'.frames m.next = some ⟨some (e, site), prev, message⟩) :
    Ends m (m'.endTry m.stack m.next .thrown).2 (m'.endTry m.stack m.next .thrown).1
      (raise m.stack.isSome e site none r) := by
  obtain ⟨-, hstack, -⟩ := h.left
  have h' := throw_ends (h.sound hm) e site none
  rw [hstack, h.plain_eq] at h'
  have hafter := h.andThen hm h'
  simp only [Machine.endTry, if_true]
  rw [hframe]
  simp only [Option.bind_some]
  cases hthrow : m'.ntyExceptionThrow e site none with
  | mk o' m'' =>
  rw [hthrow] at hafter
  rcases hafter.close hm with ⟨rfl, hends⟩ | ⟨target, val, rfl, hends⟩ | ⟨-, hstop⟩
  · exact hends
  · exact hends
  · -- a throw does not wait for anything
    exact absurd hstop (by rw [raise]; split <;> exact nofun)

end

variable [DecidableEq Exn] {P : Fn → Stmt σ Exn Fn}

/-- The macros and the reference look for the same clause. -/
theorem find_clause {α : Type} (e : Exn) (site : Site) (catches : List (Exn × α)) :
    (catches.find? fun c => (some (e, site)).map Prod.fst = some c.1) =
      catches.find? fun c => c.1 = e := by
  refine congrArg (fun p => catches.find? p) (funext fun c => ?_)
  exact decide_eq_decide.mpr (Option.some_inj.trans eq_comm)

/-- A whole block, for statements run with fewer steps inside it. -/
theorem tryCatch_ends {fuel : Nat} (ih : ∀ (s : Stmt σ Exn Fn) {m : Machine σ Exn}, Sound m →
      Ends m (exec P fuel s m).2 (exec P fuel s m).1 (ref P fuel s m.stack.isSome m.plain))
    (body : Stmt σ Exn Fn) (catches : List (Exn × Stmt σ Exn Fn)) {m : Machine σ Exn}
    (hm : Sound m) :
    Ends m (exec P (fuel + 1) (.tryCatch body catches) m).2
      (exec P (fuel + 1) (.tryCatch body catches) m).1
      (ref P (fuel + 1) (.tryCatch body catches) m.stack.isSome m.plain) := by
  rw [exec, ref]
  have h := ih body hm.enter
  cases hexec : exec P fuel body m.enter with
  | mk o m' =>
  cases href : ref P fuel body true m.plain with
  | mk left r =>
  rw [show m.enter.stack.isSome = true from rfl, show m.enter.plain = m.plain from rfl,
    hexec, href] at h
  cases left with
  | stopped =>
      obtain rfl := h.left
      exact ⟨h.store, h.out, Nat.le_of_succ_le h.next, h.balanced, rfl⟩
  | normal =>
      obtain ⟨rfl, hpop, hends⟩ := h.fell
      simp only [Machine.branchEnd, if_true, hpop]
      exact hends.endTry hm nofun
  | thrown e site =>
      obtain ⟨rfl, ⟨message, hframe⟩, hstack, hmid⟩ := h.entered
      have hm' : Sound m' := hmid.sound hm
      simp only [if_true]
      rw [hframe]
      simp only [find_clause e site catches]
      cases hclause : catches.find? fun c => c.1 = e with
      | some c =>
          have h' := ih c.2 hm'
          rw [hstack, hmid.plain_eq] at h'
          have hafter := hmid.andThen hm h'
          cases hexec' : exec P fuel c.2 m' with
          | mk o' m'' =>
          rw [hexec'] at hafter
          simp only [hexec']
          rcases hafter.close hm with ⟨rfl, hends⟩ | ⟨target, val, rfl, hends⟩ | ⟨rfl, -⟩
          · exact hends
          · exact hends
          · exact hafter
      | none =>
          exact hmid.endTry_thrown hm hframe

/-! ## Every statement -/

theorem exec_ends (fuel : Nat) (s : Stmt σ Exn Fn) {m : Machine σ Exn} (hm : Sound m) :
    Ends m (exec P fuel s m).2 (exec P fuel s m).1 (ref P fuel s m.stack.isSome m.plain) := by
  induction fuel generalizing s m with
  | zero => exact ⟨rfl, rfl, Nat.le_refl _, id, rfl⟩
  | succ fuel ih =>
      cases s with
      | act f => exact ⟨rfl, rfl, Nat.le_refl _, id, rfl, rfl, fun _ _ => rfl⟩
      | throw e site cause => exact throw_ends hm e site _
      | ite c s t => exact ih _ hm
      | call f => exact ih _ hm
      | loop c s =>
          rw [exec, ref]
          show Ends m _ _ (if c m.store then _ else _)
          split
          · exact ih _ hm
          · exact ⟨rfl, rfl, Nat.le_refl _, id, rfl, rfl, fun _ _ => rfl⟩
      | seq s t =>
          rw [exec, ref]
          have h := ih s hm
          cases hexec : exec P fuel s m with
          | mk o m' =>
          cases href : ref P fuel s m.stack.isSome m.plain with
          | mk l r =>
          rw [hexec, href] at h
          cases l with
          | normal =>
              obtain ⟨rfl, hstack, -⟩ := h.left
              have h' := ih t (h.sound hm)
              rw [hstack, h.plain_eq] at h'
              exact h.andThen hm h'
          | thrown e site =>
              obtain ⟨top, f, message, -, -, rfl, -⟩ := h.left
              exact h
          | stopped =>
              obtain rfl := h.left
              exact h
      | tryCatch body catches => exact tryCatch_ends ih body catches hm

/--
**Runs of whole programs.** However many steps it is given, the expanded program does to the store
what the reference semantics does and prints the same reports; it falls through when the reference
does, never jumps to a block that has been left, and each `EndTry` that completed left
`ExceptionStack` as its `Try` found it.
-/
theorem exec_refines (P : Fn → Stmt σ Exn Fn) (fuel : Nat) (s : Stmt σ Exn Fn) (store : σ) :
    (exec P fuel s (Machine.init store)).2.store = (ref P fuel s false ⟨store, []⟩).2.store ∧
    (exec P fuel s (Machine.init store)).2.out = (ref P fuel s false ⟨store, []⟩).2.out ∧
    ((exec P fuel s (Machine.init store)).1 = .normal ∧
        (ref P fuel s false ⟨store, []⟩).1 = .normal ∨
      (exec P fuel s (Machine.init store)).1 = .stopped ∧
        (ref P fuel s false ⟨store, []⟩).1 = .stopped) ∧
    ∀ b ∈ (exec P fuel s (Machine.init store)).2.ends, b.1 = b.2 := by
  have hm : Sound (Machine.init store : Machine σ Exn) := ⟨.empty, fun _ h => absurd h nofun⟩
  have h := exec_ends (P := P) fuel s hm
  have h : Ends (Machine.init store) (exec P fuel s (Machine.init store)).2
      (exec P fuel s (Machine.init store)).1 (ref P fuel s false ⟨store, []⟩) := h
  refine ⟨h.store, h.out, ?_, h.balanced fun b hb => absurd hb List.not_mem_nil⟩
  have hleft := h.left
  cases hl : (ref P fuel s false ⟨store, []⟩).1 with
  | normal =>
      rw [hl] at hleft
      exact .inl ⟨hleft.1, rfl⟩
  | thrown e site =>
      rw [hl] at hleft
      obtain ⟨top, f, message, htop, -⟩ := hleft
      exact absurd htop nofun
  | stopped =>
      rw [hl] at hleft
      exact .inr ⟨hleft, rfl⟩

end CppTrack.TryCatch
