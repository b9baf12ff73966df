import CppTrack.Exceptions.Finally
import CppTrack.Exceptions.TryCatchProof

/-!
# What an exception takes along

A `Throw` records the exception, its place and its text in the top frame. `EndTry` throws on what
no clause of its block took, from its frame to the next, but with `NULL` for the cause: the next
frame keeps the text it has, which is empty. So the exception and its place come through any number
of blocks, and the text is lost at the first.

To say so, a record is kept beside a run of what each exception was when it was thrown, how many
times it was thrown on, and which frames it was caught in.
-/

namespace CppTrack.TryFinally

open TryCatch

variable {σ Exn Fn : Type}

/-- What a `Throw` recorded, and how many times `EndTry` has thrown it on since. -/
structure Flight (Exn : Type) where
  exception : Option (Exn × Site)
  message : List Char
  hops : Nat

/-- A frame at a clause that fits, and the flight that ends there. -/
structure Caught (Exn : Type) where
  frame : ExceptionFrame Exn
  flight : Option (Flight Exn)

/-- The record beside a run. -/
structure Trail (Exn : Type) where
  /-- The flights, by the frames that the exceptions are in. -/
  flights : Nat → Option (Flight Exn)
  caught : List (Caught Exn)

namespace Trail

def empty : Trail Exn := ⟨fun _ => none, []⟩

/-- `Throw`: what is in the frame it jumps to. -/
def threw (g : Trail Exn) : Outcome × Machine σ Exn → Trail Exn
  | (.jump top _, m) =>
      let l := (m.frames top).map fun f => ⟨f.exception, f.message, 0⟩
      { g with flights := Function.update g.flights top l }
  | _ => g

/-- A clause fits. -/
def took (g : Trail Exn) (frame : Nat) (f : ExceptionFrame Exn) : Trail Exn :=
  { g with caught := g.caught ++ [⟨f, g.flights frame⟩] }

/-- `EndTry`: what was in the frame of the block goes on to the one it jumps to. -/
def ended (g : Trail Exn) (frame : Nat) : Reached σ Exn → Outcome → Trail Exn
  | .after _ _, .jump top _ =>
      let l := (g.flights frame).map fun l => { l with hops := l.hops + 1 }
      { g with flights := Function.update g.flights top l }
  | _, _ => g

end Trail

/-- A statement followed from a state. -/
abbrev Following (σ Exn Fn : Type) := Stmt σ Exn Fn → Recorded σ Exn → Trail Exn → Trail Exn

/-- The frame that catches an exception says of it what the `Throw` said. -/
def Caught.Survived (c : Caught Exn) : Prop :=
  ∃ l, c.flight = some l ∧ c.frame.exception = l.exception ∧ c.frame.message = l.message

section

variable [DecidableEq Exn]

/-- The clauses, from how the body was left. -/
def chainTrail (follow : Following σ Exn Fn) (catches : List (Exn × Stmt σ Exn Fn)) (frame : Nat)
    (body : Outcome × Recorded σ Exn) (g : Trail Exn) : Trail Exn :=
  match body with
  | (.jump target _, m) =>
      if target = frame then
        match m.frames frame with
        | some f =>
            match catches.find? (fun c => f.exception.map Prod.fst = some c.1) with
            | some c => follow c.2 m (g.took frame f)
            | none => g
        | none => g
      else g
  | _ => g

/-- The `Finally` part. -/
def finallyTrail (follow : Following σ Exn Fn) (fin : Option (Stmt σ Exn Fn)) (frame : Nat)
    (c : Reached σ Exn) (g : Trail Exn) : Trail Exn :=
  match c, fin with
  | .after _ m, some s => follow s (m.mark (.final frame)) g
  | _, _ => g

/-- The record, along a run of the expanded program. -/
def trail (P : Fn → Stmt σ Exn Fn) : (fuel : Nat) → Following σ Exn Fn
  | 0, _, _, g => g
  | _ + 1, .act _, _, g => g
  | _ + 1, .throw e site cause, m, g => g.threw (m.ntyExceptionThrow e site (cause m.store))
  | fuel + 1, .seq s t, m, g =>
      match exec P fuel s m with
      | (.normal, m') => trail P fuel t m' (trail P fuel s m g)
      | _ => trail P fuel s m g
  | fuel + 1, .ite c s t, m, g => trail P fuel (if c m.store then s else t) m g
  | fuel + 1, .loop c s, m, g =>
      if c m.store then trail P fuel (.seq s (.loop c s)) m g else g
  | fuel + 1, .call f, m, g => trail P fuel (P f) m g
  | fuel + 1, .tryCatch body catches fin, m, g =>
      let left := exec P fuel body { m with toMachine := m.enter }
      let g := trail P fuel body { m with toMachine := m.enter } g
      let g := chainTrail (trail P fuel) catches m.next left g
      let chained := chain (exec P fuel) catches m.next left
      let g := finallyTrail (trail P fuel) fin m.next chained g
      let closed := finallyPart (exec P fuel) fin m.next chained
      g.ended m.next closed (closed.endTry m.stack m.next).1

end

/-! ## Frames without a text -/

/-- No frame from a pointer on has a text in it. -/
inductive Blank (frames : Nat → Option (ExceptionFrame Exn)) : Option Nat → Prop where
  | empty : Blank frames none
  | frame {top : Nat} {f : ExceptionFrame Exn} :
      frames top = some f → f.message = [] → (∀ p, f.prev = some p → p < top) →
      Blank frames f.prev → Blank frames (some top)

section

variable {m m' m'' : Machine σ Exn} {g g' g'' : Trail Exn} {o o' : Outcome} {e : Exn} {site : Site}

theorem Blank.congr {frames frames' : Nat → Option (ExceptionFrame Exn)} {p : Option Nat}
    (h : Blank frames p) {n : Nat} (hp : ∀ top, p = some top → top < n)
    (hsame : ∀ i, i < n → frames' i = frames i) : Blank frames' p := by
  induction h with
  | empty => exact .empty
  | @frame top f hf hblank hprev _ ih =>
      have htop := hp top rfl
      exact .frame ((hsame top htop).trans hf) hblank hprev
        (ih fun q hq => Nat.lt_trans (hprev q hq) htop)

theorem Blank.enter (hm : Sound m) (h : Blank m.frames m.stack) :
    Blank m.enter.frames m.enter.stack :=
  .frame (Function.update_self _ _ _) rfl hm.below
    (h.congr hm.below fun _ hi => Machine.enter_frames hi)

theorem Blank.after {r : Plain σ Exn} (hm : Sound m) (h : Blank m.frames m.stack)
    (hends : Ends m m' o (.normal, r)) : Blank m'.frames m'.stack := by
  obtain ⟨-, hstack, hsame⟩ := hends.left
  exact hstack ▸ h.congr hm.below hsame

/-! ## One statement after another -/

/-- The exception in a frame is the one its flight began with, and the text is still there unless
it was thrown on. -/
structure Carries (f : ExceptionFrame Exn) (l : Flight Exn) : Prop where
  exception : f.exception = l.exception
  message : f.message = if l.hops = 0 then l.message else []

/-- A catching frame with its flight. -/
def Caught.Right (c : Caught Exn) : Prop := ∃ l, c.flight = some l ∧ Carries c.frame l

/-- What a statement does to the machine and to the record. -/
structure Follows (m : Machine σ Exn) (g : Trail Exn) (m' : Machine σ Exn) (o : Outcome)
    (g' : Trail Exn) : Prop where
  ends : ∃ l, Ends m m' o (l, m'.plain)
  caught : (∀ c ∈ g.caught, c.Right) → ∀ c ∈ g'.caught, c.Right
  kept : ∀ i, i < m.next → (∀ val, o ≠ .jump i val) → g'.flights i = g.flights i
  carries : ∀ top val, o = .jump top val →
    ∃ f l, m'.frames top = some f ∧ g'.flights top = some l ∧ Carries f l

theorem Follows.refl (m : Machine σ Exn) (g : Trail Exn) : Follows m g m .normal g :=
  ⟨⟨.normal, rfl, rfl, Nat.le_refl _, id, rfl, rfl, fun _ _ => rfl⟩, id, fun _ _ _ => rfl, nofun⟩

/-- A statement that fell through. -/
theorem Follows.normal (h : Follows m g m' .normal g') :
    Ends m m' .normal (.normal, m'.plain) := by
  obtain ⟨l, hl⟩ := h.ends
  cases l with
  | normal => exact hl
  | thrown e site =>
      obtain ⟨_, _, _, -, -, ho, -⟩ := hl.left
      exact absurd ho nofun
  | stopped => exact absurd hl.left nofun

theorem Follows.next (h : Follows m g m' o g') : m.next ≤ m'.next := by
  obtain ⟨_, hl⟩ := h.ends
  exact hl.next

theorem Follows.andThen (hm : Sound m) (h : Follows m g m' .normal g')
    (h' : Follows m' g' m'' o g'') : Follows m g m'' o g'' := by
  obtain ⟨l, hl⟩ := h'.ends
  refine ⟨⟨l, h.normal.andThen hm hl⟩, fun hg => h'.caught (h.caught hg), fun i hi hne => ?_,
    h'.carries⟩
  rw [h'.kept i (Nat.lt_of_lt_of_le hi h.normal.next) hne]
  exact h.kept i hi nofun

/-- `Throw`. -/
theorem throw_follows (hm : Sound m) (g : Trail Exn) (e : Exn) (site : Site)
    (cause : Option (List Char)) :
    Follows m g (m.ntyExceptionThrow e site cause).2 (m.ntyExceptionThrow e site cause).1
      (g.threw (m.ntyExceptionThrow e site cause)) := by
  have hends := throw_ends hm e site cause
  cases hthrow : m.ntyExceptionThrow e site cause with
  | mk o m' =>
  rw [hthrow] at hends
  cases hraise : raise m.stack.isSome e site cause m.plain with
  | mk l r =>
  rw [hraise] at hends
  have hplain := hends.plain_eq
  dsimp only at hends hplain ⊢
  subst hplain
  cases l with
  | normal =>
      obtain ⟨rfl, -, -⟩ := hends.left
      exact ⟨⟨_, hends⟩, id, fun _ _ _ => rfl, nofun⟩
  | stopped =>
      obtain rfl := hends.left
      exact ⟨⟨_, hends⟩, id, fun _ _ _ => rfl, nofun⟩
  | thrown e site =>
      obtain ⟨top, f, message, -, -, rfl, -, hframe, -⟩ := hends.left
      refine ⟨⟨_, hends⟩, id, fun i _ hne => ?_, fun t val ho => ?_⟩
      · have hi : i ≠ top := fun heq => hne .thrown (heq ▸ rfl)
        exact Function.update_of_ne hi _ _
      · obtain ⟨rfl, -⟩ := Outcome.jump.inj ho
        refine ⟨_, ⟨some (e, site), message, 0⟩, hframe, ?_, ⟨rfl, rfl⟩⟩
        show Function.update g.flights top _ top = _
        rw [Function.update_self, hframe]
        rfl

/-! ## One block -/

/-- An exception waits in a frame, with its flight, to be thrown on. -/
def Waits (m : Machine σ Exn) (g : Trail Exn) (frame : Nat) : Prop :=
  ∃ e site prev message l, m.frames frame = some ⟨some (e, site), prev, message⟩ ∧
    g.flights frame = some l ∧ Carries ⟨some (e, site), prev, message⟩ l

/-- Inside a block that was entered from `m`, behind its clauses. -/
inductive InBlock (m : Machine σ Exn) (g : Trail Exn) : Reached σ Exn → Trail Exn → Prop where
  | after {flag : ExceptionFlag} {r : Recorded σ Exn} {g' : Trail Exn} :
      Follows m g r.toMachine .normal g' → m.next < r.next →
      (flag = .thrown → Waits r.toMachine g' m.next) → InBlock m g (.after flag r) g'
  | left {o : Outcome} {r : Recorded σ Exn} {g' : Trail Exn} :
      Follows m g r.toMachine o g' → o ≠ .normal → InBlock m g (.left o r) g'

/-- The body came to its end. -/
theorem body_normal {r : Plain σ Exn} (h : Follows m.enter g m' o g')
    (hl : Ends m.enter m' o (.normal, r)) :
    o = .normal ∧ m'.popStack = some { m' with stack := m.stack } ∧
      Follows m g { m' with stack := m.stack } .normal g' := by
  obtain ⟨rfl, hpop, hends⟩ := hl.fell
  have hplain := hends.plain_eq
  subst hplain
  refine ⟨rfl, hpop, ⟨_, hends⟩, h.caught, fun i hi _ => ?_, nofun⟩
  exact h.kept i (Nat.lt_succ_of_lt hi) nofun

/-- The body was left by an exception, which is in the frame of the block. -/
theorem body_thrown {r : Plain σ Exn} (h : Follows m.enter g m' o g')
    (hl : Ends m.enter m' o (.thrown e site, r)) :
    o = .jump m.next .thrown ∧ m'.stack = m.stack ∧ Follows m g m' .normal g' ∧
      ∃ message l, m'.frames m.next = some ⟨some (e, site), m.stack, message⟩ ∧
        g'.flights m.next = some l ∧ Carries ⟨some (e, site), m.stack, message⟩ l := by
  obtain ⟨rfl, ⟨message, hframe⟩, hstack, hmid⟩ := hl.entered
  have hplain := hmid.plain_eq
  subst hplain
  refine ⟨rfl, hstack, ⟨⟨_, hmid⟩, h.caught, fun i hi _ => ?_, nofun⟩, message, ?_⟩
  · refine h.kept i (Nat.lt_succ_of_lt hi) fun val heq => ?_
    exact absurd (Outcome.jump.inj heq).1 (Nat.ne_of_gt hi)
  · obtain ⟨f, l, hf, hflight, hcarries⟩ := h.carries m.next .thrown rfl
    obtain rfl := Option.some.inj (hframe.symm.trans hf)
    exact ⟨l, hframe, hflight, hcarries⟩

/-- The catching frame is noted. -/
theorem Follows.took (h : Follows m g m' .normal g') {frame : Nat} {f : ExceptionFrame Exn}
    {l : Flight Exn} (hflight : g'.flights frame = some l) (hcarries : Carries f l) :
    Follows m g m' .normal (g'.took frame f) := by
  refine ⟨h.ends, fun hg c hc => ?_, h.kept, nofun⟩
  rcases List.mem_append.mp hc with hc | hc
  · exact h.caught hg c hc
  · obtain rfl := List.mem_singleton.mp hc
    exact ⟨l, hflight, hcarries⟩

/-- What happens in the `Finally` part leaves the frame of the block alone. -/
theorem Waits.follows {m₁ m₂ : Machine σ Exn} {g₁ g₂ : Trail Exn} {frame : Nat}
    (h : Waits m₁ g₁ frame) (hlt : frame < m₁.next) (hf : Follows m₁ g₁ m₂ .normal g₂) :
    Waits m₂ g₂ frame := by
  obtain ⟨e, site, prev, message, l, hframe, hflight, hcarries⟩ := h
  obtain ⟨-, -, hsame⟩ := hf.normal.left
  exact ⟨e, site, prev, message, l, (hsame frame hlt).trans hframe,
    (hf.kept frame hlt nofun).trans hflight, hcarries⟩

/-- A block that is left by a jump takes its frame along. -/
theorem Follows.leave (hm : Sound m) {top : Nat} {val : ExceptionFlag}
    (h : Follows m g m' (.jump top val) g') :
    Follows m g (m'.leave m.next) (.jump top val) g' := by
  obtain ⟨l, hl⟩ := h.ends
  cases l with
  | normal => exact absurd hl.left.1 nofun
  | stopped => exact absurd hl.left nofun
  | thrown e site =>
      refine ⟨⟨_, hl.leave hm (Nat.le_refl _)⟩, h.caught, h.kept, fun t v ho => ?_⟩
      obtain ⟨f, l, hf, hflight, hcarries⟩ := h.carries t v ho
      obtain ⟨top', _, _, htop, -, ho', -⟩ := hl.left
      obtain ⟨rfl, -⟩ := Outcome.jump.inj (ho.symm.trans ho')
      refine ⟨f, l, ?_, hflight, hcarries⟩
      exact (Function.update_of_ne (Nat.ne_of_lt (hm.below t htop)) _ _).trans hf

/-- `EndTry` with nothing to throw on, or with nobody to throw it to. -/
theorem endTry_completed {flag : ExceptionFlag} {r : Plain σ Exn} (h : Follows m g m' .normal g')
    (hends : Ends m (m'.endTry m.stack m.next flag).2 (m'.endTry m.stack m.next flag).1
      (.normal, r)) :
    (m'.endTry m.stack m.next flag).1 = .normal ∧
      Follows m g (m'.endTry m.stack m.next flag).2 .normal g' := by
  have ho := hends.left.1
  have hplain := hends.plain_eq
  subst hplain
  exact ⟨ho, ⟨_, ho ▸ hends⟩, h.caught, h.kept, nofun⟩

/-- `EndTry` throws on to the block around. -/
theorem endTry_rethrown {top : Nat} {f : ExceptionFrame Exn} {prev : Option Nat}
    {message : List Char} (hstack : m'.stack = some top) (hf : m'.frames top = some f)
    (hframe : m'.frames m.next = some ⟨some (e, site), prev, message⟩) (hne : top ≠ m.next) :
    (m'.endTry m.stack m.next .thrown).1 = .jump top .thrown ∧
      (m'.endTry m.stack m.next .thrown).2.frames top =
        some ⟨some (e, site), f.prev, f.message⟩ := by
  simp only [Machine.endTry, if_true, hframe, Option.bind_some, Machine.ntyExceptionThrow, hstack,
    hf, Machine.popStack, Function.update_self, Option.map_some, Option.map_none,
    Option.getD_none, Machine.leave, Function.update_of_ne hne]
  exact ⟨trivial, trivial⟩

/-- `EndTry`. Where it throws on, the frame it throws to keeps the text it has, which is empty. -/
theorem endTry_follows {r : Recorded σ Exn} {flag : ExceptionFlag} (hm : Sound m)
    (hblank : Blank m.frames m.stack) (h : Follows m g r.toMachine .normal g')
    (hpending : flag = .thrown → Waits r.toMachine g' m.next) :
    Follows m g (r.toMachine.endTry m.stack m.next flag).2
      (r.toMachine.endTry m.stack m.next flag).1
      (g'.ended m.next (.after flag r) (r.toMachine.endTry m.stack m.next flag).1) := by
  by_cases hflag : flag = .thrown
  · subst hflag
    obtain ⟨e, site, prev, message, l, hframe, hflight, hcarries⟩ := hpending rfl
    have hends := h.normal.endTry_thrown hm hframe
    obtain ⟨-, hstack, hsame⟩ := h.normal.left
    have hbelow := hblank.after hm h.normal
    rw [hstack] at hbelow
    rcases Option.eq_none_or_eq_some m.stack with htop | ⟨top, htop⟩
    · obtain ⟨r', hraise⟩ : ∃ r', raise m.stack.isSome e site none r.toMachine.plain =
          (.normal, r') := by
        rw [htop]
        exact ⟨_, rfl⟩
      rw [hraise] at hends
      obtain ⟨ho, hfollows⟩ := endTry_completed h hends
      rw [ho]
      exact hfollows
    · have hraise : raise m.stack.isSome e site none r.toMachine.plain =
          (.thrown e site, r.toMachine.plain) := by
        rw [htop]
        rfl
      rw [hraise] at hends
      rw [htop] at hbelow
      cases hbelow with
      | @frame _ f hf hempty _ _ =>
          have hne := Nat.ne_of_lt (hm.below top htop)
          obtain ⟨ho, htopframe⟩ := endTry_rethrown (hstack.trans htop) hf hframe hne
          have hplain := hends.plain_eq
          rw [← hplain] at hends
          rw [ho] at hends ⊢
          refine ⟨⟨_, hends⟩, h.caught, fun i hi hother => ?_, fun t val heq => ?_⟩
          · have hi' : i ≠ top := fun heq => hother .thrown (heq ▸ rfl)
            exact (Function.update_of_ne hi' _ _).trans (h.kept i hi nofun)
          · obtain ⟨rfl, -⟩ := Outcome.jump.inj heq
            refine ⟨_, { l with hops := l.hops + 1 }, htopframe, ?_, ⟨hcarries.exception, ?_⟩⟩
            · show Function.update g'.flights top _ top = _
              rw [Function.update_self, hflight]
              rfl
            · rw [if_neg (Nat.succ_ne_zero l.hops)]
              exact hempty
  · obtain ⟨ho, hfollows⟩ := endTry_completed h (h.normal.endTry hm hflag)
    rw [ho]
    exact hfollows

end

section

variable {run : Running σ Exn Fn} {follow : Following σ Exn Fn} {m : Recorded σ Exn}
  {g g' : Trail Exn}

/-- Every statement run this way is followed this way. -/
def Followed (run : Running σ Exn Fn) (follow : Following σ Exn Fn) : Prop :=
  ∀ s m g, Sound m.toMachine → Blank m.frames m.stack →
    Follows m.toMachine g (run s m).2.toMachine (run s m).1 (follow s m g)

theorem chain_inBlock [DecidableEq Exn] (catches : List (Exn × Stmt σ Exn Fn))
    (ih : Followed run follow) (hm : Sound m.toMachine) (hblank : Blank m.frames m.stack)
    {left : Outcome × Recorded σ Exn} (h : Follows m.enter g left.2.toMachine left.1 g') :
    InBlock m.toMachine g (chain run catches m.next left)
      (chainTrail follow catches m.next left g') := by
  obtain ⟨o, m'⟩ := left
  obtain ⟨l, hl⟩ := h.ends
  have hnext : m.next < m'.next := hl.next
  dsimp only at h hl
  cases l with
  | stopped =>
      obtain rfl := hl.left
      refine .left ⟨⟨.stopped, hl.store, hl.out, Nat.le_of_lt hnext, hl.balanced, rfl⟩, h.caught,
        fun i hi _ => h.kept i (Nat.lt_succ_of_lt hi) (by simp), by simp⟩ (by simp)
  | normal =>
      obtain ⟨rfl, hpop, hfollows⟩ := body_normal h hl
      have hfell : chain run catches m.next (.normal, m') =
          .after .entered { m' with toMachine := { m'.toMachine with stack := m.stack } } := by
        simp only [chain, Reached.fell, Machine.branchEnd, if_true, hpop]
      rw [hfell]
      exact .after hfollows hnext (by simp)
  | thrown e site =>
      obtain ⟨rfl, hstack, hfollows, message, l, hframe, hflight, hcarries⟩ := body_thrown h hl
      rw [chain, chainTrail, if_pos rfl, if_pos rfl, hframe]
      dsimp only
      cases hclause : catches.find? fun c => (some (e, site)).map Prod.fst = some c.1 with
      | none =>
          exact .after hfollows hnext fun _ => ⟨e, site, _, message, l, hframe, hflight, hcarries⟩
      | some c =>
          have hsound := hfollows.normal.sound hm
          have hrun := ih c.2 m' (g'.took m.next ⟨some (e, site), m.stack, message⟩) hsound
            (hblank.after hm hfollows.normal)
          have hafter := (hfollows.took hflight hcarries).andThen hm hrun
          have hlt : m.next < (run c.2 m').2.next := Nat.lt_of_lt_of_le hnext hrun.next
          dsimp only
          cases hexec : run c.2 m' with
          | mk o' m'' =>
          rw [hexec] at hafter hlt
          cases o' with
          | normal => exact .after hafter hlt (by simp)
          | jump target val => exact .left hafter (by simp)
          | stopped => exact .left hafter (by simp)
          | undefined => exact .left hafter (by simp)

theorem finally_inBlock (fin : Option (Stmt σ Exn Fn)) (ih : Followed run follow)
    (hm : Sound m.toMachine) (hblank : Blank m.frames m.stack) {c : Reached σ Exn}
    (h : InBlock m.toMachine g c g') :
    InBlock m.toMachine g (finallyPart run fin m.next c) (finallyTrail follow fin m.next c g') := by
  cases h with
  | left h ho => exact .left h ho
  | @after flag r _ h hlt hpending =>
      cases fin with
      | none => exact .after h hlt hpending
      | some s =>
          have hrun := ih s (r.mark (.final m.next)) g' (h.normal.sound hm)
            (hblank.after hm h.normal)
          have hafter := h.andThen hm hrun
          have hlt' : m.next < (run s (r.mark (.final m.next))).2.next :=
            Nat.lt_of_lt_of_le hlt hrun.next
          rw [finallyPart, finallyTrail]
          cases hexec : run s (r.mark (.final m.next)) with
          | mk o r' =>
          rw [hexec] at hrun hafter hlt'
          cases o with
          | normal =>
              -- the flag says `Entered` no more, but it still says if an exception waits
              have hflag : (if flag = .entered then ExceptionFlag.finalized else flag) ≠
                  .entered := by
                split
                · simp
                · assumption
              dsimp only
              rw [Reached.fell, Machine.branchEnd, if_neg hflag]
              refine .after hafter hlt' fun hthrown => ?_
              have hwas : flag = .thrown := by
                split at hthrown
                · simp at hthrown
                · exact hthrown
              exact (hpending hwas).follows hlt hrun
          | jump target val => exact .left hafter (by simp)
          | stopped => exact .left hafter (by simp)
          | undefined => exact .left hafter (by simp)

/-- The end of a block. -/
theorem end_follows (hm : Sound m.toMachine) (hblank : Blank m.frames m.stack) {c : Reached σ Exn}
    (h : InBlock m.toMachine g c g') :
    Follows m.toMachine g (c.endTry m.stack m.next).2.toMachine (c.endTry m.stack m.next).1
      (g'.ended m.next c (c.endTry m.stack m.next).1) := by
  cases h with
  | after h _ hpending => exact endTry_follows hm hblank h hpending
  | @left o _ _ h ho =>
      cases o with
      | normal => exact absurd rfl ho
      | jump top val => exact h.leave hm
      | stopped => exact h
      | undefined => exact h

theorem quit_machine (fin : Option (Stmt σ Exn Fn)) (frame : Nat) (p : Outcome × Recorded σ Exn) :
    (quit fin frame p).1 = p.1 ∧ (quit fin frame p).2.toMachine = p.2.toMachine := by
  obtain ⟨o, m⟩ := p
  cases o with
  | normal =>
      refine ⟨rfl, ?_⟩
      show (if fin.isSome then m.mark (.left frame) else m).toMachine = m.toMachine
      split <;> rfl
  | jump target val =>
      refine ⟨rfl, ?_⟩
      show (if fin.isSome then m.mark (.left frame) else m).toMachine = m.toMachine
      split <;> rfl
  | stopped => exact ⟨rfl, rfl⟩
  | undefined => exact ⟨rfl, rfl⟩

end

/-! ## Every statement -/

variable [DecidableEq Exn] {P : Fn → Stmt σ Exn Fn}

theorem exec_follows_trail (fuel : Nat) : Followed (exec P fuel) (trail P fuel) := by
  induction fuel with
  | zero =>
      intro s m g _ _
      exact ⟨⟨.stopped, rfl, rfl, Nat.le_refl _, id, rfl⟩, id, fun _ _ _ => rfl, nofun⟩
  | succ fuel ih =>
      intro s m g hm hblank
      cases s with
      | act f =>
          exact ⟨⟨.normal, rfl, rfl, Nat.le_refl _, id, rfl, rfl, fun _ _ => rfl⟩, id,
            fun _ _ _ => rfl, nofun⟩
      | throw e site cause => exact throw_follows hm g e site (cause m.store)
      | ite c s t => exact ih _ m g hm hblank
      | call f => exact ih _ m g hm hblank
      | loop c s =>
          rw [exec, trail]
          split
          · exact ih _ m g hm hblank
          · exact Follows.refl _ g
      | seq s t =>
          have h := ih s m g hm hblank
          rw [exec, trail]
          cases hexec : exec P fuel s m with
          | mk o m' =>
          rw [hexec] at h
          cases o with
          | normal =>
              exact h.andThen hm (ih t m' _ (h.normal.sound hm) (hblank.after hm h.normal))
          | jump target val => exact h
          | stopped => exact h
          | undefined => exact h
      | tryCatch body catches fin =>
          have hbody := ih body { m with toMachine := m.enter } g hm.enter (hblank.enter hm)
          have hchain := chain_inBlock catches ih hm hblank hbody
          have hend := end_follows hm hblank (finally_inBlock fin ih hm hblank hchain)
          rw [exec, trail]
          obtain ⟨ho, hmachine⟩ := quit_machine fin m.next
            ((finallyPart (exec P fuel) fin m.next (chain (exec P fuel) catches m.next
              (exec P fuel body { m with toMachine := m.enter }))).endTry m.stack m.next)
          rw [ho, hmachine]
          exact hend

/--
**What an exception says where it is caught.** Every frame that catches one has the exception and
the place of the `Throw` it came from; it has everything that the `Throw` recorded if and only if no
`EndTry` has thrown the exception on since, or there was no text to lose.
-/
theorem survived_iff (P : Fn → Stmt σ Exn Fn) (fuel : Nat) (s : Stmt σ Exn Fn) (store : σ) :
    ∀ c ∈ (trail P fuel s (Recorded.init store) .empty).caught,
      ∃ l, c.flight = some l ∧ c.frame.exception = l.exception ∧
        (c.Survived ↔ l.hops = 0 ∨ l.message = []) := by
  intro c hc
  have hm : Sound (Machine.init store : Machine σ Exn) := ⟨.empty, fun _ h => absurd h nofun⟩
  have h := exec_follows_trail (P := P) fuel s (Recorded.init store) .empty hm .empty
  obtain ⟨l, hflight, hcarries⟩ := h.caught (fun c hc => absurd hc List.not_mem_nil) c hc
  refine ⟨l, hflight, hcarries.exception, ?_, ?_⟩
  · rintro ⟨l', hl', -, hmessage⟩
    obtain rfl := Option.some.inj (hflight.symm.trans hl')
    by_cases hzero : l.hops = 0
    · exact .inl hzero
    · rw [hcarries.message, if_neg hzero] at hmessage
      exact .inr hmessage.symm
  · intro hcond
    refine ⟨l, hflight, hcarries.exception, ?_⟩
    rw [hcarries.message]
    split
    · rfl
    · rename_i hne
      exact (hcond.resolve_left hne).symm

/-- Where the exceptions below are thrown. -/
def throwSite : Site := ⟨"main", "trycatch_finally.c", 0⟩

/-- A `Throw` with a text, and a clause for it. -/
def caughtAtOnce : Stmt Unit Bool Unit :=
  .tryCatch (.throw true throwSite fun _ => some ['A']) [(true, .act id)] none

theorem survived_iff_once : ∃ c ∈ (trail (fun _ : Unit => Stmt.act id) 3 caughtAtOnce
      (Recorded.init ()) Trail.empty).caught,
    ∃ l, c.flight = some l ∧ c.frame.exception = l.exception ∧
      (c.Survived ↔ l.hops = 0 ∨ l.message = []) :=
  ⟨⟨⟨some (true, throwSite), none, ['A']⟩, some ⟨some (true, throwSite), ['A'], 0⟩⟩,
    List.mem_singleton.mpr rfl, survived_iff (fun _ => .act id) 3 caughtAtOnce () _
      (List.mem_singleton.mpr rfl)⟩

/-- The same, with a block between them that has no clause for it. -/
theorem text_lost : ¬ ∀ (P : Unit → Stmt Unit Bool Unit) (fuel : Nat) (s : Stmt Unit Bool Unit)
    (store : Unit), ∀ c ∈ (trail P fuel s (Recorded.init store) Trail.empty).caught,
      c.Survived := by
  intro h
  let inner : Stmt Unit Bool Unit :=
    .tryCatch (.throw true throwSite fun _ => some ['A']) [] none
  have hc := h (fun _ => .act id) 4 (.tryCatch inner [(true, .act id)] none) ()
    ⟨⟨some (true, throwSite), none, []⟩, some ⟨some (true, throwSite), ['A'], 1⟩⟩
    (List.mem_singleton.mpr rfl)
  obtain ⟨l, hl, -, hmessage⟩ := hc
  obtain rfl := Option.some.inj hl
  exact absurd hmessage (by decide)

end CppTrack.TryFinally
