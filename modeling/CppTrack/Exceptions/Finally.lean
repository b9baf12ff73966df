import CppTrack.Exceptions.TryCatch

/-!
# `Finally` (`trycatch_finally.c`)

`Finally` closes the `if`/`else if` chain and opens a plain block, so what stands between it and
`EndTry` is reached by falling out of the chain: after the body, after a clause, or straight from
the jump when no clause fits. A clause that is left by a jump does not fall out of the chain.

The statements are those of `TryCatch` with a `Finally` part in each block that has one, and the
machine is the same. It also keeps marks: where the code after a `Finally` is begun and where
control leaves the block. Nothing the program does depends on them.
-/

namespace CppTrack.TryFinally

open TryCatch

/-- Statements, as in `TryCatch`. -/
inductive Stmt (σ Exn Fn : Type) where
  | act (f : σ → σ)
  | throw (e : Exn) (site : Site) (cause : σ → Option (List Char))
  | seq (s t : Stmt σ Exn Fn)
  | ite (c : σ → Bool) (s t : Stmt σ Exn Fn)
  | loop (c : σ → Bool) (s : Stmt σ Exn Fn)
  | call (f : Fn)
  | tryCatch (body : Stmt σ Exn Fn) (catches : List (Exn × Stmt σ Exn Fn))
      (fin : Option (Stmt σ Exn Fn))

/-- What is recorded of the blocks that have a `Finally`, by their frames. -/
inductive Mark where
  /-- The code after `Finally` is begun. -/
  | final (frame : Nat)
  /-- Control leaves the block. -/
  | left (frame : Nat)
  deriving DecidableEq

/-- The code after `Finally` is begun once at most, and exactly once before control leaves. -/
structure Once (marks : List Mark) : Prop where
  atMost : ∀ f, marks.count (.final f) ≤ 1
  before : ∀ pre f post, marks = pre ++ .left f :: post → pre.count (.final f) = 1

variable {σ Exn Fn : Type}

/-! ## What the macros expand to -/

structure Recorded (σ Exn : Type) extends Machine σ Exn where
  marks : List Mark

namespace Recorded

def init (store : σ) : Recorded σ Exn := { Machine.init store with marks := [] }

def mark (m : Recorded σ Exn) (k : Mark) : Recorded σ Exn := { m with marks := m.marks ++ [k] }

end Recorded

/-- Where control is: in the block, with a value of `Exception_flag`, or on its way out of it. -/
inductive Reached (σ Exn : Type) where
  | after (flag : ExceptionFlag) (m : Recorded σ Exn)
  | left (o : Outcome) (m : Recorded σ Exn)

namespace Reached

def state : Reached σ Exn → Recorded σ Exn
  | .after _ m => m
  | .left _ m => m

/-- A branch has come to its end. -/
def fell (flag : ExceptionFlag) (m : Recorded σ Exn) : Reached σ Exn :=
  match m.branchEnd flag with
  | some m' => .after flag { m with toMachine := m' }
  | none => .left .undefined m

/-- `EndTry`, after its last branch. What is on its way out takes the frame with it. -/
def endTry (before : Option Nat) (frame : Nat) :
    Reached σ Exn → Outcome × Recorded σ Exn
  | .after flag m =>
      let (o, m') := m.toMachine.endTry before frame flag
      (o, { m with toMachine := m' })
  | .left (.jump target val) m => (.jump target val, { m with toMachine := m.leave frame })
  | .left o m => (o, m)

end Reached

variable [DecidableEq Exn]

/-- A statement run from a state. -/
abbrev Running (σ Exn Fn : Type) := Stmt σ Exn Fn → Recorded σ Exn → Outcome × Recorded σ Exn

/-- The `if`/`else if` chain, from how the body was left. -/
def chain (run : Running σ Exn Fn) (catches : List (Exn × Stmt σ Exn Fn)) (frame : Nat) :
    Outcome × Recorded σ Exn → Reached σ Exn
  | (.normal, m) => .fell .entered m
  | (.jump target val, m) =>
      if target = frame then
        -- `setjmp` returns again, with `val`; the clauses are tried in turn
        match m.frames frame with
        | some f =>
            match catches.find? (fun c => f.exception.map Prod.fst = some c.1) with
            | some c =>
                match run c.2 m with
                | (.normal, m') => .fell .handled m'
                | (o, m') => .left o m'
            | none => .after val m
        | none => .left .undefined m
      else .left (.jump target val) m
  | (o, m) => .left o m

/-- `Finally`, and what stands between it and `EndTry`. -/
def finallyPart (run : Running σ Exn Fn) (fin : Option (Stmt σ Exn Fn)) (frame : Nat) :
    Reached σ Exn → Reached σ Exn
  | .after flag m =>
      match fin with
      | some s =>
          let flag := if flag = .entered then .finalized else flag
          match run s (m.mark (.final frame)) with
          | (.normal, m') => .fell flag m'
          | (o, m') => .left o m'
      | none => .after flag m
  | r => r

/-- Control leaves a block, unless it has stopped inside. -/
def quit (fin : Option (Stmt σ Exn Fn)) (frame : Nat) :
    Outcome × Recorded σ Exn → Outcome × Recorded σ Exn
  | (.normal, m) => (.normal, if fin.isSome then m.mark (.left frame) else m)
  | (.jump target val, m) =>
      (.jump target val, if fin.isSome then m.mark (.left frame) else m)
  | r => r

/-- Run the expanded program for at most `fuel` nested steps. -/
def exec (P : Fn → Stmt σ Exn Fn) : (fuel : Nat) → Running σ Exn Fn
  | 0, _, m => (.stopped, m)
  | _ + 1, .act f, m => (.normal, { m with store := f m.store })
  | _ + 1, .throw e site cause, m =>
      let (o, m') := m.ntyExceptionThrow e site (cause m.store)
      (o, { m with toMachine := m' })
  | fuel + 1, .seq s t, m =>
      match exec P fuel s m with
      | (.normal, m') => exec P fuel t m'
      | r => r
  | fuel + 1, .ite c s t, m => exec P fuel (if c m.store then s else t) m
  | fuel + 1, .loop c s, m =>
      if c m.store then exec P fuel (.seq s (.loop c s)) m else (.normal, m)
  | fuel + 1, .call f, m => exec P fuel (P f) m
  | fuel + 1, .tryCatch body catches fin, m =>
      let chained := chain (exec P fuel) catches m.next
        (exec P fuel body { m with toMachine := m.enter })
      quit fin m.next ((finallyPart (exec P fuel) fin m.next chained).endTry m.stack m.next)

/-! ## What they are for -/

/-- The state of the reference semantics. -/
structure Tracked (σ Exn : Type) extends Plain σ Exn where
  /-- A clause of a block with a `Finally` has been left by an exception. -/
  escaped : Bool

def Tracked.init (store : σ) : Tracked σ Exn := ⟨⟨store, []⟩, false⟩

/-- A statement run from a state, inside the body of some `Try` or not. -/
abbrev RefRunning (σ Exn Fn : Type) :=
  Stmt σ Exn Fn → (active : Bool) → Tracked σ Exn → Left Exn × Tracked σ Exn

/-- The clauses, from how the body was left. -/
def refChain (run : RefRunning σ Exn Fn) (catches : List (Exn × Stmt σ Exn Fn))
    (fin : Option (Stmt σ Exn Fn)) (active : Bool) :
    Left Exn × Tracked σ Exn → Left Exn × Tracked σ Exn
  | (.thrown e site, r) =>
      match catches.find? (fun c => c.1 = e) with
      | some c =>
          match run c.2 active r with
          | (.thrown e site, r') =>
              (.thrown e site, { r' with escaped := r'.escaped || fin.isSome })
          | l => l
      | none => (.thrown e site, r)
  | l => l

/-- The `Finally` part is run however the clauses were left; what it throws itself goes first. -/
def refFinally (run : RefRunning σ Exn Fn) (fin : Option (Stmt σ Exn Fn)) (active : Bool) :
    Left Exn × Tracked σ Exn → Left Exn × Tracked σ Exn
  | (.stopped, r) => (.stopped, r)
  | (l, r) =>
      match fin with
      | some s =>
          match run s active r with
          | (.normal, r') => (l, r')
          | l' => l'
      | none => (l, r)

/-- An exception that is still there at the end of the block goes on to the next one. -/
def refEnd (active : Bool) : Left Exn × Tracked σ Exn → Left Exn × Tracked σ Exn
  | (.thrown e site, r) =>
      let (l, p) := raise active e site none r.toPlain
      (l, { r with toPlain := p })
  | l => l

/-- The reference semantics: that of `TryCatch`, with a `Finally` that is run on every way out. -/
def ref (P : Fn → Stmt σ Exn Fn) : (fuel : Nat) → RefRunning σ Exn Fn
  | 0, _, _, r => (.stopped, r)
  | _ + 1, .act f, _, r => (.normal, { r with store := f r.store })
  | _ + 1, .throw e site cause, active, r =>
      let (l, p) := raise active e site (cause r.store) r.toPlain
      (l, { r with toPlain := p })
  | fuel + 1, .seq s t, active, r =>
      match ref P fuel s active r with
      | (.normal, r') => ref P fuel t active r'
      | l => l
  | fuel + 1, .ite c s t, active, r => ref P fuel (if c r.store then s else t) active r
  | fuel + 1, .loop c s, active, r =>
      if c r.store then ref P fuel (.seq s (.loop c s)) active r else (.normal, r)
  | fuel + 1, .call f, active, r => ref P fuel (P f) active r
  | fuel + 1, .tryCatch body catches fin, active, r =>
      refEnd active (refFinally (ref P fuel) fin active
        (refChain (ref P fuel) catches fin active (ref P fuel body true r)))

end CppTrack.TryFinally
