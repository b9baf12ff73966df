import Mathlib.Logic.Function.Basic

/-!
# The exception macros (`trycatch_finally.c`)

`Try`, `Catch` and `EndTry` expand to one block of C each time they are used: the block has a frame
of its own, pushes it on `ExceptionStack`, saves its place with `setjmp`, and goes through an
`if`/`else if` chain whose first branch is the body and whose others are the clauses. `Throw` calls
`ntyExceptionThrow`, which fills in the top frame, pops it and jumps to the place it saved.

A program is a statement over a store of type `σ`, the rest of the program's memory. It may call
functions by name, so blocks nest through recursion as well as through the text. `exec` runs what
the macros expand to, `ref` what they are for. Both run with a bound on their steps and say what
they had done when it ran out, so that a program that never ends is not left out.

The store is what survives `longjmp`: memory reached through pointers, globals, and of the locals of
the function with the `Try` those that are `volatile`, or all of them where the compiler keeps them
in memory. C leaves any other local that the block has changed indeterminate after the jump; such a
one is not in the store.

A frame lives as long as its block. What is reached through a pointer to a frame that is gone, or
by a jump to a block that has been left, is `undefined`.
-/

namespace CppTrack.TryCatch

/-! ## Programs -/

/-- Where a `Throw` stands: function, file and line. -/
structure Site where
  func : String
  file : String
  line : Nat
  deriving DecidableEq

/--
Statements. `Exn` are the exception objects, told apart by their addresses, and `Fn` the names of
functions. `Throw` has the text its format and arguments give, or `none` where the cause is `NULL`.
-/
inductive Stmt (σ Exn Fn : Type) where
  | act (f : σ → σ)
  | throw (e : Exn) (site : Site) (cause : σ → Option (List Char))
  | seq (s t : Stmt σ Exn Fn)
  | ite (c : σ → Bool) (s t : Stmt σ Exn Fn)
  | loop (c : σ → Bool) (s : Stmt σ Exn Fn)
  | call (f : Fn)
  | tryCatch (body : Stmt σ Exn Fn) (catches : List (Exn × Stmt σ Exn Fn))

/-- What is printed when nobody catches: the exception, its text if it has one, and the place. -/
structure Report (Exn : Type) where
  excep : Exn
  message : Option (List Char)
  site : Site

variable {σ Exn Fn : Type}

/-! ## What the macros expand to -/

/-- The values `Exception_flag` takes. -/
inductive ExceptionFlag where
  | entered
  | thrown
  | handled
  | finalized
  deriving DecidableEq

/-- `EXCEPTIN_MESSAGE_LENGTH`, what `vsnprintf` is given: one less is kept. -/
def exceptinMessageLength : Nat := 512

def vsnprintf (text : List Char) : List Char := text.take (exceptinMessageLength - 1)

/-- `ntyExceptionFrame`, less the saved place. What is not assigned yet is `none`. -/
structure ExceptionFrame (Exn : Type) where
  exception : Option (Exn × Site)
  prev : Option Nat
  message : List Char

structure Machine (σ Exn : Type) where
  store : σ
  /-- `ExceptionStack`. -/
  stack : Option Nat
  /-- The frames of the blocks that have not been left, by address. -/
  frames : Nat → Option (ExceptionFrame Exn)
  /-- The address of the next frame. -/
  next : Nat
  out : List (Report Exn)
  /-- For each `EndTry` that completed, `ExceptionStack` before its `Try` and after it. -/
  ends : List (Option Nat × Option Nat)

/-- How a statement is left. -/
inductive Outcome where
  | normal
  /-- `longjmp` to the place saved in a frame, with the value `setjmp` is to return there. -/
  | jump (frame : Nat) (val : ExceptionFlag)
  | stopped
  | undefined

namespace Machine

def init (store : σ) : Machine σ Exn :=
  { store := store, stack := none, frames := fun _ => none, next := 0, out := [], ends := [] }

/-- `ntyExceptionPopStack`. -/
def popStack (m : Machine σ Exn) : Option (Machine σ Exn) :=
  m.stack.bind m.frames |>.map fun frame => { m with stack := frame.prev }

def ntyExceptionThrow (m : Machine σ Exn) (excep : Exn) (site : Site)
    (cause : Option (List Char)) : Outcome × Machine σ Exn :=
  match m.stack with
  | some top =>
      match m.frames top with
      | some frame =>
          let m' := { m with frames := Function.update m.frames top (some { frame with
            exception := some (excep, site)
            message := (cause.map vsnprintf).getD frame.message }) }
          match m'.popStack with
          | some m' => (.jump top .thrown, m')
          | none => (.undefined, m')
      | none => (.undefined, m)
  | none => (.normal, { m with out := m.out ++ [⟨excep, cause.map vsnprintf, site⟩] })

/-- `Try`, up to the first return of `setjmp`. -/
def enter (m : Machine σ Exn) : Machine σ Exn :=
  { m with
    frames := Function.update m.frames m.next (some ⟨none, m.stack, []⟩)
    stack := some m.next
    next := m.next + 1 }

/-- The block is left and its frame with it. -/
def leave (m : Machine σ Exn) (frame : Nat) : Machine σ Exn :=
  { m with frames := Function.update m.frames frame none }

/-- `if (Exception_flag == ExceptionEntered) ntyExceptionPopStack;`, at the end of each branch. -/
def branchEnd (m : Machine σ Exn) (flag : ExceptionFlag) : Option (Machine σ Exn) :=
  if flag = .entered then m.popStack else some m

/--
`if (Exception_flag == ExceptionThrown) ReThrow; } while (0)`: `before` is what `ExceptionStack` was
at the `Try`.
-/
def endTry (m : Machine σ Exn) (before : Option Nat) (frame : Nat) (flag : ExceptionFlag) :
    Outcome × Machine σ Exn :=
  let completed (m : Machine σ Exn) :=
    (Outcome.normal, { m.leave frame with ends := m.ends ++ [(before, m.stack)] })
  if flag = .thrown then
    match (m.frames frame).bind ExceptionFrame.exception with
    | some (excep, site) =>
        match m.ntyExceptionThrow excep site none with
        | (.normal, m') => completed m'
        | (o, m') => (o, m'.leave frame)
    | none => (.undefined, m)
  else completed m

end Machine

variable [DecidableEq Exn]

/-- Run the expanded program for at most `fuel` nested steps. -/
def exec (P : Fn → Stmt σ Exn Fn) :
    (fuel : Nat) → Stmt σ Exn Fn → Machine σ Exn → Outcome × Machine σ Exn
  | 0, _, m => (.stopped, m)
  | _ + 1, .act f, m => (.normal, { m with store := f m.store })
  | _ + 1, .throw e site cause, m => m.ntyExceptionThrow e site (cause m.store)
  | fuel + 1, .seq s t, m =>
      match exec P fuel s m with
      | (.normal, m') => exec P fuel t m'
      | r => r
  | fuel + 1, .ite c s t, m => exec P fuel (if c m.store then s else t) m
  | fuel + 1, .loop c s, m =>
      if c m.store then exec P fuel (.seq s (.loop c s)) m else (.normal, m)
  | fuel + 1, .call f, m => exec P fuel (P f) m
  | fuel + 1, .tryCatch body catches, m =>
      let frame := m.next
      -- the branch that was entered has come to its end
      let fell (flag : ExceptionFlag) (m' : Machine σ Exn) :=
        match m'.branchEnd flag with
        | some m' => m'.endTry m.stack frame flag
        | none => (.undefined, m')
      match exec P fuel body m.enter with
      | (.normal, m') => fell .entered m'
      | (.jump target val, m') =>
          if target = frame then
            -- `setjmp` returns again, with `val`; the clauses are tried in turn
            match m'.frames frame with
            | some f =>
                match catches.find? (fun c => f.exception.map Prod.fst = some c.1) with
                | some c =>
                    match exec P fuel c.2 m' with
                    | (.normal, m') => fell .handled m'
                    | (.jump target val, m') => (.jump target val, m'.leave frame)
                    | r => r
                | none => m'.endTry m.stack frame val
            | none => (.undefined, m')
          else (.jump target val, m'.leave frame)
      | r => r

/-! ## What they are for -/

/-- What a statement of the reference semantics works on. -/
structure Plain (σ Exn : Type) where
  store : σ
  out : List (Report Exn)

/-- How a statement is left, an exception that was thrown among them. -/
inductive Left (Exn : Type) where
  | normal
  | thrown (e : Exn) (site : Site)
  | stopped

/-- An exception goes to the enclosing active block, or is only reported if there is none. -/
def raise (active : Bool) (e : Exn) (site : Site) (cause : Option (List Char))
    (r : Plain σ Exn) : Left Exn × Plain σ Exn :=
  if active then (.thrown e site, r)
  else (.normal, { r with out := r.out ++ [⟨e, cause.map vsnprintf, site⟩] })

/--
The reference semantics. `active` says whether the statement is inside the body of some `Try`,
which a `Throw` then leaves.
-/
def ref (P : Fn → Stmt σ Exn Fn) :
    (fuel : Nat) → Stmt σ Exn Fn → (active : Bool) → Plain σ Exn → Left Exn × Plain σ Exn
  | 0, _, _, r => (.stopped, r)
  | _ + 1, .act f, _, r => (.normal, { r with store := f r.store })
  | _ + 1, .throw e site cause, active, r => raise active e site (cause r.store) r
  | fuel + 1, .seq s t, active, r =>
      match ref P fuel s active r with
      | (.normal, r') => ref P fuel t active r'
      | l => l
  | fuel + 1, .ite c s t, active, r => ref P fuel (if c r.store then s else t) active r
  | fuel + 1, .loop c s, active, r =>
      if c r.store then ref P fuel (.seq s (.loop c s)) active r else (.normal, r)
  | fuel + 1, .call f, active, r => ref P fuel (P f) active r
  | fuel + 1, .tryCatch body catches, active, r =>
      match ref P fuel body true r with
      | (.thrown e site, r') =>
          match catches.find? (fun c => c.1 = e) with
          | some c => ref P fuel c.2 active r'
          | none => raise active e site none r'
      | l => l

end CppTrack.TryCatch
