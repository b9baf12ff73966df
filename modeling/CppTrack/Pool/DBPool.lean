import CppTrack.Lib.CondVar
import CppTrack.Lib.Run
import Mathlib.Logic.Function.Basic

/-!
# The pool of database connections (`DBPool.cpp`)

A connection is its address, and 0 is `NULL`. Whether a new connection can be made is up to
the server; `create` says with which address, or `none` for an error.

Each of `GetDBConn` and `RelDBConn` holds the mutex all the time but for its wait, so between
two waits it is one step. Which thread a notification wakes is part of the step.
-/

namespace CppTrack.DBPool

open Lib

/-- `MIN_DB_CONN_CNT`. -/
def minDbConnCnt : Nat := 1

/-- `CDBPool`. -/
structure CDBPool where
  dbCurConnCnt : Nat
  dbMaxConnCnt : Int
  freeList : List Nat
  usedList : List Nat
  condVar : CondVar
  abortRequest : Bool

/-- `CDBPool::CDBPool`. -/
def CDBPool.new (maxConnCnt : Int) : CDBPool :=
  { dbCurConnCnt := minDbConnCnt, dbMaxConnCnt := maxConnCnt, freeList := [], usedList := [],
    condVar := .empty, abortRequest := false }

/-- An address that `new` may return. -/
def CDBPool.Fresh (s : CDBPool) (conn : Nat) : Prop :=
  conn ≠ 0 ∧ conn ∉ s.freeList ∧ conn ∉ s.usedList

instance (s : CDBPool) (conn : Nat) : Decidable (s.Fresh conn) :=
  inferInstanceAs (Decidable (_ ∧ _ ∧ _))

/-- `Init`, with `none` where it fails. -/
def CDBPool.init (s : CDBPool) (create : Nat → Option Nat) : Option CDBPool :=
  (List.range s.dbCurConnCnt).foldlM (fun s i => do
    let conn ← create i
    if s.Fresh conn then some { s with freeList := s.freeList ++ [conn] } else none) s

/-- What a call of `GetDBConn` has come to. -/
inductive Got
  | conn (conn : Nat)
  | null
  | waiting (timeoutMs : Int)

/-- The end of `GetDBConn`: the first free connection. -/
def CDBPool.take (s : CDBPool) : Option (Got × CDBPool) :=
  match s.freeList with
  | [] => none
  | conn :: freeList =>
      some (.conn conn, { s with freeList := freeList, usedList := s.usedList ++ [conn] })

/-- `GetDBConn`, up to its wait if it has to. -/
def CDBPool.getDBConn (s : CDBPool) (t : Nat) (timeoutMs : Int) (create : Option Nat) :
    Option (Got × CDBPool) :=
  if s.abortRequest then some (.null, s)
  else if s.freeList.isEmpty then
    if s.dbCurConnCnt ≥ s.dbMaxConnCnt then
      some (.waiting timeoutMs, { s with condVar := s.condVar.wait t })
    else
      match create with
      | none => some (.null, s)
      | some conn =>
          if s.Fresh conn then
            { s with
              freeList := s.freeList ++ [conn]
              dbCurConnCnt := s.dbCurConnCnt + 1 }.take
          else none
  else s.take

/-- The rest of `GetDBConn`, once the thread has the mutex back. -/
def CDBPool.resumeGet (s : CDBPool) (t : Nat) (timeoutMs : Int) (timedOut : Bool) :
    Option (Got × CDBPool) := do
  let condVar ← s.condVar.resume t
  let s := { s with condVar := condVar }
  let ready := !s.freeList.isEmpty || s.abortRequest
  if timeoutMs ≤ 0 then
    if !ready then some (.waiting timeoutMs, { s with condVar := s.condVar.wait t })
    else if s.abortRequest then some (.null, s)
    else s.take
  else if !ready && !timedOut then
    some (.waiting timeoutMs, { s with condVar := s.condVar.wait t })
  else if s.freeList.isEmpty then some (.null, s)
  else if s.abortRequest then some (.null, s)
  else s.take

/-- `RelDBConn`, whose notification wakes `u`. -/
def CDBPool.relDBConn (s : CDBPool) (conn u : Nat) : Option CDBPool :=
  if conn ∈ s.freeList then some s
  else
    (s.condVar.notifyOne u).map fun condVar =>
      { s with
        usedList := s.usedList.filter (· ≠ conn)
        freeList := s.freeList ++ [conn]
        condVar := condVar }

/-! ## The clients -/

/-- The pool, what the clients wait for and hold, and every connection made or handed out. -/
structure World where
  pool : CDBPool
  waits : Nat → Option Int
  held : Nat → List Nat
  made : List Nat
  handed : List Nat

inductive Op
  | get (t : Nat) (timeoutMs : Int) (create : Option Nat)
  | resume (t : Nat) (timedOut : Bool)
  | rel (t conn u : Nat)

/-- What a client has after a part of `GetDBConn`. -/
def World.got (w : World) (t : Nat) (r : Got × CDBPool) : World :=
  match r.1 with
  | .conn conn =>
      { w with
        pool := r.2
        waits := Function.update w.waits t none
        held := Function.update w.held t (conn :: w.held t)
        handed := conn :: w.handed }
  | .null => { w with pool := r.2, waits := Function.update w.waits t none }
  | .waiting timeoutMs =>
      { w with pool := r.2, waits := Function.update w.waits t (some timeoutMs) }

def step (w : World) : Op → Option World
  | .get t timeoutMs create =>
      if w.waits t = none then
        (w.pool.getDBConn t timeoutMs create).map fun r =>
          { w with
            made := if w.pool.dbCurConnCnt < r.2.dbCurConnCnt then create.toList ++ w.made
              else w.made }.got t r
      else none
  | .resume t timedOut =>
      (w.waits t).bind fun timeoutMs => (w.pool.resumeGet t timeoutMs timedOut).map (w.got t)
  | .rel t conn u =>
      if w.waits t = none then
        (w.pool.relDBConn conn u).map fun pool =>
          { w with pool := pool, held := Function.update w.held t ((w.held t).erase conn) }
      else none

/-- After a successful `Init`. -/
def start (maxConnCnt : Int) (create : Nat → Option Nat) : Option World :=
  ((CDBPool.new maxConnCnt).init create).map fun pool =>
    { pool := pool, waits := fun _ => none, held := fun _ => [], made := pool.freeList,
      handed := [] }

/-- A client releases what it holds. -/
def Honest (w : World) : Op → Prop
  | .rel t conn _ => conn ∈ w.held t
  | _ => True

/-- A client releases what is checked out, or what is free. -/
def Known (w : World) : Op → Prop
  | .rel _ conn _ => conn ∈ w.pool.usedList ∨ conn ∈ w.pool.freeList
  | _ => True

instance (w : World) : (op : Op) → Decidable (Honest w op)
  | .get _ _ _ => .isTrue trivial
  | .resume _ _ => .isTrue trivial
  | .rel t conn _ => inferInstanceAs (Decidable (conn ∈ w.held t))

instance (w : World) : (op : Op) → Decidable (Known w op)
  | .get _ _ _ => .isTrue trivial
  | .resume _ _ => .isTrue trivial
  | .rel _ conn _ =>
      inferInstanceAs (Decidable (conn ∈ w.pool.usedList ∨ conn ∈ w.pool.freeList))

end CppTrack.DBPool
