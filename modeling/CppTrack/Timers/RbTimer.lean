import CppTrack.Lib.Clock
import CppTrack.Lib.Run

/-!
# Timers in a red-black tree (`rbt-timer.h`, `rbtree.c`)

`rbtree.c` is the tree of nginx. Where a node comes to lie is decided by
`ngx_rbtree_insert_timer_value`, which descends by the wrapped difference of the keys; after that
the tree is rotated. Which rotations are made, and the colours that decide it, are left open:
`Balance` is any way to rotate.

There are two versions of `find_nearest_expire_timer`, one in the directory of the timers and one
in that of the reactor.
-/

namespace CppTrack.RbTimer

open Lib

/-- `timer_entry_t`, by its address, and the key of its node. -/
structure TimerEntry where
  addr : Nat
  key : BitVec 32
  deriving DecidableEq

/-- `ngx_rbtree_t` and its nodes. -/
inductive Tree
  | sentinel
  | node (left : Tree) (entry : TimerEntry) (right : Tree)

namespace Tree

/-- The entries from left to right. -/
def entries : Tree → List TimerEntry
  | sentinel => []
  | node left entry right => left.entries ++ entry :: right.entries

/-- `ngx_rbtree_insert_timer_value`. -/
def insertTimerValue (e : TimerEntry) : Tree → Tree
  | sentinel => node sentinel e sentinel
  | node left temp right =>
      if (e.key - temp.key).toInt < 0 then node (left.insertTimerValue e) temp right
      else node left temp (right.insertTimerValue e)

/-- `ngx_rbtree_min`. -/
def min : Tree → Option TimerEntry
  | sentinel => none
  | node sentinel entry _ => some entry
  | node (node left e right) _ _ => (node left e right).min

/-- What is left after the removal of the node that `ngx_rbtree_min` finds. -/
def dropMin : Tree → Tree
  | sentinel => sentinel
  | node sentinel _ right => right
  | node (node left e right) entry right' => node (node left e right).dropMin entry right'

/-- The unlinking of a node with these subtrees: its successor takes its place. -/
def join (left right : Tree) : Tree :=
  match left, right.min with
  | sentinel, _ => right
  | left, none => left
  | left, some subst => node left subst right.dropMin

/-- `ngx_rbtree_delete` up to where it begins to rotate. -/
def unlink (e : TimerEntry) : Tree → Tree
  | sentinel => sentinel
  | node left entry right =>
      if e ∈ left.entries then node (left.unlink e) entry right
      else if entry = e then join left right
      else node left entry (right.unlink e)

/-- `ngx_rbtree_left_rotate` and `ngx_rbtree_right_rotate`, anywhere in the tree and any number
of times. -/
inductive Rotates : Tree → Tree → Prop
  | refl (t : Tree) : Rotates t t
  | trans {t t' t'' : Tree} : Rotates t t' → Rotates t' t'' → Rotates t t''
  | left (a : Tree) (x : TimerEntry) (b : Tree) (y : TimerEntry) (c : Tree) :
      Rotates (node a x (node b y c)) (node (node a x b) y c)
  | right (a : Tree) (x : TimerEntry) (b : Tree) (y : TimerEntry) (c : Tree) :
      Rotates (node (node a x b) y c) (node a x (node b y c))
  | inLeft {l l' : Tree} (x : TimerEntry) (r : Tree) :
      Rotates l l' → Rotates (node l x r) (node l' x r)
  | inRight {r r' : Tree} (l : Tree) (x : TimerEntry) :
      Rotates r r' → Rotates (node l x r) (node l x r')

end Tree

/-- How the tree is balanced after an insertion and after a deletion. -/
structure Balance where
  inserted : Tree → Tree
  deleted : Tree → Tree
  inserted_rotates : ∀ t, Tree.Rotates t (inserted t)
  deleted_rotates : ∀ t, Tree.Rotates t (deleted t)

/-- No balancing at all. -/
def Balance.none : Balance := ⟨id, id, .refl, .refl⟩

variable (B : Balance)

/-- `add_timer`, which gets its memory at `addr`. -/
def addTimer (t : Tree) (addr : Nat) (msec clock : BitVec 32) : Tree :=
  B.inserted (t.insertTimerValue ⟨addr, msec + clock⟩)

/-- `del_timer`. -/
def delTimer (t : Tree) (e : TimerEntry) : Tree := B.deleted (t.unlink e)

/-- `find_nearest_expire_timer` of the timers. The difference of two `int`s wraps round. -/
def findNearestExpireTimer (t : Tree) (clock : BitVec 32) : Int :=
  match t.min with
  | Option.none => -1
  | some node =>
      let diff := (node.key - clock).toInt
      if diff > 0 then diff else 0

/-- `find_nearest_expire_timer` of the reactor, which has an unsigned `time`. -/
def reactorFindNearestExpireTimer (t : Tree) (clock : BitVec 32) : Int :=
  match t.min with
  | Option.none => -1
  | some node =>
      let time : BitVec 32 := node.key - clock
      (if time > 0 then time else 0).toInt

/-- The loop of `expire_timer`, whose handlers do not touch the timers; it says which ran. -/
def expireLoop (now : BitVec 32) : Nat → Tree → Option (Tree × List TimerEntry)
  | 0, _ => Option.none
  | fuel + 1, t =>
      match t.min with
      | Option.none => some (t, [])
      | some node =>
          if node.key > now then some (t, [])
          else
            (expireLoop now fuel (delTimer B t node)).map fun r => (r.1, node :: r.2)

/-- `expire_timer`. -/
def expireTimer (t : Tree) (now : BitVec 32) : Option (Tree × List TimerEntry) :=
  expireLoop B now (t.entries.length + 1) t

/-! ## A program that uses the timers -/

inductive Op
  | add (addr : Nat) (msec clock : BitVec 32)
  | del (e : TimerEntry)
  | expire (clock : BitVec 32)

def step (t : Tree) : Op → Option Tree
  | .add addr msec clock =>
      if ∀ e ∈ t.entries, e.addr ≠ addr then some (addTimer B t addr msec clock) else Option.none
  | .del e => if e ∈ t.entries then some (delTimer B t e) else Option.none
  | .expire clock => (expireTimer B t clock).map Prod.fst

/-- All keys of the tree, and this one, lie within half a turn of the clock. -/
def InWindow (base : BitVec 32) (t : Tree) (key : BitVec 32) : Prop :=
  (∀ e ∈ t.entries, Within base e.key) ∧ Within base key

/-- A timer is added only where there is room for it within half a turn of the clock. -/
def Fits (t : Tree) : Op → Prop
  | .add _ msec clock => ∃ base, InWindow base t (msec + clock)
  | _ => True

/-- How long it is until a timer is due, negative if it is overdue. -/
def remaining (now : BitVec 32) (e : TimerEntry) : Int := ahead now e.key

end CppTrack.RbTimer
