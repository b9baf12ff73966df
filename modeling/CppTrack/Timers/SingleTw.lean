import Mathlib.Data.List.Nodup
import Mathlib.Logic.Function.Basic
import CppTrack.Lib.Run
import CppTrack.Lib.Word

/-!
# The heartbeat wheel (`single_tw.c`)

One wheel of sixteen slots. `add_conn` files a timer node for a connection that has just sent a
heartbeat and counts it in `cnode->used`; `check_conn` runs once a second, takes the nodes of one
slot, takes each off its connection's count, and reports the connection whose count comes to
zero.

A slot's singly linked list with a tail pointer is a `List` of addresses of timer nodes: `add_conn`
appends, `link_clear` empties. A timer node's address is its index in `timer_nodes`, a connection
is its index in `conn_nodes`.

The wheel keeps a record of what was added, what was examined and in which call of `check_conn`.
Nothing the functions do depends on it.
-/

namespace CppTrack.SingleTw

open Lib

/-! ## Constants -/

def maxTimer : Nat := (1 <<< 17) - 1
def twSize : Nat := 16
def twMask : Nat := twSize - 1
def expire : Nat := 10

/-- `timer_node_t`, less `next`. -/
structure TimerNode where
  node : Nat
  idx : Nat

/-- One call of `add_conn`: `now` counts the calls of `check_conn` before it. -/
structure Added where
  tnode : Nat
  cnode : Nat
  delay : Nat
  now : Nat
  deriving DecidableEq

/-- One node examined, in call number `call` of `check_conn`. -/
structure Examined where
  tnode : Nat
  cnode : Nat
  call : Nat
  /-- `kill down` was printed. -/
  dead : Bool
  /-- How many nodes of the connection were still pending after it. -/
  left : Nat
  deriving DecidableEq

/-- The static variables, the wheel, and the record. -/
structure Wheel where
  timerNodes : Nat → TimerNode
  /-- `conn_nodes[].used`, a `uint8_t`. -/
  used : Nat → Nat
  tIter : Nat
  tick : Nat
  tw : Fin twSize → List Nat
  /-- Calls of `check_conn` made. -/
  calls : Nat
  added : List Added
  examined : List Examined

namespace Wheel

/-- What `main` sets up: everything zeroed, every list empty. -/
def init : Wheel where
  timerNodes := fun _ => ⟨0, 0⟩
  used := fun _ => 0
  tIter := 0
  tick := 0
  tw := fun _ => []
  calls := 0
  added := []
  examined := []

/-- The nodes added and not yet examined. -/
def pending (w : Wheel) : List Added :=
  w.added.filter fun a => a.tnode ∉ w.examined.map Examined.tnode

/-- The number of pending nodes of a connection. -/
def waiting (w : Wheel) (cnode : Nat) : Nat := w.pending.countP fun a => a.cnode = cnode

/--
The `while` loop of `get_timer_node`. `timer_nodes` has `MAX_TIMER` elements, so the index
`t_iter & MAX_TIMER` is outside it when it is `MAX_TIMER`, which it is at least once in
`MAX_TIMER + 1` rounds.
-/
def scan (timerNodes : Nat → TimerNode) : (rounds tIter : Nat) → Option Nat
  | 0, _ => none
  | rounds + 1, tIter =>
      if tIter &&& maxTimer < maxTimer then
        if (timerNodes (tIter &&& maxTimer)).idx > 0 then
          scan timerNodes rounds (addU32 tIter 1)
        else some tIter
      else none

/-- `get_timer_node`. What it returns is `timer_nodes[t_iter]`, without the mask. -/
def getTimerNode (w : Wheel) : Option (Nat × Wheel) :=
  (scan w.timerNodes (maxTimer + 1) (addU32 w.tIter 1)).bind fun tIter =>
    if tIter < maxTimer then
      some (tIter, { w with
        tIter := tIter
        timerNodes := Function.update w.timerNodes tIter
          { w.timerNodes tIter with idx := tIter } })
    else none

/-- The slot of a tick: `tick & TW_MASK`. -/
def slotOf (tick : Nat) : Fin twSize := ⟨tick &&& twMask, Nat.lt_succ_of_le Nat.and_le_right⟩

def addConn (w : Wheel) (cnode delay : Nat) : Option Wheel :=
  let list := slotOf (addU32 (addU32 w.tick expire) delay)
  w.getTimerNode.map fun (tnode, w) =>
    { w with
      used := Function.update w.used cnode ((w.used cnode + 1) % 256)
      timerNodes := Function.update w.timerNodes tnode { w.timerNodes tnode with node := cnode }
      tw := Function.update w.tw list (w.tw list ++ [tnode])
      added := w.added ++ [⟨tnode, cnode, delay, w.calls⟩] }

def linkClear (w : Wheel) (list : Fin twSize) : Wheel :=
  { w with tw := Function.update w.tw list [] }

/-- One turn of the loop of `check_conn`, in call number `call`. -/
def examine (call : Nat) (w : Wheel) (temp : Nat) : Wheel :=
  let cn := (w.timerNodes temp).node
  let used := (w.used cn + 255) % 256
  let left := w.pending.countP fun a => a.cnode = cn ∧ a.tnode ≠ temp
  { w with
    used := Function.update w.used cn used
    timerNodes := Function.update w.timerNodes temp { w.timerNodes temp with idx := 0 }
    examined := w.examined ++ [⟨temp, cn, call, decide (used = 0), left⟩] }

def checkConn (w : Wheel) : Wheel :=
  let list := slotOf w.tick
  ((w.tw list).foldl (examine w.calls)
    { w with tick := addU32 w.tick 1, calls := w.calls + 1 }).linkClear list

end Wheel

/-- The calls the program makes. -/
inductive Call where
  | addConn (cnode delay : Nat)
  | checkConn

def step (w : Wheel) : Call → Option Wheel
  | .addConn cnode delay => w.addConn cnode delay
  | .checkConn => some w.checkConn

namespace Added

/-- The call of `check_conn` the node is meant for. -/
def due (a : Added) : Nat := a.now + expire + a.delay

/-- The call of `check_conn` that comes to the node's slot. -/
def visit (a : Added) : Nat := a.now + (expire + a.delay) % twSize

end Added

/-- What is asked of a wheel after any calls. -/
structure Right (w : Wheel) : Prop where
  /-- A node is examined in the call it is meant for, once, and in no other. -/
  onTime : ∀ a ∈ w.added, (w.examined.filter fun e => e.tnode = a.tnode).map Examined.call =
    if a.due < w.calls then [a.due] else []
  /-- Only added nodes are examined, each for its own connection. -/
  owner : ∀ e ∈ w.examined, ∃ a ∈ w.added, a.tnode = e.tnode ∧ a.cnode = e.cnode
  /-- The count of a connection is its number of pending nodes. -/
  used : ∀ c, w.used c = w.waiting c
  /-- A connection is reported with its last pending node. -/
  dead : ∀ e ∈ w.examined, e.dead = true ↔ e.left = 0

/-- Every state the calls reach is right. -/
def RightAlong (calls : List Call) : Prop :=
  ∀ pre, pre <+: calls → ∃ w, run step Wheel.init pre = some w ∧ Right w

/-- The calls a wheel of sixteen slots with a `uint8_t` count can take. -/
def Fits (w : Wheel) : Call → Prop
  | .addConn cnode delay =>
      expire + delay < twSize ∧ w.used cnode + 1 < 256 ∧ w.tIter + 1 < maxTimer
  | .checkConn => True


/-! ## Timer nodes -/

namespace Wheel

variable {w w' : Wheel} {c d t call : Nat}

/--
What is always true of a wheel's counters and record, with or without collisions in the slots:
the count is the number of pending nodes modulo 256, and a node is examined when its slot is come
to. In the middle of `check_conn` the lists of the slots say less than that, so they are kept
apart, in `Filed`.
-/
structure Counted (w : Wheel) : Prop where
  tick : w.tick = w.calls % wordSize
  bound : w.tIter < maxTimer
  fresh : ∀ i, w.tIter < i → (w.timerNodes i).idx = 0
  old : ∀ a ∈ w.added, a.tnode ≤ w.tIter ∧ (w.timerNodes a.tnode).node = a.cnode
  nodup : (w.added.map Added.tnode).Nodup
  count : ∀ c, w.used c = w.waiting c % 256
  seen : ∀ e ∈ w.examined, (∃ a ∈ w.added, a.tnode = e.tnode ∧ a.cnode = e.cnode ∧
    e.call = a.visit) ∧ e.call < w.calls ∧ (e.dead = true ↔ e.left % 256 = 0)
  once : (w.examined.map Examined.tnode).Nodup

/-- The slots hold the pending nodes, each at the call that comes to it. -/
structure Filed (w : Wheel) : Prop where
  slot : ∀ i, w.tw i =
    (w.pending.filter fun a => a.visit % twSize = (i : Nat)).map Added.tnode
  window : ∀ a ∈ w.pending, w.calls ≤ a.visit ∧ a.visit < w.calls + twSize

theorem slotOf_val (tick : Nat) : (slotOf tick : Nat) = tick % twSize :=
  Nat.and_two_pow_sub_one_eq_mod tick 4

theorem and_maxTimer {i : Nat} (hi : i ≤ maxTimer) : i &&& maxTimer = i := by
  show i &&& 2 ^ 17 - 1 = i
  rw [Nat.and_two_pow_sub_one_eq_mod]
  exact Nat.mod_eq_of_lt (Nat.lt_succ_of_le hi)

/-- The node after the last one is free, so the allocator takes it if there is one. -/
theorem Counted.getTimerNode (h : Counted w) :
    w.getTimerNode = if w.tIter + 1 < maxTimer then
      some (w.tIter + 1, { w with
        tIter := w.tIter + 1
        timerNodes := Function.update w.timerNodes (w.tIter + 1)
          { w.timerNodes (w.tIter + 1) with idx := w.tIter + 1 } }) else none := by
  have hle : w.tIter + 1 ≤ maxTimer := h.bound
  have hadd : addU32 w.tIter 1 = w.tIter + 1 := by
    refine Nat.mod_eq_of_lt (Nat.lt_of_le_of_lt hle ?_)
    decide
  rw [Wheel.getTimerNode, hadd, scan, and_maxTimer hle]
  split
  · rename_i hlt
    -- the first node looked at is free
    rw [if_neg (by rw [h.fresh _ (Nat.lt_succ_self _)]; exact Nat.lt_irrefl 0), Option.bind_some,
      if_pos hlt]
  · rfl

/-- What `add_conn` leaves: the next node filed for the connection. -/
def filed (w : Wheel) (cnode delay : Nat) : Wheel :=
  { w with
    tIter := w.tIter + 1
    used := Function.update w.used cnode ((w.used cnode + 1) % 256)
    timerNodes := Function.update w.timerNodes (w.tIter + 1) ⟨cnode, w.tIter + 1⟩
    tw := Function.update w.tw (slotOf (addU32 (addU32 w.tick expire) delay))
      (w.tw (slotOf (addU32 (addU32 w.tick expire) delay)) ++ [w.tIter + 1])
    added := w.added ++ [⟨w.tIter + 1, cnode, delay, w.calls⟩] }

/-- `add_conn` goes through while the allocator's index stays inside `timer_nodes`. -/
theorem Counted.addConn (h : Counted w) :
    w.addConn c d = if w.tIter + 1 < maxTimer then some (w.filed c d) else none := by
  rw [Wheel.addConn, h.getTimerNode]
  split
  · simp only [Option.map_some, Function.update_self, Function.update_idem]
    rfl
  · rfl

/-! ## Pending nodes -/

theorem pending_filed (hold : ∀ e ∈ w.examined, e.tnode ≤ w.tIter) (c d : Nat) :
    (w.filed c d).pending = w.pending ++ [⟨w.tIter + 1, c, d, w.calls⟩] := by
  show (w.added ++ [_]).filter _ = w.added.filter _ ++ [_]
  rw [List.filter_append, List.filter_cons_of_pos, List.filter_nil]
  · rfl
  · refine decide_eq_true ?_
    intro hin
    obtain ⟨e, he, heq⟩ := List.mem_map.mp hin
    exact absurd (hold e he) (heq ▸ Nat.not_succ_le_self _)

theorem pending_examine (call : Nat) (w : Wheel) (temp : Nat) :
    (w.examine call temp).pending = w.pending.filter fun a => a.tnode ≠ temp := by
  show w.added.filter _ = (w.added.filter _).filter _
  rw [List.filter_filter]
  refine List.filter_congr fun a _ => ?_
  simp only [Wheel.examine, List.map_append, List.map_cons, List.map_nil, List.mem_append,
    List.mem_singleton, not_or, Bool.decide_and]
  exact Bool.and_comm _ _

theorem mem_pending {a : Added} :
    a ∈ w.pending ↔ a ∈ w.added ∧ ∀ e ∈ w.examined, e.tnode ≠ a.tnode := by
  rw [pending, List.mem_filter, decide_eq_true_eq, List.mem_map, not_exists]
  simp only [not_and]

end Wheel

/-- Taking one node out of a list in which it stands once. -/
theorem countP_without {l : List Added} (hnd : (l.map Added.tnode).Nodup) {a : Added}
    (ha : a ∈ l) (c : Nat) :
    l.countP (fun b => b.cnode = c) =
      l.countP (fun b => b.cnode = c ∧ b.tnode ≠ a.tnode) + if a.cnode = c then 1 else 0 := by
  induction l with
  | nil => exact absurd ha List.not_mem_nil
  | cons b l ih =>
      obtain ⟨hb, hnd⟩ := List.nodup_cons.mp hnd
      rw [List.countP_cons, List.countP_cons]
      rcases List.mem_cons.mp ha with rfl | ha
      · -- the others have another address
        have hrest : l.countP (fun b => b.cnode = c) =
            l.countP (fun b => b.cnode = c ∧ b.tnode ≠ a.tnode) := by
          refine List.countP_congr fun x hx => ?_
          have hne : x.tnode ≠ a.tnode := fun heq => hb (heq ▸ List.mem_map_of_mem hx)
          simp only [decide_eq_true_eq, hne, ne_eq, not_false_eq_true, and_true]
        rw [hrest]
        simp
      · have hne : b.tnode ≠ a.tnode := fun heq => hb (heq ▸ List.mem_map_of_mem ha)
        rw [ih hnd ha]
        simp only [hne, ne_eq, not_false_eq_true, and_true]
        omega

namespace Wheel

variable {w w' : Wheel} {c d t call : Nat}

/-! ## `add_conn` -/

theorem Counted.examined_le (h : Counted w) : ∀ e ∈ w.examined, e.tnode ≤ w.tIter := by
  intro e he
  obtain ⟨⟨a, ha, heq, -, -⟩, -, -⟩ := h.seen e he
  exact heq ▸ (h.old a ha).1

theorem Counted.filed (h : Counted w) (hlt : w.tIter + 1 < maxTimer) (c d : Nat) :
    Counted (w.filed c d) := by
  have hpend := pending_filed h.examined_le c d
  refine ⟨h.tick, hlt, fun i hi => ?_, fun a ha => ?_, ?_, fun k => ?_, fun e he => ?_, h.once⟩
  · have hi : w.tIter + 1 < i := hi
    show (Function.update w.timerNodes (w.tIter + 1) _ i).idx = 0
    rw [Function.update_of_ne (Nat.ne_of_gt hi)]
    exact h.fresh i (Nat.lt_of_succ_lt hi)
  · show a.tnode ≤ w.tIter + 1 ∧
      (Function.update w.timerNodes (w.tIter + 1) _ a.tnode).node = a.cnode
    rcases List.mem_append.mp ha with ha | ha
    · obtain ⟨hle, hnode⟩ := h.old a ha
      rw [Function.update_of_ne (Nat.ne_of_lt (Nat.lt_succ_of_le hle))]
      exact ⟨Nat.le_succ_of_le hle, hnode⟩
    · obtain rfl := List.mem_singleton.mp ha
      rw [Function.update_self]
      exact ⟨Nat.le_refl _, rfl⟩
  · show ((w.added ++ [_]).map Added.tnode).Nodup
    rw [List.map_append]
    refine h.nodup.append (List.nodup_singleton _) ?_
    intro t ht ht'
    obtain ⟨a, ha, rfl⟩ := List.mem_map.mp ht
    have hle := (h.old a ha).1
    exact absurd (List.mem_singleton.mp ht') (Nat.ne_of_lt (Nat.lt_succ_of_le hle))
  · have hold := h.count k
    show Function.update w.used c ((w.used c + 1) % 256) k = (w.filed c d).waiting k % 256
    rw [waiting, hpend, List.countP_append, List.countP_singleton, ← waiting,
      Function.update_apply]
    by_cases hk : k = c
    · subst hk
      rw [if_pos rfl, hold]
      simp
    · rw [if_neg hk, hold, if_neg (by simpa using Ne.symm hk)]
      rfl
  · obtain ⟨⟨a, ha, hfor⟩, hrest⟩ := h.seen e he
    exact ⟨⟨a, List.mem_append_left _ ha, hfor⟩, hrest⟩

theorem Filed.filed (h : Counted w) (hf : Filed w) (c d : Nat) : Filed (w.filed c d) := by
  have hpend := pending_filed h.examined_le c d
  -- the tick is the number of calls modulo the word, which sixteen divides
  have hslot : ∀ i : Fin twSize, slotOf (addU32 (addU32 w.tick expire) d) = i ↔
      (Added.visit ⟨w.tIter + 1, c, d, w.calls⟩) % twSize = (i : Nat) := by
    intro i
    rw [Fin.ext_iff, slotOf_val, h.tick]
    simp only [Added.visit, addU32, wordSize_eq, twSize]
    omega
  refine ⟨fun i => ?_, fun a ha => ?_⟩
  · show Function.update w.tw _ _ i = _
    rw [hpend, List.filter_append, List.map_append, Function.update_apply, ← hf.slot i]
    split
    · rename_i heq
      subst heq
      rw [List.filter_singleton, decide_eq_true ((hslot _).mp rfl)]
      rfl
    · rename_i hne
      rw [List.filter_singleton, decide_eq_false (mt (hslot i).mpr (Ne.symm hne))]
      exact (List.append_nil _).symm
  · rw [hpend] at ha
    rcases List.mem_append.mp ha with ha | ha
    · exact hf.window a ha
    · obtain rfl := List.mem_singleton.mp ha
      show w.calls ≤ Added.visit _ ∧ Added.visit _ < w.calls + twSize
      have hmod := Nat.mod_lt (expire + d) (show 0 < twSize by decide)
      simp only [Added.visit]
      omega

/-! ## `check_conn` -/

/-- One turn of the loop: a pending node of the call's slot is examined. -/
theorem Counted.examine (h : Counted w) (hlt : call < w.calls) {a : Added} (ha : a ∈ w.pending)
    (hcall : call = a.visit) : Counted (w.examine call a.tnode) := by
  obtain ⟨hadded, hnew⟩ := mem_pending.mp ha
  have hnode := (h.old a hadded).2
  have hpend := pending_examine call w a.tnode
  have hnd : (w.pending.map Added.tnode).Nodup :=
    h.nodup.sublist (List.filter_sublist.map Added.tnode)
  have hwait : ∀ k, w.waiting k = (w.examine call a.tnode).waiting k +
      if a.cnode = k then 1 else 0 := by
    intro k
    rw [waiting, waiting, hpend, List.countP_filter, countP_without hnd ha k]
    simp only [Bool.decide_and]
  have hused : (w.used a.cnode + 255) % 256 = (w.examine call a.tnode).waiting a.cnode % 256 := by
    have hold := h.count a.cnode
    have := hwait a.cnode
    rw [if_pos rfl] at this
    omega
  refine ⟨h.tick, h.bound, fun i hi => ?_, fun b hb => ?_, h.nodup, fun k => ?_, fun e he => ?_,
    ?_⟩
  · show (Function.update w.timerNodes a.tnode _ i).idx = 0
    rw [Function.update_of_ne (Nat.ne_of_gt (Nat.lt_of_le_of_lt (h.old a hadded).1 hi))]
    exact h.fresh i hi
  · refine ⟨(h.old b hb).1, ?_⟩
    show (Function.update w.timerNodes a.tnode _ b.tnode).node = b.cnode
    rw [Function.update_apply]
    split
    · rename_i heq
      exact heq ▸ (h.old b hb).2
    · exact (h.old b hb).2
  · show Function.update w.used (w.timerNodes a.tnode).node _ k = _
    rw [hnode, Function.update_apply]
    split
    · rename_i heq
      rw [heq]
      exact hused
    · rename_i hne
      have := hwait k
      rw [if_neg (Ne.symm hne), Nat.add_zero] at this
      rw [h.count k, this]
  · rcases List.mem_append.mp he with he | he
    · exact h.seen e he
    · obtain rfl := List.mem_singleton.mp he
      refine ⟨⟨a, hadded, rfl, hnode.symm, hcall⟩, hlt, ?_⟩
      rw [decide_eq_true_eq, hnode, hused, waiting, hpend, List.countP_filter]
      simp only [Bool.decide_and]
  · show ((w.examined ++ [_]).map Examined.tnode).Nodup
    rw [List.map_append]
    refine h.once.append (List.nodup_singleton _) ?_
    intro t ht ht'
    obtain ⟨e, he, rfl⟩ := List.mem_map.mp ht
    exact hnew e he (List.mem_singleton.mp ht')

/-- The loop of `check_conn` over nodes that are all pending for this call. -/
theorem Counted.examineAll (l : List Nat) (h : Counted w) (hlt : call < w.calls)
    (hl : ∀ t ∈ l, ∃ a ∈ w.pending, a.tnode = t ∧ call = a.visit) (hnd : l.Nodup) :
    Counted (l.foldl (Wheel.examine call) w) ∧
      (l.foldl (Wheel.examine call) w).pending = w.pending.filter (fun a => a.tnode ∉ l) ∧
      (l.foldl (Wheel.examine call) w).tw = w.tw ∧
      (l.foldl (Wheel.examine call) w).calls = w.calls := by
  induction l generalizing w with
  | nil =>
      refine ⟨h, ?_, rfl, rfl⟩
      simp
  | cons t l ih =>
      obtain ⟨hnew, hrest⟩ := List.nodup_cons.mp hnd
      obtain ⟨a, ha, rfl, hcall⟩ := hl t List.mem_cons_self
      have hpend := pending_examine call w a.tnode
      -- the others are still pending
      have hl' : ∀ t ∈ l, ∃ b ∈ (w.examine call a.tnode).pending, b.tnode = t ∧ call = b.visit := by
        intro t ht
        obtain ⟨b, hb, rfl, hb'⟩ := hl t (List.mem_cons_of_mem _ ht)
        refine ⟨b, ?_, rfl, hb'⟩
        rw [hpend, List.mem_filter]
        exact ⟨hb, decide_eq_true fun heq => hnew (heq ▸ ht)⟩
      obtain ⟨h', hp', htw, hcalls⟩ := ih (h.examine hlt ha hcall) hlt hl' hrest
      refine ⟨h', ?_, htw, hcalls⟩
      rw [List.foldl_cons, hp', hpend, List.filter_filter]
      refine List.filter_congr fun b _ => ?_
      simp only [List.mem_cons, not_or, Bool.decide_and]
      exact Bool.and_comm _ _

/-- `check_conn` examines the pending nodes whose call it is. -/
theorem Counted.checkConn (h : Counted w) (hf : Filed w) :
    Counted w.checkConn ∧ Filed w.checkConn ∧ w.checkConn.calls = w.calls + 1 ∧
      w.checkConn.pending = w.pending.filter fun a => a.visit ≠ w.calls := by
  have hslot : (slotOf w.tick : Nat) = w.calls % twSize := by
    rw [slotOf_val, h.tick]
    simp only [wordSize_eq, twSize]
    omega
  have hnd : (w.pending.map Added.tnode).Nodup :=
    h.nodup.sublist (List.filter_sublist.map Added.tnode)
  -- of the pending nodes, the slot holds those that this call comes to
  have hin : ∀ a ∈ w.pending, a.tnode ∈ w.tw (slotOf w.tick) ↔ a.visit = w.calls := by
    intro a ha
    obtain ⟨hge, hlt⟩ := hf.window a ha
    rw [hf.slot, List.mem_map]
    constructor
    · rintro ⟨b, hb, heq⟩
      obtain ⟨hb, hmod⟩ := List.mem_filter.mp hb
      obtain rfl := List.inj_on_of_nodup_map hnd hb ha heq
      have hmod := (decide_eq_true_iff.mp hmod).trans hslot
      simp only [twSize] at hlt hmod
      omega
    · intro heq
      exact ⟨a, List.mem_filter.mpr ⟨ha, decide_eq_true (by rw [hslot, heq])⟩, rfl⟩
  let w₁ : Wheel := { w with tick := addU32 w.tick 1, calls := w.calls + 1 }
  have h₁ : Counted w₁ := by
    refine ⟨?_, h.bound, h.fresh, h.old, h.nodup, h.count, fun e he => ?_, h.once⟩
    · show addU32 w.tick 1 = (w.calls + 1) % wordSize
      rw [h.tick, addU32_mod]
    · obtain ⟨hfor, hlt, hdead⟩ := h.seen e he
      exact ⟨hfor, Nat.lt_succ_of_lt hlt, hdead⟩
  have hall : ∀ t ∈ w.tw (slotOf w.tick), ∃ a ∈ w₁.pending, a.tnode = t ∧ w.calls = a.visit := by
    intro t ht
    have ht' := ht
    rw [hf.slot] at ht'
    obtain ⟨a, ha, rfl⟩ := List.mem_map.mp ht'
    have ha := (List.mem_filter.mp ha).1
    exact ⟨a, ha, rfl, ((hin a ha).mp ht).symm⟩
  have hslotnd : (w.tw (slotOf w.tick)).Nodup := by
    rw [hf.slot]
    exact hnd.sublist (List.filter_sublist.map Added.tnode)
  obtain ⟨h₂, hpend, htw, hcalls⟩ := h₁.examineAll _ (Nat.lt_succ_self w.calls) hall hslotnd
  have hpend : w.checkConn.pending = w.pending.filter fun a => a.visit ≠ w.calls := by
    refine hpend.trans (List.filter_congr fun a ha => ?_)
    exact decide_eq_decide.mpr (not_congr (hin a ha))
  refine ⟨⟨h₂.tick, h₂.bound, h₂.fresh, h₂.old, h₂.nodup, h₂.count, h₂.seen, h₂.once⟩,
    ⟨fun i => ?_, fun a ha => ?_⟩, hcalls, hpend⟩
  · show Function.update (List.foldl _ w₁ _).tw (slotOf w.tick) [] i = _
    rw [hpend, List.filter_filter, htw, Function.update_apply]
    split
    · rename_i heq
      subst heq
      rw [List.filter_eq_nil_iff.mpr, List.map_nil]
      intro a ha hboth
      obtain ⟨hmod, hne⟩ := Bool.and_eq_true_iff.mp hboth
      refine decide_eq_true_iff.mp hne ((hin a ha).mp ?_)
      rw [hf.slot]
      exact List.mem_map_of_mem (List.mem_filter.mpr ⟨ha, hmod⟩)
    · rename_i hne
      refine (hf.slot i).trans (congrArg _ (List.filter_congr fun a _ => ?_))
      -- a node of another slot is not this call's
      have hother : a.visit % twSize = (i : Nat) → a.visit ≠ w.calls := by
        intro hmod heq
        exact hne (Fin.ext (by rw [← hmod, heq, hslot]))
      by_cases hmod : a.visit % twSize = (i : Nat)
      · rw [decide_eq_true hmod, decide_eq_true (hother hmod)]
        rfl
      · rw [decide_eq_false hmod]
        rfl
  · rw [hpend] at ha
    obtain ⟨ha, hne⟩ := List.mem_filter.mp ha
    obtain ⟨hge, hlt⟩ := hf.window a ha
    have hne := decide_eq_true_iff.mp hne
    rw [show w.checkConn.calls = w.calls + 1 from hcalls]
    omega

/-! ## What is pending, and what was examined -/

/-- A node that is no longer pending was examined when its slot was come to. -/
theorem Counted.onTime (h : Counted w) (hf : Filed w) {a : Added} (ha : a ∈ w.added) :
    (w.examined.filter fun e => e.tnode = a.tnode).map Examined.call =
      if a.visit < w.calls then [a.visit] else [] := by
  by_cases hp : a ∈ w.pending
  · rw [if_neg (Nat.not_lt.mpr (hf.window a hp).1), List.filter_eq_nil_iff.mpr, List.map_nil]
    intro e he heq
    exact (mem_pending.mp hp).2 e he (decide_eq_true_iff.mp heq)
  · have hsome : ∃ e ∈ w.examined, e.tnode = a.tnode := by
      by_contra hnone
      exact hp (mem_pending.mpr ⟨ha, fun e he heq => hnone ⟨e, he, heq⟩⟩)
    obtain ⟨e, he, heq⟩ := hsome
    obtain ⟨⟨b, hb, hbt, -, hcall⟩, hlt, -⟩ := h.seen e he
    obtain rfl := List.inj_on_of_nodup_map h.nodup hb ha (hbt.trans heq)
    have hone : w.examined.filter (fun e' => e'.tnode = b.tnode) = [e] := by
      have hiff : ∀ e' ∈ w.examined, decide (e'.tnode = b.tnode) = decide (e' = e) := by
        intro e' he'
        refine decide_eq_decide.mpr ⟨fun heq' => ?_, fun heq' => heq' ▸ heq⟩
        exact List.inj_on_of_nodup_map h.once he' he (heq'.trans heq.symm)
      rw [List.filter_congr hiff, List.filter_eq, List.count_eq_one_of_mem h.once.of_map he]
      rfl
    rw [hone, ← hcall, if_pos hlt]
    rfl

/-- The counts fit into the byte. -/
structure Small (w : Wheel) : Prop where
  delay : ∀ a ∈ w.added, expire + a.delay < twSize
  waiting : ∀ c, w.waiting c < 256
  left : ∀ e ∈ w.examined, e.left < 256

theorem Small.examine (h : Small w) (call t : Nat) : Small (w.examine call t) := by
  refine ⟨h.delay, fun c => ?_, fun e he => ?_⟩
  · refine Nat.lt_of_le_of_lt ?_ (h.waiting c)
    rw [Wheel.waiting, pending_examine]
    exact List.filter_sublist.countP_le
  · rcases List.mem_append.mp he with he | he
    · exact h.left e he
    · obtain rfl := List.mem_singleton.mp he
      refine Nat.lt_of_le_of_lt (List.countP_mono_left fun a _ ha => ?_)
        (h.waiting (w.timerNodes t).node)
      exact decide_eq_true (decide_eq_true_iff.mp ha).1

theorem Small.examineAll (l : List Nat) (h : Small w) (call : Nat) :
    Small (l.foldl (Wheel.examine call) w) := by
  induction l generalizing w with
  | nil => exact h
  | cons t l ih => exact ih (h.examine call t)

theorem Small.checkConn (h : Small w) : Small w.checkConn := by
  have h₁ : Small { w with tick := addU32 w.tick 1, calls := w.calls + 1 } :=
    ⟨h.delay, h.waiting, h.left⟩
  obtain ⟨hdelay, hwaiting, hleft⟩ := h₁.examineAll (w.tw (slotOf w.tick)) w.calls
  exact ⟨hdelay, hwaiting, hleft⟩

/-- With short delays and small counts the wheel is right. -/
theorem Small.right (hs : Small w) (h : Counted w) (hf : Filed w) : Right w := by
  refine ⟨fun a ha => ?_, fun e he => ?_, fun c => ?_, fun e he => ?_⟩
  · have hvisit : a.visit = a.due := by
      rw [Added.visit, Nat.mod_eq_of_lt (hs.delay a ha), ← Nat.add_assoc]
      rfl
    rw [h.onTime hf ha, hvisit]
  · obtain ⟨⟨a, ha, htnode, hcnode, -⟩, -, -⟩ := h.seen e he
    exact ⟨a, ha, htnode, hcnode⟩
  · rw [h.count c, Nat.mod_eq_of_lt (hs.waiting c)]
  · rw [(h.seen e he).2.2, Nat.mod_eq_of_lt (hs.left e he)]

end Wheel

theorem Wheel.added_examineAll (l : List Nat) (call : Nat) (w : Wheel) :
    (l.foldl (Wheel.examine call) w).added = w.added := by
  induction l generalizing w with
  | nil => rfl
  | cons t l ih => exact ih (w.examine call t)

theorem Wheel.added_checkConn (w : Wheel) : w.checkConn.added = w.added :=
  added_examineAll (w.tw (slotOf w.tick)) w.calls _

/-! ## Runs -/

section

variable {w w' : Wheel} {i : Call} {calls : List Call}

open Wheel

theorem init_sound : Counted Wheel.init ∧ Filed Wheel.init ∧ Small Wheel.init := by
  refine ⟨⟨rfl, by decide, fun _ _ => rfl, ?_, List.nodup_nil, fun _ => rfl, ?_, List.nodup_nil⟩,
    ⟨fun _ => rfl, ?_⟩, ⟨?_, fun _ => Nat.zero_lt_succ 255, ?_⟩⟩ <;>
  · intro a ha
    exact absurd ha List.not_mem_nil

/-- Any call that goes through leaves the counters and the slots as they should be. -/
theorem step_sound (hs : Counted w ∧ Filed w) (hstep : step w i = some w') :
    Counted w' ∧ Filed w' := by
  obtain ⟨h, hf⟩ := hs
  cases i with
  | addConn cnode delay =>
      rw [step, h.addConn] at hstep
      obtain ⟨hlt, heq⟩ := Option.ite_none_right_eq_some.mp hstep
      obtain rfl := Option.some.inj heq
      exact ⟨h.filed hlt cnode delay, hf.filed h cnode delay⟩
  | checkConn =>
      obtain rfl := Option.some.inj hstep
      obtain ⟨h', hf', -⟩ := h.checkConn hf
      exact ⟨h', hf'⟩

/-- A call that fits goes through and keeps delays and counts small. -/
theorem step_small (hs : Counted w ∧ Filed w ∧ Small w) (hfit : Fits w i) :
    ∃ w', step w i = some w' ∧ Counted w' ∧ Filed w' ∧ Small w' := by
  obtain ⟨h, hf, hsm⟩ := hs
  cases i with
  | addConn cnode delay =>
      obtain ⟨hdelay, hused, hlt⟩ := hfit
      refine ⟨w.filed cnode delay, ?_, h.filed hlt cnode delay, hf.filed h cnode delay, ?_, ?_,
        hsm.left⟩
      · rw [step, h.addConn, if_pos hlt]
      · intro a ha
        rcases List.mem_append.mp ha with ha | ha
        · exact hsm.delay a ha
        · exact List.mem_singleton.mp ha ▸ hdelay
      · intro c
        have hold := hsm.waiting c
        rw [Wheel.waiting, pending_filed h.examined_le, List.countP_append, List.countP_singleton]
        rw [h.count cnode, Nat.mod_eq_of_lt (hsm.waiting cnode)] at hused
        split
        · rename_i heq
          exact decide_eq_true_iff.mp heq ▸ hused
        · exact hold
  | checkConn =>
      obtain ⟨h', hf', -⟩ := h.checkConn hf
      exact ⟨w.checkConn, rfl, h', hf', hsm.checkConn⟩

/-- Calls only add to the record of what was added. -/
theorem run_added (hs : Counted w ∧ Filed w) (hrun : run step w calls = some w') :
    w.added <+: w'.added := by
  induction calls generalizing w with
  | nil => exact Option.some.inj hrun ▸ List.prefix_rfl
  | cons i calls ih =>
      obtain ⟨w₁, h₁, hrun⟩ := Option.bind_eq_some_iff.mp hrun
      refine List.IsPrefix.trans ?_ (ih (step_sound hs h₁) hrun)
      cases i with
      | addConn cnode delay =>
          rw [step, hs.1.addConn] at h₁
          obtain ⟨-, heq⟩ := Option.ite_none_right_eq_some.mp h₁
          obtain rfl := Option.some.inj heq
          exact List.prefix_append _ _
      | checkConn =>
          obtain rfl := Option.some.inj h₁
          exact (added_checkConn w) ▸ List.prefix_rfl

/-- Sixteen ticks come to every slot. -/
theorem run_ticks (n : Nat) (hs : Counted w ∧ Filed w) :
    ∃ w', run step w (List.replicate n .checkConn) = some w' ∧ Counted w' ∧ Filed w' ∧
      w'.calls = w.calls + n ∧ w'.added = w.added := by
  induction n generalizing w with
  | zero => exact ⟨w, rfl, hs.1, hs.2, rfl, rfl⟩
  | succ n ih =>
      obtain ⟨h', hf', hcalls, -⟩ := hs.1.checkConn hs.2
      obtain ⟨w', hrun, h'', hf'', hcalls', hadded⟩ := ih ⟨h', hf'⟩
      refine ⟨w', hrun, h'', hf'', ?_, hadded.trans (added_checkConn w)⟩
      rw [hcalls', hcalls, Nat.add_right_comm, Nat.add_assoc]

/-- A tick always fits. -/
theorem fits_ticks (n : Nat) {pre : List Call} (hm : Meets step Fits w calls)
    (hpre : pre <+: calls ++ List.replicate n .checkConn) : Meets step Fits w pre := by
  refine (meets_iff_split Fits pre w).mpr ?_
  intro p i q w' hpq hrun
  obtain ⟨rest, hrest⟩ := hpre
  rw [hpq, List.append_assoc, List.cons_append] at hrest
  have htick : i ∈ List.replicate n Call.checkConn → Fits w' i := by
    intro hin
    exact List.eq_of_mem_replicate hin ▸ trivial
  rcases List.append_eq_append_iff.mp hrest with ⟨as, hcalls, htail⟩ | ⟨bs, -, hticks⟩
  · cases as with
    | nil => exact htick (List.nil_append (List.replicate n Call.checkConn) ▸ htail ▸
        List.mem_cons_self)
    | cons j as =>
        obtain ⟨rfl, -⟩ := List.cons.inj htail
        exact (meets_iff_split Fits calls w).mp hm p i as w' hcalls hrun
  · exact htick (hticks ▸ List.mem_append_right bs List.mem_cons_self)

/-- A turn of the wheel comes to every node that has been added. -/
theorem visit_lt (hs : Counted w ∧ Filed w) {a : Added} (ha : a ∈ w.added) :
    a.visit < w.calls + twSize := by
  by_cases hp : a ∈ w.pending
  · exact (hs.2.window a hp).2
  · have hone := hs.1.onTime hs.2 ha
    by_cases hlt : a.visit < w.calls
    · exact Nat.lt_add_right _ hlt
    · -- it was never examined, so it is pending
      rw [if_neg hlt, List.map_eq_nil_iff, List.filter_eq_nil_iff] at hone
      exact absurd (mem_pending.mpr ⟨ha, fun e he heq => hone e he (decide_eq_true heq)⟩) hp

/-- A node filed for a call beyond the wheel's sixteen slots is examined too early. -/
theorem delay_of_right (hs : Counted w ∧ Filed w) (hs' : Counted w' ∧ Filed w')
    (hcalls : w'.calls = w.calls + twSize) (hadded : w'.added = w.added) (hright : Right w')
    {a : Added} (ha : a ∈ w.added) : expire + a.delay < twSize := by
  have hvisit : a.visit < w'.calls := hcalls ▸ visit_lt hs ha
  have hone := hright.onTime a (hadded ▸ ha)
  rw [hs'.1.onTime hs'.2 (hadded ▸ ha), if_pos hvisit] at hone
  split at hone
  · have heq := List.singleton_inj.mp hone
    have hmod := Nat.mod_lt (expire + a.delay) (show 0 < twSize from Nat.zero_lt_succ 15)
    simp only [Added.visit, Added.due] at heq
    omega
  · exact absurd hone (List.cons_ne_nil _ _)

theorem run_sound (calls : List Call) {w : Wheel} (hrun : run step Wheel.init calls = some w) :
    Counted w ∧ Filed w := by
  obtain ⟨hc, hf, -⟩ := init_sound
  have hinit : Counted Wheel.init ∧ Filed Wheel.init := ⟨hc, hf⟩
  exact run_keeps (fun _ _ _ => step_sound) calls hinit hrun

/--
Every state that the calls and a turn of the wheel after them reach is right, if and only if each
`add_conn` has a delay for which the wheel has a slot, is of a connection with fewer than 255
pending nodes, and does not take the allocator's index to the end of `timer_nodes`.
-/
theorem heartbeats_right_iff (calls : List Call) :
    RightAlong (calls ++ List.replicate twSize .checkConn) ↔ Meets step Fits Wheel.init calls := by
  constructor
  · intro hright
    rw [meets_iff_split]
    intro pre i post w heq hrun
    cases i with
    | checkConn => trivial
    | addConn cnode delay =>
        have hs := run_sound pre hrun
        have hcalls : calls = (pre ++ [.addConn cnode delay]) ++ post := by rw [heq]; simp
        obtain ⟨w₁, hrun₁, hright₁⟩ := hright (pre ++ [.addConn cnode delay]) (by
          rw [hcalls, List.append_assoc]
          exact List.prefix_append _ _)
        have hrun₁' := hrun₁
        rw [run_append, hrun, Option.bind_some, run, step, hs.1.addConn] at hrun₁
        obtain ⟨w₁', h₁, heq₁⟩ := Option.bind_eq_some_iff.mp hrun₁
        obtain rfl := Option.some.inj heq₁
        obtain ⟨hlt, heq₁⟩ := Option.ite_none_right_eq_some.mp h₁
        obtain rfl := Option.some.inj heq₁
        refine ⟨?_, ?_, hlt⟩
        · -- the node is still on record after all calls and a turn of the wheel
          obtain ⟨w₂, hrun₂, hright₂⟩ := hright _ List.prefix_rfl
          rw [run_append] at hrun₂
          obtain ⟨w₃, hrun₃, hrun₂⟩ := Option.bind_eq_some_iff.mp hrun₂
          have hs₃ := run_sound calls hrun₃
          obtain ⟨w₂', hrun₂', hc₂, hf₂, hticks, hadded⟩ := run_ticks twSize hs₃
          obtain rfl := Option.some.inj (hrun₂.symm.trans hrun₂')
          rw [hcalls, run_append, hrun₁', Option.bind_some] at hrun₃
          have hsub := run_added ⟨hs.1.filed hlt cnode delay, hs.2.filed hs.1 cnode delay⟩ hrun₃
          exact delay_of_right hs₃ ⟨hc₂, hf₂⟩ hticks hadded hright₂
            (hsub.subset (List.mem_append_right _ (List.mem_singleton_self _)))
        · have hused : (w.used cnode + 1) % 256 = (w.filed cnode delay).waiting cnode := by
            rw [← hright₁.used cnode]
            exact (Function.update_self cnode ((w.used cnode + 1) % 256) w.used).symm
          have hone : (w.filed cnode delay).waiting cnode = w.waiting cnode + 1 := by
            rw [Wheel.waiting, pending_filed hs.1.examined_le, List.countP_append,
              List.countP_singleton]
            simp [Wheel.waiting]
          rw [hone, hs.1.count cnode] at hused
          rw [hs.1.count cnode]
          omega
  · intro hm pre hpre
    have hall : ∃ w, run step Wheel.init pre = some w ∧ Counted w ∧ Filed w ∧ Small w :=
      run_meets Fits (fun _ _ => step_small) pre Wheel.init init_sound (fits_ticks twSize hm hpre)
    obtain ⟨w, hrun, hc', hf', hsm'⟩ := hall
    exact ⟨w, hrun, hsm'.right hc' hf'⟩

/-- A delay of six, which `main` allows, is taken up in the very next call. -/
theorem early_heartbeat : ¬ ∀ calls : List Call,
    (∀ cnode delay, .addConn cnode delay ∈ calls → delay ≤ 10) → RightAlong calls := by
  intro h
  obtain ⟨w, hrun, hright⟩ := h [.addConn 1 6, .checkConn] (by
    intro cnode delay hin
    obtain ⟨-, rfl⟩ : cnode = 1 ∧ delay = 6 := by simpa using hin
    decide) _ List.prefix_rfl
  have hgoes : (run step Wheel.init [.addConn 1 6, .checkConn]).map
      (fun w => (w.added, w.examined.map Examined.call, w.calls)) =
      some ([⟨1, 1, 6, 0⟩], [0], 1) := by decide +kernel
  obtain ⟨w', hrun', hrec⟩ := Option.map_eq_some_iff.mp hgoes
  obtain rfl := Option.some.inj (hrun.symm.trans hrun')
  obtain ⟨hadded, hexam⟩ := Prod.mk.inj hrec
  obtain ⟨hexam, hcalls⟩ := Prod.mk.inj hexam
  -- meant for call 16, examined in call 0
  have hone := hright.onTime ⟨1, 1, 6, 0⟩ (hadded ▸ List.mem_singleton_self _)
  rw [hcalls] at hone
  obtain ⟨e, he⟩ : ∃ e, w.examined = [e] := by
    obtain ⟨e, he, -⟩ := List.map_eq_singleton_iff.mp hexam
    exact ⟨e, he⟩
  obtain ⟨a, ha, heq, -⟩ := hright.owner e (he ▸ List.mem_singleton_self e)
  obtain rfl := List.mem_singleton.mp (hadded ▸ ha)
  rw [he, List.filter_singleton, decide_eq_true heq.symm] at hone
  exact absurd hone (List.cons_ne_nil _ _)

end

end CppTrack.SingleTw
