import CppTrack.Timers.TimeWheelProof

/-!
# Cancelling a timer of the wheel

`del_timer` sets the node's `cancel` byte and `dispatch_list` runs the callback of a node whose
byte is zero. The byte is what `malloc` left there until `del_timer` sets it.

`Watched` is the wheel with a record of what `malloc` left, of the calls of `del_timer` and of the
nodes that were dispatched. The record changes nothing of what the wheel does (`watchedStep_world`).
-/

namespace CppTrack.TimeWheel

open Lib

/-- A node dispatched: whether `del_timer` had been called on it, and whether its callback ran. -/
structure Dispatch where
  addr : Nat
  deleted : Bool
  ran : Bool
  deriving DecidableEq

/-- The wheel and the record. -/
structure Watched (α : Type) where
  world : World α
  /-- What `malloc` left in the `cancel` byte. -/
  garbage : Nat → Nat
  /-- The nodes `del_timer` was called on. -/
  deleted : List Nat
  dispatched : List Dispatch

variable {α : Type}

namespace Watched

def init : Watched α :=
  { world := World.init, garbage := fun _ => 0, deleted := [], dispatched := [] }

/-- The nodes a client may still call `del_timer` on. -/
def Live (v : Watched α) (addr : Nat) : Prop :=
  addr ∈ v.world.added.map (fun e => e.node.addr) ∧ addr ∉ v.dispatched.map Dispatch.addr

instance (v : Watched α) (addr : Nat) : Decidable (v.Live addr) :=
  inferInstanceAs (Decidable (_ ∧ _))

def call (v : Watched α) : Call α → Option (Watched α)
  | .addTimer time func threadid garbage =>
      some { v with
        world := v.world.call (.addTimer time func threadid garbage)
        garbage := Function.update v.garbage v.world.brk garbage }
  | .delTimer addr =>
      if v.Live addr then
        some { v with world := v.world.call (.delTimer addr), deleted := addr :: v.deleted }
      else none

/-- The node of `temp` is dispatched. -/
def dispatch (v : Watched α) (temp : TimerNode α) (ran : Bool) : Watched α :=
  { v with dispatched :=
      v.dispatched ++ [⟨temp.addr, decide (temp.addr ∈ v.deleted), ran⟩] }

def dispatchList (calls : TimerNode α → List (Call α)) :
    List (TimerNode α) → Watched α → Option (Watched α)
  | [], v => some v
  | temp :: current, v =>
      if v.world.cancel temp.addr = 0 then
        (run call { v.dispatch temp true with
          world := { v.world with ran := v.world.ran ++ [temp] } } (calls temp)).bind
          (dispatchList calls current)
      else dispatchList calls current (v.dispatch temp false)

def timerExecute (calls : TimerNode α → List (Call α)) : Nat → Watched α → Option (Watched α)
  | 0, _ => none
  | fuel + 1, v =>
      let idx := nearIdx v.world.T.time
      if (v.world.T.near idx).isEmpty then some v
      else
        let (current, T') := v.world.T.linkClear (.inl idx)
        let handed := v.world.handed ++ current.map (fun node => (node, T'.time))
        (dispatchList calls current
          { v with world := { v.world with T := T', handed := handed } }).bind
          (timerExecute calls fuel)

def timerUpdate (fuel : Nat) (calls calls' : TimerNode α → List (Call α)) (v : Watched α) :
    Option (Watched α) := do
  let v₁ ← timerExecute calls fuel v
  let w ← v₁.world.timerShift
  timerExecute calls' fuel { v₁ with world := w }

end Watched

def watchedStep (fuel : Nat) (v : Watched α) : Op α → Option (Watched α)
  | .call c => v.call c
  | .tick calls calls' => v.timerUpdate fuel calls calls'

/-! ## The record changes nothing -/

section

variable {v v' : Watched α} {c : Call α} {calls calls' : TimerNode α → List (Call α)}
  {fuel : Nat} {op : Op α}

theorem Watched.call_world (h : v.call c = some v') : v'.world = v.world.call c := by
  cases c with
  | addTimer time func threadid garbage => exact (Option.some.inj h) ▸ rfl
  | delTimer addr =>
      obtain ⟨-, h⟩ := Option.ite_none_right_eq_some.mp h
      exact (Option.some.inj h) ▸ rfl

theorem Watched.calls_world (cs : List (Call α)) (h : run Watched.call v cs = some v') :
    v'.world = cs.foldl World.call v.world := by
  induction cs generalizing v with
  | nil => exact (Option.some.inj h) ▸ rfl
  | cons c cs ih =>
      obtain ⟨v₁, h₁, h⟩ := Option.bind_eq_some_iff.mp h
      rw [ih h, call_world h₁, List.foldl_cons]

theorem Watched.dispatchList_world (current : List (TimerNode α))
    (h : Watched.dispatchList calls current v = some v') :
    v'.world = World.dispatchList calls current v.world := by
  induction current generalizing v with
  | nil => exact (Option.some.inj h) ▸ rfl
  | cons temp current ih =>
      rw [Watched.dispatchList] at h
      rw [World.dispatchList]
      split at h
      · rename_i hzero
        obtain ⟨v₁, h₁, h⟩ := Option.bind_eq_some_iff.mp h
        rw [ih h, calls_world _ h₁, if_pos hzero]
      · rename_i hset
        rw [ih h, if_neg hset]
        rfl

theorem Watched.timerExecute_world (h : Watched.timerExecute calls fuel v = some v') :
    World.timerExecute calls fuel v.world = some v'.world := by
  induction fuel generalizing v with
  | zero => exact absurd h nofun
  | succ fuel ih =>
      rw [Watched.timerExecute] at h
      rw [World.timerExecute]
      dsimp only at h ⊢
      split at h
      · rename_i hempty
        rw [if_pos hempty, ← Option.some.inj h]
      · rename_i hsome
        obtain ⟨v₁, h₁, h⟩ := Option.bind_eq_some_iff.mp h
        rw [if_neg hsome, ← dispatchList_world _ h₁]
        exact ih h

/-- Without the record a step is the wheel's own. -/
theorem watchedStep_world (h : watchedStep fuel v op = some v') :
    step fuel v.world op = some v'.world := by
  cases op with
  | call c => rw [step, Watched.call_world h]
  | tick calls calls' =>
      obtain ⟨v₁, h₁, h⟩ := Option.bind_eq_some_iff.mp h
      obtain ⟨w, hw, h⟩ := Option.bind_eq_some_iff.mp h
      rw [step, World.timerUpdate, Watched.timerExecute_world h₁, Option.bind_eq_bind,
        Option.bind_some, hw]
      exact Watched.timerExecute_world h

/-! ## The cancel bytes -/

/-- The callback runs just if `del_timer` was not called before. -/
def Dispatch.Right (d : Dispatch) : Prop :=
  (d.deleted = false → d.ran = true) ∧ (d.deleted = true → d.ran = false)

/-- What the record says of the `cancel` bytes. Every node is older than the next address. -/
structure Recorded (v : Watched α) : Prop where
  byte : ∀ addr, v.world.cancel addr = if addr ∈ v.deleted then 1 else v.garbage addr
  fresh : ∀ e ∈ v.world.added, e.node.addr < v.world.brk
  deleted : ∀ addr ∈ v.deleted, addr < v.world.brk
  older : ∀ d ∈ v.dispatched, d.addr < v.world.brk
  ran : ∀ d ∈ v.dispatched, d.ran = true ↔ d.deleted = false ∧ v.garbage d.addr = 0

theorem recorded_init : Recorded (Watched.init : Watched α) where
  byte := fun _ => rfl
  fresh := fun _ he => absurd he List.not_mem_nil
  deleted := fun _ haddr => absurd haddr List.not_mem_nil
  older := fun _ hd => absurd hd List.not_mem_nil
  ran := fun _ hd => absurd hd List.not_mem_nil

theorem World.brk_call (w : World α) (c : Call α) : w.brk ≤ (w.call c).brk := by
  cases c with
  | addTimer time func threadid garbage =>
      rw [World.call, World.addTimer]
      split <;> exact Nat.le_succ _
  | delTimer addr => exact Nat.le_refl _

theorem World.addTimer_spec (w : World α) (time : CInt) (func : α) (threadid : Int)
    (garbage : Nat) :
    (w.addTimer time func threadid garbage).1.cancel = Function.update w.cancel w.brk garbage ∧
      (w.addTimer time func threadid garbage).1.brk = w.brk + 1 ∧
      ∀ e ∈ (w.addTimer time func threadid garbage).1.added,
        e ∈ w.added ∨ e.node.addr = w.brk := by
  rw [World.addTimer]
  split
  · exact ⟨rfl, rfl, fun e he => .inl he⟩
  · refine ⟨rfl, rfl, fun e he => ?_⟩
    rcases List.mem_append.mp he with he | he
    · exact .inl he
    · exact .inr (List.mem_singleton.mp he ▸ rfl)

theorem Recorded.call (h : Recorded v) (hcall : v.call c = some v') : Recorded v' := by
  cases c with
  | addTimer time func threadid garbage =>
      obtain rfl := Option.some.inj hcall
      obtain ⟨hcancel, hbrk, hadded⟩ := v.world.addTimer_spec time func threadid garbage
      refine ⟨fun addr => ?_, fun e he => ?_, fun addr haddr => ?_, fun d hd => ?_, fun d hd => ?_⟩
      · show (v.world.addTimer time func threadid garbage).1.cancel addr =
          if addr ∈ v.deleted then 1 else Function.update v.garbage v.world.brk garbage addr
        rw [hcancel, Function.update_apply, Function.update_apply]
        split
        · rename_i hnew
          -- an address that `malloc` has yet to return was never given to `del_timer`
          rw [if_neg fun hin => Nat.lt_irrefl _ (hnew ▸ h.deleted addr hin)]
        · exact h.byte addr
      · show e.node.addr < (v.world.addTimer time func threadid garbage).1.brk
        rw [hbrk]
        rcases hadded e he with he | he
        · exact Nat.lt_succ_of_lt (h.fresh e he)
        · exact he ▸ Nat.lt_succ_self _
      · exact hbrk ▸ Nat.lt_succ_of_lt (h.deleted addr haddr)
      · exact hbrk ▸ Nat.lt_succ_of_lt (h.older d hd)
      · show _ ↔ _ ∧ Function.update v.garbage v.world.brk garbage d.addr = 0
        rw [Function.update_of_ne (Nat.ne_of_lt (h.older d hd))]
        exact h.ran d hd
  | delTimer addr =>
      obtain ⟨⟨hadded, -⟩, heq⟩ := Option.ite_none_right_eq_some.mp hcall
      obtain rfl := Option.some.inj heq
      refine ⟨fun a => ?_, h.fresh, fun a ha => ?_, h.older, h.ran⟩
      · show Function.update v.world.cancel addr 1 a = if a ∈ addr :: v.deleted then 1 else _
        rw [Function.update_apply]
        by_cases heq : a = addr
        · rw [if_pos heq, if_pos (List.mem_cons.mpr (.inl heq))]
        · rw [if_neg heq, h.byte a]
          simp only [List.mem_cons, heq, false_or]
      · rcases List.mem_cons.mp ha with rfl | ha
        · obtain ⟨e, he, rfl⟩ := List.mem_map.mp hadded
          exact h.fresh e he
        · exact h.deleted a ha

theorem Recorded.run_calls (cs : List (Call α)) (h : Recorded v)
    (hcalls : run Watched.call v cs = some v') :
    Recorded v' ∧ v.world.brk ≤ v'.world.brk ∧ v'.dispatched = v.dispatched := by
  induction cs generalizing v with
  | nil =>
      obtain rfl := Option.some.inj hcalls
      exact ⟨h, Nat.le_refl _, rfl⟩
  | cons c cs ih =>
      obtain ⟨v₁, h₁, hcalls⟩ := Option.bind_eq_some_iff.mp hcalls
      obtain ⟨hv', hle, hsame⟩ := ih (h.call h₁) hcalls
      refine ⟨hv', Nat.le_trans ?_ hle, hsame.trans ?_⟩
      · rw [Watched.call_world h₁]
        exact v.world.brk_call c
      · cases c with
        | addTimer time func threadid garbage => exact (Option.some.inj h₁) ▸ rfl
        | delTimer addr =>
            exact (Option.some.inj (Option.ite_none_right_eq_some.mp h₁).2) ▸ rfl

/-- One turn of the loop of `dispatch_list` up to the callback. -/
theorem Recorded.dispatch {temp : TimerNode α} {ran : Bool} (h : Recorded v)
    (hold : temp.addr < v.world.brk) (hran : ran = true ↔ v.world.cancel temp.addr = 0) :
    Recorded (v.dispatch temp ran) := by
  refine ⟨h.byte, h.fresh, h.deleted, fun d hd => ?_, fun d hd => ?_⟩
  · rcases List.mem_append.mp hd with hd | hd
    · exact h.older d hd
    · exact List.mem_singleton.mp hd ▸ hold
  · rcases List.mem_append.mp hd with hd | hd
    · exact h.ran d hd
    · obtain rfl := List.mem_singleton.mp hd
      rw [hran, h.byte, decide_eq_false_iff_not]
      split
      · rename_i hin
        exact iff_of_false (by decide) fun hnot => hnot.1 hin
      · rename_i hout
        exact (and_iff_right hout).symm

theorem Recorded.dispatchList (current : List (TimerNode α))
    (hdisp : Watched.dispatchList calls current v = some v') (h : Recorded v)
    (hold : ∀ nd ∈ current, nd.addr < v.world.brk) : Recorded v' ∧
      v'.dispatched.map Dispatch.addr =
        v.dispatched.map Dispatch.addr ++ current.map TimerNode.addr := by
  induction current generalizing v with
  | nil =>
      obtain rfl := Option.some.inj hdisp
      exact ⟨h, (List.append_nil _).symm⟩
  | cons temp current ih =>
      have htemp := hold temp List.mem_cons_self
      have hone : ∀ ran, (v.dispatch temp ran).dispatched.map Dispatch.addr ++
          current.map TimerNode.addr =
          v.dispatched.map Dispatch.addr ++ (temp :: current).map TimerNode.addr := by
        intro ran
        show (v.dispatched ++ [_]).map Dispatch.addr ++ _ = _
        rw [List.map_append, List.append_assoc]
        rfl
      rw [Watched.dispatchList] at hdisp
      split at hdisp
      · rename_i hzero
        obtain ⟨v₁, h₁, hdisp⟩ := Option.bind_eq_some_iff.mp hdisp
        have hd := h.dispatch htemp (iff_of_true rfl hzero)
        obtain ⟨hv₁, hle, hsame⟩ := Recorded.run_calls (calls temp)
          (v := { v.dispatch temp true with
            world := { v.world with ran := v.world.ran ++ [temp] } })
          ⟨hd.byte, hd.fresh, hd.deleted, hd.older, hd.ran⟩ h₁
        obtain ⟨hv', haddr⟩ := ih hdisp hv₁
          fun nd hnd => Nat.lt_of_lt_of_le (hold nd (List.mem_cons_of_mem _ hnd)) hle
        exact ⟨hv', by rw [haddr, hsame, ← hone true]⟩
      · rename_i hset
        obtain ⟨hv', haddr⟩ := ih hdisp
          (h.dispatch htemp (iff_of_false Bool.false_ne_true hset))
          fun nd hnd => hold nd (List.mem_cons_of_mem _ hnd)
        exact ⟨hv', by rw [haddr, ← hone false]⟩

/-! ## Runs -/

theorem World.handed_call (w : World α) (c : Call α) : (w.call c).handed = w.handed := by
  cases c with
  | addTimer time func threadid garbage =>
      have hfiled : ∀ (T' : STimer α) (e : Added α),
          ((w.malloc garbage).filed T' e).handed = w.handed := fun _ _ => rfl
      rw [World.call, World.addTimer]
      split
      · rfl
      · exact hfiled _ _
  | delTimer addr => rfl

theorem World.handed_dispatchList (current : List (TimerNode α)) (w : World α) :
    (World.dispatchList calls current w).handed = w.handed := by
  have hcalls : ∀ (cs : List (Call α)) (w : World α),
      (cs.foldl World.call w).handed = w.handed := by
    intro cs
    induction cs with
    | nil => exact fun _ => rfl
    | cons c cs ih => exact fun w => (ih (w.call c)).trans (w.handed_call c)
  induction current generalizing w with
  | nil => rfl
  | cons temp current ih =>
      rw [World.dispatchList]
      split
      · exact (ih _).trans (hcalls (calls temp) _)
      · exact ih w

/-- What holds between two operations. What was handed over has been dispatched. -/
structure Tracked (v : Watched α) : Prop where
  recorded : Recorded v
  settled : Settled v.world
  all : v.dispatched.map Dispatch.addr = v.world.handed.map fun h => h.1.addr

theorem Watched.timerExecute_settled (h : Settled v.world) :
    Watched.timerExecute calls (fuel + 1) v = some v := by
  rw [Watched.timerExecute]
  simp [h.empty]

/-- The `timer_execute` after `timer_shift`. -/
theorem tracked_timerExecute (hexec : Watched.timerExecute calls fuel v = some v')
    (hv : Recorded v) (hw : Inv v.world.ticks (v.world.ticks + 1) v.world)
    (hall : v.dispatched.map Dispatch.addr = v.world.handed.map fun h => h.1.addr) :
    Tracked v' := by
  cases fuel with
  | zero => exact absurd hexec (Option.some_ne_none _).symm
  | succ fuel =>
      rw [Watched.timerExecute] at hexec
      dsimp only at hexec
      split at hexec
      · rename_i hempty
        obtain rfl := Option.some.inj hexec
        exact ⟨hv, settled_of_empty hw (List.isEmpty_iff.mp hempty), hall⟩
      · obtain ⟨v₁, hdisp, hexec⟩ := Option.bind_eq_some_iff.mp hexec
        have hlinked : ∀ nd ∈ (v.world.T.linkClear (.inl (nearIdx v.world.T.time))).1,
            nd.addr < v.world.brk := by
          intro nd hnd
          obtain ⟨e, he, rfl, -⟩ := hw.filed (.inl (nearIdx v.world.T.time)) nd hnd
          exact hw.fresh e he
        have hworld := Watched.dispatchList_world _ hdisp
        obtain ⟨hv₁, haddrs⟩ := Recorded.dispatchList _ hdisp
          ⟨hv.byte, hv.fresh, hv.deleted, hv.older, hv.ran⟩ hlinked
        have hsettled : Settled v₁.world := by
          rw [hworld]
          refine (settled_dispatchList calls _ ?_).1
          simp only [STimer.linkClear, STimer.time_setSlot]
          exact settled_handOver hw
        have hall₁ : v₁.dispatched.map Dispatch.addr =
            v₁.world.handed.map fun h => h.1.addr := by
          rw [haddrs, hworld, World.handed_dispatchList, List.map_append, List.map_map, hall]
          rfl
        -- nothing that a callback adds is due in this tick
        cases fuel with
        | zero => exact absurd hexec (Option.some_ne_none _).symm
        | succ fuel =>
            rw [Watched.timerExecute_settled hsettled] at hexec
            exact Option.some.inj hexec ▸ ⟨hv₁, hsettled, hall₁⟩

theorem tracked_step (hv : Tracked v) (h : watchedStep fuel v op = some v') : Tracked v' := by
  cases op with
  | call c =>
      have h : v.call c = some v' := h
      have hworld := Watched.call_world h
      refine ⟨hv.recorded.call h, hworld ▸ (settled_call hv.settled c).1, ?_⟩
      have hone : run Watched.call v [c] = some v' := by rw [run, h]; rfl
      rw [(hv.recorded.run_calls [c] hone).2.2, hworld, hv.all]
      rw [World.handed_call]
  | tick calls calls' =>
      obtain ⟨v₁, h₁, h⟩ := Option.bind_eq_some_iff.mp h
      obtain ⟨w, hw, h⟩ := Option.bind_eq_some_iff.mp h
      have hsame : v₁ = v := by
        cases fuel with
        | zero => exact absurd h₁ (Option.some_ne_none _).symm
        | succ fuel =>
            rw [Watched.timerExecute_settled hv.settled] at h₁
            exact (Option.some.inj h₁).symm
      subst hsame
      obtain ⟨w', hw', hinv, -⟩ := timerShift_inv hv.settled
      obtain rfl := Option.some.inj (hw'.symm.trans hw)
      obtain ⟨T', -, rfl⟩ := Option.map_eq_some_iff.mp hw
      have hr := hv.recorded
      exact tracked_timerExecute h ⟨hr.byte, hr.fresh, hr.deleted, hr.older, hr.ran⟩ hinv hv.all

theorem tracked_run (ops : List (Op α)) (hv : Tracked v)
    (hrun : run (watchedStep fuel) v ops = some v') : Tracked v' :=
  run_keeps (fun _ _ _ hv hstep => tracked_step hv hstep) ops hv hrun

theorem tracked_init : Tracked (Watched.init : Watched α) where
  recorded := recorded_init
  settled := settled_init
  all := rfl

/-- What was handed over was dispatched, node by node and in this order. -/
theorem dispatched_eq_handed (ops : List (Op α))
    (hrun : run (watchedStep fuel) Watched.init ops = some v) :
    v.dispatched.map Dispatch.addr = v.world.handed.map fun h => h.1.addr :=
  (tracked_run ops tracked_init hrun).all

/--
In every run, the callbacks that run are those of the nodes that `del_timer` was not called on in
time, if and only if `malloc` left a zero in the `cancel` byte of each of these nodes.
-/
theorem cancel_right_iff (ops : List (Op α))
    (hrun : run (watchedStep fuel) Watched.init ops = some v) :
    (∀ d ∈ v.dispatched, d.Right) ↔
      ∀ d ∈ v.dispatched, d.deleted = false → v.garbage d.addr = 0 := by
  have hran := (tracked_run ops tracked_init hrun).recorded.ran
  refine forall₂_congr fun d hd => ?_
  have hran := hran d hd
  unfold Dispatch.Right
  cases hdel : d.deleted with
  | false =>
      rw [hdel] at hran
      simpa using hran
  | true =>
      rw [hdel] at hran
      simpa using hran

/-- Two timers, of which one is cancelled although `malloc` left a 7 in its byte. -/
def oneCancelled : List (Op Unit) :=
  [.call (.addTimer ⟨1, by decide⟩ () 0 0), .call (.addTimer ⟨1, by decide⟩ () 0 7),
    .call (.delTimer 1), .tick (fun _ => []) (fun _ => [])]

theorem cancel_right_oneCancelled : ∃ v, run (watchedStep 2) Watched.init oneCancelled = some v ∧
    v.dispatched = [⟨0, false, true⟩, ⟨1, true, false⟩] ∧
      ((∀ d ∈ v.dispatched, d.Right) ↔
        ∀ d ∈ v.dispatched, d.deleted = false → v.garbage d.addr = 0) := by
  have hgoes : (run (watchedStep 2) Watched.init oneCancelled).map Watched.dispatched =
      some [⟨0, false, true⟩, ⟨1, true, false⟩] := by decide +kernel
  obtain ⟨v, hrun, hdisp⟩ := Option.map_eq_some_iff.mp hgoes
  exact ⟨v, hrun, hdisp, cancel_right_iff oneCancelled hrun⟩

/-- A timer that nobody cancelled and whose callback does not run. -/
theorem cancel_wrong : ∃ v, run (watchedStep 2) (Watched.init : Watched Unit)
    [.call (.addTimer ⟨1, by decide⟩ () 0 1), .tick (fun _ => []) (fun _ => [])] = some v ∧
      ¬ ∀ d ∈ v.dispatched, d.Right := by
  have hgoes : (run (watchedStep 2) (Watched.init : Watched Unit)
      [.call (.addTimer ⟨1, by decide⟩ () 0 1), .tick (fun _ => []) (fun _ => [])]).map
        Watched.dispatched = some [⟨0, false, false⟩] := by decide +kernel
  obtain ⟨v, hrun, hdisp⟩ := Option.map_eq_some_iff.mp hgoes
  refine ⟨v, hrun, fun hall => ?_⟩
  rw [hdisp] at hall
  exact absurd ((hall _ (List.mem_singleton_self _)).1 rfl) (by decide)

end

end CppTrack.TimeWheel
