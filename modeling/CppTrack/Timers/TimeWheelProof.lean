import CppTrack.Timers.TimeWheelSlots

/-!
# What the timing wheel does with a node

Two facts carry everything.

**Conservation.** The nodes sitting in the slots, plus the nodes already handed to
`dispatch_list`, are exactly the nodes `add_timer` filed, counted as a multiset.
Filing adds one node, a cascade only moves nodes, a hand-over moves a list.

**Every node waits for the right moment**, in the sense of `Waits`, unless
`add_timer` filed it in a dead slot. Such a node stays there for good.
-/

namespace CppTrack.TimeWheel

open Lib

variable {α : Type}

/-! ## Filing lists of nodes -/

/-- Whether `add_timer` filed this node away from the dead slots. -/
def Added.Kept (e : Added α) : Prop := TimeWheel.Kept (e.now % wordSize) e.time

/-- Every linked node was added and may wait where it is. -/
def Filed (a b n : Nat) (added : List (Added α)) (T : STimer α) : Prop :=
  ∀ s, ∀ nd ∈ T.slot s, ∃ e ∈ added, e.node = nd ∧ Waits a b n e.deadline e.Kept s

/-- Filing one node: conservation, and it waits in its new slot. -/
theorem filed_addNode {a n : Nat} {added : List (Added α)} {T : STimer α} {e : Added α}
    (hT : Filed a (n + 1) n added T) (htime : T.time = n % wordSize) (he : e ∈ added)
    (hexp : e.node.expire = e.deadline % wordSize) (ha : a ≤ e.deadline) (hn : n ≤ e.deadline)
    (hfit : e.deadline - n < wordSize)
    (hkept : e.Kept ↔ ¬ Dead (fileSlot (e.deadline - n) (e.deadline % wordSize))) :
    Filed a (n + 1) n added (T.addNode e.node) ∧
      (T.addNode e.node).time = n % wordSize ∧
      (T.addNode e.node).pending = T.pending + {e.node} := by
  rw [addNode_eq, hexp, htime, subU32_mod hn hfit]
  refine ⟨fun s nd hnd => ?_, by rw [STimer.time_link, htime], STimer.pending_link _ _ _⟩
  rcases STimer.mem_link.mp hnd with h | ⟨rfl, rfl⟩
  · exact hT s nd h
  · exact ⟨e, he, rfl, waits_fileSlot ha hfit hkept⟩

/-- The loop of `move_list`: everything due in the block just entered is filed again. -/
theorem filed_refile {n : Nat} {i : Fin 4} {j : Fin timeLevel} {added : List (Added α)}
    (hent : Enters n i j) (hexp : ∀ e ∈ added, e.node.expire = e.deadline % wordSize) :
    ∀ (current : List (TimerNode α)) (T : STimer α), Filed n (n + 1) n added T →
      T.time = n % wordSize →
      (∀ nd ∈ current, ∃ e ∈ added, e.node = nd ∧
        e.Kept ∧ n ≤ e.deadline ∧ e.deadline - n < block i) →
      Filed n (n + 1) n added (current.foldl STimer.addNode T) ∧
        (current.foldl STimer.addNode T).time = n % wordSize ∧
        (current.foldl STimer.addNode T).pending = T.pending + current
  | [], T, hT, htime, _ => ⟨hT, htime, by simp⟩
  | nd :: current, T, hT, htime, hdue => by
      obtain ⟨e, he, rfl, hk, hn, hD⟩ := hdue nd (List.mem_cons_self ..)
      have hfit : e.deadline - n < wordSize := by
        have : block i ≤ wordSize := by fin_cases i <;> decide
        omega
      obtain ⟨h₁, h₂, h₃⟩ := filed_addNode hT htime he (hexp e he) hn hn hfit
        (iff_of_true hk (hent.refile hn hD))
      obtain ⟨g₁, g₂, g₃⟩ := filed_refile hent hexp current (T.addNode e.node) h₁ h₂
        (fun nd' h => hdue nd' (List.mem_cons_of_mem _ h))
      refine ⟨g₁, g₂, ?_⟩
      rw [List.foldl_cons, g₃, h₃, add_assoc]
      rfl

/-! ## The invariant -/

/--
What holds of the wheel between operations (`a = b = ticks + 1`), and with smaller
bounds in the middle of a tick.
-/
structure Inv (a b : Nat) (w : World α) : Prop where
  /-- The clock is the number of ticks, wrapped. -/
  clock : w.T.time = w.ticks % wordSize
  /-- Addresses handed out by `malloc` are below `brk`. -/
  fresh : ∀ e ∈ w.added, e.node.addr < w.brk
  /-- Each node was added once. -/
  nodup : (w.added.map (fun e => e.node.addr)).Nodup
  /-- A node's expiry is its deadline, wrapped. -/
  expire : ∀ e ∈ w.added, e.node.expire = e.deadline % wordSize
  /-- Linked or handed over, and nothing else. -/
  conserved : w.T.pending + w.handed.map Prod.fst = w.added.map Added.node
  /-- Everything linked waits for the right moment. -/
  filed : Filed a b w.ticks w.added w.T
  /-- What was handed over was handed over on time, and had been filed in a live slot. -/
  onTime : ∀ h ∈ w.handed, h.2 = h.1.expire ∧ ∃ e ∈ w.added, e.node = h.1 ∧ e.Kept

/-- The invariant between operations. -/
def Settled (w : World α) : Prop := Inv (w.ticks + 1) (w.ticks + 1) w

theorem settled_init : Settled (World.init : World α) where
  clock := rfl
  fresh := by intro e h; simp [World.init] at h
  nodup := by simp [World.init]
  expire := by intro e h; simp [World.init] at h
  conserved := by simp [STimer.pending_create, World.init]
  filed := by intro s nd h; simp [World.init] at h
  onTime := by intro h hh; simp [World.init] at hh

theorem Waits.mono {a b n n' D : Nat} {kept : Prop} {s : Slot} (h : Waits a b n D kept s)
    (hn : n ≤ n') : Waits a b n' D kept s := by
  rcases s with j | ⟨i, j⟩
  · obtain ⟨hk, hj, ha, hturn⟩ := h
    exact ⟨hk, hj, ha, by omega⟩
  · obtain ⟨hj, h⟩ := h
    refine ⟨hj, ?_⟩
    split
    · rename_i hd; rwa [if_pos hd] at h
    · rename_i hd
      rw [if_neg hd] at h
      exact ⟨h.1, h.2.1, by omega⟩

theorem Filed.added {a b n : Nat} {added added' : List (Added α)} {T : STimer α}
    (h : Filed a b n added T) (hsub : ∀ e ∈ added, e ∈ added') : Filed a b n added' T := by
  intro s nd hnd
  obtain ⟨e, he, h₁, h₂⟩ := h s nd hnd
  exact ⟨e, hsub e he, h₁, h₂⟩

/-- Recording a node filed at the current tick keeps the invariant. -/
theorem settled_filed {w : World α} {T' : STimer α} {e : Added α} {garbage : Nat} (h : Settled w)
    (haddr : e.node.addr = w.brk) (hexp : e.node.expire = e.deadline % wordSize)
    (hT : Filed (w.ticks + 1) (w.ticks + 1) w.ticks (w.added ++ [e]) T')
    (htime : T'.time = w.ticks % wordSize) (hpend : T'.pending = w.T.pending + {e.node}) :
    Settled ((w.malloc garbage).filed T' e) := by
  refine ⟨htime, ?_, ?_, ?_, ?_, hT, ?_⟩
  · intro e' he'
    rcases List.mem_append.mp he' with he' | he'
    · exact Nat.lt_succ_of_lt (h.fresh e' he')
    · rw [List.mem_singleton.mp he', haddr]; exact Nat.lt_succ_self _
  · show ((w.added ++ [e]).map _).Nodup
    rw [List.map_append, List.nodup_append]
    refine ⟨h.nodup, by simp, fun x hx y hy hxy => ?_⟩
    obtain ⟨e', he', rfl⟩ := List.mem_map.mp hx
    have hlt := h.fresh e' he'
    simp only [List.map_cons, List.map_nil, List.mem_singleton] at hy
    rw [hxy, hy, haddr] at hlt
    exact absurd hlt (Nat.lt_irrefl _)
  · intro e' he'
    rcases List.mem_append.mp he' with he' | he'
    · exact h.expire e' he'
    · rw [List.mem_singleton.mp he', hexp]
  · have hw := h.conserved
    change T'.pending + ↑(w.handed.map Prod.fst) = ↑((w.added ++ [e]).map Added.node)
    rw [hpend, List.map_append, ← Multiset.coe_add, ← hw, add_right_comm]
    rfl
  · intro x hx
    obtain ⟨g₁, e', he', g₂⟩ := h.onTime x hx
    exact ⟨g₁, e', List.mem_append_left _ he', g₂⟩

/-- `add_timer` keeps the invariant, for every relative time and at every clock value. -/
theorem settled_addTimer {w : World α} (h : Settled w) (time : CInt) (func : α) (threadid : Int)
    (garbage : Nat) : Settled (w.addTimer time func threadid garbage).1 := by
  rw [World.addTimer]
  by_cases hpos : time.val ≤ 0
  · -- run at once: only `brk`, `cancel` and `ran` change
    rw [if_pos hpos]
    exact ⟨h.clock, fun e he => Nat.lt_succ_of_lt (h.fresh e he), h.nodup, h.expire, h.conserved,
      h.filed, h.onTime⟩
  · obtain ⟨t, ht⟩ : ∃ t : Nat, time.val = t := ⟨time.val.toNat, by omega⟩
    have htlt : t < 2 ^ 31 := by have := time.property.2; omega
    have hexp : ((time.val + (w.T.time : Int)) % (wordSize : Int)).toNat
        = (w.ticks + t) % wordSize := by
      rw [ht, h.clock, wordSize_eq]; omega
    rw [if_neg hpos, hexp, ht, Int.toNat_natCast]
    generalize he : (⟨⟨w.brk, (w.ticks + t) % wordSize, func, threadid⟩, w.ticks, t⟩ : Added α) = e
    have hd : e.deadline = w.ticks + t := by rw [← he]; rfl
    have hnode : (⟨w.brk, (w.ticks + t) % wordSize, func, threadid⟩ : TimerNode α) = e.node := by
      rw [← he]
    have hkept : e.Kept ↔ ¬ Dead (fileSlot (e.deadline - w.ticks) (e.deadline % wordSize)) := by
      rw [hd, Nat.add_sub_cancel_left, ← addU32_mod, ← he]
      exact kept_iff _ _
    have hold : Filed (w.ticks + 1) (w.ticks + 1) w.ticks (w.added ++ [e]) w.T :=
      h.filed.added (fun e' he' => List.mem_append_left _ he')
    obtain ⟨h₁, h₂, h₃⟩ := filed_addNode hold h.clock
      (List.mem_append_right _ (List.mem_singleton_self _)) (by rw [hd, ← hnode])
      (by omega) (by omega) (by rw [hd, wordSize_eq]; omega) hkept
    rw [hnode]
    exact settled_filed h (by rw [← hnode]) (by rw [hd, ← hnode]) h₁ h₂ h₃

/-- `w'` is `k` ticks later than `w`, and the record of what was added has only grown. -/
structure Later (k : Nat) (w w' : World α) : Prop where
  ticks : w'.ticks = w.ticks + k
  added : w.added <+: w'.added

theorem Later.refl (w : World α) : Later 0 w w := ⟨rfl, List.prefix_rfl⟩

theorem Later.trans {k k' : Nat} {w w' w'' : World α} (h : Later k w w') (h' : Later k' w' w'') :
    Later (k + k') w w'' :=
  ⟨by rw [h'.ticks, h.ticks, Nat.add_assoc], h.added.trans h'.added⟩

theorem later_addTimer (w : World α) (time : CInt) (func : α) (threadid : Int) (garbage : Nat) :
    Later 0 w (w.addTimer time func threadid garbage).1 := by
  have hfiled (T' : STimer α) (e : Added α) : Later 0 w ((w.malloc garbage).filed T' e) :=
    ⟨rfl, List.prefix_append _ _⟩
  rw [World.addTimer]
  split
  · exact ⟨rfl, List.prefix_rfl⟩
  · exact hfiled _ _

/-- A call from a client or a callback keeps the invariant and does not move the clock. -/
theorem settled_call {w : World α} (h : Settled w) (c : Call α) :
    Settled (w.call c) ∧ Later 0 w (w.call c) := by
  cases c with
  | addTimer time func threadid garbage =>
      exact ⟨settled_addTimer h time func threadid garbage, later_addTimer w _ _ _ _⟩
  | delTimer addr =>
      exact ⟨⟨h.clock, h.fresh, h.nodup, h.expire, h.conserved, h.filed, h.onTime⟩,
        rfl, List.prefix_rfl⟩

theorem settled_calls (cs : List (Call α)) {w : World α} (h : Settled w) :
    Settled (cs.foldl World.call w) ∧ Later 0 w (cs.foldl World.call w) := by
  induction cs generalizing w with
  | nil => exact ⟨h, Later.refl w⟩
  | cons c cs ih =>
      obtain ⟨h₁, h₂⟩ := settled_call h c
      obtain ⟨g₁, g₂⟩ := ih h₁
      exact ⟨g₁, h₂.trans g₂⟩

/-- Callbacks may add timers of any delay while a list is being dispatched. -/
theorem settled_dispatchList (calls : TimerNode α → List (Call α)) (current : List (TimerNode α))
    {w : World α} (h : Settled w) :
    Settled (World.dispatchList calls current w) ∧
      Later 0 w (World.dispatchList calls current w) := by
  induction current generalizing w with
  | nil => exact ⟨h, Later.refl w⟩
  | cons temp current ih =>
      rw [World.dispatchList]
      split
      · have hran : Settled { w with ran := w.ran ++ [temp] } :=
          ⟨h.clock, h.fresh, h.nodup, h.expire, h.conserved, h.filed, h.onTime⟩
        obtain ⟨h₁, h₂⟩ := settled_calls (calls temp) hran
        obtain ⟨g₁, g₂⟩ := ih h₁
        have hl : Later 0 w ((calls temp).foldl World.call { w with ran := w.ran ++ [temp] }) :=
          ⟨h₂.ticks, h₂.added⟩
        exact ⟨g₁, hl.trans g₂⟩
      · exact ih h

/-! ## `timer_execute` -/

/-- In the middle of a tick, what sits in the current `near` slot is due exactly now. -/
theorem due_now {w : World α} (h : Inv w.ticks (w.ticks + 1) w) {nd : TimerNode α}
    (hnd : nd ∈ w.T.near (nearIdx w.T.time)) : nd.expire = w.T.time := by
  obtain ⟨e, he, rfl, -, hj, ha, hb⟩ := h.filed (.inl (nearIdx w.T.time)) nd hnd
  rw [nearIdx_val, h.clock, wordSize_eq] at hj
  rw [h.expire e he, h.clock]
  exact congrArg (· % wordSize) (by omega)

/-- Once the current `near` slot is empty the tick is over. -/
theorem settled_of_empty {w : World α} (h : Inv w.ticks (w.ticks + 1) w)
    (hempty : w.T.near (nearIdx w.T.time) = []) : Settled w := by
  refine ⟨h.clock, h.fresh, h.nodup, h.expire, h.conserved, ?_, h.onTime⟩
  intro s nd hnd
  obtain ⟨e, he, rfl, hw⟩ := h.filed s nd hnd
  refine ⟨e, he, rfl, ?_⟩
  rcases s with j | ⟨i, j⟩
  · obtain ⟨hk, hj, ha, hb⟩ := hw
    refine ⟨hk, hj, ?_, hb⟩
    by_contra hlt
    -- due now, so it would sit in the slot that is empty
    have hjidx : j = nearIdx w.T.time := by
      refine Fin.ext ?_
      rw [nearIdx_val, h.clock, wordSize_eq, hj]
      omega
    subst hjidx
    exact absurd hnd (by simp [STimer.slot, hempty])
  · exact hw

/-- Between operations the current `near` slot is empty. -/
theorem Settled.empty {w : World α} (h : Settled w) : w.T.near (nearIdx w.T.time) = [] := by
  refine List.eq_nil_iff_forall_not_mem.mpr (fun nd hnd => ?_)
  obtain ⟨e, -, -, -, hj, ha, hb⟩ := h.filed (.inl (nearIdx w.T.time)) nd hnd
  rw [nearIdx_val, h.clock, wordSize_eq] at hj
  omega

/-- So `timer_execute` returns at once, which is also how its loop ends. -/
theorem timerExecute_settled {w : World α} (h : Settled w) (calls : TimerNode α → List (Call α))
    (fuel : Nat) : World.timerExecute calls (fuel + 1) w = some w := by
  rw [World.timerExecute]
  simp [h.empty]

/-- Handing the current `near` slot to `dispatch_list` ends the tick. -/
theorem settled_handOver {w : World α} (h : Inv w.ticks (w.ticks + 1) w) :
    Settled { w with
      T := w.T.setSlot (.inl (nearIdx w.T.time)) []
      handed := w.handed ++
        (w.T.near (nearIdx w.T.time)).map (fun node => (node, w.T.time)) } := by
  have hclear := STimer.slot_setSlot w.T (.inl (nearIdx w.T.time)) []
  have hpend := STimer.pending_clear w.T (.inl (nearIdx w.T.time))
  have htime := STimer.time_setSlot w.T (.inl (nearIdx w.T.time)) []
  generalize w.T.setSlot (.inl (nearIdx w.T.time)) [] = T' at hclear hpend htime ⊢
  refine settled_of_empty ⟨htime.trans h.clock, h.fresh, h.nodup, h.expire, ?_, ?_, ?_⟩ ?_
  · have hcons := h.conserved
    change T'.pending + ↑(List.map Prod.fst (w.handed ++ (w.T.near (nearIdx w.T.time)).map
      (fun node => (node, w.T.time)))) = ↑(w.added.map Added.node)
    rw [← hcons, ← hpend, List.map_append, List.map_map, ← Multiset.coe_add]
    have hid : (Prod.fst ∘ fun node : TimerNode α => (node, w.T.time)) = id := rfl
    rw [hid, List.map_id, add_assoc, add_comm (Multiset.ofList (w.T.slot _))]
    rfl
  · intro s nd hnd
    refine h.filed s nd ?_
    change nd ∈ T'.slot s at hnd
    rw [hclear, Function.update_apply] at hnd
    split at hnd
    · exact absurd hnd (by simp)
    · exact hnd
  · intro x hx
    rcases List.mem_append.mp hx with hx | hx
    · exact h.onTime x hx
    · obtain ⟨nd, hnd, rfl⟩ := List.mem_map.mp hx
      obtain ⟨e, he, heq, hk, -⟩ := h.filed (.inl (nearIdx w.T.time)) nd hnd
      exact ⟨(due_now h hnd).symm, e, he, heq, hk⟩
  · change T'.near (nearIdx T'.time) = []
    rw [htime]
    have := congrFun hclear (.inl (nearIdx w.T.time))
    rwa [Function.update_self] at this

/--
**`timer_execute` at the end of a tick.** It returns, hands over what is due, and
leaves the wheel settled, whatever the callbacks add: two rounds of its loop are
enough because nothing a callback adds can land in the slot being served.
-/
theorem timerExecute_spec {w : World α} (h : Inv w.ticks (w.ticks + 1) w)
    (calls : TimerNode α → List (Call α)) (fuel : Nat) :
    ∃ w', World.timerExecute calls (fuel + 2) w = some w' ∧ Settled w' ∧ Later 0 w w' := by
  rw [World.timerExecute]
  by_cases hempty : (w.T.near (nearIdx w.T.time)).isEmpty
  · have hw := settled_of_empty h (List.isEmpty_iff.mp hempty)
    exact ⟨w, by simp [hempty], hw, Later.refl w⟩
  · obtain ⟨h₁, h₂⟩ := settled_dispatchList calls (w.T.near (nearIdx w.T.time))
      (settled_handOver h)
    refine ⟨_, ?_, h₁, h₂.ticks, h₂.added⟩
    simp only [hempty, STimer.linkClear, STimer.time_setSlot]
    exact timerExecute_settled h₁ calls fuel

/-! ## `timer_shift` and `timer_update` -/

/--
Cascading the slot the clock enters: every other slot keeps waiting, and what was
in this one is due within its block and is filed again.
-/
theorem moveList_spec {T : STimer α} {n : Nat} {i : Fin 4} {j : Fin timeLevel}
    {added : List (Added α)} (hent : Enters n i j) (htime : T.time = n % wordSize)
    (hexp : ∀ e ∈ added, e.node.expire = e.deadline % wordSize) (hT : Filed n n n added T) :
    Filed n (n + 1) n added (T.moveList i j) ∧ (T.moveList i j).time = n % wordSize ∧
      (T.moveList i j).pending = T.pending := by
  have hrest : Filed n (n + 1) n added (T.setSlot (.inr (i, j)) []) := by
    intro s nd hnd
    rw [STimer.slot_setSlot, Function.update_apply] at hnd
    split at hnd
    · exact absurd hnd (by simp)
    · rename_i hne
      obtain ⟨e, he, heq, hw⟩ := hT s nd hnd
      refine ⟨e, he, heq, waits_of_not_entered hw (fun i' j' hs hent' => hne ?_)⟩
      obtain ⟨rfl, rfl⟩ := hent.unique hent'
      exact hs
  have hdue : ∀ nd ∈ T.slot (.inr (i, j)), ∃ e ∈ added, e.node = nd ∧
      e.Kept ∧ n ≤ e.deadline ∧ e.deadline - n < block i := by
    intro nd hnd
    obtain ⟨e, he, heq, hw⟩ := hT _ nd hnd
    exact ⟨e, he, heq, hent.due hw⟩
  obtain ⟨h₁, h₂, h₃⟩ := filed_refile hent hexp (T.slot (.inr (i, j))) _ hrest
    (by rw [STimer.time_setSlot, htime]) hdue
  exact ⟨h₁, h₂, h₃.trans (STimer.pending_clear T _)⟩

/-- After `timer_shift` the wheel is in the middle of the new tick. -/
theorem timerShift_inv {w : World α} (h : Settled w) :
    ∃ w', w.timerShift = some w' ∧ Inv w'.ticks (w'.ticks + 1) w' ∧ Later 1 w w' := by
  obtain ⟨T', hT', hcases⟩ := timerShift_spec w.T h.clock
  have hold : Filed (w.ticks + 1) (w.ticks + 1) (w.ticks + 1) w.added
      { w.T with time := (w.ticks + 1) % wordSize } := by
    intro s nd hnd
    obtain ⟨e, he, heq, hw⟩ := h.filed s nd (by cases s <;> exact hnd)
    exact ⟨e, he, heq, hw.mono (Nat.le_succ _)⟩
  have hpend := STimer.pending_time w.T ((w.ticks + 1) % wordSize)
  have hnew : Filed (w.ticks + 1) (w.ticks + 1 + 1) (w.ticks + 1) w.added T' ∧
      T'.time = (w.ticks + 1) % wordSize ∧ T'.pending = w.T.pending := by
    rcases hcases with ⟨i, j, hent, rfl⟩ | ⟨hnone, rfl⟩
    · rw [← hpend]
      exact moveList_spec hent rfl h.expire hold
    · refine ⟨fun s nd hnd => ?_, rfl, hpend⟩
      obtain ⟨e, he, heq, hw⟩ := hold s nd hnd
      exact ⟨e, he, heq, waits_of_not_entered hw (fun i j _ => hnone i j)⟩
  obtain ⟨h₁, h₂, h₃⟩ := hnew
  refine ⟨{ w with T := T', ticks := w.ticks + 1 }, by rw [World.timerShift, hT']; rfl,
    ⟨h₂, h.fresh, h.nodup, h.expire, ?_, h₁, h.onTime⟩, rfl, List.prefix_rfl⟩
  have hcons := h.conserved
  rw [← h₃] at hcons
  exact hcons

/-- How far an operation moves the clock. -/
def Op.ticks : Op α → Nat
  | .call _ => 0
  | .tick _ _ => 1

/-- **One operation of a run goes through and keeps the invariant.** -/
theorem settled_step (fuel : Nat) {w : World α} (h : Settled w) (op : Op α) :
    ∃ w', step (fuel + 2) w op = some w' ∧ Settled w' ∧ Later op.ticks w w' := by
  cases op with
  | call c => exact ⟨_, rfl, settled_call h c⟩
  | tick calls calls' =>
      obtain ⟨w₁, h₁, hw₁, hl₁⟩ := timerShift_inv h
      obtain ⟨w₂, h₂, hw₂, hl₂⟩ := timerExecute_spec hw₁ calls' fuel
      refine ⟨w₂, ?_, hw₂, hl₁.trans hl₂⟩
      simp only [step, World.timerUpdate, timerExecute_settled h, Option.bind_eq_bind,
        Option.bind_some, h₁, h₂]

/-- **Every run goes through and keeps the invariant.** -/
theorem settled_run (fuel : Nat) (ops : List (Op α)) {w : World α} (h : Settled w) :
    ∃ w', run (step (fuel + 2)) w ops = some w' ∧ Settled w' ∧
      Later (ops.map Op.ticks).sum w w' := by
  induction ops generalizing w with
  | nil => exact ⟨w, rfl, h, Later.refl w⟩
  | cons op ops ih =>
      obtain ⟨w₁, h₁, hw₁, hl₁⟩ := settled_step fuel h op
      obtain ⟨w₂, h₂, hw₂, hl₂⟩ := ih hw₁
      refine ⟨w₂, by rw [run, h₁]; exact h₂, hw₂, ?_⟩
      rw [List.map_cons, List.sum_cons]
      exact hl₁.trans hl₂

/-! ## No timer is handed over early or twice -/

section

variable {w : World α} (h : Settled w)
include h

/-- Linked and handed over together, no node occurs twice. -/
theorem Settled.nodup_all : (w.T.pending + w.handed.map Prod.fst).Nodup := by
  rw [h.conserved, Multiset.coe_nodup]
  exact List.Nodup.of_map TimerNode.addr (by rw [List.map_map]; exact h.nodup)

/-- A node is linked or handed over, never both. -/
theorem Settled.linked_iff {e : Added α} (he : e ∈ w.added) :
    e.node ∈ w.T.pending ↔ e.node ∉ w.handed.map Prod.fst := by
  have hdisj := Multiset.disjoint_of_nodup_add h.nodup_all
  have hmem : e.node ∈ w.T.pending + w.handed.map Prod.fst := by
    rw [h.conserved]; exact Multiset.mem_coe.mpr (List.mem_map_of_mem he)
  constructor
  · intro hp hh
    exact Multiset.disjoint_left.mp hdisj hp (Multiset.mem_coe.mpr hh)
  · intro hh
    rcases Multiset.mem_add.mp hmem with hp | hp
    · exact hp
    · exact absurd (Multiset.mem_coe.mp hp) hh

/-- What is linked in one slot is linked there once, and in no other. -/
theorem Settled.slot_unique (s : Slot) :
    (w.T.slot s).Nodup ∧ ∀ nd ∈ w.T.slot s, ∀ s', nd ∈ w.T.slot s' → s' = s := by
  have hpend : w.T.pending.Nodup := (Multiset.nodup_add.mp h.nodup_all).1
  rw [← STimer.pending_clear w.T s] at hpend
  obtain ⟨-, hs, hdisj⟩ := Multiset.nodup_add.mp hpend
  refine ⟨Multiset.coe_nodup.mp hs, fun nd hnd s' hnd' => ?_⟩
  by_contra hne
  refine Multiset.disjoint_left.mp hdisj (STimer.mem_pending.mpr ⟨s', ?_⟩) hnd
  rwa [STimer.slot_setSlot, Function.update_of_ne hne]

/-- **A node filed away from the dead slots is gone from the wheel once its tick has come.** -/
theorem Settled.handed_of_kept {e : Added α} (he : e ∈ w.added) (hk : e.Kept)
    (hdue : e.deadline ≤ w.ticks) : e.node ∉ w.T.pending := by
  intro hp
  obtain ⟨s, hs⟩ := STimer.mem_pending.mp hp
  obtain ⟨e', he', heq, hw⟩ := h.filed s e.node hs
  have hee : e' = e := List.inj_on_of_nodup_map h.nodup he' he (congrArg TimerNode.addr heq)
  subst hee
  rcases s with j | ⟨i, j⟩
  · obtain ⟨-, -, ha, -⟩ := hw
    omega
  · obtain ⟨-, hw⟩ := hw
    split at hw
    · exact hw hk
    · obtain ⟨-, hb, -⟩ := hw
      omega

/-- A node that was handed over had been filed away from the dead slots. -/
theorem Settled.kept_of_handed {e : Added α} (he : e ∈ w.added)
    (hh : e.node ∈ w.handed.map Prod.fst) : e.Kept := by
  obtain ⟨x, hx, heq⟩ := List.mem_map.mp hh
  obtain ⟨-, e', he', heq', hk⟩ := h.onTime x hx
  have hee : e' = e :=
    List.inj_on_of_nodup_map h.nodup he' he (congrArg TimerNode.addr (heq'.trans heq))
  exact hee ▸ hk

end

/--
**When a timer is served by its expiry.** In every run, a node whose tick has come
has left the wheel and been handed to `dispatch_list` if and only if the call of
`add_timer` that filed it avoided index 0 of the three lower levels.
-/
theorem handed_by_expiry_iff (fuel : Nat) (ops : List (Op α)) :
    ∃ w, run (step (fuel + 2)) World.init ops = some w ∧
      w.T.time = (ops.map Op.ticks).sum % wordSize ∧
      ∀ e ∈ w.added, e.node.expire = (e.now + e.time) % wordSize ∧
        (e.now + e.time ≤ (ops.map Op.ticks).sum →
          (e.node ∈ w.handed.map Prod.fst ∧ (∀ s, e.node ∉ w.T.slot s) ↔
            Kept (e.now % wordSize) e.time)) := by
  obtain ⟨w, hrun, hw, hl⟩ := settled_run fuel ops settled_init
  have hticks : w.ticks = (ops.map Op.ticks).sum := by rw [hl.ticks]; exact Nat.zero_add _
  refine ⟨w, hrun, by rw [hw.clock, hticks], fun e he => ⟨hw.expire e he, fun hdue => ?_⟩⟩
  constructor
  · intro hh
    exact hw.kept_of_handed he hh.1
  · intro hk
    have hout := hw.handed_of_kept he hk (by rw [hticks]; exact hdue)
    refine ⟨?_, fun s hs => hout (STimer.mem_pending.mpr ⟨s, hs⟩)⟩
    by_contra hh
    exact hout ((hw.linked_iff he).mpr hh)

/-- Ticks whose callbacks call nothing. -/
def quietTicks (n : Nat) : List (Op Unit) :=
  List.replicate n (.tick (fun _ => []) (fun _ => []))

theorem ticks_quietTicks (n : Nat) : ((quietTicks n).map Op.ticks).sum = n := by
  simp [quietTicks, Op.ticks]

/-- One tick, then `add_timer(16383, ..)`. -/
def lateAdd : List (Op Unit) :=
  quietTicks 1 ++ [.call (.addTimer ⟨16383, by decide⟩ () 0 0)]

/-- The node of `lateAdd` is filed at index 0 of level 0, and no number of ticks frees it. -/
theorem lateAdd_never_handed (n : Nat) :
    ∃ w, run (step 2) World.init (lateAdd ++ quietTicks n) = some w ∧
      w.ticks = 1 + n ∧ w.T.time = (1 + n) % wordSize ∧
      ⟨⟨0, 16384, (), 0⟩, 1, 16383⟩ ∈ w.added ∧
      (⟨0, 16384, (), 0⟩ : TimerNode Unit) ∉ w.handed.map Prod.fst := by
  obtain ⟨w₁, h₁, hw₁, -⟩ := settled_run 0 lateAdd settled_init
  have hstart : (run (step 2) World.init lateAdd).map (fun w => (w.ticks, w.added)) =
      some (1, [⟨⟨0, 16384, (), 0⟩, 1, 16383⟩]) := rfl
  rw [h₁, Option.map_some, Option.some.injEq, Prod.mk.injEq] at hstart
  obtain ⟨w₂, h₂, hw₂, hl⟩ := settled_run 0 (quietTicks n) hw₁
  have hticks : w₂.ticks = 1 + n := by rw [hl.ticks, hstart.1, ticks_quietTicks]
  have he : (⟨⟨0, 16384, (), 0⟩, 1, 16383⟩ : Added Unit) ∈ w₂.added :=
    hl.added.subset (by rw [hstart.2]; exact List.mem_singleton_self _)
  refine ⟨w₂, by rw [run_append, h₁]; exact h₂, hticks, by rw [hw₂.clock, hticks], he, ?_⟩
  intro hh
  exact absurd (hw₂.kept_of_handed he hh) (show ¬ Kept 1 16383 by decide)

/--
A timer that is lost: asked for at clock 1 with relative time 16383 it expires at
16384, and when the clock gets there it has not been handed over.
-/
theorem timer_lost :
    ∃ w, run (step 2) World.init (lateAdd ++ quietTicks 16383) = some w ∧
      ∃ e ∈ w.added, e.now + e.time = w.ticks ∧ e.node.expire = w.T.time ∧
        e.node ∉ w.handed.map Prod.fst := by
  obtain ⟨w, hrun, hticks, htime, he, hh⟩ := lateAdd_never_handed 16383
  exact ⟨w, hrun, _, he, hticks.symm, htime.symm, hh⟩

/--
**Never early, never twice, never in two places.** In every run, a node not yet
handed over is linked once, in exactly one slot; a node is handed over only while
the clock shows its expiry; and no node is handed over twice.
-/
theorem dispatched_once_on_time (fuel : Nat) (ops : List (Op α)) :
    ∃ w, run (step (fuel + 2)) World.init ops = some w ∧
      (∀ e ∈ w.added, e.node ∉ w.handed.map Prod.fst →
        ∃! s, e.node ∈ w.T.slot s ∧ (w.T.slot s).Nodup) ∧
      (∀ h ∈ w.handed, h.2 = h.1.expire) ∧
      (w.handed.map (fun h => h.1.addr)).Nodup := by
  obtain ⟨w, hrun, hw, -⟩ := settled_run fuel ops settled_init
  refine ⟨w, hrun, ?_, fun x hx => (hw.onTime x hx).1, ?_⟩
  · intro e he hh
    obtain ⟨s, hs⟩ := STimer.mem_pending.mp ((hw.linked_iff he).mpr hh)
    refine ⟨s, ⟨hs, (hw.slot_unique s).1⟩, fun s' hs' => ?_⟩
    exact (hw.slot_unique s).2 _ hs s' hs'.1
  · have hall : ((w.T.pending + w.handed.map Prod.fst).map TimerNode.addr).Nodup := by
      rw [hw.conserved, Multiset.map_coe, Multiset.coe_nodup, List.map_map]
      exact hw.nodup
    rw [Multiset.map_add, Multiset.map_coe, List.map_map] at hall
    exact Multiset.coe_nodup.mp (Multiset.nodup_add.mp hall).2.1

end CppTrack.TimeWheel
