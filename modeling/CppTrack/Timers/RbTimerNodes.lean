import CppTrack.Timers.NgxRbtreeRuns
import CppTrack.Timers.RbTimerProof

/-!
# The timers on the tree in memory

`rbt-timer.h` is written over `rbtree.c`. Here its functions run on the nodes and their links. They
do there what they do on a tree that is balanced in any other way: the same timers wait in the same
order, the same ones expire, and the same time is left to sleep. The handlers that `expire_timer`
calls do not touch the timers.
-/

namespace CppTrack.RbTimer

open Lib
open Ngx (NgxRbtree Shows Orders timerBefore)

/-! ## The functions -/

/-- `find_nearest_expire_timer` of the timers. -/
def findNearestNode (fuel : Nat) (T : NgxRbtree) (clock : BitVec 32) : Option Int :=
  if T.root = T.sentinel then some (-1)
  else (Ngx.ngxRbtreeMin T fuel T.root).map fun node =>
    let diff := (T.key node - clock).toInt
    if diff > 0 then diff else 0

/-- The loop of `expire_timer`, with the nodes whose handlers ran. -/
def expireNodes (fuel : Nat) (now : BitVec 32) :
    (turns : Nat) → NgxRbtree → Option (NgxRbtree × List Nat)
  | 0, _ => none
  | turns + 1, T =>
      if T.root = T.sentinel then some (T, [])
      else (Ngx.ngxRbtreeMin T fuel T.root).bind fun node =>
        if T.key node > now then some (T, [])
        else (Ngx.ngxRbtreeDelete fuel T node).bind fun T =>
          (expireNodes fuel now turns T).map fun r => (r.1, node :: r.2)

/-- The new node in `add_timer`, after `memset`. -/
def memsetNode (T : NgxRbtree) (addr : Nat) : NgxRbtree := (Ngx.wipe T addr).black addr

/-- `add_timer`, which gets its memory at `addr`. -/
def addTimerNode (fuel : Nat) (T : NgxRbtree) (addr : Nat) (msec clock : BitVec 32) :
    Option NgxRbtree :=
  let T := memsetNode T addr
  let T := T.setKey addr (msec + clock)
  Ngx.ngxRbtreeInsert Ngx.ngxRbtreeInsertTimerValue fuel T addr

def stepNodes (fuel : Nat) (T : NgxRbtree) : Op → Option NgxRbtree
  | .add addr msec clock => addTimerNode fuel T addr msec clock
  | .del e => Ngx.ngxRbtreeDelete fuel T e.addr
  | .expire clock => (expireNodes fuel clock fuel T).map Prod.fst

/-- The memory of a timer is not the sentinel. -/
def Apart (sentinel : Nat) : Op → Prop
  | .add addr _ _ => addr ≠ sentinel
  | _ => True

/-- The row of the timers. -/
def row (t : Tree) : List Ngx.Entry := t.entries.map fun e => ⟨e.addr, e.key⟩

variable {B : Balance} {T T' : NgxRbtree} {t t' : Tree} {e : TimerEntry} {es : List Ngx.Entry}
  {before : BitVec 32 → BitVec 32 → Bool} {s fuel turns : Nat} {now : BitVec 32} {op : Op}

/-! ## What the functions do to the row -/

/-- The new node is not in the tree yet. -/
theorem memsetNode_shows {z : Nat} (h : Shows before s T es) (hz : z ≠ s)
    (hfresh : ∀ e ∈ es, e.node ≠ z) : Shows before s (memsetNode T z) es := by
  have hnull : z ≠ T.sentinel := h.sentinel.symm ▸ hz
  have hblack := Ngx.recolours_black (Ngx.wipe T z) z
  have hsame : ∀ a, a ≠ z → Ngx.Same T (memsetNode T z) a := by
    intro a ha
    have hwipe : Ngx.Same T (Ngx.wipe T z) a := Ngx.wipe_same ha
    refine ⟨(hblack.parent a).trans hwipe.parent, ?_, fun s => ?_⟩
    · rw [memsetNode, hblack.colorOf, if_neg ha, hwipe.colorOf]
    · exact (hblack.child s a).trans (hwipe.child s)
  refine h.congr rfl rfl (hsame _ hnull.symm).colorOf (fun e he => hsame _ (hfresh e he)) ?_
  intro e he
  exact (hblack.key _).trans ((Ngx.wipe_keptBut hnull).key _ (hfresh e he))

/-- `expire_timer` takes from the front as long as the keys are not past the clock. -/
theorem expireNodes_shows (h : Shows before s T es) (hfuel : es.length < fuel)
    (hturns : es.length < turns) : ∃ T', expireNodes fuel now turns T =
        some (T', (es.takeWhile fun e => e.key ≤ now).map Ngx.Entry.node) ∧
      Shows before s T' (es.dropWhile fun e => e.key ≤ now) := by
  induction es generalizing T turns with
  | nil =>
      cases turns with
      | zero => exact absurd hturns (Nat.not_lt_zero _)
      | succ turns => exact ⟨T, if_pos (h.root_iff.mpr rfl), h⟩
  | cons e es ih =>
      cases turns with
      | zero => exact absurd hturns (Nat.not_lt_zero _)
      | succ turns =>
          have hroot : T.root ≠ T.sentinel := h.root_ne
          have hmin := h.first (Nat.le_of_lt (Ngx.depth_lt hfuel))
          unfold expireNodes
          rw [if_neg hroot, hmin, Option.bind_some, h.key_eq List.mem_cons_self]
          by_cases hkey : e.key ≤ now
          · -- the first node is deleted, and the loop goes on
            obtain ⟨T₁, hdel, hshows⟩ := h.delete (z := e.node) ⟨e, List.mem_cons_self, rfl⟩
              (Ngx.depth_lt hfuel)
            have hrest : (e :: es).filter (fun a => a.node ≠ e.node) = es := by
              have hnodup := h.nodup
              rw [List.map_cons, List.nodup_cons] at hnodup
              rw [List.filter_cons_of_neg (by simp), List.filter_eq_self]
              intro a ha
              have hne : a.node ≠ e.node := fun heq => hnodup.1 (heq ▸ List.mem_map_of_mem ha)
              exact decide_eq_true hne
            rw [hrest] at hshows
            obtain ⟨T₂, hloop, hshows⟩ :=
              ih hshows (Nat.lt_of_succ_lt hfuel) (Nat.lt_of_succ_lt_succ hturns)
            have hdel' : Ngx.ngxRbtreeDelete fuel T e.node = some T₁ := hdel
            have hnot : ¬ e.key > now := BitVec.not_lt.mpr hkey
            refine ⟨T₂, ?_, ?_⟩
            · rw [if_neg hnot, hdel', Option.bind_some, hloop, List.takeWhile_cons, if_pos]
              · rfl
              · exact decide_eq_true hkey
            · rw [List.dropWhile_cons, if_pos (decide_eq_true hkey)]
              exact hshows
          · -- the first node is not due, and none is looked at behind it
            have hlt : e.key > now := BitVec.not_le.mp hkey
            refine ⟨T, ?_, ?_⟩
            · rw [if_pos hlt, List.takeWhile_cons, if_neg (by simpa using hkey)]
              rfl
            · rw [List.dropWhile_cons, if_neg (by simpa using hkey)]
              exact h

theorem findNearestNode_eq (h : Shows before s T (row t)) (hfuel : (row t).length < fuel)
    (clock : BitVec 32) : findNearestNode fuel T clock = some (findNearestExpireTimer t clock) := by
  unfold findNearestNode findNearestExpireTimer
  rw [t.min_eq]
  cases hentries : t.entries with
  | nil =>
      have hnil : row t = [] := by rw [row, hentries, List.map_nil]
      exact if_pos (h.root_iff.mpr hnil)
  | cons e rest =>
      have hcons : row t = ⟨e.addr, e.key⟩ :: rest.map fun e => ⟨e.addr, e.key⟩ := by
        rw [row, hentries, List.map_cons]
      rw [hcons] at h hfuel
      rw [if_neg h.root_ne, h.first (Nat.le_of_lt (Ngx.depth_lt hfuel)),
        Option.map_some, h.key_eq List.mem_cons_self]
      rfl

/-! ## Where a timer comes to lie -/

/-- It comes to lie behind all that it does not come before. -/
theorem Tree.insertTimerValue_split
    (horders : Orders timerBefore (e.key :: t.entries.map TimerEntry.key))
    (hsorted : t.entries.Pairwise fun a b => timerBefore b.key a.key = false) :
    ∃ l₁ l₂, t.entries = l₁ ++ l₂ ∧ (t.insertTimerValue e).entries = l₁ ++ e :: l₂ ∧
      (∀ a ∈ l₁, timerBefore e.key a.key = false) ∧ ∀ b ∈ l₂, timerBefore e.key b.key = true := by
  induction t with
  | sentinel => exact ⟨[], [], rfl, rfl, by simp, by simp⟩
  | node left temp right ihl ihr =>
      obtain ⟨hleft, hrest, hacross⟩ := List.pairwise_append.mp hsorted
      obtain ⟨htemp, hright⟩ := List.pairwise_cons.mp hrest
      have hmem : ∀ a, a = e ∨ a ∈ left.entries ∨ a = temp ∨ a ∈ right.entries →
          a.key ∈ e.key :: (Tree.node left temp right).entries.map TimerEntry.key := by
        intro a ha
        rcases ha with rfl | ha
        · exact List.mem_cons_self
        · refine List.mem_cons_of_mem _ (List.mem_map_of_mem ?_)
          rw [Tree.entries, List.mem_append, List.mem_cons]
          exact ha
      have hsub : ∀ u : Tree, (∀ a ∈ u.entries, a ∈ left.entries ∨ a = temp ∨ a ∈ right.entries) →
          Orders timerBefore (e.key :: u.entries.map TimerEntry.key) := by
        intro u hu
        refine horders.subset ?_
        intro k hk
        rcases List.mem_cons.mp hk with rfl | hk
        · exact List.mem_cons_self
        · obtain ⟨a, ha, rfl⟩ := List.mem_map.mp hk
          exact hmem a (.inr (hu a ha))
      unfold Tree.insertTimerValue
      split
      case isTrue hlt =>
        obtain ⟨l₁, l₂, hsplit, hins, hbelow, habove⟩ := ihl (hsub left fun a ha => .inl ha) hleft
        have hbefore : timerBefore e.key temp.key = true := decide_eq_true hlt
        refine ⟨l₁, l₂ ++ temp :: right.entries, ?_, ?_, hbelow, ?_⟩
        · rw [Tree.entries, hsplit, List.append_assoc]
        · rw [Tree.entries, hins, List.append_assoc, List.cons_append]
        · intro b hb
          rcases List.mem_append.mp hb with hb | hb
          · exact habove b hb
          · rcases List.mem_cons.mp hb with rfl | hb
            · exact hbefore
            · exact horders.trans _ (hmem e (.inl rfl)) _ (hmem temp (.inr (.inr (.inl rfl)))) _
                (hmem b (.inr (.inr (.inr hb)))) hbefore (htemp b hb)
      case isFalse hge =>
        obtain ⟨l₁, l₂, hsplit, hins, hbelow, habove⟩ :=
          ihr (hsub right fun a ha => .inr (.inr ha)) hright
        have hnot : timerBefore e.key temp.key = false := decide_eq_false hge
        refine ⟨left.entries ++ temp :: l₁, l₂, ?_, ?_, ?_, habove⟩
        · rw [Tree.entries, hsplit, List.append_assoc, List.cons_append]
        · rw [Tree.entries, hins, List.append_assoc, List.cons_append]
        · intro a ha
          rcases List.mem_append.mp ha with ha | ha
          · -- what is behind one to the left of `temp` is behind `temp`
            refine Bool.eq_false_iff.mpr fun hlt => ?_
            have htrans := horders.trans _ (hmem e (.inl rfl)) _ (hmem a (.inr (.inl ha))) _
              (hmem temp (.inr (.inr (.inl rfl)))) hlt (hacross a ha temp List.mem_cons_self)
            rw [hnot] at htrans
            exact Bool.noConfusion htrans
          · rcases List.mem_cons.mp ha with rfl | ha
            · exact hnot
            · exact hbelow a ha

/-! ## Step by step -/

/-- An insertion. -/
theorem row_addTimer {base : BitVec 32} {addr : Nat} {msec clock : BitVec 32}
    (hwin : InWindow base t (msec + clock)) (hsorted : Ngx.Sorted timerBefore (row t)) :
    row (addTimer B t addr msec clock) =
        Ngx.enqueue timerBefore ⟨addr, msec + clock⟩ (row t) ∧
      Orders timerBefore ((msec + clock) :: (row t).map Ngx.Entry.key) := by
  have hkeys : (row t).map Ngx.Entry.key = t.entries.map TimerEntry.key := by
    rw [row, List.map_map]
    rfl
  have hwithin : ∀ k ∈ (msec + clock) :: t.entries.map TimerEntry.key, Within base k := by
    intro k hk
    rcases List.mem_cons.mp hk with rfl | hk
    · exact hwin.2
    · obtain ⟨a, ha, rfl⟩ := List.mem_map.mp hk
      exact hwin.1 a ha
  have horders := Ngx.orders_timerBefore hwithin
  obtain ⟨l₁, l₂, hsplit, hins, hbelow, habove⟩ := Tree.insertTimerValue_split
    (e := ⟨addr, msec + clock⟩) horders (List.pairwise_map.mp hsorted)
  have hrow : row t = (l₁.map fun e => ⟨e.addr, e.key⟩) ++ l₂.map fun e => ⟨e.addr, e.key⟩ := by
    rw [row, hsplit, List.map_append]
  refine ⟨?_, hkeys ▸ horders⟩
  have henqueue := (Orders.enqueue_sorted (e := ⟨addr, msec + clock⟩) (hkeys ▸ horders) hsorted hrow
    ?_ ?_).2
  · rw [henqueue, row, addTimer, (B.inserted_rotates _).entries_eq, hins, List.map_append,
      List.map_cons]
  · intro a ha
    obtain ⟨b, hb, rfl⟩ := List.mem_map.mp ha
    exact hbelow b hb
  · intro a ha
    obtain ⟨b, hb, rfl⟩ := List.mem_map.mp ha
    exact habove b hb

theorem row_delTimer (hnodup : ((row t).map Ngx.Entry.node).Nodup) (he : e ∈ t.entries) :
    row (delTimer B t e) = (row t).filter fun a => a.node ≠ e.addr := by
  have haddr : (t.entries.map TimerEntry.addr).Nodup := by
    rw [row, List.map_map] at hnodup
    exact hnodup
  rw [row, delTimer_entries, haddr.of_map.erase_eq_filter, row, List.filter_map]
  refine congrArg _ (List.filter_congr fun a ha => ?_)
  have hiff : a = e ↔ a.addr = e.addr :=
    ⟨fun heq => heq ▸ rfl, fun heq => List.inj_on_of_nodup_map haddr ha he heq⟩
  by_cases hae : a = e
  · simp [hae]
  · have hne : ¬ a.addr = e.addr := fun heq => hae (hiff.mpr heq)
    simp [bne, hae, hne]

theorem row_expire {left : Tree}
    (hleft : left.entries = t.entries.dropWhile (passed now)) :
    row left = (row t).dropWhile fun e => e.key ≤ now := by
  rw [row, hleft, row, List.dropWhile_map]
  rfl

/-- A step of the nodes is a step of the tree. -/
theorem stepNodes_shows (h : Shows timerBefore s T (row t)) (hstep : step B t op = some t')
    (hfits : Fits t op) (hapart : Apart s op) (hfuel : (row t).length < fuel) :
    ∃ T', stepNodes fuel T op = some T' ∧ Shows timerBefore s T' (row t') ∧
      (row t').length ≤ (row t).length + 1 := by
  cases op with
  | add addr msec clock =>
      obtain ⟨base, hwin⟩ := hfits
      obtain ⟨hfresh, heq⟩ := Option.ite_none_right_eq_some.mp hstep
      obtain rfl := Option.some.inj heq
      obtain ⟨hrow, horders⟩ := row_addTimer hwin h.sorted
      have husable : Ngx.Usable s (row t) (.insert addr (msec + clock)) := by
        refine ⟨hapart, fun a ha => ?_⟩
        obtain ⟨b, hb, rfl⟩ := List.mem_map.mp ha
        exact hfresh b hb
      have hnew := memsetNode_shows h husable.1 husable.2
      obtain ⟨T', hrun, hshows⟩ := hnew.insert husable horders (Ngx.depth_lt hfuel)
      rw [hrow]
      exact ⟨T', hrun, hshows, Nat.le_of_eq (Ngx.enqueue_length _ _)⟩
  | del e =>
      obtain ⟨he, heq⟩ := Option.ite_none_right_eq_some.mp hstep
      obtain rfl := Option.some.inj heq
      have husable : Ngx.Usable s (row t) (.delete e.addr) := ⟨_, List.mem_map_of_mem he, rfl⟩
      obtain ⟨T', hrun, hshows⟩ := h.delete husable (Ngx.depth_lt hfuel)
      rw [row_delTimer h.nodup he]
      exact ⟨T', hrun, hshows, Nat.le_succ_of_le (List.length_filter_le _ _)⟩
  | expire clock =>
      obtain ⟨left, heq, hleft⟩ := expireTimer_eq B t clock
      rw [step, heq] at hstep
      obtain rfl := Option.some.inj hstep
      obtain ⟨T', hrun, hshows⟩ := expireNodes_shows h hfuel hfuel
      rw [row_expire hleft]
      refine ⟨T', ?_, hshows, Nat.le_succ_of_le (List.dropWhile_sublist _).length_le⟩
      rw [stepNodes, hrun]
      rfl

theorem runNodes_shows (ops : List Op) (h : Shows timerBefore s T (row t))
    (hrun : run (step B) t ops = some t') (hfits : Meets (step B) Fits t ops)
    (hapart : ∀ op ∈ ops, Apart s op) (hfuel : (row t).length + ops.length < fuel) :
    ∃ T', run (stepNodes fuel) T ops = some T' ∧ Shows timerBefore s T' (row t') ∧
      (row t').length < fuel := by
  induction ops generalizing T t with
  | nil =>
      obtain rfl := Option.some.inj hrun
      exact ⟨T, rfl, h, hfuel⟩
  | cons op ops ih =>
      obtain ⟨t₁, hstep, hrest⟩ := Option.bind_eq_some_iff.mp hrun
      rw [List.length_cons] at hfuel
      have hroom : (row t).length < fuel := by omega
      obtain ⟨T₁, hstep', hshows, hlength⟩ :=
        stepNodes_shows h hstep hfits.1 (hapart op List.mem_cons_self) hroom
      obtain ⟨T₂, hrun', hend⟩ := ih hshows hrest (hfits.2 t₁ hstep)
        (fun op' hop => hapart op' (List.mem_cons_of_mem op hop)) (by omega)
      refine ⟨T₂, ?_, hend⟩
      rw [run, hstep', Option.bind_some, hrun']

/-- **The timers on the tree in memory** wait, expire and say how long to sleep as they do on a tree
that is balanced in any way. -/
theorem timers_run (B : Balance) (T : NgxRbtree) (s fuel : Nat) (ops : List Op) (t : Tree)
    (hrun : run (step B) .sentinel ops = some t) (hfits : Meets (step B) Fits .sentinel ops)
    (hapart : ∀ op ∈ ops, Apart s op) (hfuel : ops.length < fuel) :
    ∃ T', run (stepNodes fuel) (Ngx.ngxRbtreeInit T s) ops = some T' ∧
      Shows timerBefore s T' (row t) ∧ ∀ now,
        findNearestNode fuel T' now = some (findNearestExpireTimer t now) ∧
        ∃ T'' left ran, expireNodes fuel now fuel T' = some (T'', ran.map TimerEntry.addr) ∧
          expireTimer B t now = some (left, ran) ∧ Shows timerBefore s T'' (row left) := by
  obtain ⟨T', hrun', hshows, hlength⟩ := runNodes_shows (t := .sentinel) ops
    (Ngx.ngxRbtreeInit_shows T s) hrun hfits hapart (by simpa [row, Tree.entries] using hfuel)
  refine ⟨T', hrun', hshows, fun now => ⟨findNearestNode_eq hshows hlength now, ?_⟩⟩
  obtain ⟨left, heq, hleft⟩ := expireTimer_eq B t now
  obtain ⟨T'', hloop, hend⟩ : ∃ T'', expireNodes fuel now fuel T' = some (T'', _) ∧ _ :=
    expireNodes_shows hshows hlength hlength
  refine ⟨T'', left, _, ?_, heq, row_expire hleft ▸ hend⟩
  rw [hloop, row, List.takeWhile_map, List.map_map]
  rfl

theorem timers_run_acrossWrap :
    ∃ T', run (stepNodes 3) (Ngx.ngxRbtreeInit ⟨0, 0, fun _ => ⟨0, 0, 0, 0, 0⟩⟩ 7) acrossWrap =
        some T' ∧
      Shows timerBefore 7 T' (row acrossWrapTree) ∧ ∀ now,
        findNearestNode 3 T' now = some (findNearestExpireTimer acrossWrapTree now) ∧
        ∃ T'' left ran, expireNodes 3 now 3 T' = some (T'', ran.map TimerEntry.addr) ∧
          expireTimer .none acrossWrapTree now = some (left, ran) ∧
          Shows timerBefore 7 T'' (row left) := by
  have hapart : ∀ op ∈ acrossWrap, Apart 7 op := by
    intro op hop
    rcases List.mem_cons.mp hop with rfl | hop
    · exact (by decide : (1 : Nat) ≠ 7)
    · obtain rfl := List.mem_singleton.mp hop
      exact (by decide : (2 : Nat) ≠ 7)
  exact timers_run .none _ 7 3 acrossWrap acrossWrapTree acrossWrap_run acrossWrap_fits hapart
    (by decide)

end CppTrack.RbTimer
