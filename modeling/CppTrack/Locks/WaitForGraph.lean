import CppTrack.Lib.Threads
import CppTrack.Locks.GraphRows
import CppTrack.Locks.LockTableBounds

/-!
# The graph says who waits for whom

Threads lock and unlock through the hooks, one atomic step at a time, and the mutexes exclude
each other as they should. The entry of a mutex has the thread that last went through
`lock_after`, and a thread that waits has one edge, to the thread that was in the entry when
it came.

So the edge is right only while the mutex stays with that thread until the waiting one gets
it: the edges of the others that wait are not moved on. `Careful` is what a step must not do
for the graph to stay right, and `faithful_of_careful` is that nothing else is needed.
-/

namespace CppTrack.Locks

open Lib

/-- Between which of its steps a thread is, with the mutex it is about. -/
inductive Phase
  | idle
  | announced (lockaddr : Nat)
  | got (lockaddr : Nat)
  | released (lockaddr : Nat)
  deriving DecidableEq

/-- The task graph, and the holder of each mutex. -/
structure Hooked where
  tg : TaskGraph
  holder : Nat → Option Nat

/-- The steps of `pthread_mutex_lock` and of `pthread_mutex_unlock`. -/
inductive HookOp
  | before (lockaddr : Nat)
  | acquire
  | after
  | release (lockaddr : Nat)
  | unlocked

/-- A step of thread `t`. -/
def hookMove (threads : List Nat) (t : Nat) (s : Hooked) (phase : Phase) (op : HookOp) :
    Option (Hooked × Phase) :=
  match phase, op with
  | .idle, .before m =>
      if t ∈ threads ∧ m ≠ 0 then
        (lockBefore s.tg t m).map fun tg => ({ s with tg := tg }, .announced m)
      else none
  | .announced m, .acquire =>
      if s.holder m = none then
        some ({ s with holder := Function.update s.holder m (some t) }, .got m)
      else none
  | .got m, .after => (lockAfter s.tg t m).map fun tg => ({ s with tg := tg }, .idle)
  | .idle, .release m =>
      if s.holder m = some t then
        some ({ s with holder := Function.update s.holder m none }, .released m)
      else none
  | .released m, .unlocked => (unlockAfter s.tg m).map fun tg => ({ s with tg := tg }, .idle)
  | _, _ => none

def hookStep (threads : List Nat) (c : Threads Hooked Phase) (i : Nat × HookOp) :
    Option (Threads Hooked Phase) :=
  c.step (hookMove threads) i

def startHooked : Threads Hooked Phase := ⟨⟨emptyTaskGraph, fun _ => none⟩, fun _ => .idle⟩

/-- The program allows the step. What the hooks do with it is another matter. -/
def Possible (threads : List Nat) (c : Threads Hooked Phase) (i : Nat × HookOp) : Prop :=
  match c.pc i.1, i.2 with
  | .idle, .before m => i.1 ∈ threads ∧ m ≠ 0
  | .announced m, .acquire => c.shared.holder m = none
  | .got _, .after => True
  | .idle, .release m => c.shared.holder m = some i.1
  | .released _, .unlocked => True
  | _, _ => False

/-- Every thread is outside the hooks, or blocked in the real lock. -/
def Settled (threads : List Nat) (c : Threads Hooked Phase) : Prop :=
  ∀ t ∈ threads,
    match c.pc t with
    | .idle => True
    | .announced m => c.shared.holder m ≠ none
    | _ => False

def HasEdge (c : Threads Hooked Phase) (a b : Nat) : Prop := task b ∈ row c.shared.tg.graph a

/-- Thread `a` is blocked in the lock of a mutex that `b` holds. -/
def WaitsFor (c : Threads Hooked Phase) (a b : Nat) : Prop :=
  match c.pc a with
  | .announced m => c.shared.holder m = some b
  | _ => False

/-- The edges are those between a thread and one it waits for. -/
def Faithful (threads : List Nat) (c : Threads Hooked Phase) : Prop :=
  Settled threads c → ∀ a b, HasEdge c a b ↔ WaitsFor c a b

/-- A step that can be made goes through and leaves the graph right. -/
def StaysFaithful (threads : List Nat) (c : Threads Hooked Phase) (i : Nat × HookOp) : Prop :=
  Possible threads c i → ∃ c', hookStep threads c i = some c' ∧ Faithful threads c'

/-- What a step must not do: lock what the thread itself holds, come before the holder is
entered, get a mutex that others wait for too, enter more than fits, or take out the entry of
somebody else. -/
def Careful (threads : List Nat) (c : Threads Hooked Phase) (i : Nat × HookOp) : Prop :=
  match c.pc i.1, i.2 with
  | .idle, .before m => c.shared.holder m ≠ some i.1 ∧ ∀ u ∈ threads, c.pc u ≠ .got m
  | .announced m, .acquire => ∀ u ∈ threads, u ≠ i.1 → c.pc u ≠ .announced m
  | .got m, .after =>
      searchLock c.shared.tg m = some none → c.shared.tg.lockidx < maxVertices
  | .released m, .unlocked =>
      match searchLock c.shared.tg m with
      | some (some idx) =>
          (c.shared.tg.locklist idx).degress ≠ 0 ∨ c.shared.holder m = none
      | _ => False
  | _, _ => True

/-- The thread is on its way to the mutex. -/
def Phase.wants (p : Phase) (m : Nat) : Prop := p = .announced m ∨ p = .got m

/-- The entries of the table. -/
structure Entries (threads : List Nat) (tg : TaskGraph) : Prop where
  room : tg.lockidx ≤ maxVertices
  bound : ∀ i, (tg.locklist i).lockId ≠ 0 → i < tg.lockidx
  empty : ∀ i, (tg.locklist i).lockId = 0 → (tg.locklist i).degress = 0
  unique : ∀ i j, (tg.locklist i).lockId ≠ 0 →
    (tg.locklist i).lockId = (tg.locklist j).lockId → i = j
  ids : ∀ i, (tg.locklist i).lockId ≠ 0 → (tg.locklist i).id ∈ threads

/-- The threads and what they hold. -/
structure Turns (threads : List Nat) (holder : Nat → Option Nat) (pc : Nat → Phase) : Prop where
  members : ∀ t, pc t ≠ .idle → t ∈ threads
  holders : ∀ m t, holder m = some t → t ∈ threads ∧ m ≠ 0
  nonzero : ∀ t m, (pc t).wants m ∨ pc t = .released m → m ≠ 0
  got : ∀ t m, pc t = .got m → holder m = some t
  alone : ∀ t u m, pc t = .got m → (pc u).wants m → u = t
  own : ∀ t m, pc t = .announced m → holder m ≠ some t

section

variable {threads : List Nat} {c : Threads Hooked Phase} {tg : TaskGraph}
  {holder : Nat → Option Nat} {pc : Nat → Phase} {t u m i : Nat}

@[simp] theorem wants_announced : (Phase.announced u).wants m ↔ u = m := by simp [Phase.wants]

@[simp] theorem wants_got : (Phase.got u).wants m ↔ u = m := by simp [Phase.wants]

@[simp] theorem wants_idle : ¬ Phase.idle.wants m := by simp [Phase.wants]

@[simp] theorem wants_released : ¬ (Phase.released u).wants m := by simp [Phase.wants]

/-! ## Who holds what -/

theorem Turns.before (h : Turns threads holder pc) (ht : t ∈ threads) (hm : m ≠ 0)
    (hown : holder m ≠ some t) (hnew : ∀ u ∈ threads, pc u ≠ .got m) :
    Turns threads holder (Function.update pc t (.announced m)) where
  members u hu := by
    by_cases hut : u = t
    · exact hut ▸ ht
    · exact h.members u (by rwa [Function.update_of_ne hut] at hu)
  holders := h.holders
  nonzero u k hk := by
    by_cases hut : u = t
    · rw [hut, Function.update_self] at hk
      simp at hk
      exact hk ▸ hm
    · rw [Function.update_of_ne hut] at hk
      exact h.nonzero u k hk
  got u k hu := by
    by_cases hut : u = t
    · rw [hut, Function.update_self] at hu
      exact absurd hu nofun
    · rw [Function.update_of_ne hut] at hu
      exact h.got u k hu
  alone u v k hu hv := by
    by_cases hut : u = t
    · rw [hut, Function.update_self] at hu
      exact absurd hu nofun
    · rw [Function.update_of_ne hut] at hu
      by_cases hvt : v = t
      · -- the mutex is one nobody has just got
        rw [hvt, Function.update_self, wants_announced] at hv
        exact absurd (hv ▸ hu) (hnew u (h.members u (by rw [hu]; nofun)))
      · rw [Function.update_of_ne hvt] at hv
        exact h.alone u v k hu hv
  own u k hu := by
    by_cases hut : u = t
    · rw [hut, Function.update_self] at hu
      exact hut ▸ Phase.announced.inj hu ▸ hown
    · rw [Function.update_of_ne hut] at hu
      exact h.own u k hu

theorem Turns.acquire (h : Turns threads holder pc) (hpc : pc t = .announced m)
    (hfree : holder m = none) (honly : ∀ u ∈ threads, u ≠ t → pc u ≠ .announced m) :
    Turns threads (Function.update holder m (some t)) (Function.update pc t (.got m)) where
  members u hu := by
    by_cases hut : u = t
    · exact h.members u (by rw [hut, hpc]; nofun)
    · exact h.members u (by rwa [Function.update_of_ne hut] at hu)
  holders k u hk := by
    by_cases hkm : k = m
    · rw [hkm, Function.update_self] at hk
      rw [← Option.some.inj hk, hkm]
      exact ⟨h.members t (by rw [hpc]; nofun), h.nonzero t m (.inl (by simp [hpc]))⟩
    · rw [Function.update_of_ne hkm] at hk
      exact h.holders k u hk
  nonzero u k hk := by
    by_cases hut : u = t
    · rw [hut, Function.update_self] at hk
      refine h.nonzero t k (.inl ?_)
      simpa [hpc] using hk
    · rw [Function.update_of_ne hut] at hk
      exact h.nonzero u k hk
  got u k hu := by
    by_cases hut : u = t
    · rw [hut, Function.update_self] at hu
      rw [← Phase.got.inj hu, hut, Function.update_self]
    · rw [Function.update_of_ne hut] at hu
      have hkm : k ≠ m := fun hkm => by
        have := h.got u k hu
        rw [hkm, hfree] at this
        exact absurd this nofun
      rw [Function.update_of_ne hkm]
      exact h.got u k hu
  alone u v k hu hv := by
    by_cases hvt : v = t
    · rw [hvt, Function.update_self, wants_got] at hv
      by_cases hut : u = t
      · rw [hvt, hut]
      · rw [Function.update_of_ne hut, ← hv] at hu
        rw [h.got u m hu] at hfree
        exact absurd hfree nofun
    · rw [Function.update_of_ne hvt] at hv
      by_cases hut : u = t
      · rw [hut, Function.update_self] at hu
        rw [← Phase.got.inj hu] at hv
        rcases hv with hv | hv
        · exact absurd hv (honly v (h.members v (by rw [hv]; nofun)) hvt)
        · rw [h.got v m hv] at hfree
          exact absurd hfree nofun
      · rw [Function.update_of_ne hut] at hu
        exact h.alone u v k hu hv
  own u k hu := by
    by_cases hut : u = t
    · rw [hut, Function.update_self] at hu
      exact absurd hu nofun
    · rw [Function.update_of_ne hut] at hu
      by_cases hkm : k = m
      · rw [hkm, Function.update_self]
        exact fun heq => hut (Option.some.inj heq).symm
      · rw [Function.update_of_ne hkm]
        exact h.own u k hu

/-- A thread comes back from a hook. -/
theorem Turns.idle (h : Turns threads holder pc) :
    Turns threads holder (Function.update pc t .idle) := by
  have hsame : ∀ {u : Nat} {p : Phase}, Function.update pc t .idle u = p → p ≠ .idle →
      pc u = p := by
    intro u p hu hp
    by_cases hut : u = t
    · rw [hut, Function.update_self] at hu
      exact absurd hu.symm hp
    · rwa [Function.update_of_ne hut] at hu
  have hwants : ∀ {u k : Nat}, (Function.update pc t .idle u).wants k → (pc u).wants k :=
    fun hu => hu.imp (fun hu => hsame hu nofun) (fun hu => hsame hu nofun)
  exact {
    members := fun u hu => h.members u fun hidle => hu (by
      by_cases hut : u = t
      · rw [hut, Function.update_self]
      · rw [Function.update_of_ne hut, hidle])
    holders := h.holders
    nonzero := fun u k hk => h.nonzero u k (hk.imp hwants fun hu => hsame hu nofun)
    got := fun u k hu => h.got u k (hsame hu nofun)
    alone := fun u v k hu hv => h.alone u v k (hsame hu nofun) (hwants hv)
    own := fun u k hu => h.own u k (hsame hu nofun) }

theorem Turns.release (h : Turns threads holder pc) (hpc : pc t = .idle)
    (hheld : holder m = some t) :
    Turns threads (Function.update holder m none) (Function.update pc t (.released m)) := by
  have hsame : ∀ {u : Nat} {p : Phase}, Function.update pc t (.released m) u = p →
      p ≠ .released m → pc u = p := by
    intro u p hu hp
    by_cases hut : u = t
    · rw [hut, Function.update_self] at hu
      exact absurd hu.symm hp
    · rwa [Function.update_of_ne hut] at hu
  have hwants : ∀ {u k : Nat}, (Function.update pc t (.released m) u).wants k → (pc u).wants k :=
    fun hu => hu.imp (fun hu => hsame hu nofun) (fun hu => hsame hu nofun)
  have hholder : ∀ {k u : Nat}, Function.update holder m none k = some u → holder k = some u := by
    intro k u hk
    by_cases hkm : k = m
    · rw [hkm, Function.update_self] at hk
      exact absurd hk nofun
    · rwa [Function.update_of_ne hkm] at hk
  refine ⟨fun u hu => ?_, fun k u hk => h.holders k u (hholder hk), fun u k hk => ?_,
    fun u k hu => ?_, fun u v k hu hv => h.alone u v k (hsame hu nofun) (hwants hv),
    fun u k hu hk => h.own u k (hsame hu nofun) (hholder hk)⟩
  · by_cases hut : u = t
    · exact hut ▸ (h.holders m t hheld).1
    · exact h.members u (by rwa [Function.update_of_ne hut] at hu)
  · rcases hk with hk | hk
    · exact h.nonzero u k (.inl (hwants hk))
    · by_cases hkm : k = m
      · exact hkm ▸ (h.holders m t hheld).2
      · exact h.nonzero u k (.inr (hsame hk fun heq => hkm (Phase.released.inj heq)))
  · have hu := hsame hu nofun
    have hkm : k ≠ m := fun hkm => by
      have hholds := h.got u k hu
      rw [hkm, hheld] at hholds
      rw [← Option.some.inj hholds, hpc] at hu
      exact absurd hu nofun
    rw [Function.update_of_ne hkm]
    exact h.got u k hu

/-! ## What the hooks do -/

theorem setLock_locklist (tg : TaskGraph) (i : Nat) (l : Lock) (j : Nat) :
    (tg.setLock i l).locklist j = if j = i then l else tg.locklist j :=
  Function.update_apply ..

/-- One entry is written, and stays that of the same mutex. -/
theorem Entries.write {l : Lock} {g : Graph} (h : Entries threads tg)
    (hi : (tg.locklist i).lockId ≠ 0) (hlock : l.lockId = (tg.locklist i).lockId)
    (hid : l.id ∈ threads) : Entries threads { tg.setLock i l with graph := g } := by
  have hlocks : ∀ j, ((tg.setLock i l).locklist j).lockId = (tg.locklist j).lockId := by
    intro j
    rw [setLock_locklist]
    split
    · rename_i hj
      rw [hj, hlock]
    · rfl
  refine ⟨h.room, fun j hj => h.bound j (hlocks j ▸ hj), fun j hj => ?_, fun j k hj hjk => ?_,
    fun j hj => ?_⟩
  · have hj : (tg.locklist j).lockId = 0 := hlocks j ▸ hj
    have hji : j ≠ i := fun hji => hi (hji ▸ hj)
    show ((tg.setLock i l).locklist j).degress = 0
    rw [setLock_locklist, if_neg hji]
    exact h.empty j hj
  · exact h.unique j k (hlocks j ▸ hj) (by rw [← hlocks j, ← hlocks k]; exact hjk)
  · show ((tg.setLock i l).locklist j).id ∈ threads
    rw [setLock_locklist]
    split
    · exact hid
    · exact h.ids j (hlocks j ▸ hj)

/-- An entry is taken out. -/
theorem Entries.clear {tg' : TaskGraph} {l : Lock} (h : Entries threads tg)
    (hidx : tg'.lockidx = tg.lockidx)
    (hat : tg'.locklist i = { l with id := 0, lockId := 0 }) (hzero : l.degress = 0)
    (hnot : ∀ j, j ≠ i → tg'.locklist j = tg.locklist j) : Entries threads tg' := by
  have hold : ∀ j, (tg'.locklist j).lockId ≠ 0 → j ≠ i ∧ tg'.locklist j = tg.locklist j := by
    intro j hj
    have hji : j ≠ i := fun hji => hj (by rw [hji, hat])
    exact ⟨hji, hnot j hji⟩
  refine ⟨hidx ▸ h.room, fun j hj => ?_, fun j hj => ?_, fun j k hj hjk => ?_, fun j hj => ?_⟩
  · rw [hidx]
    exact h.bound j ((hold j hj).2 ▸ hj)
  · by_cases hji : j = i
    · rw [hji, hat]
      exact hzero
    · rw [hnot j hji] at hj ⊢
      exact h.empty j hj
  · have hk : (tg'.locklist k).lockId ≠ 0 := hjk ▸ hj
    have hj' := (hold j hj).2
    rw [hj'] at hj hjk
    rw [(hold k hk).2] at hjk
    exact h.unique j k hj hjk
  · have hj' := (hold j hj).2
    rw [hj'] at hj ⊢
    exact h.ids j hj

theorem searchLock_spec (h : searchLock tg m = some (some i)) : (tg.locklist i).lockId = m := by
  exact of_decide_eq_true (scan_spec h)

theorem Entries.search (h : Entries threads tg) (hm : m ≠ 0) (hi : (tg.locklist i).lockId = m) :
    searchLock tg m = some (some i) :=
  searchLock_some h.room (h.bound i (hi ▸ hm)) hi
    fun j _ hj => (h.unique i j (hi ▸ hm) (hi.trans hj.symm)).symm

/-- With an entry for the mutex `lock_before` counts the thread and draws its edge. -/
theorem lockBefore_present (hmax : threads.length ≤ maxVertices) (h : Entries threads tg)
    (hr : Rows threads tg.graph) (ht : t ∈ threads) (hm : m ≠ 0)
    (hi : (tg.locklist i).lockId = m) (hcalm : row tg.graph t = []) :
    ∃ tg', lockBefore tg t m = some tg' ∧ Entries threads tg' ∧ Rows threads tg'.graph ∧
      (∀ j, tg'.locklist j = if j = i then
        { tg.locklist i with degress := (tg.locklist i).degress + 1 } else tg.locklist j) ∧
      task t ∈ tg'.graph.list.map Vertex.s ∧
      (∀ y ∈ tg.graph.list.map Vertex.s, y ∈ tg'.graph.list.map Vertex.s) ∧
      ∀ x, row tg'.graph x =
        if x = t then if (tg.locklist i).id = t then [] else [task (tg.locklist i).id]
        else row tg.graph x := by
  have hne : (tg.locklist i).lockId ≠ 0 := hi ▸ hm
  have hbound := h.bound i hne
  have hroom := h.room
  obtain ⟨g₁, g₂, g, h₁, h₂, hadd, hrows, hmem, hsub, hrow⟩ := before_row hmax hr ht (h.ids i hne)
  let tg' : TaskGraph := { tg.setLock i { tg.locklist i with
    degress := (tg.locklist i).degress + 1 } with graph := g }
  refine ⟨tg', ?_, h.write hne rfl (h.ids i hne), hrows, setLock_locklist tg i _, hmem,
    hsub, fun x => ?_⟩
  · have hturn : beforeEntry t m tg i = some tg' := by
      unfold beforeEntry
      rw [if_pos (by omega)]
      simp only [if_pos hi, h₁, h₂, Option.bind_eq_bind, Option.bind_some]
      split
      · rename_i hverify
        rw [if_pos hverify] at hadd
        rw [Option.some.inj hadd]
      · rename_i hverify
        rw [if_neg hverify] at hadd
        rw [hadd]
        rfl
    obtain ⟨s, hfold, hs⟩ := foldlM_inv (f := beforeEntry t m)
      (fun k s => s = if k ≤ i then tg else tg') (List.range tg.lockidx) (fun k b s hb hs => by
        obtain ⟨hk, rfl⟩ := List.getElem?_eq_some_iff.mp hb
        rw [List.length_range] at hk
        rw [List.getElem_range]
        by_cases hki : k = i
        · rw [hki, if_pos (Nat.le_refl i)] at hs
          exact ⟨tg', by rw [hs, hki]; exact hturn, (if_neg (by omega)).symm⟩
        · -- the other entries are not those of the mutex
          refine ⟨s, ?_, by rw [hs]; split <;> split <;> first | rfl | omega⟩
          have hlock : (s.locklist k).lockId ≠ m := by
            intro heq
            refine hki (h.unique i k hne ?_).symm
            rw [hs] at heq
            split at heq
            · exact hi.trans heq.symm
            · rw [← hi] at heq
              have : tg'.locklist k = tg.locklist k := by
                exact (setLock_locklist ..).trans (if_neg hki)
              rw [this] at heq
              exact heq.symm
          unfold beforeEntry
          rw [if_pos (by omega)]
          exact if_neg hlock) (s := tg) (if_pos (Nat.zero_le i)).symm
    rw [List.length_range, if_neg (by omega)] at hs
    rw [hs] at hfold
    exact hfold
  · rw [show row tg'.graph x = _ from hrow x, hcalm]
    by_cases hx : x = t
    · rw [if_pos hx, hx, hcalm]
      by_cases hid : (tg.locklist i).id = t
      · rw [if_pos hid, if_neg fun hall => hall.2.1 hid.symm]
      · rw [if_neg hid, if_pos ⟨rfl, fun heq => hid heq.symm, List.not_mem_nil⟩]
        rfl
    · rw [if_neg hx, if_neg fun hall => hx hall.1]

theorem Entries.enter {tg' : TaskGraph} {e : Nat} (h : Entries threads tg) (hm : m ≠ 0)
    (ht : t ∈ threads) (habsent : ∀ i, (tg.locklist i).lockId ≠ m)
    (hroom : tg.lockidx < maxVertices) (he : e ≤ tg.lockidx)
    (hidx : tg'.lockidx = tg.lockidx + 1)
    (hlist : ∀ j, tg'.locklist j = if j = e then ⟨t, m, 0⟩ else tg.locklist j) :
    Entries threads tg' := by
  have hself : tg'.locklist e = ⟨t, m, 0⟩ := (hlist e).trans (if_pos rfl)
  have hother : ∀ j, j ≠ e → tg'.locklist j = tg.locklist j := fun j hj =>
    (hlist j).trans (if_neg hj)
  refine ⟨by omega, fun j hj => ?_, fun j hj => ?_, fun j k hj hjk => ?_, fun j hj => ?_⟩
  · by_cases hje : j = e
    · omega
    · have := h.bound j (hother j hje ▸ hj)
      omega
  · by_cases hje : j = e
    · rw [hje, hself] at hj
      exact absurd hj hm
    · rw [hother j hje] at hj ⊢
      exact h.empty j hj
  · by_cases hje : j = e
    · by_cases hke : k = e
      · rw [hje, hke]
      · rw [hje, hself, hother k hke] at hjk
        exact absurd hjk.symm (habsent k)
    · rw [hother j hje] at hj hjk
      by_cases hke : k = e
      · rw [hke, hself] at hjk
        exact absurd hjk (habsent j)
      · rw [hother k hke] at hjk
        exact h.unique j k hj hjk
  · by_cases hje : j = e
    · rw [hje, hself]
      exact ht
    · rw [hother j hje] at hj ⊢
      exact h.ids j hj

/-- Without an entry `lock_after` makes one. -/
theorem lockAfter_absent (h : Entries threads tg) (hm : m ≠ 0) (ht : t ∈ threads)
    (habsent : ∀ i, (tg.locklist i).lockId ≠ m)
    (hfits : searchLock tg m = some none → tg.lockidx < maxVertices) :
    ∃ e tg', lockAfter tg t m = some tg' ∧ (tg.locklist e).lockId = 0 ∧ Entries threads tg' ∧
      tg'.graph = tg.graph ∧
      ∀ j, tg'.locklist j = if j = e then ⟨t, m, 0⟩ else tg.locklist j := by
  have hsearch : searchLock tg m = some none := searchLock_none h.room fun j _ => habsent j
  have hroom := hfits hsearch
  obtain ⟨e, he, hle, hempty⟩ := searchEmptyLock_eq h.room h.bound
  have hentry : (⟨t, m, (tg.locklist e).degress⟩ : Lock) = ⟨t, m, 0⟩ := by
    rw [h.empty e hempty]
  have hlist := setLock_locklist tg e ⟨t, m, 0⟩
  refine ⟨e, { tg.setLock e ⟨t, m, 0⟩ with lockidx := tg.lockidx + 1 }, ?_, hempty,
    h.enter hm ht habsent hroom hle rfl hlist, rfl, hlist⟩
  unfold lockAfter
  simp only [hsearch, he, Option.bind_eq_bind, Option.bind_some, hentry]
  exact if_pos (by omega)

/-- With one it puts the thread in and takes its edge away. -/
theorem lockAfter_present (h : Entries threads tg) (hr : Rows threads tg.graph) (ht : t ∈ threads)
    (hm : m ≠ 0) (hi : (tg.locklist i).lockId = m) (hmem : task t ∈ tg.graph.list.map Vertex.s)
    (hrow : row tg.graph t =
      if (tg.locklist i).id = t then [] else [task (tg.locklist i).id]) :
    ∃ tg', lockAfter tg t m = some tg' ∧ Entries threads tg' ∧ Rows threads tg'.graph ∧
      (∀ j, tg'.locklist j = if j = i then
        { tg.locklist i with degress := (tg.locklist i).degress - 1, id := t }
        else tg.locklist j) ∧
      (∀ y ∈ tg.graph.list.map Vertex.s, y ∈ tg'.graph.list.map Vertex.s) ∧
      ∀ x, row tg'.graph x = if x = t then [] else row tg.graph x := by
  have hsearch := h.search hm hi
  obtain ⟨hrows, hsub, hafter⟩ := after_row (u := (tg.locklist i).id) hr hmem
  refine ⟨{ tg.setLock i { tg.locklist i with
      degress := (tg.locklist i).degress - 1, id := t } with graph := _ }, ?_,
    h.write (hi ▸ hm) rfl ht, hrows, setLock_locklist tg i _, hsub, fun x => ?_⟩
  · unfold lockAfter
    simp only [hsearch, Option.bind_eq_bind, Option.bind_some]
    rfl
  · refine (hafter x).trans ?_
    rw [hrow]
    split
    · split <;> simp
    · rfl

end

end CppTrack.Locks
