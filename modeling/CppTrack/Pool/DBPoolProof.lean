import CppTrack.Pool.DBPool
import Mathlib.Data.List.Nodup

/-!
# The pool loses no connection and no wake-up

A connection is free or checked out, and one that is checked out belongs to one client. That
holds as long as clients release only what they hold. `RelDBConn` itself looks no further than
the free list: what is in neither list goes into it.
-/

namespace CppTrack.DBPool

open Lib

/-- What holds of the pool as long as clients release what they hold. -/
structure Conserved (w : World) : Prop where
  nodup : (w.pool.freeList ++ w.pool.usedList).Nodup
  size : w.pool.freeList.length + w.pool.usedList.length = w.pool.dbCurConnCnt
  bound : (w.pool.dbCurConnCnt : Int) ≤ max w.pool.dbMaxConnCnt minDbConnCnt
  used : ∀ conn, conn ∈ w.pool.usedList ↔ ∃ t, conn ∈ w.held t
  once : ∀ t, (w.held t).Nodup
  apart : ∀ t u conn, conn ∈ w.held t → conn ∈ w.held u → t = u
  served : w.pool.condVar.Served w.pool.freeList.length
  running : w.pool.abortRequest = false

section

variable {s s' : CDBPool} {w w' : World} {t conn u : Nat} {timeoutMs : Int} {create : Option Nat}
  {r : Got × CDBPool} {freeList : List Nat}

/-! ## What the operations do -/

theorem getDBConn_cases (hrun : s.abortRequest = false)
    (h : s.getDBConn t timeoutMs create = some r) :
    r = (.null, s) ∨
      s.freeList = [] ∧ r = (.waiting timeoutMs, { s with condVar := s.condVar.wait t }) ∨
      (∃ conn freeList, s.freeList = conn :: freeList ∧
        r = (.conn conn, { s with freeList := freeList, usedList := s.usedList ++ [conn] })) ∨
      ∃ conn, s.freeList = [] ∧ (s.dbCurConnCnt : Int) < s.dbMaxConnCnt ∧ create = some conn ∧
        s.Fresh conn ∧ r = (.conn conn, { s with
          usedList := s.usedList ++ [conn]
          dbCurConnCnt := s.dbCurConnCnt + 1 }) := by
  obtain ⟨cur, max, free, used, cond, abort⟩ := s
  obtain rfl : abort = false := hrun
  unfold CDBPool.getDBConn at h
  rw [if_neg (by simp)] at h
  cases free with
  | cons conn freeList =>
      exact .inr (.inr (.inl ⟨conn, freeList, rfl, (Option.some.inj h).symm⟩))
  | nil =>
      rw [if_pos (by rfl)] at h
      split at h
      · exact .inr (.inl ⟨rfl, (Option.some.inj h).symm⟩)
      · rename_i hless
        split at h
        · exact .inl (Option.some.inj h).symm
        · rename_i conn
          split at h
          · rename_i hfresh
            exact .inr (.inr (.inr ⟨conn, rfl, Int.not_le.mp hless, rfl, hfresh,
              (Option.some.inj h).symm⟩))
          · exact absurd h nofun

theorem resumeGet_cases {timedOut : Bool} (hrun : s.abortRequest = false)
    (h : s.resumeGet t timeoutMs timedOut = some r) :
    ∃ condVar, s.condVar.resume t = some condVar ∧
      (s.freeList = [] ∧ (r = (.null, { s with condVar := condVar }) ∨
          r = (.waiting timeoutMs, { s with condVar := condVar.wait t })) ∨
        ∃ conn freeList, s.freeList = conn :: freeList ∧
          r = (.conn conn, { s with
            freeList := freeList
            usedList := s.usedList ++ [conn]
            condVar := condVar })) := by
  obtain ⟨cur, max, free, used, cond, abort⟩ := s
  obtain rfl : abort = false := hrun
  unfold CDBPool.resumeGet at h
  obtain ⟨condVar, hcond, h⟩ := Option.bind_eq_some_iff.mp h
  refine ⟨condVar, hcond, ?_⟩
  cases free with
  | cons conn freeList =>
      refine .inr ⟨conn, freeList, rfl, ?_⟩
      by_cases hms : timeoutMs ≤ 0
      · rw [if_pos hms] at h
        exact (Option.some.inj h).symm
      · rw [if_neg hms] at h
        exact (Option.some.inj h).symm
  | nil =>
      refine .inl ⟨rfl, ?_⟩
      by_cases hms : timeoutMs ≤ 0
      · rw [if_pos hms] at h
        exact .inr (Option.some.inj h).symm
      · rw [if_neg hms] at h
        cases timedOut with
        | false => exact .inr (Option.some.inj h).symm
        | true => exact .inl (Option.some.inj h).symm

theorem relDBConn_cases (h : s.relDBConn conn u = some s') :
    conn ∈ s.freeList ∧ s' = s ∨
      conn ∉ s.freeList ∧ ∃ condVar, s.condVar.notifyOne u = some condVar ∧ s' = { s with
        usedList := s.usedList.filter (· ≠ conn)
        freeList := s.freeList ++ [conn]
        condVar := condVar } := by
  unfold CDBPool.relDBConn at h
  split at h
  · rename_i hfree
    exact .inl ⟨hfree, (Option.some.inj h).symm⟩
  · rename_i hfree
    obtain ⟨condVar, hcond, rfl⟩ := Option.map_eq_some_iff.mp h
    exact .inr ⟨hfree, condVar, hcond, rfl⟩

/-! ## Conservation -/

/-- A connection goes to a client. -/
theorem Conserved.handOut {waits : Nat → Option Int} {made handed : List Nat} {pool : CDBPool}
    (h : Conserved w) (hused : pool.usedList = w.pool.usedList ++ [conn])
    (hnew : conn ∉ w.pool.usedList) (hnodup : (pool.freeList ++ pool.usedList).Nodup)
    (hsize : pool.freeList.length + pool.usedList.length = pool.dbCurConnCnt)
    (hbound : (pool.dbCurConnCnt : Int) ≤ max pool.dbMaxConnCnt minDbConnCnt)
    (hserved : pool.condVar.Served pool.freeList.length) (hrun : pool.abortRequest = false) :
    Conserved ⟨pool, waits, Function.update w.held t (conn :: w.held t), made, handed⟩ := by
  have hnobody : ∀ u, conn ∉ w.held u := fun u hu => hnew ((h.used conn).mpr ⟨u, hu⟩)
  have hheld : ∀ u x, x ∈ Function.update w.held t (conn :: w.held t) u ↔
      x ∈ w.held u ∨ x = conn ∧ u = t := by
    intro u x
    by_cases hu : u = t
    · rw [hu, Function.update_self, List.mem_cons, or_comm]
      simp
    · rw [Function.update_of_ne hu]
      simp [hu]
  refine ⟨hnodup, hsize, hbound, fun x => ?_, fun u => ?_, fun u v x hu hv => ?_, hserved, hrun⟩
  · simp only [hused, List.mem_append, List.mem_singleton, hheld, h.used x]
    constructor
    · rintro (⟨u, hu⟩ | hx)
      · exact ⟨u, .inl hu⟩
      · exact ⟨t, .inr ⟨hx, rfl⟩⟩
    · rintro ⟨u, hu | ⟨hx, -⟩⟩
      · exact .inl ⟨u, hu⟩
      · exact .inr hx
  · simp only
    by_cases hu : u = t
    · rw [hu, Function.update_self]
      exact List.nodup_cons.mpr ⟨hnobody t, h.once t⟩
    · rw [Function.update_of_ne hu]
      exact h.once u
  · rcases (hheld u x).mp hu with hu | ⟨hx, hut⟩
    · rcases (hheld v x).mp hv with hv | ⟨hx, -⟩
      · exact h.apart u v x hu hv
      · exact absurd (hx ▸ hu) (hnobody u)
    · rcases (hheld v x).mp hv with hv | ⟨-, hvt⟩
      · exact absurd (hx ▸ hv) (hnobody v)
      · rw [hut, hvt]

/-- Nobody gets or gives anything back. -/
theorem Conserved.sleep {waits : Nat → Option Int} {made handed : List Nat} {condVar : CondVar}
    (h : Conserved w) (hserved : condVar.Served w.pool.freeList.length) :
    Conserved ⟨{ w.pool with condVar := condVar }, waits, w.held, made, handed⟩ :=
  ⟨h.nodup, h.size, h.bound, h.used, h.once, h.apart, hserved, h.running⟩

theorem nodup_moved {l used : List Nat} (h : (conn :: l ++ used).Nodup) :
    (l ++ (used ++ [conn])).Nodup := by
  rw [← List.append_assoc]
  exact (List.perm_append_singleton conn (l ++ used)).nodup_iff.mpr h

/-- The first free connection goes to a client. -/
theorem Conserved.takeFree {waits : Nat → Option Int} {made handed : List Nat}
    {condVar : CondVar} (h : Conserved w) (hcons : w.pool.freeList = conn :: freeList)
    (hserved : condVar.Served freeList.length) :
    Conserved ⟨{ w.pool with
        freeList := freeList
        usedList := w.pool.usedList ++ [conn]
        condVar := condVar }, waits, Function.update w.held t (conn :: w.held t), made,
      handed⟩ := by
  have hnodup := h.nodup
  have hsize := h.size
  have hfree := (List.nodup_append.mp h.nodup).2.2
  rw [hcons] at hnodup hsize
  refine h.handOut rfl (fun hmem => ?_) (nodup_moved hnodup) ?_ h.bound hserved h.running
  · exact hfree conn (by rw [hcons]; exact List.mem_cons_self) conn hmem rfl
  · simp only [List.length_append, List.length_cons, List.length_nil] at hsize ⊢
    omega

theorem Conserved.get (h : Conserved w) (hstep : step w (.get t timeoutMs create) = some w') :
    Conserved w' := by
  simp only [step] at hstep
  split at hstep
  · obtain ⟨r, hget, rfl⟩ := Option.map_eq_some_iff.mp hstep
    rcases getDBConn_cases h.running hget with rfl | ⟨hempty, rfl⟩ |
      ⟨conn, freeList, hcons, rfl⟩ | ⟨conn, hempty, hless, -, hfresh, rfl⟩
    · exact h.sleep h.served
    · exact h.sleep (by rw [hempty]; exact CondVar.served_wait)
    · exact h.takeFree hcons (h.served.mono (by rw [hcons, List.length_cons]; omega))
    · have hnodup := h.nodup
      have hsize := h.size
      rw [hempty] at hnodup hsize
      refine h.handOut rfl hfresh.2.2 ?_ ?_ ?_ h.served h.running
      · rw [hempty]
        exact nodup_moved (List.nodup_cons.mpr ⟨hfresh.2.2, hnodup⟩)
      · simp only [hempty, List.length_append, List.length_cons, List.length_nil] at hsize ⊢
        omega
      · have := h.bound
        simp only
        omega
  · exact absurd hstep nofun

theorem Conserved.resume {timedOut : Bool} (h : Conserved w)
    (hstep : step w (.resume t timedOut) = some w') : Conserved w' := by
  simp only [step] at hstep
  obtain ⟨timeoutMs, -, hstep⟩ := Option.bind_eq_some_iff.mp hstep
  obtain ⟨r, hget, rfl⟩ := Option.map_eq_some_iff.mp hstep
  obtain ⟨condVar, hcond, hcases⟩ := resumeGet_cases h.running hget
  have hserved := h.served.resume hcond
  rcases hcases with ⟨hempty, rfl | rfl⟩ | ⟨conn, freeList, hcons, rfl⟩
  · exact h.sleep (hserved.mono (by rw [hempty]; exact Nat.zero_le _))
  · exact h.sleep (by rw [hempty]; exact CondVar.served_wait)
  · exact h.takeFree hcons (hserved.mono (by rw [hcons]; exact Nat.le_refl _))

theorem Conserved.rel (h : Conserved w) (hheld : conn ∈ w.held t)
    (hstep : step w (.rel t conn u) = some w') : Conserved w' := by
  simp only [step] at hstep
  split at hstep
  · obtain ⟨pool, hrel, rfl⟩ := Option.map_eq_some_iff.mp hstep
    have hused : conn ∈ w.pool.usedList := (h.used conn).mpr ⟨t, hheld⟩
    obtain ⟨hfreeNodup, husedNodup, hdisj⟩ := List.nodup_append.mp h.nodup
    rcases relDBConn_cases hrel with ⟨hfree, -⟩ | ⟨hfree, condVar, hcond, rfl⟩
    · exact absurd rfl (hdisj conn hfree conn hused)
    have hlater : ∀ v x, x ∈ Function.update w.held t ((w.held t).erase conn) v ↔
        x ∈ w.held v ∧ x ≠ conn := by
      intro v x
      by_cases hv : v = t
      · rw [hv, Function.update_self, (h.once t).mem_erase_iff, and_comm]
      · rw [Function.update_of_ne hv]
        exact ⟨fun hx => ⟨hx, fun hxc => hv (h.apart v t conn (hxc ▸ hx) hheld)⟩, And.left⟩
    have hfilter : w.pool.usedList.filter (· ≠ conn) = w.pool.usedList.erase conn := by
      rw [husedNodup.erase_eq_filter]
      exact List.filter_congr fun x _ => by by_cases hx : x = conn <;> simp [hx]
    have hmem : ∀ x, x ∈ w.pool.usedList.filter (· ≠ conn) ↔ x ∈ w.pool.usedList ∧ x ≠ conn :=
      fun x => by simp
    have hperm : (w.pool.freeList ++ [conn] ++ w.pool.usedList.filter (· ≠ conn)).Perm
        (w.pool.freeList ++ w.pool.usedList) := by
      rw [hfilter, List.append_assoc]
      exact ((List.perm_cons_erase hused).append_left w.pool.freeList).symm
    have hsize : (w.pool.freeList ++ [conn]).length +
        (w.pool.usedList.filter (· ≠ conn)).length = w.pool.dbCurConnCnt := by
      rw [← List.length_append, hperm.length_eq, List.length_append, h.size]
    refine ⟨hperm.nodup_iff.mpr h.nodup, hsize, h.bound, fun x => ?_, fun v => ?_,
      fun v v' x hv hv' => ?_, ?_, h.running⟩
    · simp only [hmem, h.used x, hlater]
      exact ⟨fun ⟨⟨v, hv⟩, hx⟩ => ⟨v, hv, hx⟩, fun ⟨v, hv, hx⟩ => ⟨⟨v, hv⟩, hx⟩⟩
    · simp only
      by_cases hv : v = t
      · rw [hv, Function.update_self]
        exact (h.once t).erase conn
      · rw [Function.update_of_ne hv]
        exact h.once v
    · exact h.apart v v' x ((hlater v x).mp hv).1 ((hlater v' x).mp hv').1
    · have hserved := h.served.notifyOne hcond
      simpa using hserved
  · exact absurd hstep nofun

/-- A step of honest clients loses nothing. -/
theorem Conserved.step {op : Op} (h : Conserved w) (hop : Honest w op)
    (hstep : DBPool.step w op = some w') : Conserved w' := by
  cases op with
  | get t timeoutMs create => exact h.get hstep
  | resume t timedOut => exact h.resume hstep
  | rel t conn u => exact h.rel hop hstep

/-- What `Init` leaves is free and was made. -/
theorem start_conserved {maxConnCnt : Int} {create : Nat → Option Nat}
    (h : start maxConnCnt create = some w) : Conserved w := by
  obtain ⟨pool, hinit, rfl⟩ := Option.map_eq_some_iff.mp h
  have hloop := foldlM_keeps (fun i (s : CDBPool) => s.freeList.Nodup ∧ s.freeList.length = i ∧
      s.usedList = [] ∧ s.dbCurConnCnt = minDbConnCnt ∧ s.condVar = .empty ∧
      s.abortRequest = false) (List.range minDbConnCnt)
    (fun i b s s' _ hs hturn => by
      obtain ⟨conn, -, hturn⟩ := Option.bind_eq_some_iff.mp hturn
      split at hturn
      · rename_i hfresh
        obtain ⟨hnodup, hlen, hrest⟩ := hs
        rw [← Option.some.inj hturn]
        refine ⟨?_, by simp [hlen], hrest⟩
        exact List.nodup_append.mpr ⟨hnodup, List.nodup_singleton _, fun x hx y hy hxy =>
          hfresh.2.1 (List.mem_singleton.mp hy ▸ hxy ▸ hx)⟩
      · exact absurd hturn nofun)
    ⟨List.nodup_nil, rfl, rfl, rfl, rfl, rfl⟩ hinit
  obtain ⟨hnodup, hlen, hused, hcur, hcond, hrun⟩ := hloop
  rw [List.length_range] at hlen
  refine ⟨?_, ?_, ?_, fun conn => ?_, fun t => List.nodup_nil, nofun, ?_, hrun⟩
  · rw [hused, List.append_nil]
    exact hnodup
  · rw [hused, hcur, List.length_nil]
    exact hlen
  · rw [hcur]
    exact Int.le_max_right _ _
  · simp [hused]
  · rw [hcond]
    exact CondVar.served_empty

end

/--
**The pool loses no connection and no wake-up.** In every state that honest clients can bring
it to, whatever they do and in whatever order: no connection is in the lists twice, there are
as many as the pool counts and no more than it may have, the used ones are those that clients
hold, each held by one of them, and while a client sleeps without having been notified there
are no more free connections than notified clients.
-/
theorem pool_conserved (maxConnCnt : Int) (create : Nat → Option Nat) (w w' : World)
    (ops : List Op) (hinit : start maxConnCnt create = some w)
    (hhonest : Meets step Honest w ops) (hrun : run step w ops = some w') :
    (w'.pool.freeList ++ w'.pool.usedList).Nodup ∧
      w'.pool.freeList.length + w'.pool.usedList.length = w'.pool.dbCurConnCnt ∧
      (w'.pool.dbCurConnCnt : Int) ≤ max w'.pool.dbMaxConnCnt minDbConnCnt ∧
      (∀ conn, conn ∈ w'.pool.usedList ↔ ∃ t, conn ∈ w'.held t) ∧
      (∀ t, (w'.held t).Nodup) ∧
      (∀ t u conn, conn ∈ w'.held t → conn ∈ w'.held u → t = u) ∧
      (w'.pool.condVar.waiting ≠ [] →
        w'.pool.freeList.length ≤ w'.pool.condVar.notified.length) := by
  have h := run_keeps_meets Honest (fun s i s' hs hok hstep => Conserved.step hs hok hstep) ops
    (start_conserved hinit) hhonest hrun
  exact ⟨h.nodup, h.size, h.bound, h.used, h.once, h.apart, h.served⟩

/-- One client waits for the connection of another. -/
def oneConnection : List Op :=
  [.get 1 0 none, .get 2 0 none, .rel 1 100 2, .get 3 0 none, .resume 2 false]

/-- A pool of one connection, which is at address 100. -/
def oneStart : World :=
  { pool := { CDBPool.new 1 with freeList := [100] }, waits := fun _ => none,
    held := fun _ => [], made := [100], handed := [] }

theorem pool_conserved_one :
    ∃ w', run step oneStart oneConnection = some w' ∧
      w'.pool.freeList.length + w'.pool.usedList.length = w'.pool.dbCurConnCnt := by
  obtain ⟨w', hrun⟩ := Option.isSome_iff_exists.mp
    (show (run step oneStart oneConnection).isSome by decide +kernel)
  exact ⟨w', hrun, (pool_conserved 1 (fun _ => some 100) oneStart w' oneConnection rfl
    (by decide +kernel) hrun).2.1⟩

/-! ## What `RelDBConn` takes back -/

/-- A release changes neither list, nor the number of connections. -/
def Harmless (s : CDBPool) (conn : Nat) : Prop :=
  ∀ u s', s.relDBConn conn u = some s' → s'.freeList = s.freeList ∧ s'.usedList = s.usedList ∧
    s'.dbCurConnCnt = s.dbCurConnCnt

/-- Every connection of the pool, and every one it has handed out, was made by it. -/
structure Made (w : World) : Prop where
  nonzero : ∀ conn ∈ w.made, conn ≠ 0
  free : ∀ conn ∈ w.pool.freeList, conn ∈ w.made
  used : ∀ conn ∈ w.pool.usedList, conn ∈ w.made
  handed : ∀ conn ∈ w.handed, conn ∈ w.made
  running : w.pool.abortRequest = false

section

variable {s : CDBPool} {w w' : World} {conn : Nat}

theorem harmless_iff (hused : conn ∉ s.usedList) : Harmless s conn ↔ conn ∈ s.freeList := by
  constructor
  · intro h
    by_contra hfree
    -- some thread is woken, or none is
    obtain ⟨u, c, hc⟩ : ∃ u c, s.condVar.notifyOne u = some c := s.condVar.exists_notifyOne
    have hrel : s.relDBConn conn u = some { s with
        usedList := s.usedList.filter (· ≠ conn)
        freeList := s.freeList ++ [conn]
        condVar := c } := by
      unfold CDBPool.relDBConn
      rw [if_neg hfree, hc]
      rfl
    have hlist := (h u _ hrel).1
    exact absurd (congrArg List.length hlist) (by simp)
  · intro hfree u s' hrel
    rcases relDBConn_cases hrel with ⟨-, rfl⟩ | ⟨hnot, -⟩
    · exact ⟨rfl, rfl, rfl⟩
    · exact absurd hfree hnot

theorem Made.takeFree {freeList : List Nat} {condVar : CondVar} {waits : Nat → Option Int}
    {held : Nat → List Nat} (h : Made w) (hcons : w.pool.freeList = conn :: freeList) :
    Made ⟨{ w.pool with
        freeList := freeList
        usedList := w.pool.usedList ++ [conn]
        condVar := condVar }, waits, held, w.made, conn :: w.handed⟩ := by
  have hconn : conn ∈ w.made := h.free conn (by rw [hcons]; exact List.mem_cons_self)
  refine ⟨h.nonzero, fun x hx => ?_, fun x hx => ?_, fun x hx => ?_, h.running⟩
  · exact h.free x (by rw [hcons]; exact List.mem_cons_of_mem _ hx)
  · rcases List.mem_append.mp hx with hx | hx
    · exact h.used x hx
    · exact List.mem_singleton.mp hx ▸ hconn
  · rcases List.mem_cons.mp hx with rfl | hx
    · exact hconn
    · exact h.handed x hx

theorem Made.step {op : Op} (h : Made w) (hop : Known w op) (hstep : DBPool.step w op = some w') :
    Made w' := by
  cases op with
  | get t timeoutMs create =>
      simp only [DBPool.step] at hstep
      split at hstep
      · obtain ⟨r, hget, rfl⟩ := Option.map_eq_some_iff.mp hstep
        rcases getDBConn_cases h.running hget with rfl | ⟨hempty, rfl⟩ |
          ⟨conn, freeList, hcons, rfl⟩ | ⟨conn, hempty, hless, rfl, hfresh, rfl⟩
        · simp only [Nat.lt_irrefl, if_false]
          exact ⟨h.nonzero, h.free, h.used, h.handed, h.running⟩
        · simp only [Nat.lt_irrefl, if_false]
          exact ⟨h.nonzero, h.free, h.used, h.handed, h.running⟩
        · simp only [Nat.lt_irrefl, if_false]
          exact h.takeFree hcons
        · -- the only way a connection is made
          simp only [Nat.lt_succ_self, if_true]
          have hgrown : ∀ x ∈ w.made, x ∈ (some conn).toList ++ w.made :=
            fun x hx => List.mem_append_right _ hx
          have hconn : conn ∈ (some conn).toList ++ w.made :=
            List.mem_append_left _ List.mem_cons_self
          refine ⟨fun x hx => ?_, fun x hx => hgrown x (h.free x hx), fun x hx => ?_,
            fun x hx => ?_, h.running⟩
          · rcases List.mem_append.mp hx with hx | hx
            · exact List.mem_singleton.mp hx ▸ hfresh.1
            · exact h.nonzero x hx
          · rcases List.mem_append.mp hx with hx | hx
            · exact hgrown x (h.used x hx)
            · exact List.mem_singleton.mp hx ▸ hconn
          · rcases List.mem_cons.mp hx with rfl | hx
            · exact hconn
            · exact hgrown x (h.handed x hx)
      · exact absurd hstep nofun
  | resume t timedOut =>
      simp only [DBPool.step] at hstep
      obtain ⟨timeoutMs, -, hstep⟩ := Option.bind_eq_some_iff.mp hstep
      obtain ⟨r, hget, rfl⟩ := Option.map_eq_some_iff.mp hstep
      obtain ⟨condVar, -, ⟨-, rfl | rfl⟩ | ⟨conn, freeList, hcons, rfl⟩⟩ :=
        resumeGet_cases h.running hget
      · exact ⟨h.nonzero, h.free, h.used, h.handed, h.running⟩
      · exact ⟨h.nonzero, h.free, h.used, h.handed, h.running⟩
      · exact h.takeFree hcons
  | rel t conn u =>
      simp only [DBPool.step] at hstep
      split at hstep
      · obtain ⟨pool, hrel, rfl⟩ := Option.map_eq_some_iff.mp hstep
        have hconn : conn ∈ w.made := hop.elim (h.used conn) (h.free conn)
        rcases relDBConn_cases hrel with ⟨-, rfl⟩ | ⟨-, c, -, rfl⟩
        · exact ⟨h.nonzero, h.free, h.used, h.handed, h.running⟩
        · refine ⟨h.nonzero, fun x hx => ?_, fun x hx => h.used x (List.mem_filter.mp hx).1,
            h.handed, h.running⟩
          rcases List.mem_append.mp hx with hx | hx
          · exact h.free x hx
          · exact List.mem_singleton.mp hx ▸ hconn
      · exact absurd hstep nofun

theorem start_made {maxConnCnt : Int} {create : Nat → Option Nat}
    (h : start maxConnCnt create = some w) : Made w := by
  obtain ⟨pool, hinit, rfl⟩ := Option.map_eq_some_iff.mp h
  have hloop := foldlM_keeps (fun _ (s : CDBPool) => (∀ conn ∈ s.freeList, conn ≠ 0) ∧
      s.usedList = [] ∧ s.abortRequest = false) (List.range minDbConnCnt)
    (fun i b s s' _ hs hturn => by
      obtain ⟨conn, -, hturn⟩ := Option.bind_eq_some_iff.mp hturn
      split at hturn
      · rename_i hfresh
        rw [← Option.some.inj hturn]
        refine ⟨fun x hx => ?_, hs.2⟩
        rcases List.mem_append.mp hx with hx | hx
        · exact hs.1 x hx
        · exact List.mem_singleton.mp hx ▸ hfresh.1
      · exact absurd hturn nofun)
    ⟨fun _ hx => absurd hx List.not_mem_nil, rfl, rfl⟩ hinit
  obtain ⟨hnonzero, hused, hrun⟩ := hloop
  exact ⟨hnonzero, fun _ hx => hx, fun x hx => absurd (hused ▸ hx) List.not_mem_nil, nofun, hrun⟩

end

/--
**A release of what is not checked out is harmless if and only if it is free.** And then,
whatever the clients do: if they release nothing but what is checked out or free, every
connection that `GetDBConn` hands out is one the pool has made, and is not `NULL`.
-/
theorem relDBConn_harmless_iff (s : CDBPool) (conn : Nat) (hused : conn ∉ s.usedList) :
    (Harmless s conn ↔ conn ∈ s.freeList) ∧
    ∀ (maxConnCnt : Int) (create : Nat → Option Nat) (w w' : World) (ops : List Op),
      start maxConnCnt create = some w → Meets step Known w ops → run step w ops = some w' →
        ∀ conn ∈ w'.handed, conn ∈ w'.made ∧ conn ≠ 0 := by
  refine ⟨harmless_iff hused, ?_⟩
  intro maxConnCnt create w w' ops hinit hknown hrun c hc
  have h := run_keeps_meets Known (fun s i s' hs hok hstep => Made.step hs hok hstep) ops
    (start_made hinit) hknown hrun
  exact ⟨h.handed c hc, h.nonzero c (h.handed c hc)⟩

theorem relDBConn_harmless_one :
    (Harmless oneStart.pool 100 ↔ 100 ∈ oneStart.pool.freeList) ∧
      ∃ w', run step oneStart oneConnection = some w' ∧
        ∀ conn ∈ w'.handed, conn ∈ w'.made ∧ conn ≠ 0 := by
  obtain ⟨w', hrun⟩ := Option.isSome_iff_exists.mp
    (show (run step oneStart oneConnection).isSome by decide +kernel)
  obtain ⟨hiff, hruns⟩ := relDBConn_harmless_iff oneStart.pool 100 List.not_mem_nil
  exact ⟨hiff, w', hrun, hruns 1 (fun _ => some 100) oneStart w' oneConnection rfl
    (by decide +kernel) hrun⟩

/-- A client that got `NULL` because its time was over releases it, as the test does, and
the next client gets it. -/
theorem null_handed_out :
    (∃ w, run step oneStart [.get 1 0 none, .get 2 2000 none, .resume 2 true] = some w ∧
      0 ∉ w.pool.usedList ∧ ¬ Harmless w.pool 0) ∧
    ∃ w', run step oneStart [.get 1 0 none, .get 2 2000 none, .resume 2 true, .rel 2 0 0,
      .get 3 0 none] = some w' ∧ 0 ∈ w'.handed := by
  refine ⟨?_, ?_⟩
  · obtain ⟨w, hrun, hw⟩ := (Option.any_eq_true _ _).mp
      (show (run step oneStart [.get 1 0 none, .get 2 2000 none, .resume 2 true]).any
        (fun w => decide (0 ∉ w.pool.usedList ∧ 0 ∉ w.pool.freeList)) by decide +kernel)
    obtain ⟨hused, hfree⟩ := of_decide_eq_true hw
    exact ⟨w, hrun, hused, fun h => hfree ((harmless_iff hused).mp h)⟩
  · obtain ⟨w', hrun', hw'⟩ := (Option.any_eq_true _ _).mp
      (show (run step oneStart [.get 1 0 none, .get 2 2000 none, .resume 2 true, .rel 2 0 0,
        .get 3 0 none]).any (fun w => decide (0 ∈ w.handed)) by decide +kernel)
    exact ⟨w', hrun', of_decide_eq_true hw'⟩

end CppTrack.DBPool
