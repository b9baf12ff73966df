import CppTrack.Locks.WaitForGraph

/-!
# Careful steps keep the graph right

A thread that wants a mutex has an edge to the thread in its entry, and the entry counts
those that want it. Where the holder of a mutex is in its entry and nobody is between a hook
and the real operation, these are the edges of the waits.
-/

namespace CppTrack.Locks

open Lib

/-- What holds after careful steps. -/
structure Coherent (threads : List Nat) (tg : TaskGraph) (holder : Nat → Option Nat)
    (pc : Nat → Phase) : Prop where
  entries : Entries threads tg
  turns : Turns threads holder pc
  rows : Rows threads tg.graph
  counts : ∀ i, (tg.locklist i).lockId ≠ 0 → ∃ n : Nat,
    Counts (fun p => p.wants (tg.locklist i).lockId) pc n ∧ (tg.locklist i).degress = n
  calm : ∀ t, (∀ m, ¬ (pc t).wants m) → row tg.graph t = []
  absent : ∀ t m, (pc t).wants m → (∀ i, (tg.locklist i).lockId ≠ m) → row tg.graph t = []
  present : ∀ t i, (pc t).wants (tg.locklist i).lockId →
    task t ∈ tg.graph.list.map Vertex.s ∧
      row tg.graph t = if (tg.locklist i).id = t then [] else [task (tg.locklist i).id]
  registered : ∀ m t, holder m = some t → pc t ≠ .got m →
    ∃ i, (tg.locklist i).lockId = m ∧ (tg.locklist i).id = t

section

variable {threads : List Nat} {tg : TaskGraph} {holder : Nat → Option Nat} {pc : Nat → Phase}
  {t m : Nat}

/-- A step of `t` that keeps what it wants keeps what everybody wants. -/
theorem wants_update {p : Phase} (hp : ∀ k, p.wants k ↔ (pc t).wants k) (u k : Nat) :
    (Function.update pc t p u).wants k ↔ (pc u).wants k := by
  by_cases hut : u = t
  · rw [hut, Function.update_self, hp]
  · rw [Function.update_of_ne hut]

/-- A step of `t` leaves the other threads in their entries. -/
theorem Coherent.registered_update {p : Phase} {k u : Nat} (h : Coherent threads tg holder pc)
    (hpc : pc t ≠ .got k) (hk : holder k = some u) (hu : Function.update pc t p u ≠ .got k) :
    ∃ i, (tg.locklist i).lockId = k ∧ (tg.locklist i).id = u := by
  refine h.registered k u hk fun hgot => hu ?_
  have hut : u ≠ t := fun hut => hpc (hut ▸ hgot)
  rw [Function.update_of_ne hut, hgot]

/-! ## One lemma for each step -/

theorem Coherent.before (hmax : threads.length ≤ maxVertices) (h : Coherent threads tg holder pc)
    (hpc : pc t = .idle) (ht : t ∈ threads) (hm : m ≠ 0) (hown : holder m ≠ some t)
    (hnew : ∀ u ∈ threads, pc u ≠ .got m) :
    ∃ tg', lockBefore tg t m = some tg' ∧
      Coherent threads tg' holder (Function.update pc t (.announced m)) := by
  have hturns := h.turns.before ht hm hown hnew
  have hcalm : row tg.graph t = [] := h.calm t fun k => by simp [hpc]
  have hself : Function.update pc t (.announced m) t = .announced m := Function.update_self ..
  have hother : ∀ u, u ≠ t → Function.update pc t (.announced m) u = pc u :=
    fun u hu => Function.update_of_ne hu ..
  have hregistered : ∀ k u, holder k = some u → Function.update pc t (.announced m) u ≠ .got k →
      ∃ i, (tg.locklist i).lockId = k ∧ (tg.locklist i).id = u := by
    intro k u hk hu
    exact h.registered_update (by rw [hpc]; nofun) hk hu
  -- whether some entry of the table is for this lock already
  by_cases hi : ∃ i, (tg.locklist i).lockId = m
  · obtain ⟨i, hi⟩ := hi
    have hne : (tg.locklist i).lockId ≠ 0 := hi ▸ hm
    obtain ⟨tg', hlock, hentries, hrows, hlist, hmem, hsub, hrow⟩ :=
      lockBefore_present hmax h.entries h.rows ht hm hi hcalm
    have hat : tg'.locklist i = { tg.locklist i with degress := (tg.locklist i).degress + 1 } :=
      (hlist i).trans (if_pos rfl)
    have hnot : ∀ j, j ≠ i → tg'.locklist j = tg.locklist j :=
      fun j hj => (hlist j).trans (if_neg hj)
    have hlocks : ∀ j, (tg'.locklist j).lockId = (tg.locklist j).lockId ∧
        (tg'.locklist j).id = (tg.locklist j).id := by
      intro j
      by_cases hj : j = i
      · rw [hj, hat]
        exact ⟨rfl, rfl⟩
      · rw [hnot j hj]
        exact ⟨rfl, rfl⟩
    refine ⟨tg', hlock, hentries, hturns, hrows, fun j hj => ?_, fun u hu => ?_,
      fun u k hu hk => ?_, fun u j hu => ?_, fun k u hk hu => ?_⟩
    · rw [(hlocks j).1] at hj ⊢
      -- `degress` of that entry goes up by one, and so does the number of threads waiting
      obtain ⟨n, hcount, hdegress⟩ := h.counts j hj
      by_cases hji : j = i
      · refine ⟨n + 1, hcount.enter (by simp [hpc]) (by simp [hji, hi]), ?_⟩
        rw [hji, hat]
        rw [hji] at hdegress
        simp [hdegress]
      · have hjm : (tg.locklist j).lockId ≠ m := fun heq =>
          hji (h.entries.unique j i hj (heq.trans hi.symm))
        refine ⟨n, hcount.stay (by simp [hpc, hjm.symm]), ?_⟩
        rw [hnot j hji]
        exact hdegress
    · have hut : u ≠ t := fun hut => hu m (by rw [hut, hself]; simp)
      rw [hrow, if_neg hut]
      exact h.calm u fun k => hother u hut ▸ hu k
    · have hk : ∀ j, (tg.locklist j).lockId ≠ k := fun j => (hlocks j).1 ▸ hk j
      have hut : u ≠ t := fun hut => by
        rw [hut, hself, wants_announced] at hu
        exact hk i (hi.trans hu)
      rw [hrow, if_neg hut]
      rw [hother u hut] at hu
      exact h.absent u k hu hk
    · rw [(hlocks j).1] at hu
      rw [(hlocks j).2, hrow]
      by_cases hut : u = t
      · rw [hut, hself, wants_announced] at hu
        have hji : j = i := h.entries.unique j i (hu ▸ hm) (hu.symm.trans hi.symm)
        rw [if_pos hut, hut, hji]
        exact ⟨hmem, rfl⟩
      · rw [hother u hut] at hu
        rw [if_neg hut]
        obtain ⟨hin, hrowu⟩ := h.present u j hu
        exact ⟨hsub _ hin, hrowu⟩
    · obtain ⟨j, hj, hju⟩ := hregistered k u hk hu
      exact ⟨j, (hlocks j).1.trans hj, (hlocks j).2.trans hju⟩
  · have habsent : ∀ i, (tg.locklist i).lockId ≠ m := fun i hi' => hi ⟨i, hi'⟩
    refine ⟨tg, lockBefore_absent h.entries.room fun j _ => habsent j, h.entries, hturns, h.rows,
      fun j hj => ?_, fun u hu => ?_, fun u k hu hk => ?_, fun u j hu => ?_, hregistered⟩
    · obtain ⟨n, hcount, hdegress⟩ := h.counts j hj
      exact ⟨n, hcount.stay (by simp [hpc, (habsent j).symm]), hdegress⟩
    · have hut : u ≠ t := fun hut => hu m (by rw [hut, hself]; simp)
      exact h.calm u fun k => hother u hut ▸ hu k
    · by_cases hut : u = t
      · rw [hut]
        exact hcalm
      · rw [hother u hut] at hu
        exact h.absent u k hu hk
    · have hut : u ≠ t := fun hut => by
        rw [hut, hself, wants_announced] at hu
        exact habsent j hu.symm
      rw [hother u hut] at hu
      exact h.present u j hu

theorem Coherent.acquire (h : Coherent threads tg holder pc) (hpc : pc t = .announced m)
    (hfree : holder m = none) (honly : ∀ u ∈ threads, u ≠ t → pc u ≠ .announced m) :
    Coherent threads tg (Function.update holder m (some t))
      (Function.update pc t (.got m)) := by
  have hwants : ∀ u k, (Function.update pc t (.got m) u).wants k ↔ (pc u).wants k :=
    wants_update fun k => by rw [hpc, wants_announced, wants_got]
  refine ⟨h.entries, h.turns.acquire hpc hfree honly, h.rows, fun j hj => ?_,
    fun u hu => h.calm u fun k hk => hu k ((hwants u k).mpr hk),
    fun u k hu => h.absent u k ((hwants u k).mp hu),
    fun u j hu => h.present u j ((hwants u _).mp hu), fun k u hk hu => ?_⟩
  · obtain ⟨n, hcount, hdegress⟩ := h.counts j hj
    exact ⟨n, hcount.stay (by simp [hpc]), hdegress⟩
  · by_cases hkm : k = m
    · -- the thread is not in the entry yet
      rw [hkm, Function.update_self] at hk
      rw [← Option.some.inj hk, Function.update_self, hkm] at hu
      exact absurd rfl hu
    · rw [Function.update_of_ne hkm] at hk
      exact h.registered_update (by rw [hpc]; nofun) hk hu

/-- Who wants anything after the step is another thread, and wants another mutex. -/
theorem Coherent.wants_after (h : Coherent threads tg holder pc) (hpc : pc t = .got m) {u k : Nat}
    (hu : (Function.update pc t .idle u).wants k) : u ≠ t ∧ (pc u).wants k ∧ k ≠ m := by
  have hut : u ≠ t := fun hut => by
    rw [hut, Function.update_self] at hu
    exact wants_idle hu
  rw [Function.update_of_ne hut] at hu
  exact ⟨hut, hu, fun hkm => hut (h.turns.alone t u m hpc (hkm ▸ hu))⟩

theorem Coherent.registered_after (h : Coherent threads tg holder pc) (hpc : pc t = .got m)
    {k u : Nat} (hkm : k ≠ m) (hk : holder k = some u)
    (hu : Function.update pc t .idle u ≠ .got k) :
    ∃ i, (tg.locklist i).lockId = k ∧ (tg.locklist i).id = u :=
  h.registered_update (fun hgot => hkm (Phase.got.inj (hpc.symm.trans hgot)).symm) hk hu

/-- The lock is in the table: its entry becomes the thread's. -/
theorem Coherent.after_present (h : Coherent threads tg holder pc) (hpc : pc t = .got m)
    (ht : t ∈ threads) (hm : m ≠ 0) {i : Nat} (hi : (tg.locklist i).lockId = m) :
    ∃ tg', lockAfter tg t m = some tg' ∧
      Coherent threads tg' holder (Function.update pc t .idle) := by
  have hwant : (pc t).wants m := by simp [hpc]
  obtain ⟨hmem, hrowt⟩ := h.present t i (hi ▸ hwant)
  obtain ⟨tg', hlock, hentries, hrows, hlist, hsub, hrow⟩ :=
    lockAfter_present h.entries h.rows ht hm hi hmem hrowt
  have hat := (hlist i).trans (if_pos rfl)
  have hnot : ∀ j, j ≠ i → tg'.locklist j = tg.locklist j :=
    fun j hj => (hlist j).trans (if_neg hj)
  have hlocks : ∀ j, (tg'.locklist j).lockId = (tg.locklist j).lockId := by
    intro j
    by_cases hj : j = i
    · rw [hj, hat]
    · rw [hnot j hj]
  refine ⟨tg', hlock, hentries, h.turns.idle, hrows, fun j hj => ?_, fun u hu => ?_,
    fun u k hu hk => ?_, fun u j hu => ?_, fun k u hk hu => ?_⟩
  · rw [hlocks j] at hj ⊢
    obtain ⟨n, hcount, hdegress⟩ := h.counts j hj
    by_cases hji : j = i
    · have hin : (pc t).wants (tg.locklist j).lockId := by rw [hji, hi]; exact hwant
      have hpos := hcount.pos hin
      refine ⟨n - 1, hcount.leave hin wants_idle, ?_⟩
      rw [hji, hat]
      rw [hji] at hdegress
      simp only [hdegress]
      omega
    · have hjm : (tg.locklist j).lockId ≠ m := fun heq =>
        hji (h.entries.unique j i hj (heq.trans hi.symm))
      refine ⟨n, hcount.stay (by simp [hpc, hjm.symm]), ?_⟩
      rw [hnot j hji]
      exact hdegress
  · rw [hrow]
    split
    · rfl
    · rename_i hut
      rw [Function.update_of_ne hut] at hu
      exact h.calm u hu
  · obtain ⟨hut, hu, -⟩ := h.wants_after hpc hu
    rw [hrow, if_neg hut]
    exact h.absent u k hu fun j => hlocks j ▸ hk j
  · rw [hlocks j] at hu
    obtain ⟨hut, hu, hjm⟩ := h.wants_after hpc hu
    have hji : j ≠ i := fun hji => hjm (hji ▸ hi)
    obtain ⟨hin, hrowu⟩ := h.present u j hu
    rw [hrow, if_neg hut, hnot j hji]
    exact ⟨hsub _ hin, hrowu⟩
  · by_cases hkm : k = m
    · rw [hkm, h.turns.got t m hpc] at hk
      exact ⟨i, (hlocks i).trans (hi.trans hkm.symm), by rw [hat]; exact Option.some.inj hk⟩
    · obtain ⟨j, hj, hju⟩ := h.registered_after hpc hkm hk hu
      have hji : j ≠ i := fun hji => hkm (hj.symm.trans (hji ▸ hi))
      exact ⟨j, (hlocks j).trans hj, by rw [hnot j hji]; exact hju⟩

/-- The lock is not in the table: an empty entry is taken for it. -/
theorem Coherent.after_absent (h : Coherent threads tg holder pc) (hpc : pc t = .got m)
    (ht : t ∈ threads) (hm : m ≠ 0) (habsent : ∀ i, (tg.locklist i).lockId ≠ m)
    (hfits : searchLock tg m = some none → tg.lockidx < maxVertices) :
    ∃ tg', lockAfter tg t m = some tg' ∧
      Coherent threads tg' holder (Function.update pc t .idle) := by
  obtain ⟨e, tg', hlock, hempty, hentries, hgraph, hlist⟩ :=
    lockAfter_absent h.entries hm ht habsent hfits
  have hat := (hlist e).trans (if_pos rfl)
  have hnot : ∀ j, j ≠ e → tg'.locklist j = tg.locklist j :=
    fun j hj => (hlist j).trans (if_neg hj)
  refine ⟨tg', hlock, hentries, h.turns.idle, hgraph ▸ h.rows, fun j hj => ?_, fun u hu => ?_,
    fun u k hu hk => ?_, fun u j hu => ?_, fun k u hk hu => ?_⟩
  · by_cases hje : j = e
    · rw [hje, hat]
      exact ⟨0, counts_zero fun u hu => (h.wants_after hpc hu).2.2 rfl, rfl⟩
    · rw [hnot j hje] at hj ⊢
      obtain ⟨n, hcount, hdegress⟩ := h.counts j hj
      exact ⟨n, hcount.stay (by simp [hpc, (habsent j).symm]), hdegress⟩
  · rw [hgraph]
    by_cases hut : u = t
    · rw [hut]
      exact h.absent t m (by simp [hpc]) habsent
    · rw [Function.update_of_ne hut] at hu
      exact h.calm u hu
  · obtain ⟨-, hu, hkm⟩ := h.wants_after hpc hu
    rw [hgraph]
    refine h.absent u k hu fun j hj => ?_
    by_cases hje : j = e
    · exact h.turns.nonzero u k (.inl hu) (hj.symm.trans (hje ▸ hempty))
    · exact hk j (hnot j hje ▸ hj)
  · by_cases hje : j = e
    · rw [hje, hat] at hu
      exact absurd rfl (h.wants_after hpc hu).2.2
    · rw [hnot j hje] at hu ⊢
      rw [hgraph]
      exact h.present u j (h.wants_after hpc hu).2.1
  · by_cases hkm : k = m
    · rw [hkm, h.turns.got t m hpc] at hk
      exact ⟨e, by rw [hat, hkm], by rw [hat]; exact Option.some.inj hk⟩
    · obtain ⟨j, hj, hju⟩ := h.registered_after hpc hkm hk hu
      have hje : j ≠ e := fun hje =>
        (h.turns.holders k u hk).2 (hj.symm.trans (hje ▸ hempty))
      exact ⟨j, by rw [hnot j hje]; exact hj, by rw [hnot j hje]; exact hju⟩

theorem Coherent.after (h : Coherent threads tg holder pc) (hpc : pc t = .got m)
    (hfits : searchLock tg m = some none → tg.lockidx < maxVertices) :
    ∃ tg', lockAfter tg t m = some tg' ∧
      Coherent threads tg' holder (Function.update pc t .idle) := by
  have hm : m ≠ 0 := h.turns.nonzero t m (.inl (by simp [hpc]))
  have ht : t ∈ threads := h.turns.members t (by rw [hpc]; nofun)
  by_cases hi : ∃ i, (tg.locklist i).lockId = m
  · obtain ⟨i, hi⟩ := hi
    exact h.after_present hpc ht hm hi
  · exact h.after_absent hpc ht hm (fun i hi' => hi ⟨i, hi'⟩) hfits

theorem Coherent.release (h : Coherent threads tg holder pc) (hpc : pc t = .idle)
    (hheld : holder m = some t) :
    Coherent threads tg (Function.update holder m none)
      (Function.update pc t (.released m)) := by
  have hwants : ∀ u k, (Function.update pc t (.released m) u).wants k ↔ (pc u).wants k :=
    wants_update fun k => by simp [hpc]
  refine ⟨h.entries, h.turns.release hpc hheld, h.rows, fun j hj => ?_,
    fun u hu => h.calm u fun k hk => hu k ((hwants u k).mpr hk),
    fun u k hu => h.absent u k ((hwants u k).mp hu),
    fun u j hu => h.present u j ((hwants u _).mp hu), fun k u hk hu => ?_⟩
  · obtain ⟨n, hcount, hdegress⟩ := h.counts j hj
    exact ⟨n, hcount.stay (by simp [hpc]), hdegress⟩
  · have hkm : k ≠ m := fun hkm => by
      rw [hkm, Function.update_self] at hk
      exact absurd hk nofun
    rw [Function.update_of_ne hkm] at hk
    exact h.registered_update (by rw [hpc]; nofun) hk hu

theorem Coherent.unlocked {i : Nat} (h : Coherent threads tg holder pc)
    (hpc : pc t = .released m) (hsearch : searchLock tg m = some (some i))
    (hown : (tg.locklist i).degress ≠ 0 ∨ holder m = none) :
    ∃ tg', unlockAfter tg m = some tg' ∧
      Coherent threads tg' holder (Function.update pc t .idle) := by
  have hm : m ≠ 0 := h.turns.nonzero t m (.inr hpc)
  have hi : (tg.locklist i).lockId = m := searchLock_spec hsearch
  have hwants : ∀ u k, (Function.update pc t .idle u).wants k ↔ (pc u).wants k :=
    wants_update fun k => by simp [hpc]
  have hregistered : ∀ k u, holder k = some u → Function.update pc t .idle u ≠ .got k →
      ∃ j, (tg.locklist j).lockId = k ∧ (tg.locklist j).id = u := by
    intro k u hk hu
    exact h.registered_update (by rw [hpc]; nofun) hk hu
  have hcounts : ∀ j, (tg.locklist j).lockId ≠ 0 → ∃ n : Nat,
      Counts (fun p => p.wants (tg.locklist j).lockId) (Function.update pc t .idle) n ∧
        (tg.locklist j).degress = n := by
    intro j hj
    obtain ⟨n, hcount, hdegress⟩ := h.counts j hj
    exact ⟨n, hcount.stay (by simp [hpc]), hdegress⟩
  -- the entry is cleared only if nobody has announced the lock
  by_cases hzero : (tg.locklist i).degress = 0
  · have hfree : holder m = none := hown.resolve_left (· hzero)
    have hnobody : ∀ u, ¬ (pc u).wants m := by
      intro u hu
      obtain ⟨n, hcount, hdegress⟩ := h.counts i (hi ▸ hm)
      have hpos := hcount.pos (t := u) (hi ▸ hu)
      omega
    have hlist := setLock_locklist tg i { tg.locklist i with id := 0, lockId := 0 }
    obtain ⟨tg', htg'⟩ : ∃ tg', tg.setLock i { tg.locklist i with id := 0, lockId := 0 } = tg' :=
      ⟨_, rfl⟩
    have hunlock : unlockAfter tg m = some tg' := by
      unfold unlockAfter
      simp only [hsearch, Option.bind_eq_bind, Option.bind_some]
      rw [if_pos hzero, htg']
    have hgraph : tg'.graph = tg.graph := htg' ▸ rfl
    have hidx : tg'.lockidx = tg.lockidx := htg' ▸ rfl
    rw [htg'] at hlist
    have hat := (hlist i).trans (if_pos rfl)
    have hnot : ∀ j, j ≠ i → tg'.locklist j = tg.locklist j :=
      fun j hj => (hlist j).trans (if_neg hj)
    refine ⟨tg', hunlock, h.entries.clear hidx hat hzero hnot, h.turns.idle, hgraph ▸ h.rows,
      fun j hj => ?_, fun u hu => ?_, fun u k hu hk => ?_, fun u j hu => ?_,
      fun k u hk hu => ?_⟩
    · have hji : j ≠ i := fun hji => hj (by rw [hji, hat])
      rw [hnot j hji] at hj ⊢
      exact hcounts j hj
    · rw [hgraph]
      exact h.calm u fun k hk => hu k ((hwants u k).mpr hk)
    · have hu := (hwants u k).mp hu
      rw [hgraph]
      refine h.absent u k hu fun j hj => ?_
      by_cases hji : j = i
      · exact hnobody u ((hj.symm.trans (hji ▸ hi)) ▸ hu)
      · exact hk j (hnot j hji ▸ hj)
    · have hu := (hwants u _).mp hu
      have hji : j ≠ i := fun hji => by
        rw [hji, hat] at hu
        exact h.turns.nonzero u 0 (.inl hu) rfl
      rw [hnot j hji] at hu ⊢
      rw [hgraph]
      exact h.present u j hu
    · obtain ⟨j, hj, hju⟩ := hregistered k u hk hu
      -- the lock of the cleared entry has no holder
      have hji : j ≠ i := fun hji => by
        rw [← hj, hji, hi, hfree] at hk
        exact absurd hk nofun
      exact ⟨j, by rw [hnot j hji]; exact hj, by rw [hnot j hji]; exact hju⟩
  · refine ⟨tg, ?_, h.entries, h.turns.idle, h.rows, hcounts,
      fun u hu => h.calm u fun k hk => hu k ((hwants u k).mpr hk),
      fun u k hu => h.absent u k ((hwants u k).mp hu),
      fun u j hu => h.present u j ((hwants u _).mp hu), hregistered⟩
    unfold unlockAfter
    simp only [hsearch, Option.bind_eq_bind, Option.bind_some]
    rw [if_neg hzero]

theorem startHooked_coherent :
    Coherent threads startHooked.shared.tg startHooked.shared.holder startHooked.pc where
  entries := ⟨Nat.zero_le _, fun _ h => absurd rfl h, fun _ _ => rfl, fun _ _ h => absurd rfl h,
    fun _ h => absurd rfl h⟩
  turns := ⟨fun _ h => absurd rfl h, nofun, fun _ _ h => by simp [startHooked] at h, nofun,
    nofun, nofun⟩
  rows := ⟨List.nodup_nil, nofun, nofun⟩
  counts _ h := absurd rfl h
  calm _ _ := rfl
  absent _ _ _ _ := rfl
  present _ _ h := absurd h wants_idle
  registered _ _ h := absurd h nofun

/-- A coherent state is right. -/
theorem Coherent.faithful {c : Threads Hooked Phase}
    (h : Coherent threads c.shared.tg c.shared.holder c.pc) : Faithful threads c := by
  intro hsettled a b
  unfold HasEdge WaitsFor
  have hat : c.pc a ≠ .idle → _ := fun ha => hsettled a (h.turns.members a ha)
  cases hpc : c.pc a with
  | idle =>
      rw [h.calm a fun m => by simp [hpc]]
      exact iff_of_false List.not_mem_nil id
  | got m =>
      rw [hpc] at hat
      exact (hat nofun).elim
  | released m =>
      rw [hpc] at hat
      exact (hat nofun).elim
  | announced m =>
      rw [hpc] at hat
      obtain ⟨b', hb'⟩ := Option.ne_none_iff_exists'.mp (hat nofun)
      have hb : c.pc b' ≠ .got m := fun hgot => by
        have := hsettled b' (h.turns.holders m b' hb').1
        rw [hgot] at this
        exact this
      obtain ⟨i, hi, hid⟩ := h.registered m b' hb' hb
      have hne : b' ≠ a := fun heq => h.turns.own a m hpc (heq ▸ hb')
      obtain ⟨-, hrow⟩ := h.present a i (by simp [hpc, hi])
      rw [hrow, hid, if_neg hne, List.mem_singleton]
      simp only [hb', Option.some.injEq]
      exact ⟨fun heq => (task_inj heq).symm, fun heq => congrArg task heq.symm⟩

/-- A careful step keeps the state coherent. -/
theorem Coherent.step {c : Threads Hooked Phase} {i : Nat × HookOp}
    (hmax : threads.length ≤ maxVertices)
    (h : Coherent threads c.shared.tg c.shared.holder c.pc) (hcareful : Careful threads c i)
    (hpossible : Possible threads c i) :
    ∃ c', hookStep threads c i = some c' ∧
      Coherent threads c'.shared.tg c'.shared.holder c'.pc := by
  obtain ⟨t, op⟩ := i
  unfold Careful at hcareful
  unfold Possible at hpossible
  unfold hookStep Threads.step hookMove
  cases hpc : c.pc t with
  | idle =>
      cases op with
      | before m =>
          simp only [hpc] at hcareful hpossible
          obtain ⟨tg', htg', h'⟩ :=
            h.before hmax hpc hpossible.1 hpossible.2 hcareful.1 hcareful.2
          simp only [if_pos hpossible, htg']
          exact ⟨_, rfl, h'⟩
      | release m =>
          simp only [hpc] at hpossible
          simp only [if_pos hpossible]
          exact ⟨_, rfl, h.release hpc hpossible⟩
      | acquire => simp [hpc] at hpossible
      | after => simp [hpc] at hpossible
      | unlocked => simp [hpc] at hpossible
  | announced m =>
      cases op with
      | acquire =>
          simp only [hpc] at hcareful hpossible
          simp only [if_pos hpossible]
          exact ⟨_, rfl, h.acquire hpc hpossible hcareful⟩
      | before m => simp [hpc] at hpossible
      | release m => simp [hpc] at hpossible
      | after => simp [hpc] at hpossible
      | unlocked => simp [hpc] at hpossible
  | got m =>
      cases op with
      | after =>
          simp only [hpc] at hcareful
          obtain ⟨tg', htg', h'⟩ := h.after hpc hcareful
          simp only [htg']
          exact ⟨_, rfl, h'⟩
      | before m => simp [hpc] at hpossible
      | release m => simp [hpc] at hpossible
      | acquire => simp [hpc] at hpossible
      | unlocked => simp [hpc] at hpossible
  | released m =>
      cases op with
      | unlocked =>
          simp only [hpc] at hcareful
          split at hcareful
          · rename_i idx hsearch
            obtain ⟨tg', htg', h'⟩ := h.unlocked hpc hsearch hcareful
            simp only [htg']
            exact ⟨_, rfl, h'⟩
          · exact hcareful.elim
      | before m => simp [hpc] at hpossible
      | release m => simp [hpc] at hpossible
      | acquire => simp [hpc] at hpossible
      | after => simp [hpc] at hpossible

theorem possible_of_step {c c' : Threads Hooked Phase} {i : Nat × HookOp}
    (hstep : hookStep threads c i = some c') : Possible threads c i := by
  obtain ⟨t, op⟩ := i
  obtain ⟨g, p, hmove, -⟩ := Threads.step_eq_some hstep
  unfold Possible
  unfold hookMove at hmove
  simp only at hmove ⊢
  split at hmove
  · split at hmove
    · assumption
    · exact absurd hmove nofun
  · split at hmove
    · assumption
    · exact absurd hmove nofun
  · trivial
  · split at hmove
    · assumption
    · exact absurd hmove nofun
  · trivial
  · exact absurd hmove nofun

end

/--
**Careful steps keep the graph right.** In any run of the hooks by at most `MAX` threads, if
every step is careful, then every step that the program allows goes through, and whenever all
threads are outside the hooks or blocked the edges are the waits.
-/
theorem faithful_of_careful (threads : List Nat) (is : List (Nat × HookOp))
    (hmax : threads.length ≤ maxVertices)
    (hcareful : Meets (hookStep threads) (Careful threads) startHooked is) :
    Meets (hookStep threads) (StaysFaithful threads) startHooked is := by
  refine Meets.mono (StaysFaithful threads)
    (fun c i c' (hc : Coherent threads c.shared.tg c.shared.holder c.pc) hok hstep => ?_)
    (fun c i hc hok hpossible => ?_) is startHooked_coherent hcareful
  · obtain ⟨c₁, h₁, hc₁⟩ := hc.step hmax hok (possible_of_step hstep)
    exact Option.some.inj (h₁.symm.trans hstep) ▸ hc₁
  · obtain ⟨c', hstep, hc'⟩ := hc.step hmax hok hpossible
    exact ⟨c', hstep, hc'.faithful⟩

instance (threads : List Nat) (c : Threads Hooked Phase) (i : Nat × HookOp) :
    Decidable (Careful threads c i) := by
  unfold Careful
  split
  case h_4 => split <;> infer_instance
  all_goals infer_instance

instance (threads : List Nat) (c : Threads Hooked Phase) : Decidable (Settled threads c) := by
  unfold Settled
  refine @List.decidableBAll _ _ (fun t => ?_) threads
  split <;> infer_instance

instance (c : Threads Hooked Phase) (a b : Nat) : Decidable (HasEdge c a b) := by
  unfold HasEdge
  infer_instance

instance (c : Threads Hooked Phase) (a b : Nat) : Decidable (WaitsFor c a b) := by
  unfold WaitsFor
  split <;> infer_instance

/-- One thread waits for another and gets the mutex after it. -/
def handover : List (Nat × HookOp) :=
  [(1, .before 7), (1, .acquire), (1, .after), (2, .before 7), (1, .release 7), (1, .unlocked),
    (2, .acquire), (2, .after), (2, .release 7), (2, .unlocked)]

theorem handover_faithful :
    Meets (hookStep [1, 2]) (StaysFaithful [1, 2]) startHooked handover :=
  faithful_of_careful [1, 2] handover (by decide) (by decide +kernel)

/-- Two threads wait for a third, and one of them gets the mutex. -/
def overtaken : List (Nat × HookOp) :=
  [(2, .before 7), (2, .acquire), (2, .after), (1, .before 7), (3, .before 7), (2, .release 7),
    (2, .unlocked), (3, .acquire), (3, .after)]

/-- After the step the edge between the two threads is right. -/
def RightBetween (threads : List Nat) (a b : Nat) (c : Threads Hooked Phase) (i : Nat × HookOp) :
    Prop :=
  (hookStep threads c i).all (fun c' =>
    decide (Settled threads c' → (HasEdge c' a b ↔ WaitsFor c' a b))) = true

instance (threads : List Nat) (a b : Nat) (c : Threads Hooked Phase) (i : Nat × HookOp) :
    Decidable (RightBetween threads a b c i) := by
  unfold RightBetween
  infer_instance

theorem StaysFaithful.between {threads : List Nat} {c : Threads Hooked Phase} {i : Nat × HookOp}
    (h : StaysFaithful threads c i) (a b : Nat) : RightBetween threads a b c i := by
  unfold RightBetween
  cases hstep : hookStep threads c i with
  | none => rfl
  | some c' =>
      obtain ⟨c₁, h₁, hfaithful⟩ := h (possible_of_step hstep)
      obtain rfl := Option.some.inj (h₁.symm.trans hstep)
      exact decide_eq_true fun hsettled => hfaithful hsettled a b

/-- Thread 1 still has its edge to thread 2 when thread 3 holds the mutex. -/
theorem overtaken_unfaithful :
    ¬ Meets (hookStep [1, 2, 3]) (StaysFaithful [1, 2, 3]) startHooked overtaken := by
  intro h
  have hright : Meets (hookStep [1, 2, 3]) (RightBetween [1, 2, 3] 1 2) startHooked overtaken :=
    Meets.mono _ (fun _ _ _ (_ : True) _ _ => trivial) (fun c i _ hok => hok.between 1 2)
      overtaken trivial h
  exact absurd hright (by decide +kernel)

end CppTrack.Locks
