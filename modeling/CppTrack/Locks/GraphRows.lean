import CppTrack.Locks.CycleSearch

/-!
# The rows of the task graph

What a task waits for is the list of its vertex. Each of the three things the hooks do to the
graph changes one such list, and adds the vertices it needs.
-/

namespace CppTrack.Locks

/-- The list of the task, empty without a vertex. -/
def row (g : Graph) (t : Nat) : List Source :=
  ((searchVertex g (task t)).bind (g.list[·]?)).elim [] Vertex.next

/-- The graph has vertices for some of the threads, each once, and edges between them. -/
structure Rows (threads : List Nat) (g : Graph) : Prop where
  nodup : (g.list.map Vertex.s).Nodup
  tasks : ∀ x ∈ g.list.map Vertex.s, x ∈ threads.map task
  edges : ∀ v ∈ g.list, ∀ x ∈ v.next, x ∈ g.list.map Vertex.s

section

variable {threads : List Nat} {g g' : Graph} {t u x : Nat}

/-! ## Searching -/

theorem task_inj (h : task t = task u) : t = u := congrArg Source.id h

theorem searchVertex_eq (g : Graph) (type : Source) :
    searchVertex g type = (g.list.map Vertex.s).findIdx? fun s => s = type := by
  unfold searchVertex
  rw [List.findIdx?_map]
  refine congrArg (fun p => List.findIdx? p g.list) (funext fun v => ?_)
  obtain ⟨⟨id, ty⟩, next⟩ := v
  obtain ⟨id', ty'⟩ := type
  simp [and_comm]

theorem searchVertex_congr (h : g'.list.map Vertex.s = g.list.map Vertex.s) (type : Source) :
    searchVertex g' type = searchVertex g type := by
  rw [searchVertex_eq, searchVertex_eq, h]

/-- What is found at an index is the vertex there. -/
theorem searchVertex_spec {type : Source} {i : Nat} (h : searchVertex g type = some i) :
    ∃ v, g.list[i]? = some v ∧ v.s = type := by
  rw [searchVertex_eq] at h
  obtain ⟨hlt, hat, -⟩ := List.findIdx?_eq_some_iff_getElem.mp h
  rw [List.length_map] at hlt
  refine ⟨g.list[i], List.getElem?_eq_getElem hlt, ?_⟩
  simpa using hat

theorem searchVertex_none {type : Source} (h : searchVertex g type = none) :
    type ∉ g.list.map Vertex.s := by
  rw [searchVertex_eq, List.findIdx?_eq_none_iff] at h
  intro hmem
  simpa using h type hmem

theorem searchVertex_mem {type : Source} {i : Nat} (h : searchVertex g type = some i) :
    type ∈ g.list.map Vertex.s := by
  obtain ⟨v, hv, rfl⟩ := searchVertex_spec h
  exact List.mem_map_of_mem (List.mem_of_getElem? hv)

/-- The list of one vertex is changed. -/
theorem row_modify {f : Vertex → Vertex} {i : Nat} (hf : ∀ v, (f v).s = v.s)
    (hi : searchVertex g (task t) = some i) (x : Nat) :
    row ⟨g.list.modify i f⟩ x =
      if x = t then ((g.list[i]?).map f).elim [] Vertex.next else row g x := by
  have hsearch : ∀ type, searchVertex ⟨g.list.modify i f⟩ type = searchVertex g type :=
    searchVertex_congr (map_modify hf)
  unfold row
  rw [hsearch]
  by_cases hx : x = t
  · rw [if_pos hx, hx, hi, Option.bind_some, List.getElem?_modify]
    simp
  · rw [if_neg hx]
    cases hj : searchVertex g (task x) with
    | none => rfl
    | some j =>
        have hij : i ≠ j := by
          rintro rfl
          obtain ⟨v, hv, hvt⟩ := searchVertex_spec hi
          obtain ⟨v', hv', hvx⟩ := searchVertex_spec hj
          obtain rfl := Option.some.inj (hv.symm.trans hv')
          exact hx (task_inj (hvx.symm.trans hvt))
        rw [Option.bind_some, Option.bind_some, List.getElem?_modify]
        simp [hij]

theorem Rows.row_mem (h : Rows threads g) {w : Source} (hw : w ∈ row g t) :
    w ∈ g.list.map Vertex.s := by
  unfold row at hw
  cases hs : searchVertex g (task t) with
  | none => rw [hs] at hw; exact absurd hw List.not_mem_nil
  | some i =>
      obtain ⟨v, hv, -⟩ := searchVertex_spec hs
      rw [hs, Option.bind_some, hv] at hw
      exact h.edges v (List.mem_of_getElem? hv) w hw

/-- A row holds tasks. -/
theorem Rows.row_task (h : Rows threads g) {w : Source} (hw : w ∈ row g t) : w = task w.id := by
  obtain ⟨u, -, rfl⟩ := List.mem_map.mp (h.tasks w (h.row_mem hw))
  rfl

/-! ## Vertices -/

theorem addVertex_row (hmax : threads.length ≤ maxVertices) (h : Rows threads g)
    (ht : t ∈ threads) :
    ∃ g', addVertex g (task t) = some g' ∧ Rows threads g' ∧ task t ∈ g'.list.map Vertex.s ∧
      (∀ y ∈ g.list.map Vertex.s, y ∈ g'.list.map Vertex.s) ∧ ∀ x, row g' x = row g x := by
  unfold addVertex
  cases hs : searchVertex g (task t) with
  | some i =>
      exact ⟨g, by simp, h, searchVertex_mem hs, fun _ hy => hy, fun _ => rfl⟩
  | none =>
      have hnew := searchVertex_none hs
      have hsources : (g.list ++ [(⟨task t, []⟩ : Vertex)]).map Vertex.s =
          g.list.map Vertex.s ++ [task t] := by
        rw [List.map_append]
        rfl
      have hroom : g.list.length < maxVertices := by
        have hnodup : (task t :: g.list.map Vertex.s).Nodup := List.nodup_cons.mpr ⟨hnew, h.nodup⟩
        have hsub : task t :: g.list.map Vertex.s ⊆ threads.map task := by
          intro y hy
          rcases List.mem_cons.mp hy with rfl | hy
          · exact List.mem_map_of_mem ht
          · exact h.tasks y hy
        have hle := (List.subperm_of_subset hnodup hsub).length_le
        rw [List.length_cons, List.length_map, List.length_map] at hle
        omega
      refine ⟨⟨g.list ++ [⟨task t, []⟩]⟩, by simp [hroom], ⟨?_, ?_, ?_⟩, ?_, ?_, fun x => ?_⟩
      · rw [hsources]
        refine List.nodup_append.mpr ⟨h.nodup, List.nodup_singleton _, fun y hy z hz hyz => ?_⟩
        exact hnew (List.mem_singleton.mp hz ▸ hyz ▸ hy)
      · rw [hsources]
        intro y hy
        rcases List.mem_append.mp hy with hy | hy
        · exact h.tasks y hy
        · exact List.mem_singleton.mp hy ▸ List.mem_map_of_mem ht
      · rw [hsources]
        intro v hv y hy
        rcases List.mem_append.mp hv with hv | hv
        · exact List.mem_append_left _ (h.edges v hv y hy)
        · rw [List.mem_singleton.mp hv] at hy
          exact absurd hy List.not_mem_nil
      · rw [hsources]
        exact List.mem_append_right _ List.mem_cons_self
      · rw [hsources]
        exact fun y hy => List.mem_append_left _ hy
      · unfold row
        rw [searchVertex_eq, hsources, List.findIdx?_append, ← searchVertex_eq]
        cases hx : searchVertex g (task x) with
        | some j =>
            have hlt := searchVertex_lt hx
            simp [List.getElem?_append_left hlt]
        | none => 
            by_cases hxt : task t = task x
            · simp [hxt]
            · simp [hxt]

/-! ## Edges -/

/-- `verify_edge` says yes of a task and itself. -/
theorem verifyEdge_iff (h : Rows threads g) (ht : task t ∈ g.list.map Vertex.s) :
    verifyEdge g (task t) (task u) = true ↔ t = u ∨ task u ∈ row g t := by
  obtain ⟨i, hi⟩ := searchVertex_of_mem ht
  obtain ⟨v, hv, hvt⟩ := searchVertex_spec hi
  have hrow : row g t = v.next := by
    unfold row
    rw [hi, Option.bind_some, hv]
    rfl
  have hids : ∀ w ∈ v.next, (w.id = u ↔ w = task u) := by
    intro w hw
    have hw : w ∈ row g t := hrow ▸ hw
    exact ⟨fun hid => (h.row_task hw).trans (congrArg task hid), congrArg Source.id⟩
  unfold verifyEdge
  rw [hi, Option.bind_some, hv, hrow]
  simp only [List.any_cons, Bool.or_eq_true, decide_eq_true_eq, hvt, List.any_eq_true]
  refine or_congr Iff.rfl ⟨?_, fun hu => ⟨_, hu, rfl⟩⟩
  rintro ⟨w, hw, hid⟩
  exact (hids w hw).mp hid ▸ hw

theorem Rows.modify {f : Vertex → Vertex} {i : Nat} (h : Rows threads g) (hf : ∀ v, (f v).s = v.s)
    (hnext : ∀ v ∈ g.list, ∀ x ∈ (f v).next, x ∈ g.list.map Vertex.s) :
    Rows threads ⟨g.list.modify i f⟩ := by
  refine ⟨?_, ?_, fun v hv x hx => ?_⟩ <;> simp only [map_modify hf]
  · exact h.nodup
  · exact h.tasks
  · obtain ⟨u, hu, rfl | rfl⟩ := mem_modify hv
    · exact h.edges v hu x hx
    · exact hnext u hu x hx

/-- What `lock_before` does to the graph: the threads are in it, and the edge is, unless it is
one from a thread to itself. -/
theorem before_row (hmax : threads.length ≤ maxVertices) (h : Rows threads g) (ht : t ∈ threads)
    (hu : u ∈ threads) :
    ∃ g₁ g₂ g', addVertex g (task t) = some g₁ ∧ addVertex g₁ (task u) = some g₂ ∧
      (if verifyEdge g₂ (task t) (task u) then some g₂ else addEdge g₂ (task t) (task u)) =
        some g' ∧
      Rows threads g' ∧ task t ∈ g'.list.map Vertex.s ∧
      (∀ y ∈ g.list.map Vertex.s, y ∈ g'.list.map Vertex.s) ∧
      ∀ x, row g' x =
        if x = t ∧ t ≠ u ∧ task u ∉ row g t then row g t ++ [task u] else row g x := by
  obtain ⟨g₁, h₁, hr₁, hin₁, hsub₁, hrow₁⟩ := addVertex_row hmax h ht
  obtain ⟨g₂, h₂, hr₂, hin₂, hsub₂, hrow₂⟩ := addVertex_row hmax hr₁ hu
  have hrow : ∀ x, row g₂ x = row g x := fun x => (hrow₂ x).trans (hrow₁ x)
  have hint := hsub₂ _ hin₁
  have hverify := verifyEdge_iff (u := u) hr₂ hint
  rw [hrow] at hverify
  by_cases hedge : verifyEdge g₂ (task t) (task u) = true
  · refine ⟨g₁, g₂, g₂, h₁, h₂, if_pos hedge, hr₂, hint,
      fun y hy => hsub₂ y (hsub₁ y hy), fun x => ?_⟩
    rw [hrow, if_neg]
    rintro ⟨-, hne, hnot⟩
    exact (hverify.mp hedge).elim hne hnot
  · obtain ⟨hne, hnot⟩ := not_or.mp (mt hverify.mpr hedge)
    obtain ⟨i, hi⟩ := searchVertex_of_mem hint
    obtain ⟨j, hj⟩ := searchVertex_of_mem hin₂
    obtain ⟨v, hv, hvt⟩ := searchVertex_spec hi
    let f : Vertex → Vertex := fun v => { v with next := v.next ++ [task u] }
    have hf : ∀ v, (f v).s = v.s := fun _ => rfl
    have hvrow : row g₂ t = v.next := by
      unfold row
      rw [hi, Option.bind_some, hv]
      rfl
    refine ⟨g₁, g₂, ⟨g₂.list.modify i f⟩, h₁, h₂, ?_, hr₂.modify hf ?_, ?_,
      fun y hy => ?_, fun x => ?_⟩
    · rw [if_neg hedge]
      unfold addEdge addVertex
      simp [hi, hj, f]
    · intro v hv x hx
      rcases List.mem_append.mp hx with hx | hx
      · exact hr₂.edges v hv x hx
      · exact List.mem_singleton.mp hx ▸ hin₂
    · simp only [map_modify hf]
      exact hint
    · simp only [map_modify hf]
      exact hsub₂ y (hsub₁ y hy)
    · rw [row_modify hf hi, hv]
      by_cases hx : x = t
      · rw [if_pos hx, if_pos ⟨hx, hne, hnot⟩, ← hrow, hvrow]
        rfl
      · rw [if_neg hx, if_neg fun hall => hx hall.1, hrow]

/-- Among tasks the id is enough to find one. -/
theorem eraseP_task {l : List Source} (h : ∀ w ∈ l, w = task w.id) :
    (l.eraseP fun w => w.id = (task u).id) = l.erase (task u) := by
  change (l.eraseP fun w => w.id = u) = _
  induction l with
  | nil => rfl
  | cons w l ih =>
      have hw : w = task w.id := h w List.mem_cons_self
      by_cases hid : w.id = u
      · rw [List.eraseP_cons_of_pos (p := fun w : Source => w.id = u) (decide_eq_true hid), hw,
          hid, List.erase_cons_head]
      · rw [List.eraseP_cons_of_neg (p := fun w : Source => w.id = u)
            fun h => hid (of_decide_eq_true h),
          List.erase_cons_tail (by simpa using fun heq => hid (congrArg Source.id heq)),
          ih fun w hw => h w (List.mem_cons_of_mem _ hw)]

/-- What `lock_after` does to the graph: the edge goes. -/
theorem after_row (h : Rows threads g) (ht : task t ∈ g.list.map Vertex.s) :
    Rows threads
        (if verifyEdge g (task t) (task u) then removeEdge g (task t) (task u) else g) ∧
      (∀ y ∈ g.list.map Vertex.s, y ∈
        (if verifyEdge g (task t) (task u) then removeEdge g (task t) (task u) else g).list.map
          Vertex.s) ∧
      ∀ x, row (if verifyEdge g (task t) (task u) then removeEdge g (task t) (task u) else g) x =
        if x = t then (row g t).erase (task u) else row g x := by
  have hverify := verifyEdge_iff (u := u) h ht
  obtain ⟨i, hi⟩ := searchVertex_of_mem ht
  obtain ⟨v, hv, hvt⟩ := searchVertex_spec hi
  have hvrow : row g t = v.next := by
    unfold row
    rw [hi, Option.bind_some, hv]
    rfl
  have hsame : task u ∉ row g t → ∀ x, row g x =
      if x = t then (row g t).erase (task u) else row g x := by
    intro hnot x
    split
    · rename_i hx
      rw [hx, List.erase_of_not_mem hnot]
    · rfl
  split
  · unfold removeEdge
    rw [hi]
    cases hj : searchVertex g (task u) with
    | none =>
        exact ⟨h, fun _ hy => hy, hsame fun hmem => searchVertex_none hj (h.row_mem hmem)⟩
    | some j =>
        let f : Vertex → Vertex := fun v =>
          { v with next := v.next.eraseP fun w => w.id = (task u).id }
        have hf : ∀ v, (f v).s = v.s := fun _ => rfl
        refine ⟨h.modify hf fun v hv x hx => h.edges v hv x (List.mem_of_mem_eraseP hx),
          fun y hy => ?_, fun x => ?_⟩
        · show y ∈ (g.list.modify i f).map Vertex.s
          rw [map_modify hf]
          exact hy
        simp only
        rw [row_modify hf hi, hv]
        split
        · rw [hvrow]
          exact eraseP_task fun w hw => h.row_task (hvrow ▸ hw : w ∈ row g t)
        · rfl
  · rename_i hnot
    exact ⟨h, fun _ hy => hy, hsame fun hmem => hnot (hverify.mpr (.inr hmem))⟩

end

end CppTrack.Locks
