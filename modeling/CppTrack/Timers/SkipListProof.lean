import CppTrack.Timers.SkipListChain

/-!
# Insertion and deletion

Both go through the levels with one loop that relinks the chain of one level a round,
and leave the chains of the other levels alone. `Threaded` is the heap in the middle of
such a loop. When the loop is over, the nodes are what they were but for one.
-/

namespace CppTrack.SkipList

open Lib

/-! ## One loop over the levels -/

/-- The levels that are `done` lead through `new`, the others are as in `h₀`. -/
structure Threaded (h₀ : NodeHeap) (header : Nat) (new : Nat → List Nat) (done : Nat → Prop)
    (h : NodeHeap) : Prop where
  next : h.next = h₀.next
  info : ∀ y, info h y = info h₀ y
  forward : ∀ y i, ¬ done i → forward h y i = forward h₀ y i
  path : ∀ i, done i → i < maxLevel → Path h i header (new i)

section

variable {s : Zskiplist} {xs pre post : List Nat} {h h₀ h' : NodeHeap} {i j t x z header : Nat}
  {new : Nat → List Nat} {done done' : Nat → Prop}

theorem Threaded.refl (h : NodeHeap) (hdone : ∀ i, ¬ done i) : Threaded h header new done h where
  next := rfl
  info := fun _ => rfl
  forward := fun _ _ _ => rfl
  path := fun i hi => absurd hi (hdone i)

theorem Threaded.of_iff (ht : Threaded h₀ header new done h) (hiff : ∀ i, done i ↔ done' i) :
    Threaded h₀ header new done' h := by
  rwa [show done' = done from funext fun i => propext (hiff i).symm]

theorem Threaded.lv (ht : Threaded h₀ header new done h) (y : Nat) :
    SkipList.lv h y = SkipList.lv h₀ y := by
  rw [SkipList.lv, ht.info, ← SkipList.lv]

/-- One more level is done. -/
theorem Threaded.level_done (ht : Threaded h₀ header new done h) (hnext : h'.next = h.next)
    (hinfo : ∀ y, SkipList.info h' y = SkipList.info h y)
    (hsame : ∀ y i, i ≠ j → SkipList.forward h' y i = SkipList.forward h y i)
    (hp : Path h' j header (new j)) :
    Threaded h₀ header new (fun i => done i ∨ i = j) h' where
  next := hnext.trans ht.next
  info := fun y => (hinfo y).trans (ht.info y)
  forward := by
    intro y i hi
    rw [hsame y i (fun he => hi (.inr he))]
    exact ht.forward y i (fun hd => hi (.inl hd))
  path := by
    intro i hi hlt
    by_cases hij : i = j
    · rw [hij]
      exact hp
    · refine (ht.path i (hi.resolve_right hij) hlt).congr fun y _ => hsame y i hij

theorem before_mem (s : Zskiplist) (pre : List Nat) (i : Nat) :
    before s pre i ∈ s.header :: pre := by
  rcases List.mem_cons.mp (getLastD_mem (level s.heap i pre) s.header) with hu | hu
  · exact List.mem_cons.mpr (.inl hu)
  · exact List.mem_cons_of_mem _ (mem_level.mp hu).1

theorem level_congr (hlv : ∀ x ∈ xs, lv h' x = lv h x) : level h' i xs = level h i xs :=
  List.filter_congr fun x hx => by rw [hlv x hx]

/-! ## Insertion -/

/-- What the chain of a level is once `z` is in it. -/
def withNode (s : Zskiplist) (pre post : List Nat) (z i : Nat) : List Nat :=
  level s.heap i pre ++ z :: level s.heap i post

/-- The body of the loop that links the new node `z`. -/
def linkAt (z : Nat) (update : Nat → Option Nat) (i : Nat) (h : NodeHeap) : Option NodeHeap := do
  let u ← update i
  let h ← setForward h z i (← forward h u i)
  setForward h u i (some z)

theorem linkAt_threaded (update : Nat → Option Nat) (hr : Represents s (pre ++ post))
    (hz : ∀ y ∈ s.header :: (pre ++ post), y ≠ z)
    (h₁ : ∀ y i, y ≠ z → forward h₀ y i = forward s.heap y i)
    (ht : Threaded h₀ s.header (withNode s pre post z) done h) (hj : j < maxLevel)
    (hdone : ¬ done j) (hlv : j < lv h₀ z) (hupd : update j = some (before s pre j)) :
    ∃ h', linkAt z update j h = some h' ∧
      Threaded h₀ s.header (withNode s pre post z) (fun i => done i ∨ i = j) h' := by
  have hu := before_mem s pre j
  have huz := hz _ (List.cons_subset_cons _ (List.subset_append_left pre post) hu)
  have hpath := hr.path_before hj
  have hfu : forward h (before s pre j) j = some (level s.heap j post).head? := by
    rw [ht.forward _ j hdone, h₁ _ j huz, hpath.forward_eq]
  obtain ⟨ha, hrun₁, hw₁⟩ := setForward_wrote (h := h) (x := z) (i := j)
    (by rw [ht.lv]; exact hlv) (level s.heap j post).head?
  have hlvu : j < lv ha (before s pre j) := by
    rw [lv, hw₁.info, ← lv]
    exact lt_lv_of_forward hfu
  obtain ⟨hb, hrun₂, hw₂⟩ := setForward_wrote hlvu (some z)
  -- the nodes that are not next to the new one keep their pointers
  have hsame : ∀ y, y ≠ z → y ≠ before s pre j → forward hb y j = forward s.heap y j := by
    intro y hyz hyu
    rw [hw₂.forward, if_neg (fun h => hyu h.1), hw₁.forward, if_neg (fun h => hyz h.1),
      ht.forward y j hdone, h₁ y j hyz]
  have hnd := hr.nodup
  rw [← List.cons_append] at hnd
  refine ⟨hb, ?_, ht.level_done (hw₂.next.trans hw₁.next)
    (fun y => (hw₂.info y).trans (hw₁.info y)) (fun y i hij => ?_) ?_⟩
  · rw [linkAt, hupd]
    simp only [Option.bind_eq_bind, Option.bind_some, hfu, hrun₁]
    exact hrun₂
  · rw [hw₂.forward, if_neg (fun h => hij h.2), hw₁.forward, if_neg (fun h => hij h.2)]
  · have hp := hr.path j hj
    rw [level_append] at hp
    refine hp.relink ?_ (fun y hy hyu => ?_) ⟨?_, hpath.moved ?_ fun y hy => ?_⟩
    · exact (List.cons_sublist_cons.mpr level_sublist).nodup (List.nodup_append.mp hnd).1
    · refine hsame y (hz y ?_) hyu
      exact List.cons_subset_cons _ (fun w hw => List.mem_append_left _ (mem_level.mp hw).1) hy
    · exact (hw₂.forward _ j).trans (if_pos ⟨rfl, rfl⟩)
    · rw [hw₂.forward, if_neg (fun h => huz h.1.symm), hw₁.forward, if_pos ⟨rfl, rfl⟩,
        hpath.forward_eq]
    · have hy' := (mem_level.mp hy).1
      refine hsame y (hz y (List.mem_cons_of_mem _ (List.mem_append_right _ hy'))) ?_
      rintro rfl
      exact (List.nodup_append.mp hnd).2.2 _ hu _ hy' rfl

theorem info_zslCreateNode (h : NodeHeap) (level sc handler y : Nat) :
    info (zslCreateNode h level sc handler).2 y =
      if y = h.next then some ⟨sc, handler, level⟩ else info h y := by
  unfold zslCreateNode info
  split
  · rename_i hy
    rw [hy, Heap.get_alloc_self]
    rfl
  · rename_i hy
    rw [Heap.get_alloc_of_ne _ _ hy]

theorem forward_zslCreateNode (h : NodeHeap) (level sc handler : Nat) {y : Nat} (i : Nat)
    (hy : y ≠ h.next) : forward (zslCreateNode h level sc handler).2 y i = forward h y i := by
  unfold zslCreateNode forward
  rw [Heap.get_alloc_of_ne _ _ hy]

/-- The order of the nodes with a new one in its place. -/
theorem pairwise_insert (hs : (pre ++ post).Pairwise fun x y => sc h x ≤ sc h y)
    (hsame : ∀ y ∈ pre ++ post, sc h' y = sc h y) (hpre : ∀ x ∈ pre, sc h x < sc h' z)
    (hpost : ∀ x ∈ post, sc h' z ≤ sc h x) :
    (pre ++ z :: post).Pairwise fun x y => sc h' x ≤ sc h' y := by
  rw [List.pairwise_append, List.pairwise_cons]
  obtain ⟨h₁, h₂, h₃⟩ := List.pairwise_append.mp hs
  have hin₁ := fun y (hy : y ∈ pre) => hsame y (List.mem_append_left post hy)
  have hin₂ := fun y (hy : y ∈ post) => hsame y (List.mem_append_right pre hy)
  refine ⟨h₁.imp_of_mem fun hx hy hle => ?_, ⟨fun y hy => ?_, h₂.imp_of_mem fun hx hy hle => ?_⟩,
    fun x hx y hy => ?_⟩
  · rwa [hin₁ _ hx, hin₁ _ hy]
  · rw [hin₂ y hy]
    exact hpost y hy
  · rwa [hin₂ _ hx, hin₂ _ hy]
  · rw [hin₁ x hx]
    rcases List.mem_cons.mp hy with rfl | hy
    · exact Nat.le_of_lt (hpre x hx)
    · rw [hin₂ y hy]
      exact h₃ x hx y hy

theorem level_insert {lvl : Nat} (hz : lv h z = lvl) :
    level h i (pre ++ z :: post) =
      if i < lvl then level h i pre ++ z :: level h i post
      else level h i pre ++ level h i post := by
  rw [level_append, level, level, List.filter_cons, hz]
  split
  · rename_i hi
    rw [if_pos (of_decide_eq_true hi)]
    rfl
  · rename_i hi
    rw [if_neg (fun h => hi (decide_eq_true h))]
    rfl

/-- The heap of a list into which a node was linked on each of its levels. -/
structure Linked (s : Zskiplist) (pre post : List Nat) (z : Nat) (n : Info) (h' : NodeHeap) :
    Prop where
  next : h'.next = s.heap.next + 1
  info : ∀ y, info h' y = if y = z then some n else info s.heap y
  path : ∀ i, i < maxLevel → Path h' i s.header (level h' i (pre ++ z :: post))

theorem represents_of_linked {n : Info} (hl : Linked s pre post z n h')
    (hr : Represents s (pre ++ post)) (hznext : z = s.heap.next)
    (hpre : ∀ x ∈ pre, sc s.heap x < n.score) (hpost : ∀ x ∈ post, n.score ≤ sc s.heap x)
    (hpos : 1 ≤ n.levels) (hle : n.levels ≤ maxLevel) :
    Represents { s with
      heap := h'
      level := if s.level < n.levels then n.levels else s.level
      length := s.length + 1 } (pre ++ z :: post) := by
  -- the new node is not one of the old, so nothing about those has changed
  have hz : ∀ y ∈ s.header :: (pre ++ post), y ≠ z :=
    fun y hy => hznext ▸ Nat.ne_of_lt (hr.inside y hy)
  have hold : ∀ y ∈ s.header :: (pre ++ post), info h' y = info s.heap y :=
    fun y hy => by rw [hl.info, if_neg (hz y hy)]
  have hlv : ∀ y ∈ s.header :: (pre ++ post), lv h' y = lv s.heap y :=
    fun y hy => by rw [lv, hold y hy, ← lv]
  have hsc : ∀ y ∈ s.header :: (pre ++ post), sc h' y = sc s.heap y :=
    fun y hy => by rw [sc, hold y hy, ← sc]
  have hlvz : lv h' z = n.levels := by
    rw [lv, hl.info, if_pos rfl]
    rfl
  have hscz : sc h' z = n.score := by
    rw [sc, hl.info, if_pos rfl]
    rfl
  have hperm : (pre ++ z :: post).Perm (z :: (pre ++ post)) := List.perm_middle
  have htop : s.level ≤ (if s.level < n.levels then n.levels else s.level) ∧
      n.levels ≤ (if s.level < n.levels then n.levels else s.level) ∧
      (if s.level < n.levels then n.levels else s.level) ≤ maxLevel := by
    have := hr.level_le
    split <;> omega
  exact
    { header := (hlv _ List.mem_cons_self).trans hr.header
      nodes := by
        intro y hy
        show 1 ≤ lv h' y ∧ lv h' y ≤ if s.level < n.levels then n.levels else s.level
        rcases List.mem_cons.mp (hperm.mem_iff.mp hy) with rfl | hy
        · exact ⟨by omega, by omega⟩
        · have hy' := hr.nodes y hy
          have hlvy := hlv y (List.mem_cons_of_mem _ hy)
          exact ⟨by omega, by omega⟩
      inside := by
        intro y hy
        have hlt : ∀ x, x = z ∨ x ∈ s.header :: (pre ++ post) → x < h'.next := by
          rintro x (rfl | hx)
          · rw [hl.next, hznext]
            exact Nat.lt_succ_self _
          · rw [hl.next]
            exact Nat.lt_succ_of_lt (hr.inside x hx)
        rcases List.mem_cons.mp hy with rfl | hy
        · exact hlt _ (.inr List.mem_cons_self)
        · exact hlt y ((List.mem_cons.mp (hperm.mem_iff.mp hy)).imp id (List.mem_cons_of_mem _))
      nodup := by
        refine ((hperm.cons _).trans (.swap ..)).nodup_iff.mpr (List.nodup_cons.mpr ⟨?_, hr.nodup⟩)
        exact fun hin => hz z hin rfl
      sorted := pairwise_insert hr.sorted (fun y hy => hsc y (List.mem_cons_of_mem _ hy))
        (fun y hy => by rw [hscz]; exact hpre y hy) (fun y hy => by rw [hscz]; exact hpost y hy)
      path := hl.path
      length := by
        show s.length + 1 = _
        rw [hr.length, hperm.length_eq, List.length_cons, Int32.ofNat_add]
        rfl
      level_pos := Nat.le_trans hr.level_pos htop.1
      level_le := htop.2.2
      top := by
        by_cases hlt : s.level < n.levels
        · refine .inr ⟨z, by simp, ?_⟩
          rw [if_pos hlt]
          exact hlvz
        · rw [if_neg hlt]
          refine hr.top.imp id ?_
          rintro ⟨y, hy, hly⟩
          refine ⟨y, hperm.mem_iff.mpr ?_, ?_⟩
          · exact List.mem_cons_of_mem _ hy
          · exact (hlv y (List.mem_cons_of_mem _ hy)).trans hly }

/-- **Insertion** puts the new node before those of the same score, on every level it has. -/
theorem zslInsert_represents {lvl : Nat} (hd : Nat) (hr : Represents s (pre ++ post))
    (hpre : ∀ x ∈ pre, sc s.heap x < t) (hpost : ∀ x ∈ post, t ≤ sc s.heap x)
    (hpos : 1 ≤ lvl) (hle : lvl ≤ maxLevel) :
    ∃ s', zslInsert s lvl t hd = some (s.heap.next, s') ∧
      Represents s' (pre ++ s.heap.next :: post) ∧ s'.heap.next = s.heap.next + 1 ∧
      ∀ y, info s'.heap y = if y = s.heap.next then some ⟨t, hd, lvl⟩ else info s.heap y := by
  obtain ⟨update, hsearch, hupd⟩ := search_eq hr hpre hpost
  have hz : ∀ y ∈ s.header :: (pre ++ post), y ≠ s.heap.next :=
    fun y hy => Nat.ne_of_lt (hr.inside y hy)
  have hinfo := info_zslCreateNode s.heap lvl t hd
  have hlvz : lv (zslCreateNode s.heap lvl t hd).2 s.heap.next = lvl := by
    rw [lv, hinfo, if_pos rfl]
    rfl
  -- above the old levels there is only the header
  have hraised : ∀ i, i < lvl → (if s.level ≤ i ∧ i < lvl then some s.header else update i) =
      some (before s pre i) := by
    intro i hi
    split
    · rename_i habove
      rw [before, level_eq_nil fun x hx => ?_]
      · rfl
      · exact Nat.le_trans (hr.nodes x (List.mem_append_left _ hx)).2 habove.1
    · exact hupd i (by omega)
  obtain ⟨h', hrun, ht⟩ := forUp_inv
    (linkAt s.heap.next fun i => if s.level ≤ i ∧ i < lvl then some s.header else update i)
    (fun j h => Threaded (zslCreateNode s.heap lvl t hd).2 s.header
      (withNode s pre post s.heap.next) (· < j) h) 0 lvl _
    (Threaded.refl _ fun i => Nat.not_lt_zero i) (fun j h _ hj ht => by
      obtain ⟨h', hrun, ht'⟩ := linkAt_threaded
        (fun i => if s.level ≤ i ∧ i < lvl then some s.header else update i) hr hz
        (fun y i => forward_zslCreateNode s.heap lvl t hd i) ht (j := j) (by omega)
        (Nat.lt_irrefl j) (by omega) (hraised j (by omega))
      exact ⟨h', hrun, ht'.of_iff fun i => by omega⟩)
  rw [Nat.zero_add] at ht
  have hinfo' : ∀ y, info h' y = if y = s.heap.next then some ⟨t, hd, lvl⟩ else info s.heap y :=
    fun y => (ht.info y).trans (hinfo y)
  have hlevel : ∀ i ys, (∀ y ∈ ys, y ∈ pre ++ post) → level h' i ys = level s.heap i ys :=
    fun i ys hys => level_congr fun y hy => by
      rw [lv, hinfo', if_neg (hz y (List.mem_cons_of_mem _ (hys y hy))), ← lv]
  have hpre' := fun i => hlevel i pre fun y hy => List.mem_append_left post hy
  have hpost' := fun i => hlevel i post fun y hy => List.mem_append_right pre hy
  have hlinked : Linked s pre post s.heap.next ⟨t, hd, lvl⟩ h' := by
    refine ⟨ht.next, hinfo', fun i hi => ?_⟩
    rw [level_insert ((ht.lv _).trans hlvz), hpre', hpost']
    split
    · rename_i hlt
      exact ht.path i hlt hi
    · -- the new node is not on this level
      rename_i hge
      have hp := hr.path i hi
      rw [level_append] at hp
      refine hp.congr fun y hy => ?_
      rw [ht.forward y i hge]
      refine forward_zslCreateNode _ _ _ _ i (hz y ?_)
      rw [← level_append] at hy
      exact List.cons_subset_cons _ (fun w hw => (mem_level.mp hw).1) hy
  refine ⟨_, ?_, represents_of_linked hlinked hr rfl hpre hpost hpos hle, ht.next, hinfo'⟩
  unfold zslInsert
  rw [hsearch]
  simp only [Option.bind_eq_bind, Option.bind_some]
  exact congrArg (Option.bind · _) hrun

/-! ## Deletion -/

/-- What the chain of a level is once a node between `pre` and `post` is out of it. -/
def withoutNode (s : Zskiplist) (pre post : List Nat) (i : Nat) : List Nat :=
  level s.heap i pre ++ level s.heap i post

theorem unlinkAt_threaded (hr : Represents s (pre ++ x :: post))
    (ht : Threaded s.heap s.header (withoutNode s pre post) done h) (hj : j < maxLevel)
    (hdone : ¬ done j) :
    ∃ h', unlinkAt x (before s pre j) j h = some h' ∧
      Threaded s.heap s.header (withoutNode s pre post) (fun i => done i ∨ i = j) h' := by
  have hpath := hr.path_before hj
  have hfu : forward h (before s pre j) j = some (level s.heap j (x :: post)).head? := by
    rw [ht.forward _ j hdone, hpath.forward_eq]
  have hp := hr.path j hj
  rw [level_append] at hp
  have hnd := hr.nodup
  rw [← List.cons_append] at hnd
  obtain ⟨hnd₁, hnd₂, hdisj⟩ := List.nodup_append.mp hnd
  by_cases hlv : j < lv s.heap x
  · have hcons : level s.heap j (x :: post) = x :: level s.heap j post :=
      List.filter_cons_of_pos (decide_eq_true hlv)
    rw [hcons] at hfu hpath hp
    have hfx : forward h x j = some (level s.heap j post).head? := by
      rw [ht.forward _ j hdone, hpath.2.forward_eq]
    obtain ⟨h', hrun, hw⟩ := setForward_wrote (lt_lv_of_forward hfu) (level s.heap j post).head?
    have hsame : ∀ y, y ≠ before s pre j → forward h' y j = forward s.heap y j := by
      intro y hy
      rw [hw.forward, if_neg (fun h => hy h.1), ht.forward y j hdone]
    refine ⟨h', ?_, ht.level_done hw.next hw.info (fun y i hij => ?_) ?_⟩
    · unfold unlinkAt
      simp only [Option.bind_eq_bind, hfu, hfx, Option.bind_some, List.head?_cons, if_true]
      exact hrun
    · rw [hw.forward, if_neg (fun h => hij h.2)]
    · refine hp.relink ?_ (fun y _ hy => hsame y hy) (hpath.2.moved ?_ fun y hy => hsame y ?_)
      · exact (List.cons_sublist_cons.mpr level_sublist).nodup hnd₁
      · exact ((hw.forward _ j).trans (if_pos ⟨rfl, rfl⟩)).trans hpath.2.forward_eq.symm
      · rintro rfl
        exact hdisj _ (before_mem s pre j) _ (List.mem_cons_of_mem x (mem_level.mp hy).1) rfl
  · -- the node does not reach this level
    have hcons : level s.heap j (x :: post) = level s.heap j post :=
      List.filter_cons_of_neg (by simpa using hlv)
    rw [hcons] at hfu hp
    refine ⟨h, ?_, ht.level_done rfl (fun _ => rfl) (fun _ _ _ => rfl) ?_⟩
    · unfold unlinkAt
      simp only [Option.bind_eq_bind, hfu, Option.bind_some]
      rw [if_neg]
      intro hx
      have hin := mem_level.mp (List.mem_of_head? hx)
      exact (List.nodup_cons.mp hnd₂).1 hin.1
    · exact hp.congr fun y _ => ht.forward y j hdone

/-- The level goes down to the highest one that is not empty. -/
theorem lowerLevel_eq (n : Nat) (hpath : ∀ i, i < n → Path h i header (new i)) (hn : 1 ≤ n) :
    ∃ m, lowerLevel h header n = some m ∧ 1 ≤ m ∧ m ≤ n ∧
      (∀ i, m ≤ i → i < n → new i = []) ∧ (m = 1 ∨ new (m - 1) ≠ []) := by
  induction n with
  | zero => omega
  | succ n ih =>
      rw [lowerLevel]
      by_cases hn₁ : n + 1 > 1
      · have hf := (hpath n (Nat.lt_succ_self n)).forward_eq
        rw [if_pos hn₁, hf]
        simp only [Option.bind_eq_bind, Option.bind_some]
        by_cases hnil : new n = []
        · rw [if_pos (by rw [hnil]; rfl)]
          obtain ⟨m, hm, hpos, hle, hempty, htop⟩ :=
            ih (fun i hi => hpath i (Nat.lt_succ_of_lt hi)) (by omega)
          refine ⟨m, hm, hpos, by omega, fun i hmi hi => ?_, htop⟩
          rcases Nat.lt_or_ge i n with hlt | hge
          · exact hempty i hmi hlt
          · rwa [show i = n by omega]
        · rw [if_neg (by simpa using hnil)]
          exact ⟨n + 1, rfl, by omega, Nat.le_refl _, fun i h₁ h₂ => by omega, .inr hnil⟩
      · rw [if_neg hn₁]
        exact ⟨n + 1, rfl, by omega, Nat.le_refl _, fun i h₁ h₂ => by omega, .inl (by omega)⟩

theorem represents_of_unlinked (hr : Represents s (pre ++ x :: post))
    (ht : Threaded s.heap s.header (withoutNode s pre post) (· < s.level) h) :
    ∃ m, lowerLevel h s.header s.level = some m ∧
      Represents { s with heap := h, level := m, length := s.length - 1 } (pre ++ post) := by
  have hsub : ∀ y ∈ pre ++ post, y ∈ pre ++ x :: post := by
    intro y hy
    simp only [List.mem_append, List.mem_cons] at hy ⊢
    tauto
  have hsublist : (pre ++ post).Sublist (pre ++ x :: post) :=
    (List.Sublist.refl pre).append (List.sublist_cons_self x post)
  have hlevel : ∀ i, level h i (pre ++ post) = withoutNode s pre post i := by
    intro i
    rw [level_congr fun y _ => ht.lv y, level_append]
    rfl
  have hpath : ∀ i, i < maxLevel → Path h i s.header (level h i (pre ++ post)) := by
    intro i hi
    rw [hlevel]
    by_cases hlt : i < s.level
    · exact ht.path i hlt hi
    · -- above the old level nothing was there and nothing is
      have hnil : level s.heap i (pre ++ x :: post) = [] :=
        level_eq_nil fun y hy => Nat.le_trans (hr.nodes y hy).2 (Nat.not_lt.mp hlt)
      have hnew : withoutNode s pre post i = [] := by
        have := hsublist.filter fun x => i < lv s.heap x
        rw [← level, ← level, hnil, List.sublist_nil] at this
        rw [withoutNode, ← level_append, this]
      have hp := hr.path i hi
      rw [hnil] at hp
      rw [hnew]
      exact hp.congr fun y _ => ht.forward y i hlt
  have hmax := hr.level_le
  obtain ⟨m, hm, hpos, hle, hempty, htop⟩ := lowerLevel_eq s.level
    (fun i hi => hpath i (by omega)) hr.level_pos
  have hlv : ∀ y ∈ pre ++ post, 1 ≤ lv h y ∧ lv h y ≤ m := by
    intro y hy
    have hy' := hr.nodes y (hsub y hy)
    rw [ht.lv]
    refine ⟨hy'.1, Nat.not_lt.mp fun hlt => ?_⟩
    have hin : y ∈ level h m (pre ++ post) := mem_level.mpr ⟨hy, by rwa [ht.lv]⟩
    rw [hempty m (Nat.le_refl m) (by omega)] at hin
    exact absurd hin List.not_mem_nil
  refine ⟨m, hm, ?_⟩
  exact
    { header := (ht.lv _).trans hr.header
      nodes := hlv
      inside := by
        intro y hy
        rw [ht.next]
        exact hr.inside y (List.cons_subset_cons _ hsub hy)
      nodup := (List.cons_sublist_cons.mpr hsublist).nodup hr.nodup
      sorted := by
        refine (hr.sorted.sublist hsublist).imp fun {a b} hab => ?_
        show sc h a ≤ sc h b
        rw [sc, sc, ht.info, ht.info]
        exact hab
      path := hpath
      length := by
        show s.length - 1 = _
        rw [hr.length, List.perm_middle.length_eq, List.length_cons, Int32.ofNat_add]
        exact Int32.add_sub_cancel _ _
      level_pos := hpos
      level_le := by
        show m ≤ maxLevel
        omega
      top := by
        refine htop.imp id fun hne => ?_
        obtain ⟨y, hy⟩ := List.exists_mem_of_ne_nil _ hne
        obtain ⟨hy, hlt⟩ := mem_level.mp hy
        have := hlv y hy
        exact ⟨y, hy, by show lv h y = m; omega⟩ }

theorem info_erase {y : Nat} (hy : y ≠ x) : info (h.erase x) y = info h y := by
  rw [info, Heap.get_erase_of_ne _ hy, info]

/-- A node that is not in the list may be freed. -/
theorem Represents.free (hr : Represents s xs) (hlive : (info s.heap x).isSome)
    (hx : x ∉ s.header :: xs) :
    s.heap.free x = some (s.heap.erase x) ∧ Represents { s with heap := s.heap.erase x } xs := by
  have hne : ∀ y ∈ s.header :: xs, y ≠ x := fun y hy he => hx (he ▸ hy)
  have hlv : ∀ y ∈ s.header :: xs, lv (s.heap.erase x) y = lv s.heap y :=
    fun y hy => by rw [lv, info_erase (hne y hy), ← lv]
  have hsc : ∀ y ∈ xs, sc (s.heap.erase x) y = sc s.heap y :=
    fun y hy => by rw [sc, info_erase (hne y (List.mem_cons_of_mem _ hy)), ← sc]
  refine ⟨?_, ?_⟩
  · cases hg : s.heap.get x with
    | none => rw [info, hg] at hlive; exact absurd hlive (by simp)
    | some n => exact Heap.free_eq hg
  · exact
      { header := (hlv _ List.mem_cons_self).trans hr.header
        nodes := by
          intro y hy
          show 1 ≤ lv (s.heap.erase x) y ∧ lv (s.heap.erase x) y ≤ s.level
          rw [hlv y (List.mem_cons_of_mem _ hy)]
          exact hr.nodes y hy
        inside := hr.inside
        nodup := hr.nodup
        sorted := by
          refine hr.sorted.imp_of_mem fun {a b} ha hb hab => ?_
          show sc (s.heap.erase x) a ≤ sc (s.heap.erase x) b
          rwa [hsc a ha, hsc b hb]
        path := by
          intro i hi
          show Path (s.heap.erase x) i s.header (level (s.heap.erase x) i xs)
          rw [level_congr fun y hy => hlv y (List.mem_cons_of_mem _ hy)]
          refine (hr.path i hi).congr fun y hy => ?_
          rw [forward, Heap.get_erase_of_ne, forward]
          refine hne y (List.cons_subset_cons _ (fun w hw => ?_) hy)
          exact (mem_level.mp hw).1
        length := hr.length
        level_pos := hr.level_pos
        level_le := hr.level_le
        top := by
          refine hr.top.imp id ?_
          rintro ⟨y, hy, hly⟩
          exact ⟨y, hy, (hlv y (List.mem_cons_of_mem _ hy)).trans hly⟩ }

/-- **`zslDeleteHead`** takes out the first node. -/
theorem zslDeleteHead_represents (hr : Represents s (x :: xs)) :
    ∃ s', zslDeleteHead s = some s' ∧ Represents s' xs ∧ s'.heap.next = s.heap.next ∧
      ∀ y, info s'.heap y = info s.heap y := by
  have hr : Represents s ([] ++ x :: xs) := hr
  have hmin : zslMin s = some (some x) := by
    have hp := hr.path_before (i := 0) (by decide)
    have hcons : level s.heap 0 (x :: xs) = x :: level s.heap 0 xs :=
      List.filter_cons_of_pos (decide_eq_true (hr.nodes x List.mem_cons_self).1)
    rw [hcons] at hp
    exact hp.1
  have hmax := hr.level_le
  obtain ⟨h', hrun, ht⟩ := forDown_inv (unlinkAt x s.header)
    (fun j h => Threaded s.heap s.header (withoutNode s [] xs) (fun i => j ≤ i ∧ i < s.level) h)
    0 s.level s.heap (Threaded.refl _ fun i => by omega) (fun j h _ hj ht => by
      obtain ⟨h', hrun, ht'⟩ := unlinkAt_threaded hr ht (j := j) (by omega)
        (fun hd => by omega)
      exact ⟨h', hrun, ht'.of_iff fun i => by omega⟩)
  have ht : Threaded s.heap s.header (withoutNode s [] xs) (· < s.level) h' :=
    ht.of_iff fun i => by omega
  obtain ⟨m, hm, hr'⟩ := represents_of_unlinked hr ht
  refine ⟨_, ?_, hr', ht.next, ht.info⟩
  unfold zslDeleteHead
  rw [hmin]
  simp only [Option.bind_eq_bind, Option.bind_some]
  rw [hrun, Option.bind_some, hm, Option.bind_some]

theorem zslDeleteHead_empty (hr : Represents s []) : zslDeleteHead s = some s := by
  have hmin : zslMin s = some none := hr.path 0 (by decide)
  unfold zslDeleteHead
  rw [hmin]
  rfl

/-- **`zslDelete`** takes out the first node that has the score of the one it is given. -/
theorem zslDelete_represents {zn : Nat} (hr : Represents s (pre ++ x :: post))
    (hzn : zn ∈ pre ++ x :: post) (hpre : ∀ y ∈ pre, sc s.heap y < sc s.heap zn)
    (hx : sc s.heap x = sc s.heap zn) :
    ∃ s', zslDelete s zn = some s' ∧ Represents s' (pre ++ post) ∧ s'.heap.next = s.heap.next ∧
      (∀ y, y ≠ x → info s'.heap y = info s.heap y) ∧ info s'.heap x = none := by
  have hpost : ∀ y ∈ x :: post, sc s.heap zn ≤ sc s.heap y := by
    intro y hy
    rw [← hx]
    rcases List.mem_cons.mp hy with rfl | hy
    · exact Nat.le_refl _
    · exact (List.pairwise_cons.mp (List.pairwise_append.mp hr.sorted).2.1).1 y hy
  obtain ⟨update, hsearch, hupd⟩ := search_eq hr hpre hpost
  have hxin : x ∈ pre ++ x :: post := by simp
  have hfirst : forward s.heap (before s pre 0) 0 = some (some x) := by
    have hp := hr.path_before (i := 0) (by decide)
    have hcons : level s.heap 0 (x :: post) = x :: level s.heap 0 post :=
      List.filter_cons_of_pos (decide_eq_true (hr.nodes x hxin).1)
    rw [hcons] at hp
    exact hp.1
  have hmax := hr.level_le
  obtain ⟨h', hrun, ht⟩ := forUp_inv (fun i h => (update i).bind fun u => unlinkAt x u i h)
    (fun j h => Threaded s.heap s.header (withoutNode s pre post) (· < j) h)
    0 s.level s.heap (Threaded.refl _ fun i => Nat.not_lt_zero i) (fun j h _ hj ht => by
      obtain ⟨h', hrun, ht'⟩ := unlinkAt_threaded hr ht (j := j) (by omega) (Nat.lt_irrefl j)
      refine ⟨h', ?_, ht'.of_iff fun i => by omega⟩
      rw [hupd j (by omega)]
      exact hrun)
  rw [Nat.zero_add] at ht
  obtain ⟨m, hm, hr'⟩ := represents_of_unlinked hr ht
  have hout : x ∉ s.header :: (pre ++ post) := by
    have hperm : (s.header :: (pre ++ x :: post)).Perm (x :: s.header :: (pre ++ post)) :=
      (List.perm_middle.cons _).trans (.swap ..)
    exact (List.nodup_cons.mp (hperm.nodup_iff.mp hr.nodup)).1
  obtain ⟨hfree, hr''⟩ := hr'.free (x := x)
    (by
      show (info h' x).isSome
      rw [ht.info]
      exact hr.live (List.mem_cons_of_mem _ hxin)) hout
  have hgone : info (h'.erase x) x = none := by
    rw [info, Heap.get_erase_self]
    rfl
  refine ⟨_, ?_, hr'', ht.next, fun y hy => (info_erase hy).trans (ht.info y), hgone⟩
  unfold zslDelete zslDeleteNode
  rw [score_eq (hr.live (List.mem_cons_of_mem _ hzn))]
  simp only [Option.bind_eq_bind, Option.bind_some, hsearch, hfirst,
    score_eq (hr.live (List.mem_cons_of_mem _ hxin)), hx, if_true]
  rw [hrun, Option.bind_some, hm, Option.bind_some, Option.bind_some, hfree, Option.bind_some]

end

end CppTrack.SkipList
