import CppTrack.Timers.NgxRbtreeQueue

/-!
# Runs of the red-black tree

Both functions that hang a node in keep the order of the row: the one for values always, and the
one for timers where all keys lie within half a turn of the clock. The first node is found in
logarithmic time, and from each node the next.
-/

namespace CppTrack.Ngx

open Lib Coloured

variable {before : BitVec 32 → BitVec 32 → Bool} {T T' : NgxRbtree} {t l r : Coloured Nat}
  {es pre post : List Entry} {e : Entry} {up : List (Frame Nat)} {ks : List (BitVec 32)}
  {base k : BitVec 32} {s p i q z fuel : Nat} {c : Color} {ops : List Op}

/-! ## The two comparisons -/

theorem not_keyBefore {k k' : BitVec 32} : keyBefore k k' = false ↔ k' ≤ k :=
  decide_eq_false_iff_not.trans BitVec.not_lt

theorem orders_keyBefore (ks : List (BitVec 32)) : Orders keyBefore ks := by
  constructor
  · intro a _ b _ hab
    rw [keyBefore, decide_eq_true_iff, BitVec.lt_def] at hab
    rw [not_keyBefore, BitVec.le_def]
    omega
  · intro a _ b _ c _ hab hcb
    rw [keyBefore, decide_eq_true_iff, BitVec.lt_def] at hab
    rw [not_keyBefore, BitVec.le_def] at hcb
    rw [keyBefore, decide_eq_true_iff, BitVec.lt_def]
    omega

theorem timerBefore_iff (h : Within base k) {k' : BitVec 32} (h' : Within base k') :
    timerBefore k k' = true ↔ ahead base k < ahead base k' := by
  have hsub : (k - k').toInt = ahead base k - ahead base k' := ahead_sub h' h
  rw [timerBefore, decide_eq_true_iff, hsub]
  omega

theorem orders_timerBefore (h : ∀ k ∈ ks, Within base k) : Orders timerBefore ks := by
  constructor
  · intro a ha b hb hab
    rw [timerBefore_iff (h a ha) (h b hb)] at hab
    rw [← Bool.not_eq_true, timerBefore_iff (h b hb) (h a ha)]
    omega
  · intro a ha b hb c hc hab hcb
    rw [timerBefore_iff (h a ha) (h b hb)] at hab
    rw [← Bool.not_eq_true, timerBefore_iff (h c hc) (h b hb)] at hcb
    rw [timerBefore_iff (h a ha) (h c hc)]
    omega

/-- There is room for the key within half a turn of the clock. -/
def Room (es : List Entry) : Op → Prop
  | .insert _ k => ∃ base, ∀ k' ∈ k :: es.map Entry.key, Within base k'
  | .delete _ => True

theorem Room.comparable {op : Op} (h : Room es op) : Comparable timerBefore es op := by
  cases op with
  | insert a k =>
      obtain ⟨base, hwithin⟩ := h
      exact orders_timerBefore hwithin
  | delete a => trivial

theorem comparable_keyBefore (es : List Entry) (op : Op) : Comparable keyBefore es op := by
  cases op with
  | insert a k => exact orders_keyBefore _
  | delete a => trivial

/-! ## Whole runs -/

/-- A weaker condition is met as well. -/
theorem meets_weaken {ok ok' : List Entry → Op → Prop} (h : Meets (stepRow before) ok es ops)
    (himp : ∀ es op, ok es op → ok' es op) : Meets (stepRow before) ok' es ops :=
  Meets.mono ok' (fun _ _ _ (_ : True) _ _ => trivial) (fun es op _ => himp es op) ops trivial h

/-- What a program may do with the tree. -/
def Allowed (before : BitVec 32 → BitVec 32 → Bool) (sentinel : Nat) (es : List Entry)
    (op : Op) : Prop := Usable sentinel es op ∧ Comparable before es op

theorem init_run (T : NgxRbtree) (hlegal : Meets (stepRow before) (Allowed before s) [] ops)
    (hfuel : ops.length < fuel) :
    ∃ T' es, run (step before fuel) (ngxRbtreeInit T s) ops = some T' ∧
      run (stepRow before) [] ops = some es ∧ Shows before s T' es := by
  refine (ngxRbtreeInit_shows T s).run ops hlegal ?_
  rw [List.length_nil, Nat.zero_add]
  exact hfuel

/-- The tree of `ngx_rbtree_insert_value`. -/
theorem ngxRbtreeInsertValue_run (T : NgxRbtree) (s fuel : Nat) (ops : List Op)
    (hlegal : Meets (stepRow keyBefore) (Usable s) [] ops) (hfuel : ops.length < fuel) :
    ∃ T' es, run (step keyBefore fuel) (ngxRbtreeInit T s) ops = some T' ∧
      run (stepRow keyBefore) [] ops = some es ∧ Shows keyBefore s T' es ∧
      es.Pairwise fun a b => a.key ≤ b.key := by
  have hallowed : Meets (stepRow keyBefore) (Allowed keyBefore s) [] ops :=
    meets_weaken hlegal fun es op husable => ⟨husable, comparable_keyBefore es op⟩
  obtain ⟨T', es, hrun, hrow, hshows⟩ := init_run T hallowed hfuel
  exact ⟨T', es, hrun, hrow, hshows, hshows.sorted.imp fun h => not_keyBefore.mp h⟩

theorem ngxRbtreeInsertValue_run_three : ∃ T' es,
    run (step keyBefore 4) (ngxRbtreeInit ⟨0, 0, fun _ => ⟨0, 0, 0, 0, 0⟩⟩ 1)
      [.insert 2 5, .insert 3 4, .delete 2] = some T' ∧
    run (stepRow keyBefore) [] [.insert 2 5, .insert 3 4, .delete 2] = some es ∧
    Shows keyBefore 1 T' es ∧ es.Pairwise fun a b => a.key ≤ b.key :=
  ngxRbtreeInsertValue_run _ 1 4 _ (by decide) (by decide)

/-- The tree of `ngx_rbtree_insert_timer_value`: seen from a reading of the clock that is within
half a turn of all of them, no timer is due before an earlier one. -/
theorem ngxRbtreeInsertTimerValue_run (T : NgxRbtree) (s fuel : Nat) (ops : List Op)
    (hlegal : Meets (stepRow timerBefore) (fun es op => Usable s es op ∧ Room es op) [] ops)
    (hfuel : ops.length < fuel) :
    ∃ T' es, run (step timerBefore fuel) (ngxRbtreeInit T s) ops = some T' ∧
      run (stepRow timerBefore) [] ops = some es ∧ Shows timerBefore s T' es ∧
      ∀ base, (∀ e ∈ es, Within base e.key) →
        es.Pairwise fun a b => ahead base a.key ≤ ahead base b.key := by
  have hallowed : Meets (stepRow timerBefore) (Allowed timerBefore s) [] ops :=
    meets_weaken hlegal fun es op h => ⟨h.1, h.2.comparable⟩
  obtain ⟨T', es, hrun, hrow, hshows⟩ := init_run T hallowed hfuel
  refine ⟨T', es, hrun, hrow, hshows, fun base hwithin => hshows.sorted.imp_of_mem ?_⟩
  intro a b ha hb hab
  rw [← Bool.not_eq_true, timerBefore_iff (hwithin b hb) (hwithin a ha)] at hab
  exact Int.not_lt.mp hab

/-- The clock wraps between the two. -/
theorem ngxRbtreeInsertTimerValue_run_two : ∃ T' es,
    run (step timerBefore 3) (ngxRbtreeInit ⟨0, 0, fun _ => ⟨0, 0, 0, 0, 0⟩⟩ 1)
      [.insert 2 7, .insert 3 0xfffffff0] = some T' ∧
    run (stepRow timerBefore) [] [.insert 2 7, .insert 3 0xfffffff0] = some es ∧
    Shows timerBefore 1 T' es ∧ ∀ base, (∀ e ∈ es, Within base e.key) →
      es.Pairwise fun a b => ahead base a.key ≤ ahead base b.key := by
  have hfirst : Room [] (.insert 2 7) := ⟨0, by simp [Within]⟩
  have hsecond : Room [⟨2, 7⟩] (.insert 3 0xfffffff0) := ⟨0xfffffff0, by simp [Within]⟩
  refine ngxRbtreeInsertTimerValue_run _ 1 3 _ ⟨⟨by decide, hfirst⟩, fun es hes => ?_⟩ (by decide)
  obtain rfl := Option.some.inj hes
  exact ⟨⟨by decide, hsecond⟩, fun _ _ => trivial⟩

/-! ## The first node -/

theorem Shows.root_ne (h : Shows before s T (e :: es)) : T.root ≠ T.sentinel :=
  fun heq => List.cons_ne_nil e es (h.root_iff.mp heq)

theorem Shows.first (h : Shows before s T (e :: es)) (hfuel : depth (e :: es).length ≤ fuel) :
    ngxRbtreeMin T fuel T.root = some e.node := by
  obtain ⟨t, hholds, hentries, hheight⟩ := h.height
  obtain ⟨p, hfocus⟩ := hholds.focus
  obtain ⟨m, path, q, c, r, hmin, hlefts, -, rfl⟩ :=
    ngxRbtreeMin_leads hfocus h.root_ne (Nat.le_trans hheight hfuel)
  rw [hmin]
  rw [entries, labels_fill, around_left hlefts] at hentries
  exact congrArg (fun e => some e.node) (List.cons.inj hentries).1

/-- After any run `ngx_rbtree_min` finds the first node, and an insertion the place for another, on
a way that is at most twice as long as the logarithm of the number of nodes. -/
theorem logarithmic_run (before : BitVec 32 → BitVec 32 → Bool) (T : NgxRbtree) (s fuel : Nat)
    (ops : List Op) (hlegal : Meets (stepRow before) (Allowed before s) [] ops)
    (hfuel : ops.length < fuel) :
    ∃ T' es, run (step before fuel) (ngxRbtreeInit T s) ops = some T' ∧
      run (stepRow before) [] ops = some es ∧ ∀ e rest, es = e :: rest → ∀ turns,
        2 * Nat.log2 (es.length + 1) ≤ turns →
          ngxRbtreeMin T' turns T'.root = some e.node ∧
          (∀ a ∈ rest, before a.key e.key = false) ∧
          ∀ z, (insertPlace before T' z turns T'.root).isSome = true := by
  obtain ⟨T', es, hrun, hrow, hshows⟩ := init_run T hlegal hfuel
  refine ⟨T', es, hrun, hrow, ?_⟩
  intro e rest heq turns hlog
  subst heq
  have hturns : depth (e :: rest).length ≤ turns := Nat.le_trans (Nat.min_le_right _ _) hlog
  refine ⟨hshows.first hturns, (List.pairwise_cons.mp hshows.sorted).1, fun z => ?_⟩
  obtain ⟨t, hholds, hentries, hheight⟩ := hshows.height
  obtain ⟨p, hfocus⟩ := hholds.focus
  obtain ⟨f, path, hplace, -⟩ :
      ∃ (f : Frame Nat) (path : List (Frame Nat)),
        insertPlace before T' z turns T'.root = some (f.label, f.side) ∧ _ :=
    insertPlace_leads hfocus hshows.root_ne (Nat.le_trans hheight hturns)
  rw [hplace]
  rfl

theorem logarithmic_run_three : ∃ T' es,
    run (step keyBefore 4) (ngxRbtreeInit ⟨0, 0, fun _ => ⟨0, 0, 0, 0, 0⟩⟩ 1)
      [.insert 2 5, .insert 3 4, .insert 4 6] = some T' ∧
    run (stepRow keyBefore) [] [.insert 2 5, .insert 3 4, .insert 4 6] = some es ∧
    ∀ e rest, es = e :: rest → ∀ turns, 2 * Nat.log2 (es.length + 1) ≤ turns →
      ngxRbtreeMin T' turns T'.root = some e.node ∧ (∀ a ∈ rest, keyBefore a.key e.key = false) ∧
      ∀ z, (insertPlace keyBefore T' z turns T'.root).isSome = true := by
  have husable : Meets (stepRow keyBefore) (Usable 1) []
      [.insert 2 5, .insert 3 4, .insert 4 6] := by decide
  exact logarithmic_run keyBefore _ 1 4 _
    (meets_weaken husable fun es op h => ⟨h, comparable_keyBefore es op⟩) (by decide)

/-- After any run an insertion or a deletion ends, though each of its loops makes at most one turn
more than twice the logarithm of the number of nodes. -/
theorem logarithmic_step_run (before : BitVec 32 → BitVec 32 → Bool) (T : NgxRbtree) (s fuel : Nat)
    (ops : List Op) (hlegal : Meets (stepRow before) (Allowed before s) [] ops)
    (hfuel : ops.length < fuel) :
    ∃ T' es, run (step before fuel) (ngxRbtreeInit T s) ops = some T' ∧
      run (stepRow before) [] ops = some es ∧ ∀ op, Allowed before s es op → ∀ turns,
        2 * Nat.log2 (es.length + 1) < turns → ∃ T'' es', step before turns T' op = some T'' ∧
          stepRow before es op = some es' ∧ Shows before s T'' es' := by
  obtain ⟨T', es, hrun, hrow, hshows⟩ := init_run T hlegal hfuel
  refine ⟨T', es, hrun, hrow, ?_⟩
  intro op hallowed turns hlog
  have hturns : depth es.length < turns := Nat.lt_of_le_of_lt (Nat.min_le_right _ _) hlog
  obtain ⟨T'', es', hstep, hrow', hshows', -⟩ := hshows.step hallowed.1 hallowed.2 hturns
  exact ⟨T'', es', hstep, hrow', hshows'⟩

theorem logarithmic_step_run_three : ∃ T' es,
    run (step keyBefore 4) (ngxRbtreeInit ⟨0, 0, fun _ => ⟨0, 0, 0, 0, 0⟩⟩ 1)
      [.insert 2 5, .insert 3 4, .insert 4 6] = some T' ∧
    run (stepRow keyBefore) [] [.insert 2 5, .insert 3 4, .insert 4 6] = some es ∧
    ∀ op, Allowed keyBefore 1 es op → ∀ turns, 2 * Nat.log2 (es.length + 1) < turns →
      ∃ T'' es', step keyBefore turns T' op = some T'' ∧ stepRow keyBefore es op = some es' ∧
        Shows keyBefore 1 T'' es' := by
  have husable : Meets (stepRow keyBefore) (Usable 1) []
      [.insert 2 5, .insert 3 4, .insert 4 6] := by decide
  exact logarithmic_step_run keyBefore _ 1 4 _
    (meets_weaken husable fun es op h => ⟨h, comparable_keyBefore es op⟩) (by decide)

/-! ## The next node -/

/-- Up to the first node that is reached from the left. -/
theorem nextLoop_up (h : Focus T up p i t) (hi : i ≠ T.sentinel) (hfuel : up.length < fuel) :
    nextLoop T fuel i = some (((around up).2.head?).getD null) := by
  induction fuel generalizing up p i t with
  | zero => exact absurd hfuel (Nat.not_lt_zero _)
  | succ fuel ih =>
      unfold nextLoop
      cases up with
      | nil =>
          rw [if_pos ((h.eq_root_iff hi).mpr rfl)]
          rfl
      | cons f up =>
          have hroot : i ≠ T.root := fun heq => List.cons_ne_nil f up ((h.eq_root_iff hi).mp heq)
          have hside := h.side_eq (fun heq => absurd heq hi) .left
          have hpar := h.parent_eq hi
          obtain ⟨hp, hnull, -⟩ := h.above
          rw [if_neg hroot, hpar]
          split
          case isTrue heq =>
            -- what is above and to the right begins with the parent
            rw [around, ← hside.mp heq, hp]
            rfl
          case isFalse hne =>
            cases hf : f.side with
            | left => exact absurd (hside.mpr hf.symm) hne
            | right =>
                rw [around, hf]
                exact ih h.ascend hnull (Nat.lt_of_succ_lt_succ hfuel)

/-- The node after this one. -/
theorem next_eq (h : Focus T up q z (.node c l z r)) (hheight : r.height ≤ fuel)
    (hpath : up.length < fuel) :
    ngxRbtreeNext fuel T z = some (((r.labels ++ (around up).2).head?).getD null) := by
  obtain ⟨-, hz, -, -, -, hr⟩ := h.held
  unfold ngxRbtreeNext
  split
  case isTrue hright =>
    have hdown : Focus T (⟨.right, c, z, l⟩ :: up) z (T.child .right z) r := h.descend
    obtain ⟨m, path, q', d, r', hmin, hlefts, -, rfl⟩ := ngxRbtreeMin_leads hdown hright hheight
    rw [labels_fill, around_left hlefts]
    exact hmin
  case isFalse hnil =>
    obtain rfl := hr.eq_nil (not_not.mp hnil)
    exact nextLoop_up h hz hpath

theorem Shows.next (h : Shows before s T (pre ++ e :: post))
    (hfuel : (pre ++ e :: post).length < fuel) :
    ngxRbtreeNext fuel T e.node = some ((post.head?.map Entry.node).getD null) := by
  obtain ⟨t, hholds, hentries, hlength⟩ := h.length
  obtain ⟨p, hfocus⟩ := hholds.focus
  have hlabels : t.labels = pre.map Entry.node ++ e.node :: post.map Entry.node := by
    have hmap := congrArg (List.map Entry.node) hentries
    rw [entries, List.map_map, List.map_append, List.map_cons] at hmap
    rw [← hmap]
    exact (List.map_id _).symm
  have he : e.node ∈ t.labels := by
    rw [hlabels]
    exact List.mem_append_right _ List.mem_cons_self
  obtain ⟨up, q, c, l, r, hplace, hfill⟩ := hfocus.find he
  rw [List.append_nil] at hplace
  have hnodup := hholds.nodup
  have hsplit :
      t.labels = ((around up).1 ++ l.labels) ++ e.node :: (r.labels ++ (around up).2) := by
    rw [← hfill, labels_fill, labels]
    simp only [List.append_assoc, List.cons_append]
  -- a node stands in the row once
  have honce : ∀ A B : List Nat, t.labels = A ++ e.node :: B → e.node ∉ A ∧ e.node ∉ B := by
    intro A B hAB
    rw [hAB] at hnodup
    obtain ⟨-, hB, hdisj⟩ := List.nodup_append'.mp hnodup
    exact ⟨fun hmem => hdisj hmem List.mem_cons_self, (List.nodup_cons.mp hB).1⟩
  obtain ⟨hleft, hright⟩ := honce _ _ hsplit
  obtain ⟨-, -, hpost⟩ :=
    (List.append_cons_inj_of_notMem hleft hright).mp (hsplit.symm.trans hlabels)
  have hheight : r.height ≤ fuel := by
    have hlen : r.labels.length ≤ t.labels.length := by
      rw [hsplit]
      simp only [List.length_append, List.length_cons]
      omega
    have hall : t.labels.length < fuel := hlength ▸ hfuel
    exact Nat.le_trans r.height_le_length (Nat.le_trans hlen (Nat.le_of_lt hall))
  have hpath : up.length < fuel := by
    have hlt := lt_height_fill c l e.node r up
    rw [hfill] at hlt
    have hheight := t.height_le_length
    omega
  rw [next_eq hplace hheight hpath, hpost, List.head?_map]

/-- After any run `ngx_rbtree_next` leads from each node to the one behind it, and from the last
one to none. -/
theorem ngxRbtreeNext_run (before : BitVec 32 → BitVec 32 → Bool) (T : NgxRbtree) (s fuel : Nat)
    (ops : List Op) (hlegal : Meets (stepRow before) (Allowed before s) [] ops)
    (hfuel : ops.length < fuel) :
    ∃ T' es, run (step before fuel) (ngxRbtreeInit T s) ops = some T' ∧
      run (stepRow before) [] ops = some es ∧ ∀ pre e post, es = pre ++ e :: post → ∀ turns,
        es.length < turns →
          ngxRbtreeNext turns T' e.node = some ((post.head?.map Entry.node).getD null) := by
  obtain ⟨T', es, hrun, hrow, hshows⟩ := init_run T hlegal hfuel
  refine ⟨T', es, hrun, hrow, ?_⟩
  intro pre e post heq turns hturns
  subst heq
  exact hshows.next hturns

theorem ngxRbtreeNext_run_three : ∃ T' es,
    run (step keyBefore 4) (ngxRbtreeInit ⟨0, 0, fun _ => ⟨0, 0, 0, 0, 0⟩⟩ 1)
      [.insert 2 5, .insert 3 4, .insert 4 6] = some T' ∧
    run (stepRow keyBefore) [] [.insert 2 5, .insert 3 4, .insert 4 6] = some es ∧
    ∀ pre e post, es = pre ++ e :: post → ∀ turns, es.length < turns →
      ngxRbtreeNext turns T' e.node = some ((post.head?.map Entry.node).getD null) := by
  have husable : Meets (stepRow keyBefore) (Usable 1) []
      [.insert 2 5, .insert 3 4, .insert 4 6] := by decide
  exact ngxRbtreeNext_run keyBefore _ 1 4 _
    (meets_weaken husable fun es op h => ⟨h, comparable_keyBefore es op⟩) (by decide)

end CppTrack.Ngx
