import CppTrack.Lib.Clock
import CppTrack.Lib.Run
import CppTrack.Timers.NgxRbtreeErase

/-!
# The red-black tree as a queue

What the tree is for is said without it: its nodes stand in a row in the order of their keys, and
among equal keys the older one is first. A run of insertions and deletions of the tree is compared
with the same run of the row.
-/

namespace CppTrack.Ngx

open Lib Coloured

/-! ## The row -/

/-- A node and its key. -/
structure Entry where
  node : Nat
  key : BitVec 32
  deriving DecidableEq

/-- A caller stores the key and inserts the node, or deletes a node. -/
inductive Op
  | insert (node : Nat) (key : BitVec 32)
  | delete (node : Nat)

variable (before : BitVec 32 → BitVec 32 → Bool)

/-- Behind the last entry that does not come after it. -/
def enqueue (e : Entry) (es : List Entry) : List Entry :=
  es.takeWhile (fun a => !before e.key a.key) ++ e :: es.dropWhile fun a => !before e.key a.key

def stepRow (es : List Entry) : Op → Option (List Entry)
  | .insert a k => some (enqueue before ⟨a, k⟩ es)
  | .delete a => some (es.filter fun e => e.node ≠ a)

/-- The comparison orders these keys, as far as it can tell them apart. -/
structure Orders (ks : List (BitVec 32)) : Prop where
  asymm : ∀ a ∈ ks, ∀ b ∈ ks, before a b = true → before b a = false
  trans : ∀ a ∈ ks, ∀ b ∈ ks, ∀ c ∈ ks, before a b = true → before c b = false → before a c = true

/-- A node is inserted when it is not in the tree, and deleted when it is. -/
def Usable (sentinel : Nat) (es : List Entry) : Op → Prop
  | .insert a _ => a ≠ sentinel ∧ ∀ e ∈ es, e.node ≠ a
  | .delete a => ∃ e ∈ es, e.node = a

instance (sentinel : Nat) (es : List Entry) : (op : Op) → Decidable (Usable sentinel es op)
  | .insert _ _ => inferInstanceAs (Decidable (_ ∧ _))
  | .delete _ => inferInstanceAs (Decidable (∃ _ ∈ _, _))

/-- The keys can be compared when one is added. -/
def Comparable (es : List Entry) : Op → Prop
  | .insert _ k => Orders before (k :: es.map Entry.key)
  | .delete _ => True

/-- None comes before an earlier one. -/
def Sorted (es : List Entry) : Prop := es.Pairwise fun a b => before b.key a.key = false

/-! ## The tree -/

def step (fuel : Nat) (T : NgxRbtree) : Op → Option NgxRbtree
  | .insert a k => ngxRbtreeInsert (insertValue before) fuel (T.setKey a k) a
  | .delete a => ngxRbtreeDelete fuel T a

/-- The row that the tree stands for. -/
def entries (T : NgxRbtree) (t : Coloured Nat) : List Entry := t.labels.map fun a => ⟨a, T.key a⟩

/-- The tree in memory stands for this row. -/
structure Shows (sentinel : Nat) (T : NgxRbtree) (es : List Entry) : Prop where
  sentinel : T.sentinel = sentinel
  tree : ∃ t, Holds T t ∧ entries T t = es
  sorted : Sorted before es

variable {before} {T T' : NgxRbtree} {t t' : Coloured Nat} {es es' : List Entry} {z s : Nat}
  {k : BitVec 32} {fuel : Nat}

theorem entries_length (T : NgxRbtree) (t : Coloured Nat) :
    (entries T t).length = t.labels.length := List.length_map _

theorem Shows.length (h : Shows before s T es) :
    ∃ t, Holds T t ∧ entries T t = es ∧ t.labels.length = es.length := by
  obtain ⟨t, hholds, rfl⟩ := h.tree
  exact ⟨t, hholds, rfl, (entries_length T t).symm⟩

/-- How far it is down at most in a tree of `n` nodes. -/
def depth (n : Nat) : Nat := min n (2 * Nat.log2 (n + 1))

theorem depth_lt {n : Nat} (h : n < fuel) : depth n < fuel :=
  Nat.lt_of_le_of_lt (Nat.min_le_left _ _) h

theorem Shows.height (h : Shows before s T es) :
    ∃ t, Holds T t ∧ entries T t = es ∧ t.height ≤ depth es.length := by
  obtain ⟨t, hholds, hentries, hlength⟩ := h.length
  obtain ⟨n, hbal⟩ := hholds.balanced
  rw [← hlength]
  exact ⟨t, hholds, hentries, Nat.le_min.mpr ⟨t.height_le_length, hbal.height_le_log⟩⟩

theorem Holds.nodup (h : Holds T t) : t.labels.Nodup := by
  obtain ⟨p, hfocus⟩ := h.focus
  exact hfocus.tree_nodup

/-- The row is empty as long as the root is the sentinel. -/
theorem Shows.root_iff (h : Shows before s T es) : T.root = T.sentinel ↔ es = [] := by
  obtain ⟨t, hholds, rfl, hlength⟩ := h.length
  rw [hholds.root_eq_iff, ← List.length_eq_zero_iff, ← hlength]
  constructor
  · intro hnil
    rw [hnil]
    rfl
  · intro hzero
    cases t with
    | nil => rfl
    | node c l a r =>
        rw [Coloured.labels, List.length_append, List.length_cons] at hzero
        omega

/-- The nodes have the keys of the row. -/
theorem Shows.key_eq (h : Shows before s T es) {e : Entry} (he : e ∈ es) :
    T.key e.node = e.key := by
  obtain ⟨t, -, rfl⟩ := h.tree
  obtain ⟨a, -, rfl⟩ := List.mem_map.mp he
  rfl

theorem Shows.nodup (h : Shows before s T es) : (es.map Entry.node).Nodup := by
  obtain ⟨t, hholds, rfl⟩ := h.tree
  rw [entries, List.map_map]
  exact (List.map_id t.labels).symm ▸ hholds.nodup

/-! ## The order of the row -/

theorem Orders.subset {ks ks' : List (BitVec 32)} (h : Orders before ks)
    (hsub : ∀ k ∈ ks', k ∈ ks) : Orders before ks' :=
  ⟨fun a ha b hb => h.asymm a (hsub a ha) b (hsub b hb),
    fun a ha b hb c hc => h.trans a (hsub a ha) b (hsub b hb) c (hsub c hc)⟩

theorem Orders.enqueue_sorted {e : Entry} (h : Orders before (e.key :: es.map Entry.key))
    (hsorted : Sorted before es) {l r : List Entry} (hsplit : es = l ++ r)
    (hl : ∀ a ∈ l, before e.key a.key = false) (hr : ∀ a ∈ r, before e.key a.key = true) :
    Sorted before (l ++ e :: r) ∧ enqueue before e es = l ++ e :: r := by
  subst hsplit
  obtain ⟨hleft, hright, hacross⟩ := List.pairwise_append.mp hsorted
  constructor
  · refine List.pairwise_append.mpr ⟨hleft, List.pairwise_cons.mpr ⟨fun b hb => ?_, hright⟩, ?_⟩
    · have hmem : b.key ∈ (l ++ r).map Entry.key :=
        List.mem_map_of_mem (List.mem_append_right l hb)
      exact h.asymm _ List.mem_cons_self _ (List.mem_cons_of_mem _ hmem) (hr b hb)
    · intro a ha b hb
      rcases List.mem_cons.mp hb with rfl | hb
      · exact hl a ha
      · exact hacross a ha b hb
  · have hstay : ∀ a ∈ l, (!before e.key a.key) = true := by
      intro a ha
      rw [hl a ha]
      rfl
    unfold enqueue
    rw [List.takeWhile_append_of_pos hstay, List.dropWhile_append_of_pos hstay]
    cases r with
    | nil => rw [List.takeWhile_nil, List.dropWhile_nil, List.append_nil]
    | cons b r =>
        have hstop := hr b List.mem_cons_self
        rw [List.takeWhile_cons, List.dropWhile_cons, hstop]
        simp

/-! ## A step of the tree is a step of the row -/

theorem entries_congr (h : ∀ a ∈ t.labels, T'.key a = T.key a) : entries T' t = entries T t := by
  refine List.map_congr_left fun a ha => ?_
  rw [h a ha]

/-- Stores to other nodes do not change the row. -/
theorem Shows.congr (h : Shows before s T es) (hs : T'.sentinel = T.sentinel)
    (hroot : T'.root = T.root) (hdark : T'.colorOf T.sentinel = T.colorOf T.sentinel)
    (hsame : ∀ e ∈ es, Same T T' e.node) (hkey : ∀ e ∈ es, T'.key e.node = T.key e.node) :
    Shows before s T' es := by
  obtain ⟨t, hholds, rfl⟩ := h.tree
  obtain ⟨p, hfocus⟩ := hholds.focus
  have hmem : ∀ a ∈ t.labels, (⟨a, T.key a⟩ : Entry) ∈ entries T t := by
    intro a ha
    exact List.mem_map_of_mem ha
  refine ⟨hs.trans h.sentinel, ⟨t, ⟨⟨p, ?_⟩, ?_, hholds.balanced⟩, ?_⟩, h.sorted⟩
  · rw [hroot]
    refine hfocus.congr hs hroot fun a ha => ?_
    rw [spine, List.flatMap_nil, List.append_nil] at ha
    exact hsame _ (hmem a ha)
  · rw [hs]
    exact hdark.trans hholds.dark
  · exact entries_congr fun a ha => hkey _ (hmem a ha)

/-- The caller stores the key of a node that is not in the tree. -/
theorem Shows.setKey (h : Shows before s T es) (hfresh : ∀ e ∈ es, e.node ≠ z) (k : BitVec 32) :
    Shows before s (T.setKey z k) es := by
  refine h.congr rfl rfl (T.setKey_colorOf z T.sentinel k) (fun e _ => ?_) fun e he => ?_
  · exact ⟨T.setKey_parent z _ k, T.setKey_colorOf z _ k, fun s => T.setKey_child s z _ k⟩
  · rw [NgxRbtree.setKey_key, if_neg (hfresh e he)]

/-- The path went to the left at the nodes that come after the new one, and so it ends before
these. -/
theorem Led.split {path : List (Frame Nat)} (hled : Led before T z path)
    (hsorted : Sorted before (entries T (fill .nil path)))
    (horders : Orders before (T.key z :: (entries T (fill .nil path)).map Entry.key)) :
    (∀ a ∈ (around path).1, before (T.key z) (T.key a) = false) ∧
      ∀ a ∈ (around path).2, before (T.key z) (T.key a) = true := by
  have hmem : ∀ a ∈ (fill .nil path).labels,
      T.key a ∈ T.key z :: (entries T (fill .nil path)).map Entry.key := by
    intro a ha
    exact List.mem_cons_of_mem _ (List.mem_map_of_mem (List.mem_map_of_mem ha))
  have hpast : (fill .nil path).labels.Pairwise fun a b =>
      before (T.key z) (T.key a) = true → before (T.key z) (T.key b) = true := by
    refine (List.pairwise_map.mp hsorted).imp_of_mem ?_
    intro a b ha hb hab hza
    exact horders.trans _ List.mem_cons_self _ (hmem a ha) _ (hmem b hb) hza hab
  -- what comes after the new node is a suffix of the row, so one place parts it from the rest
  obtain ⟨hleft, hright⟩ := around_split hpast fun f hf => by
    rw [hled f hf]
    split
    case isTrue hza => exact iff_of_true rfl hza
    case isFalse hza => exact iff_of_false (by decide) hza
  exact ⟨fun a ha => Bool.eq_false_iff.mpr (hleft a ha), hright⟩

theorem ngxRbtreeInsert_shows (h : Shows before s T es) (hz : z ≠ s)
    (hfresh : ∀ e ∈ es, e.node ≠ z) (horders : Orders before (T.key z :: es.map Entry.key))
    (hfuel : depth es.length < fuel) :
    ∃ T', ngxRbtreeInsert (insertValue before) fuel T z = some T' ∧
      Shows before s T' (enqueue before ⟨z, T.key z⟩ es) := by
  obtain ⟨t, hholds, rfl, hheight⟩ := h.height
  have hnot : z ∉ t.labels := fun hmem => hfresh _ (List.mem_map_of_mem hmem) rfl
  obtain ⟨T', t', hrun, hkept, hholds', path, rfl, hled, hlabels⟩ :
      ∃ T' t', ngxRbtreeInsert (insertValue before) fuel T z = some T' ∧ _ :=
    ngxRbtreeInsert_holds hholds hnot (h.sentinel.symm ▸ hz) (Nat.lt_of_le_of_lt hheight hfuel)
  obtain ⟨hleft, hright⟩ := hled.split h.sorted horders
  have hsplit : entries T (fill .nil path) = (around path).1.map (fun a => ⟨a, T.key a⟩) ++
      (around path).2.map fun a => ⟨a, T.key a⟩ := by
    rw [entries, labels_fill, labels, List.append_nil, List.map_append]
  obtain ⟨hsorted, henqueue⟩ : Sorted before (_ ++ ⟨z, T.key z⟩ :: _) ∧ _ := by
    refine Orders.enqueue_sorted horders h.sorted hsplit (fun a ha => ?_) fun a ha => ?_
    · obtain ⟨b, hb, rfl⟩ := List.mem_map.mp ha
      exact hleft b hb
    · obtain ⟨b, hb, rfl⟩ := List.mem_map.mp ha
      exact hright b hb
  have hentries : entries T' t' = enqueue before ⟨z, T.key z⟩ (entries T (fill .nil path)) := by
    rw [henqueue, entries_congr fun a _ => hkept.key a, entries, hlabels, List.map_append,
      List.map_cons]
  exact ⟨T', hrun, hkept.sentinel.trans h.sentinel, ⟨t', hholds', hentries⟩, henqueue ▸ hsorted⟩

/-- An insertion. -/
theorem Shows.insert (h : Shows before s T es) (husable : Usable s es (.insert z k))
    (horders : Orders before (k :: es.map Entry.key)) (hfuel : depth es.length < fuel) :
    ∃ T', step before fuel T (.insert z k) = some T' ∧
      Shows before s T' (enqueue before ⟨z, k⟩ es) := by
  obtain ⟨hz, hfresh⟩ := husable
  have hnew : (T.setKey z k).key z = k := by
    rw [NgxRbtree.setKey_key, if_pos rfl]
  rw [← hnew] at horders
  obtain ⟨T', hrun, hshows⟩ :=
    ngxRbtreeInsert_shows (h.setKey hfresh k) hz hfresh horders hfuel
  rw [hnew] at hshows
  exact ⟨T', hrun, hshows⟩

/-- A deletion. -/
theorem Shows.delete (h : Shows before s T es) (husable : Usable s es (.delete z))
    (hfuel : depth es.length < fuel) : ∃ T', step before fuel T (.delete z) = some T' ∧
      Shows before s T' (es.filter fun e => e.node ≠ z) := by
  obtain ⟨t, hholds, rfl, hheight⟩ := h.height
  obtain ⟨e, he, rfl⟩ := husable
  obtain ⟨z, hz, rfl⟩ := List.mem_map.mp he
  obtain ⟨T', t', hrun, hkept, hholds', hlabels⟩ :=
    ngxRbtreeDelete_holds hholds hz (Nat.lt_of_le_of_lt hheight hfuel)
  refine ⟨T', hrun, hkept.sentinel.trans h.sentinel, ⟨t', hholds', ?_⟩, ?_⟩
  · have hother : ((fun e : Entry => decide (e.node ≠ z)) ∘ fun a => ⟨a, T.key a⟩) =
        fun a => a != z := by
      funext a
      by_cases ha : a = z <;> simp [ha]
    rw [entries, entries, hlabels, hholds.nodup.erase_eq_filter, List.filter_map,
      hother]
    refine List.map_congr_left fun a ha => ?_
    have hne : a ≠ z := by simpa using (List.mem_filter.mp ha).2
    rw [hkept.key a hne]
  · exact h.sorted.sublist List.filter_sublist

/-- A new tree is empty. -/
theorem ngxRbtreeInit_shows (T : NgxRbtree) (s : Nat) : Shows before s (ngxRbtreeInit T s) [] := by
  refine ⟨rfl, ⟨.nil, ⟨⟨null, rfl, rfl, List.nodup_nil⟩, ?_, 0, .nil⟩, rfl⟩, List.Pairwise.nil⟩
  change (T.black s).colorOf s = .black
  rw [(recolours_black T s).colorOf, if_pos rfl]

theorem enqueue_length (e : Entry) (es : List Entry) :
    (enqueue before e es).length = es.length + 1 := by
  have hsplit := congrArg List.length
    (List.takeWhile_append_dropWhile (p := fun a => !before e.key a.key) (l := es))
  rw [List.length_append] at hsplit
  rw [enqueue, List.length_append, List.length_cons]
  omega

/-- **A step of the tree is a step of the row.** -/
theorem Shows.step {op : Op} (h : Shows before s T es) (husable : Usable s es op)
    (hcomparable : Comparable before es op) (hfuel : depth es.length < fuel) :
    ∃ T' es', step before fuel T op = some T' ∧ stepRow before es op = some es' ∧
      Shows before s T' es' ∧ es'.length ≤ es.length + 1 := by
  cases op with
  | insert a k =>
      obtain ⟨T', hrun, hshows⟩ := h.insert husable hcomparable hfuel
      exact ⟨T', _, hrun, rfl, hshows, Nat.le_of_eq (enqueue_length _ _)⟩
  | delete a =>
      obtain ⟨T', hrun, hshows⟩ := h.delete husable hfuel
      exact ⟨T', _, hrun, rfl, hshows, Nat.le_succ_of_le (List.length_filter_le _ es)⟩

/-- A whole run. -/
theorem Shows.run (ops : List Op) (h : Shows before s T es)
    (hlegal : Meets (stepRow before) (fun es op => Usable s es op ∧ Comparable before es op) es ops)
    (hfuel : es.length + ops.length < fuel) :
    ∃ T' es', Lib.run (Ngx.step before fuel) T ops = some T' ∧
      Lib.run (stepRow before) es ops = some es' ∧ Shows before s T' es' := by
  induction ops generalizing T es with
  | nil => exact ⟨T, es, rfl, rfl, h⟩
  | cons op ops ih =>
      obtain ⟨⟨husable, hcomparable⟩, hrest⟩ := hlegal
      rw [List.length_cons] at hfuel
      -- a step adds one node at most, so the fuel lasts for the run
      have hroom : depth es.length < fuel := depth_lt (by omega)
      obtain ⟨T₁, es₁, hstep, hrow, hshows, hlength⟩ := h.step husable hcomparable hroom
      obtain ⟨T₂, es₂, hrun, hrun', hshows'⟩ := ih hshows (hrest es₁ hrow) (by omega)
      refine ⟨T₂, es₂, ?_, ?_, hshows'⟩
      · rw [Lib.run, hstep, Option.bind_some, hrun]
      · rw [Lib.run, hrow, Option.bind_some, hrun']

end CppTrack.Ngx
