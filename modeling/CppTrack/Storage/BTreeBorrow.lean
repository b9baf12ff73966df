import CppTrack.Storage.BTreeShape

/-!
# Borrowing and merging as changes of trees

`btree_delete_key` gives a child another key before it goes down into it: from the
right neighbour, from the left one, or by merging the child with a neighbour. Here
each of them is a `Rewrites` of the parent, on top of the heap equations of
`BTreeNode.lean`.

Leaves need no cases of their own: a leaf has no children to hand over, and taking
one from an empty list is taking nothing.
-/

namespace CppTrack.Storage

open Lib Heap

/-! ## Records -/

/-- As many children as a node with `ks` may have: none, or one more than keys. -/
def Fit {α : Type} (ks : List Int) (cs : List α) : Prop := cs = [] ∨ cs.length = ks.length + 1

theorem Holds.set_key {r : BTreeNode} {A B : List Int} {k : Int} {cs : List Nat}
    (hr : Holds r (A ++ k :: B) cs) (m : Int) :
    Holds { r with keys := Function.update r.keys A.length m } (A ++ m :: B) cs := by
  obtain ⟨hn, hk, hc, hl⟩ := hr
  refine ⟨by simpa using hn, fun i hi => ?_, hc, hl⟩
  simp only [Function.update_apply]
  grind

section

variable {r s : BTreeNode} {ks Y : List Int} {cs ds : List Nat} {b y : Int}

/-- The child that borrowed from its right neighbour. -/
theorem Holds.pushed (hr : Holds r ks cs) (hs : Holds s (y :: Y) ds) (hcs : Fit ks cs)
    (hds : Fit (y :: Y) ds) (hboth : cs = [] ↔ ds = []) :
    Holds { r with
      keys := Function.update r.keys r.num b
      childrens := Function.update r.childrens (r.num + 1) (s.childrens 0)
      num := r.num + 1 } (ks ++ [b]) (cs ++ ds.take 1) := by
  have h₀ := hs.child 0
  obtain ⟨hn, hk, hc, hl⟩ := hr
  unfold Fit at hcs hds
  refine ⟨by simp [hn], fun i hi => ?_, fun i hi => ?_, ?_⟩
  · simp only [Function.update_apply, hn]
    grind
  · simp only [Function.update_apply, hn]
    grind
  · simp only [hl, ← List.length_eq_zero_iff, List.length_append, List.length_take,
      List.length_cons] at hcs hds hboth ⊢
    omega

/-- The right neighbour without its first key and child. -/
theorem Holds.shifted (hs : Holds s (y :: Y) ds) (hY : Y ≠ []) (hds : Fit (y :: Y) ds) :
    Holds { s with
      keys := Function.update (movedDown s.keys 0 (s.num - 1)) (s.num - 1) 0
      childrens := Function.update (Function.update (movedDown s.childrens 0 (s.num - 1))
        (s.num - 1) (s.childrens s.num)) s.num none
      num := s.num - 1 } Y (ds.drop 1) := by
  obtain ⟨hn, hk, hc, hl⟩ := hs
  unfold Fit at hds
  have hlen := List.length_pos_iff.mpr hY
  refine ⟨by simp [hn], fun i hi => ?_, fun i hi => ?_, ?_⟩
  · have hki := hk (i + 1)
    simp only [Function.update_apply, movedDown, hn]
    grind
  · have hci := hc (i + 1)
    simp only [Function.update_apply, movedDown, hn]
    grind
  · simp only [hl, ← List.length_eq_zero_iff, List.length_drop, List.length_cons] at hds ⊢
    omega

/-- The child that borrowed from its left neighbour. -/
theorem Holds.unshifted (hr : Holds r ks cs) (hs : Holds s (Y ++ [y]) ds) (hcs : Fit ks cs)
    (hds : Fit (Y ++ [y]) ds) (hboth : cs = [] ↔ ds = []) :
    Holds { r with
      keys := Function.update (movedUp r.keys 0 r.num) 0 b
      childrens := Function.update (Function.update (movedUp r.childrens 1 r.num) 1
        (r.childrens 0)) 0 (s.childrens s.num)
      num := r.num + 1 } (b :: ks) (ds.drop (Y.length + 1) ++ cs) := by
  have hlast := hs.child s.num
  have hsn := hs.num
  obtain ⟨hn, hk, hc, hl⟩ := hr
  unfold Fit at hcs hds
  refine ⟨by simp [hn], fun i hi => ?_, fun i hi => ?_, ?_⟩
  · cases i with
    | zero => rfl
    | succ i =>
        have hi : i < ks.length := Nat.lt_of_succ_lt_succ hi
        dsimp only
        rw [List.getElem?_cons_succ, Function.update_of_ne (Nat.succ_ne_zero i), movedUp,
          if_pos (by omega)]
        exact hk i hi
  · by_cases hnil : cs = []
    · -- two leaves
      have hnil' := hboth.mp hnil
      subst hnil hnil'
      have hnone : ∀ j, r.childrens j = none := fun j => hc j (.inl rfl)
      have hnone' : s.childrens s.num = none := hlast (.inl rfl)
      simp only [Function.update_apply, movedUp, hnone, hnone', ite_self, List.drop_nil,
        List.append_nil, List.getElem?_nil]
    · have hlen := hcs.resolve_left hnil
      have hlen' := hds.resolve_left (mt hboth.mpr hnil)
      rw [List.length_append, List.length_singleton] at hlen' hsn
      obtain ⟨z, hz⟩ : ∃ z, ds.drop (Y.length + 1) = [z] := by
        refine List.length_eq_one_iff.mp ?_
        rw [List.length_drop]
        omega
      have hchild : s.childrens s.num = some z := by
        have hhead := congrArg (fun l => l[0]?) hz
        rw [List.getElem?_drop, Nat.add_zero, ← hsn] at hhead
        exact (hlast (.inr (by omega))).trans hhead
      rw [hz] at hi ⊢
      obtain _ | _ | i := i
      · exact hchild
      · exact hc 0 (.inr (by omega))
      · have hi : i + 2 < cs.length + 1 := hi.resolve_left (List.cons_ne_nil _ _)
        dsimp only
        rw [Function.update_of_ne (by omega), Function.update_of_ne (by omega), movedUp,
          if_pos (by omega)]
        exact hc (i + 1) (.inr (by omega))
  · simp only [hl, ← List.length_eq_zero_iff, List.length_append, List.length_drop,
      List.length_cons, List.length_nil] at hcs hds hboth ⊢
    omega

/-- The left neighbour without its last key and child. -/
theorem Holds.popped (hs : Holds s (Y ++ [y]) ds) (hds : Fit (Y ++ [y]) ds) :
    Holds { s with
      keys := Function.update s.keys (s.num - 1) 0
      childrens := Function.update s.childrens s.num none
      num := s.num - 1 } Y (ds.take (Y.length + 1)) := by
  obtain ⟨hn, hk, hc, hl⟩ := hs
  unfold Fit at hds
  have hnum : s.num = Y.length + 1 := by rw [hn, List.length_append, List.length_singleton]
  refine ⟨by simp [hn], fun i hi => ?_, fun i hi => ?_, ?_⟩
  · have hki := hk i (by rw [← hn]; omega)
    rw [List.getElem?_append_left hi] at hki
    dsimp only
    rwa [Function.update_of_ne (by omega)]
  · rw [List.getElem?_take]
    by_cases hnil : ds = []
    · subst hnil
      have hnone : s.childrens i = none := hc i (.inl rfl)
      simp only [Function.update_apply, hnone, ite_self, List.getElem?_nil]
    · have hlen := hds.resolve_left hnil
      rw [List.length_append, List.length_singleton] at hlen
      have hi : i < Y.length + 1 := by
        rcases hi with hi | hi
        · exact absurd (congrArg List.length hi) (by rw [List.length_take, List.length_nil]; omega)
        · rw [List.length_take] at hi
          omega
      dsimp only
      rw [Function.update_of_ne (by omega), if_pos hi]
      exact hc i (.inr (by omega))
  · simp only [hl, ← List.length_eq_zero_iff, List.length_append, List.length_take,
      List.length_cons, List.length_nil] at hds ⊢
    omega

end

section

variable {t : Nat} {r s : BTreeNode} {ks ls : List Int} {cs ds : List Nat} {k : Int}

theorem Holds.mergedRecord (hr : Holds r ks cs) (hs : Holds s ls ds) (ht : 2 ≤ t)
    (hks : ks.length = t - 1) (hls : ls.length = t - 1) (hcs : Fit ks cs) (hds : Fit ls ds)
    (hboth : cs = [] ↔ ds = []) :
    Holds (mergedRecord t r s k) (ks ++ k :: ls) (cs ++ ds) := by
  obtain ⟨hn, hk, hc, hl⟩ := hr
  have hk' := hs.key
  have hc' := hs.child
  unfold Fit at hcs hds
  unfold Storage.mergedRecord
  refine ⟨by simp [hn]; omega, fun i hi => ?_, fun i hi => ?_, ?_⟩
  · have := hk' (i - t)
    simp only [Function.update_apply, copied]
    grind
  · have := hc' (i - t)
    dsimp only
    split
    · simp only [copied]
      grind
    · grind
  · simp only [hl, ← List.length_eq_zero_iff, List.length_append] at hcs hds hboth ⊢
    omega

theorem Holds.closedRecord {A B : List Int} {L R : List Nat} {p q : Nat}
    (hr : Holds r (A ++ k :: B) (L ++ p :: q :: R)) (hL : L.length = A.length)
    (hR : R.length = B.length) :
    Holds (closedRecord r A.length) (A ++ B) (L ++ p :: R) := by
  obtain ⟨hn, hk, hc, hl⟩ := hr
  unfold Storage.closedRecord
  refine ⟨by simp [hn], fun i hi => ?_, fun i hi => ?_, ?_⟩
  · have := hk (i + 1)
    simp only [movedDown, hn]
    grind
  · have := hc (i + 1)
    simp only [Function.update_apply, movedDown, hn]
    grind
  · simp [hl]

end

/-! ## Trees -/

theorem Tree.Shape.fit {d t lo : Nat} {n : Tree (d + 1)} (hs : n.Shape t lo) :
    Fit n.keys (n.kids.map Tree.addr) := by
  cases d with
  | zero => exact .inl (by rw [Tree.eq_nil n.kids]; rfl)
  | succ d => exact .inr (by rw [List.length_map, hs.kids_length])

/-- Of two nodes of the same height both are leaves or neither is. -/
theorem kids_nil_iff {d t lo lo' : Nat} {c r : Tree (d + 1)} (hc : c.Shape t lo)
    (hr : r.Shape t lo') : c.kids.map Tree.addr = [] ↔ r.kids.map Tree.addr = [] := by
  cases d with
  | zero => simp [Tree.eq_nil c.kids, Tree.eq_nil r.kids]
  | succ d =>
      simp only [← List.length_eq_zero_iff, List.length_map, hc.kids_length, hr.kids_length]
      omega

/-- Two neighbours and the key between them as one node. -/
def Tree.join {d : Nat} (c : Tree (d + 1)) (k : Int) (r : Tree (d + 1)) : Tree (d + 1) :=
  Tree.mk c.addr (c.keys ++ k :: r.keys) (c.kids ++ r.kids)

/-- A child with its right neighbour's first child and the key between them. -/
def Tree.pushed {d : Nat} (c : Tree (d + 1)) (k : Int) (r : Tree (d + 1)) : Tree (d + 1) :=
  Tree.mk c.addr (c.keys ++ [k]) (c.kids ++ r.kids.take 1)

/-- A node without its first key and child. -/
def Tree.shifted {d : Nat} (r : Tree (d + 1)) : Tree (d + 1) :=
  Tree.mk r.addr r.keys.tail (r.kids.drop 1)

/-- A child with its left neighbour's last child and the key between them. -/
def Tree.unshifted {d : Nat} (l : Tree (d + 1)) (k : Int) (c : Tree (d + 1)) : Tree (d + 1) :=
  Tree.mk c.addr (k :: c.keys) (l.kids.drop l.keys.length ++ c.kids)

/-- A node without its last key and child. -/
def Tree.popped {d : Nat} (l : Tree (d + 1)) : Tree (d + 1) :=
  Tree.mk l.addr l.keys.dropLast (l.kids.take l.keys.length)

section

variable {d t lo a : Nat} {A B : List Int} {L R : List (Tree (d + 1))} {c r : Tree (d + 1)}
    {k : Int}
  {h : Heap BTreeNode}

theorem Stored.pair_ne {ks : List Int} (hst : Stored h (Tree.mk a ks (L ++ c :: r :: R))) :
    a ≠ c.addr ∧ a ≠ r.addr ∧ c.addr ≠ r.addr := by
  have hnd := (cells_local_perm (M := [c, r]) (R := R)).nodup_iff.mp hst.nodup
  simp only [List.nodup_cons, List.nodup_append, List.mem_append, List.map_cons, List.map_nil,
    List.mem_cons] at hnd
  grind

/-- The two neighbours with their parent's record, as `btree_delete_key` finds them. -/
theorem Stored.pair (hst : Stored h (Tree.mk a (A ++ k :: B) (L ++ c :: r :: R)))
    (hL : L.length = A.length) :
    ∃ ra rc rr, h.get a = some ra ∧ h.get c.addr = some rc ∧ h.get r.addr = some rr ∧
      Holds ra (A ++ k :: B) ((L ++ c :: r :: R).map Tree.addr) ∧
      Holds rc c.keys (c.kids.map Tree.addr) ∧ Holds rr r.keys (r.kids.map Tree.addr) ∧
      ra.childrens A.length = some c.addr ∧ ra.childrens (A.length + 1) = some r.addr ∧
      ra.keys A.length = k := by
  obtain ⟨ra, hgeta, hra⟩ : At h a (A ++ k :: B) _ := hst.rep.at
  obtain ⟨rc, hgetc, hrc⟩ := (hst.rep.kid (c := c) (by simp)).at
  obtain ⟨rr, hgetr, hrr⟩ := (hst.rep.kid (c := r) (by simp)).at
  refine ⟨ra, rc, rr, hgeta, hgetc, hgetr, hra, hrc, hrr, ?_, ?_, ?_⟩
  · rw [hra.child _ (.inr (by simp; omega))]
    simp [← hL]
  · rw [hra.child _ (.inr (by simp; omega))]
    simp [← hL]
  · have hk := hra.key A.length (by simp)
    simpa using hk.symm

end

section

variable {d lo a : Nat} {A B : List Int} {L R : List (Tree (d + 1))} {c r : Tree (d + 1)} {k : Int}
  {T : BTree} (ht : Degree T.t)
  (hst : Stored T.heap (Tree.mk a (A ++ k :: B) (L ++ c :: r :: R)))
  (hs : (Tree.mk a (A ++ k :: B) (L ++ c :: r :: R)).Shape T.t lo)
  (hL : L.length = A.length) (hR : R.length = B.length)
include ht hst hs hL hR

/-- `btree_merge`. A full parent makes it write past the end of `childrens`. -/
theorem btreeMerge_spec (hc : c.keys.length = T.t - 1) (hr : r.keys.length = T.t - 1) :
    ∃ h', Rewrites T.heap (Tree.mk a (A ++ k :: B) (L ++ c :: r :: R)) h'
        (Tree.mk a (A ++ B) (L ++ c.join k r :: R)) ∧
      btreeMerge T a A.length =
        if (A ++ k :: B).length = 2 * T.t - 1 then none
        else if A ++ B = [] then some { T with root := some c.addr, heap := h'.erase a }
        else some { T with heap := h' } := by
  obtain ⟨ra, rc, rr, hgeta, hgetc, hgetr, hra, hrc, hrr, hchc, hchr, hkey⟩ := hst.pair hL
  obtain ⟨hac, har, hcr⟩ := hst.pair_ne
  have hcs := hs.kid (c := c) (by simp)
  have hrs := hs.kid (c := r) (by simp)
  have hhigh : (A ++ k :: B).length ≤ 2 * T.t - 1 := hs.high
  have hnum : ra.num = (A ++ k :: B).length := hra.num
  have hmerge := btreeMerge_eq ht hgeta hgetc hgetr hac har hcr.symm hchc hchr
    (by simp [hnum]) (by omega)
  rw [hkey, hnum] at hmerge
  refine ⟨((T.heap.put c.addr (mergedRecord T.t rc rr k)).erase r.addr).put a
    (closedRecord ra A.length), Rewrites.of_local (M := [c, r]) (N := [c.join k r]) hst
    (Nat.le_refl _) ?_ ?_ ?_ (by simp [Tree.join]) (by simp) (by simp [Tree.join]), ?_⟩
  · intro p hpa hpM _
    simp only [List.map_cons, List.map_nil, List.mem_cons, List.not_mem_nil, or_false,
      not_or] at hpM
    rw [get_put_of_ne _ _ hpa, get_erase_of_ne _ hpM.2, get_put_of_ne _ _ hpM.1]
  · refine ⟨_, get_put_self _ _ _, ?_⟩
    rw [List.map_append, List.map_cons, List.map_cons] at hra
    have hclosed := hra.closedRecord (by simpa using hL) (by simpa using hR)
    simpa [Tree.join] using hclosed
  · simp only [List.mem_singleton]
    rintro g rfl
    refine ⟨mergedRecord T.t rc rr k, ?_, ?_⟩
    · rw [show (c.join k r).addr = c.addr from rfl, get_put_of_ne _ _ hac.symm,
        get_erase_of_ne _ hcr, get_put_self]
    · have hm := hrc.mergedRecord (k := k) hrr ht.1 hc hr hcs.fit hrs.fit (kids_nil_iff hcs hrs)
      rw [← List.map_append] at hm
      exact hm
  · rw [hmerge, erase_put]
    refine if_congr Iff.rfl rfl (if_congr ?_ rfl rfl)
    rw [← List.length_eq_zero_iff]
    simp only [List.length_append, List.length_cons]
    omega

end

section

variable {d t lo a : Nat} {A B Y : List Int} {L R : List (Tree (d + 1))} {c s : Tree (d + 1)}
  {k y : Int} {h : Heap BTreeNode} (ht : Degree t)
include ht

theorem borrowFromNext_spec (hst : Stored h (Tree.mk a (A ++ k :: B) (L ++ c :: s :: R)))
    (hs : (Tree.mk a (A ++ k :: B) (L ++ c :: s :: R)).Shape t lo) (hL : L.length = A.length)
    (hc : c.keys.length = t - 1) (hsk : s.keys = y :: Y) (hrich : t ≤ s.keys.length) :
    ∃ h', borrowFromNext t h a A.length c.addr s.addr = some h' ∧
      Rewrites h (Tree.mk a (A ++ k :: B) (L ++ c :: s :: R)) h'
        (Tree.mk a (A ++ y :: B) (L ++ c.pushed k s :: s.shifted :: R)) := by
  obtain ⟨ra, rc, rs, hgeta, hgetc, hgets, hra, hrc, hrs, -, -, hkey⟩ := hst.pair hL
  obtain ⟨hac, has, hcs⟩ := hst.pair_ne
  have hcsh := hs.kid (c := c) (by simp)
  have hssh := hs.kid (c := s) (by simp)
  have hhigh : (A ++ k :: B).length ≤ 2 * t - 1 := hs.high
  have hborrow := borrowFromNext_eq ht hgeta hgetc hgets hac has hcs
    (hrc.num.trans hc) (hrs.num ▸ hssh.high)
    (show A.length < 2 * t - 1 by simp at hhigh; omega) (hrs.num ▸ hrich)
  have hfit := hssh.fit
  rw [hsk] at hrs hfit hrich
  have hy : rs.keys 0 = y := by simpa using (hrs.key 0 (by simp)).symm
  rw [hkey, hy] at hborrow
  refine ⟨_, hborrow, Rewrites.of_local (M := [c, s]) (N := [c.pushed k s, s.shifted]) hst
    (Nat.le_refl _) ?_ ?_ ?_ ?_ (by simpa [Tree.pushed, Tree.shifted] using hcs)
    (by simp [Tree.pushed, Tree.shifted])⟩
  · intro p hpa hpM _
    simp only [List.map_cons, List.map_nil, List.mem_cons, List.not_mem_nil, or_false,
      not_or] at hpM
    rw [get_put_of_ne _ _ hpM.2, get_put_of_ne _ _ hpa, get_put_of_ne _ _ hpM.1]
  · refine ⟨_, (get_put_of_ne _ _ has).trans (get_put_self _ _ _), ?_⟩
    have hset := hra.set_key y
    simpa [Tree.pushed, Tree.shifted] using hset
  · simp only [List.mem_cons, List.not_mem_nil, or_false]
    rintro g (rfl | rfl)
    · refine ⟨_, (get_put_of_ne _ _ hcs).trans
        ((get_put_of_ne _ _ hac.symm).trans (get_put_self _ _ _)), ?_⟩
      have hp := hrc.pushed (b := k) hrs hcsh.fit hfit (kids_nil_iff hcsh hssh)
      simpa [Tree.pushed] using hp
    · refine ⟨_, get_put_self _ _ _, ?_⟩
      have hY : Y ≠ [] := List.length_pos_iff.mp (by simp at hrich; omega)
      have hp := hrs.shifted hY hfit
      simpa [Tree.shifted, hsk] using hp
  · simp only [Tree.pushed, Tree.shifted, List.flatMap_cons, List.flatMap_nil, Tree.kids_mk,
      List.append_nil, List.append_assoc, List.take_append_drop]
    exact List.Perm.refl _

theorem borrowFromPrev_spec (hst : Stored h (Tree.mk a (A ++ k :: B) (L ++ s :: c :: R)))
    (hs : (Tree.mk a (A ++ k :: B) (L ++ s :: c :: R)).Shape t lo) (hL : L.length = A.length)
    (hc : c.keys.length = t - 1) (hsk : s.keys = Y ++ [y]) :
    ∃ h', borrowFromPrev t h a (A.length + 1) c.addr s.addr = some h' ∧
      Rewrites h (Tree.mk a (A ++ k :: B) (L ++ s :: c :: R)) h'
        (Tree.mk a (A ++ y :: B) (L ++ s.popped :: s.unshifted k c :: R)) := by
  obtain ⟨ra, rs, rc, hgeta, hgets, hgetc, hra, hrs, hrc, -, -, hkey⟩ := hst.pair hL
  obtain ⟨has, hac, hsc⟩ := hst.pair_ne
  have hcsh := hs.kid (c := c) (by simp)
  have hssh := hs.kid (c := s) (by simp)
  have hhigh : (A ++ k :: B).length ≤ 2 * t - 1 := hs.high
  have hborrow := borrowFromPrev_eq ht hgeta hgetc hgets hac has hsc.symm
    (hrc.num.trans hc) (hrs.num ▸ hssh.high)
    (show A.length + 1 - 1 < 2 * t - 1 by simp at hhigh; omega)
  have hfit := hssh.fit
  rw [hsk] at hrs hfit
  have hy : rs.keys (rs.num - 1) = y := by
    have hlast := hrs.key Y.length (by simp)
    rw [hrs.num]
    simpa using hlast.symm
  rw [Nat.add_sub_cancel, hkey, hy] at hborrow
  refine ⟨_, hborrow, Rewrites.of_local (M := [s, c]) (N := [s.popped, s.unshifted k c]) hst
    (Nat.le_refl _) ?_ ?_ ?_ ?_ (by simpa [Tree.popped, Tree.unshifted] using hsc)
    (by simp [Tree.popped, Tree.unshifted])⟩
  · intro p hpa hpM _
    simp only [List.map_cons, List.map_nil, List.mem_cons, List.not_mem_nil, or_false,
      not_or] at hpM
    rw [get_put_of_ne _ _ hpM.1, get_put_of_ne _ _ hpa, get_put_of_ne _ _ hpM.2]
  · refine ⟨_, (get_put_of_ne _ _ has).trans (get_put_self _ _ _), ?_⟩
    have hset := hra.set_key y
    simpa [Tree.popped, Tree.unshifted] using hset
  · simp only [List.mem_cons, List.not_mem_nil, or_false]
    rintro g (rfl | rfl)
    · refine ⟨_, get_put_self _ _ _, ?_⟩
      have hp := hrs.popped hfit
      simpa [Tree.popped, hsk] using hp
    · refine ⟨_, (get_put_of_ne _ _ hsc.symm).trans
        ((get_put_of_ne _ _ hac.symm).trans (get_put_self _ _ _)), ?_⟩
      have hp := hrc.unshifted (b := k) hrs hcsh.fit hfit (kids_nil_iff hcsh hssh)
      simpa [Tree.unshifted, hsk] using hp
  · simp only [Tree.popped, Tree.unshifted, List.flatMap_cons, List.flatMap_nil, Tree.kids_mk,
      List.append_nil]
    rw [← List.append_assoc, List.take_append_drop]

end

/-! ## What the new nodes read as, and their shape -/

section

variable {d t lo lo' : Nat} {c s : Tree (d + 1)} {k y : Int} {Y : List Int}

theorem inorder_join_eq (hc : c.Shape t lo) (hs : s.Shape t lo') :
    (c.join k s).inorder = c.inorder ++ k :: s.inorder := by
  rw [Tree.join, Tree.inorder_join s.addr]
  · rfl
  · cases d with
    | zero => exact .inl ⟨Tree.eq_nil _, Tree.eq_nil _⟩
    | succ d => exact .inr hc.kids_length

theorem inorder_pushed_shifted (hc : c.Shape t lo) (hs : s.Shape t lo') (hsk : s.keys = y :: Y) :
    (c.pushed k s).inorder ++ y :: s.shifted.inorder = c.inorder ++ k :: s.inorder := by
  simp only [Tree.pushed, Tree.shifted, Tree.inorder_succ, Tree.kids_mk, Tree.keys_mk, hsk,
    List.tail_cons]
  cases d with
  | zero => simp [Tree.eq_nil c.kids, Tree.eq_nil s.kids]
  | succ d =>
      obtain ⟨g, G, hG⟩ := List.exists_cons_of_length_eq_add_one hs.kids_length
      rw [hG, List.map_append, weave_split (by simp [hc.kids_length])]
      simp

theorem inorder_popped_unshifted (hs : s.Shape t lo') (hsk : s.keys = Y ++ [y]) :
    s.popped.inorder ++ y :: (s.unshifted k c).inorder = s.inorder ++ k :: c.inorder := by
  simp only [Tree.popped, Tree.unshifted, Tree.inorder_succ, Tree.kids_mk, Tree.keys_mk, hsk,
    List.dropLast_concat, List.length_append, List.length_cons, List.length_nil, Nat.zero_add]
  cases d with
  | zero => simp [Tree.eq_nil c.kids, Tree.eq_nil s.kids]
  | succ d =>
      have hlen := hs.kids_length
      rw [hsk, List.length_append, List.length_singleton] at hlen
      obtain ⟨G, g, hG⟩ := List.eq_nil_or_concat s.kids |>.resolve_left (by
        intro hnil
        simp [hnil] at hlen)
      rw [List.concat_eq_append] at hG
      have hGlen : G.length = Y.length + 1 := by simpa [hG] using hlen
      have hsplit : weave ((G ++ [g]).map Tree.inorder) (Y ++ [y]) =
          weave (G.map Tree.inorder) Y ++ y :: weave ([g].map Tree.inorder) [] := by
        rw [List.map_append]
        exact weave_split (by simpa using hGlen)
      rw [hG, hsplit, List.take_append_of_le_length (by omega), List.take_of_length_le (by omega),
        List.drop_append_of_le_length (by omega), List.drop_of_length_le (by omega)]
      simp

theorem Tree.Shape.join (hc : c.Shape t lo) (hs : s.Shape t lo') (hck : c.keys.length = t - 1)
    (hsk : s.keys.length = t - 1) (ht : 2 ≤ t) : (c.join k s).Shape t t := by
  refine Tree.shape_mk.mpr ⟨?_, ?_, fun hd => ?_, fun g hg => ?_⟩
  · simp; omega
  · simp; omega
  · have h₁ := hc.2.2.1 hd
    have h₂ := hs.2.2.1 hd
    simp; omega
  · rcases List.mem_append.mp hg with hg | hg
    · exact hc.kid hg
    · exact hs.kid hg

theorem Tree.Shape.pushed (hc : c.Shape t lo) (hs : s.Shape t lo') (hck : c.keys.length = t - 1)
    (ht : 2 ≤ t) : (c.pushed k s).Shape t t := by
  refine Tree.shape_mk.mpr ⟨?_, ?_, fun hd => ?_, fun g hg => ?_⟩
  · simp; omega
  · simp; omega
  · have h₁ := hc.2.2.1 hd
    have h₂ := hs.2.2.1 hd
    simp; omega
  · rcases List.mem_append.mp hg with hg | hg
    · exact hc.kid hg
    · exact hs.kid (List.mem_of_mem_take hg)

theorem Tree.Shape.shifted (hs : s.Shape t lo') (ht : 2 ≤ t) (hrich : t ≤ s.keys.length) :
    s.shifted.Shape t (t - 1) := by
  have hhigh := hs.high
  refine Tree.shape_mk.mpr ⟨?_, ?_, fun hd => ?_, fun g hg => ?_⟩
  · simp; omega
  · simp; omega
  · have h₁ := hs.2.2.1 hd
    rw [List.length_drop, List.length_tail]
    omega
  · exact hs.kid (List.mem_of_mem_drop hg)

theorem Tree.Shape.unshifted (hc : c.Shape t lo) (hs : s.Shape t lo') (hck : c.keys.length = t - 1)
    (ht : 2 ≤ t) : (s.unshifted k c).Shape t t := by
  refine Tree.shape_mk.mpr ⟨?_, ?_, fun hd => ?_, fun g hg => ?_⟩
  · simp; omega
  · simp; omega
  · have h₁ := hc.2.2.1 hd
    have h₂ := hs.2.2.1 hd
    simp; omega
  · rcases List.mem_append.mp hg with hg | hg
    · exact hs.kid (List.mem_of_mem_drop hg)
    · exact hc.kid hg

theorem Tree.Shape.popped (hs : s.Shape t lo') (ht : 2 ≤ t) (hrich : t ≤ s.keys.length) :
    s.popped.Shape t (t - 1) := by
  have hhigh := hs.high
  refine Tree.shape_mk.mpr ⟨?_, ?_, fun hd => ?_, fun g hg => ?_⟩
  · simp; omega
  · simp; omega
  · have h₁ := hs.2.2.1 hd
    rw [List.length_take, List.length_dropLast]
    omega
  · exact hs.kid (List.mem_of_mem_take hg)

end

end CppTrack.Storage
