import CppTrack.Storage.BTreePlan

/-!
# `btree_delete_key` makes the moves

At an internal node the code does what `plan` says: it scans for the key, replaces it,
borrows or merges, and calls itself on the plan's child with the plan's key. Where the
plan is not allowed the code is stuck: `btree_merge` stores past the end of a full
parent's `childrens`, or `btree_delete_key` reads the node it has just freed.
-/

namespace CppTrack.Storage

open Lib Heap

/-! ### Finding the key -/

theorem deleteScan_eq {t a : Nat} {h : Heap BTreeNode} {r : BTreeNode} {ks : List Int}
    {cs : List Nat} {k : Int} (ht : 2 * t < 2 ^ 31) (hget : h.get a = some r) (hr : Holds r ks cs)
    (hlen : ks.length ≤ 2 * t - 1) {A B : List Int} (hB : ∀ x, B.head? = some x → ¬ x < k)
    (hA : ∀ x ∈ A, x < k) :
    ∀ C, ks = C ++ (A ++ B) →
      deleteScan t h a k (A ++ B).length C.length = some (C ++ A).length := by
  induction A with
  | nil =>
      intro C hks
      cases B with
      | nil => simp [deleteScan]
      | cons b B =>
          have hb : ks[C.length]? = some b := by simp [hks]
          rw [List.nil_append, List.length_cons, deleteScan, hr.loads_key hget ht hlen hb]
          simp only [Option.bind_eq_bind, Option.bind_some, List.append_nil]
          exact if_neg (hB b rfl)
  | cons x A ih =>
      intro C hks
      have hx : ks[C.length]? = some x := by simp [hks]
      rw [List.cons_append, List.length_cons, deleteScan, hr.loads_key hget ht hlen hx]
      simp only [Option.bind_eq_bind, Option.bind_some]
      rw [if_pos (hA x (by simp))]
      have hrest := ih (fun y hy => hA y (by simp [hy])) (C ++ [x]) (by simp [hks])
      simpa using hrest

section

variable {d lo a fuel : Nat} {T : BTree} {r : BTreeNode} {A B : List Int} {cs : List Nat} {k : Int}

/-- The part of `btree_delete_key` after the key was found. -/
theorem btreeDeleteKey_found (ht : 2 * T.t < 2 ^ 31) (hget : T.heap.get a = some r)
    (hr : Holds r (A ++ k :: B) cs)
    (hlen : (A ++ k :: B).length ≤ 2 * T.t - 1) (hA : ∀ x ∈ A, x < k) :
    btreeDeleteKey (fuel + 1) T (some a) k =
      if r.leaf then deleteFromLeaf T a A.length
      else (T.heap.load (childrensOf T.t) a A.length).bind (fun p => p.bind (fun left =>
        (T.heap.get left).bind (fun ln =>
          if T.t ≤ ln.num then (T.heap.load (keysOf T.t) left (ln.num - 1)).bind (fun v =>
            (T.heap.store (keysOf T.t) a A.length v).bind (fun h =>
              (h.load (keysOf T.t) left (ln.num - 1)).bind (fun m =>
                btreeDeleteKey fuel { T with heap := h } (some left) m)))
          else (T.heap.load (childrensOf T.t) a (A.length + 1)).bind (fun p => p.bind (fun right =>
            (T.heap.get right).bind (fun rn =>
              if T.t ≤ rn.num then (T.heap.load (keysOf T.t) right 0).bind (fun v =>
                (T.heap.store (keysOf T.t) a A.length v).bind (fun h =>
                  (h.load (keysOf T.t) right 0).bind (fun m =>
                    btreeDeleteKey fuel { T with heap := h } (some right) m)))
              else (btreeMerge T a A.length).bind (fun T' =>
                (T'.heap.load (childrensOf T.t) a A.length).bind (fun c =>
                  btreeDeleteKey fuel T' c k)))))))) := by
  have hscan := deleteScan_eq (B := k :: B) ht hget hr hlen
    (fun x hx => by obtain rfl : k = x := Option.some.inj hx; omega) hA [] rfl
  have hkey : (A ++ k :: B)[A.length]? = some k := by simp
  have hnum : A.length < (A ++ k :: B).length := by simp
  rw [btreeDeleteKey]
  simp only [Option.bind_eq_bind, hget, Option.bind_some, hr.num]
  rw [List.nil_append, List.length_nil] at hscan
  rw [hscan]
  simp only [Option.bind_some]
  rw [keyAt, if_pos hnum, hr.loads_key hget ht hlen hkey]
  simp

/-- The part of `btree_delete_key` after the key was not found in the node. -/
theorem btreeDeleteKey_absent (ht : 2 * T.t < 2 ^ 31) (hget : T.heap.get a = some r)
    (hr : Holds r (A ++ B) cs)
    (hlen : (A ++ B).length ≤ 2 * T.t - 1) (hA : ∀ x ∈ A, x < k)
    (hB : ∀ x, B.head? = some x → k < x) :
    btreeDeleteKey (fuel + 1) T (some a) k =
      (T.heap.load (childrensOf T.t) a A.length).bind (fun child =>
        match child with
        | none => some T
        | some child => (T.heap.get child).bind (fun cn =>
            if cn.num = T.t - 1 then (rebalanceChild T a A.length child).bind (fun q =>
              btreeDeleteKey fuel q.1 (some q.2) k)
            else btreeDeleteKey fuel T (some child) k)) := by
  have hscan := deleteScan_eq (B := B) ht hget hr hlen
    (fun x hx => by have := hB x hx; omega) hA [] rfl
  rw [btreeDeleteKey]
  simp only [Option.bind_eq_bind, hget, Option.bind_some, hr.num]
  rw [List.nil_append, List.length_nil] at hscan
  rw [hscan]
  simp only [Option.bind_some]
  have hkey : keyAt T.t T.heap a (A ++ B).length A.length k = some false := by
    unfold keyAt
    cases B with
    | nil => rw [if_neg (by simp)]
    | cons b B =>
        have hb := hB b rfl
        have hkb : decide (k = b) = false := decide_eq_false (by omega)
        rw [if_pos (by simp),
          hr.loads_key hget ht hlen (show (A ++ b :: B)[A.length]? = some b by simp)]
        exact congrArg some hkb
  rw [hkey]
  rfl

end

/-! ### Choosing between the neighbours -/

section

variable {T : BTree} {a idx child q : Nat} {rq : BTreeNode}

/-- The right neighbour is taken when it has `t` keys and more than the left one. -/
theorem borrowOrMerge_next {left : Option Nat} (hq : T.heap.get q = some rq) (hrich : T.t ≤ rq.num)
    (hleft : ∀ l, left = some l → ∃ rl, T.heap.get l = some rl ∧ rl.num < rq.num) :
    borrowOrMerge T a idx child left (some q) =
      (borrowFromNext T.t T.heap a idx child q).map (fun h => ({ T with heap := h }, child)) := by
  unfold borrowOrMerge
  simp only [Option.bind_eq_bind]
  cases left with
  | none =>
      simp only [nonNullAnd, hq, richR, Option.map_some, Option.bind_some, decide_eq_true hrich,
        Bool.or_true, Bool.and_true, if_true]
      rw [Option.map_eq_bind]
      rfl
  | some l =>
      obtain ⟨rl, hl, hlt⟩ := hleft l rfl
      simp only [nonNullAnd, hq, hl, richR, Option.bind_eq_bind, Option.map_some, Option.bind_some,
        decide_eq_true hrich, decide_eq_true (show rq.num > rl.num from hlt), Bool.or_true,
        Bool.and_true, if_true]
      rw [Option.map_eq_bind]
      rfl

/-- The left neighbour is taken when it has `t` keys and the right one no more than it. -/
theorem borrowOrMerge_prev {right : Option Nat} (hq : T.heap.get q = some rq) (hrich : T.t ≤ rq.num)
    (hright : ∀ r, right = some r → ∃ rr, T.heap.get r = some rr ∧ rr.num ≤ rq.num) :
    borrowOrMerge T a idx child (some q) right =
      (borrowFromPrev T.t T.heap a idx child q).map (fun h => ({ T with heap := h }, child)) := by
  unfold borrowOrMerge
  simp only [Option.bind_eq_bind]
  cases right with
  | none =>
      simp only [nonNullAnd, hq, richR, Option.map_some, Option.bind_some, decide_eq_true hrich,
        Bool.true_or, Bool.and_false, Bool.false_eq_true, if_true, if_false]
      rw [Option.map_eq_bind]
      rfl
  | some r =>
      obtain ⟨rr, hr, hle⟩ := hright r rfl
      have hno : decide (rr.num > rq.num) = false := decide_eq_false (by omega)
      simp only [nonNullAnd, hq, hr, richR, Option.bind_eq_bind, Option.map_some, Option.bind_some,
        decide_eq_true hrich, hno, Bool.true_or, Bool.and_false, Bool.false_eq_true, if_true,
          if_false]
      rw [Option.map_eq_bind]
      rfl

/-- A left neighbour with `t - 1` keys is merged with, unless the right one can lend. -/
theorem borrowOrMerge_left {right : Option Nat} (ht : Degree T.t) (hq : T.heap.get q = some rq)
    (hpoor : rq.num = T.t - 1)
    (hright : ∀ r, right = some r → ∃ rr, T.heap.get r = some rr ∧ rr.num = T.t - 1) :
    borrowOrMerge T a idx child (some q) right =
      (btreeMerge T a (idx - 1)).map (fun T' => (T', q)) := by
  have hno : decide (T.t ≤ T.t - 1) = false := decide_eq_false (by omega)
  unfold borrowOrMerge
  simp only [Option.bind_eq_bind]
  cases right with
  | none =>
      simp only [nonNullAnd, hq, hpoor, Option.map_some, Option.bind_some, hno, decide_true,
        Option.isNone_none, Option.isNone_some, Bool.or_false, Bool.or_true, Bool.true_or,
        Bool.and_true, Bool.false_eq_true, if_true, if_false]
      rw [Option.map_eq_bind]
      rfl
  | some r =>
      obtain ⟨rr, hr, hrr⟩ := hright r rfl
      simp only [nonNullAnd, hq, hr, hpoor, hrr, Option.map_some, Option.bind_some, hno,
        decide_true,
        Option.isNone_some, Bool.or_false, Bool.or_true, Bool.and_true, Bool.false_eq_true, if_true,
        if_false]
      rw [Option.map_eq_bind]
      rfl

/-- Without a left neighbour a right one with `t - 1` keys is merged with. -/
theorem borrowOrMerge_right (ht : Degree T.t) (hq : T.heap.get q = some rq)
    (hpoor : rq.num = T.t - 1) :
    borrowOrMerge T a idx child none (some q) =
      (btreeMerge T a idx).map (fun T' => (T', child)) := by
  have hno : decide (T.t ≤ T.t - 1) = false := decide_eq_false (by omega)
  unfold borrowOrMerge
  simp only [Option.bind_eq_bind]
  simp only [nonNullAnd, hq, hpoor, Option.map_some, Option.bind_some, hno, decide_true,
    Option.isNone_none, Option.isNone_some, Bool.or_false, Bool.or_true, Bool.true_or,
    Bool.and_true, Bool.false_eq_true, if_true, if_false]
  rw [Option.map_eq_bind]
  rfl

end

theorem rebalanceChild_eq {d a child : Nat} {T : BTree} {r : BTreeNode} {A B : List Int}
    {L R : List (Tree (d + 1))} {c : Tree (d + 1)} (hget : T.heap.get a = some r)
    (hr : Holds r (A ++ B) ((L ++ c :: R).map Tree.addr)) (hlen : (A ++ B).length ≤ 2 * T.t - 1)
    (ht : Degree T.t) (hL : L.length = A.length) (hR : R.length = B.length) :
    rebalanceChild T a A.length child = borrowOrMerge T a A.length child
      (L.getLast?.map Tree.addr) (R.head?.map Tree.addr) := by
  rw [List.length_append] at hlen
  have hleft : siblingAt T.t T.heap a (1 ≤ A.length) (A.length - 1) =
      some (L.getLast?.map Tree.addr) := by
    unfold siblingAt
    rcases List.eq_nil_or_concat L with rfl | ⟨L, l, rfl⟩
    · simp [← hL]
    · rw [List.concat_eq_append] at *
      rw [List.length_append, List.length_singleton] at hL
      rw [if_pos (by simp; omega), List.append_assoc] at *
      rw [hr.loads_mid hget ht.2 (by omega) (by omega)]
      simp
  have hright : siblingAt T.t T.heap a (A.length + 1 ≤ r.num) (A.length + 1) =
      some (R.head?.map Tree.addr) := by
    unfold siblingAt
    rw [hr.num, List.length_append]
    cases R with
    | nil =>
        rw [← hR, if_neg (by simp)]
        rfl
    | cons g R =>
        rw [List.length_cons] at hR
        rw [List.append_cons] at hr
        rw [if_pos (by simp; omega), hr.loads_mid hget ht.2 (by simp [hL]) (by omega)]
        rfl
  unfold rebalanceChild
  simp only [Option.bind_eq_bind, hget, Option.bind_some, hleft, hright]

/-- The tree after the move: a node left without keys is freed, and its child is the root. -/
def Plan.target {d : Nat} (p : Plan d) (T : BTree) (a : Nat) (h : Heap BTreeNode) : BTree :=
  if p.keysL ++ p.keysR = [] then { T with root := some p.child.addr, heap := h.erase a }
  else { T with heap := h }

section

variable {d a fuel : Nat} {T : BTree} {A B : List Int} {L R : List (Tree (d + 1))}
  {c : Tree (d + 1)} {k : Int}

/-- `btree_delete_key` at an internal node without the key, up to the choice of neighbour. -/
theorem btreeDeleteKey_poor (ht : Degree T.t)
    (hst : Stored T.heap (Tree.mk a (A ++ B) (L ++ c :: R)))
    (hlen : (A ++ B).length ≤ 2 * T.t - 1) (hL : L.length = A.length) (hR : R.length = B.length)
    (hA : ∀ x ∈ A, x < k) (hB : ∀ x, B.head? = some x → k < x) :
    btreeDeleteKey (fuel + 1) T (some a) k =
      if c.keys.length = T.t - 1 then
        (borrowOrMerge T a A.length c.addr (L.getLast?.map Tree.addr) (R.head?.map Tree.addr)).bind
          (fun q => btreeDeleteKey fuel q.1 (some q.2) k)
      else btreeDeleteKey fuel T (some c.addr) k := by
  obtain ⟨r, hget, hr⟩ : At T.heap a (A ++ B) _ := hst.rep.at
  obtain ⟨rc, hgetc, hrc⟩ := hst.mid.rep.at
  have hAlen : A.length < 2 * T.t := by
    rw [List.length_append] at hlen
    omega
  rw [btreeDeleteKey_absent ht.2 hget hr hlen hA hB, hr.loads_mid hget ht.2 hL hAlen]
  simp only [Option.bind_some, hgetc, hrc.num]
  rw [rebalanceChild_eq hget hr hlen ht hL hR]

end

theorem rewrites_set_key {d t a : Nat} {A B : List Int} {cs : List (Tree (d + 1))} {k : Int}
    {h : Heap BTreeNode} (m : Int) (ht : 2 * t < 2 ^ 31)
    (hst : Stored h (Tree.mk a (A ++ k :: B) cs))
    (hlen : (A ++ k :: B).length ≤ 2 * t - 1) :
    ∃ h', h.store (keysOf t) a A.length m = some h' ∧ (∀ p, p ≠ a → h'.get p = h.get p) ∧
      Rewrites h (Tree.mk a (A ++ k :: B) cs) h' (Tree.mk a (A ++ m :: B) cs) := by
  obtain ⟨r, hget, hr⟩ : At h a (A ++ k :: B) _ := hst.rep.at
  have hkz := keysOf_size (t := t) (by omega)
  rw [List.length_append, List.length_cons] at hlen
  have hout (p : Nat) (hp : p ≠ a) (b : BTreeNode) : (h.put a b).get p = h.get p :=
    get_put_of_ne _ _ hp
  refine ⟨_, store_eq hget (by omega) m, fun p hp => hout p hp _, ?_⟩
  have hst' : Stored h (Tree.mk a (A ++ k :: B) (cs ++ ([] ++ []))) := by simpa using hst
  have hw : Rewrites h _ (h.put a { r with keys := Function.update r.keys A.length m })
      (Tree.mk a (A ++ m :: B) (cs ++ ([] ++ []))) :=
    Rewrites.of_local (N := []) hst' (Nat.le_refl _) (fun p hp _ _ => hout p hp _)
      ⟨_, get_put_self _ _ _, by simpa using hr.set_key m⟩ (by simp) (by simp) (by simp) (by simp)
  rw [List.nil_append, List.append_nil] at hw
  exact hw

/--
The code at the node `n` does what the plan says and goes on in the plan's child, or
is stuck if the plan is not allowed.
-/
def Steps {d : Nat} (fuel : Nat) (T : BTree) (n : Tree (d + 2)) (k : Int) (p : Plan (d + 1)) :
    Prop :=
  ∃ h', Rewrites T.heap n h' (p.node n.addr p.child) ∧
    (p.Allowed T.t n.keys.length → btreeDeleteKey (fuel + 1) T (some n.addr) k =
      btreeDeleteKey fuel (p.target T n.addr h') (some p.child.addr) p.key) ∧
    (¬ p.Allowed T.t n.keys.length → btreeDeleteKey (fuel + 1) T (some n.addr) k = none)

section

variable {d lo a fuel : Nat} {T : BTree} {A B Y : List Int} {L R : List (Tree (d + 1))}
  {c r : Tree (d + 1)} {k m : Int} (ht : Degree T.t)
  (hst : Stored T.heap (Tree.mk a (A ++ k :: B) (L ++ c :: r :: R)))
  (hs : (Tree.mk a (A ++ k :: B) (L ++ c :: r :: R)).Shape T.t lo)
  (hA : ∀ x ∈ A, x < k) (hL : L.length = A.length)
include ht hst hs hA hL

theorem steps_pred (hrich : T.t ≤ c.keys.length) (hY : c.keys = Y ++ [m]) :
    Steps fuel T (Tree.mk a (A ++ k :: B) (L ++ c :: r :: R)) k
      ⟨.pred, A, L, c, m :: B, r :: R, m⟩ := by
  obtain ⟨ra, rc, rr, hgeta, hgetc, hgetr, hra, hrc, hrr, -, -, -⟩ := hst.pair hL
  obtain ⟨hac, -, -⟩ := hst.pair_ne
  have hhigh : (A ++ k :: B).length ≤ 2 * T.t - 1 := hs.high
  have hAlen : A.length < 2 * T.t := by simp at hhigh; omega
  obtain ⟨h', hstore, hout, hw⟩ := rewrites_set_key m ht.2 hst hhigh
  have hm {h : Heap BTreeNode} (hget : h.get c.addr = some rc) :
      h.load (keysOf T.t) c.addr (c.keys.length - 1) = some m :=
    hrc.loads_key hget ht.2 (hs.kid (c := c) (by simp)).high (by simp [hY])
  refine ⟨h', hw, fun _ => ?_, fun hno => absurd trivial hno⟩
  rw [Tree.addr_mk, btreeDeleteKey_found ht.2 hgeta hra hhigh hA, if_neg (by simp [hra.leaf]),
    hra.loads_mid hgeta ht.2 hL hAlen]
  simp only [Option.bind_some, hgetc, hrc.num]
  rw [if_pos hrich, hm hgetc, Option.bind_some, hstore, Option.bind_some,
    hm ((hout _ hac.symm).trans hgetc), Option.bind_some, Plan.target, if_neg (by simp)]

theorem steps_succ (hpoor : c.keys.length < T.t) (hrich : T.t ≤ r.keys.length)
    (hY : r.keys = m :: Y) :
    Steps fuel T (Tree.mk a (A ++ k :: B) (L ++ c :: r :: R)) k
      ⟨.succ, A ++ [m], L ++ [c], r, B, R, m⟩ := by
  obtain ⟨ra, rc, rr, hgeta, hgetc, hgetr, hra, hrc, hrr, -, -, -⟩ := hst.pair hL
  obtain ⟨-, har, -⟩ := hst.pair_ne
  have hhigh : (A ++ k :: B).length ≤ 2 * T.t - 1 := hs.high
  have hAlen : A.length + 1 < 2 * T.t := by simp at hhigh; omega
  obtain ⟨h', hstore, hout, hw⟩ := rewrites_set_key m ht.2 hst hhigh
  have hm {h : Heap BTreeNode} (hget : h.get r.addr = some rr) :
      h.load (keysOf T.t) r.addr 0 = some m :=
    hrr.loads_key hget ht.2 (hs.kid (c := r) (by simp)).high (by simp [hY])
  have hra' := hra
  rw [List.append_cons L c (r :: R)] at hra'
  refine ⟨h', by simpa [Plan.node] using hw, fun _ => ?_, fun hno => absurd trivial hno⟩
  rw [Tree.addr_mk, btreeDeleteKey_found ht.2 hgeta hra hhigh hA, if_neg (by simp [hra.leaf]),
    hra.loads_mid hgeta ht.2 hL (by omega)]
  simp only [Option.bind_some, hgetc, hrc.num]
  rw [if_neg (by omega), hra'.loads_mid hgeta ht.2 (by simp [hL]) hAlen]
  simp only [Option.bind_some, hgetr, hrr.num]
  rw [if_pos hrich, hm hgetr, Option.bind_some, hstore, Option.bind_some,
    hm ((hout _ har.symm).trans hgetr), Option.bind_some, Plan.target, if_neg (by simp)]

/-- The merge may free the very node whose `childrens` are read next. -/
theorem steps_joinFound (hR : R.length = B.length) (hc : c.keys.length = T.t - 1)
    (hr : r.keys.length = T.t - 1) :
    Steps fuel T (Tree.mk a (A ++ k :: B) (L ++ c :: r :: R)) k
      ⟨.joinFound, A, L, c.join k r, B, R, k⟩ := by
  obtain ⟨ra, rc, rr, hgeta, hgetc, hgetr, hra, hrc, hrr, -, -, -⟩ := hst.pair hL
  have hhigh : (A ++ k :: B).length ≤ 2 * T.t - 1 := hs.high
  have hAlen : A.length + 1 < 2 * T.t := by simp at hhigh; omega
  obtain ⟨h', hw, hmerge⟩ := btreeMerge_spec ht hst hs hL hR hc hr
  have hra' := hra
  rw [List.append_cons L c (r :: R)] at hra'
  have hrun : btreeDeleteKey (fuel + 1) T (some a) k = (btreeMerge T a A.length).bind (fun T' =>
      (T'.heap.load (childrensOf T.t) a A.length).bind (fun c => btreeDeleteKey fuel T' c k)) := by
    rw [btreeDeleteKey_found ht.2 hgeta hra hhigh hA, if_neg (by simp [hra.leaf]),
      hra.loads_mid hgeta ht.2 hL (by omega)]
    simp only [Option.bind_some, hgetc, hrc.num]
    rw [if_neg (by omega), hra'.loads_mid hgeta ht.2 (by simp [hL]) hAlen]
    simp only [Option.bind_some, hgetr, hrr.num]
    rw [if_neg (by omega)]
  have hempty : A ++ B = [] ↔ (A ++ k :: B).length = 1 := by
    rw [← List.length_eq_zero_iff]
    simp only [List.length_append, List.length_cons]
    omega
  refine ⟨h', hw, fun hok => ?_, fun hno => ?_⟩
  · have hok : (A ++ k :: B).length ≠ 2 * T.t - 1 ∧ (A ++ k :: B).length ≠ 1 := hok
    obtain ⟨rn, hgetn, hrn⟩ : At h' a (A ++ B) _ := hw.stored.rep.at
    rw [Tree.addr_mk, hrun, hmerge, if_neg hok.1, if_neg (fun he => hok.2 (hempty.mp he)),
      Option.bind_some, hrn.loads_mid hgetn ht.2 hL (by omega), Option.bind_some, Plan.target,
      if_neg (fun he => hok.2 (hempty.mp he))]
  · have hno : ¬ ((A ++ k :: B).length ≠ 2 * T.t - 1 ∧ (A ++ k :: B).length ≠ 1) := hno
    rw [Tree.addr_mk, hrun, hmerge]
    by_cases hfull : (A ++ k :: B).length = 2 * T.t - 1
    · rw [if_pos hfull]
      rfl
    · have hone : (A ++ k :: B).length = 1 := by tauto
      rw [if_neg hfull, if_pos (hempty.mpr hone), Option.bind_some,
        load_free (get_erase_self _ _)]
      rfl

end

section

variable {d lo a fuel : Nat} {T : BTree} {A B Y : List Int} {L R : List (Tree (d + 1))}
  {c s : Tree (d + 1)} {k b y : Int} (ht : Degree T.t)
include ht

theorem steps_stay (hst : Stored T.heap (Tree.mk a (A ++ B) (L ++ c :: R)))
    (hs : (Tree.mk a (A ++ B) (L ++ c :: R)).Shape T.t lo)
    (hA : ∀ x ∈ A, x < k) (hB : ∀ x, B.head? = some x → k < x) (hL : L.length = A.length)
    (hR : R.length = B.length) (hc : T.t ≤ c.keys.length) (hne : A ++ B ≠ []) :
    Steps fuel T (Tree.mk a (A ++ B) (L ++ c :: R)) k ⟨.stay, A, L, c, B, R, k⟩ := by
  refine ⟨T.heap, ⟨hst, rfl, Nat.le_refl _, fun p hp => .inl hp, fun p _ _ => rfl⟩, fun _ => ?_,
    fun hno => absurd trivial hno⟩
  rw [Tree.addr_mk, btreeDeleteKey_poor ht hst hs.high hL hR hA hB, if_neg (by omega), Plan.target,
    if_neg hne]

theorem steps_next (hst : Stored T.heap (Tree.mk a (A ++ b :: B) (L ++ c :: s :: R)))
    (hs : (Tree.mk a (A ++ b :: B) (L ++ c :: s :: R)).Shape T.t lo)
    (hA : ∀ x ∈ A, x < k) (hb : k < b) (hL : L.length = A.length) (hR : R.length = B.length)
    (hc : c.keys.length = T.t - 1) (hrich : T.t ≤ s.keys.length) (hY : s.keys = y :: Y)
    (hl : ∀ l, L.getLast? = some l → l.keys.length < s.keys.length) :
    Steps fuel T (Tree.mk a (A ++ b :: B) (L ++ c :: s :: R)) k
      ⟨.stay, A, L, c.pushed b s, y :: B, s.shifted :: R, k⟩ := by
  obtain ⟨rs, hgets, hrs⟩ := (hst.rep.kid (c := s) (by simp)).at
  obtain ⟨h', hborrow, hw⟩ := borrowFromNext_spec ht hst hs hL hc hY hrich
  refine ⟨h', hw, fun _ => ?_, fun hno => absurd trivial hno⟩
  have hleft : ∀ p, L.getLast?.map Tree.addr = some p →
      ∃ rl, T.heap.get p = some rl ∧ rl.num < rs.num := by
    intro p hp
    obtain ⟨l, hlast, rfl⟩ := Option.map_eq_some_iff.mp hp
    obtain ⟨rl, hgetl, hrl⟩ := (hst.rep.kid (c := l) (by simp [List.mem_of_getLast? hlast])).at
    exact ⟨rl, hgetl, by rw [hrl.num, hrs.num]; exact hl l hlast⟩
  rw [Tree.addr_mk, btreeDeleteKey_poor ht hst hs.high hL (by simp [hR]) hA
    (fun x hx => by obtain rfl : b = x := Option.some.inj hx; exact hb), if_pos hc,
    List.head?_cons, Option.map_some, borrowOrMerge_next hgets (hrs.num ▸ hrich) hleft, hborrow,
    Plan.target, if_neg (by simp)]
  rfl

theorem steps_prev (hst : Stored T.heap (Tree.mk a (A ++ b :: B) (L ++ s :: c :: R)))
    (hs : (Tree.mk a (A ++ b :: B) (L ++ s :: c :: R)).Shape T.t lo)
    (hA : ∀ x ∈ A ++ [b], x < k) (hB : ∀ x, B.head? = some x → k < x) (hL : L.length = A.length)
    (hR : R.length = B.length) (hc : c.keys.length = T.t - 1) (hrich : T.t ≤ s.keys.length)
    (hY : s.keys = Y ++ [y]) (hr : ∀ r, R.head? = some r → r.keys.length ≤ s.keys.length) :
    Steps fuel T (Tree.mk a (A ++ b :: B) (L ++ s :: c :: R)) k
      ⟨.stay, A ++ [y], L ++ [s.popped], s.unshifted b c, B, R, k⟩ := by
  obtain ⟨rs, hgets, hrs⟩ := (hst.rep.kid (c := s) (by simp)).at
  obtain ⟨h', hborrow, hw⟩ := borrowFromPrev_spec ht hst hs hL hc hY
  refine ⟨h', by simpa [Plan.node] using hw, fun _ => ?_, fun hno => absurd trivial hno⟩
  have hright : ∀ p, R.head?.map Tree.addr = some p →
      ∃ rr, T.heap.get p = some rr ∧ rr.num ≤ rs.num := by
    intro p hp
    obtain ⟨g, hhead, rfl⟩ := Option.map_eq_some_iff.mp hp
    obtain ⟨rr, hgetr, hrr⟩ := (hst.rep.kid (c := g) (by simp [List.mem_of_head? hhead])).at
    exact ⟨rr, hgetr, by rw [hrr.num, hrs.num]; exact hr g hhead⟩
  -- the child is the right one of the two
  rw [List.append_cons A, List.append_cons L] at hst hs
  have hlen : (A ++ [b]).length = A.length + 1 := by simp
  rw [List.append_cons A, List.append_cons L, Tree.addr_mk,
    btreeDeleteKey_poor ht hst hs.high (by simp [hL]) hR hA hB, if_pos hc, List.getLast?_concat,
    Option.map_some, borrowOrMerge_prev hgets (hrs.num ▸ hrich) hright, hlen, hborrow, Plan.target,
    if_neg (by simp)]
  rfl

/-- The merge on the way down, whichever neighbour it is with. -/
theorem steps_join (hst : Stored T.heap (Tree.mk a (A ++ b :: B) (L ++ c :: s :: R)))
    (hs : (Tree.mk a (A ++ b :: B) (L ++ c :: s :: R)).Shape T.t lo)
    (hL : L.length = A.length) (hR : R.length = B.length)
    (hc : c.keys.length = T.t - 1) (hsk : s.keys.length = T.t - 1)
    (hrun : btreeDeleteKey (fuel + 1) T (some a) k =
      (btreeMerge T a A.length).bind (fun T' => btreeDeleteKey fuel T' (some c.addr) k)) :
    Steps fuel T (Tree.mk a (A ++ b :: B) (L ++ c :: s :: R)) k
      ⟨.join, A, L, c.join b s, B, R, k⟩ := by
  obtain ⟨h', hw, hmerge⟩ := btreeMerge_spec ht hst hs hL hR hc hsk
  refine ⟨h', hw, fun hok => ?_, fun hno => ?_⟩
  · rw [Tree.addr_mk, hrun, hmerge, if_neg (show ¬ (A ++ b :: B).length = 2 * T.t - 1 from hok),
      Plan.target]
    split
    · rfl
    · rfl
  · have hfull : (A ++ b :: B).length = 2 * T.t - 1 := not_not.mp hno
    rw [Tree.addr_mk, hrun, hmerge, if_pos hfull]
    rfl

theorem steps_joinLeft (hst : Stored T.heap (Tree.mk a (A ++ b :: B) (L ++ s :: c :: R)))
    (hs : (Tree.mk a (A ++ b :: B) (L ++ s :: c :: R)).Shape T.t lo)
    (hA : ∀ x ∈ A ++ [b], x < k) (hB : ∀ x, B.head? = some x → k < x) (hL : L.length = A.length)
    (hR : R.length = B.length) (hc : c.keys.length = T.t - 1) (hsk : s.keys.length = T.t - 1)
    (hr : ∀ r, R.head? = some r → r.keys.length = T.t - 1) :
    Steps fuel T (Tree.mk a (A ++ b :: B) (L ++ s :: c :: R)) k
      ⟨.join, A, L, s.join b c, B, R, k⟩ := by
  refine steps_join ht hst hs hL hR hsk hc ?_
  obtain ⟨rs, hgets, hrs⟩ := (hst.rep.kid (c := s) (by simp)).at
  have hright : ∀ p, R.head?.map Tree.addr = some p →
      ∃ rr, T.heap.get p = some rr ∧ rr.num = T.t - 1 := by
    intro p hp
    obtain ⟨g, hhead, rfl⟩ := Option.map_eq_some_iff.mp hp
    obtain ⟨rr, hgetr, hrr⟩ := (hst.rep.kid (c := g) (by simp [List.mem_of_head? hhead])).at
    exact ⟨rr, hgetr, hrr.num.trans (hr g hhead)⟩
  rw [List.append_cons A, List.append_cons L] at hst hs
  have hlen : (A ++ [b]).length - 1 = A.length := by simp
  rw [btreeDeleteKey_poor ht hst hs.high (by simp [hL]) hR hA hB, if_pos hc, List.getLast?_concat,
    Option.map_some, borrowOrMerge_left ht hgets (hrs.num.trans hsk) hright, hlen,
    Option.bind_map]
  rfl

theorem steps_joinRight (hst : Stored T.heap (Tree.mk a (b :: B) (c :: s :: R)))
    (hs : (Tree.mk a (b :: B) (c :: s :: R)).Shape T.t lo) (hb : k < b) (hR : R.length = B.length)
    (hc : c.keys.length = T.t - 1) (hsk : s.keys.length = T.t - 1) :
    Steps fuel T (Tree.mk a (b :: B) (c :: s :: R)) k ⟨.join, [], [], c.join b s, B, R, k⟩ := by
  refine steps_join (A := []) (L := []) ht hst hs rfl hR hc hsk ?_
  obtain ⟨rs, hgets, hrs⟩ := (hst.rep.kid (c := s) (by simp)).at
  rw [btreeDeleteKey_poor (A := []) (L := []) (B := b :: B) ht hst hs.high rfl (by simp [hR])
    (by simp) (fun x hx => by obtain rfl : b = x := Option.some.inj hx; exact hb), if_pos hc,
    List.getLast?_nil, Option.map_none, List.head?_cons, Option.map_some,
    borrowOrMerge_right ht hgets (hrs.num.trans hsk), Option.bind_map]
  rfl

end

/-- **The code makes every move.** -/
theorem Moves.steps {d lo : Nat} {T : BTree} {n : Tree (d + 2)} {k : Int} {p : Plan (d + 1)}
    (hm : Moves T.t k n p) (fuel : Nat) (ht : Degree T.t) (hst : Stored T.heap n)
    (hs : n.Shape T.t lo)
    (hne : n.keys ≠ []) : Steps fuel T n k p := by
  cases hm with
  | pred hA hL hR hrich hY => exact steps_pred ht hst hs hA hL hrich hY
  | succ hA hL hR hpoor hrich hY => exact steps_succ ht hst hs hA hL hpoor hrich hY
  | joinFound hA hL hR hc hr => exact steps_joinFound ht hst hs hA hL hR hc hr
  | stay hA hB hL hR hc => exact steps_stay ht hst hs hA hB hL hR hc hne
  | next hA hb hL hR hc hrich hY hl => exact steps_next ht hst hs hA hb hL hR hc hrich hY hl
  | prev hA hB hL hR hc hrich hY hr => exact steps_prev ht hst hs hA hB hL hR hc hrich hY hr
  | joinLeft hA hB hL hR hc hl hr => exact steps_joinLeft ht hst hs hA hB hL hR hc hl hr
  | joinRight hb hR hc hr => exact steps_joinRight ht hst hs hb hR hc hr

end CppTrack.Storage
