import Mathlib.Data.List.TakeWhile
import CppTrack.Storage.BTreeBorrow

/-!
# One node's turn in a deletion

`btree_delete_key` works its way down. What it does at one internal node is said here
twice: by `plan`, a function of the tree, and by `Moves`, which lists the eight cases
with the lists involved already taken apart. `Moves` is what proofs use; `plan` says
that there is one move for each node and key, so that conditions on a whole descent
can be stated.

Two such conditions matter. `DelSafe` is that no node the descent merges children in
is full, and that a key found in a node is not merged away together with the node.
`DelGood` is that whenever the key is overwritten with the last key of its left child
(or the first of its right one), that key really is the largest (smallest) below it.
The code assumes both.
-/

namespace CppTrack.Storage

open Lib Heap

/-- How a node is left: as it is, merged below (key found or not), key overwritten. -/
inductive Kind
  | stay
  | join
  | joinFound
  | pred
  | succ
  deriving DecidableEq

/-- The node after its turn, with the child to descend into, and the key to delete there. -/
structure Plan (d : Nat) where
  kind : Kind
  keysL : List Int
  kidsL : List (Tree d)
  child : Tree d
  keysR : List Int
  kidsR : List (Tree d)
  key : Int

/-- The node at `a` with its child replaced by `c`. -/
def Plan.node {d : Nat} (p : Plan d) (a : Nat) (c : Tree d) : Tree (d + 1) :=
  Tree.mk a (p.keysL ++ p.keysR) (p.kidsL ++ c :: p.kidsR)

section

variable {d : Nat} (t : Nat) (k : Int)

/-- The key is in the node, between the children `c` and `r`. -/
def planFound (A : List Int) (L : List (Tree (d + 1))) (c r : Tree (d + 1)) (B : List Int)
    (R : List (Tree (d + 1))) : Plan (d + 1) :=
  if t ≤ c.keys.length then ⟨.pred, A, L, c, c.keys.getLastD 0 :: B, r :: R, c.keys.getLastD 0⟩
  else if t ≤ r.keys.length then ⟨.succ, A ++ [r.keys.headD 0], L ++ [c], r, B, R, r.keys.headD 0⟩
  else ⟨.joinFound, A, L, c.join k r, B, R, k⟩

/-- The right neighbour has keys to spare, and more of them than the left one. -/
def nextRich (L R : List (Tree (d + 1))) : Bool :=
  match R with
  | [] => false
  | r :: _ => t ≤ r.keys.length && L.getLast?.all (fun l => l.keys.length < r.keys.length)

/-- The key is not in the node, and if at all below `c`. -/
def planAbsent (A : List Int) (L : List (Tree (d + 1))) (c : Tree (d + 1)) (B : List Int)
    (R : List (Tree (d + 1))) : Plan (d + 1) :=
  let stay : Plan (d + 1) := ⟨.stay, A, L, c, B, R, k⟩
  if c.keys.length ≠ t - 1 then stay
  else if nextRich t L R then
    match B, R with
    | b :: B, r :: R => ⟨.stay, A, L, c.pushed b r, r.keys.headD 0 :: B, r.shifted :: R, k⟩
    | _, _ => stay
  else
    match A.getLast?, L.getLast? with
    | some b, some l =>
        if t ≤ l.keys.length then
          ⟨.stay, A.dropLast ++ [l.keys.getLastD 0], L.dropLast ++ [l.popped],
            l.unshifted b c, B, R, k⟩
        else ⟨.join, A.dropLast, L.dropLast, l.join b c, B, R, k⟩
    | _, _ =>
        match B, R with
        | b :: B, r :: R => ⟨.join, A, L, c.join b r, B, R, k⟩
        | _, _ => stay

/-- What `btree_delete_key` does at an internal node. -/
def plan (n : Tree (d + 2)) : Option (Plan (d + 1)) :=
  let A := n.keys.takeWhile (· < k)
  let B := n.keys.dropWhile (· < k)
  let L := n.kids.take A.length
  match B, n.kids.drop A.length with
  | b :: B, c :: r :: R =>
      some (if b = k then planFound t k A L c r B R else planAbsent t k A L c (b :: B) (r :: R))
  | [], c :: R => some (planAbsent t k A L c [] R)
  | _, _ => none

end

/-- No store past the end of `childrens`, and no node read that the merge has freed. -/
def Plan.Allowed {d : Nat} (t len : Nat) (p : Plan d) : Prop :=
  match p.kind with
  | .join => len ≠ 2 * t - 1
  | .joinFound => len ≠ 2 * t - 1 ∧ len ≠ 1
  | _ => True

/-- The key that overwrites the deleted one is the largest, or the smallest, below. -/
def Plan.Exact {d : Nat} (p : Plan d) : Prop :=
  match p.kind with
  | .pred => ∀ x ∈ p.child.inorder, x ≤ p.key
  | .succ => ∀ x ∈ p.child.inorder, p.key ≤ x
  | _ => True

/-- Every node of the descent from `n` after `k` is allowed to do what it does. -/
def DelSafe (t : Nat) : {d : Nat} → Tree d → Int → Prop
  | 0, _, _ => True
  | 1, _, _ => True
  | _ + 2, n, k => ∃ p, plan t k n = some p ∧ p.Allowed t n.keys.length ∧ DelSafe t p.child p.key

/-- Every key overwritten on the descent from `n` after `k` gets the right value. -/
def DelGood (t : Nat) : {d : Nat} → Tree d → Int → Prop
  | 0, _, _ => True
  | 1, _, _ => True
  | _ + 2, n, k => ∃ p, plan t k n = some p ∧ p.Exact ∧ DelGood t p.child p.key

/-! ## The cases -/

/-- The moves at an internal node, one for each case of the code. -/
inductive Moves {d : Nat} (t : Nat) (k : Int) : Tree (d + 2) → Plan (d + 1) → Prop
  | pred {a A B L R c r Y m} : (∀ x ∈ A, x < k) → L.length = A.length → R.length = B.length →
      t ≤ c.keys.length → c.keys = Y ++ [m] →
      Moves t k (Tree.mk a (A ++ k :: B) (L ++ c :: r :: R)) ⟨.pred, A, L, c, m :: B, r :: R, m⟩
  | succ {a A B L R c r Y m} : (∀ x ∈ A, x < k) → L.length = A.length → R.length = B.length →
      c.keys.length < t → t ≤ r.keys.length → r.keys = m :: Y →
      Moves t k (Tree.mk a (A ++ k :: B) (L ++ c :: r :: R)) ⟨.succ, A ++ [m], L ++ [c], r, B, R, m⟩
  | joinFound {a A B L R c r} : (∀ x ∈ A, x < k) → L.length = A.length → R.length = B.length →
      c.keys.length = t - 1 → r.keys.length = t - 1 →
      Moves t k (Tree.mk a (A ++ k :: B) (L ++ c :: r :: R)) ⟨.joinFound, A, L, c.join k r, B, R, k⟩
  | stay {a A B L R c} : (∀ x ∈ A, x < k) → (∀ x, B.head? = some x → k < x) →
      L.length = A.length → R.length = B.length → t ≤ c.keys.length →
      Moves t k (Tree.mk a (A ++ B) (L ++ c :: R)) ⟨.stay, A, L, c, B, R, k⟩
  | next {a A B L R c r b Y y} : (∀ x ∈ A, x < k) → k < b → L.length = A.length →
      R.length = B.length → c.keys.length = t - 1 → t ≤ r.keys.length → r.keys = y :: Y →
      (∀ l, L.getLast? = some l → l.keys.length < r.keys.length) →
      Moves t k (Tree.mk a (A ++ b :: B) (L ++ c :: r :: R))
        ⟨.stay, A, L, c.pushed b r, y :: B, r.shifted :: R, k⟩
  | prev {a A B L R c l b Y y} : (∀ x ∈ A ++ [b], x < k) → (∀ x, B.head? = some x → k < x) →
      L.length = A.length → R.length = B.length → c.keys.length = t - 1 → t ≤ l.keys.length →
      l.keys = Y ++ [y] → (∀ r, R.head? = some r → r.keys.length ≤ l.keys.length) →
      Moves t k (Tree.mk a (A ++ b :: B) (L ++ l :: c :: R))
        ⟨.stay, A ++ [y], L ++ [l.popped], l.unshifted b c, B, R, k⟩
  | joinLeft {a A B L R c l b} : (∀ x ∈ A ++ [b], x < k) → (∀ x, B.head? = some x → k < x) →
      L.length = A.length → R.length = B.length → c.keys.length = t - 1 → l.keys.length = t - 1 →
      (∀ r, R.head? = some r → r.keys.length = t - 1) →
      Moves t k (Tree.mk a (A ++ b :: B) (L ++ l :: c :: R)) ⟨.join, A, L, l.join b c, B, R, k⟩
  | joinRight {a B R c r b} : k < b → R.length = B.length → c.keys.length = t - 1 →
      r.keys.length = t - 1 →
      Moves t k (Tree.mk a (b :: B) (c :: r :: R)) ⟨.join, [], [], c.join b r, B, R, k⟩

section

variable {d t lo a : Nat} {k : Int} {A B : List Int} {L R : List (Tree (d + 1))}
    {c r : Tree (d + 1)}

theorem planFound_moves (ht : 2 ≤ t) (hA : ∀ x ∈ A, x < k) (hL : L.length = A.length)
    (hR : R.length = B.length) (hc : t - 1 ≤ c.keys.length) (hr : t - 1 ≤ r.keys.length) :
    Moves t k (Tree.mk a (A ++ k :: B) (L ++ c :: r :: R)) (planFound t k A L c r B R) := by
  unfold planFound
  split
  · rename_i hrich
    rcases List.eq_nil_or_concat c.keys with hnil | ⟨Y, m, hY⟩
    · simp [hnil] at hrich; omega
    · rw [List.concat_eq_append] at hY
      have hlast : c.keys.getLastD 0 = m := by simp [hY]
      rw [hlast]
      exact .pred hA hL hR hrich hY
  · split
    · rename_i hrich
      cases hY : r.keys with
      | nil => simp [hY] at hrich; omega
      | cons m Y => exact .succ hA hL hR (by omega) hrich hY
    · exact .joinFound hA hL hR (by omega) (by omega)

theorem planAbsent_moves (ht : 2 ≤ t) (hA : ∀ x ∈ A, x < k) (hB : ∀ x, B.head? = some x → k < x)
    (hL : L.length = A.length) (hR : R.length = B.length) (hne : A ++ B ≠ [])
    (hkids : ∀ g ∈ L ++ c :: R, t - 1 ≤ g.keys.length) :
    Moves t k (Tree.mk a (A ++ B) (L ++ c :: R)) (planAbsent t k A L c B R) := by
  have hc := hkids c (by simp)
  unfold planAbsent
  dsimp only
  split
  · exact .stay hA hB hL hR (by omega)
  · rename_i hck
    have hck : c.keys.length = t - 1 := by omega
    split
    · rename_i hrich
      cases hR' : R with
      | nil => simp [nextRich, hR'] at hrich
      | cons r R₁ =>
          obtain ⟨b, B₁, rfl⟩ :=
            List.exists_cons_of_length_eq_add_one (hR ▸ hR' ▸ rfl : B.length = R₁.length + 1)
          subst hR'
          simp only [nextRich, Bool.and_eq_true, decide_eq_true_eq] at hrich
          cases hY : r.keys with
          | nil => simp [hY] at hrich; omega
          | cons y Y =>
              have hfirst : r.keys.headD 0 = y := by rw [hY]; rfl
              dsimp only
              rw [hfirst]
              refine .next hA (hB b rfl) hL (by simpa using hR) hck hrich.1 hY (fun l hl => ?_)
              simpa [hl] using hrich.2
    · rename_i hpoor
      rcases List.eq_nil_or_concat A with rfl | ⟨A₁, b, rfl⟩
      · -- nothing to the left
        obtain rfl : L = [] := List.eq_nil_of_length_eq_zero hL
        obtain ⟨b, B₁, rfl⟩ := List.exists_cons_of_ne_nil (l := B) (by simpa using hne)
        obtain ⟨r, R₁, rfl⟩ := List.exists_cons_of_length_eq_add_one hR
        have hr := hkids r (by simp)
        simp only [nextRich, List.getLast?_nil, Option.all_none, Bool.and_true,
          decide_eq_true_eq] at hpoor
        exact .joinRight (hB b rfl) (by simpa using hR) hck (by omega)
      · rcases List.eq_nil_or_concat L with rfl | ⟨L₁, l, rfl⟩
        · simp at hL
        · simp only [List.concat_eq_append, List.getLast?_concat, List.dropLast_concat,
            List.append_assoc, List.singleton_append, List.length_append, List.length_singleton]
            at hA hL hpoor hkids ⊢
          have hl := hkids l (by simp)
          -- a right neighbour is no richer than the left one
          have hright : ∀ r, R.head? = some r →
            ¬ (t ≤ r.keys.length ∧ l.keys.length < r.keys.length) := by
            intro r hr
            obtain ⟨R₁, rfl⟩ := List.head?_eq_some_iff.mp hr
            simpa [nextRich] using hpoor
          split
          · rename_i hrich
            rcases List.eq_nil_or_concat l.keys with hnil | ⟨Y, y, hY⟩
            · simp [hnil] at hrich; omega
            · rw [List.concat_eq_append] at hY
              have hlast : l.keys.getLastD 0 = y := by simp [hY]
              rw [hlast]
              refine .prev hA hB (by omega) hR hck hrich hY (fun r hr => ?_)
              have := hright r hr
              omega
          · refine .joinLeft hA hB (by omega) hR hck (by omega) (fun r hr => ?_)
            have := hright r hr
            have := hkids r (by simp [List.mem_of_head? hr])
            omega

/-- **There is a move** at every internal node that has a key. -/
theorem plan_moves {n : Tree (d + 2)} (ht : 2 ≤ t) (hs : n.Shape t lo) (hne : n.keys ≠ []) :
    ∃ p, plan t k n = some p ∧ Moves t k n p := by
  obtain ⟨a, ks, cs, rfl⟩ : ∃ a ks cs, n = Tree.mk a ks cs := ⟨_, _, _, rfl⟩
  have hlen : cs.length = ks.length + 1 := hs.kids_length
  have hkids : ∀ g ∈ cs, t - 1 ≤ g.keys.length := fun g hg => (hs.kid hg).low
  have hA : ∀ x ∈ ks.takeWhile (· < k), x < k := fun x hx => by
    simpa using List.mem_takeWhile_imp hx
  have hB : ∀ x, (ks.dropWhile (· < k)).head? = some x → ¬ x < k := fun x hx => by
    simpa [hx] using List.head?_dropWhile_not (p := (· < k)) (l := ks)
  have hks : ks.takeWhile (· < k) ++ ks.dropWhile (· < k) = ks := List.takeWhile_append_dropWhile
  rw [plan, Tree.keys_mk, Tree.kids_mk]
  rw [Tree.keys_mk] at hne
  generalize ks.takeWhile (· < k) = A at *
  generalize ks.dropWhile (· < k) = B at *
  subst hks
  obtain ⟨L, c, R, rfl, hL⟩ := exists_split (l := cs) (i := A.length) (by simp at hlen; omega)
  have hR : R.length = B.length := by simp at hlen; omega
  have htake : (L ++ c :: R).take A.length = L := by rw [← hL]; simp
  have hdrop : (L ++ c :: R).drop A.length = c :: R := by rw [← hL]; simp
  simp only [htake, hdrop]
  cases B with
  | nil =>
      obtain rfl : R = [] := List.eq_nil_of_length_eq_zero hR
      exact ⟨_, rfl, planAbsent_moves ht hA (by simp) hL rfl hne hkids⟩
  | cons b B =>
      obtain ⟨r, R, rfl⟩ := List.exists_cons_of_length_eq_add_one hR
      have hb := hB b rfl
      refine ⟨_, rfl, ?_⟩
      split
      · rename_i hbk
        subst hbk
        exact planFound_moves ht hA hL (by simpa using hR) (hkids c (by simp)) (hkids r (by simp))
      · refine planAbsent_moves ht hA (fun x hx => ?_) hL hR hne hkids
        obtain rfl : b = x := Option.some.inj hx
        omega

end

theorem delSafe_iff {d t : Nat} {n : Tree (d + 2)} {k : Int} {p : Plan (d + 1)}
    (hp : plan t k n = some p) :
    DelSafe t n k ↔ p.Allowed t n.keys.length ∧ DelSafe t p.child p.key := by
  constructor
  · rintro ⟨q, hq, hsafe⟩
    obtain rfl : p = q := Option.some.inj (hp.symm.trans hq)
    exact hsafe
  · exact fun hsafe => ⟨p, hp, hsafe⟩

theorem delGood_iff {d t : Nat} {n : Tree (d + 2)} {k : Int} {p : Plan (d + 1)}
    (hp : plan t k n = some p) :
    DelGood t n k ↔ p.Exact ∧ DelGood t p.child p.key := by
  constructor
  · rintro ⟨q, hq, hgood⟩
    obtain rfl : p = q := Option.some.inj (hp.symm.trans hq)
    exact hgood
  · exact fun hgood => ⟨p, hp, hgood⟩

/-! ## Shape -/

theorem shape_local {d t lo lo' a : Nat} {ks ks' : List Int} {L M N R : List (Tree (d + 1))}
    (hs : (Tree.mk a ks (L ++ (M ++ R))).Shape t lo) (hN : ∀ g ∈ N, g.Shape t (t - 1))
    (hlen : ks'.length + M.length = ks.length + N.length) (hlow : lo' ≤ ks'.length)
    (hhigh : ks'.length ≤ ks.length) : (Tree.mk a ks' (L ++ (N ++ R))).Shape t lo' := by
  have hkids : (L ++ (M ++ R)).length = ks.length + 1 := hs.kids_length
  have hold := hs.high
  refine Tree.shape_mk.mpr ⟨hlow, Nat.le_trans hhigh hold, fun _ => ?_, fun g hg => ?_⟩
  · simp only [List.length_append] at hkids ⊢
    omega
  · simp only [List.mem_append] at hg
    rcases hg with hg | hg | hg
    · exact hs.kid (by simp [hg])
    · exact hN g hg
    · exact hs.kid (by simp [hg])

/-- After a move the child has `t` keys at least, and the node at most one less. -/
theorem Moves.shape {d t lo : Nat} {k : Int} {n : Tree (d + 2)} {p : Plan (d + 1)} (ht : 2 ≤ t)
    (hm : Moves t k n p) (hs : n.Shape t lo) :
    p.child.Shape t t ∧ (p.node n.addr p.child).Shape t (lo - 1) := by
  have hlow := hs.low
  cases hm with
  | @pred a A B L R c r Y m hA hL hR hrich hY =>
      refine ⟨(hs.kid (by simp)).weaken hrich, ?_⟩
      refine shape_local (L := L) (M := []) (N := []) (R := c :: r :: R) hs (by simp) ?_ ?_ ?_
      all_goals simp at hlow ⊢ <;> omega
  | @succ a A B L R c r Y m hA hL hR hpoor hrich hY =>
      refine ⟨(hs.kid (by simp)).weaken hrich, ?_⟩
      simp only [Plan.node, List.append_assoc, List.singleton_append]
      refine shape_local (L := L) (M := []) (N := []) (R := c :: r :: R) hs (by simp) ?_ ?_ ?_
      all_goals simp at hlow ⊢ <;> omega
  | @joinFound a A B L R c r hA hL hR hc hr =>
      have hj := (hs.kid (c := c) (by simp)).join (k := k) (hs.kid (c := r) (by simp)) hc hr ht
      refine ⟨hj, shape_local (L := L) (M := [c, r]) (N := [c.join k r]) hs ?_ ?_ ?_ ?_⟩
      · simpa using hj.weaken (by have := hj.low; omega)
      all_goals simp at hlow ⊢ <;> omega
  | @stay a A B L R c hA hB hL hR hc =>
      refine ⟨(hs.kid (by simp)).weaken hc, hs.weaken ?_⟩
      omega
  | @next a A B L R c r b Y y hA hb hL hR hc hrich hY hl =>
      have hp := (hs.kid (c := c) (by simp)).pushed (k := b) (hs.kid (c := r) (by simp)) hc ht
      have hsh := (hs.kid (c := r) (by simp)).shifted ht hrich
      refine ⟨hp, shape_local (L := L) (M := [c, r]) (N := [c.pushed b r, r.shifted])
        hs ?_ ?_ ?_ ?_⟩
      · simpa using ⟨hp.weaken (by have := hp.low; omega), hsh⟩
      all_goals simp at hlow ⊢ <;> omega
  | @prev a A B L R c l b Y y hA hB hL hR hc hrich hY hr =>
      have hp := (hs.kid (c := c) (by simp)).unshifted (k := b) (hs.kid (c := l) (by simp)) hc ht
      have hsh := (hs.kid (c := l) (by simp)).popped ht hrich
      simp only [Plan.node, List.append_assoc, List.singleton_append]
      refine ⟨hp, shape_local (L := L) (M := [l, c]) (N := [l.popped, l.unshifted b c])
        hs ?_ ?_ ?_ ?_⟩
      · simpa using ⟨hsh, hp.weaken (by have := hp.low; omega)⟩
      all_goals simp at hlow ⊢ <;> omega
  | @joinLeft a A B L R c l b hA hB hL hR hc hl hr =>
      have hj := (hs.kid (c := l) (by simp)).join (k := b) (hs.kid (c := c) (by simp)) hl hc ht
      refine ⟨hj, shape_local (L := L) (M := [l, c]) (N := [l.join b c]) hs ?_ ?_ ?_ ?_⟩
      · simpa using hj.weaken (by have := hj.low; omega)
      all_goals simp at hlow ⊢ <;> omega
  | @joinRight a B R c r b hb hR hc hr =>
      have hj := (hs.kid (c := c) (by simp)).join (k := b) (hs.kid (c := r) (by simp)) hc hr ht
      refine ⟨hj, shape_local (L := []) (M := [c, r]) (N := [c.join b r]) hs ?_ ?_ ?_ ?_⟩
      · simpa using hj.weaken (by have := hj.low; omega)
      all_goals simp at hlow ⊢ <;> omega

end CppTrack.Storage
