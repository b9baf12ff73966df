import Mathlib.Data.List.Basic
import Mathlib.Data.List.Perm.Basic
import Mathlib.Order.Lattice

/-!
# Weaving separators between lists

A node of a search tree holds separators and, between and around them, subtrees.
Read from left to right it is the contents of the first subtree, the first
separator, the contents of the second subtree, and so on. `weave` is that reading,
for any number of lists and separators; with no lists at all it is just the
separators, so a leaf is read the same way.
-/

namespace CppTrack.Lib

variable {α : Type*}

/-- First list, first separator, second list, second separator, and so on. -/
def weave : List (List α) → List α → List α
  | [], ks => ks
  | c :: cs, [] => c ++ weave cs []
  | c :: cs, k :: ks => c ++ k :: weave cs ks

@[simp] theorem weave_nil_left (ks : List α) : weave [] ks = ks := by
  unfold weave; rfl

@[simp] theorem weave_cons_nil (c : List α) (cs : List (List α)) :
    weave (c :: cs) [] = c ++ weave cs [] := by
  rw [weave]

@[simp] theorem weave_cons_cons (c : List α) (cs : List (List α)) (k : α) (ks : List α) :
    weave (c :: cs) (k :: ks) = c ++ k :: weave cs ks := by
  rw [weave]

/-- As many lists as separators on the left: the reading falls apart there. -/
theorem weave_append {L C : List (List α)} {A B : List α} (h : L.length = A.length) :
    weave (L ++ C) (A ++ B) = weave L A ++ weave C B := by
  induction L generalizing A with
  | nil =>
      cases A with
      | nil => simp
      | cons a A => simp at h
  | cons c L ih =>
      cases A with
      | nil => simp at h
      | cons a A =>
          simp only [List.cons_append, weave_cons_cons, List.append_assoc]
          rw [ih (by simpa using h)]

/-- One more list than separators on the left: the reading falls apart at the next separator. -/
theorem weave_split {C₁ C₂ : List (List α)} {Y₁ Y₂ : List α} {m : α}
    (h : C₁.length = Y₁.length + 1) :
    weave (C₁ ++ C₂) (Y₁ ++ m :: Y₂) = weave C₁ Y₁ ++ m :: weave C₂ Y₂ := by
  induction C₁ generalizing Y₁ with
  | nil => simp at h
  | cons c C₁ ih =>
      cases Y₁ with
      | nil =>
          have hC₁ : C₁ = [] := by simpa using h
          simp [hC₁]
      | cons y Y₁ =>
          simp only [List.cons_append, weave_cons_cons, List.append_assoc]
          rw [ih (by simpa using h)]

/-- What follows the first list of a reading. -/
def weaveTail (cs : List (List α)) : List α → List α
  | [] => weave cs []
  | k :: ks => k :: weave cs ks

/-- The reading of a node with one of its lists singled out. -/
theorem weave_focus {L R : List (List α)} {A B : List α} (h : L.length = A.length) (c : List α) :
    weave (L ++ c :: R) (A ++ B) = weave L A ++ (c ++ weaveTail R B) := by
  rw [weave_append h]
  cases B with
  | nil => rfl
  | cons b B => rfl

theorem weaveTail_cons (c : List α) (cs : List (List α)) (k : α) (ks : List α) :
    weaveTail (c :: cs) (k :: ks) = k :: (c ++ weaveTail cs ks) := by
  have h := weave_focus (L := []) (R := cs) (A := []) (B := ks) rfl c
  rw [weaveTail]
  simpa using h

/-- The same with two neighbouring lists and the separator between them singled out. -/
theorem weave_focus₂ {L R : List (List α)} {A B : List α} (h : L.length = A.length)
    (c₁ c₂ : List α) (m : α) :
    weave (L ++ c₁ :: c₂ :: R) (A ++ m :: B) =
      weave L A ++ ((c₁ ++ m :: c₂) ++ weaveTail R B) := by
  rw [weave_focus h, weaveTail_cons, List.append_assoc, List.cons_append]

/-- The reading up to place `i`, one place on. -/
theorem weave_take_succ {cs : List (List α)} {ks : List α} {i : Nat} {c : List α} {k : α}
    (hc : cs[i]? = some c) (hk : ks[i]? = some k) :
    weave (cs.take (i + 1)) (ks.take (i + 1)) = weave (cs.take i) (ks.take i) ++ (c ++ [k]) := by
  obtain ⟨hci, -⟩ := List.getElem?_eq_some_iff.mp hc
  obtain ⟨hki, -⟩ := List.getElem?_eq_some_iff.mp hk
  rw [List.take_add_one, List.take_add_one, hc, hk, weave_append (by simp; omega)]
  rfl

/-- The reading up to the last separator, and the list after it. -/
theorem weave_last {cs : List (List α)} {ks c : List α} (hlen : cs.length = ks.length + 1)
    (hc : cs[ks.length]? = some c) : weave cs ks = weave (cs.take ks.length) ks ++ c := by
  have hdrop : cs.drop ks.length = [c] := by
    rw [List.drop_eq_getElem?_toList_append, hc, List.drop_of_length_le (by omega)]
    rfl
  have h := weave_append (L := cs.take ks.length) (C := [c]) (A := ks) (B := []) (by simp; omega)
  rw [← hdrop, List.take_append_drop, List.append_nil, hdrop] at h
  simpa using h

theorem weave_perm (cs : List (List α)) (ks : List α) : (weave cs ks).Perm (ks ++ cs.flatten) := by
  induction cs generalizing ks with
  | nil => simp
  | cons c cs ih =>
      cases ks with
      | nil =>
          simp only [weave_cons_nil, List.flatten_cons, List.nil_append]
          exact (ih []).append_left c
      | cons k ks =>
          simp only [weave_cons_cons, List.flatten_cons, List.cons_append]
          refine List.perm_middle.trans (List.Perm.cons k ?_)
          refine ((ih ks).append_left c).trans ?_
          rw [← List.append_assoc, ← List.append_assoc]
          exact List.perm_append_comm.append_right _

theorem mem_weave {cs : List (List α)} {ks : List α} {x : α} :
    x ∈ weave cs ks ↔ x ∈ ks ∨ ∃ c ∈ cs, x ∈ c := by
  rw [(weave_perm cs ks).mem_iff, List.mem_append, List.mem_flatten]

/-! ## Sorted readings -/

variable [LinearOrder α]

/-- Non-decreasing. -/
def Sorted (l : List α) : Prop := l.Pairwise (· ≤ ·)

theorem Sorted.left {l l' : List α} (h : Sorted (l ++ l')) : Sorted l :=
  (List.pairwise_append.mp h).1

theorem Sorted.right {l l' : List α} (h : Sorted (l ++ l')) : Sorted l' :=
  (List.pairwise_append.mp h).2.1

theorem Sorted.le {l l' : List α} (h : Sorted (l ++ l')) {a b : α} (ha : a ∈ l) (hb : b ∈ l') :
    a ≤ b := (List.pairwise_append.mp h).2.2 a ha b hb

theorem sorted_append {l l' : List α} :
    Sorted (l ++ l') ↔ Sorted l ∧ Sorted l' ∧ ∀ a ∈ l, ∀ b ∈ l', a ≤ b := List.pairwise_append

/-- Replacing the middle by some of its own elements disturbs the order only within it. -/
theorem sorted_middle {X C D Y : List α} (h : Sorted (X ++ (C ++ Y))) (hsub : ∀ x ∈ D, x ∈ C) :
    Sorted (X ++ (D ++ Y)) ↔ Sorted D := by
  constructor
  · intro h'
    exact h'.right.left
  · intro hD
    refine sorted_append.mpr ⟨h.left, sorted_append.mpr ⟨hD, h.right.right, ?_⟩, ?_⟩
    · intro a ha b hb
      exact h.right.le (hsub a ha) hb
    · intro a ha b hb
      rcases List.mem_append.mp hb with hb | hb
      · exact h.le ha (List.mem_append_left _ (hsub b hb))
      · exact h.le ha (List.mem_append_right _ hb)

/-- Every separator is at least what stands before it and at most what stands after it. -/
def Separates (ks : List α) (cs : List (List α)) : Prop :=
  ∀ i k, ks[i]? = some k →
    (∀ c, cs[i]? = some c → ∀ x ∈ c, x ≤ k) ∧ (∀ c, cs[i + 1]? = some c → ∀ x ∈ c, k ≤ x)

theorem separates_cons {k : α} {ks c : List α} {cs : List (List α)} :
    Separates (k :: ks) (c :: cs) ↔
      (∀ x ∈ c, x ≤ k) ∧ (∀ c', cs[0]? = some c' → ∀ x ∈ c', k ≤ x) ∧ Separates ks cs := by
  constructor
  · intro h
    refine ⟨(h 0 k rfl).1 c rfl, (h 0 k rfl).2, fun i k' hk' => ?_⟩
    exact h (i + 1) k' hk'
  · rintro ⟨hc, hc', hrest⟩ i k' hk'
    cases i with
    | zero =>
        obtain rfl : k = k' := Option.some.inj hk'
        exact ⟨fun c₁ h₁ => Option.some.inj h₁ ▸ hc, hc'⟩
    | succ i => exact hrest i k' hk'

theorem sorted_cons {a : α} {l : List α} : Sorted (a :: l) ↔ (∀ b ∈ l, a ≤ b) ∧ Sorted l :=
  List.pairwise_cons

/-- The reading is sorted when each list is and the separators separate them. -/
theorem sorted_weave {cs : List (List α)} {ks : List α} (h : cs.length = ks.length + 1) :
    Sorted (weave cs ks) ↔ Sorted ks ∧ Separates ks cs ∧ ∀ c ∈ cs, Sorted c := by
  induction ks generalizing cs with
  | nil =>
      obtain ⟨c, rfl⟩ := List.length_eq_one_iff.mp h
      simp [Sorted, Separates]
  | cons k ks ih =>
      obtain ⟨c, cs, rfl⟩ := List.exists_cons_of_length_eq_add_one h
      have hlen : cs.length = ks.length + 1 := by simpa using h
      obtain ⟨c', cs', rfl⟩ := List.exists_cons_of_length_eq_add_one hlen
      rw [weave_cons_cons, sorted_append, sorted_cons, ih hlen, separates_cons, sorted_cons,
        List.forall_mem_cons (a := c)]
      constructor
      · rintro ⟨hc, ⟨hk, hks, hsep, hcs⟩, hle⟩
        refine ⟨⟨fun b hb => hk b (mem_weave.mpr (.inl hb)), hks⟩,
          ⟨fun x hx => hle x hx k (by simp), ?_, hsep⟩, hc, hcs⟩
        intro d hd x hx
        obtain rfl : c' = d := Option.some.inj hd
        exact hk x (mem_weave.mpr (.inr ⟨c', by simp, hx⟩))
      · rintro ⟨⟨hk, hks⟩, ⟨hle, hge, hsep⟩, hc, hcs⟩
        -- what follows the first separator is at least the first list of the rest
        have hrest : ∀ b ∈ weave (c' :: cs') ks, k ≤ b := by
          have hs := (ih hlen).mpr ⟨hks, hsep, hcs⟩
          intro b hb
          cases ks with
          | nil =>
              obtain rfl : cs' = [] := by simpa using hlen
              exact hge c' rfl b (by simpa using hb)
          | cons k' ks =>
              rw [weave_cons_cons] at hb hs
              rcases List.mem_append.mp hb with hb | hb
              · exact hge c' rfl b hb
              · rcases List.mem_cons.mp hb with rfl | hb
                · exact hk b (by simp)
                · exact le_trans (hk k' (by simp)) ((sorted_cons.mp hs.right).1 b hb)
        refine ⟨hc, ⟨hrest, hks, hsep, hcs⟩, fun a ha b hb => ?_⟩
        rcases List.mem_cons.mp hb with rfl | hb
        · exact hle a ha
        · exact le_trans (hle a ha) (hrest b hb)

/-- Adding to the middle an element that belongs there. -/
theorem sorted_insert {X C D Y : List α} {k : α} (h : Sorted (X ++ (C ++ Y))) (hD : Sorted D)
    (hp : D.Perm (k :: C)) (hX : ∀ x ∈ X, x ≤ k) (hY : ∀ y ∈ Y, k ≤ y) :
    Sorted (X ++ (D ++ Y)) := by
  refine sorted_append.mpr ⟨h.left, sorted_append.mpr ⟨hD, h.right.right, ?_⟩, ?_⟩
  · intro a ha b hb
    rcases List.mem_cons.mp (hp.mem_iff.mp ha) with rfl | ha
    · exact hY b hb
    · exact h.right.le ha hb
  · intro a ha b hb
    rcases List.mem_append.mp hb with hb | hb
    · rcases List.mem_cons.mp (hp.mem_iff.mp hb) with rfl | hb
      · exact hX a ha
      · exact h.le ha (List.mem_append_left _ hb)
    · exact h.le ha (List.mem_append_right _ hb)

theorem Sorted.le_last {l : List α} {k x : α} (h : Sorted l)
    (hk : ∀ a, l.getLast? = some a → a ≤ k) (hx : x ∈ l) : x ≤ k := by
  rcases List.eq_nil_or_concat l with rfl | ⟨l, a, rfl⟩
  · simp at hx
  · rw [List.concat_eq_append] at *
    have ha : a ≤ k := hk a (by simp)
    rcases List.mem_append.mp hx with hx | hx
    · exact le_trans (h.le hx List.mem_cons_self) ha
    · exact List.mem_singleton.mp hx ▸ ha

/-- Everything up to the last separator is at most that separator. -/
theorem le_of_mem_weave {L : List (List α)} {A : List α} {k x : α} (hlen : L.length = A.length)
    (h : Sorted (weave L A)) (hk : ∀ a, A.getLast? = some a → a ≤ k) (hx : x ∈ weave L A) :
    x ≤ k := by
  refine h.le_last (fun a ha => hk a ?_) hx
  rcases List.eq_nil_or_concat A with rfl | ⟨A, b, rfl⟩
  · obtain rfl : L = [] := List.eq_nil_of_length_eq_zero hlen
    exact ha
  · rcases List.eq_nil_or_concat L with rfl | ⟨L, l, rfl⟩
    · simp at hlen
    · rw [List.concat_eq_append, List.concat_eq_append] at *
      rw [weave_append (by simpa using hlen), weave_cons_cons] at ha
      simpa using ha

/-- Everything from the next separator on is at least that separator. -/
theorem le_of_mem_weaveTail {R : List (List α)} {B : List α} {k x : α} (hlen : R.length = B.length)
    (h : Sorted (weaveTail R B)) (hk : ∀ b, B.head? = some b → k ≤ b) (hx : x ∈ weaveTail R B) :
    k ≤ x := by
  cases B with
  | nil =>
      obtain rfl : R = [] := List.eq_nil_of_length_eq_zero hlen
      simp [weaveTail] at hx
  | cons b B =>
      rcases List.mem_cons.mp hx with rfl | hx
      · exact hk x rfl
      · exact le_trans (hk b rfl) ((sorted_cons.mp h).1 x hx)

/-- Two non-decreasing lists with the same elements are equal. -/
theorem Sorted.eq_of_perm {l l' : List α} (h : Sorted l) (h' : Sorted l') (hp : l.Perm l') :
    l = l' := hp.eq_of_pairwise (fun _ _ _ _ hab hba => le_antisymm hab hba) h h'

end CppTrack.Lib
