import Mathlib.Data.List.Nodup
import Mathlib.Data.List.Range
import Mathlib.Data.List.Perm.Subperm
import CppTrack.Timers.SkipList

/-!
# The chains of the skip list

`Path h i x l` says that following level `i` from `x` meets the nodes `l` and then ends.
The list is `Represents`-ed by one sequence of nodes, that of level 0, and the level of
each: the chain of level `i` is the nodes with more than `i` levels. What the search
finds on each level is the last node of that chain before the score it looks for.
-/

namespace CppTrack.SkipList

open Lib

/-! ## Nodes -/

/-- What never changes in a node. -/
structure Info where
  score : Nat
  handler : Nat
  levels : Nat

def info (h : NodeHeap) (x : Nat) : Option Info :=
  (h.get x).map fun n => { score := n.score, handler := n.handler, levels := n.levels }

def sc (h : NodeHeap) (x : Nat) : Nat := ((info h x).map Info.score).getD 0

def lv (h : NodeHeap) (x : Nat) : Nat := ((info h x).map Info.levels).getD 0

/-- The score and handler of a node. -/
def item (h : NodeHeap) (x : Nat) : Nat × Nat :=
  ((info h x).map fun n => (n.score, n.handler)).getD (0, 0)

section

variable {h h' : NodeHeap} {i j u x y z : Nat} {l a b c : List Nat}

theorem score_eq (hx : (info h x).isSome) : score h x = some (sc h x) := by
  obtain ⟨n, hn⟩ := Option.isSome_iff_exists.mp hx
  unfold info at hn
  cases hg : h.get x with
  | none => rw [hg] at hn; exact absurd hn (by simp)
  | some n => simp [score, sc, info, hg]

theorem lt_lv_of_forward {f : Option Nat} (hf : forward h x i = some f) : i < lv h x := by
  unfold forward at hf
  cases hg : h.get x with
  | none => rw [hg] at hf; exact absurd hf (by simp)
  | some n =>
      rw [hg, Option.bind_some] at hf
      split at hf
      · rename_i hi
        simpa [lv, info, hg] using hi
      · exact absurd hf (by simp)

theorem isSome_of_lt_lv (hi : i < lv h x) : (info h x).isSome := by
  unfold lv at hi
  cases hg : info h x with
  | none => rw [hg] at hi; exact absurd hi (Nat.not_lt_zero i)
  | some n => rfl

/-- One pointer was written. -/
structure Wrote (h : NodeHeap) (x i : Nat) (f : Option Nat) (h' : NodeHeap) : Prop where
  next : h'.next = h.next
  info : ∀ y, info h' y = info h y
  forward : ∀ y j, forward h' y j = if y = x ∧ j = i then some f else forward h y j

theorem setForward_wrote (hi : i < lv h x) (f : Option Nat) :
    ∃ h', setForward h x i f = some h' ∧ Wrote h x i f h' := by
  cases hg : h.get x with
  | none => exact absurd hi (by simp [lv, info, hg])
  | some n =>
      have hlt : i < n.levels := by simpa [lv, info, hg] using hi
      refine ⟨h.put x { n with forward := Function.update n.forward i (some f) },
        by rw [setForward, hg, Option.bind_some, if_pos hlt], rfl, fun y => ?_, fun y j => ?_⟩
      · by_cases hy : y = x
        · subst hy
          simp [info, hg]
        · rw [info, Heap.get_put_of_ne _ _ hy, info]
      · unfold forward
        by_cases hy : y = x
        · subst hy
          rw [Heap.get_put_self, Option.bind_some, hg, Option.bind_some]
          by_cases hj : j = i
          · subst hj
            simp [hlt]
          · simp [hj]
        · rw [Heap.get_put_of_ne _ _ hy, if_neg (fun h => hy h.1)]

/-! ## Paths -/

/-- From `x`, level `i` leads through `l` to its end. -/
def Path (h : NodeHeap) (i : Nat) : Nat → List Nat → Prop
  | x, [] => forward h x i = some none
  | x, y :: l => forward h x i = some (some y) ∧ Path h i y l

theorem Path.forward_eq (hp : Path h i x l) : forward h x i = some l.head? := by
  cases l with
  | nil => exact hp
  | cons y l => exact hp.1

theorem getLastD_append (a b : List Nat) (x : Nat) :
    (a ++ b).getLastD x = b.getLastD (a.getLastD x) := by
  induction a generalizing x with
  | nil => rfl
  | cons y a ih => rw [List.cons_append, List.getLastD_cons, List.getLastD_cons, ih]

theorem getLastD_mem (a : List Nat) (x : Nat) : a.getLastD x ∈ x :: a := by
  induction a generalizing x with
  | nil => exact List.mem_cons_self
  | cons y a ih =>
      rw [List.getLastD_cons]
      exact List.mem_cons_of_mem x (ih y)

theorem Path.suffix (hp : Path h i x (a ++ b)) : Path h i (a.getLastD x) b := by
  induction a generalizing x with
  | nil => exact hp
  | cons y a ih =>
      rw [List.getLastD_cons]
      exact ih hp.2

/-- A path depends on where it starts only through the first pointer. -/
theorem Path.moved (hp : Path h i x l) (hx : forward h' y i = forward h x i)
    (hl : ∀ z ∈ l, forward h' z i = forward h z i) : Path h' i y l := by
  induction l generalizing x y with
  | nil => exact hx.trans hp
  | cons z l ih =>
      refine ⟨hx.trans hp.1, ih hp.2 (hl z List.mem_cons_self) fun w hw => ?_⟩
      exact hl w (List.mem_cons_of_mem z hw)

theorem Path.congr (hp : Path h i x l) (hl : ∀ y ∈ x :: l, forward h' y i = forward h y i) :
    Path h' i x l :=
  hp.moved (hl x List.mem_cons_self) fun z hz => hl z (List.mem_cons_of_mem x hz)

/-- A path whose second part is replaced. -/
theorem Path.relink (hp : Path h i x (a ++ b)) (hnd : (x :: a).Nodup)
    (hsame : ∀ y ∈ x :: a, y ≠ a.getLastD x → forward h' y i = forward h y i)
    (hc : Path h' i (a.getLastD x) c) : Path h' i x (a ++ c) := by
  induction a generalizing x with
  | nil => exact hc
  | cons y a ih =>
      rw [List.getLastD_cons] at hsame hc
      have hxy := List.nodup_cons.mp hnd
      refine ⟨?_, ih hp.2 hxy.2 (fun z hz => hsame z (List.mem_cons_of_mem x hz)) hc⟩
      rw [hsame x List.mem_cons_self (fun he => hxy.1 (he ▸ getLastD_mem a y))]
      exact hp.1

theorem readChain_of_path {fuel : Nat} (hp : Path h i x l) (hl : l.length < fuel) :
    readChain h i fuel x = some l := by
  induction l generalizing x fuel with
  | nil =>
      obtain ⟨fuel, rfl⟩ : ∃ k, fuel = k + 1 := ⟨fuel - 1, by simp at hl; omega⟩
      rw [readChain, show forward h x i = some none from hp]
      rfl
  | cons y l ih =>
      obtain ⟨fuel, rfl⟩ : ∃ k, fuel = k + 1 := ⟨fuel - 1, by simp at hl; omega⟩
      rw [readChain, hp.1]
      simp only [Option.bind_eq_bind, Option.bind_some]
      rw [ih hp.2 (by simpa using hl), Option.map_some]

/-! ## The inner loop of the search -/

theorem advance_eq {t fuel : Nat} (hp : Path h i x (b ++ c)) (hb : ∀ y ∈ b, sc h y < t)
    (hc : ∀ y ∈ c, t ≤ sc h y) (hlive : ∀ y ∈ b ++ c, (info h y).isSome)
    (hfuel : b.length < fuel) : advance h t i fuel x = some (b.getLastD x) := by
  induction b generalizing x fuel with
  | nil =>
      obtain ⟨fuel, rfl⟩ : ∃ k, fuel = k + 1 := ⟨fuel - 1, by simp at hfuel; omega⟩
      rw [advance]
      cases c with
      | nil =>
          rw [show forward h x i = some none from hp]
          rfl
      | cons y c =>
          have hy := score_eq (hlive y (by simp))
          have hlt := hc y List.mem_cons_self
          rw [show forward h x i = some (some y) from hp.1]
          simp only [Option.bind_eq_bind, Option.bind_some, hy]
          rw [if_neg (by omega)]
          rfl
  | cons y b ih =>
      obtain ⟨fuel, rfl⟩ : ∃ k, fuel = k + 1 := ⟨fuel - 1, by simp at hfuel; omega⟩
      have hy := score_eq (hlive y (by simp))
      rw [advance, hp.1]
      simp only [Option.bind_eq_bind, Option.bind_some, hy]
      rw [if_pos (hb y List.mem_cons_self), List.getLastD_cons]
      exact ih hp.2 (fun z hz => hb z (List.mem_cons_of_mem y hz))
        (fun z hz => hlive z (List.mem_cons_of_mem y hz)) (by simpa using hfuel)

/-- What is last among the elements with a property ends some first part of the list. -/
theorem exists_split_getLastD (p : Nat → Bool) (a : List Nat) (x : Nat) :
    ∃ b c, a = b ++ c ∧ b.getLastD x = (a.filter p).getLastD x := by
  induction a generalizing x with
  | nil => exact ⟨[], [], rfl, rfl⟩
  | cons y a ih =>
      by_cases hy : p y = true
      · obtain ⟨b, c, rfl, hb⟩ := ih y
        refine ⟨y :: b, c, rfl, ?_⟩
        rw [List.filter_cons_of_pos hy, List.getLastD_cons, List.getLastD_cons, hb]
      · obtain ⟨b, c, rfl, hb⟩ := ih x
        rw [List.filter_cons_of_neg hy, ← hb]
        cases b with
        | nil => exact ⟨[], y :: c, rfl, rfl⟩
        | cons z b => exact ⟨y :: z :: b, c, rfl, rfl⟩

end

/-! ## The representation -/

/-- The nodes of `xs` with more than `i` levels. -/
def level (h : NodeHeap) (i : Nat) (xs : List Nat) : List Nat := xs.filter fun x => i < lv h x

/-- The skip list holds the nodes `xs`, in this order. -/
structure Represents (s : Zskiplist) (xs : List Nat) : Prop where
  header : lv s.heap s.header = maxLevel
  nodes : ∀ x ∈ xs, 1 ≤ lv s.heap x ∧ lv s.heap x ≤ s.level
  inside : ∀ x ∈ s.header :: xs, x < s.heap.next
  nodup : (s.header :: xs).Nodup
  sorted : xs.Pairwise fun x y => sc s.heap x ≤ sc s.heap y
  path : ∀ i, i < maxLevel → Path s.heap i s.header (level s.heap i xs)
  length : s.length = Int32.ofNat xs.length
  level_pos : 1 ≤ s.level
  level_le : s.level ≤ maxLevel
  top : s.level = 1 ∨ ∃ x ∈ xs, lv s.heap x = s.level

section

variable {s : Zskiplist} {xs pre post : List Nat} {h : NodeHeap} {i t : Nat}

theorem level_append (a b : List Nat) : level h i (a ++ b) = level h i a ++ level h i b :=
  List.filter_append a b

theorem mem_level {x : Nat} : x ∈ level h i xs ↔ x ∈ xs ∧ i < lv h x := by
  simp [level]

theorem level_sublist : (level h i xs).Sublist xs := List.filter_sublist

/-- The chain of a level is what is left of the chain below it. -/
theorem level_succ : level h (i + 1) xs = (level h i xs).filter fun x => i + 1 < lv h x := by
  unfold level
  rw [List.filter_filter]
  refine List.filter_congr fun x _ => ?_
  by_cases hx : i + 1 < lv h x
  · simp [hx, Nat.lt_of_succ_lt hx]
  · simp [hx]

theorem level_eq_nil (hle : ∀ x ∈ xs, lv h x ≤ i) : level h i xs = [] := by
  refine List.filter_eq_nil_iff.mpr fun x hx => ?_
  have := hle x hx
  simpa using this

theorem Represents.live (hr : Represents s xs) {x : Nat} (hx : x ∈ s.header :: xs) :
    (info s.heap x).isSome := by
  rcases List.mem_cons.mp hx with rfl | hx
  · exact isSome_of_lt_lv (i := 0) (by rw [hr.header]; decide)
  · exact isSome_of_lt_lv (i := 0) (hr.nodes x hx).1

theorem Represents.length_lt (hr : Represents s xs) : xs.length < s.heap.next := by
  have hsub : s.header :: xs ⊆ List.range s.heap.next :=
    fun x hx => List.mem_range.mpr (hr.inside x hx)
  have := (List.subperm_of_subset hr.nodup hsub).length_le
  rwa [List.length_range] at this

/-- The last node of level `i` among those before the score. -/
def before (s : Zskiplist) (pre : List Nat) (i : Nat) : Nat :=
  (level s.heap i pre).getLastD s.header

theorem Represents.path_before (hr : Represents s (pre ++ post)) (hi : i < maxLevel) :
    Path s.heap i (before s pre i) (level s.heap i post) := by
  have hp := hr.path i hi
  rw [level_append] at hp
  exact hp.suffix

/-- **The search.** On every level it finds the last node before the score. -/
theorem search_eq (hr : Represents s (pre ++ post)) (hpre : ∀ x ∈ pre, sc s.heap x < t)
    (hpost : ∀ x ∈ post, t ≤ sc s.heap x) :
    ∃ update, search s t = some (before s pre 0, update) ∧
      ∀ i, i < s.level → update i = some (before s pre i) := by
  have htop : before s pre s.level = s.header := by
    rw [before, level_eq_nil fun x hx => (hr.nodes x (List.mem_append_left _ hx)).2]
    rfl
  obtain ⟨st, hrun, hx, hupd⟩ := forDown_inv
    (fun i (st : Nat × (Nat → Option Nat)) => (advance s.heap t i s.heap.next st.1).map
      fun x => (x, Function.update st.2 i (some x)))
    (fun j st => st.1 = before s pre j ∧ ∀ i, j ≤ i → i < s.level → st.2 i = some (before s pre i))
    0 s.level (s.header, fun _ => none)
    ⟨by rw [Nat.zero_add, htop], fun i hlo hhi => absurd hhi (by omega)⟩
    (fun j st _ hj hst => by
      have hj : j < s.level := by omega
      have hlevel := hr.level_le
      -- the node found on the level above is also on this one
      obtain ⟨b, c, hsplit, hb⟩ := exists_split_getLastD (fun x => j + 1 < lv s.heap x)
        (level s.heap j pre) s.header
      have hstart : st.1 = b.getLastD s.header := by
        rw [hst.1, before, level_succ, hb]
      have hp := hr.path j (by omega)
      rw [level_append, hsplit, List.append_assoc] at hp
      have hmem : ∀ x ∈ c, x ∈ pre := fun x hx =>
        (mem_level.mp (hsplit ▸ List.mem_append_right b hx)).1
      have hadv : advance s.heap t j s.heap.next st.1 = some (before s pre j) := by
        rw [hstart, before, hsplit, getLastD_append]
        refine advance_eq hp.suffix (fun x hx => hpre x (hmem x hx))
          (fun x hx => hpost x (mem_level.mp hx).1) (fun x hx => hr.live ?_) ?_
        · refine List.mem_cons_of_mem _ ?_
          rcases List.mem_append.mp hx with hx | hx
          · exact List.mem_append_left _ (hmem x hx)
          · exact List.mem_append_right _ (mem_level.mp hx).1
        · have h₁ : (level s.heap j pre).length ≤ pre.length := level_sublist.length_le
          have h₂ := hr.length_lt
          rw [hsplit, List.length_append] at h₁
          rw [List.length_append] at h₂
          omega
      refine ⟨_, by rw [hadv, Option.map_some], rfl, fun i hlo hhi => ?_⟩
      dsimp only
      by_cases hij : i = j
      · rw [hij, Function.update_self]
      · rw [Function.update_of_ne hij]
        exact hst.2 i (by omega) hhi)
  refine ⟨st.2, ?_, fun i hi => hupd i (Nat.zero_le i) hi⟩
  rw [search, hrun, ← hx]

end

end CppTrack.SkipList
