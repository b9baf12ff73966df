import Mathlib.Algebra.Group.Nat.Defs
import Mathlib.Data.List.Perm.Basic

/-!
# Red-black trees, repaired from below

A tree is taken apart into a subtree and the path of nodes above it, the nearest first. After an
insertion a red subtree may hang below a red node; after a deletion a subtree may be too low by one
black node. Each repair goes up the path, and ends where a rotation makes up for it. Both keep the
labels in their order, and give back a tree that is balanced.
-/

namespace CppTrack.Lib

inductive Color where
  | red
  | black
  deriving DecidableEq

inductive Side where
  | left
  | right
  deriving DecidableEq

def Side.other : Side → Side
  | left => right
  | right => left

@[simp] theorem Side.other_other (s : Side) : s.other.other = s := by cases s <;> rfl

@[simp] theorem Side.other_ne (s : Side) : s.other ≠ s := by cases s <;> decide

@[simp] theorem Side.ne_other (s : Side) : s ≠ s.other := by cases s <;> decide

theorem Side.eq_or (s s' : Side) : s' = s ∨ s' = s.other := by
  cases s <;> cases s' <;> decide

/-- A tree of coloured nodes. -/
inductive Coloured (ι : Type*) where
  | nil
  | node (color : Color) (left : Coloured ι) (label : ι) (right : Coloured ι)

variable {ι : Type*}

namespace Coloured

/-- The labels from left to right. -/
def labels : Coloured ι → List ι
  | nil => []
  | node _ l a r => l.labels ++ a :: r.labels

/-- What hangs nowhere counts as black. -/
def color : Coloured ι → Color
  | nil => .black
  | node c _ _ _ => c

def blacken : Coloured ι → Coloured ι
  | nil => nil
  | node _ l a r => node .black l a r

def redden : Coloured ι → Coloured ι
  | nil => nil
  | node _ l a r => node .red l a r

/-- The length of the longest way down. -/
def height : Coloured ι → Nat
  | nil => 0
  | node _ l _ r => max l.height r.height + 1

/-- The subtree on one side. -/
def kid : Side → Coloured ι → Coloured ι
  | _, nil => nil
  | .left, node _ l _ _ => l
  | .right, node _ _ _ r => r

/-- A node with its subtree on one side and the one on the other side. -/
def join (side : Side) (c : Color) (near : Coloured ι) (a : ι) (far : Coloured ι) : Coloured ι :=
  match side with
  | .left => node c near a far
  | .right => node c far a near

theorem node_eq_join (side : Side) (c : Color) (l : Coloured ι) (a : ι) (r : Coloured ι) :
    node c l a r = join side c (kid side (node c l a r)) a (kid side.other (node c l a r)) := by
  cases side <;> rfl

@[simp] theorem color_join (side : Side) (c : Color) (near : Coloured ι) (a : ι)
    (far : Coloured ι) : (join side c near a far).color = c := by cases side <;> rfl

@[simp] theorem blacken_join (side : Side) (c : Color) (near : Coloured ι) (a : ι)
    (far : Coloured ι) : (join side c near a far).blacken = join side .black near a far := by
  cases side <;> rfl

@[simp] theorem kid_join (side : Side) (c : Color) (near : Coloured ι) (a : ι) (far : Coloured ι) :
    kid side (join side c near a far) = near := by cases side <;> rfl

@[simp] theorem kid_other_join (side : Side) (c : Color) (near : Coloured ι) (a : ι)
    (far : Coloured ι) : kid side.other (join side c near a far) = far := by cases side <;> rfl

theorem join_other (side : Side) (c : Color) (near : Coloured ι) (a : ι) (far : Coloured ι) :
    join side.other c near a far = join side c far a near := by cases side <;> rfl

theorem labels_join (side : Side) (c : Color) (near : Coloured ι) (a : ι) (far : Coloured ι) :
    (join side c near a far).labels =
      match side with
      | .left => near.labels ++ a :: far.labels
      | .right => far.labels ++ a :: near.labels := by cases side <;> rfl

@[simp] theorem labels_blacken (t : Coloured ι) : t.blacken.labels = t.labels := by
  cases t <;> rfl

/-- A rotation does not change the order of the labels. -/
theorem labels_turn (side : Side) (c d c' d' : Color) (s : Coloured ι) (a : ι) (t : Coloured ι)
    (b : ι) (u : Coloured ι) : (join side c (join side d s a t) b u).labels =
      (join side c' s a (join side d' t b u)).labels := by
  cases side <;> simp [labels_join]

theorem height_join (side : Side) (c : Color) (near : Coloured ι) (a : ι) (far : Coloured ι) :
    (join side c near a far).height = max near.height far.height + 1 := by
  cases side with
  | left => rfl
  | right => exact congrArg (· + 1) (Nat.max_comm _ _)

theorem height_le_length (t : Coloured ι) : t.height ≤ t.labels.length := by
  induction t with
  | nil => exact Nat.zero_le _
  | node c l a r ihl ihr =>
      rw [height, labels, List.length_append, List.length_cons]
      omega

theorem mem_labels_join {side : Side} {c : Color} {near far : Coloured ι} {a b : ι} :
    b ∈ (join side c near a far).labels ↔ b = a ∨ b ∈ near.labels ∨ b ∈ far.labels := by
  cases side <;> simp only [labels_join, List.mem_append, List.mem_cons] <;> tauto

theorem labels_join_perm (side : Side) (c : Color) (near : Coloured ι) (a : ι) (far : Coloured ι) :
    (join side c near a far).labels.Perm (a :: (near.labels ++ far.labels)) := by
  cases side with
  | left => exact List.perm_middle
  | right => exact List.perm_middle.trans (List.perm_append_comm.cons a)

/-! ## The path above a subtree -/

end Coloured

/-- A node above a subtree: on which side of it the subtree hangs, and what hangs on the other. -/
structure Frame (ι : Type*) where
  side : Side
  color : Color
  label : ι
  sib : Coloured ι

open Coloured

def Frame.fill (f : Frame ι) (t : Coloured ι) : Coloured ι := join f.side f.color t f.label f.sib

/-- The whole tree, with a subtree below the path. -/
def fill : Coloured ι → List (Frame ι) → Coloured ι
  | t, [] => t
  | t, f :: up => fill (f.fill t) up

/-- The labels of the path from left to right, in two parts with the subtree between. -/
def around : List (Frame ι) → List ι × List ι
  | [] => ([], [])
  | f :: up =>
      let r := around up
      match f.side with
      | .left => (r.1, f.label :: f.sib.labels ++ r.2)
      | .right => (r.1 ++ f.sib.labels ++ [f.label], r.2)

theorem labels_fill (t : Coloured ι) (up : List (Frame ι)) :
    (fill t up).labels = (around up).1 ++ t.labels ++ (around up).2 := by
  induction up generalizing t with
  | nil =>
      rw [fill, around, List.nil_append, List.append_nil]
  | cons f up ih =>
      rw [fill, ih, Frame.fill, labels_join, around]
      cases f.side <;> simp

theorem fill_append (t : Coloured ι) (up up' : List (Frame ι)) :
    fill t (up ++ up') = fill (fill t up) up' := by
  induction up generalizing t with
  | nil => rfl
  | cons f up ih => exact ih (f.fill t)

/-- A subtree may be replaced by one with the same labels. -/
theorem labels_fill_congr {t t' : Coloured ι} (h : t.labels = t'.labels) (up : List (Frame ι)) :
    (fill t up).labels = (fill t' up).labels := by
  rw [labels_fill, labels_fill, h]

/-- The labels of the path. -/
def spine (up : List (Frame ι)) : List ι := up.flatMap fun f => f.label :: f.sib.labels

theorem spine_cons (f : Frame ι) (up : List (Frame ι)) :
    spine (f :: up) = f.label :: f.sib.labels ++ spine up := rfl

theorem spine_append (up up' : List (Frame ι)) : spine (up ++ up') = spine up ++ spine up' :=
  List.flatMap_append

theorem fill_labels_perm (f : Frame ι) (t : Coloured ι) :
    (f.fill t).labels.Perm (t.labels ++ f.label :: f.sib.labels) :=
  (labels_join_perm f.side f.color t f.label f.sib).trans List.perm_middle.symm

theorem labels_fill_perm (t : Coloured ι) (up : List (Frame ι)) :
    (fill t up).labels.Perm (t.labels ++ spine up) := by
  induction up generalizing t with
  | nil =>
      rw [fill, spine, List.flatMap_nil, List.append_nil]
  | cons f up ih =>
      rw [fill, spine_cons, ← List.append_assoc]
      exact (ih (f.fill t)).trans ((fill_labels_perm f t).append_right (spine up))

/-- The labels below and on a path, in whatever order. -/
theorem labels_fill_append_perm (t : Coloured ι) (path up : List (Frame ι)) :
    ((fill t path).labels ++ spine up).Perm (t.labels ++ spine (path ++ up)) := by
  rw [spine_append, ← List.append_assoc]
  exact (labels_fill_perm t path).append_right (spine up)

/-- The path is a part of the way down. -/
theorem height_fill (t : Coloured ι) (up : List (Frame ι)) :
    t.height + up.length ≤ (fill t up).height := by
  induction up generalizing t with
  | nil => exact Nat.le_refl _
  | cons f up ih =>
      have hrest := ih (f.fill t)
      rw [Frame.fill, height_join] at hrest
      rw [List.length_cons, fill, Frame.fill]
      omega

theorem lt_height_fill (c : Color) (l : Coloured ι) (a : ι) (r : Coloured ι) (up : List (Frame ι)) :
    up.length < (fill (node c l a r) up).height := by
  have hdown := height_fill (node c l a r) up
  rw [height] at hdown
  omega

/-- On a way that always went to the left, the place comes first. -/
theorem around_left {up : List (Frame ι)} (h : ∀ f ∈ up, f.side = .left) : (around up).1 = [] := by
  induction up with
  | nil => rfl
  | cons f up ih =>
      rw [around, h f List.mem_cons_self]
      exact ih fun g hg => h g (List.mem_cons_of_mem f hg)

/-- Where the path went to the left at what lies past a place, and to the right at the rest, it
leads to that place. -/
theorem around_split {past : ι → Prop} {t : Coloured ι} {up : List (Frame ι)}
    (hsorted : (fill t up).labels.Pairwise fun a b => past a → past b)
    (hled : ∀ f ∈ up, f.side = .left ↔ past f.label) :
    (∀ a ∈ (around up).1, ¬ past a) ∧ ∀ a ∈ (around up).2, past a := by
  induction up generalizing t with
  | nil => exact ⟨fun a ha => absurd ha List.not_mem_nil, fun a ha => absurd ha List.not_mem_nil⟩
  | cons f up ih =>
      obtain ⟨hbefore, hpast⟩ := ih hsorted fun g hg => hled g (List.mem_cons_of_mem f hg)
      have hf := hled f List.mem_cons_self
      rw [fill, labels_fill, List.append_assoc, List.pairwise_append] at hsorted
      obtain ⟨-, hrest, -⟩ := hsorted
      obtain ⟨hmid, -, -⟩ := List.pairwise_append.mp hrest
      rw [Frame.fill, labels_join] at hmid
      rw [around]
      cases hside : f.side with
      | left =>
          rw [hside] at hmid
          have hlabel := hf.mp hside
          obtain ⟨-, hfar, -⟩ := List.pairwise_append.mp hmid
          refine ⟨hbefore, fun a ha => ?_⟩
          rcases List.mem_append.mp ha with ha | ha
          · rcases List.mem_cons.mp ha with rfl | ha
            · exact hlabel
            · exact (List.pairwise_cons.mp hfar).1 a ha hlabel
          · exact hpast a ha
      | right =>
          rw [hside] at hmid
          have hlabel : ¬ past f.label := by
            rw [← hf, hside]
            decide
          obtain ⟨-, -, hacross⟩ := List.pairwise_append.mp hmid
          refine ⟨fun a ha => ?_, hpast⟩
          rcases List.mem_append.mp ha with ha | ha
          · rcases List.mem_append.mp ha with ha | ha
            · exact hbefore a ha
            · exact fun h => hlabel (hacross a ha f.label List.mem_cons_self h)
          · rw [List.mem_singleton.mp ha]
            exact hlabel

/-! ## Balance -/

/-- No red node has a red child, and every way down passes `n` black nodes. The root has the
colour `c`. -/
inductive Balanced : Coloured ι → Color → Nat → Prop where
  | nil : Balanced nil .black 0
  | red {l r : Coloured ι} {a : ι} {n : Nat} : Balanced l .black n → Balanced r .black n →
      Balanced (node .red l a r) .red n
  | black {l r : Coloured ι} {a : ι} {c c' : Color} {n : Nat} : Balanced l c n →
      Balanced r c' n → Balanced (node .black l a r) .black (n + 1)

theorem balanced_red {side : Side} {near far : Coloured ι} {a : ι} {n : Nat}
    (hnear : Balanced near .black n) (hfar : Balanced far .black n) :
    Balanced (join side .red near a far) .red n := by
  cases side with
  | left => exact .red hnear hfar
  | right => exact .red hfar hnear

theorem balanced_black {side : Side} {near far : Coloured ι} {a : ι} {c c' : Color} {n : Nat}
    (hnear : Balanced near c n) (hfar : Balanced far c' n) :
    Balanced (join side .black near a far) .black (n + 1) := by
  cases side with
  | left => exact .black hnear hfar
  | right => exact .black hfar hnear

theorem Balanced.color_eq {t : Coloured ι} {c : Color} {n : Nat} (h : Balanced t c n) :
    t.color = c := by
  cases h <;> rfl

/-- The subtrees of a red node. -/
theorem Balanced.red_kids {t : Coloured ι} {n : Nat} (h : Balanced t .red n) :
    ∃ l a r, t = node .red l a r ∧ ∀ side, Balanced (kid side t) .black n := by
  cases h with
  | red hl hr =>
      refine ⟨_, _, _, rfl, fun side => ?_⟩
      cases side with
      | left => exact hl
      | right => exact hr

/-- The subtrees of a black node. -/
theorem Balanced.black_kids {t : Coloured ι} {n : Nat} (h : Balanced t .black (n + 1)) :
    ∃ l a r, t = node .black l a r ∧ ∀ side, Balanced (kid side t) (kid side t).color n := by
  cases h with
  | black hl hr =>
      refine ⟨_, _, _, rfl, fun side => ?_⟩
      cases side with
      | left => exact hl.color_eq ▸ hl
      | right => exact hr.color_eq ▸ hr

theorem Balanced.blacken {t : Coloured ι} {c : Color} {n : Nat} (h : Balanced t c n) :
    ∃ m, Balanced t.blacken .black m := by
  cases h with
  | nil => exact ⟨0, .nil⟩
  | red hl hr => exact ⟨n + 1, .black hl hr⟩
  | @black _ _ _ _ _ n hl hr => exact ⟨n + 1, .black hl hr⟩

theorem Balanced.red_join {side : Side} {near far : Coloured ι} {a : ι} {n : Nat}
    (h : Balanced (join side .red near a far) .red n) :
    Balanced near .black n ∧ Balanced far .black n := by
  cases side with
  | left => cases h with | red hl hr => exact ⟨hl, hr⟩
  | right => cases h with | red hl hr => exact ⟨hr, hl⟩

theorem Balanced.black_join {side : Side} {near far : Coloured ι} {a : ι} {n : Nat}
    (h : Balanced (join side .black near a far) .black n) :
    ∃ m c c', n = m + 1 ∧ Balanced near c m ∧ Balanced far c' m := by
  cases side with
  | left => cases h with | black hl hr => exact ⟨_, _, _, rfl, hl, hr⟩
  | right => cases h with | black hl hr => exact ⟨_, _, _, rfl, hr, hl⟩

/-- A path that makes a balanced tree out of one with the root colour `c` and `n` black nodes on
every way down. -/
def Open : List (Frame ι) → Color → Nat → Prop
  | [], c, _ => c = .black
  | f :: up, c, n =>
      match f.color with
      | .red => c = .black ∧ Balanced f.sib .black n ∧ Open up .red n
      | .black => (∃ c', Balanced f.sib c' n) ∧ Open up .black (n + 1)

theorem not_open_red (n : Nat) : ¬ Open ([] : List (Frame ι)) .red n := by
  intro h
  exact Color.noConfusion (show Color.red = .black from h)

theorem Open.fill {t : Coloured ι} {up : List (Frame ι)} {c : Color} {n : Nat} (h : Open up c n)
    (ht : Balanced t c n) : ∃ m, Balanced (fill t up) .black m := by
  induction up generalizing t c n with
  | nil =>
      obtain rfl : c = .black := h
      exact ⟨n, ht⟩
  | cons f up ih =>
      rw [Lib.fill, Frame.fill]
      cases hf : f.color with
      | red =>
          rw [Open, hf] at h
          obtain ⟨rfl, hsib, hup⟩ := h
          exact ih hup (balanced_red ht hsib)
      | black =>
          rw [Open, hf] at h
          obtain ⟨⟨c', hsib⟩, hup⟩ := h
          exact ih hup (balanced_black ht hsib)

/-- A balanced tree is taken apart into a balanced tree and a path that makes one of it. -/
theorem Open.of_fill {t : Coloured ι} {up : List (Frame ι)} {m : Nat}
    (h : Balanced (Lib.fill t up) .black m) : ∃ n, Balanced t t.color n ∧ Open up t.color n := by
  induction up generalizing t with
  | nil =>
      have hcolor : t.color = .black := h.color_eq
      exact ⟨m, hcolor.symm ▸ h, hcolor⟩
  | cons f up ih =>
      obtain ⟨k, hk, hopen⟩ := ih h
      rw [Frame.fill, color_join] at hk hopen
      cases hf : f.color with
      | red =>
          rw [hf] at hk hopen
          obtain ⟨ht, hsib⟩ := hk.red_join
          refine ⟨k, ht.color_eq.symm ▸ ht, ?_⟩
          rw [Open, hf]
          exact ⟨ht.color_eq, hsib, hopen⟩
      | black =>
          rw [hf] at hk hopen
          obtain ⟨n, c, c', rfl, ht, hsib⟩ := hk.black_join
          refine ⟨n, ht.color_eq.symm ▸ ht, ?_⟩
          rw [Open, hf]
          exact ⟨⟨c', hsib⟩, hopen⟩

/-- The labels of the path do not matter. -/
theorem Open.relabel {path up : List (Frame ι)} {f : Frame ι} {c : Color} {n : Nat}
    (h : Open (path ++ f :: up) c n) (a : ι) : Open (path ++ { f with label := a } :: up) c n := by
  induction path generalizing c n with
  | nil => exact h
  | cons g path ih =>
      rw [List.cons_append, Open] at h ⊢
      split at h
      · exact ⟨h.1, h.2.1, ih h.2.2⟩
      · exact ⟨h.1, ih h.2⟩

/-- Where a red tree may hang, a black one may hang as well. -/
theorem Open.black {up : List (Frame ι)} {c : Color} {n : Nat} (h : Open up c n) :
    Open up .black n := by
  cases c with
  | black => exact h
  | red =>
      cases up with
      | nil => exact absurd h (not_open_red n)
      | cons f up =>
          unfold Open at h ⊢
          split at h
          · exact absurd h.1 (by decide)
          · exact h

/-! ## After an insertion -/

/-- The rotations below the grandparent `g` of the red tree `t`, with the colours they need. -/
def lifted (t : Coloured ι) (f g : Frame ι) : Coloured ι :=
  if f.side = g.side then
    join g.side .black t f.label (join g.side .red f.sib g.label g.sib)
  else
    match t with
    | nil => g.fill (f.fill nil)
    | node _ _ a _ =>
        join g.side .black (join g.side .red f.sib f.label (kid g.side t)) a
          (join g.side .red (kid g.side.other t) g.label g.sib)

/-- A red tree below the path. -/
def insertFix : Coloured ι → List (Frame ι) → Coloured ι
  | t, [] => t
  | t, [f] => f.fill t
  | t, f :: g :: up =>
      if f.color = .black then fill t (f :: g :: up)
      else if g.sib.color = .red then
        insertFix (join g.side .red (join f.side .black t f.label f.sib) g.label g.sib.blacken) up
      else fill (lifted t f g) up

theorem labels_lifted (t : Coloured ι) (f g : Frame ι) :
    (lifted t f g).labels = (g.fill (f.fill t)).labels := by
  unfold lifted
  split
  case isTrue hside =>
    rw [Frame.fill, Frame.fill, hside]
    exact (labels_turn g.side g.color f.color .black .red t f.label f.sib g.label g.sib).symm
  case isFalse hside =>
    have hother : f.side = g.side.other := (Side.eq_or g.side f.side).resolve_left hside
    cases t with
    | nil => rfl
    | node c l a r =>
        have hnode := node_eq_join g.side c l a r
        change (join g.side .black (join g.side .red f.sib f.label (kid g.side (node c l a r))) a
          (join g.side .red (kid g.side.other (node c l a r)) g.label g.sib)).labels = _
        rw [Frame.fill, Frame.fill, hother, join_other]
        generalize kid g.side (node c l a r) = near at hnode ⊢
        generalize kid g.side.other (node c l a r) = far at hnode ⊢
        rw [hnode]
        cases g.side <;> simp [labels_join]

theorem labels_insertFix (t : Coloured ι) (up : List (Frame ι)) :
    (insertFix t up).labels = (fill t up).labels := by
  fun_induction insertFix t up with
  | case1 t => rfl
  | case2 t f => rfl
  | case3 t f g up hblack => rfl
  | case4 t f g up hred huncle ih =>
      rw [ih]
      refine labels_fill_congr ?_ up
      rw [labels_join, Frame.fill, labels_join, Frame.fill, labels_join]
      cases g.side <;> cases f.side <;> simp [labels_join]
  | case5 t f g up hred huncle => exact labels_fill_congr (labels_lifted t f g) up

/-- The grandparent of a red node below a red one is black. -/
theorem open_grandparent {f g : Frame ι} {up : List (Frame ι)} {c : Color} {n : Nat}
    (h : Open (f :: g :: up) c n) (hf : f.color = .red) : Balanced f.sib .black n ∧
      g.color = .black ∧ (∃ c', Balanced g.sib c' n) ∧ Open up .black (n + 1) := by
  rw [Open, hf] at h
  obtain ⟨-, hsib, hup⟩ := h
  cases hg : g.color with
  | red =>
      rw [Open, hg] at hup
      exact absurd hup.1 (by decide)
  | black =>
      rw [Open, hg] at hup
      exact ⟨hsib, rfl, hup⟩

theorem balanced_lifted {t : Coloured ι} {f g : Frame ι} {c : Color} {n : Nat}
    (ht : Balanced t .red n) (hf : Balanced f.sib .black n) (hg : Balanced g.sib c n)
    (hblack : g.sib.color ≠ .red) : Balanced (lifted t f g) .black (n + 1) := by
  have huncle : Balanced g.sib .black n := by
    cases c with
    | red => exact absurd hg.color_eq hblack
    | black => exact hg
  unfold lifted
  split
  case isTrue => exact balanced_black ht (balanced_red hf huncle)
  case isFalse =>
    obtain ⟨l, a, r, rfl, hkids⟩ := ht.red_kids
    exact balanced_black (balanced_red hf (hkids _)) (balanced_red (hkids _) huncle)

/-- With a red uncle the colours go one black node further up. -/
theorem balanced_recoloured {t : Coloured ι} {f g : Frame ι} {up : List (Frame ι)} {n : Nat}
    (ht : Balanced t .red n) (hup : Open (f :: g :: up) .black n) (hf : f.color = .red)
    (huncle : g.sib.color = .red) :
    Balanced (join g.side .red (join f.side .black t f.label f.sib) g.label g.sib.blacken) .red
      (n + 1) ∧ Open up .black (n + 1) := by
  obtain ⟨hsib, -, ⟨c, hg⟩, hup⟩ := open_grandparent hup hf
  obtain ⟨l, a, r, hnode, hkids⟩ := (hg.color_eq.symm.trans huncle ▸ hg).red_kids
  have hdark : Balanced g.sib.blacken .black (n + 1) := by
    rw [hnode] at hkids ⊢
    exact .black (hkids .left) (hkids .right)
  exact ⟨balanced_red (balanced_black ht hsib) hdark, hup⟩

theorem red_of_not_black {c : Color} (h : ¬ c = .black) : c = .red := by
  cases c with
  | red => rfl
  | black => exact absurd rfl h

theorem black_of_not_red {c : Color} (h : ¬ c = .red) : c = .black := by
  cases c with
  | red => exact absurd rfl h
  | black => rfl

/-- The root of a balanced tree is black. -/
theorem Open.top_black {f : Frame ι} {c : Color} {n : Nat} (h : Open [f] c n) :
    f.color = .black := by
  refine black_of_not_red fun hf => ?_
  rw [Open, hf] at h
  exact not_open_red n h.2.2

/-- **The repair after an insertion.** -/
theorem balanced_insertFix {t : Coloured ι} {up : List (Frame ι)} {n : Nat}
    (ht : Balanced t .red n) (hup : Open up .black n) :
    ∃ m, Balanced (insertFix t up).blacken .black m := by
  have hblack : ∀ {t : Coloured ι}, (∃ m, Balanced t .black m) → ∃ m, Balanced t.blacken .black m :=
    fun h => h.elim fun _ h => h.blacken
  fun_induction insertFix t up generalizing n with
  | case1 t => exact ht.blacken
  | case2 t f =>
      have hf := hup.top_black
      rw [Open, hf] at hup
      obtain ⟨⟨c, hsib⟩, -⟩ := hup
      rw [Frame.fill, hf]
      exact (balanced_black ht hsib).blacken
  | case3 t f g up hf =>
      have hred : Open (f :: g :: up) .red n := by
        rw [Open, hf] at hup ⊢
        exact hup
      exact hblack (hred.fill ht)
  | case4 t f g up hf huncle ih =>
      obtain ⟨hred, hup⟩ := balanced_recoloured ht hup (red_of_not_black hf) huncle
      exact ih hred hup
  | case5 t f g up hf huncle =>
      obtain ⟨hsib, -, ⟨c, hg⟩, hup⟩ := open_grandparent hup (red_of_not_black hf)
      exact hblack (hup.fill (balanced_lifted ht hsib hg huncle))

/-! ## After a deletion -/

/-- The nearer child of the sibling comes up between `t` and the sibling. -/
def between (t : Coloured ι) (f : Frame ι) (near : Coloured ι) (w : ι) (far : Coloured ι) :
    Coloured ι × Bool :=
  match near with
  | nil => (f.fill t, true)
  | node _ _ a _ =>
      (join f.side f.color (join f.side .black t f.label (kid f.side near)) a
        (join f.side .black (kid f.side.other near) w far), false)

/-- What comes to the place of `f` when the tree `t` is too low and its sibling is black, and
whether that is still too low. -/
def settle (t : Coloured ι) (f : Frame ι) : Coloured ι × Bool :=
  match f.sib with
  | nil => (f.fill t, true)
  | node _ _ w _ =>
      let near := kid f.side f.sib
      let far := kid f.side.other f.sib
      if near.color = .black ∧ far.color = .black then
        (join f.side f.color t f.label f.sib.redden, true)
      else if far.color = .black then between t f near w far
      else (join f.side f.color (join f.side .black t f.label near) w far.blacken, false)

/-- The node above the subtree once a red sibling is rotated up: a red one, with a black sibling. -/
def Frame.below (f : Frame ι) : Frame ι := { f with color := .red, sib := kid f.side f.sib }

/-- The red sibling, a black node above `f.below` after that rotation. -/
def Frame.above (f : Frame ι) (w : ι) : Frame ι := ⟨f.side, .black, w, kid f.side.other f.sib⟩

/-- A tree below the path that may be too low by one black node. -/
def deleteFix : Coloured ι → List (Frame ι) → Coloured ι
  | t, [] => t.blacken
  | t, f :: up =>
      if t.color = .red then fill t.blacken (f :: up)
      else
        match f.sib with
        | node .red _ w _ =>
            if (settle t f.below).2 then fill (settle t f.below).1.blacken (f.above w :: up)
            else (fill (settle t f.below).1 (f.above w :: up)).blacken
        | _ =>
            if (settle t f).2 then deleteFix (settle t f).1 up
            else (fill (settle t f).1 up).blacken

/-- Where the sibling is a node, with its two subtrees. -/
theorem settle_join (t : Coloured ι) {f : Frame ι} {c : Color} {near far : Coloured ι} {w : ι}
    (hsib : f.sib = join f.side c near w far) : settle t f =
      if near.color = .black ∧ far.color = .black then
        (join f.side f.color t f.label (join f.side .red near w far), true)
      else if far.color = .black then between t f near w far
      else (join f.side f.color (join f.side .black t f.label near) w far.blacken, false) := by
  obtain ⟨side, color, label, sib⟩ := f
  obtain rfl : sib = join side c near w far := hsib
  cases side <;> rfl

theorem exists_join (side : Side) {c : Color} {l r : Coloured ι} {a : ι} :
    ∃ near far, node c l a r = join side c near a far := ⟨_, _, node_eq_join side c l a r⟩

theorem labels_settle (t : Coloured ι) (f : Frame ι) :
    (settle t f).1.labels = (f.fill t).labels := by
  cases hsib : f.sib with
  | nil =>
      unfold settle
      rw [hsib]
  | node c l w r =>
      obtain ⟨near, far, hjoin⟩ := @exists_join _ f.side c l r w
      have hfill : (f.fill t).labels =
          (join f.side f.color t f.label (join f.side c near w far)).labels := by
        rw [Frame.fill, hsib, hjoin]
      rw [settle_join t (hsib.trans hjoin), hfill]
      split_ifs
      · cases f.side <;> simp [labels_join]
      · cases near with
        | nil => exact hfill
        | node c' l' a r' =>
            obtain ⟨near', far', hjoin'⟩ := @exists_join _ f.side c' l' r' a
            simp only [between]
            rw [hjoin', kid_join, kid_other_join]
            cases f.side <;> simp [labels_join]
      · cases f.side <;> simp [labels_join]

theorem labels_above {t t' : Coloured ι} {f : Frame ι} {l r : Coloured ι} {w : ι}
    (hsib : f.sib = node .red l w r) (h : t'.labels = (f.below.fill t).labels) :
    ((f.above w).fill t').labels = (f.fill t).labels := by
  obtain ⟨near, far, hjoin⟩ := @exists_join _ f.side .red l r w
  simp only [Frame.fill, Frame.above, Frame.below] at h ⊢
  rw [hsib, hjoin] at h ⊢
  rw [labels_join, h, kid_join, kid_other_join]
  cases f.side <;> simp [labels_join]

theorem labels_deleteFix (t : Coloured ι) (up : List (Frame ι)) :
    (deleteFix t up).labels = (fill t up).labels := by
  fun_induction deleteFix t up with
  | case1 t => exact labels_blacken t
  | case2 t f up hred => exact labels_fill_congr (labels_blacken t) (f :: up)
  | case3 t f up hblack l w r hsib hlow =>
      refine labels_fill_congr (labels_above hsib ?_) up
      rw [labels_blacken]
      exact labels_settle t f.below
  | case4 t f up hblack l w r hsib hdone =>
      rw [labels_blacken]
      exact labels_fill_congr (labels_above hsib (labels_settle t f.below)) up
  | case5 t f up hblack hlow hsib ih => exact ih.trans (labels_fill_congr (labels_settle t f) up)
  | case6 t f up hblack hdone hsib =>
      rw [labels_blacken]
      exact labels_fill_congr (labels_settle t f) up

/-- A tree that is too low by one, unless its root is red and can be made black. -/
def Low (t : Coloured ι) (n : Nat) : Prop :=
  t.color = .red ∧ Balanced t.blacken .black (n + 1) ∨ Balanced t .black n

theorem Balanced.blacken_red {t : Coloured ι} {c : Color} {n : Nat} (h : Balanced t c n)
    (hc : t.color ≠ .black) : Balanced t.blacken .black (n + 1) := by
  cases h with
  | nil => exact absurd rfl hc
  | red hl hr => exact .black hl hr
  | black hl hr => exact absurd rfl hc

/-- A subtree in the place of its parent: too low by one if the parent was black. -/
theorem Balanced.kid_low {l r k : Coloured ι} {a : ι} {c : Color} {n : Nat}
    (h : Balanced (node c l a r) c n) (hk : k = l ∨ k = r) :
    (c = .red → Balanced k .black n) ∧ (c = .black → ∃ m, n = m + 1 ∧ Low k m) := by
  have hlow : ∀ {d : Color} {m : Nat}, Balanced k d m → Low k m := by
    intro d m hm
    cases d with
    | red => exact .inl ⟨hm.color_eq, hm.blacken_red (by rw [hm.color_eq]; decide)⟩
    | black => exact .inr hm
  cases h with
  | red hl hr =>
      refine ⟨fun _ => ?_, fun hc => Color.noConfusion hc⟩
      rcases hk with rfl | rfl
      · exact hl
      · exact hr
  | @black _ _ _ c c' n hl hr =>
      refine ⟨fun hc => Color.noConfusion hc, fun _ => ⟨n, rfl, ?_⟩⟩
      rcases hk with rfl | rfl
      · exact hlow hl
      · exact hlow hr

/-- How many black nodes the place of `f` has, if its subtrees have `n`. -/
def Frame.rise (f : Frame ι) (n : Nat) : Nat := if f.color = .red then n else n + 1

theorem Open.up {f : Frame ι} {up : List (Frame ι)} {c : Color} {n : Nat}
    (h : Open (f :: up) c n) : (∃ c', Balanced f.sib c' n) ∧ Open up f.color (f.rise n) := by
  rw [Open] at h
  unfold Frame.rise
  split at h
  case h_1 hred =>
    rw [if_pos hred, hred]
    exact ⟨⟨_, h.2.1⟩, h.2.2⟩
  case h_2 hblack =>
    rw [if_neg (by rw [hblack]; decide), hblack]
    exact h

theorem Frame.rise_succ (f : Frame ι) (n : Nat) : f.rise (n + 1) = f.rise n + 1 := by
  unfold rise
  split <;> rfl

theorem not_red {f : Frame ι} (h : ∀ l w r, f.sib = node .red l w r → False) :
    f.sib.color = .black := by
  cases hsib : f.sib with
  | nil => rfl
  | node c l w r =>
      cases c with
      | red => exact (h l w r hsib).elim
      | black => rfl

/-- A node of the colour of `f` in its place. -/
theorem Frame.balanced_join (f : Frame ι) {near far : Coloured ι} {a : ι} {n : Nat}
    (hnear : Balanced near .black n) (hfar : Balanced far .black n) :
    Balanced (join f.side f.color near a far) f.color (f.rise n) := by
  unfold Frame.rise
  cases hc : f.color with
  | red =>
      rw [if_pos rfl]
      exact balanced_red hnear hfar
  | black =>
      rw [if_neg (by decide)]
      exact balanced_black hnear hfar

theorem Balanced.dark {t : Coloured ι} {c : Color} {n : Nat} (h : Balanced t c n)
    (hc : t.color = .black) : Balanced t .black n := by
  rw [h.color_eq] at hc
  exact hc ▸ h

/-- The place of `f` is too low only if there is nothing red near the sibling. -/
theorem settle_spec {t : Coloured ι} {f : Frame ι} {n : Nat} (ht : Balanced t .black n)
    (hsib : Balanced f.sib .black (n + 1)) :
    ((settle t f).2 = true → Low (settle t f).1 (f.rise n)) ∧
    ((settle t f).2 = false → Balanced (settle t f).1 f.color (f.rise (n + 1))) := by
  obtain ⟨l, w, r, hnode, hkids⟩ := hsib.black_kids
  obtain ⟨near, far, hjoin⟩ := @exists_join _ f.side .black l r w
  rw [hnode, hjoin] at hkids
  have hnear := hkids f.side
  have hfar := hkids f.side.other
  rw [kid_join] at hnear
  rw [kid_other_join] at hfar
  rw [settle_join t (hnode.trans hjoin)]
  split_ifs with hboth hblack
  · -- the sibling becomes red
    refine ⟨fun _ => ?_, fun h => absurd h (by simp)⟩
    have hred : Balanced (join f.side .red near w far) .red n :=
      balanced_red (hnear.dark hboth.1) (hfar.dark hboth.2)
    have hwhole : Balanced (join f.side .black t f.label (join f.side .red near w far)) .black
        (n + 1) := balanced_black ht hred
    unfold Low Frame.rise
    cases hc : f.color with
    | red =>
        rw [if_pos rfl]
        refine .inl ⟨color_join _ _ _ _ _, ?_⟩
        rw [blacken_join]
        exact hwhole
    | black =>
        rw [if_neg (by decide)]
        exact .inr hwhole
  · -- its nearer child is red, and comes up between them
    have hredden : near.color ≠ .black := fun h => hboth ⟨h, hblack⟩
    cases near with
    | nil => exact absurd rfl hredden
    | node c' l' a r' =>
        refine ⟨fun h => absurd h (by simp [between]), fun _ => ?_⟩
        have hred : c' = .red := by cases c' <;> [rfl; exact absurd rfl hredden]
        obtain ⟨-, -, -, -, hkids'⟩ := (hred ▸ hnear : Balanced (node c' l' a r') .red n).red_kids
        exact f.balanced_join (balanced_black ht (hkids' f.side))
          (balanced_black (hkids' f.side.other) (hfar.dark hblack))
  · -- its farther child is red, and becomes black
    refine ⟨fun h => absurd h (by simp), fun _ => ?_⟩
    exact f.balanced_join (balanced_black ht hnear) (hfar.blacken_red hblack)

theorem color_settle (t : Coloured ι) (f : Frame ι) : (settle t f).1.color = f.color := by
  cases hsib : f.sib with
  | nil =>
      unfold settle
      rw [hsib]
      exact color_join _ _ _ _ _
  | node c l w r =>
      obtain ⟨near, far, hjoin⟩ := @exists_join _ f.side c l r w
      rw [settle_join t (hsib.trans hjoin)]
      split_ifs
      · exact color_join _ _ _ _ _
      · cases near <;> exact color_join _ _ _ _ _
      · exact color_join _ _ _ _ _

theorem Low.dark {t : Coloured ι} {n : Nat} (h : Low t n) (hc : t.color ≠ .red) :
    Balanced t .black n := by
  rcases h with ⟨hred, -⟩ | hblack
  · exact absurd hred hc
  · exact hblack

/-- Below a red sibling there is a black one, and above it a place for a tree of any colour. -/
theorem red_sibling {f : Frame ι} {up : List (Frame ι)} {l r : Coloured ι} {w : ι} {n : Nat}
    (hsib : f.sib = node .red l w r) (hup : Open (f :: up) .black n) :
    Balanced f.below.sib .black n ∧ ∀ c, Open (f.above w :: up) c n := by
  have hcolor : f.sib.color = .red := by rw [hsib, color]
  cases hf : f.color with
  | red =>
      rw [Open, hf] at hup
      rw [hup.2.1.color_eq] at hcolor
      exact Color.noConfusion hcolor
  | black =>
      rw [Open, hf] at hup
      obtain ⟨⟨c', hbal⟩, hup⟩ := hup
      rw [hbal.color_eq] at hcolor
      obtain ⟨-, -, -, -, hkids⟩ := (hcolor ▸ hbal).red_kids
      exact ⟨hkids f.side, fun c => ⟨⟨_, hkids f.side.other⟩, hup⟩⟩

/-- **The repair after a deletion.** -/
theorem balanced_deleteFix {t : Coloured ι} {up : List (Frame ι)} {n : Nat} (ht : Low t n)
    (hup : Open up .black (n + 1)) : ∃ m, Balanced (deleteFix t up) .black m := by
  fun_induction deleteFix t up generalizing n with
  | case1 t =>
      rcases ht with ⟨-, hred⟩ | hblack
      · exact ⟨_, hred⟩
      · exact hblack.blacken
  | case2 t f up hred =>
      rcases ht with ⟨-, hred⟩ | hblack
      · exact hup.fill hred
      · rw [hblack.color_eq] at hred
        exact Color.noConfusion hred
  | case3 t f up hred l w r hsib hlow =>
      obtain ⟨hbelow, habove⟩ := red_sibling hsib hup
      rcases (settle_spec (ht.dark hred) hbelow).1 hlow with ⟨-, hdark⟩ | hdark
      · exact (habove .black).fill hdark
      · -- its root is red
        have hcolor := color_settle t f.below
        rw [hdark.color_eq] at hcolor
        exact Color.noConfusion hcolor
  | case4 t f up hred l w r hsib hdone =>
      obtain ⟨hbelow, habove⟩ := red_sibling hsib hup
      obtain ⟨m, hm⟩ := (habove .red).fill
        ((settle_spec (ht.dark hred) hbelow).2 (Bool.eq_false_iff.mpr hdone))
      exact hm.blacken
  | case5 t f up hred hlow hsib ih =>
      obtain ⟨⟨c, hbal⟩, hup⟩ := hup.up
      have hdark := hbal.dark (not_red hsib)
      exact ih ((settle_spec (ht.dark hred) hdark).1 hlow) (f.rise_succ n ▸ hup.black)
  | case6 t f up hred hdone hsib =>
      obtain ⟨⟨c, hbal⟩, hup⟩ := hup.up
      have hdark := hbal.dark (not_red hsib)
      obtain ⟨m, hm⟩ := hup.fill
        ((settle_spec (ht.dark hred) hdark).2 (Bool.eq_false_iff.mpr hdone))
      exact hm.blacken

/-! ## Height -/

/-- At most every other node of a way down is red. -/
theorem Balanced.height_le {t : Coloured ι} {c : Color} {n : Nat} (h : Balanced t c n) :
    t.height ≤ 2 * n + (if c = .red then 1 else 0) := by
  induction h with
  | nil => exact Nat.zero_le _
  | red hl hr ihl ihr =>
      rw [if_neg (by decide)] at ihl ihr
      rw [height, if_pos rfl]
      omega
  | @black l r a c c' n hl hr ihl ihr =>
      have hone : ∀ d : Color, (if d = .red then 1 else 0) ≤ 1 := by
        intro d
        split <;> omega
      have hc := hone c
      have hc' := hone c'
      rw [height, if_neg (by decide)]
      omega

/-- A tree with `n` black nodes on every way down has `2 ^ n - 1` nodes or more. -/
theorem Balanced.pow_le {t : Coloured ι} {c : Color} {n : Nat} (h : Balanced t c n) :
    2 ^ n ≤ t.labels.length + 1 := by
  induction h with
  | nil => exact Nat.le_refl 1
  | red hl hr ihl ihr =>
      rw [labels, List.length_append, List.length_cons]
      omega
  | black hl hr ihl ihr =>
      rw [labels, List.length_append, List.length_cons, Nat.pow_succ]
      omega

/-- **The height** is at most twice the logarithm of the number of nodes. -/
theorem Balanced.height_le_log {t : Coloured ι} {n : Nat} (h : Balanced t .black n) :
    t.height ≤ 2 * Nat.log2 (t.labels.length + 1) := by
  have hheight := h.height_le
  have hlog : n ≤ Nat.log2 (t.labels.length + 1) :=
    (Nat.le_log2 (Nat.succ_ne_zero _)).mpr h.pow_le
  rw [if_neg (by decide)] at hheight
  omega

end CppTrack.Lib
