import Mathlib.Algebra.Group.Int.Defs
import Mathlib.Data.List.TakeWhile
import CppTrack.Timers.SkipListProof

/-!
# The skip list over whole histories

Seen from outside the skip list is a list of entries in order of score, and the levels
do not show: `Queue` is that list, and each call does to it what the call does to the
skip list, whatever level was drawn. Two runs of the same calls therefore end with the
same list, and both with chains that are what they should be.
-/

namespace CppTrack.SkipList

open Lib

/-! ## The list without levels -/

structure Entry where
  id : Nat
  score : Nat
  handler : Nat

/-- The entries, in order, and the name of the next. -/
structure Queue where
  items : List Entry
  next : Nat

/-- A call without the level it drew. -/
inductive Call
  | insert (sc handler : Nat)
  | delete (zn : Nat)
  | deleteHead
  deriving DecidableEq

def Op.call : Op → Call
  | .insert _ sc handler => .insert sc handler
  | .delete zn => .delete zn
  | .deleteHead => .deleteHead

/-- What a call is for: an entry goes before those of its own score, and the first entry of
the score asked for is taken out. -/
def Queue.call (q : Queue) : Call → Queue
  | .insert sc handler =>
      { items := q.items.takeWhile (fun e => e.score < sc) ++
          ⟨q.next, sc, handler⟩ :: q.items.dropWhile (fun e => e.score < sc)
        next := q.next + 1 }
  | .delete zn =>
      match q.items.find? (fun e => e.id = zn) with
      | none => q
      | some z =>
          { q with
            items := q.items.takeWhile (fun e => e.score < z.score) ++
              (q.items.dropWhile (fun e => e.score < z.score)).tail }
  | .deleteHead => { q with items := q.items.tail }

/-- The calls a caller may make; a level is one that `zslRandomLevel` can return. -/
def Accepts (s : Zskiplist) : Op → Prop
  | .insert level _ _ => 1 ≤ level ∧ level ≤ maxLevel
  | .delete zn => zn ∈ (s.chain 0).getD []
  | .deleteHead => True

instance (s : Zskiplist) : (op : Op) → Decidable (Accepts s op)
  | .insert level _ _ => inferInstanceAs (Decidable (1 ≤ level ∧ level ≤ maxLevel))
  | .delete zn => inferInstanceAs (Decidable (zn ∈ (s.chain 0).getD []))
  | .deleteHead => inferInstanceAs (Decidable True)

/-- Levels that `zslRandomLevel` can return. -/
def Op.Drawn : Op → Prop
  | .insert level _ _ => 1 ≤ level ∧ level ≤ maxLevel
  | _ => True

instance : (op : Op) → Decidable op.Drawn
  | .insert level _ _ => inferInstanceAs (Decidable (1 ≤ level ∧ level ≤ maxLevel))
  | .delete _ => inferInstanceAs (Decidable True)
  | .deleteHead => inferInstanceAs (Decidable True)

/-- The chains are `c`, and they are what the chains of a skip list should be. An `int` holds the
length of a list of fewer than `2 ^ 31` nodes. -/
structure Valid (s : Zskiplist) (c : Nat → List Nat) : Prop where
  chain : ∀ i, i < maxLevel → s.chain i = some (c i)
  live : ∀ i, i < maxLevel → ∀ x ∈ c i, (score s.heap x).isSome
  sorted : ∀ i, i < maxLevel → (c i).Pairwise fun x y => ∀ a b, score s.heap x = some a →
    score s.heap y = some b → a ≤ b
  below : ∀ i, i + 1 < maxLevel → (c (i + 1)).Sublist (c i)
  length : (c 0).length < 2 ^ 31 → s.length.toInt = (c 0).length
  level_pos : 1 ≤ s.level
  level_le : s.level ≤ maxLevel
  level_top : s.level = 1 ∨ c (s.level - 1) ≠ []
  level_above : ∀ i, s.level ≤ i → c i = []

section

variable {s s' : Zskiplist} {xs : List Nat} {q : Queue} {h h' : NodeHeap} {t x : Nat}

theorem Represents.level_zero (hr : Represents s xs) : level s.heap 0 xs = xs :=
  List.filter_eq_self.mpr fun x hx => decide_eq_true (hr.nodes x hx).1

theorem Represents.chain_eq (hr : Represents s xs) {i : Nat} (hi : i < maxLevel) :
    s.chain i = some (level s.heap i xs) :=
  readChain_of_path (hr.path i hi) (Nat.lt_of_le_of_lt level_sublist.length_le hr.length_lt)

theorem Represents.valid (hr : Represents s xs) : Valid s fun i => level s.heap i xs where
  chain := fun i hi => hr.chain_eq hi
  live := by
    intro i _ x hx
    rw [score_eq (hr.live (List.mem_cons_of_mem _ (mem_level.mp hx).1))]
    rfl
  sorted := by
    intro i _
    refine (hr.sorted.sublist level_sublist).imp_of_mem fun {x y} hx hy hle a b ha hb => ?_
    rw [score_eq (hr.live (List.mem_cons_of_mem _ (mem_level.mp hx).1)), Option.some.injEq] at ha
    rw [score_eq (hr.live (List.mem_cons_of_mem _ (mem_level.mp hy).1)), Option.some.injEq] at hb
    rwa [← ha, ← hb]
  below := by
    intro i _
    rw [level_succ]
    exact List.filter_sublist
  length := by
    rw [hr.level_zero, hr.length]
    exact Int32.toInt_ofNat_of_lt
  level_pos := hr.level_pos
  level_le := hr.level_le
  level_top := by
    refine hr.top.imp id fun ⟨x, hx, hlv⟩ hnil => ?_
    have hin : x ∈ level s.heap (s.level - 1) xs := by
      have := hr.level_pos
      exact mem_level.mpr ⟨hx, by omega⟩
    rw [hnil] at hin
    exact absurd hin List.not_mem_nil
  level_above := fun i hi => level_eq_nil fun x hx => Nat.le_trans (hr.nodes x hx).2 hi

/-! ## The skip list is that list -/

def entry (h : NodeHeap) (x : Nat) : Entry :=
  { id := x, score := sc h x, handler := ((info h x).map Info.handler).getD 0 }

/-- The skip list holds the entries of `q`. -/
def Holds (s : Zskiplist) (q : Queue) : Prop :=
  ∃ xs, Represents s xs ∧ q.items = xs.map (entry s.heap) ∧ q.next = s.heap.next

theorem entry_congr (hinfo : info h' x = info h x) : entry h' x = entry h x := by
  simp only [entry, sc, hinfo]

theorem takeWhile_entries (h : NodeHeap) (t : Nat) (xs : List Nat) :
    (xs.map (entry h)).takeWhile (fun e => e.score < t) =
      (xs.takeWhile fun x => sc h x < t).map (entry h) :=
  List.takeWhile_map ..

theorem dropWhile_entries (h : NodeHeap) (t : Nat) (xs : List Nat) :
    (xs.map (entry h)).dropWhile (fun e => e.score < t) =
      (xs.dropWhile fun x => sc h x < t).map (entry h) :=
  List.dropWhile_map ..

theorem find_entry {zn : Nat} (hzn : zn ∈ xs) :
    (xs.map (entry h)).find? (fun e => e.id = zn) = some (entry h zn) := by
  induction xs with
  | nil => exact absurd hzn List.not_mem_nil
  | cons x xs ih =>
      rw [List.map_cons, List.find?_cons]
      by_cases hx : x = zn
      · rw [hx]
        simp [entry]
      · rw [show decide ((entry h x).id = zn) = false from decide_eq_false hx]
        exact ih ((List.mem_cons.mp hzn).resolve_left fun he => hx he.symm)

theorem lt_of_mem_takeWhile (hx : x ∈ xs.takeWhile fun x => sc h x < t) : sc h x < t := by
  have := List.mem_takeWhile_imp hx
  simpa using this

/-- In a sorted list nothing after the first that is large enough is too small. -/
theorem le_of_mem_dropWhile (hs : xs.Pairwise fun x y => sc h x ≤ sc h y)
    (hx : x ∈ xs.dropWhile fun x => sc h x < t) : t ≤ sc h x := by
  induction xs with
  | nil => exact absurd hx List.not_mem_nil
  | cons y xs ih =>
      obtain ⟨hy, hxs⟩ := List.pairwise_cons.mp hs
      rw [List.dropWhile_cons] at hx
      split at hx
      · exact ih hxs hx
      · rename_i hge
        have hge : t ≤ sc h y := by simpa using hge
        rcases List.mem_cons.mp hx with rfl | hx
        · exact hge
        · exact Nat.le_trans hge (hy x hx)

/-- The list up to the first node whose score is not smaller: that one has the same score. -/
theorem Represents.first_of_score (hr : Represents s xs) {zn : Nat} (hzn : zn ∈ xs) :
    ∃ pre x post, xs = pre ++ x :: post ∧
      (xs.takeWhile fun x => sc s.heap x < sc s.heap zn) = pre ∧
      (xs.dropWhile fun x => sc s.heap x < sc s.heap zn) = x :: post ∧
      (∀ y ∈ pre, sc s.heap y < sc s.heap zn) ∧ sc s.heap x = sc s.heap zn := by
  have hsplit := List.takeWhile_append_dropWhile (p := fun x => sc s.heap x < sc s.heap zn)
    (l := xs)
  have hdrop : zn ∈ xs.dropWhile fun x => sc s.heap x < sc s.heap zn := by
    rw [← hsplit] at hzn
    refine (List.mem_append.mp hzn).resolve_left fun hin => ?_
    exact Nat.lt_irrefl _ (lt_of_mem_takeWhile hin)
  generalize hpost : (xs.dropWhile fun x => sc s.heap x < sc s.heap zn) = rest at hsplit hdrop
  cases rest with
  | nil => exact absurd hdrop List.not_mem_nil
  | cons x post =>
      have hge : sc s.heap zn ≤ sc s.heap x :=
        le_of_mem_dropWhile hr.sorted (hpost ▸ List.mem_cons_self)
      have hle : sc s.heap x ≤ sc s.heap zn := by
        have hs := hr.sorted
        rw [← hsplit] at hs
        rcases List.mem_cons.mp hdrop with rfl | hin
        · exact Nat.le_refl _
        · exact (List.pairwise_cons.mp (List.pairwise_append.mp hs).2.1).1 zn hin
      exact ⟨_, x, post, hsplit.symm, rfl, rfl, fun y hy => lt_of_mem_takeWhile hy,
        Nat.le_antisymm hle hge⟩

theorem Holds.contents (hh : Holds s q) :
    s.contents = some (q.items.map fun e => (e.score, e.handler)) := by
  obtain ⟨xs, hr, hitems, -⟩ := hh
  unfold Zskiplist.contents
  rw [hr.chain_eq (by decide), hr.level_zero, hitems, Option.map_some, List.map_map,
    ← List.filterMap_eq_map]
  refine congrArg some (List.filterMap_congr fun x hx => ?_)
  have hlive := hr.live (List.mem_cons_of_mem _ hx)
  cases hg : s.heap.get x with
  | none => rw [info, hg] at hlive; exact absurd hlive (by simp)
  | some n => simp [entry, sc, info, hg]

/-- The calls that can be made depend only on the list. -/
theorem Holds.accepts (hh : Holds s q) (hh' : Holds s' q) {op op' : Op} (hcall : op.call = op'.call)
    (hop : Accepts s op) (hdrawn : op'.Drawn) : Accepts s' op' := by
  obtain ⟨xs, hr, hitems, -⟩ := hh
  obtain ⟨xs', hr', hitems', -⟩ := hh'
  have hxs : xs' = xs := by
    have heq := congrArg (List.map Entry.id) (hitems.symm.trans hitems')
    simpa [List.map_map, Function.comp_def, entry] using heq.symm
  cases op' with
  | insert level sc handler => exact hdrawn
  | deleteHead => trivial
  | delete zn =>
      cases op with
      | insert level sc handler => exact absurd hcall (by simp [Op.call])
      | deleteHead => exact absurd hcall (by simp [Op.call])
      | delete zn' =>
          obtain rfl : zn' = zn := by simpa [Op.call] using hcall
          rw [Accepts, hr.chain_eq (by decide), hr.level_zero] at hop
          rw [Accepts, hr'.chain_eq (by decide), hr'.level_zero, hxs]
          exact hop

/-- **A call does to the skip list what it does to the list.** -/
theorem Holds.step (hh : Holds s q) {op : Op} (hop : Accepts s op) :
    ∃ s', step s op = some s' ∧ Holds s' (q.call op.call) := by
  obtain ⟨xs, hr, hitems, hnext⟩ := hh
  cases op with
  | insert level t handler =>
      have hsplit := List.takeWhile_append_dropWhile (p := fun x => sc s.heap x < t) (l := xs)
      rw [← hsplit] at hr
      obtain ⟨s', hrun, hr', hnext', hinfo⟩ := zslInsert_represents handler hr
        (fun x hx => lt_of_mem_takeWhile hx)
        (fun x hx => le_of_mem_dropWhile (hsplit ▸ hr.sorted) hx) hop.1 hop.2
      have hold : ∀ x ∈ xs, entry s'.heap x = entry s.heap x := by
        intro x hx
        have hlt := hr.inside x (List.mem_cons_of_mem _ (hsplit.symm ▸ hx))
        exact entry_congr (by rw [hinfo, if_neg (Nat.ne_of_lt hlt)])
      refine ⟨s', by rw [SkipList.step, hrun]; rfl, _, hr', ?_, by rw [hnext', ← hnext]; rfl⟩
      simp only [Queue.call, Op.call, hitems, takeWhile_entries, dropWhile_entries,
        List.map_append, List.map_cons]
      congr 1
      · exact List.map_congr_left fun x hx => (hold x (List.takeWhile_subset _ hx)).symm
      · congr 1
        · simp only [entry, sc, hinfo, if_true, hnext]
          rfl
        · exact List.map_congr_left fun x hx => (hold x (List.dropWhile_subset _ hx)).symm
  | delete zn =>
      have hzn : zn ∈ xs := by
        rw [Accepts, hr.chain_eq (by decide), hr.level_zero] at hop
        exact hop
      obtain ⟨pre, x, post, hsplit, hpre, hpost, hless, hx⟩ := hr.first_of_score hzn
      rw [hsplit] at hr hzn
      obtain ⟨s', hrun, hr', hnext', hinfo, -⟩ := zslDelete_represents hr hzn hless hx
      have hne : ∀ y ∈ pre ++ post, y ≠ x := by
        rintro y hy rfl
        have hnd := (List.nodup_cons.mp hr.nodup).2
        exact (List.nodup_cons.mp (List.nodup_middle.mp hnd)).1 hy
      have hfind : q.items.find? (fun e => e.id = zn) = some (entry s.heap zn) := by
        rw [hitems]
        exact find_entry (hsplit.symm ▸ hzn)
      refine ⟨s', hrun, pre ++ post, hr', ?_, ?_⟩
      · simp only [Queue.call, Op.call, hfind]
        rw [show (entry s.heap zn).score = sc s.heap zn from rfl, hitems,
          takeWhile_entries, dropWhile_entries, hpre, hpost, List.map_cons, List.tail_cons,
          ← List.map_append]
        exact List.map_congr_left fun y hy => (entry_congr (hinfo y (hne y hy))).symm
      · simp only [Queue.call, Op.call, hfind]
        rw [hnext', hnext]
  | deleteHead =>
      cases xs with
      | nil =>
          exact ⟨s, zslDeleteHead_empty hr, [], hr, by simp [Queue.call, Op.call, hitems], hnext⟩
      | cons x xs =>
          obtain ⟨s', hrun, hr', hnext', hinfo⟩ := zslDeleteHead_represents hr
          refine ⟨s', hrun, xs, hr', ?_, by rw [hnext', ← hnext]; rfl⟩
          simp only [Queue.call, Op.call, hitems, List.map_cons, List.tail_cons]
          exact List.map_congr_left fun y _ => (entry_congr (hinfo y)).symm

/-! ## Two runs of the same calls -/

/-- `zslCreate`, then the calls. -/
def history (ops : List Op) : Option Zskiplist := zslCreate.bind fun s => run step s ops

theorem zslCreate_holds :
    ∃ s, zslCreate = some s ∧ Holds s { items := [], next := 1 } := by
  have hheader : lv (zslCreateNode Heap.empty maxLevel 0 defaultHandler).2 0 = maxLevel := rfl
  obtain ⟨h, hrun, hnext, hsame, hpath⟩ := forUp_inv
    (fun j h => setForward h (zslCreateNode Heap.empty maxLevel 0 defaultHandler).1 j none)
    (fun j h => h.next = 1 ∧
      (∀ y, info h y = info (zslCreateNode Heap.empty maxLevel 0 defaultHandler).2 y) ∧
      ∀ i, i < j → forward h 0 i = some none) 0 maxLevel _
    ⟨rfl, fun _ => rfl, fun i hi => absurd hi (Nat.not_lt_zero i)⟩
    (fun j h _ hj ⟨hnext, hsame, hpath⟩ => by
      have hlv : j < lv h 0 := by
        rw [lv, hsame, ← lv, hheader]
        omega
      obtain ⟨h', hrun, hw⟩ := setForward_wrote hlv none
      refine ⟨h', hrun, hw.next.trans hnext, fun y => (hw.info y).trans (hsame y), fun i hi => ?_⟩
      rw [hw.forward]
      split
      · rfl
      · exact hpath i (by omega))
  refine ⟨{ heap := h, header := 0, length := 0, level := 1 }, ?_, [], ?_, rfl, hnext.symm⟩
  · unfold zslCreate
    simp only [Option.bind_eq_bind]
    rw [hrun]
    rfl
  · exact
      { header := by
          show lv h 0 = maxLevel
          rw [lv, hsame, ← lv, hheader]
        nodes := fun x hx => absurd hx List.not_mem_nil
        inside := by
          intro x hx
          obtain rfl : x = 0 := by simpa using hx
          show 0 < h.next
          omega
        nodup := List.nodup_singleton 0
        sorted := List.Pairwise.nil
        path := fun i hi => hpath i (by omega)
        length := rfl
        level_pos := Nat.le_refl 1
        level_le := Nat.le_of_ble_eq_true rfl
        top := .inl rfl }

/-- `n` nodes of one level, all with one score. -/
theorem Holds.fills (n : Nat) (hh : Holds s q) :
    ∃ s' q', run SkipList.step s (List.replicate n (.insert 1 0 0)) = some s' ∧ Holds s' q' ∧
      q'.items.length = q.items.length + n := by
  induction n generalizing s q with
  | zero => exact ⟨s, q, rfl, hh, rfl⟩
  | succ n ih =>
      have haccepts : Accepts s (.insert 1 0 0) := ⟨Nat.le_refl 1, by decide⟩
      obtain ⟨s₁, h₁, hh₁⟩ := hh.step haccepts
      obtain ⟨s', q', hrun, hh', hlen⟩ := ih hh₁
      refine ⟨s', q', ?_, hh', ?_⟩
      · rw [List.replicate_succ, run, h₁]
        exact hrun
      · have hsplit := congrArg List.length
          (List.takeWhile_append_dropWhile (p := fun e => decide (e.score < 0)) (l := q.items))
        rw [List.length_append] at hsplit
        rw [hlen, Op.call, Queue.call, List.length_append, List.length_cons]
        omega

theorem Holds.runs (ops ops' : List Op) (hcalls : ops.map Op.call = ops'.map Op.call)
    (hh : Holds s q) (hh' : Holds s' q) (hops : Meets SkipList.step Accepts s ops)
    (hdrawn : ∀ op ∈ ops', op.Drawn) :
    ∃ t t' r, run SkipList.step s ops = some t ∧ run SkipList.step s' ops' = some t' ∧
      Holds t r ∧ Holds t' r := by
  induction ops generalizing s s' q ops' with
  | nil =>
      obtain rfl : ops' = [] := List.map_eq_nil_iff.mp hcalls.symm
      exact ⟨s, s', q, rfl, rfl, hh, hh'⟩
  | cons op ops ih =>
      cases ops' with
      | nil => exact absurd hcalls (by simp)
      | cons op' ops' =>
          rw [List.map_cons, List.map_cons, List.cons.injEq] at hcalls
          have hop' := hh.accepts hh' hcalls.1 hops.1 (hdrawn op' List.mem_cons_self)
          obtain ⟨s₁, h₁, hh₁⟩ := hh.step hops.1
          obtain ⟨s₁', h₁', hh₁'⟩ := hh'.step hop'
          rw [← hcalls.1] at hh₁'
          obtain ⟨t, t', r, ht, ht', hr, hr'⟩ := ih ops' hcalls.2 hh₁ hh₁' (hops.2 s₁ h₁)
            (fun op hop => hdrawn op (List.mem_cons_of_mem _ hop))
          refine ⟨t, t', r, ?_, ?_, hr, hr'⟩
          · rw [run, h₁]
            exact ht
          · rw [run, h₁']
            exact ht'

end

/--
**The levels do not show.** Two histories of the same calls both go through whatever
levels they draw; each ends with chains that are what they should be, and both end with
the same scores and handlers in the same order. The length is right up to the largest `int`.
-/
theorem levels_independent (ops ops' : List Op) (hcalls : ops.map Op.call = ops'.map Op.call)
    (hops : ∀ s, zslCreate = some s → Meets step Accepts s ops)
    (hdrawn : ∀ op ∈ ops', op.Drawn) :
    ∃ s s' c c' l, history ops = some s ∧ history ops' = some s' ∧ Valid s c ∧ Valid s' c' ∧
      s.contents = some l ∧ s'.contents = some l := by
  obtain ⟨s₀, h₀, hh₀⟩ := zslCreate_holds
  obtain ⟨s, s', q, hrun, hrun', hh, hh'⟩ := hh₀.runs ops ops' hcalls hh₀ (hops s₀ h₀) hdrawn
  obtain ⟨xs, hr, -⟩ := id hh
  obtain ⟨xs', hr', -⟩ := id hh'
  refine ⟨s, s', _, _, _, ?_, ?_, hr.valid, hr'.valid, hh.contents, hh'.contents⟩
  · rw [history, h₀]
    exact hrun
  · rw [history, h₀]
    exact hrun'

/-- Equal scores, and levels drawn in two ways. -/
theorem levels_independent_five :
    ∃ s s' c c' l,
      history [.insert 1 5 7, .insert 3 5 8, .insert 2 4 9, .delete 1, .deleteHead] = some s ∧
      history [.insert 2 5 7, .insert 1 5 8, .insert 32 4 9, .delete 1, .deleteHead] = some s' ∧
      Valid s c ∧ Valid s' c' ∧ s.contents = some l ∧ s'.contents = some l :=
  levels_independent _ _ (by decide) (by
    intro s hs
    have hm : ∀ o : Option Zskiplist, (∀ s ∈ o, Meets step Accepts s
      [.insert 1 5 7, .insert 3 5 8, .insert 2 4 9, .delete 1, .deleteHead]) → o = some s →
      Meets step Accepts s [.insert 1 5 7, .insert 3 5 8, .insert 2 4 9, .delete 1, .deleteHead] :=
      fun o ho he => ho s he
    exact hm zslCreate (by decide +kernel) hs) (by decide)

theorem history_fills (n : Nat) :
    ∃ s xs, history (List.replicate n (.insert 1 0 0)) = some s ∧ s.chain 0 = some xs ∧
      xs.length = n ∧ s.length = Int32.ofNat n := by
  obtain ⟨s₀, h₀, hh₀⟩ := zslCreate_holds
  obtain ⟨s, q, hrun, ⟨xs, hr, hitems, -⟩, hlen⟩ := hh₀.fills n
  have hxs : xs.length = n := by
    rw [hitems, List.length_map] at hlen
    rw [hlen]
    exact Nat.zero_add n
  refine ⟨s, xs, ?_, ?_, hxs, ?_⟩
  · rw [history, h₀]
    exact hrun
  · rw [hr.chain_eq (by decide), hr.level_zero]
  · rw [hr.length, hxs]

/-- After `2 ^ 31` insertions the length is negative. -/
theorem length_overflows :
    ∃ s xs, history (List.replicate (2 ^ 31) (.insert 1 0 0)) = some s ∧
      s.chain 0 = some xs ∧ xs.length = 2 ^ 31 ∧ s.length.toInt = -2 ^ 31 := by
  obtain ⟨s, xs, hrun, hchain, hxs, hlen⟩ := history_fills (2 ^ 31)
  refine ⟨s, xs, hrun, hchain, hxs, ?_⟩
  rw [hlen]
  rfl

end CppTrack.SkipList
