import CppTrack.Lib.Run
import CppTrack.Pool.ThreadPoolJobs

/-!
# The list macros

`LL_ADD` and `LL_REMOVE` are meant for doubly linked lists. But `LL_ADD` does not tell the former
head of its new predecessor, so that no item ever gets one. Following `next`, the list is still
right as long as items are taken from the head only, and that is how the pool uses it; an item
from further down stays in the list when it is removed, and cuts off what comes after it.
-/

namespace CppTrack.ThreadPool

open Lib

/-- A list, and beside it the items that should be in it, the newest first, and those that have
been taken out again. -/
structure LinkedList where
  items : Items
  list : Nat
  live : List Nat
  removed : List Nat

inductive ListOp
  | add (item : Nat)
  | remove (item : Nat)

/-- One of the macros, with an item that it is meant for. -/
def LinkedList.step (s : LinkedList) : ListOp → Option LinkedList
  | .add item =>
      if item ≠ 0 ∧ item ∉ s.live then
        let (items, list) := llAdd s.items item s.list
        some ⟨items, list, item :: s.live, s.removed.filter (· ≠ item)⟩
      else none
  | .remove item =>
      if item ∈ s.live then
        let (items, list) := llRemove s.items item s.list
        some ⟨items, list, s.live.erase item, item :: s.removed⟩
      else none

/-- The empty list, before the items are initialized. -/
def emptyList (m : Items) : LinkedList := ⟨m, 0, [], []⟩

namespace LinkedList

/-- The items that should be in the list are met by following `next`. -/
def Forward (s : LinkedList) : Prop := Path (fun i => i) 0 s.items.next s.list s.live

/-- The first item has the predecessor `p`, and each other one the item before it. -/
def Backward (prev : Nat → Nat) : Nat → List Nat → Prop
  | _, [] => True
  | p, a :: l => prev a = p ∧ Backward prev a l

/-- Both ways the links are those of the list, and removed items have none. -/
structure Right (s : LinkedList) : Prop where
  forward : s.Forward
  backward : Backward s.items.prev 0 s.live
  removed : ∀ x ∈ s.removed, s.items.prev x = 0 ∧ s.items.next x = 0

/-- What holds whichever items are removed: no item has a predecessor. -/
structure Inv (s : LinkedList) : Prop where
  nonzero : ∀ x ∈ s.live, x ≠ 0
  nodup : s.live.Nodup
  first : ∀ x ∈ s.live, s.items.prev x = 0
  removed : ∀ x ∈ s.removed, s.items.prev x = 0 ∧ s.items.next x = 0

theorem inv_empty (m : Items) : (emptyList m).Inv where
  nonzero := fun _ hx => absurd hx List.not_mem_nil
  nodup := List.nodup_nil
  first := fun _ hx => absurd hx List.not_mem_nil
  removed := fun _ hx => absurd hx List.not_mem_nil

variable {s s' : LinkedList} {item : Nat}

theorem step_add (h : s.step (.add item) = some s') : (item ≠ 0 ∧ item ∉ s.live) ∧
    s' = ⟨(llAdd s.items item s.list).1, item, item :: s.live, s.removed.filter (· ≠ item)⟩ := by
  simp only [LinkedList.step] at h
  split_ifs at h with hok
  exact ⟨hok, (Option.some.inj h).symm⟩

theorem step_remove (h : s.step (.remove item) = some s') : item ∈ s.live ∧
    s' = ⟨(llRemove s.items item s.list).1, (llRemove s.items item s.list).2,
      s.live.erase item, item :: s.removed⟩ := by
  simp only [LinkedList.step] at h
  split_ifs at h with hok
  exact ⟨hok, (Option.some.inj h).symm⟩

theorem Inv.add (h : s.Inv) (hstep : s.step (.add item) = some s') : s'.Inv := by
  obtain ⟨⟨hitem, hnew⟩, rfl⟩ := step_add hstep
  refine ⟨?_, List.nodup_cons.mpr ⟨hnew, h.nodup⟩, ?_, ?_⟩
  · intro x hx
    rcases List.mem_cons.mp hx with rfl | hx
    · exact hitem
    · exact h.nonzero x hx
  · intro x hx
    show Function.update s.items.prev item 0 x = 0
    rw [Function.update_apply]
    split_ifs with hxi
    · rfl
    · exact h.first x ((List.mem_cons.mp hx).resolve_left hxi)
  · intro x hx
    obtain ⟨hx, hxi⟩ := List.mem_filter.mp hx
    have hxi : x ≠ item := of_decide_eq_true hxi
    show Function.update s.items.prev item 0 x = 0 ∧ Function.update s.items.next item s.list x = 0
    rw [Function.update_of_ne hxi, Function.update_of_ne hxi]
    exact h.removed x hx

theorem Inv.remove (h : s.Inv) (hstep : s.step (.remove item) = some s') : s'.Inv := by
  obtain ⟨hitem, rfl⟩ := step_remove hstep
  have hprev : s.items.prev item = 0 := h.first item hitem
  refine ⟨?_, h.nodup.erase item, ?_, ?_⟩
  · exact fun x hx => h.nonzero x (List.mem_of_mem_erase hx)
  · intro x hx
    show (llRemove s.items item s.list).1.prev x = 0
    exact llRemove_prev hprev (h.first x (List.mem_of_mem_erase hx))
  · intro x hx
    show (llRemove s.items item s.list).1.prev x = 0 ∧ (llRemove s.items item s.list).1.next x = 0
    rw [llRemove_next hprev, Function.update_apply]
    rcases List.mem_cons.mp hx with rfl | hx
    · exact ⟨llRemove_prev hprev hprev, if_pos rfl⟩
    · obtain ⟨hxp, hxn⟩ := h.removed x hx
      refine ⟨llRemove_prev hprev hxp, ?_⟩
      split_ifs
      · rfl
      · exact hxn

theorem Inv.step (h : s.Inv) (op : ListOp) (hstep : s.step op = some s') : s'.Inv := by
  cases op with
  | add item => exact h.add hstep
  | remove item => exact h.remove hstep

/-! ## The list by `next` -/

theorem Inv.stack (h : s.Inv) (hforward : s.Forward) : Stack s.items s.list s.live :=
  ⟨hforward, h.nonzero, h.first, h.nodup⟩

theorem Forward.add (hforward : s.Forward) (h : s.Inv) (hstep : s.step (.add item) = some s') :
    s'.Forward := by
  obtain ⟨⟨hitem, hnew⟩, rfl⟩ := step_add hstep
  exact ((h.stack hforward).add hitem hnew).path

/-- `LL_REMOVE` takes an item out if it is the head, and only then. -/
theorem Forward.remove_iff (hforward : s.Forward) (h : s.Inv)
    (hstep : s.step (.remove item) = some s') : s'.Forward ↔ item = s.list := by
  obtain ⟨hitem, rfl⟩ := step_remove hstep
  have hprev : s.items.prev item = 0 := h.first item hitem
  constructor
  · intro hforward'
    by_contra hne
    -- the links that the remaining items are met by are the same as before, so nothing is missing
    have hpath : Path (fun i => i) 0 (llRemove s.items item s.list).1.next
      (llRemove s.items item s.list).2 (s.live.erase item) := hforward'
    rw [llRemove_list hprev, llRemove_next hprev, if_neg (Ne.symm hne)] at hpath
    have hold : Path (fun i => i) 0 s.items.next s.list (s.live.erase item) := by
      refine hpath.congr fun a ha => ?_
      have hai : a ≠ item := (List.Nodup.mem_erase_iff h.nodup).mp ha |>.1
      exact (Function.update_of_ne hai ..).symm
    -- but the list that they make up is another one
    have hsame := Path.unique hforward hold h.nonzero
      fun a ha => h.nonzero a (List.mem_of_mem_erase ha)
    rw [hsame] at hitem
    exact h.nodup.not_mem_erase hitem
  · rintro rfl
    have hcons := (Path.eq_cons hforward (h.nonzero s.list hitem)).1
    have hstack := h.stack hforward
    rw [hcons] at hstack
    show Path _ 0 (llRemove s.items s.list s.list).1.next _ (s.live.erase s.list)
    have herase : s.live.erase s.list = s.live.tail := by
      rw [hcons]
      exact List.erase_cons_head ..
    rw [herase]
    exact hstack.remove.path

/--
In every run from the empty list: following `next` one meets the right items all along if and only
if every `LL_REMOVE` takes the item at the head.
-/
theorem forward_iff_meets (m : Items) (ops : List ListOp)
    (hrun : run LinkedList.step (emptyList m) ops = some s) :
    Always LinkedList.step Forward (emptyList m) ops ↔
      Meets LinkedList.step (fun s op => ∀ item, op = .remove item → item = s.list)
        (emptyList m) ops := by
  refine always_iff_meets _ (fun s op s' h => h.step op) ?_ ops (inv_empty m) rfl hrun
  intro s op s' h hforward hstep
  cases op with
  | add item =>
      refine iff_of_true (hforward.add h hstep) ?_
      intro item' heq
      cases heq
  | remove item =>
      rw [hforward.remove_iff h hstep]
      constructor
      · rintro hitem item' ⟨⟩
        exact hitem
      · intro hok
        exact hok item rfl

/-! ## The list both ways -/

/-- Without predecessors there is no list of two items. -/
theorem Inv.backward_iff (h : s.Inv) : Backward s.items.prev 0 s.live ↔ s.live.length ≤ 1 := by
  obtain ⟨hnonzero, -, hfirst, -⟩ := h
  generalize s.live = live at hnonzero hfirst
  cases live with
  | nil => exact iff_of_true trivial (Nat.zero_le 1)
  | cons a l =>
      cases l with
      | nil => exact iff_of_true ⟨hfirst a List.mem_cons_self, trivial⟩ (Nat.le_refl 1)
      | cons b l =>
          -- the second item should have the first one for its predecessor, and has none
          refine iff_of_false ?_ (by simp)
          rintro ⟨-, hb, -⟩
          rw [hfirst b (List.mem_cons_of_mem a List.mem_cons_self)] at hb
          exact hnonzero a List.mem_cons_self hb.symm

theorem Inv.right_iff (h : s.Inv) : s.Right ↔ s.Forward ∧ s.live.length ≤ 1 := by
  rw [← h.backward_iff]
  exact ⟨fun hr => ⟨hr.forward, hr.backward⟩, fun hr => ⟨hr.1, hr.2, h.removed⟩⟩

/-- After `LL_ADD` the list is right if it was empty before, and only then. -/
theorem Right.add_iff (hright : s.Right) (h : s.Inv) (hstep : s.step (.add item) = some s') :
    s'.Right ↔ s.list = 0 := by
  have hforward' := hright.forward.add h hstep
  -- with the new item there may be no other
  rw [(h.add hstep).right_iff, and_iff_right hforward']
  obtain ⟨-, rfl⟩ := step_add hstep
  rw [List.length_cons]
  constructor
  · intro hlength
    have hnil : s.live = [] := List.length_eq_zero_iff.mp (by omega)
    have hforward := hright.forward
    rw [Forward, hnil] at hforward
    exact hforward
  · intro hlist
    have hforward := hright.forward
    rw [Forward, hlist] at hforward
    rw [hforward.eq_nil h.nonzero]
    exact Nat.le_refl 1

/-- A list that is right both ways has one item at most, so that `LL_REMOVE` takes the head. -/
theorem Right.remove (hright : s.Right) (h : s.Inv) (hstep : s.step (.remove item) = some s') :
    s'.Right := by
  obtain ⟨hforward, hlength⟩ := h.right_iff.mp hright
  obtain ⟨hitem, hs'⟩ := step_remove hstep
  have hhead : item = s.list := by
    obtain ⟨a, ha⟩ : ∃ a, s.live = [a] :=
      List.length_eq_one_iff.mp (Nat.le_antisymm hlength (List.length_pos_of_mem hitem))
    rw [Forward, ha] at hforward
    rw [ha] at hitem
    exact (List.mem_singleton.mp hitem).trans hforward.1.symm
  refine (h.remove hstep).right_iff.mpr ⟨(hforward.remove_iff h hstep).mpr hhead, ?_⟩
  rw [hs']
  exact Nat.le_trans List.length_erase_le hlength

/--
In every run from the empty list: the links are right both ways all along if and only if every
`LL_ADD` finds the list empty.
-/
theorem right_iff_meets (m : Items) (ops : List ListOp)
    (hrun : run LinkedList.step (emptyList m) ops = some s) :
    Always LinkedList.step Right (emptyList m) ops ↔
      Meets LinkedList.step (fun s op => ∀ item, op = .add item → s.list = 0)
        (emptyList m) ops := by
  have hempty : (emptyList m).Right := (inv_empty m).right_iff.mpr ⟨rfl, Nat.zero_le 1⟩
  refine always_iff_meets _ (fun s op s' h => h.step op) ?_ ops (inv_empty m) hempty hrun
  intro s op s' h hright hstep
  cases op with
  | add item =>
      rw [hright.add_iff h hstep]
      constructor
      · intro hlist item' _
        exact hlist
      · intro hok
        exact hok item rfl
  | remove item =>
      refine iff_of_true (hright.remove h hstep) ?_
      intro item' heq
      cases heq

/-- Items whose memory is cleared. -/
def cleared : Items := ⟨fun _ => 0, fun _ => 0⟩

theorem right_iff_meets_again :
    Always LinkedList.step Right (emptyList cleared) [.add 1, .remove 1, .add 2] ↔
      Meets LinkedList.step (fun s op => ∀ item, op = .add item → s.list = 0)
        (emptyList cleared) [.add 1, .remove 1, .add 2] :=
  right_iff_meets cleared [.add 1, .remove 1, .add 2] rfl

theorem links_not_always_right : ¬ ∀ (m : Items) (ops : List ListOp) (s : LinkedList),
    run LinkedList.step (emptyList m) ops = some s →
      Always LinkedList.step Right (emptyList m) ops := by
  intro hall
  have hright := hall cleared [.add 1, .add 2] _ rfl [.add 1, .add 2] _ (List.prefix_refl _) rfl
  -- the former head is not told of its predecessor
  have hprev : (0 : Nat) = 2 := hright.backward.2.1
  exact absurd hprev (by decide)

end LinkedList

end CppTrack.ThreadPool
