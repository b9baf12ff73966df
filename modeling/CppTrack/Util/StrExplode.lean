import CppTrack.Lib.Blocks
import CppTrack.Lib.Run
import CppTrack.Lib.Word
import Mathlib.Algebra.GroupWithZero.Nat

/-!
# Splitting a string (`CStrExplode`)

The separators are counted first, and then the pieces between them are copied to strings of their
own. A separator where a piece begins does not end one.

The strings that were allocated are numbered, and a pointer to one is its number; an entry of the
list that was never set is `none`, and so is a character of a string. Outside of that `none` is
what is undefined: a copy outside a string, an entry outside the list, an `int` that gets too
large, and the use of an entry that was never set.
-/

namespace CppTrack.Util

open Lib

/-- `CStrExplode`, with the strings it has allocated. -/
structure CStrExplode where
  itemCnt : Nat
  itemList : List (Option Nat)
  strings : List (List (Option UInt8))

/-- The first loop. -/
def countItems (str : List UInt8) (sep : UInt8) : Nat :=
  str.foldl (fun cnt c => if c = sep then addU32 cnt 1 else cnt) 1

namespace CStrExplode

/-- A piece is copied to a new string, to which the entry is set. -/
def store (e : CStrExplode) (idx : Nat) (item : List UInt8) : Option CStrExplode :=
  let len := item.length % wordSize
  if idx < e.itemList.length then do
    let block := List.replicate (addU32 len 1) none
    let block ← copyTo block 0 ((item.take len).map some)
    let block ← copyTo block len [some 0]
    some { e with
      itemList := e.itemList.set idx (some e.strings.length)
      strings := e.strings ++ [block] }
  else none

/-- The second loop, with what is from `pos` on and what is between `start` and `pos`. -/
def split (sep : UInt8) : (pos item : List UInt8) → (idx : Nat) → CStrExplode →
    Option (List UInt8 × Nat × CStrExplode)
  | [], item, idx, e => some (item, idx, e)
  | c :: pos, item, idx, e =>
      if item ≠ [] ∧ c = sep then
        (e.store idx item).bind fun e =>
          if idx + 1 < 2 ^ 31 then split sep pos [] (idx + 1) e else none
      else split sep pos (item ++ [c]) idx e

/-- The constructor. -/
def new (str : List UInt8) (sep : UInt8) : Option CStrExplode := do
  let itemCnt := countItems str sep
  let e := { itemCnt := itemCnt, itemList := List.replicate itemCnt none, strings := [] }
  let (item, idx, e) ← split sep str [] 0 e
  if item.length % wordSize ≠ 0 then e.store idx item else some e

/-- The characters up to the zero. -/
def chars : List (Option UInt8) → Option (List UInt8)
  | [] => none
  | none :: _ => none
  | some c :: block => if c = 0 then some [] else (chars block).map (c :: ·)

/-- The string that `GetItem` returns. -/
def getItem (e : CStrExplode) (idx : Nat) : Option (List UInt8) := do
  let entry ← e.itemList[idx]?
  let p ← entry
  let block ← e.strings[p]?
  chars block

/-- `delete [] m_item_list[i]`. -/
def deleteItem (e : CStrExplode) (live : List Nat) (i : Nat) : Option (List Nat) := do
  let entry ← e.itemList[i]?
  let p ← entry
  if p ∈ live then some (live.erase p) else none

/-- The destructor, with the strings that are left after it. -/
def destroy (e : CStrExplode) : Option (List Nat) :=
  (List.range e.itemCnt).foldlM e.deleteItem (List.range e.strings.length)

end CStrExplode

/-! ## What it should do -/

/-- The bytes of a string that ends with a zero. -/
structure CStr where
  bytes : List UInt8
  noZero : 0 ∉ bytes

/-- All entries are strings, which joined give back the whole; and they are all freed. -/
def ExplodesRight (str : CStr) (sep : UInt8) : Prop :=
  ∃ e items, CStrExplode.new str.bytes sep = some e ∧ items.length = e.itemCnt ∧
    (∀ i, i < e.itemCnt → e.getItem i = items[i]?) ∧ [sep].intercalate items = str.bytes ∧
      e.destroy = some []

/-- No item is empty, and their lengths and their number are small enough. -/
def Splittable (str : CStr) (sep : UInt8) : Prop :=
  (∀ item ∈ str.bytes.splitOn sep, item ≠ [] ∧ item.length + 1 < wordSize) ∧
    (str.bytes.splitOn sep).length ≤ 2 ^ 31

/-! ## The pieces -/

/-- The pieces that end at a separator, and the last one. -/
def pieces (sep : UInt8) : (pos item : List UInt8) → List (List UInt8) × List UInt8
  | [], item => ([], item)
  | c :: pos, item =>
      if item ≠ [] ∧ c = sep then
        let r := pieces sep pos []
        (item :: r.1, r.2)
      else pieces sep pos (item ++ [c])

/-- What is copied of a piece. -/
def copied (item : List UInt8) : List UInt8 := item.take (item.length % wordSize)

/-- The string of a piece. -/
def blockOf (item : List UInt8) : List (Option UInt8) := (copied item).map some ++ [some 0]

/-- The first entries are set to these strings. -/
def filled (cnt : Nat) (items : List (List UInt8)) : CStrExplode where
  itemCnt := cnt
  itemList := (List.range items.length).map some ++ List.replicate (cnt - items.length) none
  strings := items.map blockOf

/-- There is room for a piece. -/
def Copyable (item : List UInt8) : Prop := item.length % wordSize + 1 < wordSize

section

variable {sep : UInt8} {pos item s : List UInt8} {items : List (List UInt8)} {cnt : Nat}

theorem length_copied (item : List UInt8) : (copied item).length = item.length % wordSize := by
  rw [copied, List.length_take_of_le (Nat.mod_le _ _)]

theorem copied_eq (h : item.length < wordSize) : copied item = item := by
  rw [copied, Nat.mod_eq_of_lt h, List.take_length]

theorem chars_blockOf (h : 0 ∉ item) : CStrExplode.chars (blockOf item) = some (copied item) := by
  have hcopied : 0 ∉ copied item := fun h0 => h (List.mem_of_mem_take h0)
  unfold blockOf
  generalize copied item = s at hcopied
  induction s with
  | nil => rfl
  | cons c s ih =>
      have hne : c ≠ 0 := fun h0 => hcopied (h0 ▸ List.mem_cons_self)
      have hs : 0 ∉ s := fun h0 => hcopied (List.mem_cons_of_mem c h0)
      rw [List.map_cons, List.cons_append, CStrExplode.chars, if_neg hne, ih hs]
      rfl

theorem length_itemList (cnt : Nat) (items : List (List UInt8)) :
    (filled cnt items).itemList.length = items.length + (cnt - items.length) := by
  simp only [filled, List.length_append, List.length_map, List.length_range, List.length_replicate]

theorem store_filled (h : items.length < cnt) (hitem : Copyable item) :
    (filled cnt items).store items.length item = some (filled cnt (items ++ [item])) := by
  have hlen := length_copied item
  have hroom : addU32 (item.length % wordSize) 1 = item.length % wordSize + 1 :=
    Nat.mod_eq_of_lt hitem
  have hlist : items.length < (filled cnt items).itemList.length := by
    rw [length_itemList]
    omega
  have hfront : copyTo (List.replicate (item.length % wordSize + 1) (none : Option UInt8)) 0
      ((copied item).map some) = some ((copied item).map some ++ ([none] ++ [])) := by
    rw [copyTo_front (by rw [List.length_map, List.length_replicate, hlen]; omega),
      List.length_map, List.drop_replicate, hlen, Nat.add_sub_cancel_left]
    rfl
  have hend : copyTo ((copied item).map some ++ ([none] ++ [])) (item.length % wordSize)
      [some 0] = some (blockOf item) :=
    copyTo_middle (by rw [List.length_map, hlen]) rfl
  have hset : (filled cnt items).itemList.set items.length (some items.length) =
      (filled cnt (items ++ [item])).itemList := by
    obtain ⟨k, hk⟩ := Nat.exists_eq_add_of_lt h
    have hrest : cnt - items.length = k + 1 := by omega
    have hrest' : cnt - (items.length + 1) = k := by omega
    unfold filled
    dsimp only
    rw [List.length_append, List.length_singleton, hrest, hrest', List.range_succ,
      List.map_append, List.set_append_right _ _ (by simp), List.length_map, List.length_range,
      Nat.sub_self, List.replicate_succ, List.set_cons_zero, List.append_assoc]
    rfl
  have hstrings : (filled cnt items).strings.length = items.length := List.length_map _
  rw [CStrExplode.store, if_pos hlist, hroom]
  show (copyTo _ 0 ((copied item).map some)).bind _ = _
  rw [hfront, Option.bind_some, hend, Option.bind_eq_bind, Option.bind_some, hstrings, hset]
  unfold filled
  rw [List.map_append]
  rfl

theorem store_none (h : ¬ (items.length < cnt ∧ Copyable item)) :
    (filled cnt items).store items.length item = none := by
  rw [CStrExplode.store, length_itemList]
  by_cases hlt : items.length < cnt
  · have hlen : item.length % wordSize + 1 = wordSize := by
      have hmod : item.length % wordSize < wordSize := Nat.mod_lt _ (by decide)
      have hlong : ¬ Copyable item := fun hitem => h ⟨hlt, hitem⟩
      unfold Copyable at hlong
      omega
    have hroom : addU32 (item.length % wordSize) 1 = 0 := by
      rw [addU32, hlen, Nat.mod_self]
    have hfront : copyTo (List.replicate 0 (none : Option UInt8)) 0 ((copied item).map some) =
        none := by
      refine if_neg ?_
      rw [List.length_map, length_copied, List.length_replicate]
      rw [wordSize_eq] at *
      omega
    rw [if_pos (by omega), hroom]
    show (copyTo _ 0 ((copied item).map some)).bind _ = _
    rw [hfront]
    rfl
  · exact if_neg (by omega)

/-! ## The loops -/

theorem countItems_eq (str : List UInt8) (sep : UInt8) :
    countItems str sep = (1 + str.count sep) % wordSize := by
  have hfold : ∀ n, str.foldl (fun cnt c => if c = sep then addU32 cnt 1 else cnt) (n % wordSize) =
      (n + str.count sep) % wordSize := by
    induction str with
    | nil => exact fun n => rfl
    | cons c str ih =>
        intro n
        rw [List.foldl_cons, List.count_cons]
        by_cases hc : c = sep
        · rw [if_pos hc, addU32_mod, ih, if_pos (by simpa using hc), Nat.add_assoc,
            Nat.add_comm 1]
        · rw [if_neg hc, ih, if_neg (by simpa using hc), Nat.add_zero]
  exact hfold 1

/-- The second loop goes through if there is room for all pieces and entries for them. -/
theorem split_eq_some_iff (sep : UInt8) (pos item : List UInt8) (items : List (List UInt8))
    (r : List UInt8 × Nat × CStrExplode) (hword : items.length < 2 ^ 31)
    (hcnt : items.length ≤ cnt) :
    CStrExplode.split sep pos item items.length (filled cnt items) = some r ↔
      ((∀ p ∈ (pieces sep pos item).1, Copyable p) ∧
        items.length + (pieces sep pos item).1.length ≤ cnt ∧
        items.length + (pieces sep pos item).1.length < 2 ^ 31) ∧
      ((pieces sep pos item).2, items.length + (pieces sep pos item).1.length,
        filled cnt (items ++ (pieces sep pos item).1)) = r := by
  induction pos generalizing item items with
  | nil =>
      rw [CStrExplode.split, pieces, List.append_nil, Option.some.injEq]
      refine (and_iff_right ⟨fun p hp => absurd hp List.not_mem_nil, ?_, ?_⟩).symm
      · exact hcnt
      · exact hword
  | cons c pos ih =>
      rw [CStrExplode.split, pieces]
      by_cases hends : item ≠ [] ∧ c = sep
      · rw [if_pos hends, if_pos hends]
        dsimp only
        rw [List.forall_mem_cons, List.length_cons]
        by_cases hstore : items.length < cnt ∧ Copyable item
        · rw [store_filled hstore.1 hstore.2, Option.bind_some]
          have hlen : (items ++ [item]).length = items.length + 1 := by
            rw [List.length_append, List.length_singleton]
          have hsum : items.length + ((pieces sep pos []).1.length + 1) =
              (items ++ [item]).length + (pieces sep pos []).1.length := by
            omega
          by_cases hnext : items.length + 1 < 2 ^ 31
          · rw [if_pos hnext, ← hlen, ih _ _ (by omega) (by omega), List.append_assoc,
              List.singleton_append, and_iff_right hstore.2, hsum]
          · rw [if_neg hnext]
            exact iff_of_false nofun fun h => by omega
        · rw [store_none hstore]
          refine iff_of_false nofun fun h => hstore ⟨?_, h.1.1.1⟩
          omega
      · rw [if_neg hends, if_neg hends]
        exact ih _ _ hword hcnt

/-- What the constructor makes of the pieces. -/
theorem new_eq_some_iff {e : CStrExplode} (str : List UInt8) (sep : UInt8) :
    CStrExplode.new str sep = some e ↔
      ((∀ p ∈ (pieces sep str []).1, Copyable p) ∧
        (pieces sep str []).1.length ≤ countItems str sep ∧
        (pieces sep str []).1.length < 2 ^ 31) ∧
      (if (pieces sep str []).2.length % wordSize ≠ 0 then
        (filled (countItems str sep) (pieces sep str []).1).store (pieces sep str []).1.length
          (pieces sep str []).2
      else some (filled (countItems str sep) (pieces sep str []).1)) = some e := by
  have hsplit := fun r => split_eq_some_iff sep str [] [] r (by decide)
    (Nat.zero_le (countItems str sep))
  simp only [List.nil_append, List.length_nil, Nat.zero_add] at hsplit
  rw [CStrExplode.new]
  show (CStrExplode.split sep str [] 0 (filled (countItems str sep) [])).bind _ = _ ↔ _
  constructor
  · intro hnew
    obtain ⟨r, hr, hlast⟩ := Option.bind_eq_some_iff.mp hnew
    obtain ⟨hok, rfl⟩ := (hsplit r).mp hr
    exact ⟨hok, hlast⟩
  · rintro ⟨hok, hlast⟩
    exact Option.bind_eq_some_iff.mpr ⟨_, (hsplit _).mpr ⟨hok, rfl⟩, hlast⟩

/-! ## The finished list -/

theorem entry_filled {i : Nat} (h : i < items.length) :
    (filled cnt items).itemList[i]? = some (some i) := by
  unfold filled
  dsimp only
  rw [List.getElem?_append_left (by simpa using h), List.getElem?_map, List.getElem?_range h]
  rfl

theorem getItem_filled {i : Nat} (h : items[i]? = some item) :
    (filled cnt items).getItem i = CStrExplode.chars (blockOf item) := by
  obtain ⟨hlt, -⟩ := List.getElem?_eq_some_iff.mp h
  have hstring : (filled cnt items).strings[i]? = some (blockOf item) := by
    unfold filled
    dsimp only
    rw [List.getElem?_map, h]
    rfl
  rw [CStrExplode.getItem, entry_filled hlt]
  show ((filled cnt items).strings[i]?).bind _ = _
  rw [hstring]
  rfl

theorem getItem_unset {i : Nat} (h : items.length ≤ i) : (filled cnt items).getItem i = none := by
  have hentry : ∀ entry, (filled cnt items).itemList[i]? = some entry → entry = none := by
    intro entry hentry
    unfold filled at hentry
    dsimp only at hentry
    rw [List.getElem?_append_right (by simpa using h)] at hentry
    exact List.eq_of_mem_replicate (List.mem_of_getElem? hentry)
  rw [CStrExplode.getItem]
  cases hget : (filled cnt items).itemList[i]? with
  | none => rfl
  | some entry =>
      rw [hentry entry hget]
      rfl

theorem destroy_filled (h : items.length = cnt) : (filled cnt items).destroy = some [] := by
  subst h
  have hloop : ∃ live, (List.range items.length).foldlM (filled items.length items).deleteItem
      (List.range items.length) = some live ∧
      live = (List.range items.length).drop (List.range items.length).length := by
    refine foldlM_inv (fun i live => live = (List.range items.length).drop i) _ ?_ rfl
    intro i j live hj hlive
    subst hlive
    obtain ⟨hlt, rfl⟩ := List.getElem?_eq_some_iff.mp hj
    rw [List.length_range] at hlt
    have hdrop : (List.range items.length).drop i =
        i :: (List.range items.length).drop (i + 1) := by
      rw [List.drop_eq_getElem_cons (by simpa using hlt), List.getElem_range]
    refine ⟨_, ?_, rfl⟩
    rw [CStrExplode.deleteItem, List.getElem_range, entry_filled hlt, hdrop]
    show (if i ∈ _ then _ else _) = _
    rw [if_pos List.mem_cons_self, List.erase_cons_head]
  obtain ⟨live, hfold, hlive⟩ := hloop
  rw [List.drop_length] at hlive
  have hstrings : (filled items.length items).strings.length = items.length := List.length_map _
  rw [CStrExplode.destroy, hstrings, ← hlive]
  exact hfold

/-- A list with some entries set is as it should be if all are and nothing was cut off. -/
theorem right_filled_iff (hcnt : items.length ≤ cnt) (hzero : ∀ p ∈ items, 0 ∉ p) :
    (∃ its, its.length = (filled cnt items).itemCnt ∧
      (∀ i, i < (filled cnt items).itemCnt → (filled cnt items).getItem i = its[i]?) ∧
      [sep].intercalate its = s ∧ (filled cnt items).destroy = some []) ↔
    items.length = cnt ∧ [sep].intercalate (items.map copied) = s := by
  have hget : ∀ i, i < items.length →
      (filled cnt items).getItem i = (items.map copied)[i]? := by
    intro i hi
    obtain ⟨item, hitem⟩ : ∃ item, items[i]? = some item :=
      ⟨items[i], List.getElem?_eq_getElem hi⟩
    rw [getItem_filled hitem, chars_blockOf (hzero item (List.mem_of_getElem? hitem)),
      List.getElem?_map, hitem]
    rfl
  constructor
  · rintro ⟨its, hlen, hits, hjoin, -⟩
    have hlen : its.length = cnt := hlen
    have hfull : items.length = cnt := by
      by_contra hne
      have hmissing := hits items.length (show items.length < cnt by omega)
      rw [getItem_unset (Nat.le_refl _), eq_comm, List.getElem?_eq_none_iff] at hmissing
      omega
    have heq : its = items.map copied := by
      refine List.ext_getElem? fun i => ?_
      rcases Nat.lt_or_ge i cnt with hi | hi
      · rw [← hits i hi, hget i (by omega)]
      · rw [List.getElem?_eq_none (by omega), List.getElem?_eq_none (by
          rw [List.length_map]
          omega)]
    exact ⟨hfull, heq ▸ hjoin⟩
  · rintro ⟨hfull, hjoin⟩
    refine ⟨items.map copied, (List.length_map _).trans hfull, fun i hi => ?_, hjoin,
      destroy_filled hfull⟩
    exact hget i (hfull ▸ hi)

/-! ## Pieces and items -/

theorem pieces_join (sep : UInt8) (pos item : List UInt8) :
    [sep].intercalate ((pieces sep pos item).1 ++ [(pieces sep pos item).2]) = item ++ pos := by
  induction pos generalizing item with
  | nil =>
      rw [pieces, List.nil_append, List.intercalate_singleton, List.append_nil]
  | cons c pos ih =>
      rw [pieces]
      split
      · rename_i hends
        dsimp only
        rw [List.cons_append, List.intercalate_cons_of_ne_nil (by simp), ih, hends.2]
        simp
      · rw [ih, List.append_assoc, List.singleton_append]

/-- A piece is not empty, and has one separator at most. -/
theorem pieces_spec (sep : UInt8) (pos item : List UInt8) (hitem : item.count sep ≤ 1) :
    (∀ p ∈ (pieces sep pos item).1, p ≠ [] ∧ p.count sep ≤ 1) ∧
      (pieces sep pos item).2.count sep ≤ 1 := by
  induction pos generalizing item with
  | nil => exact ⟨fun p hp => absurd hp List.not_mem_nil, hitem⟩
  | cons c pos ih =>
      rw [pieces]
      split
      · rename_i hends
        obtain ⟨hall, hlast⟩ := ih [] (by rw [List.count_nil]; omega)
        refine ⟨fun p hp => ?_, hlast⟩
        rcases List.mem_cons.mp hp with rfl | hp
        · exact ⟨hends.1, hitem⟩
        · exact hall p hp
      · rename_i hgoes
        refine ih (item ++ [c]) ?_
        rw [List.count_append, List.count_singleton]
        by_cases hc : c = sep
        · have hnil : item = [] := by
            by_contra hne
            exact hgoes ⟨hne, hc⟩
          rw [hnil, List.count_nil]
          split <;> omega
        · rw [if_neg (by simpa using hc)]
          omega

/-- What is joined, and what it is joined with. -/
theorem count_intercalate (ps : List (List UInt8)) (last : List UInt8) :
    ([sep].intercalate (ps ++ [last])).count sep =
      ((ps ++ [last]).map (List.count sep)).sum + ps.length := by
  induction ps with
  | nil => simp
  | cons p ps ih =>
      rw [List.cons_append, List.intercalate_cons_of_ne_nil (by simp), List.count_append,
        List.count_append, ih, List.map_cons, List.sum_cons, List.length_cons,
        List.count_singleton_self]
      omega

theorem pieces_append (h : sep ∉ s) (pos item : List UInt8) :
    pieces sep (s ++ pos) item = pieces sep pos (item ++ s) := by
  induction s generalizing item with
  | nil => rw [List.nil_append, List.append_nil]
  | cons c s ih =>
      have hc : c ≠ sep := fun hc => h (hc ▸ List.mem_cons_self)
      rw [List.cons_append, pieces, if_neg fun hends => hc hends.2,
        ih (fun hs => h (List.mem_cons_of_mem c hs)), List.append_assoc, List.singleton_append]

/-- Items that are not empty and have no separator are the pieces. -/
theorem pieces_intercalate (ps : List (List UInt8)) (last : List UInt8)
    (hps : ∀ p ∈ ps, p ≠ [] ∧ sep ∉ p) (hlast : sep ∉ last) :
    pieces sep ([sep].intercalate (ps ++ [last])) [] = (ps, last) := by
  induction ps with
  | nil =>
      have hpieces := pieces_append hlast [] []
      rw [List.append_nil, List.nil_append] at hpieces
      rw [List.nil_append, List.intercalate_singleton, hpieces, pieces]
  | cons p ps ih =>
      obtain ⟨hne, hp⟩ := hps p List.mem_cons_self
      rw [List.cons_append, List.intercalate_cons_of_ne_nil (by simp), List.append_assoc,
        pieces_append hp, List.nil_append, List.singleton_append, pieces, if_pos ⟨hne, rfl⟩,
        ih fun q hq => hps q (List.mem_cons_of_mem p hq)]

theorem notMem_splitOn (sep : UInt8) (s : List UInt8) : ∀ p ∈ s.splitOn sep, sep ∉ p := by
  induction s with
  | nil =>
      intro p hp
      rw [List.splitOn_nil, List.mem_singleton] at hp
      rw [hp]
      exact List.not_mem_nil
  | cons c s ih =>
      rw [List.splitOn_cons_eq_if_modifyHead]
      split
      · intro p hp
        rcases List.mem_cons.mp hp with rfl | hp
        · exact List.not_mem_nil
        · exact ih p hp
      · rename_i hc
        have hne : sep ≠ c := fun heq => hc (by simp [heq])
        cases hsplit : s.splitOn sep with
        | nil => exact absurd hsplit (List.splitOn_ne_nil sep s)
        | cons q qs =>
            rw [hsplit] at ih
            intro p hp
            rcases List.mem_cons.mp hp with rfl | hp
            · intro hmem
              rcases List.mem_cons.mp hmem with heq | hmem
              · exact hne heq
              · exact ih q List.mem_cons_self hmem
            · exact ih p (List.mem_cons_of_mem q hp)

theorem mem_intercalate {c : UInt8} (hp : item ∈ items) (hc : c ∈ item) :
    c ∈ [sep].intercalate items := by
  induction items with
  | nil => exact absurd hp List.not_mem_nil
  | cons p items ih =>
      by_cases hnil : items = []
      · subst hnil
        rw [List.intercalate_singleton]
        exact List.mem_singleton.mp hp ▸ hc
      · rw [List.intercalate_cons_of_ne_nil hnil]
        rcases List.mem_cons.mp hp with rfl | hp
        · exact List.mem_append_left _ (List.mem_append_left _ hc)
        · exact List.mem_append_right _ (ih hp)

theorem sum_count_le (h : ∀ p ∈ items, p.count sep ≤ 1) :
    (items.map (List.count sep)).sum ≤ items.length := by
  induction items with
  | nil => exact Nat.le_refl 0
  | cons p items ih =>
      have hp := h p List.mem_cons_self
      have hrest := ih fun q hq => h q (List.mem_cons_of_mem p hq)
      rw [List.map_cons, List.sum_cons, List.length_cons]
      omega

/-- A list that is as it should be has the items of the string in it. -/
theorem splittable_of_right {str : CStr} (h : ExplodesRight str sep) : Splittable str sep := by
  obtain ⟨e, its, hnew, hits⟩ := h
  obtain ⟨⟨hcopy, hcnt, hword⟩, hlast⟩ := (new_eq_some_iff str.bytes sep).mp hnew
  have hjoin := pieces_join sep str.bytes []
  obtain ⟨hps, hl⟩ := pieces_spec sep str.bytes [] (by rw [List.count_nil]; omega)
  generalize (pieces sep str.bytes []).1 = ps at *
  generalize (pieces sep str.bytes []).2 = last at *
  rw [List.nil_append] at hjoin
  have hzero : ∀ p ∈ ps ++ [last], 0 ∉ p := by
    intro p hp h0
    exact str.noZero (hjoin ▸ mem_intercalate hp h0)
  have hcount := countItems_eq str.bytes sep
  rw [← hjoin, count_intercalate] at hcount
  have hall : ∀ p ∈ ps ++ [last], p.count sep ≤ 1 := by
    intro p hp
    rcases List.mem_append.mp hp with hp | hp
    · exact (hps p hp).2
    · exact List.mem_singleton.mp hp ▸ hl
  have hsum := sum_count_le hall
  rw [hjoin] at hcount
  rw [List.length_append, List.length_singleton] at hsum
  by_cases hempty : last.length % wordSize = 0
  · -- nothing is stored at the end, and an entry is left over
    rw [if_neg (fun hne => hne hempty)] at hlast
    obtain rfl := Option.some.inj hlast
    obtain ⟨hfull, -⟩ := (right_filled_iff hcnt fun p hp =>
      hzero p (List.mem_append_left _ hp)).mp ⟨its, hits⟩
    rw [wordSize_eq] at hcount
    omega
  · rw [if_pos hempty] at hlast
    by_cases hstore : ps.length < countItems str.bytes sep ∧ Copyable last
    · rw [store_filled hstore.1 hstore.2] at hlast
      obtain rfl := Option.some.inj hlast
      have hlen : (ps ++ [last]).length = ps.length + 1 := by
        rw [List.length_append, List.length_singleton]
      obtain ⟨hfull, hcopied⟩ :=
        (right_filled_iff (hlen ▸ hstore.1) hzero).mp ⟨its, hits⟩
      -- as many separators as pieces end at one
      have hnone : ((ps ++ [last]).map (List.count sep)).sum = 0 := by
        rw [wordSize_eq] at hcount
        omega
      have hsep : ∀ p ∈ ps ++ [last], sep ∉ p := by
        intro p hp
        exact List.count_eq_zero.mp
          (List.sum_eq_zero_iff_forall_eq_nat.mp hnone _ (List.mem_map_of_mem hp))
      have hne : ps ++ [last] ≠ [] := by simp
      have hsplit : str.bytes.splitOn sep = ps ++ [last] := by
        rw [← hjoin, List.splitOn_intercalate sep hsep hne]
      have hsplit' : str.bytes.splitOn sep = (ps ++ [last]).map copied := by
        rw [← hcopied, List.splitOn_intercalate sep ?_ (by simp)]
        intro p hp
        obtain ⟨q, hq, rfl⟩ := List.mem_map.mp hp
        exact fun hmem => hsep q hq (List.mem_of_mem_take hmem)
      have hwhole : ∀ p ∈ ps ++ [last], p.length + 1 < wordSize := by
        intro p hp
        have hfits : Copyable p := by
          rcases List.mem_append.mp hp with hp | hp
          · exact hcopy p hp
          · exact List.mem_singleton.mp hp ▸ hstore.2
        have heq : copied p = p := by
          have hmap := hsplit'.symm.trans hsplit
          rw [← List.map_id (ps ++ [last]), List.map_map] at hmap
          exact List.map_inj_left.mp hmap p hp
        have hmod := length_copied p
        rw [heq] at hmod
        unfold Copyable at hfits
        omega
      refine ⟨fun p hp => ?_, ?_⟩
      · rw [hsplit] at hp
        refine ⟨?_, hwhole p hp⟩
        rcases List.mem_append.mp hp with hp | hp
        · exact (hps p hp).1
        · rw [List.mem_singleton.mp hp]
          rintro rfl
          exact hempty rfl
      · rw [hsplit, hlen]
        omega
    · rw [store_none hstore] at hlast
      exact absurd hlast nofun

theorem right_of_splittable {str : CStr} (h : Splittable str sep) : ExplodesRight str sep := by
  obtain ⟨hitems, hmany⟩ := h
  have hjoin : [sep].intercalate (str.bytes.splitOn sep) = str.bytes := List.intercalate_splitOn sep
  have hsep := notMem_splitOn sep str.bytes
  obtain ⟨ps, last, hsplit⟩ : ∃ ps last, str.bytes.splitOn sep = ps ++ [last] := by
    rcases List.eq_nil_or_concat (str.bytes.splitOn sep) with hnil | ⟨ps, last, hsplit⟩
    · exact absurd hnil (List.splitOn_ne_nil sep str.bytes)
    · exact ⟨ps, last, by rw [hsplit, List.concat_eq_append]⟩
  rw [hsplit] at hitems hmany hjoin hsep
  rw [List.length_append, List.length_singleton] at hmany
  have hpieces : pieces sep str.bytes [] = (ps, last) := by
    rw [← hjoin]
    exact pieces_intercalate ps last
      (fun p hp => ⟨(hitems p (List.mem_append_left _ hp)).1, hsep p (List.mem_append_left _ hp)⟩)
      (hsep last (List.mem_append_right _ List.mem_cons_self))
  have hcount : countItems str.bytes sep = ps.length + 1 := by
    have hnone : ((ps ++ [last]).map (List.count sep)).sum = 0 := by
      refine List.sum_eq_zero_iff_forall_eq_nat.mpr fun n hn => ?_
      obtain ⟨p, hp, rfl⟩ := List.mem_map.mp hn
      exact List.count_eq_zero.mpr (hsep p hp)
    rw [countItems_eq, ← hjoin, count_intercalate, hnone, wordSize_eq]
    omega
  have hcopyable : ∀ p ∈ ps ++ [last], Copyable p ∧ copied p = p := by
    intro p hp
    have hlt := (hitems p hp).2
    refine ⟨?_, copied_eq (Nat.lt_of_succ_lt hlt)⟩
    rw [Copyable, Nat.mod_eq_of_lt (Nat.lt_of_succ_lt hlt)]
    exact hlt
  have hlast : last ∈ ps ++ [last] := List.mem_append_right _ List.mem_cons_self
  have hnew : CStrExplode.new str.bytes sep = some (filled (ps.length + 1) (ps ++ [last])) := by
    rw [new_eq_some_iff, hpieces, hcount]
    refine ⟨⟨fun p hp => ?_, Nat.le_succ _, hmany⟩, ?_⟩
    · exact (hcopyable p (List.mem_append_left _ hp)).1
    have hne : last.length % wordSize ≠ 0 := by
      rw [Nat.mod_eq_of_lt (Nat.lt_of_succ_lt (hitems last hlast).2)]
      exact fun hnil => (hitems last hlast).1 (List.length_eq_zero_iff.mp hnil)
    rw [if_pos hne]
    exact store_filled (Nat.lt_succ_self _) (hcopyable last hlast).1
  have hzero : ∀ p ∈ ps ++ [last], 0 ∉ p := by
    intro p hp h0
    exact str.noZero (hjoin ▸ mem_intercalate hp h0)
  have hlen : (ps ++ [last]).length = ps.length + 1 := by
    rw [List.length_append, List.length_singleton]
  have hmap : (ps ++ [last]).map copied = ps ++ [last] := by
    conv_rhs => rw [← List.map_id (ps ++ [last])]
    exact List.map_inj_left.mpr fun p hp => (hcopyable p hp).2
  rw [← hmap] at hjoin
  obtain ⟨its, hits⟩ := (right_filled_iff (Nat.le_of_eq hlen) hzero).mpr ⟨hlen, hjoin⟩
  exact ⟨_, its, hnew, hits⟩

/--
The constructor makes a list of all items, and the destructor frees it, if and only if the string
is splittable.
-/
theorem explode_right_iff (str : CStr) (sep : UInt8) :
    ExplodesRight str sep ↔ Splittable str sep :=
  ⟨splittable_of_right, right_of_splittable⟩

/-- `"a,,b"` -/
def emptyItem : CStr where
  bytes := [97, 44, 44, 98]
  noZero := by decide

/-- It becomes `"a"` and `",b"`, and the third entry is not set. -/
theorem explode_not_right : ¬ ∀ str sep, ExplodesRight str sep := by
  intro h
  have hempty : [] ∈ emptyItem.bytes.splitOn 44 := by decide
  exact ((splittable_of_right (h emptyItem 44)).1 [] hempty).1 rfl

end

end CppTrack.Util
