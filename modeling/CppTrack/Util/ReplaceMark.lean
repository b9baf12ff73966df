import Mathlib.Data.List.Basic
import Mathlib.Data.UInt
import CppTrack.Lib.Word

/-!
# Values for the marks of a template (`replace_mark`)

A call puts one value in the place of the first `'?'` from `begin_pos` on, and moves `begin_pos`
behind it, so that a `'?'` in the value is left alone. Strings are put between quotes, and integers
are written in decimal. The caller keeps the string and `begin_pos`, which is a `uint32_t`, from one
call to the next.
-/

namespace CppTrack.Util

open Lib

/-- `'?'`. -/
def mark : UInt8 := 63

/-- `'\''`. -/
def quote : UInt8 := 39

/-- `str.find(c, pos)`. -/
def find (str : List UInt8) (c : UInt8) (pos : Nat) : Option Nat :=
  if pos ≤ str.length then ((str.drop pos).idxOf? c).map (pos + ·) else none

/-- `str.replace(pos, 1, value)`. -/
def replace (str : List UInt8) (pos : Nat) (value : List UInt8) : List UInt8 :=
  str.take pos ++ value ++ str.drop (pos + 1)

/-- An integer as a `stringstream` writes it. -/
def decimal (n : UInt32) : List UInt8 :=
  (Nat.toDigits 10 n.toNat).map fun c => UInt8.ofNat c.toNat

/-- What both overloads do with the text of their value. -/
def replaceFound (str value : List UInt8) (beginPos : Nat) : List UInt8 × Nat :=
  match find str mark beginPos with
  | none => (str, beginPos)
  | some pos => (replace str pos value, (pos + value.length) % wordSize)

/-- `replace_mark` for a string. -/
def replaceMarkString (str newValue : List UInt8) (beginPos : Nat) : List UInt8 × Nat :=
  replaceFound str (quote :: newValue ++ [quote]) beginPos

/-- `replace_mark` for an integer. -/
def replaceMarkInteger (str : List UInt8) (newValue : UInt32) (beginPos : Nat) :
    List UInt8 × Nat :=
  replaceFound str (decimal newValue) beginPos

/-- An argument of `replace_mark`. -/
inductive Value
  | string (s : List UInt8)
  | integer (n : UInt32)

/-- One call after another. -/
def replaceMark (s : List UInt8 × Nat) : Value → List UInt8 × Nat
  | .string newValue => replaceMarkString s.1 newValue s.2
  | .integer newValue => replaceMarkInteger s.1 newValue s.2

/-! ## What the calls should come to -/

/-- The text of a value. -/
def Value.text : Value → List UInt8
  | .string s => quote :: s ++ [quote]
  | .integer n => decimal n

/-- The template with the texts in the places of its marks, as far as there are any. -/
def substitute : (template : List UInt8) → (texts : List (List UInt8)) → List UInt8
  | [], _ => []
  | template, [] => template
  | c :: template, text :: texts =>
      if c = mark then text ++ substitute template texts
      else c :: substitute template (text :: texts)

section

variable {str pre post value : List UInt8} {texts : List (List UInt8)}

theorem substitute_none (template : List UInt8) : substitute template [] = template := by
  cases template <;> rfl

theorem substitute_unmarked (h : mark ∉ str) : substitute str texts = str := by
  induction str with
  | nil => rfl
  | cons c str ih =>
      have hc : c ≠ mark := fun hc => h (hc ▸ List.mem_cons_self)
      cases texts with
      | nil => rfl
      | cons text texts =>
          rw [substitute, if_neg hc, ih fun hstr => h (List.mem_cons_of_mem c hstr)]

/-- The first mark gets the first text. -/
theorem substitute_mark (h : mark ∉ pre) : substitute (pre ++ mark :: post) (value :: texts) =
    pre ++ (value ++ substitute post texts) := by
  induction pre with
  | nil => exact if_pos rfl
  | cons c pre ih =>
      have hc : c ≠ mark := fun hc => h (hc ▸ List.mem_cons_self)
      rw [List.cons_append, substitute, if_neg hc, ih fun hpre => h (List.mem_cons_of_mem c hpre)]
      rfl

/-! ## A call -/

theorem replaceMark_eq (s : List UInt8 × Nat) (v : Value) :
    replaceMark s v = replaceFound s.1 v.text s.2 := by
  cases v <;> rfl

theorem find_none {done rest : List UInt8} (h : mark ∉ rest) :
    find (done ++ rest) mark done.length = none := by
  rw [find, if_pos (by simp), List.drop_left, List.idxOf?_eq_none_iff.mpr h]
  rfl

theorem idxOf_mark (h : mark ∉ pre) : (pre ++ mark :: post).idxOf? mark = some pre.length := by
  induction pre with
  | nil => rfl
  | cons c pre ih =>
      have hc : (c == mark) = false := by
        refine beq_false_of_ne fun hc => h ?_
        exact hc ▸ List.mem_cons_self
      rw [List.cons_append, List.idxOf?_cons, hc, ih fun hpre => h (List.mem_cons_of_mem c hpre)]
      rfl

theorem find_mark {done : List UInt8} (h : mark ∉ pre) :
    find (done ++ (pre ++ mark :: post)) mark done.length = some (done.length + pre.length) := by
  rw [find, if_pos (by simp), List.drop_left, idxOf_mark h]
  rfl

/-- No mark is left. -/
theorem replaceMark_unmarked {done rest : List UInt8} (h : mark ∉ rest) (v : Value) :
    replaceMark (done ++ rest, done.length) v = (done ++ rest, done.length) := by
  rw [replaceMark_eq, replaceFound, find_none h]

/-- The value comes in the place of the next mark, and `begin_pos` behind it. -/
theorem replaceMark_mark {done : List UInt8} (h : mark ∉ pre) (v : Value)
    (hfit : (done ++ pre ++ v.text).length < wordSize) :
    replaceMark (done ++ (pre ++ mark :: post), done.length) v =
      (done ++ pre ++ v.text ++ post, (done ++ pre ++ v.text).length) := by
  have hpos : done.length + pre.length = (done ++ pre).length := List.length_append.symm
  have hreplace : replace (done ++ (pre ++ mark :: post)) (done.length + pre.length) v.text =
      done ++ pre ++ v.text ++ post := by
    rw [replace, hpos, ← List.append_assoc, List.take_left, ← List.drop_drop, List.drop_left]
    rfl
  have hlen : done.length + pre.length + v.text.length = (done ++ pre ++ v.text).length := by
    rw [hpos, ← List.length_append]
  rw [replaceMark_eq, replaceFound, find_mark h]
  dsimp only
  rw [hreplace, hlen, Nat.mod_eq_of_lt hfit]

/-! ## A sequence of calls -/

/-- What is in front of `begin_pos` is done, and what is behind it is left of the template. -/
theorem replaceMarks_eq (values : List Value) (done rest : List UInt8)
    (hfit : (done ++ substitute rest (values.map Value.text)).length < wordSize) :
    (values.foldl replaceMark (done ++ rest, done.length)).1 =
      done ++ substitute rest (values.map Value.text) := by
  induction values generalizing done rest with
  | nil => rw [List.foldl_nil, List.map_nil, substitute_none]
  | cons v values ih =>
      rw [List.map_cons] at hfit ⊢
      rw [List.foldl_cons]
      by_cases hmark : mark ∈ rest
      · obtain ⟨pre, post, rfl, hpre⟩ := List.eq_append_cons_of_mem hmark
        rw [substitute_mark hpre] at hfit ⊢
        simp only [← List.append_assoc] at hfit ⊢
        have hdone : (done ++ pre ++ v.text).length < wordSize := by
          rw [List.length_append] at hfit
          omega
        rw [List.append_assoc done pre (mark :: post), replaceMark_mark hpre v hdone]
        exact ih (done ++ pre ++ v.text) post hfit
      · rw [substitute_unmarked hmark] at hfit ⊢
        have hrest : substitute rest (values.map Value.text) = rest := substitute_unmarked hmark
        have hcalls := ih done rest (by rwa [hrest])
        rw [replaceMark_unmarked hmark, hcalls, hrest]

/--
**The marks get the values, one after another.** Values that are left over are ignored, marks that
are left over stay, and a `'?'` in a value is none of them.
-/
theorem replaceMarks_substitute (template : List UInt8) (values : List Value)
    (hfit : (substitute template (values.map Value.text)).length < 2 ^ 32) :
    (values.foldl replaceMark (template, 0)).1 = substitute template (values.map Value.text) :=
  replaceMarks_eq values [] template hfit

/-- `"a=? and b=?"` with the string `"x?"` and the number 70. -/
theorem replaceMarks_substitute_two :
    ([Value.string [120, 63], .integer 70].foldl replaceMark ([97, 61, 63, 98, 61, 63], 0)).1 =
      [97, 61, 39, 120, 63, 39, 98, 61, 55, 48] :=
  replaceMarks_substitute [97, 61, 63, 98, 61, 63] [.string [120, 63], .integer 70] (by decide)

end

end CppTrack.Util
