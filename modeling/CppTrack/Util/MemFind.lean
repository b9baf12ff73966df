import CppTrack.Lib.CString
import CppTrack.Lib.Occurrence
import CppTrack.Lib.Word

/-!
# Searching a block (`util.cc`)

`memfind` compares the pattern with the block from either end. The lengths are `size_t`, and so is
their difference; the places are `int`. The result is the place a pointer points to, `none` being
`NULL`; outside of that, `none` is an access outside the two blocks, or an `int` that gets too
large.
-/

namespace CppTrack.Util

open Lib

/-- A `size_t` as an `int`. -/
def toInt (n : Nat) : Int := Int.bmod n wordSize

/-- `0 == memcmp(src + off, sub, n)`. -/
def memcmp (src : List UInt8) (off : Nat) (sub : List UInt8) (n : Nat) : Option Bool := do
  let bytes ← copyOut src off n
  let bytes' ← copyOut sub 0 n
  some (bytes = bytes')

/-- The loop for the first place. -/
def forward (src sub : List UInt8) (diff subLen : Nat) : (fuel i : Nat) → Option (Option Nat)
  | 0, _ => none
  | fuel + 1, i =>
      if i < diff then do
        if ← memcmp src i sub subLen then some (some i)
        else if i + 1 < 2 ^ 31 then forward src sub diff subLen fuel (i + 1)
        else none
      else some none

/-- The loop for the last place, which begins at one less. -/
def backward (src sub : List UInt8) (subLen : Nat) : Nat → Option (Option Nat)
  | 0 => some none
  | i + 1 => do
      if ← memcmp src i sub subLen then some (some i) else backward src sub subLen i

/-- `sub_len`, which may also be left to the zero behind the pattern. -/
def patternLen (sub : List UInt8) (subLen : Nat) : Option Nat :=
  if subLen = 0 then strlen sub else some subLen

/-- `memfind`. -/
def memfind (srcStr : Option (List UInt8)) (srcLen : Nat) (subStr : Option (List UInt8))
    (subLen : Nat) (flag : Bool) : Option (Option Nat) :=
  match srcStr, subStr with
  | some src, some sub =>
      if srcLen ≤ 0 then some none
      else if srcLen < subLen then some none
      else do
        let subLen ← patternLen sub subLen
        if srcLen = subLen then
          if ← memcmp src 0 sub srcLen then some (some 0) else some none
        else if flag then forward src sub (subU64 srcLen subLen) subLen (srcLen + 1) 0
        else backward src sub subLen (toInt (subU64 srcLen subLen) + 1).toNat
  | _, _ => some none

/-! ## What it should do -/

/-- A search in a block that is not empty, for a pattern that is not empty either and is given by
its length or by the zero behind it. More may follow. -/
structure Search where
  src : List UInt8
  pattern : List UInt8
  rest : List UInt8
  asString : Bool
  flag : Bool
  src_ne : src ≠ []
  pattern_ne : pattern ≠ []
  src_size : src.length < 2 ^ 64
  pattern_size : pattern.length < 2 ^ 64
  noZero : asString = true → 0 ∉ pattern

namespace Search

/-- What `sub_str` points to. -/
def sub (c : Search) : List UInt8 :=
  c.pattern ++ if c.asString then 0 :: c.rest else c.rest

def subLen (c : Search) : Nat := if c.asString then 0 else c.pattern.length

def result (c : Search) : Option (Option Nat) :=
  memfind (some c.src) c.src.length (some c.sub) c.subLen c.flag

def Right (c : Search) : Prop :=
  ∃ r, c.result = some r ∧
    if c.flag then FindsFirst c.pattern c.src r else FindsLast c.pattern c.src r

/--
A string is not longer than the block, unless the difference comes out negative and the search is
from the end. A pattern that is shorter than the block stands somewhere before its end if it stands
anywhere, or is searched from the end; and no place that matters is too large for an `int`.
-/
def Findable (c : Search) : Prop :=
  if c.src.length < c.pattern.length then
    c.asString = true → c.flag = false ∧ toInt (subU64 c.src.length c.pattern.length) < 0
  else
    c.pattern.length < c.src.length →
      if c.flag then
        (∃ i, i < c.src.length - c.pattern.length ∧ i < 2 ^ 31 ∧ OccursAt c.pattern c.src i) ∨
          Nowhere c.pattern c.src ∧ c.src.length - c.pattern.length < 2 ^ 31
      else ∀ i, OccursAt c.pattern c.src i → i ≤ toInt (c.src.length - c.pattern.length)

end Search

section

variable {src sub p : List UInt8} {diff fuel i n : Nat} {c : Search}

/-! ## Comparing -/

theorem memcmp_inside (hsub : p <+: sub) (hle : i + p.length ≤ src.length) :
    memcmp src i sub p.length = some (decide (OccursAt p src i)) := by
  have hp : copyOut sub 0 p.length = some p := by
    rw [copyOut_of_start hsub (by omega), List.drop_zero, List.take_length]
  have hsrc : copyOut src i p.length = some ((src.drop i).take p.length) := if_pos hle
  have hiff : OccursAt p src i ↔ (src.drop i).take p.length = p := by
    unfold OccursAt
    rw [hsrc, Option.some.injEq]
  rw [memcmp, hsrc, hp]
  exact congrArg some (decide_eq_decide.mpr hiff.symm)

theorem memcmp_outside (hlt : src.length < i + n) : memcmp src i sub n = none := by
  rw [memcmp, copyOut, if_neg (by omega)]
  rfl

/-! ## The loops -/

/-- The loop from the front finds the first place that it comes to. -/
theorem forward_cases (hsub : p <+: sub) (hdiff : diff + p.length ≤ src.length)
    (hi : i < 2 ^ 31) (hfuel : diff - i < fuel) :
    (∃ j, forward src sub diff p.length fuel i = some (some j) ∧ OccursAt p src j ∧
      j < diff ∧ j < 2 ^ 31 ∧ ∀ k, i ≤ k → k < j → ¬ OccursAt p src k) ∨
    (forward src sub diff p.length fuel i = if diff < 2 ^ 31 then some none else none) ∧
      ∀ k, i ≤ k → k < diff → k < 2 ^ 31 → ¬ OccursAt p src k := by
  induction fuel generalizing i with
  | zero => exact absurd hfuel (Nat.not_lt_zero _)
  | succ fuel ih =>
      rw [forward]
      by_cases hlt : i < diff
      · rw [if_pos hlt, memcmp_inside hsub (by omega)]
        by_cases hocc : OccursAt p src i
        · refine .inl ⟨i, ?_, hocc, hlt, hi, fun k hik hki => by omega⟩
          rw [decide_eq_true hocc]
          rfl
        · rw [decide_eq_false hocc]
          have hskip : ∀ k, i ≤ k → (i + 1 ≤ k → ¬ OccursAt p src k) → ¬ OccursAt p src k := by
            intro k hik hlater
            rcases Nat.eq_or_lt_of_le hik with rfl | hik
            · exact hocc
            · exact hlater hik
          show (_ ∨ (if i + 1 < 2 ^ 31 then _ else none) = _ ∧ _)
          by_cases hnext : i + 1 < 2 ^ 31
          · rcases ih hnext (by omega) with ⟨j, hj, hoccj, hjd, hjw, hfirst⟩ | ⟨hend, hnone⟩
            · refine .inl ⟨j, ?_, hoccj, hjd, hjw, fun k hik hkj => ?_⟩
              · show (if i + 1 < 2 ^ 31 then _ else none) = _
                rw [if_pos hnext, hj]
              · exact hskip k hik fun hik => hfirst k hik hkj
            · refine .inr ⟨?_, fun k hik hkd hkw => ?_⟩
              · rw [if_pos hnext, hend]
              · exact hskip k hik fun hik => hnone k hik hkd hkw
          · -- the next place would not be an `int`
            refine .inr ⟨?_, fun k hik hkd hkw => ?_⟩
            · rw [if_neg hnext, if_neg (by omega)]
            · exact hskip k hik fun hik => by omega
      · rw [if_neg hlt, if_pos (by omega)]
        exact .inr ⟨rfl, fun k hik hkd => by omega⟩

/-- The loop from the end finds the last place before the one that it begins behind. -/
theorem backward_cases (hsub : p <+: sub) (hle : n + p.length ≤ src.length + 1) :
    (∃ j, backward src sub p.length n = some (some j) ∧ OccursAt p src j ∧ j < n ∧
      ∀ k, j < k → k < n → ¬ OccursAt p src k) ∨
    backward src sub p.length n = some none ∧ ∀ k, k < n → ¬ OccursAt p src k := by
  induction n with
  | zero => exact .inr ⟨rfl, fun k hk => absurd hk (Nat.not_lt_zero k)⟩
  | succ i ih =>
      rw [backward, memcmp_inside hsub (by omega)]
      by_cases hocc : OccursAt p src i
      · refine .inl ⟨i, ?_, hocc, Nat.lt_succ_self i, fun k hik hki => by omega⟩
        rw [decide_eq_true hocc]
        rfl
      · rw [decide_eq_false hocc]
        have hskip : ∀ k, k < i + 1 → (k < i → ¬ OccursAt p src k) → ¬ OccursAt p src k := by
          intro k hk hearlier
          rcases Nat.eq_or_lt_of_le (Nat.le_of_lt_succ hk) with rfl | hk
          · exact hocc
          · exact hearlier hk
        rcases ih (by omega) with ⟨j, hj, hoccj, hji, hlast⟩ | ⟨hend, hnone⟩
        · exact .inl ⟨j, hj, hoccj, Nat.lt_succ_of_lt hji,
            fun k hjk hk => hskip k hk fun hk => hlast k hjk hk⟩
        · exact .inr ⟨hend, fun k hk => hskip k hk fun hk => hnone k hk⟩

/-! ## Searches -/

theorem toInt_le (n : Nat) : toInt n ≤ n := by
  rw [toInt, Int.bmod_def, wordSize_eq]
  split <;> omega

theorem Search.pattern_prefix (c : Search) : c.pattern <+: c.sub := List.prefix_append _ _

theorem Search.src_pos (c : Search) : 0 < c.src.length := List.length_pos_of_ne_nil c.src_ne

theorem Search.pattern_pos (c : Search) : 0 < c.pattern.length :=
  List.length_pos_of_ne_nil c.pattern_ne

/-- A pattern that is given by its length, and does not fit. -/
theorem Search.result_longer (c : Search) (hlt : c.src.length < c.pattern.length)
    (hstring : c.asString = false) : c.result = some none := by
  have hsub : c.subLen = c.pattern.length := by
    unfold Search.subLen
    rw [hstring]
    rfl
  rw [Search.result, memfind, if_neg (Nat.not_le.mpr c.src_pos), hsub, if_pos hlt]

/-- How the search goes on otherwise. -/
theorem Search.result_eq (c : Search)
    (hfits : c.src.length < c.pattern.length → c.asString = true) :
    c.result =
      if c.src.length = c.pattern.length then
        (memcmp c.src 0 c.sub c.src.length).bind fun equal =>
          if equal then some (some 0) else some none
      else if c.flag then
        forward c.src c.sub (subU64 c.src.length c.pattern.length) c.pattern.length
          (c.src.length + 1) 0
      else
        backward c.src c.sub c.pattern.length
          (toInt (subU64 c.src.length c.pattern.length) + 1).toNat := by
  have hlen : patternLen c.sub c.subLen = some c.pattern.length := by
    unfold patternLen Search.subLen Search.sub
    cases hstring : c.asString with
    | true =>
        rw [if_pos rfl, if_pos rfl, if_pos rfl]
        exact strlen_zero c.rest (c.noZero hstring)
    | false => exact if_neg (Nat.ne_of_gt c.pattern_pos)
  have hle : ¬ c.src.length < c.subLen := by
    intro hlt
    unfold Search.subLen at hlt
    cases hstring : c.asString with
    | true =>
        rw [hstring] at hlt
        exact absurd hlt (Nat.not_lt_zero _)
    | false =>
        rw [hstring] at hlt
        rw [hfits hlt] at hstring
        exact absurd hstring nofun
  rw [Search.result, memfind, if_neg (Nat.not_le.mpr c.src_pos), if_neg hle, hlen]
  rfl

/-- A string that is longer than the block. -/
theorem Search.right_longer (c : Search) (hlt : c.src.length < c.pattern.length)
    (hstring : c.asString = true) :
    c.Right ↔ c.flag = false ∧ toInt (subU64 c.src.length c.pattern.length) < 0 := by
  have hnowhere : Nowhere c.pattern c.src := nowhere_of_longer hlt
  have hresult := c.result_eq fun _ => hstring
  rw [if_neg (Nat.ne_of_lt hlt)] at hresult
  unfold Search.Right
  rw [hresult]
  cases hflag : c.flag with
  | true =>
      -- the first comparison reads behind the block
      have hdiff : 0 < subU64 c.src.length c.pattern.length := by
        have hpos := c.src_pos
        have hsize := c.pattern_size
        unfold subU64
        rw [Nat.mod_eq_of_lt (by omega)]
        omega
      refine iff_of_false ?_ (fun h => absurd h.1 nofun)
      rw [if_pos rfl, forward, if_pos hdiff, memcmp_outside (by omega)]
      rintro ⟨r, hr, -⟩
      exact absurd hr nofun
  | false =>
      rw [if_neg Bool.false_ne_true]
      simp only [Bool.false_eq_true, if_false, true_and]
      by_cases hneg : toInt (subU64 c.src.length c.pattern.length) < 0
      · refine iff_of_true ⟨none, ?_, hnowhere⟩ hneg
        rw [Int.toNat_of_nonpos (by omega)]
        rfl
      · refine iff_of_false ?_ hneg
        obtain ⟨n, hn⟩ := Nat.exists_eq_succ_of_ne_zero
          (show (toInt (subU64 c.src.length c.pattern.length) + 1).toNat ≠ 0 by omega)
        rw [hn, backward, memcmp_outside (by omega)]
        rintro ⟨r, hr, -⟩
        exact absurd hr nofun

/-- A pattern that is as long as the block. -/
theorem Search.right_whole (c : Search) (heq : c.src.length = c.pattern.length) : c.Right := by
  have hresult := c.result_eq fun hlt => absurd hlt (Nat.not_lt_of_le (Nat.le_of_eq heq.symm))
  rw [if_pos heq, heq, memcmp_inside c.pattern_prefix (by omega), Option.bind_some] at hresult
  by_cases hocc : OccursAt c.pattern c.src 0
  · rw [decide_eq_true hocc] at hresult
    refine ⟨some 0, hresult, ?_⟩
    split
    · exact ⟨hocc, fun j hj => absurd hj (Nat.not_lt_zero j)⟩
    · refine ⟨hocc, fun j hj hoccj => ?_⟩
      have hle := hoccj.le
      omega
  · rw [decide_eq_false hocc] at hresult
    have hnowhere : Nowhere c.pattern c.src := by
      intro i hi
      obtain ⟨rfl, -⟩ := (occursAt_whole heq).mp hi
      exact hocc hi
    refine ⟨none, hresult, ?_⟩
    split <;> exact hnowhere

theorem subU64_of_le {a b : Nat} (hle : b ≤ a) (ha : a < 2 ^ 64) : subU64 a b = a - b := by
  unfold subU64
  omega

/-- The search from the front, for a pattern that is shorter. -/
theorem Search.right_forward (c : Search) (hlt : c.pattern.length < c.src.length)
    (hflag : c.flag = true) : c.Right ↔
      (∃ i, i < c.src.length - c.pattern.length ∧ i < 2 ^ 31 ∧ OccursAt c.pattern c.src i) ∨
        Nowhere c.pattern c.src ∧ c.src.length - c.pattern.length < 2 ^ 31 := by
  have hresult := c.result_eq fun hgt => absurd hgt (Nat.lt_asymm hlt)
  rw [if_neg (Nat.ne_of_gt hlt), if_pos hflag, subU64_of_le (Nat.le_of_lt hlt) c.src_size]
    at hresult
  unfold Search.Right
  simp only [hresult, hflag, if_true]
  have hinside : c.src.length - c.pattern.length + c.pattern.length ≤ c.src.length := by omega
  have hfuel : c.src.length - c.pattern.length - 0 < c.src.length + 1 := by omega
  rcases forward_cases c.pattern_prefix hinside (by decide) hfuel with
    ⟨j, hj, hocc, hjd, hjw, hfirst⟩ | ⟨hend, hnone⟩
  · refine iff_of_true ⟨some j, hj, hocc, fun k hk => ?_⟩ (.inl ⟨j, hjd, hjw, hocc⟩)
    exact hfirst k (Nat.zero_le k) hk
  · rw [hend]
    have hno : ¬ ∃ i, i < c.src.length - c.pattern.length ∧ i < 2 ^ 31 ∧
        OccursAt c.pattern c.src i := by
      rintro ⟨i, hid, hiw, hocc⟩
      exact hnone i (Nat.zero_le i) hid hiw hocc
    rw [or_iff_right hno]
    by_cases hdiff : c.src.length - c.pattern.length < 2 ^ 31
    · rw [if_pos hdiff]
      constructor
      · rintro ⟨r, hr, hfinds⟩
        obtain rfl := Option.some.inj hr
        exact ⟨hfinds, hdiff⟩
      · exact fun h => ⟨none, rfl, h.1⟩
    · rw [if_neg hdiff]
      refine iff_of_false ?_ fun h => hdiff h.2
      rintro ⟨r, hr, -⟩
      exact absurd hr nofun

/-- The search from the end. -/
theorem Search.right_backward (c : Search) (hlt : c.pattern.length < c.src.length)
    (hflag : c.flag = false) : c.Right ↔
      ∀ i, OccursAt c.pattern c.src i → i ≤ toInt (c.src.length - c.pattern.length) := by
  have hresult := c.result_eq fun hgt => absurd hgt (Nat.lt_asymm hlt)
  have hflag' : ¬ c.flag = true := by
    rw [hflag]
    exact Bool.false_ne_true
  rw [if_neg (Nat.ne_of_gt hlt), if_neg hflag', subU64_of_le (Nat.le_of_lt hlt) c.src_size]
    at hresult
  unfold Search.Right
  simp only [hresult, hflag']
  have hle := toInt_le (c.src.length - c.pattern.length)
  generalize toInt (c.src.length - c.pattern.length) = last at hle
  have hplace : ∀ i : Nat, i < (last + 1).toNat ↔ i ≤ last := by
    intro i
    omega
  have hinside : (last + 1).toNat + c.pattern.length ≤ c.src.length + 1 := by omega
  rcases backward_cases c.pattern_prefix hinside with
    ⟨j, hj, hocc, hjn, hlast⟩ | ⟨hend, hnone⟩
  · rw [hj]
    constructor
    · rintro ⟨r, hr, hfinds⟩ i hi
      obtain rfl := Option.some.inj hr
      by_contra hgt
      rw [← hplace] at hgt
      exact hfinds.2 i (by omega) hi
    · intro hall
      exact ⟨some j, rfl, hocc, fun k hjk hk => hlast k hjk ((hplace k).mpr (hall k hk)) hk⟩
  · rw [hend]
    constructor
    · rintro ⟨r, hr, hfinds⟩ i hi
      obtain rfl := Option.some.inj hr
      exact absurd hi (hfinds i)
    · intro hall
      exact ⟨none, rfl, fun i hi => hnone i ((hplace i).mpr (hall i hi)) hi⟩

/--
`memfind` finds the first place or the last, or says that there is none, and stays in the two
blocks, if and only if the pattern is findable.
-/
theorem memfind_right_iff (c : Search) : c.Right ↔ c.Findable := by
  unfold Search.Findable
  rcases Nat.lt_trichotomy c.src.length c.pattern.length with hlt | heq | hlt
  · rw [if_pos hlt]
    cases hstring : c.asString with
    | true =>
        rw [c.right_longer hlt hstring]
        exact ⟨fun h _ => h, fun h => h rfl⟩
    | false =>
        refine iff_of_true ⟨none, c.result_longer hlt hstring, ?_⟩ (fun h => absurd h nofun)
        split <;> exact nowhere_of_longer hlt
  · rw [if_neg (Nat.not_lt_of_le (Nat.le_of_eq heq.symm))]
    refine iff_of_true (c.right_whole heq) fun hlt => ?_
    exact absurd heq.symm (Nat.ne_of_lt hlt)
  · rw [if_neg (Nat.lt_asymm hlt), forall_prop_of_true hlt]
    cases hflag : c.flag with
    | true =>
        rw [if_pos rfl]
        exact c.right_forward hlt hflag
    | false =>
        rw [if_neg Bool.false_ne_true]
        exact c.right_backward hlt hflag

/-- `"b"` in `"ab"`. -/
def atEnd : Search where
  src := [97, 98]
  pattern := [98]
  rest := []
  asString := false
  flag := true
  src_ne := by decide
  pattern_ne := by decide
  src_size := by decide
  pattern_size := by decide
  noZero := by decide

theorem memfind_not_right : ¬ ∀ c : Search, c.Right := by
  intro h
  obtain ⟨r, hr, hfinds⟩ := h atEnd
  have hnull : atEnd.result = some none := by decide
  obtain rfl := Option.some.inj (hnull.symm.trans hr)
  have hocc : OccursAt atEnd.pattern atEnd.src 1 := by decide
  exact hfinds 1 hocc

end

end CppTrack.Util
