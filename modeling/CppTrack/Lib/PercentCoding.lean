import Mathlib.Data.UInt
import Mathlib.Data.List.Basic

/-!
# Percent coding

A byte that may not stand in a text for itself is written as `'%'` and its two hexadecimal digits,
and a blank may be written as `'+'`. The digits are read in either case, and written in upper case.

A text is cut into tokens first, a `'%'` with the two bytes behind it being one, whatever these are.
-/

namespace CppTrack.Lib.Percent

def percent : UInt8 := 37

def plus : UInt8 := 43

def blank : UInt8 := 32

/-- The digit for four bits. -/
def hexDigit (n : Nat) : UInt8 := UInt8.ofNat (if n < 10 then n + 48 else n + 55)

def IsDecimal (c : UInt8) : Prop := 48 ≤ c ∧ c ≤ 57

/-- `'A'` to `'F'`. -/
def IsUpper (c : UInt8) : Prop := 65 ≤ c ∧ c ≤ 70

/-- `'a'` to `'f'`. -/
def IsLower (c : UInt8) : Prop := 97 ≤ c ∧ c ≤ 102

instance (c : UInt8) : Decidable (IsDecimal c) := inferInstanceAs (Decidable (_ ∧ _))

instance (c : UInt8) : Decidable (IsUpper c) := inferInstanceAs (Decidable (_ ∧ _))

instance (c : UInt8) : Decidable (IsLower c) := inferInstanceAs (Decidable (_ ∧ _))

/-- The four bits of a digit. -/
def hexValue (c : UInt8) : Option Nat :=
  if IsDecimal c then some (c.toNat - 48)
  else if IsUpper c then some (c.toNat - 55)
  else if IsLower c then some (c.toNat - 87)
  else none

/-- A byte of the text that stands for a byte, or three of them. -/
inductive Token
  | plain (c : UInt8)
  | coded (h l : UInt8)
  deriving DecidableEq

/-- The tokens of a text, if its last `'%'` is not too close to the end. -/
def tokens : List UInt8 → Option (List Token)
  | [] => some []
  | c :: s =>
      if c = percent then
        match s with
        | h :: l :: s => (tokens s).map (.coded h l :: ·)
        | _ => none
      else (tokens s).map (.plain c :: ·)

/-- The byte a token stands for. -/
def Token.value : Token → Option UInt8
  | .plain c => some (if c = plus then blank else c)
  | .coded h l => do
      let m ← hexValue h
      let n ← hexValue l
      some (UInt8.ofNat (16 * m + n))

/-- The bytes that a text stands for. -/
def decode (s : List UInt8) : Option (List UInt8) := (tokens s).bind (List.mapM Token.value)

/-- A byte of `keep` is written as it is. -/
def encodeByte (keep : UInt8 → Bool) (c : UInt8) : List UInt8 :=
  if keep c then [c] else [percent, hexDigit (c.toNat / 16), hexDigit (c.toNat % 16)]

def encode (keep : UInt8 → Bool) (s : List UInt8) : List UInt8 := s.flatMap (encodeByte keep)

/-- The texts in which all but `keep` is coded, in upper case. -/
inductive Coded (keep : UInt8 → Bool) : List UInt8 → Prop
  | nil : Coded keep []
  | plain {c : UInt8} {s : List UInt8} : keep c = true → Coded keep s → Coded keep (c :: s)
  | coded {h l : UInt8} {s : List UInt8} : IsDecimal h ∨ IsUpper h → IsDecimal l ∨ IsUpper l →
      Coded keep s → Coded keep (percent :: h :: l :: s)

/-- Each `'%'` is followed by two hexadecimal digits. -/
def WellCoded (s : List UInt8) : Prop :=
  ∀ i, s[i]? = some percent → ∃ h l, s[i + 1]? = some h ∧ s[i + 2]? = some l ∧
    (hexValue h).isSome ∧ (hexValue l).isSome

/-! ## Digits -/

theorem hexDigit_spec : ∀ n : Fin 16, hexValue (hexDigit n) = some n.val ∧
    (IsDecimal (hexDigit n) ∨ IsUpper (hexDigit n)) := by
  decide

theorem hexValue_hexDigit {n : Nat} (h : n < 16) : hexValue (hexDigit n) = some n :=
  (hexDigit_spec ⟨n, h⟩).1

theorem hexDigit_upper {n : Nat} (h : n < 16) : IsDecimal (hexDigit n) ∨ IsUpper (hexDigit n) :=
  (hexDigit_spec ⟨n, h⟩).2

theorem hexValue_percent : hexValue percent = none := by decide

/-! ## Tokens -/

section

variable {keep : UInt8 → Bool} {c h l : UInt8} {s : List UInt8} {ts : List Token}

theorem tokens_plain (hc : c ≠ percent) : tokens (c :: s) = (tokens s).map (.plain c :: ·) :=
  (tokens.eq_def _).trans (if_neg hc)

theorem tokens_coded (h l : UInt8) (s : List UInt8) :
    tokens (percent :: h :: l :: s) = (tokens s).map (.coded h l :: ·) := by
  rw [tokens, if_pos rfl]

theorem tokens_short (hs : s.length < 2) : tokens (percent :: s) = none := by
  match s with
  | [] => rfl
  | [d] => rfl
  | d :: e :: s => exact absurd hs (by simp)

/-- A text is cut at its front: there is a plain byte, a coded one, or no room for one. -/
theorem cut_cases (s : List UInt8) : s = [] ∨ (∃ c s', s = c :: s' ∧ c ≠ percent) ∨
    (∃ h l s', s = percent :: h :: l :: s') ∨ ∃ s', s = percent :: s' ∧ s'.length < 2 := by
  match s with
  | [] => exact .inl rfl
  | c :: s =>
      by_cases hc : c = percent
      · subst hc
        match s with
        | [] => exact .inr (.inr (.inr ⟨[], rfl, by decide⟩))
        | [d] => exact .inr (.inr (.inr ⟨[d], rfl, by simp⟩))
        | h :: l :: s => exact .inr (.inr (.inl ⟨h, l, s, rfl⟩))
      · exact .inr (.inl ⟨c, s, rfl, hc⟩)

/-- **Induction along the tokens of a text.** -/
theorem cut_induction {P : List UInt8 → Prop} (nil : P [])
    (plain : ∀ c s, c ≠ percent → P s → P (c :: s))
    (coded : ∀ h l s, P s → P (percent :: h :: l :: s))
    (short : ∀ s, s.length < 2 → P (percent :: s)) (s : List UInt8) : P s := by
  induction hn : s.length using Nat.strong_induction_on generalizing s with
  | _ n ih =>
      rcases cut_cases s with rfl | ⟨c, s', rfl, hc⟩ | ⟨h, l, s', rfl⟩ | ⟨s', rfl, hs⟩
      · exact nil
      · exact plain c s' hc (ih s'.length (by simp only [List.length_cons] at hn; omega) s' rfl)
      · exact coded h l s' (ih s'.length (by simp only [List.length_cons] at hn; omega) s' rfl)
      · exact short s' hs

theorem decode_plain (hc : c ≠ percent) :
    decode (c :: s) = (decode s).map ((if c = plus then blank else c) :: ·) := by
  rw [decode, tokens_plain hc, decode]
  cases tokens s with
  | none => rfl
  | some ts =>
      rw [Option.map_some, Option.bind_some, Option.bind_some, List.mapM_cons]
      cases List.mapM Token.value ts <;> rfl

theorem decode_coded (h l : UInt8) (s : List UInt8) : decode (percent :: h :: l :: s) =
    (Token.coded h l).value.bind fun c => (decode s).map (c :: ·) := by
  rw [decode, tokens_coded, decode]
  cases tokens s with
  | none => cases (Token.coded h l).value <;> rfl
  | some ts =>
      rw [Option.map_some, Option.bind_some, Option.bind_some, List.mapM_cons]
      cases (Token.coded h l).value <;> cases List.mapM Token.value ts <;> rfl

theorem value_coded {m n : Nat} (hh : hexValue h = some m) (hl : hexValue l = some n) :
    (Token.coded h l).value = some (UInt8.ofNat (16 * m + n)) := by
  rw [Token.value, hh, hl]
  rfl

theorem value_isSome : (Token.coded h l).value.isSome ↔
    (hexValue h).isSome ∧ (hexValue l).isSome := by
  rw [Token.value]
  cases hexValue h with
  | none => exact iff_of_false nofun fun hb => absurd hb.1 nofun
  | some m =>
      cases hexValue l with
      | none => exact iff_of_false nofun fun hb => absurd hb.2 nofun
      | some n => exact iff_of_true rfl ⟨rfl, rfl⟩

/-- A text stands for the bytes of its tokens. -/
theorem decode_eq_some_iff {r : List UInt8} (hs : tokens s = some ts) :
    decode s = some r ↔ ts.map Token.value = r.map some := by
  rw [decode, hs, Option.bind_some]
  clear hs
  induction ts generalizing r with
  | nil => cases r <;> simp
  | cons t ts ih =>
      rw [List.mapM_cons, List.map_cons]
      cases r with
      | nil => cases t.value <;> cases List.mapM Token.value ts <;> simp
      | cons c r =>
          rw [List.map_cons, List.cons.injEq, ← ih]
          cases t.value <;> cases List.mapM Token.value ts <;> simp

/-! ## Well coded texts -/

theorem WellCoded.tail (hw : WellCoded (c :: s)) : WellCoded s := by
  intro i hi
  exact hw (i + 1) hi

theorem WellCoded.plain (hc : c ≠ percent) (hw : WellCoded s) : WellCoded (c :: s) := by
  intro i hi
  cases i with
  | zero => exact absurd (Option.some.inj hi) hc
  | succ i => exact hw i hi

theorem WellCoded.head (hw : WellCoded (percent :: s)) : ∃ h l s', s = h :: l :: s' ∧
    (hexValue h).isSome ∧ (hexValue l).isSome := by
  obtain ⟨h, l, hh, hl, hhex, hlex⟩ := hw 0 rfl
  match s with
  | [] => exact absurd hh nofun
  | [d] => exact absurd hl nofun
  | d :: e :: s' =>
      obtain rfl := Option.some.inj hh
      obtain rfl := Option.some.inj hl
      exact ⟨d, e, s', rfl, hhex, hlex⟩

theorem ne_percent_of_hex (hc : (hexValue c).isSome) : c ≠ percent := by
  intro heq
  rw [heq, hexValue_percent] at hc
  exact absurd hc nofun

theorem WellCoded.coded (hh : (hexValue h).isSome) (hl : (hexValue l).isSome) (hw : WellCoded s) :
    WellCoded (percent :: h :: l :: s) := by
  intro i hi
  match i with
  | 0 => exact ⟨h, l, rfl, rfl, hh, hl⟩
  | 1 => exact absurd (Option.some.inj hi) (ne_percent_of_hex hh)
  | 2 => exact absurd (Option.some.inj hi) (ne_percent_of_hex hl)
  | i + 3 => exact hw i hi

/-- **The texts that stand for bytes are those in which each `'%'` is followed by two digits.** -/
theorem decode_isSome_iff (s : List UInt8) : (decode s).isSome ↔ WellCoded s := by
  induction s using cut_induction with
  | nil => exact iff_of_true rfl fun i hi => absurd hi nofun
  | plain c s hc ih =>
      rw [decode_plain hc, Option.isSome_map, ih]
      exact ⟨WellCoded.plain hc, WellCoded.tail⟩
  | coded h l s ih =>
      have hboth : (decode (percent :: h :: l :: s)).isSome ↔
          (Token.coded h l).value.isSome ∧ (decode s).isSome := by
        rw [decode_coded]
        cases (Token.coded h l).value with
        | none => exact iff_of_false nofun fun hb => absurd hb.1 nofun
        | some c =>
            rw [Option.bind_some, Option.isSome_map]
            exact (and_iff_right rfl).symm
      rw [hboth, value_isSome, ih]
      constructor
      · intro hd
        exact .coded hd.1.1 hd.1.2 hd.2
      · intro hw
        obtain ⟨h', l', s', heq, hh, hl⟩ := hw.head
        cases heq
        exact ⟨⟨hh, hl⟩, hw.tail.tail.tail⟩
  | short s hs =>
      refine iff_of_false ?_ ?_
      · rw [decode, tokens_short hs]
        exact nofun
      · intro hw
        obtain ⟨h, l, s', rfl, -⟩ := hw.head
        simp only [List.length_cons] at hs
        omega

/-! ## Writing and reading -/

/-- Four bits and four bits. -/
theorem halves (c : UInt8) : c.toNat / 16 < 16 ∧ c.toNat % 16 < 16 ∧
    UInt8.ofNat (16 * (c.toNat / 16) + c.toNat % 16) = c := by
  have hlt := c.toNat_lt
  refine ⟨by omega, by omega, ?_⟩
  rw [Nat.div_add_mod, UInt8.ofNat_toNat]

theorem Coded.tokens (hs : Coded keep s) (hpercent : keep percent = false) :
    ∃ ts, tokens s = some ts ∧ ∀ h l, Token.coded h l ∈ ts → IsDecimal l ∨ IsUpper l := by
  induction hs with
  | nil => exact ⟨[], rfl, fun h l ht => absurd ht List.not_mem_nil⟩
  | @plain c s hc hs ih =>
      obtain ⟨ts, heq, hupper⟩ := ih
      have hne : c ≠ percent := fun heq => by simp [heq, hpercent] at hc
      refine ⟨.plain c :: ts, by rw [tokens_plain hne, heq, Option.map_some], fun h l ht => ?_⟩
      rcases List.mem_cons.mp ht with ht | ht
      · exact absurd ht nofun
      · exact hupper h l ht
  | @coded h l s hh hl hs ih =>
      obtain ⟨ts, heq, hupper⟩ := ih
      refine ⟨.coded h l :: ts, by rw [tokens_coded, heq, Option.map_some], fun h' l' ht => ?_⟩
      rcases List.mem_cons.mp ht with ht | ht
      · obtain ⟨-, rfl⟩ := Token.coded.inj ht
        exact hl
      · exact hupper h' l' ht

theorem coded_encode (keep : UInt8 → Bool) (s : List UInt8) : Coded keep (encode keep s) := by
  induction s with
  | nil => exact .nil
  | cons c s ih =>
      obtain ⟨hhigh, hlow, -⟩ := halves c
      rw [encode, List.flatMap_cons, encodeByte]
      split
      · rename_i hc
        exact .plain hc ih
      · exact .coded (hexDigit_upper hhigh) (hexDigit_upper hlow) ih

/-- **A text is read back, if neither `'%'` nor `'+'` stands for itself.** -/
theorem decode_encode (hpercent : keep percent = false) (hplus : keep plus = false)
    (s : List UInt8) : decode (encode keep s) = some s := by
  induction s with
  | nil => rfl
  | cons c s ih =>
      obtain ⟨hhigh, hlow, hc⟩ := halves c
      rw [encode, List.flatMap_cons, encodeByte]
      by_cases hkeep : keep c = true
      · have hne : c ≠ percent := fun heq => by simp [heq, hpercent] at hkeep
        have hne' : c ≠ plus := fun heq => by simp [heq, hplus] at hkeep
        rw [if_pos hkeep]
        show decode (c :: encode keep s) = _
        rw [decode_plain hne, if_neg hne', ih]
        rfl
      · rw [if_neg hkeep]
        show decode (percent :: _ :: _ :: encode keep s) = _
        rw [decode_coded, value_coded (hexValue_hexDigit hhigh) (hexValue_hexDigit hlow), hc, ih]
        rfl

end

end CppTrack.Lib.Percent
