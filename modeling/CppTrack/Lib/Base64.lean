import Mathlib.Data.UInt
import Mathlib.Data.List.Basic

/-!
# Base64

Three bytes are four digits of six bits; one or two bytes at the end are as many digits as they
need, padded to four.
-/

namespace CppTrack.Lib.Base64

/-- `'='`. -/
def pad : UInt8 := 61

/-- The digit for six bits. -/
def digit (n : Nat) : UInt8 :=
  if n < 26 then UInt8.ofNat (n + 65)
  else if n < 52 then UInt8.ofNat (n + 71)
  else if n < 62 then UInt8.ofNat (n - 4)
  else if n = 62 then 43
  else 47

/-- The six bits of a digit. -/
def value (c : UInt8) : Nat :=
  if c = 43 then 62
  else if c = 47 then 63
  else if c.toNat < 58 then c.toNat + 4
  else if c.toNat < 91 then c.toNat - 65
  else c.toNat - 71

/-- The digits of a text. -/
def encode : List UInt8 → List UInt8
  | [] => []
  | [a] => [digit (a.toNat / 4), digit (a.toNat % 4 * 16), pad, pad]
  | [a, b] =>
      [digit (a.toNat / 4), digit (a.toNat % 4 * 16 + b.toNat / 16), digit (b.toNat % 16 * 4), pad]
  | a :: b :: c :: s =>
      digit (a.toNat / 4) :: digit (a.toNat % 4 * 16 + b.toNat / 16) ::
        digit (b.toNat % 16 * 4 + c.toNat / 64) :: digit (c.toNat % 64) :: encode s

/-- The text of some digits. -/
def decode : List UInt8 → List UInt8
  | p :: q :: r :: t :: s =>
      let a := UInt8.ofNat (value p * 4 + value q / 16)
      let b := UInt8.ofNat (value q % 16 * 16 + value r / 4)
      let c := UInt8.ofNat (value r % 4 * 64 + value t)
      if r = pad then [a]
      else if t = pad then [a, b]
      else a :: b :: c :: decode s
  | _ => []

/-! ## Digits -/

theorem digit_spec : ∀ n : Fin 64, value (digit n) = n ∧ digit n ≠ pad ∧ digit n ≠ 0 := by
  decide

theorem value_digit {n : Nat} (h : n < 64) : value (digit n) = n := (digit_spec ⟨n, h⟩).1

theorem digit_ne_pad {n : Nat} (h : n < 64) : digit n ≠ pad := (digit_spec ⟨n, h⟩).2.1

theorem digit_ne_zero {n : Nat} (h : n < 64) : digit n ≠ 0 := (digit_spec ⟨n, h⟩).2.2

/-- A byte in two parts is put together again. -/
theorem ofNat_parts (a : UInt8) {n : Nat} (h : n = a.toNat) : UInt8.ofNat n = a := by
  rw [h, UInt8.ofNat_toNat]

/-! ## Texts -/

/-- **The text can be had back from its digits.** -/
theorem decode_encode (s : List UInt8) : decode (encode s) = s := by
  induction s using encode.induct with
  | case1 => rfl
  | case2 a =>
      have ha := a.toNat_lt
      rw [encode, decode, value_digit (by omega), value_digit (by omega), if_pos rfl,
        ofNat_parts a (by omega)]
  | case3 a b =>
      have ha := a.toNat_lt
      have hb := b.toNat_lt
      rw [encode, decode, if_neg (digit_ne_pad (by omega)), if_pos rfl, value_digit (by omega),
        value_digit (by omega), value_digit (by omega), ofNat_parts a (by omega),
        ofNat_parts b (by omega)]
  | case4 a b c s ih =>
      have ha := a.toNat_lt
      have hb := b.toNat_lt
      have hc := c.toNat_lt
      rw [encode, decode, if_neg (digit_ne_pad (by omega)), if_neg (digit_ne_pad (by omega)), ih,
        value_digit (by omega), value_digit (by omega), value_digit (by omega),
        value_digit (by omega), ofNat_parts a (by omega), ofNat_parts b (by omega),
        ofNat_parts c (by omega)]

theorem encode_injective : Function.Injective encode :=
  Function.LeftInverse.injective decode_encode

/-- Four digits for every three bytes that are begun. -/
theorem length_encode (s : List UInt8) : (encode s).length = (s.length + 2) / 3 * 4 := by
  induction s using encode.induct with
  | case1 => rfl
  | case2 a => simp [encode]
  | case3 a b => simp [encode]
  | case4 a b c s ih =>
      simp only [encode, List.length_cons, ih]
      omega

/-- The digits are a string. -/
theorem zero_notMem_encode (s : List UInt8) : 0 ∉ encode s := by
  have hpad : (0 : UInt8) ≠ pad := by decide
  have hdigit : ∀ {n : Nat}, n < 64 → 0 ≠ digit n := fun h => (digit_ne_zero h).symm
  induction s using encode.induct with
  | case1 => exact List.not_mem_nil
  | case2 a =>
      have ha := a.toNat_lt
      simp only [encode, List.mem_cons, List.not_mem_nil, not_or]
      exact ⟨hdigit (by omega), hdigit (by omega), hpad, hpad, not_false⟩
  | case3 a b =>
      have ha := a.toNat_lt
      have hb := b.toNat_lt
      simp only [encode, List.mem_cons, List.not_mem_nil, not_or]
      exact ⟨hdigit (by omega), hdigit (by omega), hdigit (by omega), hpad, not_false⟩
  | case4 a b c s ih =>
      have ha := a.toNat_lt
      have hb := b.toNat_lt
      have hc := c.toNat_lt
      simp only [encode, List.mem_cons, not_or]
      exact ⟨hdigit (by omega), hdigit (by omega), hdigit (by omega), hdigit (by omega), ih⟩

/-- The two ends and the middle of the alphabet. -/
example : encode [0, 0, 62, 255, 240] = [65, 65, 65, 43, 47, 47, 65, 61] := by decide

end CppTrack.Lib.Base64
