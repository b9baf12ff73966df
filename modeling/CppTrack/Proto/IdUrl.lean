import CppTrack.Lib.CString

/-!
# Ids in URLs (`UtilPdu.cc`)

`idtourl` doubles an id and adds 56, and writes the number to the base 36 from the end of a static
buffer on. `urltoid` reads it back. Both work on `uint32_t`. `none` is a store in front of the
buffer, and a string without an end.
-/

namespace CppTrack.IM

open Lib

/-- `digits` -/
def digits : List UInt8 := (List.range 10).map (fun n => UInt8.ofNat (n + 48)) ++
  (List.range 26).map fun n => UInt8.ofNat (n + 97)

/-- The loop of `idtourl`, with the buffer and the place of `ptr` in it. -/
def convert : (ptr : Nat) → (value : UInt32) → (buf : List UInt8) → Option (List UInt8 × Nat)
  | 0, _, _ => none
  | ptr + 1, value, buf =>
      let buf := buf.set ptr (digits.getD (value % 36).toNat 0)
      let value := value / 36
      if ptr > 0 ∧ value ≠ 0 then convert ptr value buf else some (buf, ptr)

/-- `idtourl`, with the buffer as it was. -/
def idtourl (buf : List UInt8) (id : UInt32) : Option (List UInt8 × Nat) := do
  let value := id * 2 + 56
  let ptr := buf.length - 1
  let buf := buf.set ptr 0
  let (buf, ptr) ← convert ptr value buf
  if ptr > 0 then some (buf.set (ptr - 1) 49, ptr - 1) else none

/-- The value of a character, if it is a letter or a digit. -/
def charValue (c : UInt8) : Option UInt8 :=
  if c ≥ 48 ∧ c ≤ 57 then some (c - 48)
  else if c ≥ 97 ∧ c ≤ 122 then some (c - (97 - 10))
  else if c ≥ 65 ∧ c ≤ 90 then some (c - (65 - 10))
  else none

/-- A turn of the loop of `urltoid`. -/
def addChar (number : UInt32) (c : UInt8) : UInt32 :=
  match charValue c with
  | none => number
  | some c => number * 36 + c.toUInt32

/-- `urltoid`. -/
def urltoid (url : List UInt8) : Option UInt32 := do
  let urlLen ← strlen url
  let number := ((url.take (urlLen % 2 ^ 32)).drop 1).foldl addChar 0
  some ((number - 56) >>> 1)

/-! ## What they should do -/

/-- `idtourl` stays in its buffer, and `urltoid` gives the id back. -/
def Invertible (id : UInt32) : Prop :=
  ∀ buf : List UInt8, buf.length = 64 → ∃ buf' ptr, idtourl buf id = some (buf', ptr) ∧
    buf'.length = 64 ∧ urltoid (buf'.drop ptr) = some id

section

variable {value id : UInt32} {k : Nat}

theorem digits_spec : ∀ n : Fin 36, charValue (digits.getD n 0) = some (UInt8.ofNat n) ∧
    digits.getD n 0 ≠ 0 := by
  decide

theorem addChar_digit (value : UInt32) :
    addChar (value / 36) (digits.getD (value % 36).toNat 0) = value ∧
      digits.getD (value % 36).toNat 0 ≠ 0 := by
  have hlt : (value % 36).toNat < 36 := by
    rw [UInt32.toNat_mod]
    exact Nat.mod_lt _ (by decide)
  obtain ⟨hvalue, hne⟩ := digits_spec ⟨(value % 36).toNat, hlt⟩
  refine ⟨?_, hne⟩
  rw [addChar, hvalue]
  show value / 36 * 36 + (UInt8.ofNat (value % 36).toNat).toUInt32 = value
  refine UInt32.toNat_inj.mp ?_
  have hvalue := value.toNat_lt
  simp only [UInt32.toNat_add, UInt32.toNat_mul, UInt32.toNat_div, UInt8.toNat_toUInt32,
    UInt8.toNat_ofNat', UInt32.toNat_mod, UInt32.reduceToNat]
  omega

theorem toNat_div36 (value : UInt32) : (value / 36).toNat = value.toNat / 36 :=
  UInt32.toNat_div value 36

/-- A buffer up to the place that is stored to. -/
theorem exists_last {buf : List UInt8} (h : 0 < buf.length) :
    ∃ pre x, buf = pre ++ [x] ∧ buf.length = pre.length + 1 := by
  rcases List.eq_nil_or_concat buf with rfl | ⟨pre, x, rfl⟩
  · exact absurd h (Nat.lt_irrefl 0)
  · refine ⟨pre, x, List.concat_eq_append, ?_⟩
    rw [List.length_concat]

theorem set_last (pre post : List UInt8) (x c : UInt8) :
    (pre ++ [x] ++ post).set pre.length c = pre ++ c :: post := by
  rw [List.append_assoc, List.set_append_right _ _ (Nat.le_refl _), Nat.sub_self]
  rfl

/-- The digits are written in front of what is there, in at most `k` places. -/
theorem convert_eq (pre post : List UInt8) (hk : 0 < k) (hvalue : value.toNat < 36 ^ k)
    (hroom : k ≤ pre.length) :
    ∃ pre' s, convert pre.length value (pre ++ post) = some (pre' ++ (s ++ post), pre'.length) ∧
      pre'.length + s.length = pre.length ∧ s.length ≤ k ∧ 0 ∉ s ∧ s.foldl addChar 0 = value := by
  induction k generalizing pre post value with
  | zero => exact absurd hk (Nat.lt_irrefl 0)
  | succ k ih =>
      obtain ⟨pre, x, rfl, hlen⟩ := exists_last (Nat.lt_of_lt_of_le hk hroom)
      obtain ⟨hdigit, hne⟩ := addChar_digit value
      rw [hlen, convert, set_last]
      split
      · rename_i hmore
        have hless : (value / 36).toNat < 36 ^ k := by
          rw [toNat_div36]
          rw [Nat.pow_succ] at hvalue
          omega
        have hpos : 0 < k := by
          refine Nat.pos_of_ne_zero fun hzero => hmore.2 ?_
          rw [hzero, Nat.pow_zero] at hless
          exact UInt32.toNat_inj.mp (Nat.lt_one_iff.mp hless)
        obtain ⟨pre', s, hrun, hlen', hle, hzero, hfold⟩ :=
          ih pre _ hpos hless (by omega)
        refine ⟨pre', s ++ [digits.getD (value % 36).toNat 0], ?_, ?_, ?_, ?_, ?_⟩
        · rw [hrun, List.append_assoc]
          rfl
        · rw [List.length_append, List.length_singleton]
          omega
        · rw [List.length_append, List.length_singleton]
          omega
        · intro hmem
          rcases List.mem_append.mp hmem with hmem | hmem
          · exact hzero hmem
          · exact hne (List.mem_singleton.mp hmem).symm
        · rw [List.foldl_append, hfold]
          exact hdigit
      · rename_i hlast
        have hzero : value / 36 = 0 := by
          by_contra hmore
          refine hlast ⟨Nat.pos_of_ne_zero fun hnil => hmore ?_, hmore⟩
          obtain rfl : k = 0 := by omega
          refine UInt32.toNat_inj.mp ?_
          rw [toNat_div36]
          exact Nat.div_eq_of_lt hvalue
        refine ⟨pre, [digits.getD (value % 36).toNat 0], rfl, rfl, ?_, ?_, ?_⟩
        · exact Nat.succ_le_succ (Nat.zero_le k)
        · exact fun hmem => hne (List.mem_singleton.mp hmem).symm
        · rw [hzero] at hdigit
          exact hdigit

/-- The number that is written is at most seven digits long. -/
theorem idtourl_eq (buf : List UInt8) (hbuf : buf.length = 64) (id : UInt32) :
    ∃ pre s, idtourl buf id = some (pre ++ 49 :: (s ++ [0]), pre.length) ∧
      pre.length + s.length = 62 ∧ 0 ∉ s ∧ s.foldl addChar 0 = id * 2 + 56 := by
  obtain ⟨pre, x, rfl, hpre⟩ := exists_last (show 0 < buf.length by omega)
  have hvalue : (id * 2 + 56).toNat < 36 ^ 7 :=
    Nat.lt_trans (UInt32.toNat_lt _) (by decide)
  obtain ⟨pre', s, hrun, hlen, hle, hzero, hfold⟩ :=
    convert_eq pre [0] (show 0 < 7 by decide) hvalue (show 7 ≤ pre.length by omega)
  obtain ⟨pre', y, rfl, hpre'⟩ := exists_last (show 0 < pre'.length by omega)
  have hend : (pre ++ [x]).set pre.length 0 = pre ++ [0] := by
    have hset := set_last pre [] x 0
    rwa [List.append_nil] at hset
  refine ⟨pre', s, ?_, by omega, hzero, hfold⟩
  rw [idtourl]
  show (convert _ _ _).bind _ = _
  rw [hpre, Nat.add_sub_cancel, hend, hrun, Option.bind_some, hpre']
  show (if pre'.length + 1 > 0 then _ else _) = _
  rw [if_pos (Nat.succ_pos _), Nat.add_sub_cancel, set_last]

theorem urltoid_idtourl (s : List UInt8) (hs : 0 ∉ s) (hlen : s.length < 63) :
    urltoid (49 :: (s ++ [0])) = some ((s.foldl addChar 0 - 56) >>> 1) := by
  have hzero : 0 ∉ 49 :: s := by
    intro hmem
    rcases List.mem_cons.mp hmem with h0 | hmem
    · exact absurd h0 (by decide)
    · exact hs hmem
  have hstr : strlen (49 :: (s ++ [0])) = some (s.length + 1) := strlen_zero [] hzero
  have htake : ((49 :: (s ++ [0])).take (s.length + 1)).drop 1 = s := by
    rw [List.take_succ_cons, List.take_left, List.drop_one, List.tail_cons]
  rw [urltoid, hstr, Option.bind_eq_bind, Option.bind_some, Nat.mod_eq_of_lt (by omega), htake]

/-- The bit that is shifted out is lost. -/
theorem shifted_iff (id : UInt32) :
    (id * 2 + 56 - 56) >>> 1 = id ↔ id.toNat < 2 ^ 31 := by
  have hlt := id.toNat_lt
  have hback : id * 2 + 56 - 56 = id * 2 := UInt32.add_sub_cancel _ _
  have hshift : ((id * 2) >>> 1).toNat = id.toNat * 2 % 2 ^ 32 / 2 := by
    rw [UInt32.toNat_shiftRight, UInt32.toNat_mul]
    rfl
  rw [hback, ← UInt32.toNat_inj, hshift]
  omega

theorem invertible_iff_shifted (id : UInt32) :
    Invertible id ↔ (id * 2 + 56 - 56) >>> 1 = id := by
  have hurl : ∀ buf : List UInt8, buf.length = 64 → ∃ buf' ptr,
      idtourl buf id = some (buf', ptr) ∧ buf'.length = 64 ∧
        urltoid (buf'.drop ptr) = some ((id * 2 + 56 - 56) >>> 1) := by
    intro buf hbuf
    obtain ⟨pre, s, hrun, hlen, hzero, hfold⟩ := idtourl_eq buf hbuf id
    refine ⟨_, _, hrun, ?_, ?_⟩
    · simp only [List.length_append, List.length_cons, List.length_nil]
      omega
    · rw [List.drop_left, urltoid_idtourl s hzero (by omega), hfold]
  constructor
  · intro h
    have hbuf : (List.replicate 64 (0 : UInt8)).length = 64 := List.length_replicate
    obtain ⟨buf', ptr, hrun, -, hid⟩ := h _ hbuf
    obtain ⟨buf'', ptr', hrun', -, hid'⟩ := hurl _ hbuf
    obtain ⟨rfl, rfl⟩ := Prod.mk.inj (Option.some.inj (hrun.symm.trans hrun'))
    exact Option.some.inj (hid'.symm.trans hid)
  · intro h buf hbuf
    obtain ⟨buf', ptr, hrun, hlen, hid⟩ := hurl buf hbuf
    rw [h] at hid
    exact ⟨buf', ptr, hrun, hlen, hid⟩

/-- An id is got back from its URL, if and only if its upper bit is zero. -/
theorem invertible_iff (id : UInt32) : Invertible id ↔ id.toNat < 2 ^ 31 :=
  (invertible_iff_shifted id).trans (shifted_iff id)

/-- `0x80000000` has the URL of zero. -/
theorem not_invertible : ¬ ∀ id, Invertible id := by
  intro h
  exact absurd ((invertible_iff_shifted 2147483648).mp (h 2147483648)) (by decide)

end

end CppTrack.IM
