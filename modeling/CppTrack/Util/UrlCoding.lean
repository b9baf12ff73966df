import CppTrack.Lib.PercentCoding

/-!
# URL coding (`util.cc`)

A `std::string` is its bytes. The subscript may also be its length, and is then the zero behind the
string; beyond that it is undefined. A byte is coded through a buffer of four, which is appended up
to its first zero.
-/

namespace CppTrack.Util

open Lib.Percent

/-- `isdigit`. -/
def isDigit (x : UInt8) : Bool := 48 ≤ x && x ≤ 57

/-- `isalnum` of the `"C"` locale. -/
def isAlnum (x : UInt8) : Bool := isDigit x || (65 ≤ x && x ≤ 90) || (97 ≤ x && x ≤ 122)

/-- `toHex`. -/
def toHex (x : UInt8) : UInt8 := if x > 9 then x - 10 + 65 else x + 48

/-- `fromHex`. -/
def fromHex (x : UInt8) : UInt8 := if isDigit x then x - 48 else x - 65 + 10

/-- `buf` in the loop of `URLEncode`. -/
def urlBuf (c : UInt8) : List UInt8 :=
  let buf := List.replicate 4 0
  if isAlnum c then buf.set 0 c
  else
    let buf := buf.set 0 percent
    let buf := buf.set 1 (toHex (c >>> 4))
    buf.set 2 (toHex (c % 16))

/-- `URLEncode`. -/
def urlEncode (sIn : List UInt8) : List UInt8 :=
  sIn.foldl (fun sOut c => sOut ++ (urlBuf c).takeWhile (· ≠ 0)) []

/-- `sIn[i]`. -/
def subscript (sIn : List UInt8) (i : Nat) : Option UInt8 :=
  if i ≤ sIn.length then some (sIn.getD i 0) else none

/-- The loop of `URLDecode`, with this subscript. -/
def urlDecodeLoop (read : Nat → Option UInt8) (size : Nat) :
    (fuel ix : Nat) → (sOut : List UInt8) → Option (List UInt8)
  | 0, _, _ => none
  | fuel + 1, ix, sOut =>
      if ix < size then do
        let c ← read ix
        if c = percent then
          let h ← read (ix + 1)
          let ch := fromHex h <<< 4
          let l ← read (ix + 2)
          let ch := ch ||| fromHex l
          urlDecodeLoop read size fuel (ix + 2 + 1) (sOut ++ [ch])
        else if c = plus then urlDecodeLoop read size fuel (ix + 1) (sOut ++ [blank])
        else urlDecodeLoop read size fuel (ix + 1) (sOut ++ [c])
      else some sOut

/-- `URLDecode`. -/
def urlDecode (sIn : List UInt8) : Option (List UInt8) :=
  urlDecodeLoop (subscript sIn) sIn.length (sIn.length + 1) 0 []

/-! ## What they should do -/

/-- `URLDecode` reads no character but those of the string. -/
def ReadsInside (sIn : List UInt8) : Prop :=
  (urlDecodeLoop (fun i => sIn[i]?) sIn.length (sIn.length + 1) 0 []).isSome

instance (sIn : List UInt8) : Decidable (ReadsInside sIn) := inferInstanceAs (Decidable (_ = true))

def DecodesRight (sIn : List UInt8) : Prop :=
  ReadsInside sIn ∧ (WellCoded sIn → urlDecode sIn = decode sIn)

/-- A small letter as the second digit does no harm behind these first digits. -/
def Carries (h : UInt8) : Prop := ∃ m, hexValue h = some m ∧ m.testBit 1

/--
No `'%'` stands at one of the last two places when it is come to; and where all of them are
followed by digits, no small letter is a second digit but behind `2367ABEF` and `abef`.
-/
def Decodable (sIn : List UInt8) : Prop :=
  ∃ ts, tokens sIn = some ts ∧
    (WellCoded sIn → ∀ h l, Token.coded h l ∈ ts → IsLower l → Carries h)

/-! ## Digits -/

section

variable {c h l : UInt8} {m n fuel ix size : Nat} {s sIn sOut : List UInt8}
  {read read' : Nat → Option UInt8}

/-- What `fromHex` makes of a digit. -/
theorem fromHex_eq (hc : hexValue c = some m) :
    m < 16 ∧ fromHex c = if IsLower c then UInt8.ofNat (m + 32) else UInt8.ofNat m := by
  have hall : ∀ i : Fin 256, ∀ m ∈ hexValue (UInt8.ofNat i), m < 16 ∧ fromHex (UInt8.ofNat i) =
      if IsLower (UInt8.ofNat i) then UInt8.ofNat (m + 32) else UInt8.ofNat m := by
    decide +kernel
  have hspec := hall ⟨c.toNat, c.toNat_lt⟩ m
  simp only [UInt8.ofNat_toNat] at hspec
  exact hspec hc

/-- A small letter sets a bit too much in the lower half, which belongs to the upper one. -/
theorem fromHex_pair (hh : hexValue h = some m) (hl : hexValue l = some n) :
    fromHex h <<< 4 ||| fromHex l = UInt8.ofNat (16 * m + n) ↔ (IsLower l → m.testBit 1) := by
  have hall : ∀ i j : Fin 16, ∀ u v : Bool,
      (if u then UInt8.ofNat (i + 32) else UInt8.ofNat i) <<< 4 |||
        (if v then UInt8.ofNat (j + 32) else UInt8.ofNat j) = UInt8.ofNat (16 * i + j) ↔
      (v = true → i.val.testBit 1) := by
    decide +kernel
  obtain ⟨hm, hh⟩ := fromHex_eq hh
  obtain ⟨hn, hl⟩ := fromHex_eq hl
  rw [hh, hl]
  have hspec := hall ⟨m, hm⟩ ⟨n, hn⟩ (decide (IsLower h)) (decide (IsLower l))
  simpa only [decide_eq_true_eq] using hspec

/-! ## The loop -/

/-- What the loop puts out for a token. -/
def decodeToken : Token → UInt8
  | .plain c => if c = plus then blank else c
  | .coded h l => fromHex h <<< 4 ||| fromHex l

theorem drop_cons (hs : sIn.drop ix = c :: s) :
    sIn[ix]? = some c ∧ sIn.drop (ix + 1) = s ∧ ix < sIn.length := by
  have hlt : ix < sIn.length := by
    by_contra hge
    rw [List.drop_eq_nil_of_le (Nat.not_lt.mp hge)] at hs
    exact absurd hs nofun
  have hget : (sIn.drop ix)[0]? = some c := by
    rw [hs]
    rfl
  rw [List.getElem?_drop] at hget
  have htail : (sIn.drop ix).tail = s := by
    rw [hs]
    rfl
  rw [List.tail_drop] at htail
  exact ⟨hget, htail, hlt⟩

/-- A loop that reads only what is there puts out the tokens, one after another. -/
theorem urlDecodeLoop_eq (sIn s sOut : List UInt8) (hs : sIn.drop ix = s)
    (hfuel : s.length < fuel) :
    urlDecodeLoop (fun i => sIn[i]?) sIn.length fuel ix sOut =
      (tokens s).map fun ts => sOut ++ ts.map decodeToken := by
  obtain ⟨fuel, rfl⟩ := Nat.exists_eq_succ_of_ne_zero (Nat.ne_zero_of_lt hfuel)
  induction s using cut_induction generalizing ix sOut fuel with
  | nil =>
      have hle : sIn.length ≤ ix := List.drop_eq_nil_iff.mp hs
      rw [urlDecodeLoop, if_neg (Nat.not_lt.mpr hle), tokens, Option.map_some, List.map_nil,
        List.append_nil]
  | plain c s hc ih =>
      obtain ⟨hread, hrest, hlt⟩ := drop_cons hs
      rw [List.length_cons] at hfuel
      obtain ⟨fuel, rfl⟩ := Nat.exists_eq_succ_of_ne_zero (show fuel ≠ 0 by omega)
      rw [urlDecodeLoop, if_pos hlt, hread, tokens_plain hc, Option.map_map]
      show (if c = percent then _ else _) = _
      rw [if_neg hc]
      have hloop : ∀ d, d = decodeToken (.plain c) →
          urlDecodeLoop (fun i => sIn[i]?) sIn.length (fuel + 1) (ix + 1) (sOut ++ [d]) =
            (tokens s).map ((fun ts => sOut ++ ts.map decodeToken) ∘ (Token.plain c :: ·)) := by
        intro d hd
        rw [ih _ hrest fuel (by omega), hd]
        congr 1
        funext ts
        show sOut ++ [_] ++ _ = sOut ++ (_ :: _)
        rw [List.append_assoc]
        rfl
      split
      · rename_i hplus
        exact hloop blank (if_pos hplus).symm
      · rename_i hplus
        exact hloop c (if_neg hplus).symm
  | coded h l s ih =>
      obtain ⟨hread, hs, hlt⟩ := drop_cons hs
      obtain ⟨hreadh, hs, -⟩ := drop_cons hs
      obtain ⟨hreadl, hrest, -⟩ := drop_cons hs
      simp only [List.length_cons] at hfuel
      obtain ⟨fuel, rfl⟩ := Nat.exists_eq_succ_of_ne_zero (show fuel ≠ 0 by omega)
      rw [urlDecodeLoop, if_pos hlt, hread, tokens_coded, Option.map_map]
      simp only [Option.bind_eq_bind, Option.bind_some, if_true, hreadh, hreadl]
      show urlDecodeLoop _ _ (fuel + 1) (ix + 2 + 1) (sOut ++ [decodeToken (.coded h l)]) = _
      rw [ih _ hrest fuel (by omega)]
      congr 1
      funext ts
      show sOut ++ [_] ++ _ = sOut ++ (_ :: _)
      rw [List.append_assoc]
      rfl
  | short s hshort =>
      obtain ⟨hread, hrest, hlt⟩ := drop_cons hs
      rw [urlDecodeLoop, if_pos hlt, hread, tokens_short hshort]
      simp only [Option.bind_eq_bind, Option.bind_some, if_true]
      have hend : sIn[ix + 2]? = none := by
        rw [List.getElem?_eq_none_iff]
        have hlen := congrArg List.length hrest
        rw [List.length_drop] at hlen
        omega
      rw [hend]
      cases sIn[ix + 1]? <;> rfl

/-- Where one subscript is defined and the other says the same, the loops do the same. -/
theorem urlDecodeLoop_mono (hread : ∀ i c, read i = some c → read' i = some c)
    (hloop : urlDecodeLoop read size fuel ix sOut = some s) :
    urlDecodeLoop read' size fuel ix sOut = some s := by
  induction fuel generalizing ix sOut with
  | zero => exact absurd hloop nofun
  | succ fuel ih =>
      rw [urlDecodeLoop] at hloop ⊢
      split at hloop
      · rename_i hlt
        rw [if_pos hlt]
        obtain ⟨c, hc, hloop⟩ := Option.bind_eq_some_iff.mp hloop
        rw [hread ix c hc]
        show (if c = percent then _ else _) = _
        split at hloop
        · rename_i hpercent
          obtain ⟨h, hh, hloop⟩ := Option.bind_eq_some_iff.mp hloop
          obtain ⟨l, hl, hloop⟩ := Option.bind_eq_some_iff.mp hloop
          rw [if_pos hpercent, hread _ h hh]
          show Option.bind (read' (ix + 2)) _ = _
          rw [hread _ l hl]
          exact ih hloop
        · rename_i hpercent
          rw [if_neg hpercent]
          split at hloop
          · rename_i hplus
            rw [if_pos hplus]
            exact ih hloop
          · rename_i hplus
            rw [if_neg hplus]
            exact ih hloop
      · rename_i hlt
        rwa [if_neg hlt]

theorem readsInside_iff (sIn : List UInt8) : ReadsInside sIn ↔ ∃ ts, tokens sIn = some ts := by
  rw [ReadsInside, urlDecodeLoop_eq sIn sIn [] List.drop_zero (Nat.lt_succ_self _),
    Option.isSome_map, Option.isSome_iff_exists]

theorem urlDecode_eq {ts : List Token} (h : tokens sIn = some ts) :
    urlDecode sIn = some (ts.map decodeToken) := by
  have hinside (i : Nat) (c : UInt8) (hc : sIn[i]? = some c) : subscript sIn i = some c := by
    obtain ⟨hlt, hget⟩ := List.getElem?_eq_some_iff.mp hc
    rw [subscript, if_pos (Nat.le_of_lt hlt), List.getD_eq_getElem?_getD, hc, Option.getD_some]
  refine urlDecodeLoop_mono hinside ?_
  rw [urlDecodeLoop_eq sIn sIn [] List.drop_zero (Nat.lt_succ_self _), h]
  rfl

/-! ## Decoding what others wrote -/

/-- Where a token stands for a byte, it is put out right unless a small letter spoils it. -/
theorem decodeToken_iff {t : Token} (ht : t.value.isSome) :
    some (decodeToken t) = t.value ↔ ∀ h l, t = .coded h l → IsLower l → Carries h := by
  cases t with
  | plain c => exact iff_of_true rfl fun h l heq => absurd heq nofun
  | coded h l =>
      obtain ⟨hh, hl⟩ := value_isSome.mp ht
      obtain ⟨m, hm⟩ := Option.isSome_iff_exists.mp hh
      obtain ⟨n, hn⟩ := Option.isSome_iff_exists.mp hl
      rw [value_coded hm hn, Option.some.injEq, decodeToken, fromHex_pair hm hn]
      constructor
      · intro hbit h' l' heq hlower
        obtain ⟨rfl, rfl⟩ := Token.coded.inj heq
        exact ⟨m, hm, hbit hlower⟩
      · intro hcarries hlower
        obtain ⟨m', hm', hbit⟩ := hcarries h l rfl hlower
        obtain rfl := Option.some.inj (hm.symm.trans hm')
        exact hbit

theorem urlDecode_eq_decode_iff {ts : List Token} (hs : tokens sIn = some ts)
    (hw : WellCoded sIn) :
    urlDecode sIn = decode sIn ↔ ∀ h l, Token.coded h l ∈ ts → IsLower l → Carries h := by
  obtain ⟨r, hr⟩ := Option.isSome_iff_exists.mp ((decode_isSome_iff sIn).mpr hw)
  have hvalues := (decode_eq_some_iff hs).mp hr
  have hsome : ∀ t ∈ ts, t.value.isSome := by
    intro t ht
    have hmem : t.value ∈ r.map some := hvalues ▸ List.mem_map_of_mem ht
    obtain ⟨c, -, hc⟩ := List.mem_map.mp hmem
    rw [← hc]
    rfl
  have hmap : urlDecode sIn = decode sIn ↔ ∀ t ∈ ts, some (decodeToken t) = t.value := by
    have hinj := List.map_injective_iff.mpr (Option.some_injective UInt8)
    rw [urlDecode_eq hs, hr, Option.some.injEq, ← hinj.eq_iff, List.map_map, ← hvalues,
      List.map_inj_left]
    rfl
  rw [hmap]
  constructor
  · intro h h' l' ht
    exact (decodeToken_iff (hsome _ ht)).mp (h _ ht) h' l' rfl
  · intro h t ht
    exact (decodeToken_iff (hsome t ht)).mpr fun h' l' heq => h h' l' (heq ▸ ht)

/--
`URLDecode` stays in the string and, where each `'%'` is followed by two digits, puts out what
they stand for, if and only if the string is decodable.
-/
theorem urlDecode_right_iff (sIn : List UInt8) : DecodesRight sIn ↔ Decodable sIn := by
  rw [DecodesRight, readsInside_iff]
  constructor
  · rintro ⟨⟨ts, hs⟩, hright⟩
    exact ⟨ts, hs, fun hw => (urlDecode_eq_decode_iff hs hw).mp (hright hw)⟩
  · rintro ⟨ts, hs, hclear⟩
    exact ⟨⟨ts, hs⟩, fun hw => (urlDecode_eq_decode_iff hs hw).mpr (hclear hw)⟩

/-- `"%"`. -/
theorem urlDecode_not_right : ¬ ∀ sIn, DecodesRight sIn := by
  intro h
  exact absurd (h [percent]).1 (by decide)

/-- `"%0a"` is taken for `"*"`. -/
example : urlDecode [percent, 48, 97] = some [42] := by decide

/-! ## Decoding what was encoded here -/

theorem urlEncode_eq (sIn : List UInt8) : urlEncode sIn = encode isAlnum sIn := by
  have hall : ∀ i : Fin 256, (urlBuf (UInt8.ofNat i)).takeWhile (· ≠ 0) =
      encodeByte isAlnum (UInt8.ofNat i) := by
    decide +kernel
  have hbyte : ∀ c, (urlBuf c).takeWhile (· ≠ 0) = encodeByte isAlnum c := by
    intro c
    have hspec := hall ⟨c.toNat, c.toNat_lt⟩
    simp only [UInt8.ofNat_toNat] at hspec
    exact hspec
  unfold urlEncode encode
  simp only [hbyte]
  rw [← List.flatMap_eq_foldl]

/--
**URL coding can be undone.** What `URLEncode` puts out are letters, digits and `'%'` with two
digits in upper case, and `URLDecode` gives back what was put in.
-/
theorem urlDecode_urlEncode (s : List UInt8) :
    urlDecode (urlEncode s) = some s ∧ Coded isAlnum (urlEncode s) := by
  have hcoded := coded_encode isAlnum s
  have hdecode : decode (encode isAlnum s) = some s := decode_encode rfl rfl s
  obtain ⟨ts, hts, hupper⟩ := hcoded.tokens rfl
  have hw : WellCoded (encode isAlnum s) := by
    rw [← decode_isSome_iff, hdecode]
    rfl
  rw [urlEncode_eq]
  refine ⟨((urlDecode_eq_decode_iff hts hw).mpr fun h l ht hlower => ?_).trans hdecode, hcoded⟩
  rcases hupper h l ht with hdigit | hletter
  · exact absurd (Nat.le_trans hlower.1 hdigit.2) (by decide)
  · exact absurd (Nat.le_trans hlower.1 hletter.2) (by decide)

end

end CppTrack.Util
