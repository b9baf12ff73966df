import CppTrack.Proto.DnsName

/-!
# Reading a DNS response (`async_dns_client_noblock.c`)

`dns_parse_response` walks over the questions and the answers of a message and keeps the name and
the address of each answer that holds one. It is given no length: every read is of the message as
it came, and one behind its end is `outOfBounds` here, like a write behind the 128 bytes of a name.

Which messages it can read at all is said on the message alone: there has to be a name wherever the
walk looks for one, and so on (`Readable`).
-/

namespace CppTrack.Dns

open Lib

def dnsHost : Nat := 0x01
def dnsCname : Nat := 0x05

/-- `char cname[128], aname[128]`. -/
def nameSize : Nat := 128

/-- `struct dns_item`. -/
structure DnsItem where
  domain : List UInt8
  ip : String
  deriving DecidableEq

/-- `ntohs(*(unsigned short*)ptr)`. -/
def readShort (buffer : List UInt8) (ptr : Nat) : Except Trap Nat := do
  let bytes ← inBounds (copyOut buffer ptr 2)
  return bigEndian bytes

/-- `inet_ntop` of four bytes. -/
def inetNtop (netip : List UInt8) : String :=
  String.intercalate "." (netip.map fun b => toString b.toNat)

/-- The string in a buffer, up to its first zero byte. -/
def cString (buffer : List UInt8) : Option (List UInt8) :=
  if 0 ∈ buffer then some (buffer.takeWhile (· ≠ 0)) else none

/-- The `while` loop over the name of a question. -/
def skipName (buffer : List UInt8) : (fuel : Nat) → (ptr : Nat) → Except Trap Nat
  | 0, _ => .error .outOfFuel
  | fuel + 1, ptr => do
      let flag ← inBounds buffer[ptr]?
      let ptr := ptr + (flag.toNat + 1)
      if flag = 0 then return ptr else skipName buffer fuel ptr

/-- The `for` loop over the questions. -/
def skipQuestions (fuel : Nat) (buffer : List UInt8) : (querys : Nat) → (ptr : Nat) →
    Except Trap Nat
  | 0, ptr => .ok ptr
  | querys + 1, ptr => do
      let ptr ← skipName buffer fuel ptr
      skipQuestions fuel buffer querys (ptr + 4)

/-- One turn of the loop over the answers: the item it adds, if any, and the new `ptr`. -/
def readAnswer (fuel : Nat) (buffer : List UInt8) (ptr : Nat) :
    Except Trap (Option DnsItem × Nat) := do
  let (aname, _) ← dnsParseName fuel buffer ptr (List.replicate nameSize 0) 0
  let ptr := ptr + 2
  let type ← readShort buffer ptr
  let ptr := ptr + 4
  let _ttl ← readShort buffer ptr
  let ptr := ptr + 4
  let datalen ← readShort buffer ptr
  let ptr := ptr + 2
  if type = dnsCname then
    let _ ← dnsParseName fuel buffer ptr (List.replicate nameSize 0) 0
    return (none, ptr + datalen)
  else if type = dnsHost then
    if datalen = 4 then
      let netip ← inBounds (copyOut buffer ptr datalen)
      let domain ← inBounds (cString aname)
      return (some ⟨domain, inetNtop netip⟩, ptr + datalen)
    else return (none, ptr + datalen)
  else return (none, ptr)

/-- The `for` loop over the answers. -/
def readAnswers (fuel : Nat) (buffer : List UInt8) : (answers : Nat) → (ptr : Nat) →
    Except Trap (List DnsItem)
  | 0, _ => .ok []
  | answers + 1, ptr => do
      let (item, ptr) ← readAnswer fuel buffer ptr
      let list ← readAnswers fuel buffer answers ptr
      return item.toList ++ list

/-- `dns_parse_response`, where `calloc` does not fail. -/
def dnsParseResponse (fuel : Nat) (buffer : List UInt8) : Except Trap (List DnsItem) := do
  let querys ← readShort buffer 4
  let answers ← readShort buffer 6
  let ptr ← skipQuestions fuel buffer querys 12
  readAnswers fuel buffer answers ptr

/-- The call returns, having read inside the message and written inside the buffers. -/
def Safe (buffer : List UInt8) : Prop := ∃ fuel list, dnsParseResponse fuel buffer = .ok list

/-! ## The messages it can read -/

/-- The number in the two bytes at `ptr`. -/
def short (buffer : List UInt8) (ptr : Nat) : Nat := bigEndian ((buffer.drop ptr).take 2)

/-- From `ptr` on there are bytes of which each says how far behind it the next one is, the last
being zero; `ptr'` is behind it. -/
inductive Skips (buffer : List UInt8) : (ptr ptr' : Nat) → Prop where
  | stop {ptr : Nat} : buffer[ptr]? = some 0 → Skips buffer ptr (ptr + 1)
  | step {ptr ptr' : Nat} {flag : UInt8} : buffer[ptr]? = some flag → flag ≠ 0 →
      Skips buffer (ptr + (flag.toNat + 1)) ptr' → Skips buffer ptr ptr'

/-- That many questions, from `ptr` to `ptr'`. -/
inductive QuestionsAt (buffer : List UInt8) : (querys ptr ptr' : Nat) → Prop where
  | nil {ptr : Nat} : QuestionsAt buffer 0 ptr ptr
  | cons {querys ptr mid ptr' : Nat} : Skips buffer ptr mid →
      QuestionsAt buffer querys (mid + 4) ptr' → QuestionsAt buffer (querys + 1) ptr ptr'

/-- A name that fits the buffer for one. -/
def ShortName (buffer : List UInt8) (ptr : Nat) (s : List UInt8) : Prop :=
  NameAt buffer ptr s ∧ s.length ≤ nameSize

/-- An answer at `ptr`, its fixed part two bytes behind `ptr` whatever its name is. -/
structure AnswerAt (buffer : List UInt8) (ptr : Nat) : Prop where
  whole : ptr + 12 ≤ buffer.length
  owner : ∃ s, ShortName buffer ptr s ∧
    (short buffer (ptr + 2) = dnsHost → short buffer (ptr + 10) = 4 →
      ptr + 16 ≤ buffer.length ∧ (s.length < nameSize ∨ 0 ∈ s))
  cname : short buffer (ptr + 2) = dnsCname → ∃ s, ShortName buffer (ptr + 12) s

/-- Where the next answer is looked for. -/
def nextAnswer (buffer : List UInt8) (ptr : Nat) : Nat :=
  if short buffer (ptr + 2) = dnsCname ∨ short buffer (ptr + 2) = dnsHost then
    ptr + 12 + short buffer (ptr + 10)
  else ptr + 12

def AnswersAt (buffer : List UInt8) : (answers ptr : Nat) → Prop
  | 0, _ => True
  | answers + 1, ptr =>
      AnswerAt buffer ptr ∧ AnswersAt buffer answers (nextAnswer buffer ptr)

/-- The messages that can be read to the end. -/
def Readable (buffer : List UInt8) : Prop :=
  8 ≤ buffer.length ∧ ∃ ptr, QuestionsAt buffer (short buffer 4) 12 ptr ∧
    AnswersAt buffer (short buffer 6) ptr

section

variable {buffer : List UInt8} {fuel querys answers ptr ptr' : Nat}

/-! ## The questions -/

theorem readShort_eq_ok {n : Nat} :
    readShort buffer ptr = .ok n ↔ ptr + 2 ≤ buffer.length ∧ n = short buffer ptr := by
  rw [readShort, copyOut]
  split
  · rename_i hle
    rw [and_iff_right hle, eq_comm (a := n)]
    exact ⟨Except.ok.inj, congrArg Except.ok⟩
  · rename_i hle
    exact iff_of_false (by simp [inBounds]) fun h => hle h.1

theorem skipName_within (fuel ptr : Nat) :
    Within (skipName buffer fuel ptr) (skipName buffer (fuel + 1) ptr) := by
  induction fuel generalizing ptr with
  | zero => exact fun _ h => absurd h nofun
  | succ fuel ih =>
      rw [skipName, skipName]
      exact .bind (.refl _) fun flag => .ite (.refl _) (ih _)

theorem skipName_ok_iff :
    (∃ fuel, skipName buffer fuel ptr = .ok ptr') ↔ Skips buffer ptr ptr' := by
  constructor
  · intro ⟨fuel, h⟩
    induction fuel generalizing ptr with
    | zero => exact absurd h nofun
    | succ fuel ih =>
        rw [skipName] at h
        obtain ⟨flag, hflag, h⟩ := bind_eq_ok.mp h
        rw [inBounds_eq_ok] at hflag
        split at h
        · rename_i hzero
          subst hzero
          obtain rfl := Except.ok.inj h
          exact .stop hflag
        · rename_i hne
          exact .step hflag hne (ih h)
  · intro h
    induction h with
    | stop hflag =>
        refine ⟨1, ?_⟩
        rw [skipName, hflag]
        rfl
    | @step ptr ptr' flag hflag hne _ ih =>
        obtain ⟨fuel, hfuel⟩ := ih
        refine ⟨fuel + 1, ?_⟩
        rw [skipName, hflag, inBounds_some, ok_bind, if_neg hne]
        exact hfuel

theorem skipQuestions_within (fuel querys ptr : Nat) :
    Within (skipQuestions fuel buffer querys ptr) (skipQuestions (fuel + 1) buffer querys ptr) := by
  induction querys generalizing ptr with
  | zero => exact .refl _
  | succ querys ih => exact .bind (skipName_within fuel ptr) fun ptr => ih _

theorem skipQuestions_ok_iff :
    (∃ fuel, skipQuestions fuel buffer querys ptr = .ok ptr') ↔
      QuestionsAt buffer querys ptr ptr' := by
  constructor
  · intro ⟨fuel, h⟩
    induction querys generalizing ptr with
    | zero =>
        obtain rfl := Except.ok.inj h
        exact .nil
    | succ querys ih =>
        obtain ⟨mid, hmid, h⟩ := bind_eq_ok.mp h
        exact .cons (skipName_ok_iff.mp ⟨fuel, hmid⟩) (ih h)
  · intro h
    induction h with
    | nil => exact ⟨0, rfl⟩
    | @cons querys ptr mid ptr' hskip _ ih =>
        obtain ⟨n, hn⟩ := skipName_ok_iff.mpr hskip
        obtain ⟨m, hm⟩ := ih
        -- the larger of the two bounds is enough for both
        refine ⟨max n m, bind_eq_ok.mpr ⟨mid, ?_, ?_⟩⟩
        · exact Within.of_le (fun k => skipName_within k ptr) (Nat.le_max_left n m) _ hn
        · exact Within.of_le (fun k => skipQuestions_within k querys (mid + 4))
            (Nat.le_max_right n m) _ hm

/-! ## The answers -/

/-- What is left in a name's buffer. -/
theorem copyTo_name {s out : List UInt8} :
    copyTo (List.replicate nameSize 0) 0 s = some out ↔
      s.length ≤ nameSize ∧ out = s ++ List.replicate (nameSize - s.length) 0 := by
  rw [copyTo, List.length_replicate, Nat.zero_add, List.drop_replicate]
  split
  · rename_i hle
    rw [and_iff_right hle, eq_comm (a := out)]
    exact Option.some_inj
  · rename_i hle
    exact iff_of_false (Option.some_ne_none _).symm fun h => hle h.1

/-- The name of an answer is a string if it leaves a zero byte in its buffer. -/
theorem cString_name (s : List UInt8) :
    cString (s ++ List.replicate (nameSize - s.length) 0) =
      if s.length < nameSize ∨ 0 ∈ s then some (s.takeWhile (· ≠ 0)) else none := by
  have hmem : 0 ∈ s ++ List.replicate (nameSize - s.length) (0 : UInt8) ↔
      s.length < nameSize ∨ 0 ∈ s := by
    rw [List.mem_append, List.mem_replicate, or_comm]
    refine or_congr_left ⟨fun h => ?_, fun h => ⟨?_, rfl⟩⟩ <;> omega
  have htake : (s ++ List.replicate (nameSize - s.length) (0 : UInt8)).takeWhile (· ≠ 0) =
      s.takeWhile (· ≠ 0) := by
    rw [List.takeWhile_append]
    split
    · rename_i hall
      rw [List.takeWhile_replicate, decide_eq_false (by simp)]
      simp only [Bool.false_eq_true, if_false, List.append_nil]
      exact ((List.takeWhile_prefix _).eq_of_length hall).symm
    · rfl
  rw [cString, htake]
  exact if_congr hmem rfl rfl

/-- The item an answer gives, when its owner is read as `s`. -/
def itemAt (buffer : List UInt8) (ptr : Nat) (s : List UInt8) : Option DnsItem :=
  if short buffer (ptr + 2) = dnsHost ∧ short buffer (ptr + 10) = 4 then
    some ⟨s.takeWhile (· ≠ 0), inetNtop ((buffer.drop (ptr + 12)).take 4)⟩
  else none

theorem readAnswer_within (fuel ptr : Nat) :
    Within (readAnswer fuel buffer ptr) (readAnswer (fuel + 1) buffer ptr) := by
  rw [readAnswer, readAnswer]
  refine .bind (parseFrom_within _ _ _ _ _) fun aname => .bind (.refl _) fun type =>
    .bind (.refl _) fun ttl => .bind (.refl _) fun datalen => .ite ?_ (.refl _)
  exact .bind (parseFrom_within _ _ _ _ _) fun cname => .refl _

theorem dnsParseName_of_le {out : List UInt8} {len n m : Nat} {r : List UInt8 × Nat} (hle : n ≤ m)
    (h : dnsParseName n buffer ptr out len = .ok r) : dnsParseName m buffer ptr out len = .ok r :=
  Within.of_le (fun k => parseFrom_within k ptr len out len) hle r h

/-- A name that fits is read into an empty buffer. -/
theorem dnsParseName_short {s : List UInt8} (h : ShortName buffer ptr s) :
    ∃ fuel, dnsParseName fuel buffer ptr (List.replicate nameSize 0) 0 =
      .ok (s ++ List.replicate (nameSize - s.length) 0, s.length) :=
  (dnsParseName_ok_iff (Nat.zero_le _)).mpr
    ⟨s, h.1, copyTo_name.mpr ⟨h.2, rfl⟩, (Nat.zero_add _).symm⟩

theorem shortName_of_dnsParseName {r : List UInt8 × Nat}
    (h : dnsParseName fuel buffer ptr (List.replicate nameSize 0) 0 = .ok r) :
    ∃ s, ShortName buffer ptr s ∧ r.1 = s ++ List.replicate (nameSize - s.length) 0 := by
  obtain ⟨s, hs, hout, -⟩ := (dnsParseName_ok_iff (Nat.zero_le _)).mp ⟨fuel, h⟩
  obtain ⟨hle, hr⟩ := copyTo_name.mp hout
  exact ⟨s, ⟨hs, hle⟩, hr⟩

/-- An answer that can be read, read. -/
theorem readAnswer_of {s : List UInt8} (hwhole : ptr + 12 ≤ buffer.length)
    (hs : ShortName buffer ptr s)
    (hhost : short buffer (ptr + 2) = dnsHost → short buffer (ptr + 10) = 4 →
      ptr + 16 ≤ buffer.length ∧ (s.length < nameSize ∨ 0 ∈ s))
    (hcname : short buffer (ptr + 2) = dnsCname → ∃ s, ShortName buffer (ptr + 12) s) :
    ∃ fuel, readAnswer fuel buffer ptr = .ok (itemAt buffer ptr s, nextAnswer buffer ptr) := by
  have hread : ∀ d, d ≤ 10 → readShort buffer (ptr + d) = .ok (short buffer (ptr + d)) :=
    fun d hd => readShort_eq_ok.mpr ⟨by omega, rfl⟩
  have htype := hread 2 (by decide)
  have httl := hread 6 (by decide)
  have hlen := hread 10 (Nat.le_refl _)
  obtain ⟨n, hn⟩ := dnsParseName_short hs
  by_cases hc : short buffer (ptr + 2) = dnsCname
  · have hnot : ¬ (short buffer (ptr + 2) = dnsHost ∧ short buffer (ptr + 10) = 4) := by
      intro h
      exact absurd (hc.symm.trans h.1) (by decide)
    obtain ⟨s', hs'⟩ := hcname hc
    obtain ⟨m, hm⟩ := dnsParseName_short hs'
    have hn := dnsParseName_of_le (Nat.le_max_left n m) hn
    have hm := dnsParseName_of_le (Nat.le_max_right n m) hm
    refine ⟨max n m, ?_⟩
    simp only [readAnswer, hn, htype, httl, hlen, ok_bind, if_pos hc, hm, itemAt, if_neg hnot,
      nextAnswer, if_pos (Or.inl hc)]
    rfl
  · refine ⟨n, ?_⟩
    by_cases hh : short buffer (ptr + 2) = dnsHost
    · have hnext : nextAnswer buffer ptr = ptr + 12 + short buffer (ptr + 10) := if_pos (.inr hh)
      by_cases hfour : short buffer (ptr + 10) = 4
      · obtain ⟨hend, hnul⟩ := hhost hh hfour
        have hip : copyOut buffer (ptr + 12) 4 = some ((buffer.drop (ptr + 12)).take 4) :=
          if_pos hend
        have hdomain : cString (s ++ List.replicate (nameSize - s.length) 0) =
            some (s.takeWhile (· ≠ 0)) := (cString_name s).trans (if_pos hnul)
        rw [hnext, itemAt, if_pos ⟨hh, hfour⟩]
        simp only [readAnswer, hn, htype, httl, hlen, ok_bind, if_neg hc, if_pos hh, hfour, if_true,
          hip, hdomain, inBounds_some]
        rfl
      · rw [hnext, itemAt, if_neg fun h => hfour h.2]
        simp only [readAnswer, hn, htype, httl, hlen, ok_bind, if_neg hc, if_pos hh, if_neg hfour]
        rfl
    · have hnext : nextAnswer buffer ptr = ptr + 12 := if_neg fun h => h.elim hc hh
      rw [hnext, itemAt, if_neg fun h => hh h.1]
      simp only [readAnswer, hn, htype, httl, hlen, ok_bind, if_neg hc, if_neg hh]
      rfl

/-- An answer that was read could be. -/
theorem answerAt_of_readAnswer {r : Option DnsItem × Nat}
    (h : readAnswer fuel buffer ptr = .ok r) :
    AnswerAt buffer ptr ∧ r.2 = nextAnswer buffer ptr := by
  rw [readAnswer] at h
  obtain ⟨⟨aname, alen⟩, haname, h⟩ := bind_eq_ok.mp h
  obtain ⟨type, htype, h⟩ := bind_eq_ok.mp h
  obtain ⟨ttl, httl, h⟩ := bind_eq_ok.mp h
  obtain ⟨datalen, hlen, h⟩ := bind_eq_ok.mp h
  obtain ⟨-, rfl⟩ := readShort_eq_ok.mp htype
  obtain ⟨hend, rfl⟩ := readShort_eq_ok.mp hlen
  obtain ⟨s, hs, hname⟩ := shortName_of_dnsParseName haname
  have hwhole : ptr + 12 ≤ buffer.length := hend
  split at h
  · rename_i hc
    obtain ⟨r', hr', h⟩ := bind_eq_ok.mp h
    obtain rfl := Except.ok.inj h
    obtain ⟨s', hs', -⟩ := shortName_of_dnsParseName hr'
    refine ⟨⟨hwhole, ⟨s, hs, fun hh _ => ?_⟩, fun _ => ⟨s', hs'⟩⟩, (if_pos (.inl hc)).symm⟩
    exact absurd (hc.symm.trans hh) (by decide)
  rename_i hc
  split at h
  · rename_i hh
    have hnext : nextAnswer buffer ptr = ptr + 12 + short buffer (ptr + 10) := if_pos (.inr hh)
    split at h
    · rename_i hfour
      obtain ⟨netip, hip, h⟩ := bind_eq_ok.mp h
      obtain ⟨domain, hdomain, h⟩ := bind_eq_ok.mp h
      obtain rfl := Except.ok.inj h
      rw [inBounds_eq_ok] at hip hdomain
      refine ⟨⟨hwhole, ⟨s, hs, fun _ hfour => ⟨?_, ?_⟩⟩, fun h => absurd h hc⟩, hnext.symm⟩
      · have hle := (Option.ite_none_right_eq_some.mp hip).1
        rw [show ptr + 2 + 4 + 4 = ptr + 10 from rfl, hfour] at hle
        exact hle
      · have hsome : cString aname = some domain := hdomain
        rw [show aname = _ from hname, cString_name] at hsome
        exact (Option.ite_none_right_eq_some.mp hsome).1
    · rename_i hfour
      obtain rfl := Except.ok.inj h
      exact ⟨⟨hwhole, ⟨s, hs, fun _ h => absurd h hfour⟩, fun h => absurd h hc⟩, hnext.symm⟩
  · rename_i hh
    obtain rfl := Except.ok.inj h
    exact ⟨⟨hwhole, ⟨s, hs, fun h _ => absurd h hh⟩, fun h => absurd h hc⟩,
      (if_neg fun h => h.elim hc hh).symm⟩

/-! ## The whole response -/

theorem readAnswers_within (fuel answers ptr : Nat) :
    Within (readAnswers fuel buffer answers ptr) (readAnswers (fuel + 1) buffer answers ptr) := by
  induction answers generalizing ptr with
  | zero => exact .refl _
  | succ answers ih =>
      rw [readAnswers, readAnswers]
      exact .bind (readAnswer_within fuel ptr) fun r => .bind (ih _) fun list => .refl _

theorem readAnswers_ok_iff :
    (∃ fuel list, readAnswers fuel buffer answers ptr = .ok list) ↔
      AnswersAt buffer answers ptr := by
  induction answers generalizing ptr with
  | zero => exact iff_of_true ⟨0, [], rfl⟩ trivial
  | succ answers ih =>
      constructor
      · intro ⟨fuel, list, h⟩
        rw [readAnswers] at h
        obtain ⟨⟨item, next⟩, hitem, h⟩ := bind_eq_ok.mp h
        obtain ⟨rest, hrest, -⟩ := bind_eq_ok.mp h
        obtain ⟨hanswer, rfl⟩ := answerAt_of_readAnswer hitem
        exact ⟨hanswer, ih.mp ⟨fuel, rest, hrest⟩⟩
      · intro ⟨hanswer, hrest⟩
        obtain ⟨s, hs, hhost⟩ := hanswer.owner
        obtain ⟨n, hn⟩ := readAnswer_of hanswer.whole hs hhost hanswer.cname
        obtain ⟨m, list, hm⟩ := ih.mpr hrest
        have hn := Within.of_le (fun k => readAnswer_within k ptr) (Nat.le_max_left n m) _ hn
        have hm := Within.of_le (fun k => readAnswers_within k answers _)
          (Nat.le_max_right n m) _ hm
        refine ⟨max n m, (itemAt buffer ptr s).toList ++ list, ?_⟩
        simp only [readAnswers, hn, hm, ok_bind]
        rfl

/--
`dns_parse_response` returns with every access in bounds, if and only if there are questions and
answers with names where it looks for them.
-/
theorem safe_iff (buffer : List UInt8) : Safe buffer ↔ Readable buffer := by
  constructor
  · intro ⟨fuel, list, h⟩
    rw [dnsParseResponse] at h
    obtain ⟨querys, hquerys, h⟩ := bind_eq_ok.mp h
    obtain ⟨answers, hanswers, h⟩ := bind_eq_ok.mp h
    obtain ⟨-, rfl⟩ := readShort_eq_ok.mp hquerys
    obtain ⟨hle, rfl⟩ := readShort_eq_ok.mp hanswers
    obtain ⟨ptr, hptr, hlist⟩ := bind_eq_ok.mp h
    exact ⟨hle, ptr, skipQuestions_ok_iff.mp ⟨fuel, hptr⟩,
      readAnswers_ok_iff.mp ⟨fuel, list, hlist⟩⟩
  · intro ⟨hle, ptr, hquestions, hanswers⟩
    obtain ⟨n, hn⟩ := skipQuestions_ok_iff.mpr hquestions
    obtain ⟨m, list, hm⟩ := readAnswers_ok_iff.mpr hanswers
    have hn := Within.of_le (fun k => skipQuestions_within k _ _) (Nat.le_max_left n m) _ hn
    have hm := Within.of_le (fun k => readAnswers_within k _ _) (Nat.le_max_right n m) _ hm
    have hquerys : readShort buffer 4 = .ok (short buffer 4) :=
      readShort_eq_ok.mpr ⟨by omega, rfl⟩
    have hcount : readShort buffer 6 = .ok (short buffer 6) := readShort_eq_ok.mpr ⟨hle, rfl⟩
    refine ⟨max n m, list, ?_⟩
    rw [dnsParseResponse, hquerys, ok_bind, hcount, ok_bind, hn, ok_bind, hm]

end

/-! ## A name that points to itself -/

/-- A header that announces one answer, and a name that is a pointer to its own place. -/
def pointerLoop : List UInt8 :=
  [0, 0, 0x80, 0, 0, 0, 0, 1, 0, 0, 0, 0, 0xC0, 12, 0, 1, 0, 1, 0, 0, 0, 0, 0, 4, 127, 0, 0, 1]

/-- However many calls it is given, `dns_parse_name` is back where it began. -/
theorem pointerLoop_parseFrom (fuel pos : Nat) (out : List UInt8) (len : Nat) :
    parseFrom pointerLoop fuel 12 pos out len = .error .outOfFuel := by
  induction fuel generalizing pos with
  | zero => rfl
  | succ fuel ih => exact ih len

theorem pointerLoop_unsafe : ¬ ∀ buffer, Safe buffer := by
  intro hall
  obtain ⟨fuel, list, h⟩ := hall pointerLoop
  rw [dnsParseResponse] at h
  obtain ⟨querys, hquerys, h⟩ := bind_eq_ok.mp h
  obtain ⟨answers, hanswers, h⟩ := bind_eq_ok.mp h
  obtain ⟨ptr, hptr, h⟩ := bind_eq_ok.mp h
  have hquerys : querys = 0 := (readShort_eq_ok.mp hquerys).2
  have hanswers : answers = 1 := (readShort_eq_ok.mp hanswers).2
  subst hquerys hanswers
  obtain rfl := Except.ok.inj hptr
  rw [readAnswers, readAnswer, dnsParseName, pointerLoop_parseFrom] at h
  exact absurd h nofun

end CppTrack.Dns
