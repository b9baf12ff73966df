import CppTrack.Proto.DnsAnswers

/-!
# Responses that are read as they are meant

`dns_parse_response` takes every owner for two bytes, and steps over the data of two types of
answers only. Where that keeps it in step with the answers, the names of the addresses have to be
read right besides, and all others have to come to an end; then it extracts what the response says
(`Plain`). Elsewhere the walk has left the answers, or has looked for a name where it is not, and if
the list is right nevertheless, that is by accident.
-/

namespace CppTrack.Dns

open Lib

/-- What is written at `ptr` comes to an end within 128 bytes of text. -/
def Legible (chunk : List UInt8) (ptr : Nat) : Prop :=
  ∃ s, Spells chunk ptr s ∧ s.length ≤ nameSize

/-- Every owner is a pointer alone, and of the last answer only the data may be of another type. -/
def Steady : List WireRecord → Prop
  | [] => True
  | r :: rs =>
      (∃ off, r.owner.labels = [] ∧ r.owner.ending = .pointer off) ∧
      (r.type.toNat = dnsCname ∨ r.type.toNat = dnsHost ∨ r.rdata = [] ∨ rs = []) ∧ Steady rs

/-- The owner of a record with an address is plain, and has no zero byte in it. The other names are
not kept, so it is enough that their bytes come to an end. -/
def PlainNames (chunk : List UInt8) : (ptr : Nat) → List WireRecord → Prop
  | _, [] => True
  | ptr, r :: rs =>
      (r.IsHost → ∃ ls, PlainAt chunk ptr ls ∧ ∀ l ∈ ls, 0 ∉ l) ∧
      (¬ r.IsHost → Legible chunk ptr) ∧
      (r.type.toNat = dnsCname → Legible chunk (ptr + 12)) ∧
      PlainNames chunk (ptr + r.bytes.length) rs

/-- The owners of the records with an address are near. -/
def NearOwners (chunk : List UInt8) : (ptr : Nat) → List WireRecord → Prop
  | _, [] => True
  | ptr, r :: rs =>
      (r.IsHost → ∃ ls, NearAt chunk ptr ls) ∧ NearOwners chunk (ptr + r.bytes.length) rs

namespace Response

/-- `dns_parse_response` looks for every answer where it is. -/
def InStep (r : Response) : Prop :=
  (∀ q ∈ r.questions, q.qname.ending = .root) ∧ Steady r.answers

/-- The names it returns are not behind pointers whose upper half it would need. -/
def Near (r : Response) : Prop := NearOwners r.bytes r.answersAt r.answers

def Plain (r : Response) : Prop :=
  r.InStep ∧ PlainNames r.bytes r.answersAt r.answers

end Response

/-! ## Questions -/

section

variable {chunk : List UInt8}

/-- The loop over a question's name comes out behind it. -/
theorem skips_encodeName (ls : List Label) (hok : ∀ l ∈ ls, l ≠ [] ∧ l.length ≤ 63)
    (pre post : List UInt8) (hchunk : chunk = pre ++ (encodeName ls ++ post)) :
    Skips chunk pre.length (pre.length + (encodeName ls).length) := by
  induction ls generalizing pre with
  | nil => exact .stop (getElem?_encodeName_nil hchunk)
  | cons l ls ih =>
      have hl := hok l List.mem_cons_self
      have hrest := ih (fun l hl => hok l (List.mem_cons_of_mem _ hl)) _ (encodeName_behind hchunk)
      have hend : pre.length + 1 + (UInt8.ofNat l.length).toNat + (encodeName ls).length =
          pre.length + (encodeName (l :: ls)).length := by
        rw [toNat_ofNat_length hl.2]
        simp only [encodeName, encodeLabels, List.flatMap_cons, List.length_append,
          List.length_cons]
        omega
      rw [length_behind hl.2, hend, Nat.add_assoc, Nat.add_comm 1] at hrest
      exact .step (getElem?_encodeName_cons hchunk) (ofNat_length_ne_zero hl) hrest

theorem questionsAt_bytes (qs : List WireQuestion) (hroot : ∀ q ∈ qs, q.qname.ending = .root)
    (pre post : List UInt8) (hchunk : chunk = pre ++ (qs.flatMap WireQuestion.bytes ++ post)) :
    QuestionsAt chunk qs.length pre.length
      (pre.length + (qs.flatMap WireQuestion.bytes).length) := by
  induction qs generalizing pre with
  | nil => exact .nil
  | cons q qs ih =>
      have hname : q.qname.bytes = encodeName q.qname.labels := by
        rw [WireName.bytes, hroot q List.mem_cons_self]
        rfl
      have hfirst : chunk = pre ++ (encodeName q.qname.labels ++
          ((toBigEndian 2 q.qtype.toNat ++ toBigEndian 2 q.qclass.toNat) ++
            (qs.flatMap WireQuestion.bytes ++ post))) := by
        rw [hchunk, List.flatMap_cons, WireQuestion.bytes, hname]
        simp only [List.append_assoc]
      have hskip := skips_encodeName q.qname.labels q.qname.ok pre _ hfirst
      have hothers : chunk = (pre ++ q.bytes) ++ (qs.flatMap WireQuestion.bytes ++ post) := by
        rw [hchunk, List.flatMap_cons]
        simp only [List.append_assoc]
      have hrest := ih (fun q hq => hroot q (List.mem_cons_of_mem _ hq)) _ hothers
      have hlen : q.bytes.length = (encodeName q.qname.labels).length + 4 := by
        rw [WireQuestion.bytes, hname, List.length_append, List.length_append, length_toBigEndian,
          length_toBigEndian]
      rw [List.length_append, hlen, ← Nat.add_assoc] at hrest
      have hall := QuestionsAt.cons hskip hrest
      have hend : pre.length + ((q :: qs).flatMap WireQuestion.bytes).length =
          pre.length + (encodeName q.qname.labels).length + 4 +
            (qs.flatMap WireQuestion.bytes).length := by
        rw [List.flatMap_cons, List.length_append, hlen]
        omega
      rw [hend]
      exact hall

end

/-! ## Answers -/

section

variable {chunk pre post : List UInt8}

/-- A number, read where it was written. -/
theorem short_written {n : Nat} (hn : n < 2 ^ 16)
    (hchunk : chunk = pre ++ (toBigEndian 2 n ++ post)) : short chunk pre.length = n := by
  rw [short, hchunk, List.drop_left, List.take_left' (length_toBigEndian 2 n),
    bigEndian_toBigEndian]
  exact Nat.mod_eq_of_lt hn

/-- A record at `ptr` whose owner takes two bytes. -/
structure RecordAt (chunk : List UInt8) (ptr : Nat) (r : WireRecord) : Prop where
  type : short chunk (ptr + 2) = r.type.toNat
  datalen : short chunk (ptr + 10) = r.rdata.length
  whole : ptr + 12 + r.rdata.length ≤ chunk.length
  rdata : (chunk.drop (ptr + 12)).take r.rdata.length = r.rdata
  size : r.bytes.length = 12 + r.rdata.length

theorem recordAt_bytes (r : WireRecord) (howner : r.owner.bytes.length = 2)
    (hchunk : chunk = pre ++ (r.bytes ++ post)) : RecordAt chunk pre.length r := by
  have hsize : r.bytes.length = 12 + r.rdata.length := by
    simp only [WireRecord.bytes, WireRecord.fixed, List.length_append, howner, length_toBigEndian]
    omega
  have hbefore : chunk = (pre ++ r.owner.bytes) ++ (toBigEndian 2 r.type.toNat ++
      (toBigEndian 2 r.cls.toNat ++ (toBigEndian 4 r.ttl.toNat ++
        (toBigEndian 2 r.rdata.length ++ (r.rdata ++ post))))) := by
    rw [hchunk, WireRecord.bytes, WireRecord.fixed]
    simp only [List.append_assoc]
  have hmiddle : chunk = (pre ++ (r.owner.bytes ++ (toBigEndian 2 r.type.toNat ++
      (toBigEndian 2 r.cls.toNat ++ toBigEndian 4 r.ttl.toNat)))) ++
        (toBigEndian 2 r.rdata.length ++ (r.rdata ++ post)) := by
    rw [hbefore]
    simp only [List.append_assoc]
  have htype := short_written r.type.toNat_lt hbefore
  have hlen := short_written r.short hmiddle
  have hpart : (pre ++ (r.owner.bytes ++ r.fixed)).length = pre.length + 12 := by
    simp only [WireRecord.fixed, List.length_append, howner, length_toBigEndian]
  have hdata : chunk = (pre ++ (r.owner.bytes ++ r.fixed)) ++ (r.rdata ++ post) := by
    rw [hchunk, WireRecord.bytes]
    simp only [List.append_assoc]
  simp only [List.length_append, howner, length_toBigEndian] at htype hlen
  refine ⟨htype, hlen, ?_, ?_, hsize⟩
  · rw [hchunk, List.length_append, List.length_append, hsize]
    omega
  · rw [hdata, List.drop_left' hpart, List.take_left]

/-- A pointer takes two bytes. -/
theorem WireName.length_bytes_pointer {n : WireName} {off : Fin (2 ^ 14)} (hlabels : n.labels = [])
    (hending : n.ending = .pointer off) : n.bytes.length = 2 := by
  rw [WireName.bytes, hlabels, hending]
  rfl

theorem Legible.shortName {ptr : Nat} (h : Legible chunk ptr) : ∃ s, ShortName chunk ptr s := by
  obtain ⟨s, hs, hle⟩ := h
  exact ⟨s, nameAt_iff_spells.mpr hs, hle⟩

/-- One turn of the loop reads an answer whose names come to an end. -/
theorem readAnswer_record {ptr : Nat} {r : WireRecord} {s : List UInt8} (hat : RecordAt chunk ptr r)
    (hs : ShortName chunk ptr s) (hhost : r.IsHost → s.length < nameSize)
    (hcname : r.type.toNat = dnsCname → Legible chunk (ptr + 12)) :
    ∃ fuel, readAnswer fuel chunk ptr = .ok (itemAt chunk ptr s, nextAnswer chunk ptr) := by
  have hwhole := hat.whole
  refine readAnswer_of (by omega) hs ?_ ?_
  · intro htype hfour
    rw [hat.type] at htype
    rw [hat.datalen] at hfour
    exact ⟨by omega, .inl (hhost ⟨htype, hfour⟩)⟩
  · intro htype
    rw [hat.type] at htype
    exact (hcname htype).shortName

/-- The item of a record with an address. -/
theorem itemAt_host {ptr : Nat} {r : WireRecord} {s : List UInt8} (hat : RecordAt chunk ptr r)
    (hhost : r.IsHost) :
    itemAt chunk ptr s = some ⟨s.takeWhile (· ≠ 0), inetNtop r.rdata⟩ := by
  have hrdata := hat.rdata
  rw [hhost.2] at hrdata
  rw [itemAt, hat.type, hat.datalen, if_pos ⟨hhost.1, hhost.2⟩, hrdata]

theorem itemAt_other {ptr : Nat} {r : WireRecord} {s : List UInt8} (hat : RecordAt chunk ptr r)
    (hhost : ¬ r.IsHost) : itemAt chunk ptr s = none := by
  have hnot : ¬ (r.type.toNat = dnsHost ∧ r.rdata.length = 4) := hhost
  rw [itemAt, hat.type, hat.datalen, if_neg hnot]

/-- The answer behind one whose data is stepped over, or that has none. -/
theorem nextAnswer_record {ptr : Nat} {r : WireRecord} (hat : RecordAt chunk ptr r)
    (hdata : r.type.toNat = dnsCname ∨ r.type.toNat = dnsHost ∨ r.rdata = []) :
    nextAnswer chunk ptr = ptr + r.bytes.length := by
  rw [nextAnswer, hat.type, hat.datalen, hat.size, ← Nat.add_assoc]
  split
  · rfl
  · rename_i hnot
    have hnil : r.rdata = [] := by
      rcases hdata with h | h | h
      · exact absurd (Or.inl h) hnot
      · exact absurd (Or.inr h) hnot
      · exact h
    rw [hnil]
    rfl

/-- What one answer with plain names adds to the list. -/
theorem readAnswer_plain {ptr : Nat} {r : WireRecord} {rs : List WireRecord} {items : List DnsItem}
    (hat : RecordAt chunk ptr r) (hnamed : NamedAt chunk ptr)
    (hhost : r.IsHost → ∃ ls, PlainAt chunk ptr ls ∧ ∀ l ∈ ls, 0 ∉ l)
    (hother : ¬ r.IsHost → Legible chunk ptr)
    (hcname : r.type.toNat = dnsCname → Legible chunk (ptr + 12))
    (hitems : Extracts chunk (ptr + r.bytes.length) rs items) :
    ∃ item, Extracts chunk ptr (r :: rs) (item.toList ++ items) ∧
      ∃ fuel, readAnswer fuel chunk ptr = .ok (item, nextAnswer chunk ptr) := by
  by_cases h : r.IsHost
  · obtain ⟨ls, hls, hzero⟩ := hhost h
    obtain ⟨hshort, hlt⟩ := hls.shortName hnamed
    refine ⟨_, ?_, readAnswer_record hat hshort (fun _ => hlt) hcname⟩
    rw [itemAt_host hat h, takeWhile_dotted hzero]
    exact .host h hls.expands hitems
  · obtain ⟨s, hs⟩ := (hother h).shortName
    refine ⟨_, ?_, readAnswer_record hat hs (fun hr => absurd hr h) hcname⟩
    rw [itemAt_other hat h]
    exact .other h hitems

/-- The loop goes on behind the record, or is over. -/
theorem readAnswers_nextAnswer {fuel ptr : Nat} {r : WireRecord} {rs : List WireRecord}
    (hat : RecordAt chunk ptr r)
    (hdata : r.type.toNat = dnsCname ∨ r.type.toNat = dnsHost ∨ r.rdata = [] ∨ rs = []) :
    readAnswers fuel chunk rs.length (nextAnswer chunk ptr) =
      readAnswers fuel chunk rs.length (ptr + r.bytes.length) := by
  rcases hdata with h | h | h | h
  · rw [nextAnswer_record hat (.inl h)]
  · rw [nextAnswer_record hat (.inr (.inl h))]
  · rw [nextAnswer_record hat (.inr (.inr h))]
  · subst h
    rfl

/-- The records of a message, one at a time. -/
theorem steady_cons {r : WireRecord} {rs : List WireRecord} (h : Steady (r :: rs))
    (hchunk : chunk = pre ++ ((r :: rs).flatMap WireRecord.bytes ++ post)) :
    RecordAt chunk pre.length r ∧
      chunk = (pre ++ r.bytes) ++ (rs.flatMap WireRecord.bytes ++ post) ∧
      (pre ++ r.bytes).length = pre.length + r.bytes.length := by
  obtain ⟨⟨off, hlabels, hending⟩, -, -⟩ := h
  have hsplit : chunk = pre ++ (r.bytes ++ (rs.flatMap WireRecord.bytes ++ post)) := by
    rw [hchunk, List.flatMap_cons, List.append_assoc]
  refine ⟨recordAt_bytes r (WireName.length_bytes_pointer hlabels hending) hsplit, ?_,
    List.length_append⟩
  rw [hsplit, List.append_assoc]

/-- The loop over answers with plain names extracts what they say. -/
theorem readAnswers_plain (rs : List WireRecord) (pre : List UInt8)
    (hchunk : chunk = pre ++ (rs.flatMap WireRecord.bytes ++ post)) (hsteady : Steady rs)
    (hnames : NamesAt chunk pre.length rs) (hplain : PlainNames chunk pre.length rs) :
    ∃ items, Extracts chunk pre.length rs items ∧
      ∃ fuel, readAnswers fuel chunk rs.length pre.length = .ok items := by
  induction rs generalizing pre with
  | nil => exact ⟨[], .nil, 0, rfl⟩
  | cons r rs ih =>
      obtain ⟨hat, hchunk', hend⟩ := steady_cons hsteady hchunk
      obtain ⟨hnamed, -, hnames⟩ := hnames
      obtain ⟨hhost, hother, hcname, hplain⟩ := hplain
      obtain ⟨items, hitems, m, hm⟩ := ih (pre ++ r.bytes) hchunk' hsteady.2.2
        (hend ▸ hnames) (hend ▸ hplain)
      rw [hend] at hitems hm
      obtain ⟨item, hitem, n, hn⟩ := readAnswer_plain hat hnamed hhost hother hcname hitems
      -- the loop goes on where the rest begins
      rw [← readAnswers_nextAnswer hat hsteady.2.1] at hm
      have hn := Within.of_le (fun k => readAnswer_within k _) (Nat.le_max_left n m) _ hn
      have hm := Within.of_le (fun k => readAnswers_within k _ _) (Nat.le_max_right n m) _ hm
      refine ⟨_, hitem, max n m, ?_⟩
      simp only [List.length_cons, readAnswers, hn, hm, ok_bind]
      rfl

/-- What was read of an answer. -/
theorem readAnswer_eq_ok {fuel ptr : Nat} {item : Option DnsItem} {next : Nat}
    (h : readAnswer fuel chunk ptr = .ok (item, next)) :
    ∃ s, ShortName chunk ptr s ∧ item = itemAt chunk ptr s ∧ next = nextAnswer chunk ptr ∧
      (short chunk (ptr + 2) = dnsCname → Legible chunk (ptr + 12)) := by
  obtain ⟨hanswer, hnext⟩ := answerAt_of_readAnswer h
  obtain ⟨s, hs, hhost⟩ := hanswer.owner
  obtain ⟨n, hn⟩ := readAnswer_of hanswer.whole hs hhost hanswer.cname
  -- both calls return the same
  have h := Within.of_le (fun k => readAnswer_within k ptr) (Nat.le_max_left fuel n) _ h
  have hn := Within.of_le (fun k => readAnswer_within k ptr) (Nat.le_max_right fuel n) _ hn
  obtain ⟨rfl, -⟩ := Prod.mk.inj (Except.ok.inj (h.symm.trans hn))
  refine ⟨s, hs, rfl, hnext, fun htype => ?_⟩
  obtain ⟨s', hs', hle⟩ := hanswer.cname htype
  exact ⟨s', nameAt_iff_spells.mp hs', hle⟩

/-- If the loop extracts what near answers say, their names were plain. -/
theorem plainNames_of_readAnswers {fuel : Nat} (rs : List WireRecord) (pre : List UInt8)
    {items : List DnsItem} (hchunk : chunk = pre ++ (rs.flatMap WireRecord.bytes ++ post))
    (hsteady : Steady rs) (hnear : NearOwners chunk pre.length rs)
    (hitems : Extracts chunk pre.length rs items)
    (h : readAnswers fuel chunk rs.length pre.length = .ok items) :
    PlainNames chunk pre.length rs := by
  induction rs generalizing pre items with
  | nil => trivial
  | cons r rs ih =>
      obtain ⟨hat, hchunk', hend⟩ := steady_cons hsteady hchunk
      obtain ⟨⟨item, next⟩, hfirst, h⟩ := bind_eq_ok.mp h
      obtain ⟨s, hs, rfl, rfl, hcname⟩ := readAnswer_eq_ok hfirst
      obtain ⟨list, hlist, h⟩ := bind_eq_ok.mp h
      rw [hat.type] at hcname
      rw [readAnswers_nextAnswer hat hsteady.2.1, ← hend] at hlist
      have h : (itemAt chunk pre.length s).toList ++ list = items := Except.ok.inj h
      cases hitems with
      | @host _ _ _ ls items hhost hexpands hitems =>
          rw [itemAt_host hat hhost] at h
          obtain ⟨hitem, rfl⟩ := List.cons.inj h
          have hcut := (DnsItem.mk.inj hitem).1
          -- the owner's text up to a zero byte is that of its labels
          obtain ⟨ls', hls'⟩ := hnear.1 hhost
          obtain rfl := hls'.expands.unique hexpands
          refine ⟨fun _ => ⟨_, hls'.plain hs.1 hcut⟩, fun hnot => absurd hhost hnot, hcname, ?_⟩
          exact hend ▸ ih (pre ++ r.bytes) hchunk' hsteady.2.2 (hend ▸ hnear.2) (hend ▸ hitems)
            hlist
      | other hhost hitems =>
          rw [itemAt_other hat hhost] at h
          obtain rfl : list = items := h
          refine ⟨fun hyes => absurd hyes hhost,
            fun _ => ⟨s, nameAt_iff_spells.mp hs.1, hs.2⟩, hcname, ?_⟩
          exact hend ▸ ih (pre ++ r.bytes) hchunk' hsteady.2.2 (hend ▸ hnear.2) (hend ▸ hitems)
            hlist

end

/-! ## The whole response -/

theorem dnsParseResponse_within {buffer : List UInt8} (fuel : Nat) :
    Within (dnsParseResponse fuel buffer) (dnsParseResponse (fuel + 1) buffer) := by
  rw [dnsParseResponse, dnsParseResponse]
  exact .bind (.refl _) fun querys => .bind (.refl _) fun answers =>
    .bind (skipQuestions_within fuel querys 12) fun ptr => readAnswers_within fuel answers ptr

/-- Where its questions end at the root, a response is read from its answers on. -/
theorem dnsParseResponse_eq (r : Response) (hroot : ∀ q ∈ r.questions, q.qname.ending = .root) :
    ∃ n, ∀ fuel, n ≤ fuel →
      dnsParseResponse fuel r.bytes = readAnswers fuel r.bytes r.answers.length r.answersAt := by
  have hheader : r.header.bytes.length = 12 := rfl
  have hparts : r.bytes = r.header.bytes ++ (r.questions.flatMap WireQuestion.bytes ++
      (r.answers.flatMap WireRecord.bytes ++ r.rest)) := rfl
  have hquestions := questionsAt_bytes r.questions hroot _ _ hparts
  obtain ⟨n, hn⟩ := skipQuestions_ok_iff.mpr hquestions
  -- the two numbers in the header
  have hlen : 12 ≤ r.bytes.length := by
    rw [Response.bytes, List.length_append, hheader]
    omega
  have hquerys : short r.bytes 4 = r.questions.length := by
    have hsplit : r.bytes = (toBigEndian 2 r.id.toNat ++ toBigEndian 2 r.flags.toNat) ++
        (toBigEndian 2 r.questions.length ++ r.bytes.drop 6) := rfl
    exact short_written r.questions_lt hsplit
  have hcount : short r.bytes 6 = r.answers.length := by
    have hsplit : r.bytes = (toBigEndian 2 r.id.toNat ++ toBigEndian 2 r.flags.toNat ++
        toBigEndian 2 r.questions.length) ++ (toBigEndian 2 r.answers.length ++ r.bytes.drop 8) :=
      rfl
    exact short_written r.answers_lt hsplit
  have hfirst := readShort_eq_ok.mpr ⟨by omega, hquerys.symm⟩
  have hsecond := readShort_eq_ok.mpr ⟨by omega, hcount.symm⟩
  refine ⟨n, fun fuel hle => ?_⟩
  have hskip := Within.of_le (fun k => skipQuestions_within k _ _) hle _ hn
  rw [dnsParseResponse, hfirst, ok_bind, hsecond, ok_bind]
  exact congrArg (· >>= _) hskip

theorem Response.bytes_answers (r : Response) :
    r.bytes = (r.header.bytes ++ r.questions.flatMap WireQuestion.bytes) ++
      (r.answers.flatMap WireRecord.bytes ++ r.rest) := by
  rw [Response.bytes, List.append_assoc]

theorem Response.length_before_answers (r : Response) :
    (r.header.bytes ++ r.questions.flatMap WireQuestion.bytes).length = r.answersAt :=
  List.length_append

/--
`dns_parse_response` extracts what a response says, if every owner is a pointer alone, the data of
every answer but the last is that of a type it steps over, and the names it returns need no more
than what `dns_parse_name` knows of them. While it looks for the answers where they are and the
names it returns are near, it does so only then.
-/
theorem faithful_of_plain (r : Response) (hwf : r.WellFormed) :
    (r.Plain → r.Faithful) ∧ (r.InStep → r.Near → r.Faithful → r.Plain) := by
  have hat := r.length_before_answers
  constructor
  · intro ⟨hstep, hplain⟩
    obtain ⟨items, hitems, m, hm⟩ := readAnswers_plain r.answers _ r.bytes_answers hstep.2
      (hat ▸ hwf) (hat ▸ hplain)
    rw [hat] at hitems hm
    obtain ⟨n, hn⟩ := dnsParseResponse_eq r hstep.1
    refine ⟨items, hitems, max n m, (hn _ (Nat.le_max_left n m)).trans ?_⟩
    exact Within.of_le (fun k => readAnswers_within k _ _) (Nat.le_max_right n m) _ hm
  · intro hstep hnear ⟨items, hitems, fuel, hfuel⟩
    obtain ⟨n, hn⟩ := dnsParseResponse_eq r hstep.1
    have hread :=
      Within.of_le (fun k => dnsParseResponse_within k) (Nat.le_max_right n fuel) _ hfuel
    rw [hn _ (Nat.le_max_left n fuel), ← hat] at hread
    refine ⟨hstep, hat ▸ ?_⟩
    exact plainNames_of_readAnswers r.answers _ r.bytes_answers hstep.2 (hat ▸ hnear)
      (hat ▸ hitems) hread

/-! ## One address -/

/-- The name `a`, written out. -/
def hostA : WireName where
  labels := [[97]]
  ending := .root
  ok := by decide

/-- A pointer to the first question's name. -/
def toQuestion : WireName where
  labels := []
  ending := .pointer 12
  ok := by decide

/-- The answer to a question for the address of `a`. -/
def loopback (owner : WireName) : Response where
  id := 0
  flags := 0x8180
  questions := [⟨hostA, 1, 1⟩]
  answers := [⟨owner, 1, 1, 60, [127, 0, 0, 1], by decide⟩]
  nscount := 0
  arcount := 0
  rest := []
  questions_lt := Nat.one_lt_two_pow (by decide)
  answers_lt := Nat.one_lt_two_pow (by decide)

/-- With a pointer for its owner, the address is found. -/
theorem faithful_of_plain_loopback : (loopback toQuestion).Faithful := by
  have hname : PlainAt (loopback toQuestion).bytes 12 [[97]] :=
    .label rfl (by decide) (by decide) rfl rfl (.inl rfl) (.root rfl)
  have howner : PlainAt (loopback toQuestion).bytes 19 [[97]] := .pointer rfl rfl rfl hname
  have hanswers : PlainNames (loopback toQuestion).bytes 19 (loopback toQuestion).answers :=
    ⟨fun _ => ⟨_, howner, by decide⟩, fun h => absurd ⟨rfl, rfl⟩ h, nofun, trivial⟩
  have hsteady : Steady (loopback toQuestion).answers :=
    ⟨⟨12, rfl, rfl⟩, .inr (.inl rfl), trivial⟩
  have hwf : (loopback toQuestion).WellFormed :=
    ⟨⟨_, howner.expands, by decide⟩, nofun, trivial⟩
  refine (faithful_of_plain _ hwf).1 ⟨⟨fun q hq => ?_, hsteady⟩, hanswers⟩
  rw [List.mem_singleton.mp hq]
  rfl

/-- With its owner written out, it is not. -/
theorem loopback_unfaithful : ¬ ∀ r : Response, r.WellFormed → r.Faithful := by
  intro hall
  have howner : Expands (loopback hostA).bytes 19 [[97]] :=
    .label rfl (by decide) (by decide) rfl (.root rfl)
  obtain ⟨items, hitems, fuel, hfuel⟩ :=
    hall (loopback hostA) ⟨⟨_, howner, by decide⟩, nofun, trivial⟩
  -- the bytes where the type is looked for are the end of the name and half of the type
  have hread : dnsParseResponse 3 (loopback hostA).bytes = .ok [] := by decide +kernel
  have hfuel := Within.of_le (fun k => dnsParseResponse_within k) (Nat.le_max_left fuel 3) _ hfuel
  have hread := Within.of_le (fun k => dnsParseResponse_within k) (Nat.le_max_right fuel 3) _ hread
  obtain rfl := Except.ok.inj (hfuel.symm.trans hread)
  cases hitems with
  | other hhost => exact hhost ⟨rfl, rfl⟩

end CppTrack.Dns
