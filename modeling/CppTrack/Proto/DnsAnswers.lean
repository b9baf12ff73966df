import Mathlib.Data.List.TakeWhile
import CppTrack.Proto.DnsRows

/-!
# What a DNS response says

A well-formed response by its parts: questions, then answers, each with a name that is a row of
labels and ends at the root or in a pointer. `Expands` is what a name stands for, `Extracts` the
addresses that the answers give.

`dns_parse_name` takes only the low byte of a pointer, and puts a dot between a label and a pointer
that is the rest of the name, even if that is to the root. A name where neither matters is plain; a
near one may still have a dot at its end.
-/

namespace CppTrack.Dns

open Lib

/-! ## Responses -/

/-- How a row of labels ends. -/
inductive Ending where
  | root
  | pointer (off : Fin (2 ^ 14))

def Ending.bytes : Ending → List UInt8
  | .root => [0]
  | .pointer off => [UInt8.ofNat (0xC0 + off / 256), UInt8.ofNat (off % 256)]

/-- A name as it is written. -/
structure WireName where
  labels : List Label
  ending : Ending
  ok : ∀ l ∈ labels, l ≠ [] ∧ l.length ≤ 63

def WireName.bytes (n : WireName) : List UInt8 := encodeLabels n.labels ++ n.ending.bytes

structure WireQuestion where
  qname : WireName
  qtype : UInt16
  qclass : UInt16

def WireQuestion.bytes (q : WireQuestion) : List UInt8 :=
  q.qname.bytes ++ (toBigEndian 2 q.qtype.toNat ++ toBigEndian 2 q.qclass.toNat)

/-- A resource record. -/
structure WireRecord where
  owner : WireName
  type : UInt16
  cls : UInt16
  ttl : UInt32
  rdata : List UInt8
  short : rdata.length < 2 ^ 16

namespace WireRecord

/-- The part of fixed length behind the owner. -/
def fixed (r : WireRecord) : List UInt8 :=
  toBigEndian 2 r.type.toNat ++ (toBigEndian 2 r.cls.toNat ++
    (toBigEndian 4 r.ttl.toNat ++ toBigEndian 2 r.rdata.length))

def bytes (r : WireRecord) : List UInt8 := r.owner.bytes ++ (r.fixed ++ r.rdata)

/-- A record with an address in it. -/
def IsHost (r : WireRecord) : Prop := r.type.toNat = dnsHost ∧ r.rdata.length = 4

end WireRecord

structure Response where
  id : UInt16
  flags : UInt16
  questions : List WireQuestion
  answers : List WireRecord
  nscount : UInt16
  arcount : UInt16
  /-- The sections behind the answers. -/
  rest : List UInt8
  questions_lt : questions.length < 2 ^ 16
  answers_lt : answers.length < 2 ^ 16

namespace Response

def header (r : Response) : Header :=
  { id := r.id.toNat, flags := r.flags.toNat, qdcount := r.questions.length,
    ancount := r.answers.length, nscount := r.nscount.toNat, arcount := r.arcount.toNat }

def bytes (r : Response) : List UInt8 :=
  r.header.bytes ++ (r.questions.flatMap WireQuestion.bytes ++
    (r.answers.flatMap WireRecord.bytes ++ r.rest))

/-- Where the answers begin. -/
def answersAt (r : Response) : Nat := 12 + (r.questions.flatMap WireQuestion.bytes).length

end Response

/-! ## What a response says -/

/-- The labels of the name at `ptr`, through pointers of fourteen bits. -/
inductive Expands (chunk : List UInt8) : Nat → List Label → Prop where
  | root {ptr : Nat} : chunk[ptr]? = some 0 → Expands chunk ptr []
  | label {ptr : Nat} {flag : UInt8} {l : Label} {ls : List Label} :
      chunk[ptr]? = some flag → flag ≠ 0 → flag.toNat ≤ 63 →
      copyOut chunk (ptr + 1) flag.toNat = some l → Expands chunk (ptr + 1 + flag.toNat) ls →
      Expands chunk ptr (l :: ls)
  | pointer {ptr : Nat} {flag n : UInt8} {ls : List Label} :
      chunk[ptr]? = some flag → 0xC0 ≤ flag.toNat → chunk[ptr + 1]? = some n →
      Expands chunk ((flag.toNat - 0xC0) * 256 + n.toNat) ls → Expands chunk ptr ls

/-- A name that stands for labels whose text is shorter than 128 bytes. -/
def NamedAt (chunk : List UInt8) (ptr : Nat) : Prop :=
  ∃ ls, Expands chunk ptr ls ∧ (dotted ls).length < nameSize

/-- The names of records from `ptr` on. -/
def NamesAt (chunk : List UInt8) : (ptr : Nat) → List WireRecord → Prop
  | _, [] => True
  | ptr, r :: rs =>
      NamedAt chunk ptr ∧
      (r.type.toNat = dnsCname → (∃ n : WireName, r.rdata = n.bytes) ∧
        NamedAt chunk (ptr + r.owner.bytes.length + 10)) ∧
      NamesAt chunk (ptr + r.bytes.length) rs

/-- The addresses that records from `ptr` on give, in order. -/
inductive Extracts (chunk : List UInt8) : (ptr : Nat) → List WireRecord → List DnsItem → Prop where
  | nil {ptr : Nat} : Extracts chunk ptr [] []
  | host {ptr : Nat} {r : WireRecord} {rs : List WireRecord} {ls : List Label}
      {items : List DnsItem} : r.IsHost → Expands chunk ptr ls →
      Extracts chunk (ptr + r.bytes.length) rs items →
      Extracts chunk ptr (r :: rs) (⟨dotted ls, inetNtop r.rdata⟩ :: items)
  | other {ptr : Nat} {r : WireRecord} {rs : List WireRecord} {items : List DnsItem} :
      ¬ r.IsHost → Extracts chunk (ptr + r.bytes.length) rs items →
      Extracts chunk ptr (r :: rs) items

namespace Response

/-- The names of the answers stand for something. -/
def WellFormed (r : Response) : Prop := NamesAt r.bytes r.answersAt r.answers

/-- The call returns what the response says. -/
def Faithful (r : Response) : Prop :=
  ∃ items, Extracts r.bytes r.answersAt r.answers items ∧
    ∃ fuel, dnsParseResponse fuel r.bytes = .ok items

end Response

/-! ## Names that are read as they are meant -/

/-- `Expands` where every pointer is to one of the first 256 bytes, and no label is followed by a
pointer to the root. -/
inductive PlainAt (chunk : List UInt8) : Nat → List Label → Prop where
  | root {ptr : Nat} : chunk[ptr]? = some 0 → PlainAt chunk ptr []
  | label {ptr : Nat} {flag next : UInt8} {l : Label} {ls : List Label} :
      chunk[ptr]? = some flag → flag ≠ 0 → flag.toNat ≤ 63 →
      copyOut chunk (ptr + 1) flag.toNat = some l →
      chunk[ptr + 1 + flag.toNat]? = some next → (next = 0 ∨ ls ≠ []) →
      PlainAt chunk (ptr + 1 + flag.toNat) ls → PlainAt chunk ptr (l :: ls)
  | pointer {ptr : Nat} {flag n : UInt8} {ls : List Label} :
      chunk[ptr]? = some flag → flag.toNat = 0xC0 → chunk[ptr + 1]? = some n →
      PlainAt chunk n.toNat ls → PlainAt chunk ptr ls

/-- `Expands` where every pointer is to one of the first 256 bytes. -/
inductive NearAt (chunk : List UInt8) : Nat → List Label → Prop where
  | root {ptr : Nat} : chunk[ptr]? = some 0 → NearAt chunk ptr []
  | label {ptr : Nat} {flag : UInt8} {l : Label} {ls : List Label} :
      chunk[ptr]? = some flag → flag ≠ 0 → flag.toNat ≤ 63 →
      copyOut chunk (ptr + 1) flag.toNat = some l → NearAt chunk (ptr + 1 + flag.toNat) ls →
      NearAt chunk ptr (l :: ls)
  | pointer {ptr : Nat} {flag n : UInt8} {ls : List Label} :
      chunk[ptr]? = some flag → flag.toNat = 0xC0 → chunk[ptr + 1]? = some n →
      NearAt chunk n.toNat ls → NearAt chunk ptr ls

/-! ## Names -/

section

variable {chunk s : List UInt8} {ptr : Nat} {ls ls' : List Label}

/-- A name stands for one thing. -/
theorem Expands.unique (h : Expands chunk ptr ls) (h' : Expands chunk ptr ls') : ls = ls' := by
  induction h generalizing ls' with
  | @root ptr hflag =>
      cases h' with
      | root => rfl
      | label hflag' hne => exact absurd (Option.some.inj (hflag.symm.trans hflag')) (Ne.symm hne)
      | pointer hflag' hle =>
          obtain rfl := Option.some.inj (hflag.symm.trans hflag')
          exact absurd hle (by decide)
  | @label ptr flag l ls hflag hne hshort hlabel _ ih =>
      cases h' with
      | root hflag' => exact absurd (Option.some.inj (hflag.symm.trans hflag')) hne
      | label hflag' hne' hshort' hlabel' hrest' =>
          obtain rfl := Option.some.inj (hflag.symm.trans hflag')
          obtain rfl := Option.some.inj (hlabel.symm.trans hlabel')
          rw [ih hrest']
      | pointer hflag' hle =>
          obtain rfl := Option.some.inj (hflag.symm.trans hflag')
          omega
  | @pointer ptr flag n ls hflag hle hn _ ih =>
      cases h' with
      | root hflag' =>
          obtain rfl := Option.some.inj (hflag.symm.trans hflag')
          exact absurd hle (by decide)
      | label hflag' hne' hshort' =>
          obtain rfl := Option.some.inj (hflag.symm.trans hflag')
          omega
      | pointer hflag' hle' hn' hrest' =>
          obtain rfl := Option.some.inj (hflag.symm.trans hflag')
          obtain rfl := Option.some.inj (hn.symm.trans hn')
          exact ih hrest'

theorem NearAt.expands (h : NearAt chunk ptr ls) : Expands chunk ptr ls := by
  induction h with
  | root hflag => exact .root hflag
  | label hflag hne hshort hlabel _ ih => exact .label hflag hne hshort hlabel ih
  | @pointer ptr flag n ls hflag heq hn _ ih =>
      refine .pointer hflag (Nat.le_of_eq heq.symm) hn ?_
      rw [heq, Nat.sub_self, Nat.zero_mul, Nat.zero_add]
      exact ih

theorem PlainAt.near (h : PlainAt chunk ptr ls) : NearAt chunk ptr ls := by
  induction h with
  | root hflag => exact .root hflag
  | label hflag hne hshort hlabel _ _ _ ih => exact .label hflag hne hshort hlabel ih
  | pointer hflag heq hn _ ih => exact .pointer hflag heq hn ih

theorem PlainAt.expands (h : PlainAt chunk ptr ls) : Expands chunk ptr ls := h.near.expands

theorem dotted_cons {l : Label} (hne : ls ≠ []) : dotted (l :: ls) = l ++ [dot] ++ dotted ls := by
  cases ls with
  | nil => exact absurd rfl hne
  | cons l' ls => simp [dotted]

/-- A label in front of others is read with a dot, and the last one without. -/
theorem NameAt.dotted_label {flag next : UInt8} {l : Label} (hflag : chunk[ptr]? = some flag)
    (hne : flag ≠ 0) (hshort : flag.toNat ≤ 63)
    (hlabel : copyOut chunk (ptr + 1) flag.toNat = some l)
    (hnext : chunk[ptr + 1 + flag.toNat]? = some next) (hend : next = 0 ↔ ls = [])
    (h : NameAt chunk (ptr + 1 + flag.toNat) (dotted ls)) :
    NameAt chunk ptr (dotted (l :: ls)) := by
  have hpointer : ¬ isPointer flag := by
    rw [isPointer_iff]
    omega
  have hname := NameAt.label hflag hne hpointer hlabel hnext h
  by_cases hnil : ls = []
  · subst hnil
    rw [if_pos (hend.mpr rfl)] at hname
    simpa [dotted] using hname
  · rw [if_neg (mt hend.mp hnil), ← dotted_cons hnil] at hname
    exact hname

/-- A plain name is read as the text of its labels. -/
theorem PlainAt.nameAt (h : PlainAt chunk ptr ls) : NameAt chunk ptr (dotted ls) := by
  induction h with
  | root hflag => exact .stop hflag
  | @label ptr flag next l ls hflag hne hshort hlabel hnext hend hrest ih =>
      refine .dotted_label hflag hne hshort hlabel hnext ⟨fun heq => ?_, fun hnil => ?_⟩ ih
      · -- the root would be here
        exact hrest.expands.unique (.root (heq ▸ hnext))
      · exact hend.resolve_right fun h => h hnil
  | @pointer ptr flag n ls hflag heq hn _ ih =>
      exact .pointer hflag ((isPointer_iff flag).mpr (Nat.le_of_eq heq.symm)) hn ih

/-- What `dns_parse_name` finds at a zero byte. -/
theorem NameAt.eq_nil (hflag : chunk[ptr]? = some 0) (h : NameAt chunk ptr s) : s = [] := by
  cases h with
  | stop => rfl
  | pointer hflag' hpointer =>
      obtain rfl := Option.some.inj (hflag.symm.trans hflag')
      exact absurd hpointer not_isPointer_zero
  | label hflag' hne => exact absurd (Option.some.inj (hflag'.symm.trans hflag)) hne

theorem NameAt.of_pointer {flag n : UInt8} (hflag : chunk[ptr]? = some flag)
    (hle : 0xC0 ≤ flag.toNat) (hn : chunk[ptr + 1]? = some n) (h : NameAt chunk ptr s) :
    NameAt chunk n.toNat s := by
  have hpointer := (isPointer_iff flag).mpr hle
  cases h with
  | stop hflag' =>
      obtain rfl := Option.some.inj (hflag.symm.trans hflag')
      exact absurd hpointer not_isPointer_zero
  | pointer hflag' _ hn' hs =>
      obtain rfl := Option.some.inj (hn.symm.trans hn')
      exact hs
  | label hflag' _ hnot =>
      obtain rfl := Option.some.inj (hflag.symm.trans hflag')
      exact absurd hpointer hnot

theorem NameAt.of_label {flag : UInt8} {l : Label} (hflag : chunk[ptr]? = some flag)
    (hne : flag ≠ 0) (hshort : flag.toNat ≤ 63)
    (hlabel : copyOut chunk (ptr + 1) flag.toNat = some l) (h : NameAt chunk ptr s) :
    ∃ next rest, chunk[ptr + 1 + flag.toNat]? = some next ∧
      NameAt chunk (ptr + 1 + flag.toNat) rest ∧
      s = l ++ (if next = 0 then [] else [dot]) ++ rest := by
  cases h with
  | stop hflag' => exact absurd (Option.some.inj (hflag.symm.trans hflag')) hne
  | pointer hflag' hpointer =>
      obtain rfl := Option.some.inj (hflag.symm.trans hflag')
      rw [isPointer_iff] at hpointer
      omega
  | label hflag' _ _ hlabel' hnext hrest =>
      obtain rfl := Option.some.inj (hflag.symm.trans hflag')
      obtain rfl := Option.some.inj (hlabel.symm.trans hlabel')
      exact ⟨_, _, hnext, hrest, rfl⟩

/-- A near name is read right if it is plain, and with a dot at its end otherwise. -/
theorem NearAt.text (h : NearAt chunk ptr ls) (hs : NameAt chunk ptr s) :
    PlainAt chunk ptr ls ∧ s = dotted ls ∨ ls ≠ [] ∧ s = dotted ls ++ [dot] := by
  induction h generalizing s with
  | root hflag => exact .inl ⟨.root hflag, hs.eq_nil hflag⟩
  | @label ptr flag l ls hflag hne hshort hlabel hrest ih =>
      obtain ⟨next, rest, hnext, hat, rfl⟩ := hs.of_label hflag hne hshort hlabel
      rcases ih hat with ⟨hplain, rfl⟩ | ⟨hnil, rfl⟩
      · by_cases hzero : next = 0
        · have hnil : ls = [] := hrest.expands.unique (.root (hzero ▸ hnext))
          subst hnil
          refine .inl ⟨.label hflag hne hshort hlabel hnext (.inl hzero) hplain, ?_⟩
          simp [hzero, dotted]
        · rw [if_neg hzero]
          by_cases hnil : ls = []
          · -- the root is behind a pointer
            subst hnil
            exact .inr ⟨List.cons_ne_nil _ _, List.append_nil _⟩
          · exact .inl ⟨.label hflag hne hshort hlabel hnext (.inr hnil) hplain,
              (dotted_cons hnil).symm⟩
      · have hzero : next ≠ 0 := fun heq => hnil (hrest.expands.unique (.root (heq ▸ hnext)))
        refine .inr ⟨List.cons_ne_nil _ _, ?_⟩
        rw [if_neg hzero, dotted_cons hnil, List.append_assoc, List.append_assoc]
        simp only [List.append_assoc]
  | @pointer ptr flag n ls hflag heq hn _ ih =>
      rcases ih (hs.of_pointer hflag (Nat.le_of_eq heq.symm) hn) with ⟨hplain, hs⟩ | hdot
      · exact .inl ⟨.pointer hflag heq hn hplain, hs⟩
      · exact .inr hdot

/-- A plain name fits its buffer, if it was short. -/
theorem PlainAt.shortName (h : PlainAt chunk ptr ls) (hnamed : NamedAt chunk ptr) :
    ShortName chunk ptr (dotted ls) ∧ (dotted ls).length < nameSize := by
  obtain ⟨ls', hls', hlt⟩ := hnamed
  obtain rfl := h.expands.unique hls'
  exact ⟨⟨h.nameAt, Nat.le_of_lt hlt⟩, hlt⟩

theorem mem_dotted {l : Label} {b : UInt8} (hl : l ∈ ls) (hb : b ∈ l) : b ∈ dotted ls := by
  induction ls with
  | nil => exact absurd hl List.not_mem_nil
  | cons l' ls ih =>
      rcases List.mem_cons.mp hl with rfl | hl
      · cases ls with
        | nil => exact hb
        | cons l'' ls => exact List.mem_append_left _ hb
      · rw [dotted_cons (List.ne_nil_of_mem hl)]
        exact List.mem_append_right _ (ih hl)

theorem takeWhile_eq_self {t : List UInt8} (h : 0 ∉ t) : t.takeWhile (· ≠ 0) = t := by
  rw [List.takeWhile_eq_self_iff]
  intro b hb
  exact decide_eq_true fun heq => h (heq ▸ hb)

/-- Labels without zero bytes make a string. -/
theorem takeWhile_dotted (h : ∀ l ∈ ls, 0 ∉ l) :
    (dotted ls).takeWhile (· ≠ 0) = dotted ls := by
  refine takeWhile_eq_self ?_
  induction ls with
  | nil => exact List.not_mem_nil
  | cons l ls ih =>
      have hl := h l List.mem_cons_self
      have hrest := ih fun l hl => h l (List.mem_cons_of_mem _ hl)
      cases ls with
      | nil => exact hl
      | cons l' ls =>
          rw [dotted, List.mem_append, List.mem_cons]
          intro hin
          rcases hin with hin | hin | hin
          · exact hl hin
          · exact absurd hin (by decide)
          · exact hrest hin

/-- What is left of a near name up to its first zero byte is the name, only if it is plain. -/
theorem NearAt.plain (h : NearAt chunk ptr ls) (hs : NameAt chunk ptr s)
    (hcut : s.takeWhile (· ≠ 0) = dotted ls) : PlainAt chunk ptr ls ∧ ∀ l ∈ ls, 0 ∉ l := by
  have hzero : 0 ∉ dotted ls := by
    intro hin
    rw [← hcut] at hin
    have hne := List.mem_takeWhile_imp hin
    exact absurd rfl (of_decide_eq_true hne)
  rcases h.text hs with ⟨hplain, -⟩ | ⟨-, rfl⟩
  · exact ⟨hplain, fun l hl hin => hzero (mem_dotted hl hin)⟩
  · -- the dot at the end is left too
    have hdot : 0 ∉ dotted ls ++ [dot] := by
      rw [List.mem_append, List.mem_singleton]
      intro hin
      rcases hin with hin | hin
      · exact hzero hin
      · exact absurd hin (by decide)
    rw [takeWhile_eq_self hdot] at hcut
    have hlen := congrArg List.length hcut
    rw [List.length_append, List.length_singleton] at hlen
    omega

end

end CppTrack.Dns
