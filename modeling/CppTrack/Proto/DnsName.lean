import CppTrack.Lib.BigEndian
import CppTrack.Lib.Blocks
import CppTrack.Lib.Word

/-!
# Names in DNS messages (`async_dns_client_noblock.c`)

A name is a row of labels, each behind its length, with a zero byte at the end; in a response it may
also end in two bytes that say where in the message it goes on. `dns_create_question` writes a host
name in that form, `dns_parse_name` reads one and writes the labels with dots between them.

Pointers are offsets into their blocks, and an access outside a block is `outOfBounds`.
`dns_parse_name` is called with a bound on its loops and calls, since a pointer may lead it back to
where it came from.
-/

namespace CppTrack.Dns

open Lib

/-- Why a call does not return. -/
inductive Trap where
  | outOfFuel
  | outOfBounds
  deriving DecidableEq

def inBounds {α : Type} : Option α → Except Trap α
  | none => .error .outOfBounds
  | some a => .ok a

@[simp] theorem inBounds_some {α : Type} (a : α) : inBounds (some a) = .ok a := rfl

@[simp] theorem inBounds_eq_ok {α : Type} {o : Option α} {a : α} :
    inBounds o = .ok a ↔ o = some a := by
  cases o with
  | none => exact iff_of_false nofun nofun
  | some b =>
      exact ⟨fun h => congrArg some (Except.ok.inj h),
        fun h => congrArg _ (Option.some.inj h)⟩

@[simp] theorem ok_bind {α β : Type} (a : α) (f : α → Except Trap β) : (.ok a >>= f) = f a := rfl

theorem bind_eq_ok {α β : Type} {x : Except Trap α} {f : α → Except Trap β} {b : β} :
    (x >>= f) = .ok b ↔ ∃ a, x = .ok a ∧ f a = .ok b := by
  cases x with
  | error e => exact iff_of_false nofun nofun
  | ok a => exact ⟨fun h => ⟨a, rfl, h⟩, fun ⟨_, ha, h⟩ => Except.ok.inj ha ▸ h⟩

/-- What one computation returns, the other returns as well. -/
def Within {α : Type} (x y : Except Trap α) : Prop := ∀ a, x = .ok a → y = .ok a

theorem Within.refl {α : Type} (x : Except Trap α) : Within x x := fun _ => id

theorem Within.bind {α β : Type} {x y : Except Trap α} {f g : α → Except Trap β}
    (h : Within x y) (hf : ∀ a, Within (f a) (g a)) : Within (x >>= f) (y >>= g) := by
  intro b hb
  obtain ⟨a, ha, hfa⟩ := bind_eq_ok.mp hb
  exact bind_eq_ok.mpr ⟨a, h a ha, hf a b hfa⟩

theorem Within.ite {α : Type} {c : Prop} [Decidable c] {x y x' y' : Except Trap α}
    (h : Within x y) (h' : Within x' y') : Within (if c then x else x') (if c then y else y') := by
  split
  · exact h
  · exact h'

/-- A computation with more and more steps. -/
theorem Within.of_le {α : Type} {f : Nat → Except Trap α} (h : ∀ n, Within (f n) (f (n + 1)))
    {n m : Nat} (hle : n ≤ m) : Within (f n) (f m) := by
  induction hle with
  | refl => exact .refl _
  | step _ ih => exact fun a ha => h _ a (ih a ha)

/-! ## Questions -/

/-- `'.'`. -/
def dot : UInt8 := 46

/-- `struct dns_question`; the two numbers are kept as the message has them. -/
structure Question where
  length : Int
  qtype : Nat
  qclass : Nat
  qname : List UInt8

/-- `struct dns_header`, the numbers as the message has them. -/
structure Header where
  id : Nat
  flags : Nat
  qdcount : Nat
  ancount : Nat
  nscount : Nat
  arcount : Nat

def Header.bytes (h : Header) : List UInt8 :=
  [h.id, h.flags, h.qdcount, h.ancount, h.nscount, h.arcount].flatMap (toBigEndian 2)

/-- `dns_create_header`; `random` is what `random()` returned. -/
def dnsCreateHeader (random : Nat) : Header :=
  { id := random, flags := 0x0100, qdcount := 1, ancount := 0, nscount := 0, arcount := 0 }

/-- `strtok` with `"."`: the next token and what is left behind it. -/
def strtok (s : List UInt8) : Option (List UInt8 × List UInt8) :=
  let s := s.dropWhile (· = dot)
  if s = [] then none else some (s.takeWhile (· ≠ dot), (s.dropWhile (· ≠ dot)).drop 1)

/-- The `while` loop of `dns_create_question`. `s` is what `strtok` has left. -/
def copyTokens : (fuel : Nat) → (s : List UInt8) → (qnameP : Nat) → (qname : List UInt8) →
    Except Trap (List UInt8)
  | 0, _, _, _ => .error .outOfFuel
  | fuel + 1, s, qnameP, qname =>
      match strtok s with
      | none => .ok qname
      | some (token, s) => do
          let qname ← inBounds (copyTo qname qnameP [UInt8.ofNat token.length])
          let qnameP := qnameP + 1
          -- `strncpy` of `len + 1` bytes, the last of them the token's zero
          let qname ← inBounds (copyTo qname qnameP (token ++ [0]))
          copyTokens fuel s (qnameP + token.length) qname

/-- A `size_t` assigned to an `int`. -/
def toInt (n : Nat) : Int := Int.bmod n wordSize

/--
`dns_create_question`, where `malloc` does not fail; `fresh` is what the new block holds. A token
takes at least one byte, so the loop has at most one turn for each and one more.
-/
def dnsCreateQuestion (fresh : Nat → UInt8) (hostname : List UInt8) : Except Trap Question := do
  let qname ← copyTokens (hostname.length + 1) hostname 0
    ((List.range (hostname.length + 2)).map fresh)
  return { length := toInt (hostname.length + 2), qtype := 1, qclass := 1, qname := qname }

/-- `dns_build_request`. A negative length is no number of bytes that a block has. -/
def dnsBuildRequest (header : Header) (question : Question) (request : List UInt8) :
    Except Trap (List UInt8 × Int) := do
  let headerS : Nat := 12
  let questionS := question.length + 2 + 2
  let length := questionS + headerS
  let offset : Nat := 0
  let request ← inBounds (copyTo request offset header.bytes)
  let offset := offset + headerS
  let qname ← inBounds (if question.length < 0 then none
    else copyOut question.qname 0 question.length.toNat)
  let request ← inBounds (copyTo request offset qname)
  let offset := offset + question.length.toNat
  let request ← inBounds (copyTo request offset (toBigEndian 2 question.qtype))
  let offset := offset + 2
  let request ← inBounds (copyTo request offset (toBigEndian 2 question.qclass))
  return (request, length)

/-! ## Names -/

/-- `is_pointer`. -/
def isPointer (flag : UInt8) : Bool := flag &&& 0xC0 = 0xC0

/-- The loop of `dns_parse_name`. A call of it for a pointer starts at `out + *len`. -/
def parseFrom (chunk : List UInt8) : (fuel : Nat) → (ptr pos : Nat) → (out : List UInt8) →
    (len : Nat) → Except Trap (List UInt8 × Nat)
  | 0, _, _, _, _ => .error .outOfFuel
  | fuel + 1, ptr, pos, out, len => do
      let flag ← inBounds chunk[ptr]?
      if flag = 0 then
        return (out, len)
      else if isPointer flag then
        let n ← inBounds chunk[ptr + 1]?
        parseFrom chunk fuel n.toNat len out len
      else
        let label ← inBounds (copyOut chunk (ptr + 1) flag.toNat)
        let out ← inBounds (copyTo out pos label)
        let pos := pos + flag.toNat
        let ptr := ptr + 1 + flag.toNat
        let len := len + flag.toNat
        let next ← inBounds chunk[ptr]?
        if next = 0 then
          parseFrom chunk fuel ptr pos out len
        else
          let out ← inBounds (copyTo out pos [dot])
          parseFrom chunk fuel ptr (pos + 1) out (len + 1)

/-- `dns_parse_name`. -/
def dnsParseName (fuel : Nat) (chunk : List UInt8) (ptr : Nat) (out : List UInt8) (len : Nat) :
    Except Trap (List UInt8 × Nat) :=
  parseFrom chunk fuel ptr len out len

/-! ## What a name is for `dns_parse_name` -/

/--
The text that `dns_parse_name` makes of the name at `ptr`: the labels that lie inside the message,
through pointers too, until a zero byte. A dot follows each label that anything but a zero byte
follows.
-/
inductive NameAt (chunk : List UInt8) : Nat → List UInt8 → Prop where
  | stop {ptr : Nat} : chunk[ptr]? = some 0 → NameAt chunk ptr []
  | pointer {ptr : Nat} {flag n : UInt8} {s : List UInt8} :
      chunk[ptr]? = some flag → isPointer flag → chunk[ptr + 1]? = some n →
      NameAt chunk n.toNat s → NameAt chunk ptr s
  | label {ptr : Nat} {flag next : UInt8} {label s : List UInt8} :
      chunk[ptr]? = some flag → flag ≠ 0 → ¬ isPointer flag →
      copyOut chunk (ptr + 1) flag.toNat = some label →
      chunk[ptr + 1 + flag.toNat]? = some next → NameAt chunk (ptr + 1 + flag.toNat) s →
      NameAt chunk ptr (label ++ (if next = 0 then [] else [dot]) ++ s)

section

variable {chunk out out' : List UInt8} {ptr len len' fuel : Nat}

theorem parseFrom_within (fuel ptr pos : Nat) (out : List UInt8) (len : Nat) :
    Within (parseFrom chunk fuel ptr pos out len) (parseFrom chunk (fuel + 1) ptr pos out len) := by
  induction fuel generalizing ptr pos out len with
  | zero => exact fun _ h => absurd h nofun
  | succ fuel ih =>
      rw [parseFrom, parseFrom]
      refine .bind (.refl _) fun flag => .ite (.refl _) (.ite ?_ ?_)
      · exact .bind (.refl _) fun n => ih _ _ _ _
      · refine .bind (.refl _) fun label => .bind (.refl _) fun out =>
          .bind (.refl _) fun next => ?_
        exact .ite (ih _ _ _ _) (.bind (.refl _) fun out => ih _ _ _ _)

theorem not_isPointer_zero : ¬ isPointer 0 := by decide

/-- A name that ends in one place is written to the buffer, if it fits. -/
theorem parseFrom_of_nameAt {s : List UInt8} (h : NameAt chunk ptr s)
    (hout : copyTo out len s = some out') :
    ∃ fuel, parseFrom chunk fuel ptr len out len = .ok (out', len + s.length) := by
  induction h generalizing out len with
  | @stop ptr hflag =>
      have hle : len ≤ out.length := (Option.ite_none_right_eq_some.mp hout).1
      rw [copyTo_nil hle] at hout
      obtain rfl := Option.some.inj hout
      refine ⟨1, ?_⟩
      rw [parseFrom, hflag]
      rfl
  | @pointer ptr flag n s hflag hpointer hn hname ih =>
      obtain ⟨fuel, hfuel⟩ := ih hout
      refine ⟨fuel + 1, ?_⟩
      have hne : flag ≠ 0 := fun hzero => not_isPointer_zero (hzero ▸ hpointer)
      simp only [parseFrom, hflag, hn, inBounds_some, ok_bind, if_neg hne, if_pos hpointer]
      exact hfuel
  | @label ptr flag next label s hflag hne hpointer hlabel hnext hname ih =>
      have hlen := length_copyOut hlabel
      -- the label is written first, then the dot if there is one, then the rest
      rw [List.append_assoc, ← copyTo_append, hlen] at hout
      obtain ⟨out₁, hout₁, hout⟩ := Option.bind_eq_some_iff.mp hout
      by_cases hzero : next = 0
      · rw [if_pos hzero, List.nil_append] at hout
        obtain ⟨fuel, hfuel⟩ := ih hout
        refine ⟨fuel + 1, ?_⟩
        simp only [parseFrom, hflag, hlabel, hout₁, hnext, inBounds_some, ok_bind, if_neg hne,
          if_neg hpointer, if_pos hzero]
        rw [hfuel, List.append_nil, List.length_append, hlen, Nat.add_assoc]
      · rw [if_neg hzero, ← copyTo_append] at hout
        obtain ⟨out₂, hout₂, hout⟩ := Option.bind_eq_some_iff.mp hout
        obtain ⟨fuel, hfuel⟩ := ih hout
        refine ⟨fuel + 1, ?_⟩
        rw [List.length_singleton] at hfuel
        simp only [parseFrom, hflag, hlabel, hout₁, hnext, hout₂, inBounds_some, ok_bind,
          if_neg hne, if_neg hpointer, if_neg hzero]
        rw [hfuel, List.length_append, List.length_append, hlen, List.length_singleton]
        simp only [Nat.add_assoc]

/-- If `dns_parse_name` returns, there is a name where it was told to look. -/
theorem nameAt_of_parseFrom {r : List UInt8 × Nat} (hle : len ≤ out.length)
    (h : parseFrom chunk fuel ptr len out len = .ok r) :
    ∃ s, NameAt chunk ptr s ∧ copyTo out len s = some r.1 ∧ r.2 = len + s.length := by
  induction fuel generalizing ptr out len with
  | zero => exact absurd h nofun
  | succ fuel ih =>
      rw [parseFrom] at h
      obtain ⟨flag, hflag, h⟩ := bind_eq_ok.mp h
      rw [inBounds_eq_ok] at hflag
      split at h
      · rename_i hzero
        obtain rfl := Except.ok.inj h
        exact ⟨[], .stop (hzero ▸ hflag), copyTo_nil hle, rfl⟩
      rename_i hne
      split at h
      · rename_i hpointer
        obtain ⟨n, hn, h⟩ := bind_eq_ok.mp h
        obtain ⟨s, hs, hrest⟩ := ih hle h
        exact ⟨s, .pointer hflag hpointer (inBounds_eq_ok.mp hn) hs, hrest⟩
      · rename_i hpointer
        obtain ⟨label, hlabel, h⟩ := bind_eq_ok.mp h
        obtain ⟨out₁, hout₁, h⟩ := bind_eq_ok.mp h
        obtain ⟨next, hnext, h⟩ := bind_eq_ok.mp h
        rw [inBounds_eq_ok] at hlabel hout₁ hnext
        have hlen := length_copyOut hlabel
        have hroom : len + flag.toNat ≤ out₁.length := by
          rw [length_copyTo hout₁, ← hlen]
          exact (Option.ite_none_right_eq_some.mp hout₁).1
        split at h
        · rename_i hzero
          obtain ⟨s, hs, hout, hr⟩ := ih hroom h
          refine ⟨_, .label hflag hne hpointer hlabel hnext hs, ?_, ?_⟩
          · rw [if_pos hzero, List.append_nil, ← copyTo_append, hout₁, Option.bind_some, hlen]
            exact hout
          · rw [hr, if_pos hzero, List.append_nil, List.length_append, hlen, Nat.add_assoc]
        · rename_i hzero
          obtain ⟨out₂, hout₂, h⟩ := bind_eq_ok.mp h
          rw [inBounds_eq_ok] at hout₂
          have hroom' : len + flag.toNat + 1 ≤ out₂.length := by
            rw [length_copyTo hout₂]
            exact (Option.ite_none_right_eq_some.mp hout₂).1
          obtain ⟨s, hs, hout, hr⟩ := ih hroom' h
          refine ⟨_, .label hflag hne hpointer hlabel hnext hs, ?_, ?_⟩
          · rw [if_neg hzero, List.append_assoc, ← copyTo_append, hout₁, Option.bind_some,
              ← copyTo_append, hlen, hout₂, Option.bind_some]
            exact hout
          · rw [hr, if_neg hzero, List.length_append, List.length_append, hlen,
              List.length_singleton]
            omega

/-- A call of `dns_parse_name` returns, if and only if there is a name and it fits. -/
theorem dnsParseName_ok_iff (hle : len ≤ out.length) {r : List UInt8 × Nat} :
    (∃ fuel, dnsParseName fuel chunk ptr out len = .ok r) ↔
      ∃ s, NameAt chunk ptr s ∧ copyTo out len s = some r.1 ∧ r.2 = len + s.length := by
  constructor
  · intro ⟨fuel, h⟩
    exact nameAt_of_parseFrom hle h
  · intro ⟨s, hs, hout, hr⟩
    obtain ⟨fuel, h⟩ := parseFrom_of_nameAt hs hout
    exact ⟨fuel, h.trans (congrArg (fun n => Except.ok (r.1, n)) hr.symm)⟩

end

end CppTrack.Dns
