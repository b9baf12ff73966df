import CppTrack.Proto.DnsAnswers

/-!
# Compression pointers

A pointer says in fourteen bits where a name goes on. `dns_parse_name` takes the lower eight of
them, and it puts a dot behind a label as soon as the next byte is not zero, although what follows
may be a pointer to the root. `Agrees` says where neither matters.
-/

namespace CppTrack.Dns

open Lib

/-- `Expands`, where each pointer goes to a place before `start`, at which the row of labels that it
ends begins. -/
inductive Descends (chunk : List UInt8) : (start ptr : Nat) → List Label → Prop where
  | root {start ptr : Nat} : chunk[ptr]? = some 0 → Descends chunk start ptr []
  | label {start ptr : Nat} {flag : UInt8} {l : Label} {ls : List Label} :
      chunk[ptr]? = some flag → flag ≠ 0 → flag.toNat ≤ 63 →
      copyOut chunk (ptr + 1) flag.toNat = some l →
      Descends chunk start (ptr + 1 + flag.toNat) ls → Descends chunk start ptr (l :: ls)
  | pointer {start ptr off : Nat} {flag n : UInt8} {ls : List Label} :
      chunk[ptr]? = some flag → 0xC0 ≤ flag.toNat → chunk[ptr + 1]? = some n →
      off = (flag.toNat - 0xC0) * 256 + n.toNat → off < start →
      Descends chunk off off ls → Descends chunk start ptr ls

/-- The name at `ptr` is read as those labels, wherever their text is to be written. -/
def ReadAs (chunk : List UInt8) (ptr : Nat) (ls : List Label) : Prop :=
  ∀ out len out', copyTo out len (dotted ls) = some out' →
    ∃ fuel, dnsParseName fuel chunk ptr out len = .ok (out', len + (dotted ls).length)

/-- A pointer is to one of the first 256 bytes, or the rows at the lower half of its offset happen
to spell the same text; no label is followed by a pointer to the root. -/
inductive Agrees (chunk : List UInt8) : (ptr : Nat) → List Label → Prop where
  | root {ptr : Nat} : chunk[ptr]? = some 0 → Agrees chunk ptr []
  | label {ptr : Nat} {flag next : UInt8} {l : Label} {ls : List Label} :
      chunk[ptr]? = some flag → flag ≠ 0 → flag.toNat ≤ 63 →
      copyOut chunk (ptr + 1) flag.toNat = some l →
      chunk[ptr + 1 + flag.toNat]? = some next → (next = 0 ∨ ls ≠ []) →
      Agrees chunk (ptr + 1 + flag.toNat) ls → Agrees chunk ptr (l :: ls)
  | low {ptr : Nat} {flag n : UInt8} {ls : List Label} :
      chunk[ptr]? = some flag → flag.toNat = 0xC0 → chunk[ptr + 1]? = some n →
      Agrees chunk n.toNat ls → Agrees chunk ptr ls
  | high {ptr : Nat} {flag n : UInt8} {ls : List Label} :
      chunk[ptr]? = some flag → 0xC0 < flag.toNat → chunk[ptr + 1]? = some n →
      Spells chunk n.toNat (dotted ls) → Agrees chunk ptr ls

section

variable {chunk : List UInt8} {start ptr : Nat} {ls : List Label} {s : List UInt8}

theorem Descends.expands (h : Descends chunk start ptr ls) : Expands chunk ptr ls := by
  induction h with
  | root hflag => exact .root hflag
  | label hflag hne hshort hlabel _ ih => exact .label hflag hne hshort hlabel ih
  | pointer hflag hle hn hoff _ _ ih =>
      subst hoff
      exact .pointer hflag hle hn ih

/-- With an empty buffer of the right size, the text that is read has to be that of the labels. -/
theorem readAs_iff : ReadAs chunk ptr ls ↔ NameAt chunk ptr (dotted ls) := by
  constructor
  · intro h
    have hroom : copyTo (List.replicate (dotted ls).length 0) 0 (dotted ls) = some (dotted ls) :=
      copyTo_whole List.length_replicate.symm
    obtain ⟨fuel, hfuel⟩ := h _ _ _ hroom
    obtain ⟨s, hs, hout, hlen⟩ := (dnsParseName_ok_iff (Nat.zero_le _)).mp ⟨fuel, hfuel⟩
    dsimp only at hlen hout
    rw [Nat.zero_add, Nat.zero_add] at hlen
    -- the text that was read fills the buffer too
    rw [copyTo_whole (hlen.symm.trans List.length_replicate.symm)] at hout
    obtain rfl := Option.some.inj hout
    exact hs
  · intro h out len out' hout
    have hle : len ≤ out.length :=
      Nat.le_of_add_right_le (Option.ite_none_right_eq_some.mp hout).1
    exact (dnsParseName_ok_iff hle).mpr ⟨dotted ls, h, hout, rfl⟩

theorem Agrees.eq_nil (hflag : chunk[ptr]? = some 0) (h : Agrees chunk ptr ls) : ls = [] := by
  cases h with
  | root => rfl
  | label hflag' hne => exact absurd (Option.some.inj (hflag'.symm.trans hflag)) hne
  | low hflag' heq =>
      obtain rfl := Option.some.inj (hflag.symm.trans hflag')
      exact absurd heq (by decide)
  | high hflag' hlt =>
      obtain rfl := Option.some.inj (hflag.symm.trans hflag')
      exact absurd hlt (by decide)

theorem Agrees.nameAt (h : Agrees chunk ptr ls) : NameAt chunk ptr (dotted ls) := by
  induction h with
  | root hflag => exact .stop hflag
  | @label ptr flag next l ls hflag hne hshort hlabel hnext hend hrest ih =>
      refine .dotted_label hflag hne hshort hlabel hnext ⟨fun heq => ?_, fun hnil => ?_⟩ ih
      · exact hrest.eq_nil (heq ▸ hnext)
      · exact hend.resolve_right fun h => h hnil
  | @low ptr flag n ls hflag heq hn _ ih =>
      exact .pointer hflag ((isPointer_iff flag).mpr (Nat.le_of_eq heq.symm)) hn ih
  | @high ptr flag n ls hflag hlt hn hspells =>
      have hname := nameAt_iff_spells.mpr hspells
      exact .pointer hflag ((isPointer_iff flag).mpr (Nat.le_of_lt hlt)) hn hname

/-- The text of a name is read only if nothing on the way went wrong, or went wrong unnoticed. -/
theorem Expands.agrees (h : Expands chunk ptr ls) (hname : NameAt chunk ptr (dotted ls)) :
    Agrees chunk ptr ls := by
  induction h with
  | root hflag => exact .root hflag
  | @label ptr flag l ls hflag hne hshort hlabel hrest ih =>
      obtain ⟨next, rest, hnext, hat, htext⟩ := hname.of_label hflag hne hshort hlabel
      rw [List.append_assoc] at htext
      by_cases hnil : ls = []
      · subst hnil
        have hempty := List.self_eq_append_right.mp htext
        obtain ⟨hdot, rfl⟩ := List.append_eq_nil_iff.mp hempty
        have hzero : next = 0 := by
          by_contra hzero
          rw [if_neg hzero] at hdot
          exact absurd hdot (List.cons_ne_nil _ _)
        exact .label hflag hne hshort hlabel hnext (.inl hzero) (ih hat)
      · -- otherwise the root would be here
        have hzero : next ≠ 0 := fun heq => hnil (hrest.unique (.root (heq ▸ hnext)))
        rw [if_neg hzero, dotted_cons hnil, List.append_assoc] at htext
        obtain rfl := List.append_cancel_left (List.append_cancel_left htext)
        exact .label hflag hne hshort hlabel hnext (.inr hnil) (ih hat)
  | @pointer ptr flag n ls hflag hle hn _ ih =>
      have hat := hname.of_pointer hflag hle hn
      rcases Nat.eq_or_lt_of_le hle with heq | hlt
      · rw [← heq, Nat.sub_self, Nat.zero_mul, Nat.zero_add] at ih
        exact .low hflag heq.symm hn (ih hat)
      · exact .high hflag hlt hn (nameAt_iff_spells.mp hat)

end

/--
**A name is read as its labels with dots between them, if and only if its pointers agree** with
their lower halves and none of them stands between a label and the root.
-/
theorem readAs_iff_agrees (chunk : List UInt8) (ptr : Nat) (ls : List Label)
    (h : Expands chunk ptr ls) : ReadAs chunk ptr ls ↔ Agrees chunk ptr ls :=
  readAs_iff.trans ⟨h.agrees, Agrees.nameAt⟩

/-- The name `a`, and a pointer to it. -/
theorem readAs_iff_agrees_a : Descends [1, 97, 0, 0xC0, 0] 3 3 [[97]] ∧
    (ReadAs [1, 97, 0, 0xC0, 0] 3 [[97]] ↔ Agrees [1, 97, 0, 0xC0, 0] 3 [[97]]) := by
  have hname : Descends [1, 97, 0, 0xC0, 0] 0 0 [[97]] :=
    .label rfl (by decide) (by decide) rfl (.root rfl)
  have hpointer : Descends [1, 97, 0, 0xC0, 0] 3 3 [[97]] :=
    .pointer rfl (by decide) rfl rfl (by decide) hname
  exact ⟨hpointer, readAs_iff_agrees _ 3 [[97]] hpointer.expands⟩

/-- The name `a` at the offset 256, and a pointer to it. -/
def farName : List UInt8 := List.replicate 256 0 ++ [1, 97, 0, 0xC1, 0]

/-- It is looked for at the offset 0, where there is none. -/
theorem farName_not_readAs : ¬ ∀ chunk ptr ls, chunk.length ≤ 2 ^ 16 → Descends chunk ptr ptr ls →
    ReadAs chunk ptr ls := by
  intro h
  have hlen : farName.length ≤ 2 ^ 16 := by
    rw [farName, List.length_append, List.length_replicate]
    simp
  have hpointer : farName[259]? = some 0xC1 := by decide +kernel
  have hlow : farName[259 + 1]? = some 0 := by decide +kernel
  have hone : farName[256]? = some 1 := by decide +kernel
  have hname : Descends farName 256 256 [[97]] :=
    .label hone (by decide) (by decide) (by decide +kernel) (.root (by decide +kernel))
  have hfar : Descends farName 259 259 [[97]] :=
    .pointer hpointer (by decide) hlow rfl (by decide) hname
  have hread := readAs_iff.mp (h farName 259 [[97]] hlen hfar)
  have hat := hread.of_pointer hpointer (by decide) hlow
  exact absurd (hat.eq_nil (by decide +kernel)) (by decide)

end CppTrack.Dns
