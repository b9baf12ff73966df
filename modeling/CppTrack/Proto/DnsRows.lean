import CppTrack.Proto.DnsQuestion
import CppTrack.Proto.DnsResponse

/-!
# Rows of labels

What the bytes of a message spell, said on the bytes alone. A row is labels behind their lengths;
it ends in a zero byte, or in two bytes of which the second is where another row begins. A place
spells a text if rows that begin there, each where the one before says, are written in the message
and the text is put together from theirs.

The rows are wider than the names of the protocol: a label may take up to 191 bytes, and a link is
one byte. The loop of `dns_parse_name` stops at exactly such places (`nameAt_iff_spells`).
-/

namespace CppTrack.Dns

open Lib

/-- A row of labels and how it ends. -/
structure Row where
  labels : List Label
  /-- The two bytes that say where the next row begins, if this is not the last one. -/
  link : Option (UInt8 × UInt8)
  labels_ok : ∀ l ∈ labels, l ≠ [] ∧ l.length < 0xC0
  link_ok : ∀ p ∈ link, 0xC0 ≤ p.1.toNat

namespace Row

/-- What stands in the message. -/
def bytes (r : Row) : List UInt8 :=
  encodeLabels r.labels ++
    match r.link with
    | none => [0]
    | some (flag, n) => [flag, n]

/-- The last label of a row has no dot behind it, unless the row is linked to another. -/
def text (r : Row) : List UInt8 :=
  match r.link with
  | none => dotted r.labels
  | some _ => r.labels.flatMap (· ++ [dot])

/-- One more label in front. -/
def cons (l : Label) (r : Row) (hl : l ≠ [] ∧ l.length < 0xC0) : Row where
  labels := l :: r.labels
  link := r.link
  labels_ok := List.forall_mem_cons.mpr ⟨hl, r.labels_ok⟩
  link_ok := r.link_ok

end Row

/-- The rows that begin at a place, in order. -/
inductive Rows (chunk : List UInt8) : (ptr : Nat) → List Row → Prop where
  | last {ptr : Nat} {r : Row} : r.link = none → r.bytes <+: chunk.drop ptr → Rows chunk ptr [r]
  | link {ptr : Nat} {r : Row} {rs : List Row} {flag n : UInt8} :
      r.link = some (flag, n) → r.bytes <+: chunk.drop ptr → Rows chunk n.toNat rs →
      Rows chunk ptr (r :: rs)

/-- The rows from `ptr` on have that text. -/
def Spells (chunk : List UInt8) (ptr : Nat) (s : List UInt8) : Prop :=
  ∃ rs, Rows chunk ptr rs ∧ s = rs.flatMap Row.text

section

variable {chunk : List UInt8} {ptr : Nat} {s : List UInt8} {l : Label} {r : Row}

/-! ## Bytes at a place -/

theorem cons_prefix_drop_iff {b : UInt8} {bs : List UInt8} :
    b :: bs <+: chunk.drop ptr ↔ chunk[ptr]? = some b ∧ bs <+: chunk.drop (ptr + 1) := by
  constructor
  · rintro ⟨rest, hrest⟩
    have hhead := congrArg List.head? hrest
    have htail := congrArg List.tail hrest
    rw [List.head?_drop] at hhead
    rw [List.tail_drop] at htail
    exact ⟨hhead.symm, rest, htail⟩
  · rintro ⟨hb, hbs⟩
    obtain ⟨hlt, rfl⟩ := List.getElem?_eq_some_iff.mp hb
    rw [List.drop_eq_getElem_cons hlt]
    exact List.cons_prefix_cons.mpr ⟨rfl, hbs⟩

theorem append_prefix_drop_iff {bs : List UInt8} (hne : l ≠ []) :
    l ++ bs <+: chunk.drop ptr ↔
      copyOut chunk ptr l.length = some l ∧ bs <+: chunk.drop (ptr + l.length) := by
  have hpos := List.length_pos_iff.mpr hne
  constructor
  · rintro ⟨rest, hrest⟩
    rw [List.append_assoc] at hrest
    have hlen := congrArg List.length hrest
    rw [List.length_append, List.length_drop] at hlen
    refine ⟨?_, rest, ?_⟩
    · rw [copyOut, ← hrest, List.take_left, if_pos (by omega)]
    · rw [← List.drop_drop, ← hrest, List.drop_left]
  · rintro ⟨hl, rest, hrest⟩
    have htake := Option.some.inj (Option.ite_none_right_eq_some.mp hl).2
    refine ⟨rest, ?_⟩
    rw [List.append_assoc, hrest, ← List.drop_drop]
    nth_rewrite 1 [← htake]
    exact List.take_append_drop _ _

/-- A label's length takes one byte, which is neither zero nor that of a link. -/
theorem toNat_ofNat_short (hl : l.length < 0xC0) : (UInt8.ofNat l.length).toNat = l.length :=
  UInt8.toNat_ofNat_of_lt' (Nat.lt_trans hl (by decide))

theorem ofNat_short_ne_zero (hl : l ≠ [] ∧ l.length < 0xC0) : UInt8.ofNat l.length ≠ 0 := by
  intro hzero
  have hlen := congrArg UInt8.toNat hzero
  rw [toNat_ofNat_short hl.2] at hlen
  exact hl.1 (List.eq_nil_of_length_eq_zero hlen)

theorem not_isPointer_short (hl : l.length < 0xC0) : ¬ isPointer (UInt8.ofNat l.length) := by
  rw [isPointer_iff, toNat_ofNat_short hl]
  omega

namespace Row

/-! ## One row -/

theorem bytes_cons (hl : l ≠ [] ∧ l.length < 0xC0) :
    (r.cons l hl).bytes = UInt8.ofNat l.length :: (l ++ r.bytes) := by
  simp only [cons, bytes, encodeLabels, List.flatMap_cons, List.cons_append, List.append_assoc]

/-- A row begins with a zero byte, if nothing else is in it. -/
theorem head?_bytes_eq_zero : r.bytes.head? = some 0 ↔ r.labels = [] ∧ r.link = none := by
  obtain ⟨labels, link, hlabels, hlink⟩ := r
  rcases labels with _ | ⟨l, ls⟩
  · rcases link with _ | ⟨flag, n⟩
    · exact iff_of_true rfl ⟨rfl, rfl⟩
    · -- a link does not begin with a zero byte
      refine iff_of_false (fun hzero => ?_) nofun
      obtain rfl : flag = 0 := Option.some.inj hzero
      exact absurd (hlink (0, n) rfl) (Nat.not_le_of_lt (Nat.zero_lt_succ _))
  · refine iff_of_false (fun hzero => ?_) nofun
    exact ofNat_short_ne_zero (hlabels l List.mem_cons_self) (Option.some.inj hzero)

theorem text_cons (hl : l ≠ [] ∧ l.length < 0xC0) :
    (r.cons l hl).text = l ++ (if r.bytes.head? = some 0 then [] else [dot]) ++ r.text := by
  simp only [head?_bytes_eq_zero]
  obtain ⟨labels, link, hlabels, hlink⟩ := r
  rcases link with _ | ⟨flag, n⟩
  · rcases labels with _ | ⟨l', ls⟩
    · simp [cons, text, dotted]
    · simp [cons, text, dotted]
  · simp [cons, text]

/-- The row at a place with a label in front of it. -/
theorem cons_prefix_iff (hl : l ≠ [] ∧ l.length < 0xC0) :
    (r.cons l hl).bytes <+: chunk.drop ptr ↔ chunk[ptr]? = some (UInt8.ofNat l.length) ∧
      copyOut chunk (ptr + 1) l.length = some l ∧
      r.bytes <+: chunk.drop (ptr + 1 + l.length) := by
  rw [bytes_cons, cons_prefix_drop_iff, append_prefix_drop_iff hl.1]

/-- The first byte of a row at a place. -/
theorem exists_first (h : r.bytes <+: chunk.drop ptr) :
    ∃ b, r.bytes.head? = some b ∧ chunk[ptr]? = some b := by
  rcases hbytes : r.bytes with _ | ⟨b, bs⟩
  · -- there is always an end
    have hend := (List.append_eq_nil_iff.mp hbytes).2
    split at hend
    · exact absurd hend (List.cons_ne_nil _ _)
    · exact absurd hend (List.cons_ne_nil _ _)
  · rw [hbytes] at h
    exact ⟨b, rfl, (cons_prefix_drop_iff.mp h).1⟩

/-- A row is read up to its end, and then what it is linked to. -/
theorem nameAt (hrow : r.bytes <+: chunk.drop ptr) (hlast : r.link = none → s = [])
    (hlink : ∀ flag n, r.link = some (flag, n) → NameAt chunk n.toNat s) :
    NameAt chunk ptr (r.text ++ s) := by
  obtain ⟨labels, link, hlabels, hflag⟩ := r
  -- label by label; how the row ends matters behind the last one
  induction labels generalizing ptr with
  | nil =>
      rcases link with _ | ⟨flag, n⟩
      · obtain rfl := hlast rfl
        exact .stop (cons_prefix_drop_iff.mp hrow).1
      · obtain ⟨hhead, hrest⟩ := cons_prefix_drop_iff.mp hrow
        have hn := (cons_prefix_drop_iff.mp hrest).1
        exact .pointer hhead ((isPointer_iff flag).mpr (hflag _ rfl)) hn (hlink flag n rfl)
  | cons l ls ih =>
      have hl := hlabels l List.mem_cons_self
      let r' : Row := ⟨ls, link, fun l hl => hlabels l (List.mem_cons_of_mem _ hl), hflag⟩
      change (r'.cons l hl).bytes <+: _ at hrow
      obtain ⟨hhead, hlabel, hrest⟩ := (cons_prefix_iff hl).mp hrow
      have hname : NameAt chunk (ptr + 1 + l.length) (r'.text ++ s) := ih _ hrest hlast hlink
      -- the byte behind the label decides about the dot
      obtain ⟨next, hfirst, hnext⟩ := exists_first hrest
      rw [← toNat_ofNat_short hl.2] at hlabel hnext hname
      have hwhole := NameAt.label hhead (ofNat_short_ne_zero hl) (not_isPointer_short hl.2)
        hlabel hnext hname
      change NameAt chunk ptr ((r'.cons l hl).text ++ s)
      rw [text_cons hl, hfirst]
      simpa using hwhole

end Row

/-! ## All rows -/

theorem Rows.nameAt {rs : List Row} (h : Rows chunk ptr rs) :
    NameAt chunk ptr (rs.flatMap Row.text) := by
  induction h with
  | @last ptr r hlink hrow =>
      refine r.nameAt hrow (fun _ => rfl) fun flag n hsome => ?_
      exact absurd (hsome.symm.trans hlink) (Option.some_ne_none _)
  | @link ptr r rs flag n hlink hrow _ ih =>
      rw [List.flatMap_cons]
      refine r.nameAt hrow (fun hnone => ?_) fun flag' n' hsome => ?_
      · exact absurd (hlink.symm.trans hnone) (Option.some_ne_none _)
      · obtain ⟨rfl, rfl⟩ := Prod.mk.inj (Option.some.inj (hlink.symm.trans hsome))
        exact ih

/-- A label in front of the first row. -/
theorem Rows.cons {rs : List Row} (h : Rows chunk (ptr + 1 + l.length) rs)
    (hl : l ≠ [] ∧ l.length < 0xC0) (hhead : chunk[ptr]? = some (UInt8.ofNat l.length))
    (hlabel : copyOut chunk (ptr + 1) l.length = some l) :
    ∃ r rest, rs = r :: rest ∧ r.bytes <+: chunk.drop (ptr + 1 + l.length) ∧
      Rows chunk ptr (r.cons l hl :: rest) := by
  cases h with
  | @last _ r hlink hrow =>
      have hwhole := (Row.cons_prefix_iff hl).mpr ⟨hhead, hlabel, hrow⟩
      exact ⟨r, [], rfl, hrow, .last hlink hwhole⟩
  | @link _ r rest flag n hlink hrow hrest =>
      have hwhole := (Row.cons_prefix_iff hl).mpr ⟨hhead, hlabel, hrow⟩
      exact ⟨r, rest, rfl, hrow, .link hlink hwhole hrest⟩

/-- `dns_parse_name` finds a name where rows begin, and reads their text. -/
theorem nameAt_iff_spells : NameAt chunk ptr s ↔ Spells chunk ptr s := by
  constructor
  · intro h
    induction h with
    | @stop ptr hflag =>
        let r : Row := ⟨[], none, nofun, nofun⟩
        have hrow : r.bytes <+: chunk.drop ptr :=
          cons_prefix_drop_iff.mpr ⟨hflag, List.nil_prefix⟩
        exact ⟨[r], .last rfl hrow, rfl⟩
    | @pointer ptr flag n s hflag hpointer hn _ ih =>
        obtain ⟨rs, hrs, rfl⟩ := ih
        -- a row without labels
        let r : Row := ⟨[], some (flag, n), nofun, fun p hp => by
          obtain rfl := Option.some.inj hp
          exact (isPointer_iff flag).mp hpointer⟩
        have hrow : r.bytes <+: chunk.drop ptr :=
          cons_prefix_drop_iff.mpr ⟨hflag, cons_prefix_drop_iff.mpr ⟨hn, List.nil_prefix⟩⟩
        exact ⟨r :: rs, .link rfl hrow hrs, rfl⟩
    | @label ptr flag next l s hflag hne hpointer hlabel hnext _ ih =>
        obtain ⟨rs, hrs, rfl⟩ := ih
        have hlen := length_copyOut hlabel
        have hl : l ≠ [] ∧ l.length < 0xC0 := by
          rw [isPointer_iff] at hpointer
          refine ⟨fun hnil => hne (UInt8.toNat_inj.mp ?_), by omega⟩
          rw [← hlen, hnil]
          rfl
        rw [← hlen] at hrs hlabel hnext
        have hhead : chunk[ptr]? = some (UInt8.ofNat l.length) := by
          rw [hlen, UInt8.ofNat_toNat]
          exact hflag
        obtain ⟨r, rest, rfl, hrow, hrows⟩ := hrs.cons hl hhead hlabel
        obtain ⟨b, hfirst, hb⟩ := Row.exists_first hrow
        obtain rfl := Option.some.inj (hnext.symm.trans hb)
        refine ⟨_, hrows, ?_⟩
        rw [List.flatMap_cons, List.flatMap_cons, Row.text_cons hl, hfirst]
        simp
  · rintro ⟨rs, hrs, hs⟩
    exact hs ▸ hrs.nameAt

end

end CppTrack.Dns
