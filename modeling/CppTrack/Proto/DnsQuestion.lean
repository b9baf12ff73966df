import CppTrack.Proto.DnsName

/-!
# A host name, written and read back

`dns_create_question` cuts a host name at its dots and writes each piece behind its length, with a
zero byte that the next length overwrites. `dns_parse_name` puts the dots back where another length
follows.
-/

namespace CppTrack.Dns

open Lib

abbrev Label : Type := List UInt8

/-- Labels with single dots between them. -/
def dotted : List Label → List UInt8
  | [] => []
  | [l] => l
  | l :: l' :: ls => l ++ dot :: dotted (l' :: ls)

def encodeLabels (ls : List Label) : List UInt8 :=
  ls.flatMap fun l => UInt8.ofNat l.length :: l

/-- The labels behind their lengths, with the terminating zero. -/
def encodeName (ls : List Label) : List UInt8 := encodeLabels ls ++ [0]

/-- A label of a host name. -/
structure HostLabel (l : Label) : Prop where
  nonempty : l ≠ []
  short : l.length ≤ 63
  noDot : dot ∉ l
  noNul : 0 ∉ l

/-- A host name by its labels. -/
structure Hostname where
  labels : List Label
  nonempty : labels ≠ []
  ok : ∀ l ∈ labels, HostLabel l

/-- The string that it is. -/
def Hostname.text (h : Hostname) : List UInt8 := dotted h.labels

/-! ## Lengths -/

theorem toNat_ofNat_length {l : Label} (h : l.length ≤ 63) :
    (UInt8.ofNat l.length).toNat = l.length :=
  Nat.mod_eq_of_lt (Nat.lt_of_le_of_lt h (by decide))

/-- The two high bits are set from 192 on. -/
theorem isPointer_iff (flag : UInt8) : isPointer flag ↔ 192 ≤ flag.toNat := by
  have hall : ∀ n < 256, isPointer (UInt8.ofNat n) ↔ 192 ≤ n := by decide +kernel
  have := hall flag.toNat flag.toNat_lt
  rwa [UInt8.ofNat_toNat] at this

/-! ## Writing -/

theorem strtok_label {l : Label} (h : HostLabel l) (rest : List UInt8)
    (hrest : rest.takeWhile (· ≠ dot) = []) :
    strtok (l ++ rest) = some (l, rest.drop 1) := by
  have hpos : ∀ b ∈ l, decide (b ≠ dot) = true := fun b hb =>
    decide_eq_true fun heq => h.noDot (heq ▸ hb)
  have hstart : (l ++ rest).dropWhile (· = dot) = l ++ rest := by
    obtain ⟨a, l', rfl⟩ := List.exists_cons_of_ne_nil h.nonempty
    have ha : decide (a = dot) = false := decide_eq_false fun heq =>
      h.noDot (heq ▸ List.mem_cons_self)
    rw [List.cons_append, List.dropWhile_cons, ha]
    rfl
  have hne : l ++ rest ≠ [] := fun heq => h.nonempty (List.append_eq_nil_iff.mp heq).1
  have hdrop : rest.dropWhile (· ≠ dot) = rest := by
    have := List.takeWhile_append_dropWhile (p := fun b => decide (b ≠ dot)) (l := rest)
    rwa [hrest, List.nil_append] at this
  rw [strtok, hstart]
  show (if l ++ rest = [] then none else _) = _
  rw [if_neg hne, List.takeWhile_append_of_pos hpos, List.dropWhile_append_of_pos hpos, hrest,
    hdrop, List.append_nil]

/-- One turn of the loop: the length, the label, and the zero behind it. -/
theorem copyTokens_label (fuel : Nat) {l : Label} (h : HostLabel l) (rest done todo : List UInt8)
    (hrest : rest.takeWhile (· ≠ dot) = []) (hroom : l.length + 2 ≤ todo.length) :
    copyTokens (fuel + 1) (l ++ rest) done.length (done ++ todo) =
      copyTokens fuel (rest.drop 1) (done ++ UInt8.ofNat l.length :: l).length
        (done ++ UInt8.ofNat l.length :: l ++ 0 :: todo.drop (l.length + 2)) := by
  have hlen : copyTo (done ++ todo) done.length [UInt8.ofNat l.length] =
      some (done ++ [UInt8.ofNat l.length] ++ todo.drop 1) :=
    copyTo_behind rfl (by rw [List.length_singleton]; omega)
  have hone : done.length + 1 = (done ++ [UInt8.ofNat l.length]).length := by simp
  have hlabel : copyTo (done ++ [UInt8.ofNat l.length] ++ todo.drop 1) (done.length + 1)
      (l ++ [0]) = some (done ++ [UInt8.ofNat l.length] ++ (l ++ [0]) ++
        (todo.drop 1).drop (l ++ [0]).length) := by
    refine copyTo_behind hone ?_
    rw [List.length_append, List.length_singleton, List.length_drop]
    omega
  simp only [copyTokens, strtok_label h rest hrest, hlen, hlabel, inBounds_some, ok_bind]
  congr 1
  · simp only [List.length_append, List.length_cons]
    omega
  · rw [List.drop_drop, List.length_append, List.length_singleton,
      show 1 + (l.length + 1) = l.length + 2 by omega]
    simp

/-- The loop of `dns_create_question` fills the block from where it stands. -/
theorem copyTokens_dotted (ls : List Label) (hok : ∀ l ∈ ls, HostLabel l) (hne : ls ≠ [])
    (done todo : List UInt8) (hroom : todo.length = (dotted ls).length + 2) (fuel : Nat)
    (hfuel : ls.length < fuel) :
    copyTokens fuel (dotted ls) done.length (done ++ todo) = .ok (done ++ encodeName ls) := by
  induction ls generalizing done todo fuel with
  | nil => exact absurd rfl hne
  | cons l ls ih =>
      have hl := hok l List.mem_cons_self
      obtain ⟨fuel, rfl⟩ := Nat.exists_eq_succ_of_ne_zero (Nat.ne_of_gt (Nat.zero_lt_of_lt hfuel))
      cases ls with
      | nil =>
          have hroom : todo.length = l.length + 2 := hroom
          have hturn := copyTokens_label fuel hl [] done todo rfl (Nat.le_of_eq hroom.symm)
          rw [List.append_nil] at hturn
          obtain ⟨fuel, rfl⟩ := Nat.exists_eq_succ_of_ne_zero
            (Nat.ne_of_gt (Nat.lt_of_succ_lt_succ hfuel))
          rw [dotted, hturn, List.drop_eq_nil_of_le (Nat.le_of_eq hroom)]
          show Except.ok _ = Except.ok _
          simp [encodeName, encodeLabels]
      | cons l' ls =>
          have hlong : (dotted (l :: l' :: ls)).length =
              l.length + (dotted (l' :: ls)).length + 1 := by
            rw [dotted, List.length_append, List.length_cons, Nat.add_assoc]
          have hturn := copyTokens_label fuel hl (dot :: dotted (l' :: ls)) done todo rfl
            (by omega)
          -- what is left of the block is as long as the rest of the name needs
          have hleft : (0 :: todo.drop (l.length + 2)).length = (dotted (l' :: ls)).length + 2 := by
            rw [List.length_cons, List.length_drop]
            omega
          rw [dotted, hturn, List.drop_succ_cons, List.drop_zero,
            ih (fun l hl => hok l (List.mem_cons_of_mem _ hl)) (List.cons_ne_nil _ _) _ _ hleft _
              (Nat.lt_of_succ_lt_succ hfuel)]
          simp [encodeName, encodeLabels]

/-! ## Reading -/

theorem ofNat_length_ne_zero {l : Label} (hok : l ≠ [] ∧ l.length ≤ 63) :
    UInt8.ofNat l.length ≠ 0 := by
  intro heq
  have hzero : l.length = 0 := (toNat_ofNat_length hok.2).symm.trans (congrArg UInt8.toNat heq)
  exact hok.1 (List.eq_nil_of_length_eq_zero hzero)

section

variable {chunk pre post : List UInt8} {l : Label} {ls : List Label}

/-- A name with no labels left is its zero. -/
theorem getElem?_encodeName_nil (hchunk : chunk = pre ++ (encodeName [] ++ post)) :
    chunk[pre.length]? = some 0 := by
  rw [hchunk, List.getElem?_append_right (Nat.le_refl _), Nat.sub_self]
  rfl

/-- Otherwise there is a length, a label, and the rest of the name. -/
theorem getElem?_encodeName_cons (hchunk : chunk = pre ++ (encodeName (l :: ls) ++ post)) :
    chunk[pre.length]? = some (UInt8.ofNat l.length) := by
  rw [hchunk, List.getElem?_append_right (Nat.le_refl _), Nat.sub_self]
  rfl

theorem encodeName_behind (hchunk : chunk = pre ++ (encodeName (l :: ls) ++ post)) :
    chunk = (pre ++ UInt8.ofNat l.length :: l) ++ (encodeName ls ++ post) := by
  rw [hchunk]
  simp [encodeName, encodeLabels]

theorem length_behind (hshort : l.length ≤ 63) : (pre ++ UInt8.ofNat l.length :: l).length =
    pre.length + 1 + (UInt8.ofNat l.length).toNat := by
  rw [toNat_ofNat_length hshort, List.length_append, List.length_cons]
  omega

end

/-! ## The round trip -/

section

variable {q : Question}

/-- What is asked of a host name: it is written whole, and read back as it was. -/
def RoundTrips (h : Hostname) : Prop :=
  ∀ (fresh : Nat → UInt8) (header : Header) (request : List UInt8) (n : Nat),
    12 + (h.text.length + 2) + 4 ≤ request.length → h.text.length ≤ n →
    ∃ q, dnsCreateQuestion fresh h.text = .ok q ∧ q.length = h.text.length + 2 ∧
      q.qname.length = h.text.length + 2 ∧ q.qname = encodeName h.labels ∧
      ∃ built length, dnsBuildRequest header q request = .ok (built, length) ∧
        ∃ fuel, dnsParseName fuel built 12 (List.replicate n 0) 0 =
          .ok (h.text ++ List.replicate (n - h.text.length) 0, h.text.length)

theorem toInt_lt (n : Nat) : toInt n < 2 ^ 31 := by
  have h := Int.bmod_lt (x := n) (m := wordSize) (by decide)
  have hhalf : ((wordSize : Int) + 1) / 2 = 2 ^ 31 := by decide
  exact hhalf ▸ h

/-- A name has fewer labels than bytes. -/
theorem length_le_dotted (ls : List Label) (hok : ∀ l ∈ ls, HostLabel l) :
    ls.length ≤ (dotted ls).length := by
  induction ls with
  | nil => exact Nat.le_refl 0
  | cons l ls ih =>
      have hpos := List.length_pos_of_ne_nil (hok l List.mem_cons_self).nonempty
      have hrec := ih fun l hl => hok l (List.mem_cons_of_mem _ hl)
      cases ls with
      | nil => exact hpos
      | cons l' ls =>
          simp only [dotted, List.length_append, List.length_cons] at hrec ⊢
          omega

/-- What `dns_create_question` returns. -/
theorem dnsCreateQuestion_eq (fresh : Nat → UInt8) (h : Hostname) :
    ∃ q, dnsCreateQuestion fresh h.text = .ok q ∧ q.length = toInt (h.text.length + 2) ∧
      q.qname = encodeName h.labels := by
  have hroom : ((List.range (h.text.length + 2)).map fresh).length =
      (dotted h.labels).length + 2 := by
    rw [List.length_map, List.length_range]
    rfl
  have hfill : copyTokens (h.text.length + 1) h.text 0
      ((List.range (h.text.length + 2)).map fresh) = .ok (encodeName h.labels) :=
    copyTokens_dotted h.labels h.ok h.nonempty [] _ hroom _
      (Nat.lt_succ_of_le (length_le_dotted h.labels h.ok))
  refine ⟨⟨toInt (h.text.length + 2), 1, 1, encodeName h.labels⟩, ?_, by dsimp only, rfl⟩
  rw [dnsCreateQuestion, hfill]
  rfl

/-- The length of a question that is read back is an `int`. -/
theorem RoundTrips.length_lt {h : Hostname} (hall : RoundTrips h) :
    h.text.length + 2 < 2 ^ 31 := by
  obtain ⟨q, hq, hint, -⟩ := hall (fun _ => 0) (dnsCreateHeader 0)
    (List.replicate (12 + (h.text.length + 2) + 4) 0) h.text.length
    (by rw [List.length_replicate]) (Nat.le_refl _)
  obtain ⟨q', hq', hint', -⟩ := dnsCreateQuestion_eq (fun _ => 0) h
  obtain rfl := Except.ok.inj (hq.symm.trans hq')
  have hlt := toInt_lt (h.text.length + 2)
  rw [← hint', hint] at hlt
  exact_mod_cast hlt

end

/-! ## A name too long for an `int` -/

end CppTrack.Dns
