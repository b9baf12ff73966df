import CppTrack.Net.WebSocketBounds

/-!
# Which value the handshake answers with

The response should say the digest of the key and the GUID in base64, all of it. `handshark` takes
what is behind the first nineteen bytes of the first line that has the word on it for the key, and
`strlen` of the digest for its size.
-/

namespace CppTrack.WebSocket

open Lib WebServer

/-- The line `Sec-WebSocket-Key: ` with a key. -/
def keyLine (key : List UInt8) : List UInt8 := secWebSocketKey ++ [58, 32] ++ key

/-- The text of some lines. -/
def textOf (lines : List (List UInt8)) : List UInt8 := lines.flatMap (· ++ [cr, lf])

/-- A request, up to the line with the key and what comes behind it. -/
structure Request where
  before : List (List UInt8)
  key : List UInt8
  rest : List UInt8
  key_ne : key ≠ []
  /-- A blank line would be the end of the headers. -/
  before_ne : [] ∉ before
  line : ∀ l ∈ before ++ [keyLine key], ¬ [cr, lf] <:+: l ∧ l.length < linebufSize
  zero : 0 ∉ textOf (before ++ [keyLine key]) ++ rest
  size : (textOf (before ++ [keyLine key]) ++ rest).length < bufferLength

namespace Request

variable (r : Request)

def lines : List (List UInt8) := r.before ++ [keyLine r.key]

def text : List UInt8 := textOf r.lines ++ r.rest

/-- The first line with the word on it, wherever on it. -/
def keyed : List UInt8 := (r.lines.find? fun l => secWebSocketKey <:+: l).getD (keyLine r.key)

theorem find_keyed : (r.lines.find? fun l => secWebSocketKey <:+: l) = some r.keyed := by
  have hkey : decide (secWebSocketKey <:+: keyLine r.key) = true :=
    decide_eq_true ((List.prefix_append _ _).trans (List.prefix_append _ _)).isInfix
  have hmem : keyLine r.key ∈ r.lines := List.mem_append_right _ (List.mem_singleton_self _)
  have hsome : (r.lines.find? fun l => secWebSocketKey <:+: l).isSome = true :=
    List.find?_isSome.mpr ⟨keyLine r.key, hmem, hkey⟩
  obtain ⟨l, hl⟩ := Option.isSome_iff_exists.mp hsome
  rw [keyed, hl, Option.getD_some]

theorem nil_notMem_lines : [] ∉ r.lines := by
  intro h
  rcases List.mem_append.mp h with h | h
  · exact r.before_ne h
  · exact absurd (List.mem_singleton.mp h) nofun

end Request

section

variable {ssl : OpenSsl} {ev ev' : NtyEvent} {s l rest : List UInt8} {idx : Nat}

/-! ## Lines -/

theorem firstLine_append (h : ¬ [cr, lf] <:+: l) (t : List UInt8) :
    firstLine (l ++ [cr, lf] ++ t) = l ∧ lineSize (l ++ [cr, lf] ++ t) = some (l.length + 2) := by
  induction l with
  | nil => exact ⟨rfl, rfl⟩
  | cons c l ih =>
      have hrest : ¬ [cr, lf] <:+: l := fun hin => h (hin.trans (List.suffix_cons c l).isInfix)
      have hend : ¬ (c = cr ∧ (l ++ [cr, lf] ++ t).head? = some lf) := by
        rintro ⟨rfl, hhead⟩
        cases l with
        | nil => exact absurd (Option.some.inj hhead) (by decide)
        | cons d l =>
            obtain rfl := Option.some.inj hhead
            exact h ⟨[], l, rfl⟩
      obtain ⟨hline, hsize⟩ := ih hrest
      rw [List.cons_append, List.cons_append, firstLine, lineSize, if_neg hend, if_neg hend, hline,
        hsize]
      exact ⟨rfl, rfl⟩

/-- A line with something on it is not taken for the blank one. -/
theorem not_blank_append (h : ¬ [cr, lf] <:+: l) (hne : l ≠ []) (t : List UInt8) :
    ¬ [cr, lf] <+: l ++ [cr, lf] ++ t := by
  intro hblank
  cases l with
  | nil => exact hne rfl
  | cons c l =>
      obtain ⟨rfl, hlf⟩ := List.cons_prefix_cons.mp hblank
      cases l with
      | nil => exact absurd (List.cons_prefix_cons.mp hlf).1 (by decide)
      | cons d l =>
          obtain ⟨rfl, -⟩ := List.cons_prefix_cons.mp hlf
          exact h ⟨[], l, rfl⟩

theorem textOf_cons (l : List UInt8) (ls : List (List UInt8)) (rest : List UInt8) :
    textOf (l :: ls) ++ rest = l ++ [cr, lf] ++ (textOf ls ++ rest) := by
  rw [textOf, List.flatMap_cons, List.append_assoc]
  rfl

/-! ## The line that is answered -/

/-- The loop goes from line to line, and answers the first with the word. -/
theorem handsharkLoop_lines (ssl : OpenSsl) (h : Holds ev.buffer s) (ls : List (List UInt8))
    {kl : List UInt8} (hidx : idx ≤ s.length) (htext : s.drop idx = textOf ls ++ rest)
    (hfind : (ls.find? fun l => secWebSocketKey <:+: l) = some kl) (hnil : [] ∉ ls)
    (hline : ∀ l ∈ ls, ¬ [cr, lf] <:+: l ∧ l.length < linebufSize) :
    (∃ fuel, handsharkLoop ssl ev fuel idx = .ofOption (accept ssl ev (linebufOf kl))) ∧
      ∀ fuel, handsharkLoop ssl ev fuel idx = .outOfFuel ∨
        handsharkLoop ssl ev fuel idx = .ofOption (accept ssl ev (linebufOf kl)) := by
  induction ls generalizing idx with
  | nil => exact absurd hfind nofun
  | cons l ls ih =>
      obtain ⟨hend, hlt⟩ := hline l List.mem_cons_self
      rw [textOf_cons] at htext
      obtain ⟨hfirst, hsize⟩ := firstLine_append hend (textOf ls ++ rest)
      rw [← htext] at hfirst hsize
      have hshort : (firstLine (s.drop idx)).length < linebufSize := by rwa [hfirst]
      rw [List.find?_cons] at hfind
      by_cases hword : secWebSocketKey <:+: l
      · rw [decide_eq_true hword] at hfind
        obtain rfl := Option.some.inj hfind
        have hturn : ∀ fuel, handsharkLoop ssl ev (fuel + 1) idx =
            .ofOption (accept ssl ev (linebufOf l)) := by
          intro fuel
          rw [handsharkLoop_word h fuel hshort (by rwa [hfirst]), hfirst]
        refine ⟨⟨1, hturn 0⟩, fun fuel => ?_⟩
        cases fuel with
        | zero => exact .inl rfl
        | succ fuel => exact .inr (hturn fuel)
      · rw [decide_eq_false hword] at hfind
        have hle := le_of_lineSize hsize
        rw [List.length_drop] at hle
        have hnext : s.drop (idx + (l.length + 2)) = textOf ls ++ rest := by
          rw [← List.drop_drop, htext, List.drop_left']
          rw [List.length_append]
          rfl
        have hrest := ih (by omega) hnext hfind (List.not_mem_of_not_mem_cons hnil)
          fun l hl => hline l (List.mem_cons_of_mem _ hl)
        have hblank : ¬ [cr, lf] <+: s.drop (idx + (l.length + 2)) := by
          cases ls with
          | nil => exact absurd hfind nofun
          | cons l' ls =>
              rw [hnext, textOf_cons]
              refine not_blank_append (hline l' (by simp)).1 ?_ _
              rintro rfl
              exact hnil (by simp)
        have hturn : ∀ fuel, handsharkLoop ssl ev (fuel + 1) idx =
            handsharkLoop ssl ev fuel (idx + (l.length + 2)) := by
          intro fuel
          rw [handsharkLoop_next h fuel (by omega) hshort (by rwa [hfirst]) hsize, if_neg hblank]
        obtain ⟨⟨fuel, hdone⟩, hall⟩ := hrest
        refine ⟨⟨fuel + 1, (hturn fuel).trans hdone⟩, fun fuel => ?_⟩
        cases fuel with
        | zero => exact .inl rfl
        | succ fuel =>
            rw [hturn]
            exact hall fuel

/-! ## The value -/

/-- A digest with no zero is encoded whole. -/
theorem cutDigest_eq_iff (ssl : OpenSsl) (line key : List UInt8) :
    cutDigest ssl line = ssl.sha1 key ↔
      ssl.sha1 (keyText line) = ssl.sha1 key ∧ 0 ∉ ssl.sha1 key := by
  constructor
  · intro heq
    have hlen : (cutDigest ssl line).length = (ssl.sha1 (keyText line)).length := by
      rw [heq, ssl.sha1_length, ssl.sha1_length]
    have hwhole := (List.takeWhile_prefix _).eq_of_length hlen
    refine ⟨hwhole.symm.trans heq, ?_⟩
    rw [← heq]
    exact zero_notMem_takeWhile _
  · rintro ⟨heq, hzero⟩
    rw [cutDigest, heq, List.takeWhile_eq_self_iff]
    exact ne_zero_of_notMem hzero

theorem filter_ne_nil (hlen : s.length = 20) : ssl.filter s ≠ [] := by
  have hs : s ≠ [] := fun h => absurd (hlen.symm.trans (congrArg List.length h)) (by decide)
  rw [ssl.filter_eq s hs (by omega)]
  exact List.append_ne_nil_of_right_ne_nil _ (List.cons_ne_nil _ _)

theorem answered_iff (r : Request) (h : Holds ev.buffer r.text) (key : List UInt8) :
    (∃ fuel ev', handshark ssl fuel ev = .done ev' ∧
        sent ev' = response (Base64.encode (ssl.sha1 key))) ↔
      r.keyed.length + guid.length < linebufSize ∧
        ssl.sha1 (keyText r.keyed) = ssl.sha1 key ∧ 0 ∉ ssl.sha1 key := by
  obtain ⟨⟨fuel, hfuel⟩, hall⟩ := handsharkLoop_lines ssl h r.lines (Nat.zero_le _) rfl
    r.find_keyed r.nil_notMem_lines r.line
  have hmem : r.keyed ∈ r.lines := List.mem_of_find?_eq_some r.find_keyed
  have hzero : 0 ∉ r.keyed := by
    intro hb
    refine r.zero (List.mem_append_left _ (List.mem_flatMap.mpr ⟨_, hmem, ?_⟩))
    exact List.mem_append_left _ hb
  have hlt := (r.line _ hmem).2
  rw [← cutDigest_eq_iff]
  constructor
  · rintro ⟨fuel, ev', hdone, hsent⟩
    have haccept : Outcome.ofOption (accept ssl ev (linebufOf r.keyed)) = .done ev' := by
      rcases hall fuel with hfuel | hanswer
      · exact absurd (hfuel.symm.trans hdone) nofun
      · exact hanswer.symm.trans hdone
    by_cases hgood : r.keyed.length + guid.length < linebufSize ∧
        ssl.filter (cutDigest ssl r.keyed) ≠ []
    · obtain ⟨ev₁, hsome, hsent₁⟩ := accept_some ev hzero hgood.1 hgood.2
      rw [hsome] at haccept
      obtain rfl : ev₁ = ev' := Outcome.done.inj haccept
      have hvalue := response_injective (hsent₁.symm.trans hsent)
      exact ⟨hgood.1, Base64.encode_injective hvalue⟩
    · rw [accept_none ev hzero hlt hgood] at haccept
      exact absurd haccept nofun
  · rintro ⟨hroom, hdigest⟩
    have hne : ssl.filter (cutDigest ssl r.keyed) ≠ [] := by
      rw [hdigest]
      exact filter_ne_nil (ssl.sha1_length key)
    obtain ⟨ev₁, hsome, hsent⟩ := accept_some ev hzero hroom hne
    rw [hsome] at hfuel
    exact ⟨fuel, ev₁, hfuel, by rw [hsent, hdigest]⟩

end

/--
**The accept value is the digest of the key and the GUID in base64 if and only if** the first line
with the word leaves room for the GUID, what is hashed for it has that digest, and there is no zero
in the digest.
-/
theorem accept_value_iff (ssl : OpenSsl) (r : Request) (ev : NtyEvent)
    (h : Holds ev.buffer r.text) :
    (∃ fuel ev', handshark ssl fuel ev = .done ev' ∧
        sent ev' = response (Base64.encode (ssl.sha1 (r.key ++ guid)))) ↔
      r.keyed.length + guid.length < linebufSize ∧
        ssl.sha1 (keyText r.keyed) = ssl.sha1 (r.key ++ guid) ∧ 0 ∉ ssl.sha1 (r.key ++ guid) :=
  answered_iff r h _

/-- A buffer with a text in it. -/
def bufferOf (s : List UInt8) (h : s.length < bufferLength) : Buffer where
  cells := s ++ List.replicate (bufferLength - s.length) 0
  size := by
    rw [List.length_append, List.length_replicate]
    omega

theorem holds_bufferOf {s : List UInt8} (hs : 0 ∉ s) (h : s.length < bufferLength) :
    Holds (bufferOf s h) s := by
  obtain ⟨n, hn⟩ := Nat.exists_eq_succ_of_ne_zero (Nat.sub_ne_zero_of_lt h)
  refine ⟨hs, List.replicate n 0, ?_⟩
  show s ++ List.replicate (bufferLength - s.length) 0 = s ++ 0 :: List.replicate n 0
  rw [hn]
  rfl

/-- An element with the request in its buffer. -/
def Request.element (r : Request) : NtyEvent :=
  { NtyEvent.zero with buffer := bufferOf r.text r.size }

theorem Request.holds_element (r : Request) : Holds r.element.buffer r.text :=
  holds_bufferOf r.zero r.size

theorem textOf_singleton (l : List UInt8) : textOf [l] ++ [] = l ++ [cr, lf] :=
  (textOf_cons l [] []).trans (List.append_nil _)

/-- A key that a browser can send. -/
structure Nonce (key : List UInt8) : Prop where
  length : key.length = 24
  noCr : cr ∉ key
  noZero : 0 ∉ key

namespace Nonce

variable {key : List UInt8} (h : Nonce key)

include h

theorem notMem_keyLine : cr ∉ keyLine key ∧ 0 ∉ keyLine key := by
  have hword : cr ∉ secWebSocketKey ++ [58, 32] ∧ 0 ∉ secWebSocketKey ++ [58, 32] := by decide
  exact ⟨fun hb => (List.mem_append.mp hb).elim hword.1 h.noCr,
    fun hb => (List.mem_append.mp hb).elim hword.2 h.noZero⟩

theorem length_keyLine : (keyLine key).length = 43 := by
  rw [keyLine, List.length_append, h.length]
  rfl

end Nonce

/-- The request of one line. -/
def Nonce.request {key : List UInt8} (h : Nonce key) : Request where
  before := []
  key := key
  rest := []
  key_ne := fun hnil => absurd (h.length.symm.trans (congrArg List.length hnil)) (by decide)
  before_ne := List.not_mem_nil
  line := by
    intro l hl
    obtain rfl := List.mem_singleton.mp hl
    refine ⟨fun hin => h.notMem_keyLine.1 (hin.subset List.mem_cons_self), ?_⟩
    rw [h.length_keyLine]
    decide
  zero := by
    rw [List.nil_append, textOf_singleton]
    intro hb
    rcases List.mem_append.mp hb with hb | hb
    · exact h.notMem_keyLine.2 hb
    · exact absurd hb (by decide)
  size := by
    rw [List.nil_append, textOf_singleton, List.length_append, h.length_keyLine]
    decide

/-- The key in the comment of `readline`, `"QWz1vB/77j8J8JcT/qtiLQ=="`. -/
def commentKey : List UInt8 :=
  [81, 87, 122, 49, 118, 66, 47, 55, 55, 106, 56, 74, 56, 74, 99, 84, 47, 113, 116, 105, 76, 81,
    61, 61]

theorem nonce_commentKey : Nonce commentKey := ⟨rfl, by decide, by decide⟩

/-- Its digest. -/
def commentDigest : List UInt8 :=
  [64, 113, 255, 107, 122, 75, 199, 181, 171, 2, 220, 120, 250, 147, 177, 105, 2, 42, 204, 238]

theorem accept_value_iff_comment :
    let ssl := oneDigest commentDigest rfl
    let r := nonce_commentKey.request
    (∃ fuel ev', handshark ssl fuel r.element = .done ev' ∧
        sent ev' = response (Base64.encode (ssl.sha1 (r.key ++ guid)))) ↔
      r.keyed.length + guid.length < linebufSize ∧
        ssl.sha1 (keyText r.keyed) = ssl.sha1 (r.key ++ guid) ∧ 0 ∉ ssl.sha1 (r.key ++ guid) :=
  accept_value_iff (oneDigest commentDigest rfl) nonce_commentKey.request
    nonce_commentKey.request.element nonce_commentKey.request.holds_element

/-- `"AAAAAAAAAAAAAAAAAAAADg=="`. -/
def zeroEndKey : List UInt8 :=
  [65, 65, 65, 65, 65, 65, 65, 65, 65, 65, 65, 65, 65, 65, 65, 65, 65, 65, 65, 65, 68, 103, 61, 61]

theorem nonce_zeroEndKey : Nonce zeroEndKey := ⟨rfl, by decide, by decide⟩

/-- Its digest. -/
def zeroEndDigest : List UInt8 :=
  [218, 20, 13, 123, 96, 58, 106, 153, 141, 254, 247, 186, 197, 59, 18, 19, 22, 163, 103, 0]

/-- A key with a zero at the end of its digest: nineteen bytes are encoded. -/
theorem zero_end_cut : ¬ ∀ (ssl : OpenSsl) (r : Request) (ev : NtyEvent), Holds ev.buffer r.text →
    ∃ fuel ev', handshark ssl fuel ev = .done ev' ∧
      sent ev' = response (Base64.encode (ssl.sha1 (r.key ++ guid))) := by
  intro h
  have hholds := nonce_zeroEndKey.request.holds_element
  have hdone := h (oneDigest zeroEndDigest rfl) nonce_zeroEndKey.request _ hholds
  obtain ⟨-, -, hzero⟩ := (answered_iff _ hholds _).mp hdone
  exact hzero (by decide)

end CppTrack.WebSocket
