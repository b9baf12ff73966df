import CppTrack.Net.WebSocketProof

/-!
# Which first data the handshake reads inside the arrays

`readline` does not look at the size of `linebuf`, nor `recv_cb` at the last cell of the buffer, and
where there is no next line the loop looks at the cell before the first. So the first data of a
connection has to fit, line by line, up to a line with the word on it or to a blank one.
-/

namespace CppTrack.WebSocket

open Lib WebServer

/-- A text that the loop of `handshark` comes to an end on inside the arrays. -/
inductive Handled (ssl : OpenSsl) : List UInt8 → Prop where
  /-- There is room for the GUID behind the line, and the filter gives a byte to put a zero in
  place of. -/
  | key {s : List UInt8} : secWebSocketKey <:+: firstLine s →
      (firstLine s).length + guid.length < linebufSize →
      ssl.filter (cutDigest ssl (firstLine s)) ≠ [] → Handled ssl s
  /-- The last of the headers. -/
  | blank {s : List UInt8} {k : Nat} : ¬ secWebSocketKey <:+: firstLine s →
      (firstLine s).length < linebufSize → lineSize s = some k → [cr, lf] <+: s.drop k →
      Handled ssl s
  | next {s : List UInt8} {k : Nat} : ¬ secWebSocketKey <:+: firstLine s →
      (firstLine s).length < linebufSize → lineSize s = some k → ¬ [cr, lf] <+: s.drop k →
      Handled ssl (s.drop k) → Handled ssl s

section

variable {ssl : OpenSsl} {ev ev' : NtyEvent} {s bytes : List UInt8} {fuel idx fd : Nat}

/-- With as many turns as there are lines the loop is through. -/
theorem exists_done (h : Holds ev.buffer s) {r : List UInt8} (hr : Handled ssl r)
    (hidx : idx ≤ s.length) (heq : r = s.drop idx) :
    ∃ fuel ev', handsharkLoop ssl ev fuel idx = .done ev' := by
  induction hr generalizing idx with
  | key hword hroom hfilter =>
      subst heq
      obtain ⟨ev', haccept, -⟩ := accept_some ev (h.zero_line idx) hroom hfilter
      refine ⟨1, ev', ?_⟩
      rw [handsharkLoop_word h 0 (by omega) hword, haccept]
      rfl
  | blank hword hlen hk hblank =>
      subst heq
      have hle := le_of_lineSize hk
      rw [List.length_drop] at hle
      rw [List.drop_drop] at hblank
      refine ⟨1, ev, ?_⟩
      rw [handsharkLoop_next h 0 (by omega) hlen hword hk, if_pos hblank]
  | next hword hlen hk hblank _ ih =>
      subst heq
      have hle := le_of_lineSize hk
      rw [List.length_drop] at hle
      rw [List.drop_drop] at hblank
      obtain ⟨fuel, ev', hdone⟩ := ih (by omega) (List.drop_drop ..)
      refine ⟨fuel + 1, ev', ?_⟩
      rw [handsharkLoop_next h fuel (by omega) hlen hword hk, if_neg hblank]
      exact hdone

/-- Where the loop comes through, every line on the way was one that fits. -/
theorem handled_of_done (h : Holds ev.buffer s) (hidx : idx ≤ s.length)
    (hdone : handsharkLoop ssl ev fuel idx = .done ev') : Handled ssl (s.drop idx) := by
  induction fuel generalizing idx with
  | zero => exact absurd hdone nofun
  | succ fuel ih =>
      rcases Nat.lt_or_ge (firstLine (s.drop idx)).length linebufSize with hlt | hle
      · by_cases hword : secWebSocketKey <:+: firstLine (s.drop idx)
        · rw [handsharkLoop_word h fuel hlt hword] at hdone
          by_cases hgood : (firstLine (s.drop idx)).length + guid.length < linebufSize ∧
              ssl.filter (cutDigest ssl (firstLine (s.drop idx))) ≠ []
          · exact .key hword hgood.1 hgood.2
          · rw [accept_none ev (h.zero_line idx) hlt hgood] at hdone
            exact absurd hdone nofun
        · cases hk : lineSize (s.drop idx) with
          | none =>
              rw [handsharkLoop_last h fuel hlt hword hk] at hdone
              exact absurd hdone nofun
          | some k =>
              have hle := le_of_lineSize hk
              rw [List.length_drop] at hle
              rw [handsharkLoop_next h fuel (by omega) hlt hword hk] at hdone
              by_cases hblank : [cr, lf] <+: s.drop (idx + k)
              · exact .blank hword hlt hk (List.drop_drop.symm ▸ hblank)
              · rw [if_neg hblank] at hdone
                have hrest := ih (by omega) hdone
                rw [← List.drop_drop] at hblank hrest
                exact .next hword hlt hk hblank hrest
      · rw [handsharkLoop_long h fuel hle] at hdone
        exact absurd hdone nofun

theorem handshark_done_iff (h : Holds ev.buffer s) :
    (∃ fuel ev', handshark ssl fuel ev = .done ev') ↔ Handled ssl s := by
  constructor
  · rintro ⟨fuel, ev', hdone⟩
    exact handled_of_done h (Nat.zero_le _) hdone
  · intro hs
    exact exists_done h hs (Nat.zero_le _) rfl

/-- `recv_cb` comes through if `handshark` does. -/
theorem recvCb_done_iff (hfirst : ev.statusMachine = .wsHandshark) :
    (∃ fuel r, recvCb ssl fuel fd ev (.data bytes) = .done r) ↔
      bytes.length < bufferLength ∧ Handled ssl (bytes.takeWhile (· ≠ 0)) := by
  rcases Nat.lt_or_ge bytes.length bufferLength with hlt | hge
  · obtain ⟨ev₁, hreceived, hholds, hstatus⟩ := exists_received ev hlt
    have hrequest : ∀ fuel, websocketRequest ssl fuel ev₁ =
        handshark ssl fuel { ev₁ with statusMachine := .wsTranmission } := by
      intro fuel
      rw [websocketRequest, hstatus, hfirst]
    have hiff : (∃ fuel ev', handshark ssl fuel { ev₁ with statusMachine := .wsTranmission } =
        .done ev') ↔ Handled ssl (bytes.takeWhile (· ≠ 0)) := handshark_done_iff hholds
    rw [and_iff_right hlt, ← hiff]
    constructor
    · rintro ⟨fuel, r, hr⟩
      simp only [recvCb, hreceived, hrequest] at hr
      split at hr
      · rename_i ev' hdone
        exact ⟨fuel, ev', hdone⟩
      · exact absurd hr nofun
      · exact absurd hr nofun
    · rintro ⟨fuel, ev', hdone⟩
      simp only [recvCb, hreceived, hrequest]
      exact ⟨fuel, _, by rw [hdone]⟩
  · refine iff_of_false ?_ fun h => absurd h.1 (Nat.not_lt_of_le hge)
    rintro ⟨fuel, r, hr⟩
    rw [recvCb] at hr
    split at hr
    · exact absurd hr nofun
    · rename_i ev' hreceived
      exact absurd (lt_of_received hreceived) (Nat.not_lt_of_le hge)

end

/--
**The first data of a connection is handled inside the arrays if and only if** there is room for the
zero behind it, and each of its lines fits with its own zero, up to a line that has the word on it
and leaves room for the GUID, or to a blank line.
-/
theorem handshake_in_bounds_iff (ssl : OpenSsl) (fd : Nat) (ev : NtyEvent) (bytes : List UInt8) :
    (∃ fuel r, recvCb ssl fuel fd (acceptCb fd ev) (.data bytes) = .done r) ↔
      bytes.length < bufferLength ∧ Handled ssl (bytes.takeWhile (· ≠ 0)) :=
  recvCb_done_iff rfl

/-- What OpenSSL gives where all that is hashed has one digest. -/
def oneDigest (digest : List UInt8) (h : digest.length = 20) : OpenSsl where
  sha1 _ := digest
  sha1_length _ := h
  filter s := if s = [] then [] else Base64.encode s ++ [lf]
  filter_eq _ hs _ := if_neg hs
  filter_nil := .inl (if_pos rfl)

/-- An element as `accept_cb` finds it. -/
def NtyEvent.zero : NtyEvent where
  fd := 0
  events := 0
  callback := none
  status := 0
  buffer := .zero
  length := 0
  statusMachine := .wsHandshark

/-- Three bytes with no end of a line: the loop looks at the cell before the first. -/
theorem short_line_unsafe : ¬ ∀ ssl fd ev bytes, 1 ≤ bytes.length → bytes.length ≤ bufferLength →
    ∃ fuel r, recvCb ssl fuel fd (acceptCb fd ev) (.data bytes) = .done r := by
  intro h
  have hdone := h (oneDigest (List.replicate 20 1) rfl) 0 .zero getWord (by decide) (by decide)
  obtain ⟨-, hs⟩ := (recvCb_done_iff rfl).mp hdone
  have hword : ¬ secWebSocketKey <:+: firstLine (getWord.takeWhile (· ≠ 0)) := by decide
  have hlast : lineSize (getWord.takeWhile (· ≠ 0)) = none := by decide
  cases hs with
  | key hkey _ _ => exact hword hkey
  | blank _ _ hk _ => exact absurd (hlast.symm.trans hk) nofun
  | next _ _ hk _ _ => exact absurd (hlast.symm.trans hk) nofun

end CppTrack.WebSocket
