import CppTrack.Net.WebSocket

/-!
# One turn of the handshake

What the loop of `handshark` does with a line depends on the line alone: how long it is, whether the
word is on it, and what is behind it. A line with the word is answered, and whether that goes well
depends on its length and on the digest.
-/

namespace CppTrack.WebSocket

open Lib WebServer

/-! ## What is in the buffer -/

/-- The string that is in the buffer, whatever there is behind it. -/
structure Holds (b : Buffer) (s : List UInt8) : Prop where
  zero : 0 ∉ s
  cells : ∃ t, b.cells = s ++ 0 :: t

section

variable {ssl : OpenSsl} {ev ev' : NtyEvent} {b b' : Buffer} {s line bytes cells : List UInt8}
  {idx off : Nat}

theorem Buffer.write_eq_some_iff :
    b.write off cells = some b' ↔ copyTo b.cells off cells = some b'.cells := by
  unfold Buffer.write
  split
  · rename_i cells' heq
    constructor
    · rintro ⟨⟩
      exact heq
    · intro h
      obtain ⟨cells'', hsize⟩ := b'
      obtain rfl : cells' = cells'' := Option.some.inj (heq.symm.trans h)
      rfl
  · rename_i heq
    exact ⟨nofun, fun h => absurd (heq.symm.trans h) nofun⟩

/-- What fits the buffer can be written to it. -/
theorem Buffer.exists_write (b : Buffer) (h : off + cells.length ≤ bufferLength) :
    ∃ b', b.write off cells = some b' ∧
      b'.cells = b.cells.take off ++ cells ++ b.cells.drop (off + cells.length) := by
  have hcopy : copyTo b.cells off cells =
      some (b.cells.take off ++ cells ++ b.cells.drop (off + cells.length)) :=
    if_pos (h.trans_eq b.size.symm)
  exact ⟨⟨_, (length_copyTo hcopy).trans b.size⟩, Buffer.write_eq_some_iff.mpr hcopy, rfl⟩

theorem Buffer.le_of_write (h : b.write off cells = some b') :
    off + cells.length ≤ bufferLength := by
  obtain ⟨hle, -⟩ := Option.ite_none_right_eq_some.mp (Buffer.write_eq_some_iff.mp h)
  exact hle.trans_eq b.size

theorem cstr_append (hs : 0 ∉ s) (t : List UInt8) : cstr (s ++ 0 :: t) = some s := by
  have hstop : (0 :: t).takeWhile (· ≠ 0) = [] := rfl
  have hmem : 0 ∈ s ++ 0 :: t := List.mem_append_right s List.mem_cons_self
  rw [cstr, if_pos hmem, List.takeWhile_append_of_pos (ne_zero_of_notMem hs), hstop,
    List.append_nil]

/-- A string with zeros behind it. -/
theorem cstr_zeros (hs : 0 ∉ s) {n : Nat} (hn : 0 < n) :
    cstr (s ++ List.replicate n 0) = some s := by
  obtain ⟨n, rfl⟩ := Nat.exists_eq_succ_of_ne_zero (Nat.ne_of_gt hn)
  exact cstr_append hs _

theorem cstr_full (hs : 0 ∉ s) : cstr s = none := if_neg hs

/-- A string ends at the first zero of the data. -/
theorem takeWhile_append_zero (bytes t : List UInt8) :
    ∃ t', bytes ++ 0 :: t = bytes.takeWhile (· ≠ 0) ++ 0 :: t' := by
  induction bytes with
  | nil => exact ⟨t, rfl⟩
  | cons c bytes ih =>
      obtain ⟨t', ht'⟩ := ih
      by_cases hc : c = 0
      · exact ⟨bytes ++ 0 :: t, by subst hc; rfl⟩
      · refine ⟨t', ?_⟩
        have hne : decide (c ≠ 0) = true := decide_eq_true hc
        rw [List.takeWhile_cons, if_pos hne, List.cons_append, List.cons_append, ht']

/-- `recv_cb` has room for the zero if the data does not fill the buffer. -/
theorem exists_received (ev : NtyEvent) (h : bytes.length < bufferLength) :
    ∃ ev', received ev bytes = some ev' ∧ Holds ev'.buffer (bytes.takeWhile (· ≠ 0)) ∧
      ev'.statusMachine = ev.statusMachine := by
  obtain ⟨b, hb, hcells⟩ := Buffer.exists_write ev.buffer
    ((Nat.zero_add bytes.length).trans_le (Nat.le_of_lt h))
  have hzero : bytes.length + [(0 : UInt8)].length ≤ bufferLength := h
  obtain ⟨b', hb', hcells'⟩ := Buffer.exists_write b hzero
  refine ⟨{ ev with buffer := b', length := bytes.length }, ?_, ⟨?_, ?_⟩, rfl⟩
  · simp only [received, hb, hb', Option.bind_eq_bind, Option.bind_some]
  · exact zero_notMem_takeWhile bytes
  · obtain ⟨t, ht⟩ := takeWhile_append_zero bytes (b.cells.drop (bytes.length + 1))
    refine ⟨t, hcells'.trans ?_⟩
    rw [← ht, hcells, List.take_zero, List.nil_append, List.take_left', List.append_assoc]
    · rfl
    · rfl

theorem lt_of_received (h : received ev bytes = some ev') : bytes.length < bufferLength := by
  obtain ⟨b, -, h⟩ := Option.bind_eq_some_iff.mp h
  obtain ⟨b', hb', -⟩ := Option.bind_eq_some_iff.mp h
  exact Buffer.le_of_write hb'

/-! ## The lines of a request -/

theorem Holds.zero_line (h : Holds b s) (idx : Nat) : 0 ∉ firstLine (s.drop idx) := fun hmem =>
  h.zero (List.mem_of_mem_drop (mem_of_mem_firstLine hmem))

theorem le_of_lineSize {k : Nat} (h : lineSize s = some k) : k ≤ s.length := by
  induction s generalizing k with
  | nil => exact absurd h (Option.some_ne_none _).symm
  | cons c s ih =>
      rw [lineSize] at h
      split at h
      · rename_i hend
        obtain rfl := Option.some.inj h
        cases s with
        | nil => exact absurd hend.2 (Option.some_ne_none _).symm
        | cons d s => exact Nat.le_add_left 2 s.length
      · obtain ⟨k', hk', rfl⟩ := Option.map_eq_some_iff.mp h
        exact Nat.succ_le_succ (ih hk')

/-- `linebuf` with a line in it. -/
def linebufOf (line : List UInt8) : List UInt8 :=
  line ++ List.replicate (linebufSize - line.length) 0

theorem readline_fits (h : Holds b s) (hle : (firstLine (s.drop idx)).length ≤ linebufSize) :
    readline b idx (List.replicate linebufSize 0) =
      some (nextIdx (s.drop idx) idx, linebufOf (firstLine (s.drop idx))) := by
  obtain ⟨t, ht⟩ := h.cells
  rw [readline, ht, cstr_append h.zero]
  exact WebServer.readline_fits _ [] idx linebufSize hle

theorem readline_long (h : Holds b s) (hlt : linebufSize < (firstLine (s.drop idx)).length) :
    readline b idx (List.replicate linebufSize 0) = none := by
  obtain ⟨t, ht⟩ := h.cells
  rw [readline, ht, cstr_append h.zero]
  exact WebServer.readline_long _ [] idx linebufSize hlt

theorem Buffer.get_natCast (b : Buffer) (n : Nat) : b.get n = b.cells[n]? := by
  rw [Buffer.get, if_neg (by omega), Int.toNat_natCast]

/-- Behind the string there is a zero, so the look at it stays inside. -/
theorem blankAt_next (h : Holds b s) (hidx : idx ≤ s.length) :
    blankAt b idx = some (decide ([cr, lf] <+: s.drop idx)) := by
  obtain ⟨t, ht⟩ := h.cells
  have hget : ∀ i, b.get ((idx + i : Nat) : Int) = (s.drop idx ++ 0 :: t)[i]? := by
    intro i
    rw [Buffer.get_natCast, ht, ← List.drop_append_of_le_length hidx, List.getElem?_drop]
  have h0 := hget 0
  have h1 := hget 1
  rw [Nat.add_zero] at h0
  rw [Int.natCast_add] at h1
  rw [blankAt, h0]
  generalize s.drop idx = r at h1 ⊢
  -- the second byte is looked at only where the first is a `'\r'`
  cases r with
  | nil => rfl
  | cons c r =>
      by_cases hc : c = cr
      · subst hc
        cases r with
        | nil =>
            have hlf : b.get (idx + 1) = some 0 := h1
            simp only [List.cons_append, List.getElem?_cons_zero, Option.bind_eq_bind,
              Option.bind_some, ne_eq, not_true_eq_false, if_false, hlf]
            rfl
        | cons d r =>
            have hlf : b.get (idx + 1) = some d := h1
            have hiff : [cr, lf] <+: cr :: d :: r ↔ d = lf := by
              rw [List.prefix_cons_inj, List.cons_prefix_cons]
              exact ⟨fun h => h.1.symm, fun h => ⟨h.symm, List.nil_prefix⟩⟩
            simp only [List.cons_append, List.getElem?_cons_zero, Option.bind_eq_bind,
              Option.bind_some, ne_eq, not_true_eq_false, if_false, hlf, hiff]
      · have hno : ¬ [cr, lf] <+: c :: r := fun hpre => hc (List.cons_prefix_cons.mp hpre).1.symm
        simp only [List.cons_append, List.getElem?_cons_zero, Option.bind_eq_bind,
          Option.bind_some, ne_eq, hc, not_false_eq_true, if_true, hno, decide_false]

/-! ## One turn of the loop -/

/-- A line that leaves no room for its zero. -/
theorem handsharkLoop_long (h : Holds ev.buffer s) (fuel : Nat)
    (hle : linebufSize ≤ (firstLine (s.drop idx)).length) :
    handsharkLoop ssl ev (fuel + 1) idx = .outOfBounds := by
  have hzero := h.zero_line idx
  rw [handsharkLoop]
  rcases Nat.lt_or_eq_of_le hle with hlt | heq
  · rw [readline_long h hlt]
  · have hfull : linebufOf (firstLine (s.drop idx)) = firstLine (s.drop idx) := by
      rw [linebufOf, ← heq, Nat.sub_self, List.replicate_zero, List.append_nil]
    have hstr := strstr_zeros hzero secWebSocketKey 0
    rw [List.replicate_zero, List.append_nil] at hstr
    rw [if_neg (Nat.lt_irrefl 0)] at hstr
    rw [readline_fits h heq.symm.le, hfull]
    dsimp only
    by_cases hword : secWebSocketKey <:+: firstLine (s.drop idx)
    · -- `strcat` looks for the end
      rw [hstr, if_pos hword]
      dsimp only
      rw [accept, cstr_full hzero]
      rfl
    · rw [hstr, if_neg hword]

/-- A line with the word in it. -/
theorem handsharkLoop_word (h : Holds ev.buffer s) (fuel : Nat)
    (hlt : (firstLine (s.drop idx)).length < linebufSize)
    (hword : secWebSocketKey <:+: firstLine (s.drop idx)) :
    handsharkLoop ssl ev (fuel + 1) idx =
      .ofOption (accept ssl ev (linebufOf (firstLine (s.drop idx)))) := by
  have hzero := h.zero_line idx
  have hstr : strstr (linebufOf (firstLine (s.drop idx))) secWebSocketKey = some true := by
    rw [linebufOf, strstr_zeros hzero, if_pos hword]
  simp only [handsharkLoop, readline_fits h hlt.le, hstr]

theorem strstr_linebufOf (hline : 0 ∉ line) (hlt : line.length < linebufSize)
    (hword : ¬ secWebSocketKey <:+: line) :
    strstr (linebufOf line) secWebSocketKey = some false := by
  rw [linebufOf, strstr_zeros hline, if_neg hword, if_pos (Nat.sub_pos_of_lt hlt)]

/-- A line without it, and the next one. -/
theorem handsharkLoop_next (h : Holds ev.buffer s) (fuel : Nat) {k : Nat}
    (hidx : idx + k ≤ s.length) (hlt : (firstLine (s.drop idx)).length < linebufSize)
    (hword : ¬ secWebSocketKey <:+: firstLine (s.drop idx))
    (hk : lineSize (s.drop idx) = some k) :
    handsharkLoop ssl ev (fuel + 1) idx =
      if [cr, lf] <+: s.drop (idx + k) then .done ev
      else handsharkLoop ssl ev fuel (idx + k) := by
  have hstr := strstr_linebufOf (h.zero_line idx) hlt hword
  have hnext : nextIdx (s.drop idx) idx = ((idx + k : Nat) : Int) := by rw [nextIdx, hk]
  simp only [handsharkLoop, readline_fits h hlt.le, hstr, hnext, blankAt_next h hidx]
  have hpos : ¬ ((idx + k : Nat) : Int) = -1 := by omega
  rw [if_neg hpos, Int.toNat_natCast]
  by_cases hblank : [cr, lf] <+: s.drop (idx + k)
  · rw [decide_eq_true hblank, if_pos hblank]
  · rw [decide_eq_false hblank, if_neg hblank]

/-- A line without it that is the last: `readline` returns -1, and the loop looks there. -/
theorem handsharkLoop_last (h : Holds ev.buffer s) (fuel : Nat)
    (hlt : (firstLine (s.drop idx)).length < linebufSize)
    (hword : ¬ secWebSocketKey <:+: firstLine (s.drop idx)) (hk : lineSize (s.drop idx) = none) :
    handsharkLoop ssl ev (fuel + 1) idx = .outOfBounds := by
  have hstr := strstr_linebufOf (h.zero_line idx) hlt hword
  have hnext : nextIdx (s.drop idx) idx = -1 := by rw [nextIdx, hk]
  have hout : blankAt ev.buffer (-1) = none := rfl
  simp only [handsharkLoop, readline_fits h hlt.le, hstr, hnext, hout]

/-! ## The value of the response -/

/-- What is hashed for a line. -/
def keyText (line : List UInt8) : List UInt8 := (line ++ guid).drop websockKeyLength

/-- What `strlen` leaves of the digest. -/
def cutDigest (ssl : OpenSsl) (line : List UInt8) : List UInt8 :=
  (ssl.sha1 (keyText line)).takeWhile (· ≠ 0)

theorem filter_of_ne_nil (hlen : s.length ≤ 48) (hne : ssl.filter s ≠ []) :
    ssl.filter s = Base64.encode s ++ [lf] := by
  by_cases hs : s = []
  · subst hs
    rcases ssl.filter_nil with hnil | hlf
    · exact absurd hnil hne
    · exact hlf
  · exact ssl.filter_eq s hs hlen

theorem base64Encode_eq (hlen : s.length ≤ 20) (hne : ssl.filter s ≠ []) :
    ∃ t, base64Encode ssl s (List.replicate 32 0) = some (Base64.encode s ++ 0 :: t) := by
  have hdata := filter_of_ne_nil (hlen.trans (by decide)) hne
  have hdigits := Base64.length_encode s
  have hroom : (Base64.encode s ++ [lf]).length ≤ (List.replicate 32 (0 : UInt8)).length := by
    rw [List.length_append, List.length_singleton, List.length_replicate, hdigits]
    omega
  have hlast : (Base64.encode s ++ [lf]).length - 1 = (Base64.encode s).length := by
    rw [List.length_append, List.length_singleton, Nat.add_sub_cancel]
  refine ⟨(List.replicate 32 0).drop (Base64.encode s ++ [lf]).length, ?_⟩
  rw [base64Encode, hdata, copyTo_front hroom, Option.bind_eq_bind, Option.bind_some, if_neg,
    List.append_assoc, hlast]
  · exact copyTo_middle rfl rfl
  · exact List.append_ne_nil_of_right_ne_nil _ (List.cons_ne_nil _ _)

theorem base64Encode_nil (h : ssl.filter s = []) (outStr : List UInt8) :
    base64Encode ssl s outStr = none := by
  rw [base64Encode, h, copyTo_nil (Nat.zero_le _)]
  rfl

theorem length_response (value : List UInt8) : (response value).length = value.length + 101 := by
  have hhead : ("HTTP/1.1 101 Switching Protocols\r\n" ++ "Upgrade: websocket\r\n" ++
      "Connection: Upgrade\r\n" ++ "Sec-WebSocket-Accept: ").utf8ByteSize = 97 := by decide
  have hend : "\r\n\r\n".utf8ByteSize = 4 := by decide
  rw [response, List.length_append, List.length_append, length_bytesOf, length_bytesOf, hhead, hend]
  omega

theorem response_injective : Function.Injective response := by
  intro v v' h
  exact List.append_cancel_left (List.append_cancel_right h)

/-- What a line is made to in `linebuf`, and what is hashed of it. -/
theorem exists_keyed (hline : 0 ∉ line) (hlt : line.length + guid.length < linebufSize) :
    ∃ linebuf, copyTo (linebufOf line) line.length (guid ++ [0]) = some linebuf ∧
      cstr (linebuf.drop websockKeyLength) = some (keyText line) := by
  have hroom : (guid ++ [0]).length ≤
      (List.replicate (linebufSize - line.length) (0 : UInt8)).length := by
    rw [List.length_append, List.length_singleton, List.length_replicate]
    omega
  have hguid : 0 ∉ guid := by decide
  have hzero : 0 ∉ keyText line := by
    intro h
    rcases List.mem_append.mp (List.mem_of_mem_drop h) with h | h
    · exact hline h
    · exact hguid h
  have hlong : websockKeyLength ≤ (line ++ guid).length := by
    rw [List.length_append]
    exact Nat.le_add_left_of_le (by decide)
  refine ⟨_, copyTo_behind rfl hroom, ?_⟩
  rw [← List.append_assoc, List.append_assoc _ [0], List.drop_append_of_le_length hlong]
  exact cstr_append hzero _

theorem length_cutDigest (ssl : OpenSsl) (line : List UInt8) : (cutDigest ssl line).length ≤ 20 :=
  (List.takeWhile_prefix _).length_le.trans_eq (ssl.sha1_length _)

theorem cstr_secData (ssl : OpenSsl) (line : List UInt8) :
    ∃ secData, copyTo (List.replicate 128 0) 0 (ssl.sha1 (keyText line)) = some secData ∧
      cstr secData = some (cutDigest ssl line) := by
  have hlen := ssl.sha1_length (keyText line)
  have hroom : (ssl.sha1 (keyText line)).length ≤ (List.replicate 128 (0 : UInt8)).length := by
    rw [hlen, List.length_replicate]
    exact Nat.le_of_ble_eq_true rfl
  obtain ⟨t, ht⟩ := takeWhile_append_zero (ssl.sha1 (keyText line)) (List.replicate 107 0)
  refine ⟨_, copyTo_front hroom, ?_⟩
  rw [hlen, List.drop_replicate]
  exact (congrArg cstr ht).trans (cstr_append (zero_notMem_takeWhile _) t)

/-- The response to a line that leaves room for the GUID. -/
theorem accept_some (ev : NtyEvent) (hline : 0 ∉ line)
    (hlt : line.length + guid.length < linebufSize)
    (hne : ssl.filter (cutDigest ssl line) ≠ []) :
    ∃ ev', accept ssl ev (linebufOf line) = some ev' ∧
      sent ev' = response (Base64.encode (cutDigest ssl line)) := by
  obtain ⟨linebuf, hcat, hkey⟩ := exists_keyed hline hlt
  obtain ⟨secData, hsha, hdigest⟩ := cstr_secData ssl line
  obtain ⟨t, hvalue⟩ := base64Encode_eq (length_cutDigest ssl line) hne
  have hstr : cstr (linebufOf line) = some line := cstr_zeros hline (by omega)
  have hroom : 0 + (response (Base64.encode (cutDigest ssl line)) ++ [0]).length ≤
      bufferLength := by
    have hle := length_cutDigest ssl line
    rw [List.length_append, length_response, Base64.length_encode]
    unfold bufferLength
    simp only [List.length_singleton]
    omega
  obtain ⟨b, hwrite, hcells⟩ := Buffer.exists_write .zero hroom
  refine ⟨{ ev with
    buffer := b, length := (response (Base64.encode (cutDigest ssl line))).length }, ?_, ?_⟩
  · have hcut := cstr_append (Base64.zero_notMem_encode (cutDigest ssl line)) t
    simp only [accept, Option.bind_eq_bind]
    rw [hstr, Option.bind_some, hcat, Option.bind_some, hkey, Option.bind_some, hsha,
      Option.bind_some, hdigest, Option.bind_some, hvalue, Option.bind_some, hcut,
      Option.bind_some, hwrite, Option.bind_some]
  · rw [sent]
    dsimp only
    rw [hcells, Int.toNat_natCast, List.take_zero, List.nil_append, List.append_assoc,
      List.take_left']
    rfl

/-- No other line is answered inside the arrays. -/
theorem accept_none (ev : NtyEvent) (hline : 0 ∉ line) (hlt : line.length < linebufSize)
    (h : ¬ (line.length + guid.length < linebufSize ∧ ssl.filter (cutDigest ssl line) ≠ [])) :
    accept ssl ev (linebufOf line) = none := by
  have hstr : cstr (linebufOf line) = some line := cstr_zeros hline (by omega)
  by_cases hroom : line.length + guid.length < linebufSize
  · have hnil : ssl.filter (cutDigest ssl line) = [] := by
      by_contra hne
      exact h ⟨hroom, hne⟩
    obtain ⟨linebuf, hcat, hkey⟩ := exists_keyed hline hroom
    obtain ⟨secData, hsha, hdigest⟩ := cstr_secData ssl line
    simp only [accept, Option.bind_eq_bind]
    rw [hstr, Option.bind_some, hcat, Option.bind_some, hkey, Option.bind_some, hsha,
      Option.bind_some, hdigest, Option.bind_some, base64Encode_nil hnil, Option.bind_none]
  · have hfull : copyTo (linebufOf line) line.length (guid ++ [0]) = none := by
      refine if_neg ?_
      simp only [linebufOf, List.length_append, List.length_replicate, List.length_singleton]
      omega
    simp only [accept, Option.bind_eq_bind]
    rw [hstr, Option.bind_some, hfull, Option.bind_none]

end

end CppTrack.WebSocket
