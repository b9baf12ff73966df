import CppTrack.Net.ReactorWrite

/-!
# How far a flush comes

`flush_socket` asks the kernel to write one straight piece of the ring and then the other. Each
answer either takes something of what was asked for, or sends the call back to the start of its
loop, or ends it. `Within` are the answers that keep to what is asked; with them the call is still
waiting for the next one, or it has sent what was taken and returned. The rings have 16 KiB, so
that an `int` holds their lengths.
-/

namespace CppTrack.Net

open Lib RingBuf

/-- How many bytes the kernel has taken. -/
def acceptedIn : List Written → Nat
  | [] => 0
  | .accepted n :: rest => n + acceptedIn rest
  | _ :: rest => acceptedIn rest

/-- The pieces still to be sent, of which the first has `d` bytes. -/
def pieces (d : Nat) (ds : List Nat) : List Nat := if d = 0 then ds else d :: ds

/-- The pieces that `flush_socket` sends a ring in. -/
def piecesOf (r : RingBuffer) : List Nat :=
  pieces (min (rbLen r) (r.size - r.place r.readPos))
    (pieces (rbLen r - (r.size - r.place r.readPos)) [])

/-- The kernel takes something of the first piece, and at most all of it; or it was interrupted, or
would have to block. Nothing is asked of the answers that come after the call has returned. -/
def Within : List Nat → List Written → Prop
  | [], _ => True
  | _ :: _, [] => True
  | d :: ds, .eintr :: rest => Within (d :: ds) rest
  | _ :: _, .ewouldblock :: _ => True
  | _ :: _, .error :: _ => False
  | d :: ds, .accepted n :: rest => (1 ≤ n ∧ n ≤ d) ∧ Within (pieces (d - n) ds) rest

instance Within.decide : (ds : List Nat) → (answers : List Written) → Decidable (Within ds answers)
  | [], _ => .isTrue (by rw [Within]; trivial)
  | _ :: _, [] => .isTrue trivial
  | d :: ds, .eintr :: rest => Within.decide (d :: ds) rest
  | _ :: _, .ewouldblock :: _ => .isTrue trivial
  | _ :: _, .error :: _ => .isFalse id
  | d :: ds, .accepted n :: rest =>
      have := Within.decide (pieces (d - n) ds) rest
      inferInstanceAs (Decidable ((1 ≤ n ∧ n ≤ d) ∧ Within (pieces (d - n) ds) rest))

/-- The kernel took these bytes, and knows nothing else. -/
structure Takes (k k' : Kernel) (fd : Nat) (buf : List UInt8) : Prop extends Sends k k' fd buf where
  interest : k'.interest = k.interest

section

variable {e e' : Event} {k k' k'' : Kernel} {buf buf' : List UInt8}
  {answers used rest : List Written}
  {d len m n : Nat} {ds : List Nat}

theorem acceptedIn_append (used rest : List Written) :
    acceptedIn (used ++ rest) = acceptedIn used + acceptedIn rest := by
  induction used with
  | nil => exact (Nat.zero_add _).symm
  | cons x used ih => cases x <;> simp [acceptedIn, ih, Nat.add_assoc]

theorem acceptedIn_eintr (j : Nat) : acceptedIn (List.replicate j .eintr) = 0 := by
  induction j with
  | zero => rfl
  | succ j ih => exact ih

theorem Takes.refl (k : Kernel) (fd : Nat) : Takes k k fd [] := ⟨Sends.refl k fd, rfl⟩

theorem Takes.trans {fd : Nat} (h : Takes k k' fd buf) (h' : Takes k' k'' fd buf') :
    Takes k k'' fd (buf ++ buf') :=
  ⟨h.toSends.trans h'.toSends, h'.interest.trans h.interest⟩

/-! ## One write -/

/-- How `write_socket_` ends when it is asked to write `d` bytes. -/
inductive WriteEnd (e : Event) (k : Kernel) (buf : List UInt8) (ds : List Nat)
    (answers : List Written) : Option (Int × Event × Kernel × List Written) → Prop
  | waiting (j : Nat) (hans : answers = List.replicate j .eintr) : WriteEnd e k buf ds answers none
  | blocked (j : Nat) (rest : List Written)
      (hans : answers = List.replicate j .eintr ++ .ewouldblock :: rest) :
      WriteEnd e k buf ds answers (some (0, e, k, rest))
  | accepted (j n : Nat) (k' : Kernel) (rest : List Written)
      (hans : answers = List.replicate j .eintr ++ .accepted n :: rest)
      (hn : 1 ≤ n ∧ n ≤ buf.length) (hk : Takes k k' e.fd (buf.take n))
      (hrest : Within (pieces (buf.length - n) ds) rest) :
      WriteEnd e k buf ds answers (some (n, e, k', rest))

theorem writeSocket_end (h : Within (buf.length :: ds) answers) :
    WriteEnd e k buf ds answers (writeSocket_ e k buf answers) := by
  induction answers with
  | nil => exact .waiting 0 rfl
  | cons x answers ih =>
      cases x with
      | eintr =>
          have hend := ih h
          show WriteEnd e k buf ds _ (writeSocket_ e k buf answers)
          generalize writeSocket_ e k buf answers = res at hend
          cases hend with
          | waiting j hans => exact .waiting (j + 1) (by rw [hans]; rfl)
          | blocked j rest hans => exact .blocked (j + 1) rest (by rw [hans]; rfl)
          | accepted j n k' rest hans hn hk hrest =>
              exact .accepted (j + 1) n k' rest (by rw [hans]; rfl) hn hk hrest
      | ewouldblock => exact .blocked 0 answers rfl
      | error => exact absurd h id
      | accepted n =>
          obtain ⟨hn, hrest⟩ := h
          rw [writeSocket_, if_pos ⟨.inl hn.1, hn.2⟩]
          exact .accepted 0 n _ answers rfl hn ⟨⟨Function.update_self .., rfl, rfl⟩, rfl⟩ hrest

/-! ## One loop -/

/-- How a loop of `flush_socket` ends that has `len` bytes to send, with `ds` to come after it. -/
inductive LoopEnd (e : Event) (k : Kernel) (len : Nat) (ds : List Nat) (answers : List Written) :
    Option (Option Int × Event × Kernel × List Written) → Prop
  | waiting (hwait : .ewouldblock ∉ answers) (hm : acceptedIn answers < len) :
      LoopEnd e k len ds answers none
  | blocked (used rest : List Written) (k' : Kernel) (hans : answers = used ++ .ewouldblock :: rest)
      (hm : acceptedIn used < len)
      (hk : Takes k k' e.fd ((contents e.output).take (acceptedIn used))) :
      LoopEnd e k len ds answers (some (some 0,
        { e with output := e.output.skip (acceptedIn used) }, enableEvent k' e true true, rest))
  | done (used rest : List Written) (k' : Kernel) (hans : answers = used ++ rest)
      (hwait : .ewouldblock ∉ used) (hm : acceptedIn used = len)
      (hk : Takes k k' e.fd ((contents e.output).take len)) (hrest : Within ds rest) :
      LoopEnd e k len ds answers
        (some (none, { e with output := e.output.skip len }, k', rest))

theorem LoopEnd.nothing (hr : Ok e.output) (h : Within ds answers) :
    LoopEnd e k 0 ds answers (some (none, e, k, answers)) := by
  have hdone : LoopEnd e k 0 ds answers
      (some (none, { e with output := e.output.skip 0 }, k, answers)) :=
    .done [] answers k rfl List.not_mem_nil rfl (Takes.refl k e.fd) h
  rwa [skip_zero hr] at hdone

/-- After a write of `m` bytes the rest of the loop does the rest. -/
theorem LoopEnd.after (k' : Kernel) {res : Option (Option Int × Event × Kernel × List Written)}
    (hr : Ok e.output) (hlen : len ≤ rbLen e.output) (hm : acceptedIn used ≤ len)
    (hused : .ewouldblock ∉ used)
    (hk : Takes k k' e.fd ((contents e.output).take (acceptedIn used)))
    (h : LoopEnd { e with output := e.output.skip (acceptedIn used) } k' (len - acceptedIn used) ds
      rest res) :
    LoopEnd e k len ds (used ++ rest) res := by
  have hcon := contents_skip hr (show acceptedIn used ≤ rbLen e.output by omega)
  cases h with
  | waiting hwait hlt =>
      refine .waiting ?_ ?_
      · rw [List.mem_append]
        exact fun hmem => hmem.elim hused hwait
      · rw [acceptedIn_append]
        omega
  | blocked used' rest' k'' hans hlt hk' =>
      have hk' := hk.trans hk'
      rw [hcon, ← List.take_add, ← acceptedIn_append] at hk'
      have hblocked : LoopEnd e k len ds _ _ :=
        .blocked (used ++ used') rest' k'' rfl (by rw [acceptedIn_append]; omega) hk'
      rw [acceptedIn_append, ← skip_skip, List.append_assoc, ← hans] at hblocked
      exact hblocked
  | done used' rest' k'' hans hwait heq hk' hrest =>
      have hk' := hk.trans hk'
      rw [hcon, ← List.take_add, show acceptedIn used + (len - acceptedIn used) = len by omega]
        at hk'
      have hdone := LoopEnd.done (used ++ used') rest' k'' rfl
        (by rw [List.mem_append]; exact fun hmem => hmem.elim hused hwait)
        (by rw [acceptedIn_append]; omega) hk' hrest
      rw [List.append_assoc, ← hans] at hdone
      rwa [show len = acceptedIn used + (len - acceptedIn used) by omega, ← skip_skip,
        show acceptedIn used + (len - acceptedIn used) = len by omega] at hdone

theorem flushLoop_end {fuel : Nat} (hr : Ok e.output) (hlen : len ≤ rbLen e.output)
    (hplace : e.output.place e.output.readPos + len ≤ e.output.size) (hfuel : len ≤ fuel)
    (h : Within (pieces len ds) answers) :
    LoopEnd e k len ds answers (flushLoop fuel len e k answers) := by
  induction fuel generalizing len e k answers with
  | zero =>
      obtain rfl : len = 0 := by omega
      rw [flushLoop, if_pos rfl]
      exact .nothing hr h
  | succ fuel ih =>
      rw [flushLoop]
      by_cases hzero : len = 0
      · subst hzero
        rw [if_pos rfl]
        exact .nothing hr h
      · rw [if_neg hzero, copyOut_place hr hlen hplace, Option.bind_eq_bind, Option.bind_some]
        have hbuf : ((contents e.output).take len).length = len := by
          rw [List.length_take, contents, window_length]
          omega
        rw [pieces, if_neg hzero] at h
        have hwrite := writeSocket_end (e := e) (k := k) (hbuf.symm ▸ h)
        generalize writeSocket_ e k ((contents e.output).take len) answers = res at hwrite
        cases hwrite with
        | waiting j hans =>
            refine .waiting ?_ ?_
            · rw [hans]
              simp
            · rw [hans, acceptedIn_eintr]
              omega
        | blocked j rest hans =>
            have hblocked : LoopEnd e k len ds answers _ :=
              .blocked (List.replicate j .eintr) rest k hans (by rw [acceptedIn_eintr]; omega)
                (by rw [acceptedIn_eintr]; exact Takes.refl k e.fd)
            rwa [acceptedIn_eintr, skip_zero hr] at hblocked
        | accepted j n k' rest hans hn hk hrest =>
            rw [hbuf] at hn hrest
            rw [List.take_take, Nat.min_eq_left hn.2] at hk
            have htaken : acceptedIn (List.replicate j .eintr ++ [.accepted n]) = n := by
              rw [acceptedIn_append, acceptedIn_eintr]
              exact Nat.zero_add n
            have hsplit : answers = List.replicate j .eintr ++ [.accepted n] ++ rest := by
              rw [hans, List.append_assoc]
              rfl
            obtain ⟨hok, hlen', -⟩ := hr.skip (show n ≤ rbLen e.output by omega)
            have hloop := ih (e := { e with output := e.output.skip n }) (k := k') hok
              (show len - n ≤ rbLen (e.output.skip n) by omega) (place_skip hr hn.2 hplace)
              (by omega) hrest
            rw [hsplit]
            simp only [Option.bind_eq_bind, Option.bind_some, show (n : Int) ≠ 0 by omega,
              show ¬ (n : Int) < 0 by omega, if_false, Int.toNat_natCast]
            refine LoopEnd.after k' hr hlen (htaken.symm ▸ hn.2) (by simp) ?_ ?_
            · rw [htaken]
              exact hk
            · rw [htaken]
              exact hloop

/-! ## The whole call -/

/-- What a call of `flush_socket` has done when it returns `n`, after these answers. -/
structure Flushed (e : Event) (k : Kernel) (used : List Written) (n : Int) (e' : Event)
    (k' : Kernel) : Prop where
  le : acceptedIn used ≤ rbLen e.output
  sent : k'.sent e.fd = k.sent e.fd ++ (contents e.output).take (acceptedIn used)
  /-- `read_pos` has gone on by as many. -/
  event : e' = { e with output := e.output.skip (acceptedIn used) }
  pending : contents e'.output = (contents e.output).drop (acceptedIn used)
  opened : k'.opened = k.opened
  closed : k'.closed = k.closed
  /-- The ring was empty; or all of it was sent; or the kernel would have had to block. -/
  returned : (rbLen e.output = 0 ∧ n = 0 ∧ e' = e ∧ k' = k) ∨
    (0 < rbLen e.output ∧ acceptedIn used = rbLen e.output ∧ n = 1 ∧
      rbIsempty e'.output = true ∧
        k'.interest e.fd = (k.interest e.fd).map fun _ => (true, false)) ∨
    (acceptedIn used < rbLen e.output ∧ n = 0 ∧ used.getLast? = some .ewouldblock ∧
      k'.interest e.fd = (k.interest e.fd).map fun _ => (true, true))

theorem enableEvent_interest (k : Kernel) (e : Event) (readable writeable : Bool) :
    (enableEvent k e readable writeable).interest e.fd =
      (k.interest e.fd).map fun _ => (readable, writeable) := by
  unfold enableEvent
  cases hreg : k.interest e.fd with
  | none => simp [hreg]
  | some events => simp [Function.update_self]

theorem enableEvent_output (k : Kernel) (e : Event) (output : RingBuffer)
    (readable writeable : Bool) : enableEvent k { e with output := output } readable writeable =
      enableEvent k e readable writeable := rfl

theorem rbIsempty_skip {r : RingBuffer} (hr : Ok r) : rbIsempty (r.skip (rbLen r)) = true := by
  have hread : (r.skip (rbLen r)).readPos = addU32 r.readPos (rbLen r) := rfl
  have hlast : addU32 r.readPos (rbLen r) = r.writePos := by
    rw [addU32, hr.writePos_eq]
  unfold rbIsempty
  rw [hread, hlast]
  unfold RingBuffer.skip
  simp

/-- The call is waiting for an answer, or it has returned. -/
inductive CallEnd (e : Event) (k : Kernel) (answers : List Written) :
    Option (Int × Event × Kernel × List Written) → Prop
  | waiting (hwait : .ewouldblock ∉ answers) (hm : acceptedIn answers < rbLen e.output) :
      CallEnd e k answers none
  | returned (used rest : List Written) (n : Int) (e' : Event) (k' : Kernel)
      (hans : answers = used ++ rest) (h : Flushed e k used n e' k') :
      CallEnd e k answers (some (n, e', k', rest))

/-- The last loop is at its end. -/
theorem LoopEnd.call {res : Option (Option Int × Event × Kernel × List Written)}
    (hr : Ok e.output) (hpos : 0 < rbLen e.output)
    (h : LoopEnd e k (rbLen e.output) [] answers res) :
    CallEnd e k answers (res.map flushReturn) := by
  cases h with
  | waiting hwait hlt => exact .waiting hwait hlt
  | blocked used rest k' hans hlt hk =>
      show CallEnd e k answers (some (0, { e with output := e.output.skip (acceptedIn used) },
        enableEvent k' e true true, rest))
      have htaken : acceptedIn (used ++ [.ewouldblock]) = acceptedIn used := by
        rw [acceptedIn_append]
        rfl
      refine .returned (used ++ [.ewouldblock]) rest _ _ _ ?_ ⟨?_, ?_, ?_, ?_, ?_, ?_, ?_⟩
      · rw [hans, List.append_assoc]
        rfl
      · rw [htaken]
        omega
      · rw [htaken]
        exact (hk.toSends.enable e true true).sent
      · rw [htaken]
      · rw [htaken]
        exact contents_skip hr (Nat.le_of_lt hlt)
      · exact (hk.toSends.enable e true true).opened
      · exact (hk.toSends.enable e true true).closed
      · refine .inr (.inr ⟨htaken.symm ▸ hlt, rfl, by simp, ?_⟩)
        rw [enableEvent_interest, hk.interest]
  | done used rest k' hans hwait heq hk hrest =>
      show CallEnd e k answers (some (1, { e with output := e.output.skip (rbLen e.output) },
        enableEvent k' { e with output := e.output.skip (rbLen e.output) } true false, rest))
      rw [enableEvent_output]
      refine .returned used rest _ _ _ hans ⟨?_, ?_, ?_, ?_, ?_, ?_, ?_⟩
      · exact Nat.le_of_eq heq
      · rw [heq]
        exact (hk.toSends.enable e true false).sent
      · rw [heq]
      · rw [heq]
        exact contents_skip hr (Nat.le_refl _)
      · exact (hk.toSends.enable e true false).opened
      · exact (hk.toSends.enable e true false).closed
      · refine .inr (.inl ⟨hpos, heq, rfl, rbIsempty_skip hr, ?_⟩)
        rw [enableEvent_interest, hk.interest]

theorem flushSocket_end (hr : Ok e.output) (h : Within (piecesOf e.output) answers) :
    CallEnd e k answers (flushSocket e k answers) := by
  have hlt := place_lt hr
  unfold flushSocket
  by_cases hempty : rbIsempty e.output = true
  · have hlen : rbLen e.output = 0 := by
      have heq : e.output.readPos = e.output.writePos := by simpa [rbIsempty] using hempty
      rw [rbLen, heq, subU32_of_le (Nat.le_refl _) hr.writePos, Nat.sub_self]
    rw [if_pos hempty]
    refine .returned [] answers 0 e k rfl ⟨Nat.zero_le _, ?_, ?_, ?_, rfl, rfl, ?_⟩
    · rw [acceptedIn, List.take_zero, List.append_nil]
    · rw [acceptedIn, skip_zero hr]
    · rw [acceptedIn, List.drop_zero]
    · exact .inl ⟨hlen, rfl, rfl, rfl⟩
  · have hpos : 0 < rbLen e.output := by
      have hne : e.output.readPos ≠ e.output.writePos := by simpa [rbIsempty] using hempty
      have h₁ := hr.writePos
      have h₂ := hr.readPos
      unfold rbLen subU32
      rw [wordSize_eq] at *
      omega
    rw [if_neg hempty]
    simp only [toEnd_eq hr]
    unfold piecesOf at h
    generalize hd : e.output.size - e.output.place e.output.readPos = dis at *
    by_cases hone : dis ≥ rbLen e.output
    · -- the bytes are in one piece
      rw [if_pos hone]
      rw [Nat.min_eq_left hone, Nat.sub_eq_zero_of_le hone] at h
      exact LoopEnd.call hr hpos (flushLoop_end hr (Nat.le_refl _) (by omega) (Nat.le_refl _) h)
    · -- they go round the end of the array
      have hle : dis ≤ rbLen e.output := by omega
      rw [if_neg hone]
      rw [Nat.min_eq_right hle] at h
      have hfirst := flushLoop_end (k := k) hr hle (by omega) (Nat.le_refl _) h
      generalize flushLoop dis dis e k answers = res at hfirst
      cases hfirst with
      | waiting hwait hm => exact .waiting hwait (Nat.lt_of_lt_of_le hm hle)
      | blocked used rest k' hans hm hk =>
          have hblocked : LoopEnd e k (rbLen e.output) [] answers _ :=
            .blocked used rest k' hans (Nat.lt_of_lt_of_le hm hle) hk
          exact hblocked.call hr hpos
      | done used rest k' hans hwait hm hk hrest =>
          obtain ⟨hok, hlen, -⟩ := hr.skip hle
          have hfits := hr.fits
          have hstart := place_wrapped hr hd
          have hsize : (e.output.skip dis).size = e.output.size := rfl
          have hsecond := flushLoop_end (e := { e with output := e.output.skip dis }) (k := k') hok
            (show rbLen e.output - dis ≤ rbLen (e.output.skip dis) by omega)
            (by rw [hstart, hsize]; omega) (Nat.le_refl _) hrest
          have hboth : LoopEnd e k (rbLen e.output) [] (used ++ rest) (flushLoop
              (rbLen e.output - dis) (rbLen e.output - dis)
              { e with output := e.output.skip dis } k' rest) := by
            refine LoopEnd.after k' hr (Nat.le_refl _) (hm.symm ▸ hle) hwait ?_ ?_
            · rw [hm]
              exact hk
            · rw [hm]
              exact hsecond
          rw [hans, Option.bind_eq_bind, Option.bind_some]
          exact hboth.call hr hpos

/--
**A flush sends the ring faithfully.** Whatever the ring holds and wherever it starts in the array,
and whatever the kernel answers within what it is asked: the call still waits for an answer, having
been told neither to stop nor that everything is taken; or it has handed over a first part of the
unread bytes, left the rest in the ring, and says with what it returns and with the interest that
is registered whether anything is left.
-/
theorem flushSocket_faithful (e : Event) (k : Kernel) (hr : Ok e.output) (answers : List Written)
    (hans : Within (piecesOf e.output) answers) :
    (flushSocket e k answers = none ∧ .ewouldblock ∉ answers ∧
      acceptedIn answers < rbLen e.output) ∨
    ∃ used rest n e' k', answers = used ++ rest ∧
      flushSocket e k answers = some (n, e', k', rest) ∧ Flushed e k used n e' k' := by
  have hend := flushSocket_end (k := k) hr hans
  generalize flushSocket e k answers = res at hend
  cases hend with
  | waiting hwait hm => exact .inl ⟨rfl, hwait, hm⟩
  | returned used rest n e' k' hans h => exact .inr ⟨used, rest, n, e', k', hans, rfl, h⟩

end

/-- Three bytes round the end of a ring of four; the kernel takes two of them and would block. -/
theorem flushSocket_faithful_round :
    let ring : RingBuffer := ⟨fun p => UInt8.ofNat p, 4, 6, 3⟩
    let k : Kernel := ⟨fun _ => some (true, false), [5], [], fun _ => []⟩
    let answers : List Written := [.eintr, .accepted 1, .accepted 1, .ewouldblock]
    (flushSocket ⟨5, ring, ring⟩ k answers = none ∧ .ewouldblock ∉ answers ∧
      acceptedIn answers < rbLen ring) ∨
    ∃ used rest n e' k', answers = used ++ rest ∧
      flushSocket ⟨5, ring, ring⟩ k answers = some (n, e', k', rest) ∧
      Flushed ⟨5, ring, ring⟩ k used n e' k' := by
  intro ring k answers
  have hr : Ok ring := ⟨⟨2, by decide, by decide, rfl⟩, by decide, by decide, by decide⟩
  exact flushSocket_faithful ⟨5, ring, ring⟩ k hr answers (by decide)

end CppTrack.Net
