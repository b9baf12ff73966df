import CppTrack.Net.Reactor
import CppTrack.Net.RingLine

/-!
# What is read

`read_socket` reads until the kernel has nothing more, and puts each chunk into a ring of
fixed size that takes a chunk as a whole or not at all. It does not look whether the ring
took it, and counts it. So what it counts is what it stored just as long as all of it fits.
Bytes are taken out again by `readline`, which may take more than there are. The ring then
counts nearly `2 ^ 32` unread bytes, and has room for any write until they are all written.
-/

namespace CppTrack.Net

open Lib RingBuf

/-- The bytes of the answers, in order. -/
def bytes : List Received → List UInt8
  | [] => []
  | .data buf :: rest => buf ++ bytes rest
  | _ :: rest => bytes rest

/-- Chunks and interruptions, and then nothing more to read. -/
def Drained : List Received → Prop
  | [.ewouldblock] => True
  | .eintr :: rest => Drained rest
  | .data buf :: rest => 1 ≤ buf.length ∧ buf.length ≤ 1024 ∧ Drained rest
  | _ => False

/-- Chunks and interruptions, and then nothing more to read, the end or an error. -/
def Ended : List Received → Prop
  | [.endOfFile] => True
  | [.ewouldblock] => True
  | [.error] => True
  | .eintr :: rest => Ended rest
  | .data buf :: rest => (1 ≤ buf.length ∧ buf.length ≤ 1024) ∧ Ended rest
  | _ => False

instance Ended.decide : (answers : List Received) → Decidable (Ended answers)
  | [] => .isFalse id
  | [.endOfFile] | [.ewouldblock] | [.error] => .isTrue trivial
  | .endOfFile :: _ :: _ | .ewouldblock :: _ :: _ | .error :: _ :: _ => .isFalse id
  | .eintr :: rest => Ended.decide rest
  | .data buf :: rest =>
      have := Ended.decide rest
      inferInstanceAs (Decidable ((1 ≤ buf.length ∧ buf.length ≤ 1024) ∧ Ended rest))

/-- The calls that touch what was read, with the answers of the kernel, the number of bytes that are
asked for, and the limit of a line and how much room there is for it. -/
inductive InOp
  | read (answers : List Received)
  | consume (sz : Nat)
  | line (sz room : Nat)

/-- `readline`. -/
def readline (e : Event) (sz room : Nat) : Option (Nat × List UInt8 × RingBuffer) :=
  rbReadline e.input sz room

/-- A call uses up the answers. Nothing is called on an event that is gone. -/
def inStep (s : Event × Kernel) : InOp → Option (Event × Kernel)
  | .read answers =>
      if s.1.fd ≠ 0 ∧ Ended answers then
        match readSocket s.1 s.2 answers with
        | some (_, e, k, []) => some (e, k)
        | _ => none
      else none
  | .consume sz =>
      if s.1.fd = 0 then none
      else (rbRead s.1.input sz).map fun x => ({ s.1 with input := x.2.2 }, s.2)
  | .line sz room =>
      if s.1.fd = 0 then none
      else (readline s.1 sz room).map fun x => ({ s.1 with input := x.2.2 }, s.2)

/-- A read goes through, and what it counts it appends to the unread bytes, which the ring then
holds. -/
def Appends (s : Event × Kernel) : InOp → Prop
  | .read answers => s.1.fd ≠ 0 → Ended answers →
      ∃ num e k, readSocket s.1 s.2 answers = some (num, e, k, []) ∧
        (num > 0 → num = (bytes answers).length ∧ rbLen e.input ≤ e.input.size ∧
          contents e.input = contents s.1.input ++ bytes answers)
  | .consume _ => True
  | .line _ _ => True

/-- No more was taken out of the ring than was in it, and all that comes in one burst fits into
it. -/
def Fit (s : Event × Kernel) : InOp → Prop
  | .read answers => s.1.fd ≠ 0 → Drained answers → bytes answers ≠ [] →
      rbLen s.1.input ≤ s.1.input.size ∧ (bytes answers).length ≤ rbRemain s.1.input
  | .consume _ => True
  | .line _ _ => True

/-- A ring that a chunk can be written to, however much was taken out of it. -/
structure Sized (r : RingBuffer) : Prop where
  pow : ∃ k, 1 ≤ k ∧ k ≤ 31 ∧ r.size = 2 ^ k
  writePos : r.writePos < wordSize
  readPos : r.readPos < wordSize
  chunk : 1024 ≤ r.size

/-- What holds between two calls. -/
def InOk (s : Event × Kernel) : Prop := s.1.fd ≠ 0 → Sized s.1.input

section

variable {r r' : RingBuffer} {buf : List UInt8}

theorem Sized.ok (hr : Sized r) (hfits : rbLen r ≤ r.size) : Ok r :=
  ⟨hr.pow, hr.writePos, hr.readPos, hfits⟩

theorem Sized.skip (hr : Sized r) (m : Nat) : Sized (r.skip m) :=
  ⟨hr.pow, hr.writePos, addU32_lt _ _, hr.chunk⟩

/-- The ring with all taken out of it. -/
theorem Sized.emptied (hr : Sized r) : Ok { r with readPos := r.writePos } := by
  refine ⟨hr.pow, hr.writePos, hr.writePos, ?_⟩
  rw [rbLen, subU32, Nat.add_sub_cancel_left, Nat.mod_self]
  exact Nat.zero_le _

/-- A chunk is written, or the ring is left as it is. -/
theorem Sized.write (hr : Sized r) (hbuf : buf.length ≤ 1024) :
    ∃ m r', rbWrite r buf buf.length = some (m, r') ∧ Sized r' ∧ r'.size = r.size := by
  have hempty := hr.emptied
  have hchunk := hr.chunk
  have hsize : r.size < wordSize := hempty.size_lt
  have hlt : r.place r.writePos < r.size := by
    have hplace : r.place r.writePos = r.writePos % r.size := hempty.place_eq r.writePos
    rw [hplace]
    exact Nat.mod_lt _ hempty.size_pos
  unfold rbWrite
  split
  · exact ⟨0, r, rfl, hr, rfl⟩
  · simp only [subU32_of_le (Nat.le_of_lt hlt) hsize,
      subU32_of_le (Nat.min_le_left buf.length _) (show buf.length < wordSize by omega)]
    rw [copyIn_eq r (by omega) (by omega), Option.bind_eq_bind, Option.bind_some]
    generalize hi : min buf.length (r.size - r.place r.writePos) = i
    have hsecond := copyIn_eq
      { r with buf := blit r.buf (r.place r.writePos) ((buf.drop 0).take i) }
      (show 0 + (buf.length - i) ≤ r.size by omega)
      (show i + (buf.length - i) ≤ buf.length by omega)
    rw [hsecond]
    exact ⟨_, _, rfl, ⟨hr.pow, addU32_lt _ _, hr.readPos, hr.chunk⟩, rfl⟩

theorem rbRead_skips {sz n : Nat} {out : List UInt8} (hr : Sized r)
    (h : rbRead r sz = some (n, out, r')) : Sized r' := by
  unfold rbRead at h
  split at h
  · simp only [Option.some.injEq, Prod.mk.injEq] at h
    obtain ⟨-, -, rfl⟩ := h
    exact hr
  · simp only [Option.bind_eq_bind, Option.bind_eq_some_iff, Option.some.injEq,
      Prod.mk.injEq] at h
    obtain ⟨first, -, second, -, -, -, rfl⟩ := h
    exact hr.skip _

theorem readline_skips {e : Event} {sz room n : Nat} {out : List UInt8} (hr : Sized e.input)
    (h : readline e sz room = some (n, out, r')) : Sized r' := by
  by_cases hempty : e.input.readPos = e.input.writePos
  · have hsame := h.symm.trans (rbReadline_empty hempty)
    simp only [Option.some.injEq, Prod.mk.injEq] at hsame
    obtain ⟨-, -, rfl⟩ := hsame
    exact hr
  · rcases rbReadline_cases sz room hempty with
      ⟨k, -, -, -, -, hfound⟩ | ⟨-, -, -, hnone⟩ | ⟨k, -, -, -, hstop⟩
    · have hskip := h.symm.trans hfound
      simp only [Option.some.injEq, Prod.mk.injEq] at hskip
      obtain ⟨-, -, rfl⟩ := hskip
      exact hr.skip _
    · have hsame := h.symm.trans hnone
      simp only [Option.some.injEq, Prod.mk.injEq] at hsame
      obtain ⟨-, -, rfl⟩ := hsame
      exact hr
    · exact absurd (h.symm.trans hstop) nofun

end

section

variable {e e' : Event} {k k' : Kernel} {answers rest : List Received} {n num : Nat}

/-- The event is gone, and its descriptor was closed. -/
structure Closes (e : Event) (k : Kernel) (e' : Event) (k' : Kernel) : Prop where
  fd : e'.fd = 0
  empty : rbIsempty e'.output = true
  opened : k'.opened = k.opened.erase e.fd
  closed : k'.closed = k.closed ++ [e.fd]

/-- The kernel has no more: all was counted, and stored if it fits. -/
structure Reads (e : Event) (n : Nat) (used : List Received) (num : Nat) (e' : Event) : Prop where
  drained : Drained used
  counted : num = n + (bytes used).length
  same : e' = { e with input := e'.input }
  ok : Ok e'.input
  size : e'.input.size = e.input.size
  stored : (bytes used).length ≤ e.input.size - rbLen e.input →
    contents e'.input = contents e.input ++ bytes used

/-- A chunk was read, and the rest after it. -/
theorem Reads.chunk {buf : List UInt8} {used : List Received} (hr : Ok e.input)
    (hbuf : 1 ≤ buf.length ∧ buf.length ≤ 1024) {m : Nat} {input : RingBuffer}
    (hwrite : rbWrite e.input buf buf.length = some (m, input))
    (h : Reads { e with input := input } (n + buf.length) used num e') :
    Reads e n (.data buf :: used) num e' := by
  have hlen : (bytes (.data buf :: used)).length = buf.length + (bytes used).length :=
    List.length_append
  refine ⟨⟨hbuf.1, hbuf.2, h.drained⟩, ?_, h.same, h.ok, ?_, fun hroom => ?_⟩
  · rw [h.counted, hlen, Nat.add_assoc]
  · rw [h.size]
    by_cases hroom : buf.length ≤ e.input.size - rbLen e.input
    · obtain ⟨input', hwrite', -, hsize, -⟩ := rbWrite_room hr (Nat.le_refl _) hroom
      obtain ⟨rfl, rfl⟩ := Prod.mk.inj (Option.some.inj (hwrite'.symm.trans hwrite))
      exact hsize
    · rw [rbWrite_full hr (by omega)] at hwrite
      obtain ⟨rfl, rfl⟩ := Prod.mk.inj (Option.some.inj hwrite)
      rfl
  · rw [hlen] at hroom
    obtain ⟨input', hwrite', -, hsize, hused, hcon⟩ :=
      rbWrite_room hr (Nat.le_refl _) (show buf.length ≤ e.input.size - rbLen e.input by omega)
    obtain ⟨rfl, rfl⟩ := Prod.mk.inj (Option.some.inj (hwrite'.symm.trans hwrite))
    have hstored := h.stored (by
      show _ ≤ input'.size - rbLen input'
      omega)
    rw [hstored]
    show contents input' ++ bytes used = contents e.input ++ (buf ++ bytes used)
    rw [hcon, List.take_length, List.append_assoc]

theorem rbWrite_returns {r : RingBuffer} (hr : Ok r) (buf : List UInt8) :
    ∃ m r', rbWrite r buf buf.length = some (m, r') ∧ Ok r' := by
  by_cases hroom : buf.length ≤ r.size - rbLen r
  · obtain ⟨r', hwrite, hok, -⟩ := rbWrite_room hr (Nat.le_refl _) hroom
    exact ⟨_, r', hwrite, hok⟩
  · exact ⟨_, r, rbWrite_full hr (by omega), hr⟩

/-- The loop ends with the event gone, or with the kernel having no more. -/
theorem readLoop_effect (hr : Ok e.input)
    (h : readLoop n e k answers = some (num, e', k', rest)) :
    ∃ used, answers = used ++ rest ∧
      (num = 0 ∧ Closes e k e' k' ∧ ¬ Drained used ∨ k' = k ∧ Reads e n used num e') := by
  induction answers generalizing n e with
  | nil => exact absurd h nofun
  | cons a answers ih =>
      cases a with
      | endOfFile =>
          simp only [readLoop, Option.some.injEq, Prod.mk.injEq] at h
          obtain ⟨rfl, rfl, rfl, rfl⟩ := h
          exact ⟨[.endOfFile], rfl, .inl ⟨rfl, ⟨rfl, rfl, rfl, rfl⟩, id⟩⟩
      | error =>
          simp only [readLoop, Option.some.injEq, Prod.mk.injEq] at h
          obtain ⟨rfl, rfl, rfl, rfl⟩ := h
          exact ⟨[.error], rfl, .inl ⟨rfl, ⟨rfl, rfl, rfl, rfl⟩, id⟩⟩
      | ewouldblock =>
          simp only [readLoop, Option.some.injEq, Prod.mk.injEq] at h
          obtain ⟨rfl, rfl, rfl, rfl⟩ := h
          refine ⟨[.ewouldblock], rfl, .inr ⟨rfl, trivial, rfl, rfl, hr, rfl, fun _ => ?_⟩⟩
          exact (List.append_nil _).symm
      | eintr =>
          obtain ⟨used, rfl, hcases⟩ := ih hr h
          refine ⟨.eintr :: used, rfl, ?_⟩
          rcases hcases with ⟨hnum, hclose, hused⟩ | ⟨hk, hread⟩
          · exact .inl ⟨hnum, hclose, hused⟩
          · exact .inr ⟨hk, hread.drained, hread.counted, hread.same, hread.ok, hread.size,
              hread.stored⟩
      | data buf =>
          rw [readLoop] at h
          split at h
          · rename_i hbuf
            obtain ⟨m, input, hwrite, hok⟩ := rbWrite_returns hr buf
            rw [hwrite] at h
            obtain ⟨used, rfl, hcases⟩ := ih (e := { e with input := input }) hok h
            refine ⟨.data buf :: used, rfl, ?_⟩
            rcases hcases with ⟨hnum, hclose, hused⟩ | ⟨hk, hread⟩
            · exact .inl ⟨hnum, ⟨hclose.fd, hclose.empty, hclose.opened, hclose.closed⟩,
                fun hd => hused hd.2.2⟩
            · exact .inr ⟨hk, hread.chunk hr hbuf hwrite⟩
          · exact absurd h nofun

/-- With these answers the call returns, whatever it is about the ring that lets a chunk be
written to it and stays as it is. -/
theorem readLoop_ended {P : RingBuffer → Prop}
    (hwrite : ∀ r (buf : List UInt8), P r → buf.length ≤ 1024 →
      ∃ m r', rbWrite r buf buf.length = some (m, r') ∧ P r')
    (hr : P e.input) (h : Ended answers) :
    ∃ num e' k', readLoop n e k answers = some (num, e', k', []) ∧
      (num = 0 ∧ e'.fd = 0 ∧ ¬ Drained answers ∨
        num = n + (bytes answers).length ∧ P e'.input ∧ Drained answers) := by
  induction answers generalizing n e with
  | nil => exact absurd h id
  | cons a answers ih =>
      cases a with
      | eintr => exact ih hr h
      | data buf =>
          obtain ⟨hbuf, h⟩ := h
          obtain ⟨m, input, hwrite, hr⟩ := hwrite e.input buf hr hbuf.2
          rw [readLoop, if_pos hbuf, hwrite]
          obtain ⟨num, e', k', hloop, hcases⟩ :=
            ih (n := n + buf.length) (e := { e with input := input }) hr h
          refine ⟨num, e', k', hloop, ?_⟩
          rcases hcases with ⟨hnum, hfd, hd⟩ | ⟨hnum, hr, hd⟩
          · exact .inl ⟨hnum, hfd, fun hdata => hd hdata.2.2⟩
          · refine .inr ⟨?_, hr, hbuf.1, hbuf.2, hd⟩
            rw [hnum, bytes, List.length_append, Nat.add_assoc]
      | ewouldblock =>
          cases answers with
          | nil => exact ⟨n, e, k, rfl, .inr ⟨rfl, hr, trivial⟩⟩
          | cons b answers => exact absurd h id
      | endOfFile | error =>
          cases answers with
          | nil => exact ⟨0, _, _, rfl, .inl ⟨rfl, rfl, id⟩⟩
          | cons b answers => exact absurd h id

end

section

variable {s s' : Event × Kernel} {op : InOp}

/-- A read of a ring that can be written to. -/
theorem readSocket_sized {e : Event} {answers : List Received} (k : Kernel) (hr : Sized e.input)
    (h : Ended answers) :
    ∃ num e' k', readSocket e k answers = some (num, e', k', []) ∧
      (num = 0 ∧ e'.fd = 0 ∧ ¬ Drained answers ∨ num = (bytes answers).length ∧
        (Sized e'.input ∧ e'.input.size = e.input.size) ∧ Drained answers) := by
  have hread := readLoop_ended (n := 0) (k := k)
    (P := fun r => Sized r ∧ r.size = e.input.size) ?_ ⟨hr, rfl⟩ h
  · rwa [Nat.zero_add] at hread
  · rintro r buf ⟨hr, hsize⟩ hbuf
    obtain ⟨m, r', hwrite, hr', hsize'⟩ := hr.write hbuf
    exact ⟨m, r', hwrite, hr', hsize'.trans hsize⟩

theorem Drained.ended {answers : List Received} (h : Drained answers) : Ended answers := by
  induction answers with
  | nil => exact h
  | cons a answers ih =>
      cases a with
      | endOfFile | error => exact absurd h id
      | eintr => exact ih h
      | data buf => exact ⟨⟨h.1, h.2.1⟩, ih h.2.2⟩
      | ewouldblock =>
          cases answers with
          | nil => exact trivial
          | cons b answers => exact absurd h id

/-- A call appends what it counts if and only if that fits. -/
theorem appends_iff_fit (h : InOk s) : Appends s op ↔ Fit s op := by
  cases op with
  | consume sz => exact Iff.rfl
  | line sz room => exact Iff.rfl
  | read answers =>
      constructor
      · intro happ hfd hd hne
        obtain ⟨num, e, k, hread, hnum⟩ := happ hfd hd.ended
        obtain ⟨num', e', k', hread', hcases⟩ := readSocket_sized s.2 (h hfd) hd.ended
        rw [hread, Option.some.injEq, Prod.mk.injEq, Prod.mk.injEq, Prod.mk.injEq] at hread'
        obtain ⟨rfl, rfl, rfl, -⟩ := hread'
        rcases hcases with ⟨-, -, hnot⟩ | ⟨hcount, ⟨hr, hsize⟩, -⟩
        · exact absurd hd hnot
        · -- the ring holds what was unread and what was counted
          have hpos := List.length_pos_iff.mpr hne
          obtain ⟨-, hfits, hcon⟩ := hnum (by omega)
          have hlen := congrArg List.length hcon
          rw [List.length_append, contents, contents, window_length, window_length] at hlen
          rw [hsize] at hfits
          refine ⟨by omega, ?_⟩
          rw [((h hfd).ok (by omega)).remain_eq]
          omega
      · intro hfit hfd hend
        obtain ⟨num, e, k, hread, hcases⟩ := readSocket_sized s.2 (h hfd) hend
        refine ⟨num, e, k, hread, fun hpos => ?_⟩
        rcases hcases with ⟨hnum, -, -⟩ | ⟨hnum, -, hd⟩
        · omega
        · have hne : bytes answers ≠ [] := List.length_pos_iff.mp (by omega)
          obtain ⟨hfits, hroom⟩ := hfit hfd hd hne
          have hr := (h hfd).ok hfits
          rw [hr.remain_eq] at hroom
          obtain ⟨used, hused, hcases⟩ := readLoop_effect hr hread
          rw [List.append_nil] at hused
          subst hused
          rcases hcases with ⟨-, -, hnot⟩ | ⟨-, hreads⟩
          · exact absurd hd hnot
          · exact ⟨hnum, hreads.ok.fits, hreads.stored hroom⟩

theorem inOk_step (h : InOk s) (hstep : inStep s op = some s') : InOk s' := by
  intro hfd'
  cases op with
  | consume sz =>
      unfold inStep at hstep
      simp only at hstep
      split at hstep
      · exact absurd hstep nofun
      · rename_i hfd
        obtain ⟨⟨n, out, input⟩, hread, rfl⟩ := Option.map_eq_some_iff.mp hstep
        exact rbRead_skips (h hfd) hread
  | line sz room =>
      unfold inStep at hstep
      simp only at hstep
      split at hstep
      · exact absurd hstep nofun
      · rename_i hfd
        obtain ⟨⟨n, out, input⟩, hread, rfl⟩ := Option.map_eq_some_iff.mp hstep
        exact readline_skips (h hfd) hread
  | read answers =>
      unfold inStep at hstep
      simp only at hstep
      split at hstep
      · rename_i hread
        obtain ⟨num, e, k, hread', hcases⟩ := readSocket_sized s.2 (h hread.1) hread.2
        rw [hread'] at hstep
        obtain rfl := Option.some.inj hstep
        rcases hcases with ⟨-, hgone, -⟩ | ⟨-, ⟨hr, -⟩, -⟩
        · exact absurd hgone hfd'
        · exact hr
      · exact absurd hstep nofun

/-- The rings of a new connection. -/
theorem rbInit_sized (mem : Nat → UInt8) :
    ∃ r, rbInit mem (1024 * 16) = some r ∧ Sized r ∧ rbLen r = 0 ∧ r.size = 1024 * 16 := by
  refine ⟨{ buf := mem, size := 1024 * 16, writePos := 0, readPos := 0 }, ?_, ?_, ?_, rfl⟩
  · rw [rbInit, if_pos (by decide)]
    rfl
  · exact ⟨⟨14, by decide, by decide, rfl⟩, show 0 < wordSize by decide,
      show 0 < wordSize by decide, show 1024 ≤ 1024 * 16 by decide⟩
  · rw [rbLen, subU32, Nat.zero_add, Nat.sub_zero, Nat.mod_self]

end

/--
**What is counted is stored if and only if it fits.** Through any read events and any
consumption of a new connection, by `rb_read` and by `readline`, each call of `read_socket` appends
to the unread bytes just what it counts, as long as no more was taken out than was unread and what
comes in one burst fits into the ring, and not where that is otherwise.
-/
theorem input_stored_iff (k : Kernel) (fd : Nat) (memIn memOut : Nat → UInt8)
    (ops : List InOp) :
    ∃ input output, rbInit memIn (1024 * 16) = some input ∧
      rbInit memOut (1024 * 16) = some output ∧
      (Meets inStep Appends (⟨fd, input, output⟩, k) ops ↔
        Meets inStep Fit (⟨fd, input, output⟩, k) ops) := by
  obtain ⟨input, hin, hr, -⟩ := rbInit_sized memIn
  obtain ⟨output, hout, -⟩ := rbInit_sized memOut
  exact ⟨input, output, hin, hout, meets_iff Appends
    (fun _ _ (h : InOk _) => appends_iff_fit h) (fun _ _ _ h _ hstep => inOk_step h hstep) ops
    fun _ => hr⟩

/-- `n` chunks of a kibibyte. -/
def burst : Nat → List Received
  | 0 => [.ewouldblock]
  | n + 1 => .data (List.replicate 1024 7) :: burst n

theorem burst_spec (n : Nat) : Drained (burst n) ∧ (bytes (burst n)).length = 1024 * n := by
  induction n with
  | zero => exact ⟨trivial, rfl⟩
  | succ n ih =>
      have hlen : (List.replicate 1024 (7 : UInt8)).length = 1024 := List.length_replicate
      refine ⟨⟨by omega, by omega, ih.1⟩, ?_⟩
      rw [burst, bytes, List.length_append, ih.2, hlen]
      omega

/-- Seventeen chunks come in one burst: sixteen are stored. -/
theorem input_lost :
    ∃ input output, rbInit (fun _ => 0) (1024 * 16) = some input ∧
      rbInit (fun _ => 0) (1024 * 16) = some output ∧
      ¬ Meets inStep Appends (⟨5, input, output⟩, ⟨fun _ => none, [5], [], fun _ => []⟩)
        [.read (burst 17)] := by
  obtain ⟨input, hin, hr, hlen, hsize⟩ := rbInit_sized fun _ => 0
  refine ⟨input, input, hin, hin, fun hm => ?_⟩
  have hfit := (appends_iff_fit (fun _ => hr)).mp hm.1
  have hburst : (bytes (burst 17)).length = 17408 := (burst_spec 17).2
  obtain ⟨hfits, hroom⟩ := hfit (show 5 ≠ 0 by decide) (burst_spec 17).1
    (List.length_pos_iff.mp (by omega))
  rw [(hr.ok hfits).remain_eq] at hroom
  omega

end CppTrack.Net
