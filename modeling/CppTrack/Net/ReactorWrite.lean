import CppTrack.Net.Reactor
import CppTrack.Net.RingBufProof

/-!
# What is written

`write_socket_` ends with one answer of the kernel, `flush_socket` sends a first part of the
ring. So a flush never changes the stream, that is what the kernel took followed by what is
in the ring. A `write_socket` may: it writes past what is still in the ring, keeps nothing
of a write that was taken in part, and nothing of one that does not fit into the ring.
-/

namespace CppTrack.Net

open Lib RingBuf

/-! ## `write_socket_` -/

/-- The kernel took these bytes, and nothing was opened or closed. -/
structure Sends (k k' : Kernel) (fd : Nat) (buf : List UInt8) : Prop where
  sent : k'.sent fd = k.sent fd ++ buf
  opened : k'.opened = k.opened
  closed : k'.closed = k.closed

/-- The write failed: the event is gone, and descriptor 0 is closed. -/
structure Fails (k : Kernel) (e' : Event) (k' : Kernel) : Prop where
  fd : e'.fd = 0
  empty : rbIsempty e'.output = true
  opened : k'.opened = k.opened.erase 0
  closed : k'.closed = k.closed ++ [0]

/-- What the last answer of `write_socket_` does. -/
inductive WriteEffect (e : Event) (k : Kernel) (buf : List UInt8) :
    Written → Int → Event → Kernel → Prop
  | accepted (n : Nat) (k' : Kernel) (hn : (1 ≤ n ∨ buf = []) ∧ n ≤ buf.length)
      (hk : Sends k k' e.fd (buf.take n)) : WriteEffect e k buf (.accepted n) n e k'
  | blocked : WriteEffect e k buf .ewouldblock 0 e k
  | error (e' : Event) (k' : Kernel) (h : Fails k e' k') : WriteEffect e k buf .error (-1) e' k'

section

variable {e e' : Event} {k k' k'' : Kernel} {buf buf' : List UInt8} {answers rest : List Written}
  {n : Int} {m : Nat}

theorem Sends.refl (k : Kernel) (fd : Nat) : Sends k k fd [] :=
  ⟨(List.append_nil _).symm, rfl, rfl⟩

theorem Sends.trans {fd : Nat} (h : Sends k k' fd buf) (h' : Sends k' k'' fd buf') :
    Sends k k'' fd (buf ++ buf') :=
  ⟨by rw [h'.sent, h.sent, List.append_assoc], h'.opened.trans h.opened, h'.closed.trans h.closed⟩

theorem Sends.enable {fd : Nat} (h : Sends k k' fd buf) (e : Event) (readable writeable : Bool) :
    Sends k (enableEvent k' e readable writeable) fd buf := by
  unfold enableEvent
  split
  · exact ⟨h.sent, h.opened, h.closed⟩
  · exact h

theorem Sends.fails {fd : Nat} (h : Sends k k' fd buf) (h' : Fails k' e' k'') : Fails k e' k'' :=
  ⟨h'.fd, h'.empty, by rw [h'.opened, h.opened], by rw [h'.closed, h.closed]⟩

theorem writeSocket_effect (h : writeSocket_ e k buf answers = some (n, e', k', rest)) :
    ∃ j x, answers = List.replicate j .eintr ++ x :: rest ∧ WriteEffect e k buf x n e' k' := by
  induction answers with
  | nil => exact absurd h nofun
  | cons a answers ih =>
      cases a with
      | eintr =>
          obtain ⟨j, x, rfl, hx⟩ := ih h
          exact ⟨j + 1, x, rfl, hx⟩
      | ewouldblock =>
          obtain ⟨rfl, rfl, rfl, rfl⟩ : 0 = n ∧ e = e' ∧ k = k' ∧ answers = rest := by
            simpa [writeSocket_] using h
          exact ⟨0, .ewouldblock, rfl, .blocked⟩
      | error =>
          simp only [writeSocket_, Option.some.injEq, Prod.mk.injEq] at h
          obtain ⟨rfl, rfl, rfl, rfl⟩ := h
          exact ⟨0, .error, rfl, .error _ _ ⟨rfl, rfl, rfl, rfl⟩⟩
      | accepted m =>
          simp only [writeSocket_] at h
          split at h
          · rename_i hm
            simp only [Option.some.injEq, Prod.mk.injEq] at h
            obtain ⟨rfl, rfl, rfl, rfl⟩ := h
            exact ⟨0, .accepted m, rfl, .accepted m _ hm ⟨Function.update_self .., rfl, rfl⟩⟩
          · exact absurd h nofun

/-! ## `flush_socket` -/

theorem skip_skip (r : RingBuffer) (a b : Nat) : (r.skip a).skip b = r.skip (a + b) := by
  unfold RingBuffer.skip addU32
  rw [wordSize_eq]
  simp only [Nat.mod_add_mod, Nat.add_assoc]

theorem skip_zero {r : RingBuffer} (hr : Ok r) : r.skip 0 = r := by
  have hlt := hr.readPos
  unfold RingBuffer.skip addU32
  rw [Nat.add_zero, Nat.mod_eq_of_lt hlt]

theorem contents_skip {r : RingBuffer} (hr : Ok r) (hm : m ≤ rbLen r) :
    contents (r.skip m) = (contents r).drop m := by
  rw [(hr.skip hm).2.2, List.drop_left' window_length]

/-- The next byte to read is `m` further, round the end of the array. -/
theorem place_next {r : RingBuffer} (hr : Ok r) (m : Nat) :
    (r.skip m).place (r.skip m).readPos = (r.place r.readPos + m) % r.size := by
  show r.place (addU32 r.readPos m) = _
  rw [hr.place_eq, hr.place_eq, addU32, Nat.mod_mod_of_dvd _ hr.size_dvd, Nat.mod_add_mod]

theorem place_lt {r : RingBuffer} (hr : Ok r) : r.place r.readPos < r.size := by
  rw [hr.place_eq]
  exact Nat.mod_lt _ hr.size_pos

/-- From the next byte to read to the end of the array. -/
theorem toEnd_eq {r : RingBuffer} (hr : Ok r) :
    subU32 r.size (r.place r.readPos) = r.size - r.place r.readPos :=
  subU32_of_le (Nat.le_of_lt (place_lt hr)) hr.size_lt

/-- Behind the end of the array reading goes on at its start. -/
theorem place_wrapped {r : RingBuffer} (hr : Ok r) {dis : Nat}
    (hdis : r.size - r.place r.readPos = dis) : (r.skip dis).place (r.skip dis).readPos = 0 := by
  rw [place_next hr, ← hdis, Nat.add_sub_cancel' (Nat.le_of_lt (place_lt hr)), Nat.mod_self]

theorem place_skip {r : RingBuffer} (hr : Ok r) {len : Nat} (hm : m ≤ len)
    (hplace : r.place r.readPos + len ≤ r.size) :
    (r.skip m).place (r.skip m).readPos + (len - m) ≤ (r.skip m).size := by
  have hpos := hr.size_pos
  show _ ≤ r.size
  rw [place_next hr]
  rcases Nat.lt_or_eq_of_le (show r.place r.readPos + m ≤ r.size by omega) with hlt | heq
  · rw [Nat.mod_eq_of_lt hlt]
    omega
  · rw [heq, Nat.mod_self]
    omega

/-- The bytes a loop of `flush_socket` writes from. -/
theorem copyOut_place {r : RingBuffer} (hr : Ok r) {len : Nat} (hlen : len ≤ rbLen r)
    (hplace : r.place r.readPos + len ≤ r.size) :
    copyOut r (r.place r.readPos) len = some ((contents r).take len) := by
  rw [copyOut_eq hplace, hr.take_contents hlen, ← window_mod, ← hr.place_eq,
    window_straight hplace]

/-- Nothing of the loop's part is left, or the kernel took no more, or it failed. -/
inductive FlushEffect (e : Event) (k : Kernel) (len : Nat) : Option Int → Event → Kernel → Prop
  | done (k' : Kernel) (hk : Sends k k' e.fd ((contents e.output).take len)) :
      FlushEffect e k len none { e with output := e.output.skip len } k'
  | blocked (m : Nat) (k' : Kernel) (hm : m ≤ len)
      (hk : Sends k k' e.fd ((contents e.output).take m)) :
      FlushEffect e k len (some 0) { e with output := e.output.skip m } k'
  | error (e' : Event) (k' : Kernel) (h : Fails k e' k') : FlushEffect e k len (some (-1)) e' k'

theorem FlushEffect.nothing (hr : Ok e.output) : FlushEffect e k 0 none e k := by
  have hdone : FlushEffect e k 0 none { e with output := e.output.skip 0 } k :=
    .done k (Sends.refl k e.fd)
  rwa [skip_zero hr] at hdone

/-- After a write of `m` bytes the rest of the loop does the rest. -/
theorem FlushEffect.after {ret : Option Int} {len : Nat} (hr : Ok e.output)
    (hlen : len ≤ rbLen e.output) (hm : m ≤ len)
    (hk : Sends k k' e.fd ((contents e.output).take m))
    (h : FlushEffect { e with output := e.output.skip m } k' (len - m) ret e' k'') :
    FlushEffect e k len ret e' k'' := by
  have hcon := contents_skip hr (show m ≤ rbLen e.output by omega)
  cases h with
  | done _ hk' =>
      have hk' := hk.trans hk'
      rw [hcon, ← List.take_add, show m + (len - m) = len by omega] at hk'
      have hdone := FlushEffect.done k'' hk'
      rwa [show len = m + (len - m) by omega, ← skip_skip,
        show m + (len - m) = len by omega] at hdone
  | blocked m' _ hm' hk' =>
      have hk' := hk.trans hk'
      rw [hcon, ← List.take_add] at hk'
      have hblocked := FlushEffect.blocked (m + m') k'' (show m + m' ≤ len by omega) hk'
      rwa [← skip_skip] at hblocked
  | error _ _ h => exact .error _ _ (hk.fails h)

theorem flushLoop_effect {fuel len : Nat} {ret : Option Int} (hr : Ok e.output)
    (hlen : len ≤ rbLen e.output)
    (hplace : e.output.place e.output.readPos + len ≤ e.output.size)
    (h : flushLoop fuel len e k answers = some (ret, e', k', rest)) :
    FlushEffect e k len ret e' k' ∧
      ∃ used, answers = used ++ rest ∧ (.error ∈ used ↔ ret = some (-1)) := by
  induction fuel generalizing len e k answers with
  | zero =>
      rw [flushLoop] at h
      split at h
      · rename_i h0
        simp only [Option.some.injEq, Prod.mk.injEq] at h
        obtain ⟨rfl, rfl, rfl, rfl⟩ := h
        exact ⟨h0 ▸ .nothing hr, [], rfl, iff_of_false List.not_mem_nil nofun⟩
      · exact absurd h nofun
  | succ fuel ih =>
      rw [flushLoop] at h
      split at h
      · rename_i h0
        simp only [Option.some.injEq, Prod.mk.injEq] at h
        obtain ⟨rfl, rfl, rfl, rfl⟩ := h
        exact ⟨h0 ▸ .nothing hr, [], rfl, iff_of_false List.not_mem_nil nofun⟩
      · rename_i h0
        rw [copyOut_place hr hlen hplace, Option.bind_eq_bind, Option.bind_some] at h
        obtain ⟨⟨n, e₁, k₁, answers₁⟩, hwrite, h⟩ := Option.bind_eq_some_iff.mp h
        obtain ⟨j, x, rfl, heff⟩ := writeSocket_effect hwrite
        have hbuf : ((contents e.output).take len).length = len := by
          rw [List.length_take, contents, window_length]
          omega
        cases heff with
        | accepted m _ hm hk =>
            rw [hbuf] at hm
            have hpos : 1 ≤ m := by
              rcases hm.1 with h1 | hnil
              · exact h1
              · rw [hnil] at hbuf
                exact absurd hbuf.symm h0
            rw [List.take_take, Nat.min_eq_left hm.2] at hk
            simp only [show (m : Int) ≠ 0 by omega, show ¬ (m : Int) < 0 by omega, if_false,
              Int.toNat_natCast] at h
            obtain ⟨hok, hlen', -⟩ := hr.skip (show m ≤ rbLen e.output by omega)
            obtain ⟨heff, used, rfl, hiff⟩ := ih (e := { e with output := e.output.skip m }) hok
              (by show len - m ≤ rbLen (e.output.skip m); omega) (place_skip hr hm.2 hplace) h
            refine ⟨heff.after hr hlen hm.2 hk, List.replicate j .eintr ++ .accepted m :: used, ?_,
              ?_⟩
            · simp
            · rw [← hiff]
              simp
        | blocked =>
            simp only [if_true, Option.some.injEq, Prod.mk.injEq] at h
            obtain ⟨rfl, rfl, rfl, rfl⟩ := h
            have hblocked := FlushEffect.blocked 0 _ (Nat.zero_le len)
              ((Sends.refl k e.fd).enable e true true)
            rw [skip_zero hr] at hblocked
            refine ⟨hblocked, List.replicate j .eintr ++ [.ewouldblock], by simp, ?_⟩
            simp
        | error _ _ hfail =>
            simp only [show (-1 : Int) ≠ 0 by omega, show (-1 : Int) < 0 by omega, if_true,
              if_false,
              Option.some.injEq, Prod.mk.injEq] at h
            obtain ⟨rfl, rfl, rfl, rfl⟩ := h
            refine ⟨.error _ _ hfail, List.replicate j .eintr ++ [.error], by simp, ?_⟩
            simp

/-- What `flush_socket` does: it sends a first part of the ring, unless a write fails. -/
def Flushes (e : Event) (k : Kernel) (n : Int) (e' : Event) (k' : Kernel) : Prop :=
  (∃ m, m ≤ rbLen e.output ∧ e' = { e with output := e.output.skip m } ∧
    Sends k k' e.fd ((contents e.output).take m)) ∧ n ≠ -1 ∨ Fails k e' k' ∧ n = -1

/-- The last loop of `flush_socket` is done. -/
theorem FlushEffect.flushes {ret : Option Int} {e₁ : Event} {k₁ : Kernel} {answers₁ : List Written}
    (heff : FlushEffect e k (rbLen e.output) ret e₁ k₁)
    (h : flushReturn (ret, e₁, k₁, answers₁) = (n, e', k', rest)) :
    Flushes e k n e' k' ∧ answers₁ = rest ∧ (ret = some (-1) ↔ n = -1) := by
  cases heff with
  | done _ hk =>
      simp only [flushReturn, Prod.mk.injEq] at h
      obtain ⟨rfl, rfl, rfl, rfl⟩ := h
      refine ⟨.inl ⟨⟨_, Nat.le_refl _, rfl, hk.enable _ _ _⟩, by decide⟩, rfl, ?_⟩
      exact iff_of_false nofun (by decide)
  | blocked m _ hm hk =>
      simp only [flushReturn, Prod.mk.injEq] at h
      obtain ⟨rfl, rfl, rfl, rfl⟩ := h
      exact ⟨.inl ⟨⟨m, hm, rfl, hk⟩, by decide⟩, rfl, iff_of_false (by decide) (by decide)⟩
  | error _ _ hfail =>
      simp only [flushReturn, Prod.mk.injEq] at h
      obtain ⟨rfl, rfl, rfl, rfl⟩ := h
      exact ⟨.inr ⟨hfail, rfl⟩, rfl, iff_of_true rfl rfl⟩

theorem flushSocket_effect (hr : Ok e.output)
    (h : flushSocket e k answers = some (n, e', k', rest)) :
    Flushes e k n e' k' ∧ ∃ used, answers = used ++ rest ∧ (.error ∈ used ↔ n = -1) := by
  have hlt := place_lt hr
  unfold flushSocket at h
  split at h
  · simp only [Option.some.injEq, Prod.mk.injEq] at h
    obtain ⟨rfl, rfl, rfl, rfl⟩ := h
    refine ⟨.inl ⟨⟨0, Nat.zero_le _, by rw [skip_zero hr], Sends.refl _ _⟩, by decide⟩, [], rfl, ?_⟩
    exact iff_of_false List.not_mem_nil (by decide)
  · simp only [toEnd_eq hr] at h
    split at h
    · -- the bytes are in one piece
      obtain ⟨⟨ret, e₁, k₁, answers₁⟩, hloop, hend⟩ := Option.map_eq_some_iff.mp h
      obtain ⟨heff, used, rfl, hiff⟩ := flushLoop_effect hr (Nat.le_refl _) (by omega) hloop
      obtain ⟨hflush, rfl, hret⟩ := heff.flushes hend
      exact ⟨hflush, used, rfl, hiff.trans hret⟩
    · -- they go round the end of the array
      obtain ⟨⟨ret, e₁, k₁, answers₁⟩, hloop, hnext⟩ := Option.bind_eq_some_iff.mp h
      generalize hd : e.output.size - e.output.place e.output.readPos = dis at *
      have hle : dis ≤ rbLen e.output := by omega
      obtain ⟨heff, used, rfl, hiff⟩ := flushLoop_effect hr hle (by omega) hloop
      cases heff with
      | done _ hk =>
          obtain ⟨⟨ret, e₂, k₂, answers₂⟩, hloop₂, hend⟩ := Option.map_eq_some_iff.mp hnext
          obtain ⟨hok, hlen, -⟩ := hr.skip hle
          have hfits := hr.fits
          have hstart := place_wrapped hr hd
          obtain ⟨heff₂, used₂, rfl, hiff₂⟩ := flushLoop_effect
            (e := { e with output := e.output.skip dis }) hok
            (by show _ ≤ rbLen (e.output.skip dis); omega)
            (by show _ + _ ≤ e.output.size; rw [hstart]; omega) hloop₂
          obtain ⟨hflush, rfl, hret⟩ := (heff₂.after hr (Nat.le_refl _) hle hk).flushes hend
          refine ⟨hflush, used ++ used₂, (List.append_assoc ..).symm, ?_⟩
          rw [List.mem_append, hiff₂, hiff, hret]
          simp
      | blocked m _ hm hk =>
          have hblocked := FlushEffect.blocked m _ (show m ≤ rbLen e.output by omega) hk
          obtain ⟨hflush, rfl, hret⟩ := hblocked.flushes (Option.some.inj hnext)
          exact ⟨hflush, used, rfl, hiff.trans hret⟩
      | error _ _ hfail =>
          have herror : FlushEffect e k (rbLen e.output) (some (-1)) _ _ := .error _ _ hfail
          obtain ⟨hflush, rfl, hret⟩ := herror.flushes (Option.some.inj hnext)
          exact ⟨hflush, used, rfl, hiff.trans hret⟩

/-! ## `write_socket` -/

/-- What `write_socket` does after the last answer `x` of the kernel. -/
inductive SocketEffect (e : Event) (k : Kernel) (buf : List UInt8) :
    Written → Event → Kernel → Prop
  | accepted (n : Nat) (k' : Kernel) (hn : (1 ≤ n ∨ buf = []) ∧ n ≤ buf.length)
      (hk : Sends k k' e.fd (buf.take n)) : SocketEffect e k buf (.accepted n) e k'
  | nothing (hbuf : buf = []) : SocketEffect e k buf .ewouldblock e k
  | queued (m : Nat) (output : RingBuffer) (k' : Kernel)
      (hout : rbWrite e.output buf buf.length = some (m, output)) (hk : Sends k k' e.fd []) :
      SocketEffect e k buf .ewouldblock { e with output := output } k'
  | error (e' : Event) (k' : Kernel) (h : Fails k e' k') : SocketEffect e k buf .error e' k'

theorem writeSocket_socketEffect (h : writeSocket e k buf answers = some (n, e', k', rest)) :
    ∃ j x, answers = List.replicate j .eintr ++ x :: rest ∧ SocketEffect e k buf x e' k' := by
  obtain ⟨⟨n₁, e₁, k₁, answers₁⟩, hwrite, h⟩ := Option.bind_eq_some_iff.mp h
  obtain ⟨j, x, rfl, heff⟩ := writeSocket_effect hwrite
  refine ⟨j, x, ?_⟩
  cases heff with
  | accepted m _ hm hk =>
      have hnot : ¬ ((m : Int) = 0 ∧ buf.length > 0) := by
        rintro ⟨h0, hpos⟩
        rcases hm.1 with h1 | rfl
        · omega
        · exact absurd hpos (Nat.lt_irrefl 0)
      simp only [if_neg hnot] at h
      split at h
      · simp only [Option.some.injEq, Prod.mk.injEq] at h
        obtain ⟨rfl, rfl, rfl, rfl⟩ := h
        exact ⟨rfl, .accepted m _ hm (hk.enable _ _ _)⟩
      · simp only [Option.some.injEq, Prod.mk.injEq] at h
        obtain ⟨rfl, rfl, rfl, rfl⟩ := h
        exact ⟨rfl, .accepted m _ hm hk⟩
  | blocked =>
      simp only [true_and, gt_iff_lt, Int.lt_irrefl, if_false] at h
      split at h
      · obtain ⟨⟨m, output⟩, hout, h⟩ := Option.bind_eq_some_iff.mp h
        simp only [Option.some.injEq, Prod.mk.injEq] at h
        obtain ⟨rfl, rfl, rfl, rfl⟩ := h
        exact ⟨rfl, .queued m output _ hout ((Sends.refl _ _).enable _ _ _)⟩
      · rename_i hbuf
        simp only [Option.some.injEq, Prod.mk.injEq] at h
        obtain ⟨rfl, rfl, rfl, rfl⟩ := h
        exact ⟨rfl, .nothing (List.eq_nil_of_length_eq_zero (by omega))⟩
  | error _ _ hfail =>
      simp only [show ¬ ((-1 : Int) = 0 ∧ buf.length > 0) by omega, show ¬ (-1 : Int) > 0 by omega,
        if_false, Option.some.injEq, Prod.mk.injEq] at h
      obtain ⟨rfl, rfl, rfl, rfl⟩ := h
      exact ⟨rfl, .error _ _ hfail⟩

theorem writeSocket_eintr (j : Nat) :
    writeSocket e k buf (List.replicate j .eintr ++ answers) = writeSocket e k buf answers := by
  unfold writeSocket
  induction j with
  | zero => rfl
  | succ j ih => exact ih

end

/-! ## The stream of a connection -/

/-- A connection, with the bytes its user passed to `write_socket` so far. -/
structure Conn where
  event : Event
  kernel : Kernel
  offered : List UInt8

/-- The calls, with the answers of the kernel. -/
inductive ConnOp
  | write (buf : List UInt8) (answers : List Written)
  | flush (answers : List Written)

/-- A call uses up the answers, among which there is no hard error. -/
def connStep (c : Conn) : ConnOp → Option Conn
  | .write buf answers =>
      if .error ∈ answers then none
      else match writeSocket c.event c.kernel buf answers with
        | some (_, e, k, []) => some { event := e, kernel := k, offered := c.offered ++ buf }
        | _ => none
  | .flush answers =>
      if .error ∈ answers then none
      else match flushSocket c.event c.kernel answers with
        | some (_, e, k, []) => some { event := e, kernel := k, offered := c.offered }
        | _ => none

/-- A new connection. -/
def connect (k : Kernel) (fd : Nat) (memIn memOut : Nat → UInt8) : Option Conn := do
  let input ← rbInit memIn (1024 * 16)
  let output ← rbInit memOut (1024 * 16)
  some
    { event := ⟨fd, input, output⟩
      kernel := { k with sent := Function.update k.sent fd [] }
      offered := [] }

/-- The kernel took a first part of what was offered, and the rest is in the ring. -/
def Whole (c : Conn) : Prop :=
  c.kernel.sent c.event.fd <+: c.offered ∧
    c.offered = c.kernel.sent c.event.fd ++ contents c.event.output

/-- The call leaves the stream whole. -/
def StaysWhole (c : Conn) (op : ConnOp) : Prop := ∀ c', connStep c op = some c' → Whole c'

/-- A write is taken as a whole, and the order of it and of what is in the ring does not
matter; or it is refused, and fits into the ring. -/
def InOrder (c : Conn) : ConnOp → Prop
  | .write buf answers => ∀ j x, answers = List.replicate j .eintr ++ [x] →
      match x with
      | .accepted n => (1 ≤ n ∨ buf = []) ∧ n ≤ buf.length →
          n = buf.length ∧ contents c.event.output ++ buf = buf ++ contents c.event.output
      | .ewouldblock => buf.length ≤ rbRemain c.event.output
      | _ => True
  | .flush _ => True

/-- What holds between two calls. -/
def ConnOk (c : Conn) : Prop := Ok c.event.output ∧ Whole c

theorem whole_of_eq {c : Conn}
    (h : c.offered = c.kernel.sent c.event.fd ++ contents c.event.output) : Whole c :=
  ⟨h ▸ List.prefix_append _ _, h⟩

section

variable {c c' : Conn} {buf : List UInt8} {answers : List Written}

theorem connStep_write (h : connStep c (.write buf answers) = some c') :
    ∃ j x, answers = List.replicate j .eintr ++ [x] ∧ x ≠ .error ∧
      SocketEffect c.event c.kernel buf x c'.event c'.kernel ∧ c'.offered = c.offered ++ buf := by
  unfold connStep at h
  simp only at h
  split at h
  · exact absurd h nofun
  · rename_i hsoft
    split at h
    · rename_i hwrite
      obtain rfl := Option.some.inj h
      obtain ⟨j, x, hans, heff⟩ := writeSocket_socketEffect hwrite
      refine ⟨j, x, hans, fun hx => hsoft ?_, heff, rfl⟩
      rw [hans, hx]
      simp
    · exact absurd h nofun

theorem connStep_flush (hr : Ok c.event.output) (h : connStep c (.flush answers) = some c') :
    ∃ m, m ≤ rbLen c.event.output ∧
      c'.event = { c.event with output := c.event.output.skip m } ∧ c'.offered = c.offered ∧
      Sends c.kernel c'.kernel c.event.fd ((contents c.event.output).take m) := by
  unfold connStep at h
  simp only at h
  split at h
  · exact absurd h nofun
  · rename_i hsoft
    split at h
    · rename_i hflush
      obtain rfl := Option.some.inj h
      obtain ⟨heff, used, rfl, hiff⟩ := flushSocket_effect hr hflush
      rcases heff with ⟨⟨m, hm, he, hk⟩, -⟩ | ⟨-, hn⟩
      · exact ⟨m, hm, he, rfl, hk⟩
      · exact absurd (List.mem_append_left _ (hiff.mpr hn)) hsoft
    · exact absurd h nofun

/-- An answer the kernel can give makes the call return. -/
theorem writeSocket_returns {e : Event} (hr : Ok e.output) (k : Kernel) {x : Written}
    (hx : (∃ n, x = .accepted n ∧ (1 ≤ n ∨ buf = []) ∧ n ≤ buf.length) ∨ x = .ewouldblock) :
    ∃ n e' k', writeSocket e k buf [x] = some (n, e', k', []) := by
  unfold writeSocket writeSocket_
  rcases hx with ⟨n, rfl, hn⟩ | rfl
  · have hnot : ¬ ((n : Int) = 0 ∧ buf.length > 0) := by
      rintro ⟨h0, hpos⟩
      rcases hn.1 with h1 | rfl
      · omega
      · exact absurd hpos (Nat.lt_irrefl 0)
    simp only [if_pos hn, Option.bind_eq_bind, Option.bind_some, if_neg hnot]
    split <;> exact ⟨_, _, _, rfl⟩
  · simp only [Option.bind_eq_bind, Option.bind_some, true_and, gt_iff_lt, Int.lt_irrefl, if_false]
    split
    · by_cases hroom : buf.length ≤ e.output.size - rbLen e.output
      · obtain ⟨output, hout, -⟩ := rbWrite_room hr (Nat.le_refl _) hroom
        exact ⟨_, _, _, by rw [hout]; rfl⟩
      · exact ⟨_, _, _, by rw [rbWrite_full hr (by omega)]; rfl⟩
    · exact ⟨_, _, _, rfl⟩

theorem connStep_returns (hr : Ok c.event.output) (j : Nat) {x : Written}
    (hx : (∃ n, x = .accepted n ∧ (1 ≤ n ∨ buf = []) ∧ n ≤ buf.length) ∨ x = .ewouldblock) :
    ∃ c', connStep c (.write buf (List.replicate j .eintr ++ [x])) = some c' ∧
      SocketEffect c.event c.kernel buf x c'.event c'.kernel ∧ c'.offered = c.offered ++ buf := by
  have hsoft : Written.error ∉ List.replicate j .eintr ++ [x] := by
    rcases hx with ⟨n, rfl, -⟩ | rfl <;> simp
  obtain ⟨n, e', k', hwrite⟩ := writeSocket_returns hr c.kernel hx
  have hstep : connStep c (.write buf (List.replicate j .eintr ++ [x])) =
      some { event := e', kernel := k', offered := c.offered ++ buf } := by
    simp only [connStep, if_neg hsoft, writeSocket_eintr, hwrite]
  obtain ⟨j', x', hans, -, heff, hoff⟩ := connStep_write hstep
  obtain ⟨-, hx⟩ := List.append_inj' hans rfl
  obtain rfl := (List.cons.inj hx).1
  exact ⟨_, hstep, heff, hoff⟩

/-- What the kernel took of a write keeps the stream whole if it took all of it, and if it does
not matter that it went before what is in the ring. -/
theorem accepted_iff {s p b : List UInt8} {n : Nat} (hn : n ≤ b.length) :
    s ++ p ++ b = s ++ b.take n ++ p ↔ n = b.length ∧ p ++ b = b ++ p := by
  rw [List.append_assoc, List.append_assoc, List.append_right_inj]
  constructor
  · intro h
    have hlen := congrArg List.length h
    rw [List.length_append, List.length_append, List.length_take, Nat.min_eq_left hn] at hlen
    obtain rfl : n = b.length := by omega
    rw [List.take_length] at h
    exact ⟨rfl, h⟩
  · rintro ⟨rfl, h⟩
    rw [List.take_length, h]

/-- One call leaves the stream whole if and only if it is in order. -/
theorem staysWhole_iff (h : ConnOk c) (op : ConnOp) : StaysWhole c op ↔ InOrder c op := by
  obtain ⟨hr, hwhole⟩ := h
  cases op with
  | flush answers =>
      refine iff_of_true (fun c' hstep => ?_) trivial
      obtain ⟨m, hm, he, hoff, hk⟩ := connStep_flush hr hstep
      refine whole_of_eq ?_
      rw [hoff, he, hk.sent, hwhole.2, List.append_assoc, contents_skip hr hm,
        List.take_append_drop]
  | write buf answers =>
      constructor
      · rintro hstays j x rfl
        cases x with
        | accepted n =>
            intro hn
            obtain ⟨⟨e', k', o'⟩, hstep, heff, rfl⟩ := connStep_returns hr j (.inl ⟨n, rfl, hn⟩)
            have hwhole' := (hstays _ hstep).2
            cases heff with
            | accepted _ _ _ hk =>
                have hwhole' : c.offered ++ buf =
                    k'.sent c.event.fd ++ contents c.event.output := hwhole'
                rw [hwhole.2, hk.sent] at hwhole'
                exact (accepted_iff hn.2).mp hwhole'
        | ewouldblock =>
            obtain ⟨⟨e', k', o'⟩, hstep, heff, rfl⟩ := connStep_returns hr j (.inr rfl)
            have hwhole' := (hstays _ hstep).2
            cases heff with
            | nothing hbuf =>
                rw [hbuf]
                exact Nat.zero_le _
            | queued m output _ hout hk =>
                -- a write that does not fit leaves the ring as it was
                by_contra hroom
                rw [hr.remain_eq] at hroom
                rw [rbWrite_full hr (by omega)] at hout
                obtain ⟨rfl, rfl⟩ := Prod.mk.inj (Option.some.inj hout)
                have hwhole' : c.offered ++ buf =
                    k'.sent c.event.fd ++ contents c.event.output := hwhole'
                rw [hwhole.2, hk.sent, List.append_nil] at hwhole'
                have hbuf : buf = [] := by simpa using hwhole'
                rw [hbuf] at hroom
                exact hroom (Nat.zero_le _)
        | eintr => trivial
        | error => trivial
      · intro horder c' hstep
        obtain ⟨j, x, rfl, hx, heff, hoff⟩ := connStep_write hstep
        have horder := horder j x rfl
        obtain ⟨e', k', o'⟩ := c'
        obtain rfl : o' = c.offered ++ buf := hoff
        refine whole_of_eq ?_
        cases heff with
        | accepted n _ hn hk =>
            show c.offered ++ buf = k'.sent c.event.fd ++ contents c.event.output
            rw [hwhole.2, hk.sent]
            exact (accepted_iff hn.2).mpr (horder hn)
        | nothing hbuf =>
            rw [hbuf, List.append_nil]
            exact hwhole.2
        | queued m output _ hout hk =>
            have hroom : buf.length ≤ rbRemain c.event.output := horder
            rw [hr.remain_eq] at hroom
            obtain ⟨output', hout', -, -, -, hcon⟩ := rbWrite_room hr (Nat.le_refl _) hroom
            obtain ⟨rfl, rfl⟩ := Prod.mk.inj (Option.some.inj (hout'.symm.trans hout))
            show c.offered ++ buf = k'.sent c.event.fd ++ contents output'
            rw [hcon, List.take_length, hk.sent, List.append_nil, hwhole.2, List.append_assoc]
        | error _ _ _ => exact absurd rfl hx

theorem connOk_step (h : ConnOk c) (op : ConnOp) (horder : InOrder c op)
    (hstep : connStep c op = some c') : ConnOk c' := by
  refine ⟨?_, (staysWhole_iff h op).mpr horder c' hstep⟩
  cases op with
  | flush answers =>
      obtain ⟨m, hm, he, -, -⟩ := connStep_flush h.1 hstep
      rw [he]
      exact (h.1.skip hm).1
  | write buf answers =>
      obtain ⟨j, x, rfl, hx, heff, -⟩ := connStep_write hstep
      obtain ⟨e', k', o'⟩ := c'
      have horder := horder j x rfl
      cases heff with
      | accepted _ _ _ _ => exact h.1
      | nothing _ => exact h.1
      | queued m output _ hout _ =>
          have hroom : buf.length ≤ rbRemain c.event.output := horder
          rw [h.1.remain_eq] at hroom
          obtain ⟨output', hout', hok, -⟩ := rbWrite_room h.1 (Nat.le_refl _) hroom
          obtain ⟨rfl, rfl⟩ := Prod.mk.inj (Option.some.inj (hout'.symm.trans hout))
          exact hok
      | error _ _ _ => exact absurd rfl hx

end

/--
**A stream stays whole if and only if its writes are in order.** Through any calls of
`write_socket` and `flush_socket` on a new connection, and any answers of the kernel but a
hard error, what the kernel took is a first part of what was offered and the rest is in the
ring, as long as every write meets `InOrder`, and not after the first that does not.
-/
theorem stream_whole_iff (k : Kernel) (fd : Nat) (memIn memOut : Nat → UInt8)
    (ops : List ConnOp) :
    ∃ c, connect k fd memIn memOut = some c ∧ Whole c ∧
      (Meets connStep StaysWhole c ops ↔ Meets connStep InOrder c ops) := by
  obtain ⟨input, hin, -⟩ := rbInit_ok memIn (show 1024 * 16 ≤ 2 ^ 31 by decide)
  obtain ⟨output, hout, hok, hnil⟩ := rbInit_ok memOut (show 1024 * 16 ≤ 2 ^ 31 by decide)
  refine ⟨_, by rw [connect, hin, hout]; rfl, ?_, ?_⟩
  · refine whole_of_eq ?_
    show [] = Function.update k.sent fd [] fd ++ contents output
    rw [hnil, Function.update_self]
    rfl
  · refine meets_iff StaysWhole (fun _ op (h : ConnOk _) => staysWhole_iff h op)
      (fun _ op _ h horder hstep => connOk_step h op horder hstep) ops ⟨hok, whole_of_eq ?_⟩
    show [] = Function.update k.sent fd [] fd ++ contents output
    rw [hnil, Function.update_self]
    rfl

instance (c : Conn) : Decidable (Whole c) := inferInstanceAs (Decidable (_ ∧ _))

/-- The kernel takes one byte of two: the other is lost. And a write after a refused one goes
before it. -/
theorem stream_broken :
    ∃ c, connect ⟨fun _ => none, [5], [], fun _ => []⟩ 5 (fun _ => 0) (fun _ => 0) = some c ∧
      (∃ c', run connStep c [.write [1, 2] [.accepted 1]] = some c' ∧ ¬ Whole c') ∧
      ∃ c', run connStep c [.write [1] [.ewouldblock], .write [2] [.accepted 1]] = some c' ∧
        ¬ Whole c' := by
  have h : (connect ⟨fun _ => none, [5], [], fun _ => []⟩ 5 (fun _ => 0) (fun _ => 0)).any
      (fun c => (run connStep c [.write [1, 2] [.accepted 1]]).any (fun c' => ¬ Whole c') ∧
        (run connStep c [.write [1] [.ewouldblock], .write [2] [.accepted 1]]).any
          (fun c' => ¬ Whole c')) = true := by
    decide +kernel
  obtain ⟨c, hc, hruns⟩ := (Option.any_eq_true _ _).mp h
  obtain ⟨hlost, hpassed⟩ := of_decide_eq_true hruns
  obtain ⟨c₁, hrun₁, h₁⟩ := (Option.any_eq_true _ _).mp hlost
  obtain ⟨c₂, hrun₂, h₂⟩ := (Option.any_eq_true _ _).mp hpassed
  exact ⟨c, hc, ⟨c₁, hrun₁, of_decide_eq_true h₁⟩, c₂, hrun₂, of_decide_eq_true h₂⟩

end CppTrack.Net
