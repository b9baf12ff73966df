import CppTrack.Net.ReactorFlush
import CppTrack.Net.ReactorRead
import CppTrack.Net.ReactorSlots

/-!
# Descriptors and slots

A connection is torn down where a read ends or fails, and where a write fails. The first
keeps the descriptor in a local variable and closes that. The second clears the slot and
then closes what the slot says, which is 0 by then: the descriptor stays open and nobody
has it, and descriptor 0 is closed. A connection that finds no free slot after the cursor is
not set up at all, since the scan leaves the table.
-/

namespace CppTrack.Net

open Lib RingBuf

/-- The calls, with the answers of the kernel. -/
inductive Call
  | connect (fd : Nat) (memIn memOut : Nat → UInt8)
  | read (i : Nat) (answers : List Received)
  | write (i : Nat) (buf : List UInt8) (answers : List Written)
  | flush (i : Nat) (answers : List Written)

/-- The reactor and the kernel. -/
structure Server where
  reactor : Reactor
  kernel : Kernel

/-- The event in slot `i` is changed by a call that used up the answers. -/
def Server.put {β γ : Type} (s : Server) (i : Nat) :
    Option (β × Event × Kernel × List γ) → Option Server
  | some (_, e, k, []) =>
      some
        { reactor := { s.reactor with events := Function.update s.reactor.events i e }
          kernel := k }
  | _ => none

/-- Interruptions, and then the answer to a write of `len` bytes. -/
def Settled (len : Nat) : List Written → Prop
  | .eintr :: rest => Settled len rest
  | [.accepted n] => (1 ≤ n ∨ len = 0) ∧ n ≤ len
  | [.ewouldblock] => True
  | [.error] => True
  | _ => False

/-- Something is taken of each piece, until all of them are sent or a write fails or would have
to block. -/
def Complete : List Nat → List Written → Prop
  | [], answers => answers = []
  | d :: ds, .eintr :: rest => Complete (d :: ds) rest
  | d :: ds, .accepted n :: rest => (1 ≤ n ∧ n ≤ d) ∧ Complete (pieces (d - n) ds) rest
  | _ :: _, [.ewouldblock] => True
  | _ :: _, [.error] => True
  | _ :: _, _ => False

instance Settled.decide (len : Nat) : (answers : List Written) → Decidable (Settled len answers)
  | [] => .isFalse id
  | .eintr :: rest => Settled.decide len rest
  | [.accepted n] => inferInstanceAs (Decidable ((1 ≤ n ∨ len = 0) ∧ n ≤ len))
  | [.ewouldblock] | [.error] => .isTrue trivial
  | .accepted _ :: _ :: _ | .ewouldblock :: _ :: _ | .error :: _ :: _ => .isFalse id

instance Complete.decide :
    (ds : List Nat) → (answers : List Written) → Decidable (Complete ds answers)
  | [], [] => .isTrue (by rw [Complete])
  | [], _ :: _ => .isFalse (by rw [Complete]; exact nofun)
  | _ :: _, [] => .isFalse id
  | d :: ds, .eintr :: rest => Complete.decide (d :: ds) rest
  | d :: ds, .accepted n :: rest =>
      have := Complete.decide (pieces (d - n) ds) rest
      inferInstanceAs (Decidable ((1 ≤ n ∧ n ≤ d) ∧ Complete (pieces (d - n) ds) rest))
  | _ :: _, [.ewouldblock] | _ :: _, [.error] => .isTrue trivial
  | _ :: _, .ewouldblock :: _ :: _ | _ :: _, .error :: _ :: _ => .isFalse id

/-- The calls that are made, with the answers the kernel may give to them. A fresh descriptor
comes from `accept`. Nothing is read or written on an event that is gone, but it may be
flushed. -/
def Posed (s : Server) : Call → Prop
  | .connect fd _ _ => fd ≠ 0 ∧ fd ∉ s.kernel.opened
  | .read i answers => i < maxConn ∧ (s.reactor.events i).fd ≠ 0 ∧ Ended answers
  | .write i buf answers =>
      i < maxConn ∧ (s.reactor.events i).fd ≠ 0 ∧ Settled buf.length answers
  | .flush i answers => i < maxConn ∧ Complete (piecesOf (s.reactor.events i).output) answers

instance (s : Server) (c : Call) : Decidable (Posed s c) := by
  cases c <;> unfold Posed <;> infer_instance

/-- A call that is made has no result if it leaves the table or one of the rings. -/
def serve (s : Server) (c : Call) : Option Server :=
  if Posed s c then
    match c with
    | .connect fd memIn memOut =>
        (newEvent s.reactor fd memIn memOut).map fun x =>
          let k := { s.kernel with
            opened := fd :: s.kernel.opened
            sent := Function.update s.kernel.sent fd [] }
          { reactor := x.2, kernel := addEvent k (x.2.events x.1) (true, false) }
    | .read i answers => s.put i (readSocket (s.reactor.events i) s.kernel answers)
    | .write i buf answers => s.put i (writeSocket (s.reactor.events i) s.kernel buf answers)
    | .flush i answers => s.put i (flushSocket (s.reactor.events i) s.kernel answers)
  else none

/-- No connection is set up yet. -/
def startServer : Server :=
  { reactor := createReactor
    kernel := { interest := fun _ => none, opened := [], closed := [], sent := fun _ => [] } }

/-- The open descriptors are those of the occupied slots. -/
def Owns (s : Server) : Prop :=
  ∀ fd, fd ∈ s.kernel.opened ↔ ∃ i, i < maxConn ∧ (s.reactor.events i).fd = fd ∧ fd ≠ 0

/-- The slot a call is about. -/
def Call.slot : Call → Option Nat
  | .connect _ _ _ => none
  | .read i _ => some i
  | .write i _ _ => some i
  | .flush i _ => some i

/-- What a call that tore down its event has to close. -/
def toClose (s s' : Server) (c : Call) : List Nat :=
  match c.slot with
  | none => []
  | some i =>
      if (s.reactor.events i).fd ≠ 0 ∧ (s'.reactor.events i).fd = 0 then
        [(s.reactor.events i).fd]
      else []

/-- A call that is made goes through, leaves the open descriptors to the occupied slots, and
closes that of the event it tears down and no other. -/
def ClosesRight (s : Server) (c : Call) : Prop :=
  Posed s c → ∃ s', serve s c = some s' ∧ Owns s' ∧
    s'.kernel.closed = s.kernel.closed ++ toClose s s' c

/-- There is a free slot after the cursor for the connection, and no write of the call fails
hard. -/
def NoFailure (s : Server) (c : Call) : Prop :=
  Posed s c → match c with
    | .connect _ _ _ => ∃ j, s.reactor.iter < j ∧ j < maxConn ∧ (s.reactor.events j).fd = 0
    | .read _ _ => True
    | .write _ _ answers => .error ∉ answers
    | .flush _ answers => .error ∉ answers

/-- What holds between two calls. -/
structure ServerOk (s : Server) : Prop where
  iter : s.reactor.iter < maxConn
  owns : Owns s
  nodup : s.kernel.opened.Nodup
  distinct : ∀ i j, i < maxConn → j < maxConn → (s.reactor.events i).fd ≠ 0 →
    (s.reactor.events i).fd = (s.reactor.events j).fd → i = j
  live : ∀ i, (s.reactor.events i).fd ≠ 0 →
    Ok (s.reactor.events i).input ∧ Ok (s.reactor.events i).output
  gone : ∀ i, (s.reactor.events i).fd = 0 → rbIsempty (s.reactor.events i).output = true

/-- The event is still there, with its descriptor. -/
structure Stays (e : Event) (k : Kernel) (e' : Event) (k' : Kernel) : Prop where
  fd : e'.fd = e.fd
  input : Ok e'.input
  output : Ok e'.output
  opened : k'.opened = k.opened
  closed : k'.closed = k.closed

section

variable {s s' : Server} {i : Nat} {e e' : Event} {k k' : Kernel} {n : Int}
  {answers : List Written} {buf : List UInt8}

theorem put_eq_some {β γ : Type} {x : Option (β × Event × Kernel × List γ)}
    (h : s.put i x = some s') :
    ∃ b e k, x = some (b, e, k, []) ∧
      s' = { reactor := { s.reactor with events := Function.update s.reactor.events i e }
             kernel := k } := by
  unfold Server.put at h
  split at h
  · exact ⟨_, _, _, rfl, (Option.some.inj h).symm⟩
  · exact absurd h nofun

/-! ## The calls return -/

theorem settled_spec {len : Nat} (h : Settled len answers) :
    ∃ j x, answers = List.replicate j .eintr ++ [x] ∧
      ((∃ n, x = .accepted n ∧ (1 ≤ n ∨ len = 0) ∧ n ≤ len) ∨ x = .ewouldblock ∨ x = .error) := by
  induction answers with
  | nil => exact absurd h id
  | cons x answers ih =>
      cases x with
      | eintr =>
          obtain ⟨j, x, rfl, hx⟩ := ih h
          exact ⟨j + 1, x, rfl, hx⟩
      | accepted n =>
          cases answers with
          | nil => exact ⟨0, .accepted n, rfl, .inl ⟨n, rfl, h⟩⟩
          | cons y answers => exact absurd h id
      | ewouldblock =>
          cases answers with
          | nil => exact ⟨0, .ewouldblock, rfl, .inr (.inl rfl)⟩
          | cons y answers => exact absurd h id
      | error =>
          cases answers with
          | nil => exact ⟨0, .error, rfl, .inr (.inr rfl)⟩
          | cons y answers => exact absurd h id

theorem writeSocket_settled (hr : Ok e.output) (h : Settled buf.length answers) :
    ∃ n e' k', writeSocket e k buf answers = some (n, e', k', []) := by
  obtain ⟨j, x, rfl, hx⟩ := settled_spec h
  rw [writeSocket_eintr]
  rcases hx with ⟨n, rfl, hn⟩ | rfl | rfl
  · rw [List.length_eq_zero_iff] at hn
    exact writeSocket_returns hr k (.inl ⟨n, rfl, hn⟩)
  · exact writeSocket_returns hr k (.inr rfl)
  · exact ⟨_, _, _, rfl⟩

/-- One write of a piece: the call is over, or something of the piece was taken. -/
theorem writeSocket_complete {ds : List Nat} (h : Complete (buf.length :: ds) answers) :
    ∃ n e' k' rest, writeSocket_ e k buf answers = some (n, e', k', rest) ∧
      (n ≤ 0 ∧ rest = [] ∨ ∃ m : Nat, n = m ∧ (1 ≤ m ∧ m ≤ buf.length) ∧ e' = e ∧
        Complete (pieces (buf.length - m) ds) rest) := by
  induction answers with
  | nil => exact absurd h id
  | cons x answers ih =>
      cases x with
      | eintr => exact ih h
      | accepted m =>
          obtain ⟨hm, h⟩ := h
          rw [writeSocket_, if_pos ⟨.inl hm.1, hm.2⟩]
          exact ⟨m, e, _, answers, rfl, .inr ⟨m, rfl, hm, rfl, h⟩⟩
      | ewouldblock =>
          cases answers with
          | nil => exact ⟨0, e, k, [], rfl, .inl ⟨Int.le_refl 0, rfl⟩⟩
          | cons y answers => exact absurd h id
      | error =>
          cases answers with
          | nil => exact ⟨-1, _, _, [], rfl, .inl ⟨by decide, rfl⟩⟩
          | cons y answers => exact absurd h id

/-- A loop of `flush_socket` comes to the end of its piece, or to the end of the answers. -/
theorem flushLoop_complete {fuel len : Nat} {ds : List Nat} (hr : Ok e.output)
    (hlen : len ≤ rbLen e.output)
    (hplace : e.output.place e.output.readPos + len ≤ e.output.size) (hfuel : len ≤ fuel)
    (h : Complete (pieces len ds) answers) :
    ∃ ret e' k' rest, flushLoop fuel len e k answers = some (ret, e', k', rest) ∧
      (ret = none ∧ e' = { e with output := e.output.skip len } ∧ Complete ds rest ∨
        ret ≠ none ∧ rest = []) := by
  induction fuel generalizing len e k answers with
  | zero =>
      obtain rfl : len = 0 := by omega
      rw [flushLoop, if_pos rfl, skip_zero hr]
      exact ⟨none, e, k, answers, rfl, .inl ⟨rfl, rfl, h⟩⟩
  | succ fuel ih =>
      rw [flushLoop]
      by_cases hzero : len = 0
      · subst hzero
        rw [if_pos rfl, skip_zero hr]
        exact ⟨none, e, k, answers, rfl, .inl ⟨rfl, rfl, h⟩⟩
      · rw [if_neg hzero, copyOut_place hr hlen hplace, Option.bind_eq_bind, Option.bind_some]
        have hbuf : ((contents e.output).take len).length = len := by
          rw [List.length_take, contents, window_length]
          omega
        rw [pieces, if_neg hzero] at h
        obtain ⟨n, e', k', rest, hwrite, hn⟩ :=
          writeSocket_complete (e := e) (k := k) (hbuf.symm ▸ h)
        rw [hwrite, Option.bind_eq_bind, Option.bind_some]
        rcases hn with ⟨hn, rfl⟩ | ⟨m, rfl, hm, rfl, hrest⟩
        · -- the call is over
          by_cases h0 : n = 0
          · exact ⟨some 0, _, _, [], if_pos h0, .inr ⟨Option.some_ne_none _, rfl⟩⟩
          · refine ⟨some (-1), e', k', [], ?_, .inr ⟨Option.some_ne_none _, rfl⟩⟩
            simp only [if_neg h0, if_pos (show n < 0 by omega)]
        · rw [hbuf] at hm hrest
          obtain ⟨hok, hlen', -⟩ := hr.skip (show m ≤ rbLen e'.output by omega)
          have hloop := ih (e := { e' with output := e'.output.skip m }) (k := k') hok
            (show len - m ≤ rbLen (e'.output.skip m) by omega) (place_skip hr hm.2 hplace)
            (by omega) hrest
          simp only [skip_skip, show m + (len - m) = len by omega] at hloop
          simp only [show (m : Int) ≠ 0 by omega, show ¬ (m : Int) < 0 by omega, if_false,
            Int.toNat_natCast]
          exact hloop

theorem rbLen_of_isempty {r : RingBuffer} (h : rbIsempty r = true) : rbLen r = 0 := by
  have heq : r.readPos = r.writePos := by simpa [rbIsempty] using h
  rw [rbLen, heq, subU32, Nat.add_sub_cancel_left, Nat.mod_self]

theorem flushSocket_complete (hr : rbIsempty e.output = false → Ok e.output)
    (h : Complete (piecesOf e.output) answers) :
    ∃ n e' k', flushSocket e k answers = some (n, e', k', []) := by
  unfold flushSocket
  unfold piecesOf at h
  by_cases hempty : rbIsempty e.output = true
  · rw [rbLen_of_isempty hempty, Nat.zero_min, Nat.zero_sub, pieces, if_pos rfl, pieces,
      if_pos rfl, Complete] at h
    subst h
    exact ⟨0, e, k, if_pos hempty⟩
  · have hr := hr (by simpa using hempty)
    have hlt := place_lt hr
    rw [if_neg hempty]
    simp only [toEnd_eq hr]
    generalize hd : e.output.size - e.output.place e.output.readPos = dis at *
    by_cases hone : dis ≥ rbLen e.output
    · -- the bytes are in one piece
      rw [Nat.min_eq_left hone, Nat.sub_eq_zero_of_le hone] at h
      obtain ⟨ret, e', k', rest, hloop, hret⟩ :=
        flushLoop_complete (k := k) hr (Nat.le_refl _) (by omega) (Nat.le_refl _) h
      rw [if_pos hone, hloop]
      rcases hret with ⟨rfl, -, hrest⟩ | ⟨hret, rfl⟩
      · rw [pieces, if_pos rfl, Complete] at hrest
        subst hrest
        exact ⟨_, _, _, rfl⟩
      · obtain ⟨n, rfl⟩ := Option.ne_none_iff_exists'.mp hret
        exact ⟨_, _, _, rfl⟩
    · -- they go round the end of the array
      have hle : dis ≤ rbLen e.output := by omega
      rw [Nat.min_eq_right hle] at h
      obtain ⟨ret, e', k', rest, hloop, hret⟩ :=
        flushLoop_complete (k := k) hr hle (by omega) (Nat.le_refl _) h
      rw [if_neg hone, hloop, Option.bind_eq_bind, Option.bind_some]
      rcases hret with ⟨rfl, rfl, hrest⟩ | ⟨hret, rfl⟩
      · obtain ⟨hok, hlen, -⟩ := hr.skip hle
        have hfits := hr.fits
        have hstart := place_wrapped hr hd
        have hsize : (e.output.skip dis).size = e.output.size := rfl
        obtain ⟨ret, e', k', rest, hloop, hret⟩ :=
          flushLoop_complete (e := { e with output := e.output.skip dis }) (k := k') hok
            (show rbLen e.output - dis ≤ rbLen (e.output.skip dis) by omega)
            (by rw [hstart, hsize]; omega) (Nat.le_refl _) hrest
        rw [hloop]
        rcases hret with ⟨rfl, -, hrest⟩ | ⟨hret, rfl⟩
        · rw [Complete] at hrest
          subst hrest
          exact ⟨_, _, _, rfl⟩
        · obtain ⟨n, rfl⟩ := Option.ne_none_iff_exists'.mp hret
          exact ⟨_, _, _, rfl⟩
      · obtain ⟨n, rfl⟩ := Option.ne_none_iff_exists'.mp hret
        exact ⟨_, _, _, rfl⟩

/-! ## The three ways a call ends -/

theorem ServerOk.stays (h : ServerOk s) (hi : (s.reactor.events i).fd ≠ 0)
    (hs : Stays (s.reactor.events i) s.kernel e k) :
    ServerOk
      { reactor := { s.reactor with events := Function.update s.reactor.events i e }
        kernel := k } := by
  have hfd : ∀ j, (Function.update s.reactor.events i e j).fd = (s.reactor.events j).fd := by
    intro j
    by_cases hj : j = i
    · rw [hj, Function.update_self, hs.fd]
    · rw [Function.update_of_ne hj]
  refine ⟨h.iter, fun fd => ?_, hs.opened ▸ h.nodup, fun a b ha hb => ?_, fun j hj => ?_,
    fun j hj => ?_⟩
  · simp only [hs.opened, hfd]
    exact h.owns fd
  · simp only [hfd]
    exact h.distinct a b ha hb
  · by_cases hji : j = i
    · simp only [hji, Function.update_self]
      exact ⟨hs.input, hs.output⟩
    · simp only [hfd] at hj
      simp only [Function.update_of_ne hji]
      exact h.live j hj
  · simp only [hfd] at hj
    have hji : j ≠ i := fun hji => hi (hji ▸ hj)
    simp only [Function.update_of_ne hji]
    exact h.gone j hj

/-- The descriptor of the event is closed, and its slot is free. -/
theorem ServerOk.closes (h : ServerOk s) (hlt : i < maxConn)
    (hc : Closes (s.reactor.events i) s.kernel e k) :
    ServerOk
      { reactor := { s.reactor with events := Function.update s.reactor.events i e }
        kernel := k } := by
  have hself : (Function.update s.reactor.events i e i).fd = 0 := by
    rw [Function.update_self, hc.fd]
  have hother : ∀ j, (Function.update s.reactor.events i e j).fd ≠ 0 →
      j ≠ i ∧ Function.update s.reactor.events i e j = s.reactor.events j := by
    intro j hj
    have hji : j ≠ i := fun hji => hj (hji ▸ hself)
    exact ⟨hji, Function.update_of_ne hji _ _⟩
  refine ⟨h.iter, fun fd => ?_, hc.opened ▸ h.nodup.erase _, fun a b ha hb hfd hab => ?_,
    fun j hj => ?_, fun j hj => ?_⟩
  · simp only [hc.opened, h.nodup.mem_erase_iff, h.owns fd]
    constructor
    · rintro ⟨hne, j, hj, rfl, h0⟩
      have hji : j ≠ i := fun hji => hne (hji ▸ rfl)
      exact ⟨j, hj, by rw [Function.update_of_ne hji], h0⟩
    · rintro ⟨j, hj, rfl, h0⟩
      obtain ⟨hji, he⟩ := hother j h0
      rw [he] at h0 ⊢
      exact ⟨fun hne => hji (h.distinct j i hj hlt h0 hne), j, hj, rfl, h0⟩
  · have hb' : (Function.update s.reactor.events i e b).fd ≠ 0 := hab ▸ hfd
    obtain ⟨-, hae⟩ := hother a hfd
    obtain ⟨-, hbe⟩ := hother b hb'
    simp only [hae, hbe] at hfd hab
    exact h.distinct a b ha hb hfd hab
  · obtain ⟨-, he⟩ := hother j hj
    simp only [he] at hj ⊢
    exact h.live j hj
  · by_cases hji : j = i
    · simp only [hji, Function.update_self]
      exact hc.empty
    · simp only [Function.update_of_ne hji] at hj ⊢
      exact h.gone j hj

/-- How a call on slot `i` ends, and what it closes. -/
inductive Ends (s : Server) (i : Nat) (e : Event) (k : Kernel) : Bool → Prop
  | stays (h : Stays (s.reactor.events i) s.kernel e k) : Ends s i e k true
  | closes (h : Closes (s.reactor.events i) s.kernel e k) : Ends s i e k true
  | fails (h : Fails s.kernel e k) : Ends s i e k false

/-- A call that ends otherwise than by a failed write closes what it has to. -/
theorem ends_right (h : ServerOk s) (hlt : i < maxConn) (hi : (s.reactor.events i).fd ≠ 0)
    {b : Bool} (hends : Ends s i e k b) {c : Call} (hc : c.slot = some i)
    (hs' : s' = { reactor := { s.reactor with events := Function.update s.reactor.events i e }
                  kernel := k }) :
    (b = true → ServerOk s') ∧
      ((Owns s' ∧ s'.kernel.closed = s.kernel.closed ++ toClose s s' c) ↔ b = true) := by
  subst hs'
  have hclose : toClose s
      { reactor := { s.reactor with events := Function.update s.reactor.events i e }
        kernel := k } c = if e.fd = 0 then [(s.reactor.events i).fd] else [] := by
    unfold toClose
    rw [hc]
    simp only [Function.update_self, hi, ne_eq, not_false_eq_true, true_and]
  rw [hclose]
  cases hends with
  | stays hstays =>
      have hok := h.stays hi hstays
      refine ⟨fun _ => hok, iff_of_true ⟨hok.owns, ?_⟩ rfl⟩
      rw [if_neg (by rw [hstays.fd]; exact hi), List.append_nil]
      exact hstays.closed
  | closes hcloses =>
      have hok := h.closes hlt hcloses
      refine ⟨fun _ => hok, iff_of_true ⟨hok.owns, ?_⟩ rfl⟩
      rw [if_pos hcloses.fd]
      exact hcloses.closed
  | fails hfails =>
      refine ⟨nofun, iff_of_false (fun hright => ?_) nofun⟩
      have hright := hright.2
      rw [if_pos hfails.fd] at hright
      simp only [hfails.closed, List.append_right_inj] at hright
      exact hi (List.cons.inj hright).1.symm

/-! ## The calls -/

theorem sends_stays {e : Event} {k k' : Kernel} {fd : Nat} (hin : Ok e.input) (hout : Ok e'.output)
    (he : e' = { e with output := e'.output }) (hk : Sends k k' fd buf) : Stays e k e' k' := by
  refine ⟨by rw [he], by rw [he]; exact hin, hout, hk.opened, hk.closed⟩

theorem read_ends {num : Nat} {answers : List Received} (hin : Ok (s.reactor.events i).input)
    (hout : Ok (s.reactor.events i).output)
    (h : readSocket (s.reactor.events i) s.kernel answers = some (num, e, k, [])) :
    Ends s i e k true := by
  obtain ⟨used, -, ⟨-, hcloses, -⟩ | ⟨rfl, hreads⟩⟩ := readLoop_effect hin h
  · exact .closes hcloses
  · refine .stays ⟨by rw [hreads.same], hreads.ok, ?_, rfl, rfl⟩
    rw [hreads.same]
    exact hout

theorem write_ends (hin : Ok (s.reactor.events i).input) (hout : Ok (s.reactor.events i).output)
    (h : writeSocket (s.reactor.events i) s.kernel buf answers = some (n, e, k, [])) :
    ∃ b, Ends s i e k b ∧ (b = true ↔ .error ∉ answers) := by
  obtain ⟨j, x, rfl, heff⟩ := writeSocket_socketEffect h
  have hmem : Written.error ∈ List.replicate j .eintr ++ [x] ↔ x = .error := by
    simp [eq_comm]
  rw [hmem]
  cases heff with
  | accepted m _ _ hk =>
      exact ⟨true, .stays (sends_stays hin hout rfl hk), iff_of_true rfl nofun⟩
  | nothing _ => exact ⟨true, .stays ⟨rfl, hin, hout, rfl, rfl⟩, iff_of_true rfl nofun⟩
  | queued m output _ hwrite hk =>
      obtain ⟨m', output', hwrite', hok⟩ := rbWrite_returns hout buf
      obtain ⟨rfl, rfl⟩ := Prod.mk.inj (Option.some.inj (hwrite'.symm.trans hwrite))
      exact ⟨true, .stays (sends_stays hin hok rfl hk), iff_of_true rfl nofun⟩
  | error _ _ hfails => exact ⟨false, .fails hfails, iff_of_false nofun fun hx => hx rfl⟩

theorem flush_ends (hin : Ok (s.reactor.events i).input) (hout : Ok (s.reactor.events i).output)
    (h : flushSocket (s.reactor.events i) s.kernel answers = some (n, e, k, [])) :
    ∃ b, Ends s i e k b ∧ (b = true ↔ .error ∉ answers) := by
  obtain ⟨heff, used, hused, hiff⟩ := flushSocket_effect hout h
  rw [List.append_nil] at hused
  subst hused
  rw [hiff]
  rcases heff with ⟨⟨m, hm, he, hk⟩, hn⟩ | ⟨hfails, hn⟩
  · refine ⟨true, .stays (sends_stays hin ?_ ?_ hk), iff_of_true rfl hn⟩
    · rw [he]
      exact (hout.skip hm).1
    · rw [he]
  · exact ⟨false, .fails hfails, iff_of_false nofun fun hne => hne hn⟩

/-- A flush of an event that is gone does nothing. -/
theorem flush_gone (h : rbIsempty (s.reactor.events i).output = true)
    (hflush : s.put i (flushSocket (s.reactor.events i) s.kernel answers) = some s') :
    s' = s ∧ answers = [] := by
  obtain ⟨b, e, k, hx, rfl⟩ := put_eq_some hflush
  rw [flushSocket, if_pos h] at hx
  simp only [Option.some.injEq, Prod.mk.injEq] at hx
  obtain ⟨-, rfl, rfl, rfl⟩ := hx
  rw [Function.update_eq_self]
  exact ⟨rfl, rfl⟩

theorem addEvent_opened (k : Kernel) (e : Event) (events : Bool × Bool) :
    (addEvent k e events).opened = k.opened := by
  unfold addEvent
  split <;> rfl

theorem addEvent_closed (k : Kernel) (e : Event) (events : Bool × Bool) :
    (addEvent k e events).closed = k.closed := by
  unfold addEvent
  split <;> rfl

/-- A fresh descriptor is put into a free slot. -/
theorem ServerOk.sets_up {fd iter : Nat} {input output : RingBuffer} (h : ServerOk s)
    (hi : i < maxConn) (h0 : (s.reactor.events i).fd = 0) (hfd : fd ≠ 0)
    (hnot : fd ∉ s.kernel.opened) (hin : Ok input) (hout : Ok output) (hiter : iter < maxConn)
    (hk : k.opened = fd :: s.kernel.opened) :
    ServerOk
      { reactor :=
          { events := Function.update s.reactor.events i ⟨fd, input, output⟩, iter := iter }
        kernel := k } := by
  have hself : Function.update s.reactor.events i ⟨fd, input, output⟩ i = ⟨fd, input, output⟩ :=
    Function.update_self ..
  have hother : ∀ j, j ≠ i →
      Function.update s.reactor.events i ⟨fd, input, output⟩ j = s.reactor.events j :=
    fun j hj => Function.update_of_ne hj _ _
  have hnew : ∀ j, j < maxConn → (s.reactor.events j).fd ≠ fd :=
    fun j hj he => hnot ((h.owns fd).mpr ⟨j, hj, he, hfd⟩)
  refine ⟨hiter, fun fd' => ?_, ?_, fun a b ha hb hne hab => ?_, fun j hj => ?_, fun j hj => ?_⟩
  · simp only [hk, List.mem_cons, h.owns fd']
    constructor
    · rintro (rfl | ⟨j, hj, rfl, hj0⟩)
      · exact ⟨i, hi, by rw [hself], hfd⟩
      · have hji : j ≠ i := fun hji => hj0 (hji ▸ h0)
        exact ⟨j, hj, by rw [hother j hji], hj0⟩
    · rintro ⟨j, hj, rfl, hj0⟩
      by_cases hji : j = i
      · rw [hji, hself]
        exact .inl rfl
      · rw [hother j hji] at hj0 ⊢
        exact .inr ⟨j, hj, rfl, hj0⟩
  · simp only [hk]
    exact List.nodup_cons.mpr ⟨hnot, h.nodup⟩
  · simp only at hne hab
    by_cases hai : a = i
    · by_cases hbi : b = i
      · rw [hai, hbi]
      · rw [hai, hself, hother b hbi] at hab
        exact absurd hab.symm (hnew b hb)
    · by_cases hbi : b = i
      · rw [hbi, hself, hother a hai] at hab
        exact absurd hab (hnew a ha)
      · rw [hother a hai] at hne hab
        rw [hother b hbi] at hab
        exact h.distinct a b ha hb hne hab
  · by_cases hji : j = i
    · simp only [hji, hself]
      exact ⟨hin, hout⟩
    · simp only [hother j hji] at hj ⊢
      exact h.live j hj
  · by_cases hji : j = i
    · simp only [hji, hself] at hj
      exact absurd hj hfd
    · simp only [hother j hji] at hj ⊢
      exact h.gone j hj

theorem posed_of_serve {c : Call} (h : serve s c = some s') : Posed s c := by
  unfold serve at h
  split at h
  · assumption
  · exact absurd h nofun

/-- A call that is made goes through, a connection if there is room for it. -/
theorem serve_returns {c : Call} (h : ServerOk s) (hposed : Posed s c)
    (hroom : ∀ fd memIn memOut, c = .connect fd memIn memOut →
      ∃ j, s.reactor.iter < j ∧ j < maxConn ∧ (s.reactor.events j).fd = 0) :
    ∃ s', serve s c = some s' := by
  unfold serve
  rw [if_pos hposed]
  cases c with
  | connect fd memIn memOut =>
      obtain ⟨i, input, output, hnew, -⟩ :=
        newEvent_room (hroom fd memIn memOut rfl) fd memIn memOut
      simp only [hnew]
      exact ⟨_, rfl⟩
  | read i answers =>
      obtain ⟨-, hi, hended⟩ := hposed
      obtain ⟨num, e, k, hread, -⟩ :=
        readLoop_ended (fun _ buf hr _ => rbWrite_returns hr buf) (h.live i hi).1 hended
      exact ⟨_, congrArg (s.put i) hread⟩
  | write i buf answers =>
      obtain ⟨-, hi, hsettled⟩ := hposed
      obtain ⟨n, e, k, hwrite⟩ :=
        writeSocket_settled (k := s.kernel) (h.live i hi).2 hsettled
      exact ⟨_, congrArg (s.put i) hwrite⟩
  | flush i answers =>
      have hok : rbIsempty (s.reactor.events i).output = false →
          Ok (s.reactor.events i).output := by
        intro hfull
        refine (h.live i fun hgone => ?_).2
        rw [h.gone i hgone] at hfull
        exact absurd hfull nofun
      obtain ⟨n, e, k, hflush⟩ := flushSocket_complete (k := s.kernel) hok hposed.2
      exact ⟨_, congrArg (s.put i) hflush⟩

/-- A connection is set up on a fresh descriptor, if there is a slot for it. -/
theorem connect_right {fd : Nat} {memIn memOut : Nat → UInt8} (h : ServerOk s)
    (hstep : serve s (.connect fd memIn memOut) = some s') :
    (∃ j, s.reactor.iter < j ∧ j < maxConn ∧ (s.reactor.events j).fd = 0) ∧
      ServerOk s' ∧ s'.kernel.closed = s.kernel.closed := by
  obtain ⟨hfd, hnot⟩ := posed_of_serve hstep
  unfold serve at hstep
  rw [if_pos ⟨hfd, hnot⟩] at hstep
  by_cases hroom : ∃ j, s.reactor.iter < j ∧ j < maxConn ∧ (s.reactor.events j).fd = 0
  · refine ⟨hroom, ?_⟩
    obtain ⟨i, input, output, hnew, hin, hout, hi, h0⟩ := newEvent_room hroom fd memIn memOut
    obtain ⟨input', hin', hokin, -⟩ := rbInit_ok memIn (show 1024 * 16 ≤ 2 ^ 31 by decide)
    obtain ⟨output', hout', hokout, -⟩ := rbInit_ok memOut (show 1024 * 16 ≤ 2 ^ 31 by decide)
    obtain rfl := Option.some.inj (hin.symm.trans hin')
    obtain rfl := Option.some.inj (hout.symm.trans hout')
    simp only [hnew, Option.map_some] at hstep
    obtain rfl := Option.some.inj hstep
    exact ⟨h.sets_up hi h0 hfd hnot hokin hokout hi (addEvent_opened ..), addEvent_closed ..⟩
  · simp only [newEvent_none h.iter hroom, Option.map_none] at hstep
    exact absurd hstep nofun

/-- A call on a slot closes what it has to if and only if none of its writes fails hard. -/
theorem slot_right (h : ServerOk s) {c : Call} (hslot : c.slot = some i) {hard : Prop}
    (hends : s' = s ∧ ¬ hard ∨ ∃ e k b, i < maxConn ∧ (s.reactor.events i).fd ≠ 0 ∧
      Ends s i e k b ∧ (b = true ↔ ¬ hard) ∧
      s' = { reactor := { s.reactor with events := Function.update s.reactor.events i e }
             kernel := k }) :
    (¬ hard → ServerOk s') ∧
      ((Owns s' ∧ s'.kernel.closed = s.kernel.closed ++ toClose s s' c) ↔ ¬ hard) := by
  rcases hends with ⟨rfl, hsoft⟩ | ⟨e, k, b, hlt, hi, hends, hb, hs'⟩
  · refine ⟨fun _ => h, iff_of_true ⟨h.owns, ?_⟩ hsoft⟩
    have hclose : toClose s' s' c = [] := by
      unfold toClose
      rw [hslot]
      exact if_neg fun hne => hne.1 hne.2
    rw [hclose, List.append_nil]
  · have hright := ends_right h hlt hi hends hslot hs'
    rw [hb] at hright
    exact hright

/-- The answers of a call with a hard error among them. -/
def Call.Hard : Call → Prop
  | .write _ _ answers => .error ∈ answers
  | .flush _ answers => .error ∈ answers
  | _ => False

theorem serve_right {c : Call} (h : ServerOk s) (hstep : serve s c = some s') :
    (¬ c.Hard → ServerOk s') ∧
      ((Owns s' ∧ s'.kernel.closed = s.kernel.closed ++ toClose s s' c) ↔ ¬ c.Hard) := by
  have hposed := posed_of_serve hstep
  cases c with
  | connect fd memIn memOut =>
      obtain ⟨-, hok, hclosed⟩ := connect_right h hstep
      refine ⟨fun _ => hok, iff_of_true ⟨hok.owns, ?_⟩ id⟩
      rw [hclosed]
      exact (List.append_nil _).symm
  | read i answers =>
      unfold serve at hstep
      rw [if_pos hposed] at hstep
      obtain ⟨hlt, hi, -⟩ := hposed
      obtain ⟨num, e, k, hread, rfl⟩ := put_eq_some hstep
      obtain ⟨hin, hout⟩ := h.live i hi
      exact slot_right h rfl (.inr ⟨e, k, true, hlt, hi, read_ends hin hout hread,
        iff_of_true rfl id, rfl⟩)
  | write i buf answers =>
      unfold serve at hstep
      rw [if_pos hposed] at hstep
      obtain ⟨hlt, hi, -⟩ := hposed
      obtain ⟨n, e, k, hwrite, rfl⟩ := put_eq_some hstep
      obtain ⟨hin, hout⟩ := h.live i hi
      obtain ⟨b, hends, hb⟩ := write_ends hin hout hwrite
      exact slot_right h rfl (.inr ⟨e, k, b, hlt, hi, hends, hb, rfl⟩)
  | flush i answers =>
      unfold serve at hstep
      rw [if_pos hposed] at hstep
      obtain ⟨hlt, -⟩ := hposed
      by_cases hi : (s.reactor.events i).fd = 0
      · obtain ⟨rfl, rfl⟩ := flush_gone (h.gone i hi) hstep
        exact slot_right h rfl (.inl ⟨rfl, List.not_mem_nil⟩)
      · obtain ⟨n, e, k, hflush, rfl⟩ := put_eq_some hstep
        obtain ⟨hin, hout⟩ := h.live i hi
        obtain ⟨b, hends, hb⟩ := flush_ends hin hout hflush
        exact slot_right h rfl (.inr ⟨e, k, b, hlt, hi, hends, hb, rfl⟩)

/-- A call that is made fails in one of two ways. -/
theorem noFailure_iff {c : Call} (h : ServerOk s) (hposed : Posed s c) :
    NoFailure s c ↔ (∃ s', serve s c = some s') ∧ ¬ c.Hard := by
  unfold NoFailure
  rw [forall_prop_of_true hposed]
  cases c with
  | connect fd memIn memOut =>
      constructor
      · exact fun hroom => ⟨serve_returns h hposed fun _ _ _ _ => hroom, id⟩
      · rintro ⟨⟨s', hstep⟩, -⟩
        exact (connect_right h hstep).1
  | read i answers => exact iff_of_true trivial ⟨serve_returns h hposed nofun, id⟩
  | write i buf answers | flush i answers =>
      exact (and_iff_right (serve_returns h hposed nofun)).symm

theorem closesRight_iff (h : ServerOk s) (c : Call) : ClosesRight s c ↔ NoFailure s c := by
  by_cases hposed : Posed s c
  · rw [noFailure_iff h hposed]
    constructor
    · intro hright
      obtain ⟨s', hstep, hright⟩ := hright hposed
      exact ⟨⟨s', hstep⟩, (serve_right h hstep).2.mp hright⟩
    · rintro ⟨⟨s', hstep⟩, hsoft⟩ -
      exact ⟨s', hstep, (serve_right h hstep).2.mpr hsoft⟩
  · -- nothing is asked of a call that is not made
    exact iff_of_true (absurd · hposed) (absurd · hposed)

theorem startServer_ok : ServerOk startServer where
  iter := show 0 < maxConn by decide
  owns fd := iff_of_false List.not_mem_nil fun ⟨_, _, h, hne⟩ => hne h.symm
  nodup := List.nodup_nil
  distinct _ _ _ _ h _ := absurd rfl h
  live _ h := absurd rfl h
  gone _ _ := rfl

end

/--
**The descriptors are right if and only if no call fails.** Through any run of new
connections, reads, writes and flushes, with any answers of the kernel, every call goes through,
the open descriptors are those of the occupied slots and every teardown closes that of its event
and nothing else, as long as there is a slot after the cursor for each connection and no write
fails hard, and not after the first call for which that is otherwise.
-/
theorem descriptors_right_iff (calls : List Call) :
    Meets serve ClosesRight startServer calls ↔ Meets serve NoFailure startServer calls := by
  refine meets_iff ClosesRight (fun _ c h => closesRight_iff h c) (fun s c s' h hsoft hstep => ?_)
    calls startServer_ok
  exact (serve_right h hstep).1 ((noFailure_iff h (posed_of_serve hstep)).mp hsoft).2

/-- A connection on descriptor 5 is reset under a write: 0 is closed and 5 stays open. -/
theorem closes_standard_input :
    ¬ Meets serve ClosesRight startServer
        [.connect 5 (fun _ => 0) (fun _ => 0), .write 1 [7] [.error]] ∧
      ∃ s, run serve startServer [.connect 5 (fun _ => 0) (fun _ => 0), .write 1 [7] [.error]] =
          some s ∧ s.kernel.closed = [0] ∧ s.kernel.opened = [5] := by
  have h : (serve startServer (.connect 5 (fun _ => 0) (fun _ => 0))).any (fun s =>
      (serve s (.write 1 [7] [.error])).any fun s' =>
        s'.kernel.closed ≠ s.kernel.closed ++ toClose s s' (.write 1 [7] [.error]) ∧
          s'.kernel.closed = [0] ∧ s'.kernel.opened = [5]) = true := by
    decide +kernel
  obtain ⟨s, hconn, hwrite⟩ := (Option.any_eq_true _ _).mp h
  obtain ⟨s', hwrite, hs'⟩ := (Option.any_eq_true _ _).mp hwrite
  obtain ⟨hne, hclosed, hopened⟩ := of_decide_eq_true hs'
  refine ⟨fun hmeets => ?_, s', ?_, hclosed, hopened⟩
  · obtain ⟨s'', hstep, -, hright⟩ := (hmeets.2 s hconn).1 (posed_of_serve hwrite)
    obtain rfl := Option.some.inj (hstep.symm.trans hwrite)
    exact hne hright
  · rw [run, hconn, Option.bind_some, run, hwrite]
    rfl

end CppTrack.Net
