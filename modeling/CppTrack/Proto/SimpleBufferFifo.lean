import CppTrack.Lib.Run
import CppTrack.Proto.SimpleBuffer

/-!
# The buffer as a queue of bytes

Beside the buffer runs the queue that it stands for: bytes are put in at its end by `Write`, or by a
caller who stores them behind the write offset himself, and `Read` takes out the oldest. The buffer
keeps to this as long as `Extend` does not cut it. It does where its sum wraps: `Extend` is for more
room, but with a large `len` the new allocation can end before the stored bytes do.
-/

namespace CppTrack.IM

open Lib

/-- `Read` without a destination. -/
def CSimpleBuffer.discard (b : CSimpleBuffer) (len : Nat) : Except Fault CSimpleBuffer :=
  if len = 0 then pure b
  else do
    let len := min len b.writeOffset
    let writeOffset := subU32 b.writeOffset len
    let buffer ← defined ((copyOut b.buffer len writeOffset).bind (copyTo b.buffer 0))
    pure { b with buffer := buffer, writeOffset := writeOffset }

/-- A caller's stores at `GetBuffer() + GetWriteOffset()`, and `IncWriteOffset` after them. -/
def CSimpleBuffer.fill (b : CSimpleBuffer) (cells : List Cell) : Except Fault CSimpleBuffer := do
  let buffer ← defined (copyTo b.buffer b.writeOffset cells)
  pure ({ b with buffer := buffer }.incWriteOffset cells.length)

/-- A use of the buffer. -/
inductive BufferOp
  | write (buf : Option (List Cell)) (len : Nat)
  | read (len : Nat)
  | discard (len : Nat)
  | extend (len : Nat)
  | fill (cells : List Cell)

namespace BufferOp

/-- The call, with what it copies to its caller. -/
def call : BufferOp → CSimpleBuffer → Except Fault (List Cell × CSimpleBuffer)
  | write buf len, b => (b.write buf len).map fun b' => ([], b')
  | read len, b => b.read len
  | discard len, b => (b.discard len).map fun b' => ([], b')
  | extend len, b => .ok ([], b.extend len)
  | fill cells, b => (b.fill cells).map fun b' => ([], b')

/-- What becomes of the queue `stored`, with what comes out of it. `Write` without a source takes
the bytes that lie in `b`, the buffer after it. -/
def queue (b : CSimpleBuffer) (stored : List Cell) : BufferOp → List Cell × List Cell
  | write (some buf) len => ([], stored ++ buf.take len)
  | write none len => ([], stored ++ (b.buffer.drop stored.length).take len)
  | read len => (stored.take len, stored.drop len)
  | discard len => ([], stored.drop len)
  | extend _ => ([], stored)
  | fill cells => ([], stored ++ cells)

end BufferOp

/-- A buffer in use, and beside it the queue it stands for. -/
structure Fifo where
  buffer : Except Fault CSimpleBuffer
  stored : List Cell
  /-- what the calls have copied to their callers -/
  given : List (List Cell)
  /-- what they should have -/
  owed : List (List Cell)

namespace Fifo

def new : Fifo := ⟨.ok CSimpleBuffer.new, [], [], []⟩

/-- What is left of the allocation. -/
def room (s : Fifo) : Nat :=
  match s.buffer with
  | .ok b => b.allocSize - b.writeOffset
  | .error _ => 0

/-- What a caller must see to: his own memory is as long as he says, he stores no more than there
is room for, and the stored size stays below `2 ^ 31`. -/
def Allowed (s : Fifo) : BufferOp → Prop
  | .write (some buf) len => len ≤ buf.length ∧ s.stored.length + len < 2 ^ 31
  | .write none len => s.stored.length + len < 2 ^ 31
  | .fill cells => cells.length ≤ s.room ∧ s.stored.length + cells.length < 2 ^ 31
  | _ => True

instance (s : Fifo) : (op : BufferOp) → Decidable (s.Allowed op)
  | .write (some buf) len =>
      inferInstanceAs (Decidable (len ≤ buf.length ∧ s.stored.length + len < 2 ^ 31))
  | .write none len => inferInstanceAs (Decidable (s.stored.length + len < 2 ^ 31))
  | .fill cells =>
      inferInstanceAs (Decidable (cells.length ≤ s.room ∧ s.stored.length + cells.length < 2 ^ 31))
  | .read _ | .discard _ | .extend _ => .isTrue trivial

def step (s : Fifo) (op : BufferOp) : Option Fifo :=
  if s.Allowed op then
    match s.buffer >>= op.call with
    | .ok (out, b) =>
        let (owed, stored) := op.queue b s.stored
        some ⟨.ok b, stored, s.given ++ [out], s.owed ++ [owed]⟩
    | .error f => some { s with buffer := .error f }
  else none

/-- No call has left the allocation; the buffer holds the bytes of the queue in their order, inside
the allocation, and every caller has got what he should. -/
def Right (s : Fifo) : Prop := ∃ b, s.buffer = .ok b ∧ Holds b s.stored ∧ s.given = s.owed

end Fifo

section

variable {b b' : CSimpleBuffer} {cells out : List Cell} {len : Nat}

/-! ## The calls -/

/-- `Read` of as many bytes as there are, if there are fewer than asked for. -/
theorem Holds.read_oldest (h : Holds b cells) (len : Nat) :
    ∃ b', b.read len = .ok (cells.take len, b') ∧ Holds b' (cells.drop len) := by
  by_cases hle : len ≤ cells.length
  · obtain ⟨b', hread, hb', -⟩ := h.read hle
    exact ⟨b', hread, hb'⟩
  · have hmin : min len b.writeOffset = b.writeOffset := by
      rw [h.offset]
      omega
    rw [List.take_of_length_le (by omega), List.drop_of_length_le (by omega)]
    by_cases hempty : cells.length = 0
    · -- a copy of no bytes, which changes nothing
      obtain rfl := List.length_eq_zero_iff.mp hempty
      have hoff : b.writeOffset = 0 := h.offset
      refine ⟨b, ?_, h⟩
      unfold CSimpleBuffer.read
      rw [if_neg (by omega), hmin, hoff]
      have hout : copyOut b.buffer 0 0 = some [] := copyOut_of_start List.nil_prefix (Nat.le_refl 0)
      have hmove : Lib.copyTo b.buffer 0 [] = some b.buffer := copyTo_nil (Nat.zero_le _)
      dsimp only
      rw [hout, show subU32 0 0 = 0 from rfl, hout, Option.bind_some, hmove]
      show Except.ok ([], { b with writeOffset := 0 }) = _
      rw [← hoff]
    · -- the same as if just the bytes that are there had been asked for
      obtain ⟨b', hread, hb', -⟩ := h.read (Nat.le_refl cells.length)
      rw [List.take_length] at hread
      rw [List.drop_length] at hb'
      refine ⟨b', ?_, hb'⟩
      rw [← hread]
      unfold CSimpleBuffer.read
      rw [if_neg (by omega), if_neg hempty, hmin, h.offset, Nat.min_self]

theorem discard_of_read (h : b.read len = .ok (out, b')) : b.discard len = .ok b' := by
  unfold CSimpleBuffer.read at h
  unfold CSimpleBuffer.discard
  by_cases hzero : len = 0
  · rw [if_pos hzero] at h ⊢
    exact congrArg _ (Prod.mk.inj (Except.ok.inj h)).2
  rw [if_neg hzero] at h ⊢
  dsimp only at h ⊢
  -- the copy to the caller went through, and the rest is the same
  cases hout : copyOut b.buffer 0 (min len b.writeOffset) with
  | none =>
      rw [hout] at h
      cases h
  | some oldest =>
      rw [hout, defined_some, ok_bind] at h
      generalize (copyOut b.buffer _ _).bind _ = moved at h ⊢
      cases moved with
      | none => cases h
      | some buffer => exact congrArg _ (Prod.mk.inj (Except.ok.inj h)).2

/-- `Extend` keeps the stored bytes just when it leaves room for them. -/
theorem Holds.extend_iff (h : Holds b cells) : Holds (b.extend len) cells ↔
    cells.length ≤ grown ((cells.length + len) % wordSize) % wordSize := by
  have halloc := extend_allocSize b len
  rw [h.offset] at halloc
  constructor
  · intro h'
    exact halloc ▸ h'.le_alloc
  · intro hle
    refine ⟨length_resize _ _ _, halloc ▸ Nat.mod_lt _ (by simp), h.offset, ?_⟩
    have htake : cells <+: b.buffer.take (b.extend len).allocSize :=
      List.prefix_take_iff.mpr ⟨h.contents, halloc ▸ hle⟩
    exact htake.trans (List.prefix_append _ _)

theorem Holds.fill {src : List Cell} (h : Holds b cells)
    (hroom : src.length ≤ b.allocSize - b.writeOffset) :
    ∃ b', b.fill src = .ok b' ∧ Holds b' (cells ++ src) := by
  have hle := h.le_alloc
  rw [h.offset] at hroom
  obtain ⟨buffer, hcopy, h'⟩ := h.copyTo (show cells.length + src.length ≤ b.allocSize by omega)
  refine ⟨_, ?_, h'⟩
  unfold CSimpleBuffer.fill
  rw [hcopy]
  rfl

/-- `Write` without a source takes the bytes that lie there. -/
theorem Holds.write_none (h : Holds b cells) (hfit : cells.length + len < 2 ^ 31) :
    ∃ b', b.write none len = .ok b' ∧
      Holds b' (cells ++ (b'.buffer.drop cells.length).take len) := by
  obtain ⟨b', src, hwrite, hlen, h'⟩ := h.skip (grown_lt hfit)
  obtain ⟨rest, hrest⟩ := h'.contents
  refine ⟨b', hwrite, ?_⟩
  rw [← hrest, List.append_assoc, List.drop_left, ← hlen, List.take_left]
  exact h'

end

namespace Fifo

/-- The condition on a call: the new allocation of `Extend`, computed as `uint32_t`, is not smaller
than what is stored. -/
def Fits (s : Fifo) (op : BufferOp) : Prop :=
  ∀ len, op = .extend len →
    s.stored.length ≤ grown ((s.stored.length + len) % wordSize) % wordSize

variable {s s' : Fifo} {op : BufferOp}

theorem step_ok {b b' : CSimpleBuffer} {out : List Cell} (hb : s.buffer = .ok b)
    (hcall : op.call b = .ok (out, b')) (hstep : s.step op = some s') :
    s' = ⟨.ok b', (op.queue b' s.stored).2, s.given ++ [out],
      s.owed ++ [(op.queue b' s.stored).1]⟩ := by
  simp only [step, hb, ok_bind, hcall] at hstep
  split_ifs at hstep
  exact (Option.some.inj hstep).symm

theorem allowed_of_step (hstep : s.step op = some s') : s.Allowed op := by
  simp only [step] at hstep
  split_ifs at hstep with hok
  exact hok

/-- A call that goes through hands out what it should, so the rest is about what is stored. -/
theorem right_iff_holds {b b' : CSimpleBuffer} (hb : s.buffer = .ok b) (hsame : s.given = s.owed)
    (hcall : op.call b = .ok ((op.queue b' s.stored).1, b')) (hstep : s.step op = some s') :
    s'.Right ↔ Holds b' (op.queue b' s.stored).2 := by
  rw [step_ok hb hcall hstep]
  constructor
  · rintro ⟨b₁, hb₁, hholds, -⟩
    obtain rfl : b' = b₁ := Except.ok.inj hb₁
    exact hholds
  · intro hholds
    refine ⟨b', rfl, hholds, ?_⟩
    show s.given ++ _ = s.owed ++ _
    rw [hsame]

/-- **One call.** -/
theorem Right.step_iff (h : s.Right) (hstep : s.step op = some s') : s'.Right ↔ s.Fits op := by
  obtain ⟨b, hb, hholds, hsame⟩ := h
  have hallowed := allowed_of_step hstep
  -- only `Extend` can go wrong
  cases op with
  | write buf len =>
      refine iff_of_true ?_ nofun
      cases buf with
      | none =>
          obtain ⟨b', hwrite, h'⟩ := hholds.write_none hallowed
          refine (right_iff_holds hb hsame ?_ hstep).mpr h'
          rw [BufferOp.call, hwrite]
          rfl
      | some buf =>
          obtain ⟨hlen, hfit⟩ := hallowed
          obtain ⟨b', hwrite, h'⟩ := hholds.write hlen (grown_lt hfit)
          refine (right_iff_holds hb hsame ?_ hstep).mpr h'
          rw [BufferOp.call, hwrite]
          rfl
  | read len =>
      refine iff_of_true ?_ nofun
      obtain ⟨b', hread, h'⟩ := hholds.read_oldest len
      have hcall : (BufferOp.read len).call b =
          .ok (((BufferOp.read len).queue b' s.stored).1, b') := hread
      exact (right_iff_holds hb hsame hcall hstep).mpr h'
  | discard len =>
      refine iff_of_true ?_ nofun
      obtain ⟨b', hread, h'⟩ := hholds.read_oldest len
      refine (right_iff_holds hb hsame ?_ hstep).mpr h'
      rw [BufferOp.call, discard_of_read hread]
      rfl
  | extend len =>
      rw [right_iff_holds hb hsame rfl hstep]
      refine hholds.extend_iff.trans ⟨?_, fun hfits => hfits len rfl⟩
      rintro hle len' ⟨⟩
      exact hle
  | fill cells =>
      refine iff_of_true ?_ nofun
      obtain ⟨hroom, -⟩ := hallowed
      rw [room, hb] at hroom
      obtain ⟨b', hfill, h'⟩ := hholds.fill hroom
      refine (right_iff_holds hb hsame ?_ hstep).mpr h'
      rw [BufferOp.call, hfill]
      rfl

theorem right_new : new.Right := ⟨_, rfl, holds_new, rfl⟩

/--
In every run of a new buffer whose callers keep to what they must see to: the buffer is right all
along if and only if `Extend` is never called with a length for which its sum wraps below the stored
size.
-/
theorem right_iff_fits (ops : List BufferOp) (hrun : run step new ops = some s) :
    Always step Right new ops ↔ Meets step Fits new ops := by
  have hstep : ∀ s op s', True → Right s → step s op = some s' → (Right s' ↔ Fits s op) :=
    fun s op s' _ h hs => h.step_iff hs
  exact always_iff_meets Fits (fun _ _ _ _ _ => trivial) hstep ops trivial right_new hrun

theorem right_iff_fits_four :
    Always step Right new [.write (some [some 1, some 2]) 2, .read 1, .extend 4, .fill [some 3]] ↔
      Meets step Fits new [.write (some [some 1, some 2]) 2, .read 1, .extend 4, .fill [some 3]] :=
  right_iff_fits _ rfl

/-- Lengths that do not come near the end of a `uint32_t` are fine. -/
theorem fits_of_small (h : s.stored.length < 2 ^ 31)
    (hop : ∀ len, op = .extend len → len ≤ 2 ^ 30) : s.Fits op := by
  intro len heq
  have hlen := hop len heq
  have hsum : s.stored.length + len < wordSize := by
    rw [wordSize_eq]
    omega
  have hgrown : grown (s.stored.length + len) < wordSize := by
    rw [wordSize_eq, grown]
    omega
  rw [Nat.mod_eq_of_lt hsum, Nat.mod_eq_of_lt hgrown, grown]
  omega

/-- The stored size stays below `2 ^ 31`, whatever becomes of the buffer. -/
theorem stored_lt (h : s.stored.length < 2 ^ 31) (hstep : s.step op = some s') :
    s'.stored.length < 2 ^ 31 := by
  have hallowed := allowed_of_step hstep
  simp only [step] at hstep
  rw [if_pos hallowed] at hstep
  split at hstep
  · -- the call went through
    obtain rfl := Option.some.inj hstep
    show (op.queue _ s.stored).2.length < 2 ^ 31
    cases op with
    | write buf len =>
        cases buf with
        | none =>
            have hfit : s.stored.length + len < 2 ^ 31 := hallowed
            rw [BufferOp.queue, List.length_append, List.length_take]
            omega
        | some buf =>
            obtain ⟨-, hfit⟩ := hallowed
            rw [BufferOp.queue, List.length_append, List.length_take]
            omega
    | read len =>
        rw [BufferOp.queue, List.length_drop]
        omega
    | discard len =>
        rw [BufferOp.queue, List.length_drop]
        omega
    | extend len => exact h
    | fill cells =>
        obtain ⟨-, hfit⟩ := hallowed
        rw [BufferOp.queue, List.length_append]
        exact hfit
  · obtain rfl := Option.some.inj hstep
    exact h

/-- **The queue**, for programs that never ask `Extend` for more than `2 ^ 30` bytes. -/
theorem right_of_small (ops : List BufferOp)
    (hops : ∀ op ∈ ops, ∀ len, op = .extend len → len ≤ 2 ^ 30)
    (hrun : run step new ops = some s) : Always step Right new ops := by
  refine (right_iff_fits ops hrun).mpr ?_
  have hsmall : Meets step (fun _ op => ∀ len, op = .extend len → len ≤ 2 ^ 30) new ops :=
    meets_of_forall ops new hops
  have hkeep (s : Fifo) (op : BufferOp) (s' : Fifo) (h : s.stored.length < 2 ^ 31)
      (_ : ∀ len, op = .extend len → len ≤ 2 ^ 30) (hstep : s.step op = some s') :
      s'.stored.length < 2 ^ 31 := stored_lt h hstep
  exact Meets.mono Fits hkeep (fun _ _ h hop => fits_of_small h hop) ops (Nat.two_pow_pos 31) hsmall

theorem buffer_not_always_right : ¬ ∀ (ops : List BufferOp) (s : Fifo), run step new ops = some s →
    Always step Right new ops := by
  intro hall
  obtain ⟨b, hb, hholds, -⟩ := hall [.write (some [some 1]) 1, .extend 4294967295] _ rfl
    [.write (some [some 1]) 1, .extend 4294967295] _ (List.prefix_refl _) rfl
  -- one byte is stored, and nothing is allocated
  obtain rfl := Except.ok.inj hb
  exact absurd hholds.le_alloc (by decide)

end Fifo

end CppTrack.IM
