import CppTrack.Lib.Blocks
import CppTrack.Lib.Word

/-!
# The growing buffer of the IM server (`UtilPdu.cc`)

Bytes are appended at `m_write_offset` and taken out at the front, the rest being moved down. All
sizes are `uint32_t`, and so `Extend` may come out with less than there was. A copy outside the
allocation is undefined here, and so is the use of a byte that was never written; `realloc` does
not fail.
-/

namespace CppTrack.IM

open Lib

/-- A byte of memory, `none` if it was never written. -/
abbrev Cell : Type := Option UInt8

/-- `CPduException`. -/
structure CPduException where
  serviceId : Nat
  commandId : Nat
  errorCode : Nat
  errorMsg : String
  deriving DecidableEq

/-- Why a call does not return. -/
inductive Fault
  | undefined
  | thrown (e : CPduException)
  /-- A loop goes on for ever. -/
  | diverged
  deriving DecidableEq

def defined {α : Type} : Option α → Except Fault α
  | none => .error .undefined
  | some a => .ok a

@[simp] theorem defined_some {α : Type} (a : α) : defined (some a) = .ok a := rfl

@[simp] theorem ok_bind {α β : Type} (a : α) (f : α → Except Fault β) : (.ok a >>= f) = f a := rfl

structure CSimpleBuffer where
  buffer : List Cell
  allocSize : Nat
  writeOffset : Nat
  deriving DecidableEq

namespace CSimpleBuffer

/-- The constructor. -/
def new : CSimpleBuffer := { buffer := [], allocSize := 0, writeOffset := 0 }

/-- `Extend`. -/
def extend (b : CSimpleBuffer) (len : Nat) : CSimpleBuffer :=
  let allocSize := addU32 b.writeOffset len
  let allocSize := addU32 allocSize (allocSize >>> 2)
  { b with allocSize := allocSize, buffer := resize none b.buffer allocSize }

/-- The `memcpy` of `Write`. Without a source the bytes stay what they were. -/
def copyIn (b : CSimpleBuffer) (len : Nat) : Option (List Cell) → Except Fault (List Cell)
  | none => pure b.buffer
  | some buf => defined ((copyOut buf 0 len).bind (copyTo b.buffer b.writeOffset))

/-- `Write`. -/
def write (b : CSimpleBuffer) (buf : Option (List Cell)) (len : Nat) :
    Except Fault CSimpleBuffer := do
  let b := if addU32 b.writeOffset len > b.allocSize then b.extend len else b
  let buffer ← b.copyIn len buf
  pure { b with buffer := buffer, writeOffset := addU32 b.writeOffset len }

/-- `Read`, with what it copies to its caller. -/
def read (b : CSimpleBuffer) (len : Nat) : Except Fault (List Cell × CSimpleBuffer) :=
  if len = 0 then pure ([], b)
  else do
    let len := min len b.writeOffset
    let out ← defined (copyOut b.buffer 0 len)
    let writeOffset := subU32 b.writeOffset len
    let buffer ← defined ((copyOut b.buffer len writeOffset).bind (copyTo b.buffer 0))
    pure (out, { b with buffer := buffer, writeOffset := writeOffset })

/-- `IncWriteOffset`. -/
def incWriteOffset (b : CSimpleBuffer) (len : Nat) : CSimpleBuffer :=
  { b with writeOffset := addU32 b.writeOffset len }

end CSimpleBuffer

/-! ## What the buffer holds -/

/-- The buffer holds these bytes, and no size has wrapped. -/
structure Holds (b : CSimpleBuffer) (cells : List Cell) : Prop where
  alloc : b.buffer.length = b.allocSize
  word : b.allocSize < wordSize
  offset : b.writeOffset = cells.length
  contents : cells <+: b.buffer

/-- What `Extend` makes of a size, as long as it does not wrap. -/
def grown (n : Nat) : Nat := n + n / 4

theorem grown_lt {n : Nat} (h : n < 2 ^ 31) : grown n < wordSize := by
  simp only [grown, wordSize_eq]
  omega

section

variable {b : CSimpleBuffer} {cells src : List Cell} {len : Nat}

theorem holds_new : Holds CSimpleBuffer.new [] := ⟨rfl, by decide, rfl, List.prefix_rfl⟩

theorem Holds.le_alloc (h : Holds b cells) : cells.length ≤ b.allocSize :=
  h.alloc ▸ h.contents.length_le

theorem extend_allocSize (b : CSimpleBuffer) (len : Nat) :
    (b.extend len).allocSize = grown ((b.writeOffset + len) % wordSize) % wordSize := by
  show addU32 (addU32 b.writeOffset len) (addU32 b.writeOffset len >>> 2) = _
  rw [Nat.shiftRight_eq_div_pow]
  rfl

theorem Holds.extend (h : Holds b cells) (hfit : grown (cells.length + len) < wordSize) :
    Holds (b.extend len) cells ∧ cells.length + len ≤ (b.extend len).allocSize := by
  have hle : cells.length + len ≤ grown (cells.length + len) := Nat.le_add_right _ _
  have halloc : (b.extend len).allocSize = grown (cells.length + len) := by
    rw [extend_allocSize, h.offset, Nat.mod_eq_of_lt (Nat.lt_of_le_of_lt hle hfit),
      Nat.mod_eq_of_lt hfit]
  refine ⟨⟨length_resize _ _ _, halloc ▸ hfit, h.offset, ?_⟩, halloc ▸ hle⟩
  have htake : cells <+: b.buffer.take (b.extend len).allocSize := by
    refine List.prefix_take_iff.mpr ⟨h.contents, ?_⟩
    rw [halloc]
    omega
  exact htake.trans (List.prefix_append _ _)

/-- Bytes written at the end, where there is room for them. -/
theorem Holds.copyTo (h : Holds b cells) (hroom : cells.length + src.length ≤ b.allocSize) :
    ∃ buffer, copyTo b.buffer b.writeOffset src = some buffer ∧
      Holds { b with buffer := buffer, writeOffset := addU32 b.writeOffset src.length }
        (cells ++ src) := by
  obtain ⟨rest, hrest⟩ := h.contents
  have hlen : rest.length = b.allocSize - cells.length := by
    rw [← h.alloc, ← hrest, List.length_append, Nat.add_sub_cancel_left]
  have hword := h.word
  rw [← hrest, h.offset, ← List.take_append_drop src.length rest]
  refine ⟨_, copyTo_middle rfl (by rw [List.length_take]; omega), ?_, h.word, ?_, ?_⟩
  · rw [← h.alloc, ← hrest]
    simp only [List.length_append, List.length_drop]
    omega
  · show addU32 cells.length src.length = _
    rw [addU32, Nat.mod_eq_of_lt (by omega), List.length_append]
  · exact ⟨rest.drop src.length, List.append_assoc ..⟩

/-- The test at the start of `Write`. -/
theorem Holds.room (h : Holds b cells) (hfit : grown (cells.length + len) < wordSize) :
    ∃ b', (if addU32 b.writeOffset len > b.allocSize then b.extend len else b) = b' ∧
      Holds b' cells ∧ cells.length + len ≤ b'.allocSize := by
  have hle : cells.length + len ≤ grown (cells.length + len) := Nat.le_add_right _ _
  have hsum : addU32 b.writeOffset len = cells.length + len := by
    rw [h.offset, addU32, Nat.mod_eq_of_lt (Nat.lt_of_le_of_lt hle hfit)]
  by_cases hfull : addU32 b.writeOffset len > b.allocSize
  · rw [if_pos hfull]
    exact ⟨_, rfl, h.extend hfit⟩
  · rw [if_neg hfull]
    exact ⟨b, rfl, h, hsum ▸ Nat.not_lt.mp hfull⟩

/-- `Write` of bytes for which the buffer is large enough, or can be made so. -/
theorem Holds.write (h : Holds b cells) (hlen : len ≤ src.length)
    (hfit : grown (cells.length + len) < wordSize) :
    ∃ b', b.write (some src) len = .ok b' ∧ Holds b' (cells ++ src.take len) := by
  have hsrc : copyOut src 0 len = some (src.take len) := by
    rw [copyOut_of_start List.prefix_rfl (by omega), List.drop_zero]
  have htake : (src.take len).length = len := List.length_take_of_le hlen
  obtain ⟨b₁, hb₁, h₁, hle₁⟩ := h.room hfit
  obtain ⟨buffer, hcopy, h'⟩ := h₁.copyTo (htake.symm ▸ hle₁)
  rw [htake] at h'
  refine ⟨_, ?_, h'⟩
  unfold CSimpleBuffer.write CSimpleBuffer.copyIn
  rw [hb₁]
  dsimp only
  rw [hsrc, Option.bind_some, hcopy]
  rfl

/-- `Write` without a source. -/
theorem Holds.skip (h : Holds b cells) (hfit : grown (cells.length + len) < wordSize) :
    ∃ b' src, b.write none len = .ok b' ∧ src.length = len ∧ Holds b' (cells ++ src) := by
  obtain ⟨b₁, hb₁, h₁, hle₁⟩ := h.room hfit
  obtain ⟨rest, hrest⟩ := h₁.contents
  have hlen : (rest.take len).length = len := by
    have halloc := h₁.alloc
    rw [← hrest, List.length_append] at halloc
    rw [List.length_take]
    omega
  refine ⟨{ b₁ with writeOffset := addU32 b₁.writeOffset len }, rest.take len, ?_, hlen, h₁.alloc,
    h₁.word, ?_, rest.drop len, ?_⟩
  · unfold CSimpleBuffer.write
    rw [hb₁]
    rfl
  · have hword := h₁.word
    show addU32 b₁.writeOffset len = _
    rw [h₁.offset, addU32, Nat.mod_eq_of_lt (by omega), List.length_append, hlen]
  · rw [List.append_assoc, List.take_append_drop]
    exact hrest

/-- `Read` of bytes that are there. -/
theorem Holds.read (h : Holds b cells) (hle : len ≤ cells.length) :
    ∃ b', b.read len = .ok (cells.take len, b') ∧ Holds b' (cells.drop len) ∧
      b'.allocSize = b.allocSize := by
  by_cases hzero : len = 0
  · subst hzero
    exact ⟨b, rfl, h, rfl⟩
  · have hword := h.word
    have halloc := h.le_alloc
    have hmin : min len b.writeOffset = len := by
      rw [h.offset, Nat.min_eq_left hle]
    have hsub : subU32 b.writeOffset len = cells.length - len := by
      rw [h.offset, subU32]
      simp only [wordSize_eq] at *
      omega
    have hout : copyOut b.buffer 0 len = some (cells.take len) := by
      rw [copyOut_of_start h.contents (by omega), List.drop_zero]
    have hmove : copyOut b.buffer len (cells.length - len) = some (cells.drop len) := by
      rw [copyOut_of_start h.contents (by omega), ← List.length_drop, List.take_length]
    have hcopy : Lib.copyTo b.buffer 0 (cells.drop len) =
        some (cells.drop len ++ b.buffer.drop (cells.length - len)) := by
      rw [Lib.copyTo, if_pos (by rw [List.length_drop, h.alloc]; omega), List.length_drop,
        List.take_zero, Nat.zero_add, List.nil_append]
    refine ⟨{ b with
      buffer := cells.drop len ++ b.buffer.drop (cells.length - len)
      writeOffset := cells.length - len }, ?_, ⟨?_, h.word, ?_, List.prefix_append _ _⟩, rfl⟩
    · unfold CSimpleBuffer.read
      rw [if_neg hzero]
      dsimp only
      rw [hmin, hout, hsub, hmove, Option.bind_some, hcopy]
      rfl
    · simp only [List.length_append, List.length_drop, h.alloc]
      omega
    · exact (List.length_drop ..).symm

end

end CppTrack.IM
