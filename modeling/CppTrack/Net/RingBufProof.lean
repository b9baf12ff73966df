import CppTrack.Net.RingBuf

/-!
# The ring buffer is a bounded queue of bytes

The two positions are only known modulo `2 ^ 32`. What makes that enough is that the
size divides `2 ^ 32` and that the wrapped difference of the positions is the true
number of unread bytes; both are kept by every call (`Ok`).
-/

namespace CppTrack.RingBuf

open Lib

/-- A ring buffer between two calls. -/
structure Ok (r : RingBuffer) : Prop where
  pow : ∃ k, 1 ≤ k ∧ k ≤ 31 ∧ r.size = 2 ^ k
  writePos : r.writePos < wordSize
  readPos : r.readPos < wordSize
  fits : rbLen r ≤ r.size

section

variable {r : RingBuffer} {buf : List UInt8} {sz : Nat}

theorem Ok.size_dvd (hr : Ok r) : r.size ∣ wordSize := by
  obtain ⟨k, -, hk, hsize⟩ := hr.pow
  rw [hsize]
  exact Nat.pow_dvd_pow 2 (by omega)

theorem Ok.size_pos (hr : Ok r) : 0 < r.size := by
  obtain ⟨k, -, -, hsize⟩ := hr.pow
  rw [hsize]
  exact Nat.two_pow_pos k

theorem Ok.size_lt (hr : Ok r) : r.size < wordSize := by
  obtain ⟨k, -, hk, hsize⟩ := hr.pow
  rw [hsize]
  exact Nat.pow_lt_pow_right (by omega) (by omega)

theorem Ok.place_eq (hr : Ok r) (pos : Nat) : r.place pos = pos % r.size := by
  have hpos := hr.size_pos
  have hlt := hr.size_lt
  obtain ⟨k, -, -, hsize⟩ := hr.pow
  have hmask : subU32 r.size 1 = r.size - 1 := by
    unfold subU32
    rw [wordSize_eq] at *
    omega
  rw [RingBuffer.place, hmask, hsize, Nat.and_two_pow_sub_one_eq_mod]

theorem Ok.remain_eq (hr : Ok r) : rbRemain r = r.size - rbLen r := by
  have h₁ := hr.writePos
  have h₂ := hr.readPos
  have h₃ := hr.fits
  have h₄ := hr.size_lt
  unfold rbRemain rbLen addU32 subU32 at *
  rw [wordSize_eq] at *
  omega

/-- Where the next byte is written. -/
theorem Ok.writePos_eq (hr : Ok r) : (r.readPos + rbLen r) % wordSize = r.writePos := by
  have h₁ := hr.writePos
  have h₂ := hr.readPos
  unfold rbLen subU32
  rw [wordSize_eq] at *
  omega

theorem Ok.write_place (hr : Ok r) : r.place r.writePos = (r.readPos + rbLen r) % r.size := by
  rw [hr.place_eq, ← hr.writePos_eq, Nat.mod_mod_of_dvd _ hr.size_dvd]

theorem subU32_of_le {a b : Nat} (hle : b ≤ a) (ha : a < wordSize) : subU32 a b = a - b := by
  unfold subU32
  rw [wordSize_eq] at *
  omega

/-- The two copies of a write are one write round the ring. -/
theorem blit_twice (b : Nat → UInt8) (size off sz : Nat) :
    blit (blit b off ((buf.drop 0).take (min sz (size - off)))) 0
      ((buf.drop (min sz (size - off))).take (sz - min sz (size - off))) =
      blitRound b size off (buf.take sz) := by
  unfold blitRound
  rw [List.drop_zero, List.take_take, Nat.min_comm (size - off) sz, List.drop_take]
  rcases Nat.le_total sz (size - off) with hle | hle
  · rw [Nat.min_eq_left hle, Nat.sub_self, Nat.sub_eq_zero_of_le hle, List.take_zero,
      List.take_zero]
  · rw [Nat.min_eq_right hle]

theorem copyIn_eq (r : RingBuffer) {off start n : Nat} (hoff : off + n ≤ r.size)
    (hbuf : start + n ≤ buf.length) :
    copyIn r off buf start n = some { r with buf := blit r.buf off ((buf.drop start).take n) } :=
  if_pos ⟨hoff, hbuf⟩

theorem copyOut_eq {off n : Nat} (hoff : off + n ≤ r.size) :
    copyOut r off n = some (slice r.buf off n) := if_pos hoff

/-- **`rb_write`**, when there is room. -/
theorem rbWrite_room (hr : Ok r) (hsz : sz ≤ buf.length) (hroom : sz ≤ r.size - rbLen r) :
    ∃ r', rbWrite r buf sz = some (sz, r') ∧ Ok r' ∧ r'.size = r.size ∧
      rbLen r' = rbLen r + sz ∧ contents r' = contents r ++ buf.take sz := by
  have hsize := hr.size_lt
  have hpos := hr.size_pos
  have hfits := hr.fits
  have hplace := hr.write_place
  have hlt : r.place r.writePos < r.size := by
    rw [hplace]
    exact Nat.mod_lt _ hpos
  have hlen : rbLen { r with
      buf := blitRound r.buf r.size (r.place r.writePos) (buf.take sz)
      writePos := addU32 r.writePos sz } = rbLen r + sz := by
    have h₁ := hr.writePos
    have h₂ := hr.readPos
    unfold rbLen addU32 subU32 at *
    rw [wordSize_eq] at *
    dsimp only
    omega
  refine ⟨{ r with
      buf := blitRound r.buf r.size (r.place r.writePos) (buf.take sz)
      writePos := addU32 r.writePos sz }, ?_, ⟨hr.pow, addU32_lt _ _, hr.readPos, ?_⟩, rfl,
    hlen, ?_⟩
  · unfold rbWrite
    rw [if_neg (by rw [hr.remain_eq]; omega)]
    simp only [subU32_of_le (Nat.le_of_lt hlt) hsize,
      subU32_of_le (Nat.min_le_left sz _) (show sz < wordSize by omega)]
    rw [copyIn_eq r (by omega) (by omega), Option.bind_eq_bind, Option.bind_some]
    generalize hi : min sz (r.size - r.place r.writePos) = i
    have hsecond := copyIn_eq
      { r with buf := blit r.buf (r.place r.writePos) ((buf.drop 0).take i) }
      (show 0 + (sz - i) ≤ r.size by omega) (show i + (sz - i) ≤ buf.length by omega)
    subst hi
    rw [blit_twice] at hsecond
    exact congrArg (Option.bind · _) hsecond
  · rw [hlen]
    show rbLen r + sz ≤ r.size
    omega
  · unfold contents
    rw [hlen]
    have hdata : (buf.take sz).length = sz := by rw [List.length_take, Nat.min_eq_left hsz]
    have hwin := window_blitRound r.buf r.readPos (buf.take sz) hpos
      (show rbLen r + (buf.take sz).length ≤ r.size by omega)
    rw [hdata, ← hplace] at hwin
    exact hwin

/-- **`rb_write`**, when there is not. -/
theorem rbWrite_full (hr : Ok r) (hfull : r.size - rbLen r < sz) :
    rbWrite r buf sz = some (0, r) := by
  unfold rbWrite
  rw [if_pos (by rw [hr.remain_eq]; exact hfull)]

/-- The oldest `m` bytes are left behind. -/
def RingBuffer.skip (r : RingBuffer) (m : Nat) : RingBuffer :=
  { r with readPos := addU32 r.readPos m }

theorem Ok.skip {m : Nat} (hr : Ok r) (hm : m ≤ rbLen r) :
    Ok (r.skip m) ∧ rbLen (r.skip m) = rbLen r - m ∧
      contents r = window r.buf r.size r.readPos m ++ contents (r.skip m) := by
  have hlen : rbLen (r.skip m) = rbLen r - m := by
    have h₁ := hr.writePos
    have h₂ := hr.readPos
    unfold RingBuffer.skip rbLen addU32 subU32 at *
    rw [wordSize_eq] at *
    dsimp only
    omega
  refine ⟨⟨hr.pow, hr.writePos, addU32_lt _ _, ?_⟩, hlen, ?_⟩
  · have := hr.fits
    rw [hlen]
    show rbLen r - m ≤ r.size
    omega
  · unfold contents
    rw [hlen]
    conv_lhs => rw [show rbLen r = m + (rbLen r - m) by omega, window_add]
    refine congrArg _ ?_
    unfold RingBuffer.skip
    rw [← window_mod r.buf r.size (addU32 r.readPos m), addU32, Nat.mod_mod_of_dvd _ hr.size_dvd,
      window_mod]

theorem Ok.take_contents {m : Nat} (hr : Ok r) (hm : m ≤ rbLen r) :
    (contents r).take m = window r.buf r.size r.readPos m := by
  rw [(hr.skip hm).2.2]
  exact List.take_left' window_length

/-- **`rb_read`** takes the oldest bytes. -/
theorem rbRead_spec (hr : Ok r) (sz : Nat) :
    ∃ r', rbRead r sz = some (min sz (rbLen r), (contents r).take (min sz (rbLen r)), r') ∧
      Ok r' ∧ r'.size = r.size ∧ rbLen r' = rbLen r - min sz (rbLen r) ∧
      contents r = (contents r).take (min sz (rbLen r)) ++ contents r' := by
  have hsize := hr.size_lt
  have hpos := hr.size_pos
  have hfits := hr.fits
  by_cases hempty : r.readPos = r.writePos
  · have hlen : rbLen r = 0 := by
      unfold rbLen subU32
      rw [hempty, wordSize_eq]
      omega
    refine ⟨r, ?_, hr, rfl, by omega, ?_⟩
    · unfold rbRead
      rw [if_pos (by rw [rbIsempty, hempty]; exact beq_self_eq_true _), hlen, Nat.min_zero,
        List.take_zero]
    · rw [hlen, Nat.min_zero, List.take_zero, List.nil_append]
  · generalize hm : min sz (rbLen r) = m
    have hle : m ≤ rbLen r := by omega
    have hplace := hr.place_eq r.readPos
    have hlt : r.place r.readPos < r.size := by
      rw [hplace]
      exact Nat.mod_lt _ hpos
    obtain ⟨hok, hlen, hsplit⟩ := hr.skip hle
    have htake := hr.take_contents hle
    refine ⟨r.skip m, ?_, hok, rfl, hlen, by rw [htake]; exact hsplit⟩
    unfold rbRead
    rw [if_neg (by rw [rbIsempty]; simpa using hempty)]
    simp only [show subU32 r.writePos r.readPos = rbLen r from rfl, hm,
      subU32_of_le (Nat.le_of_lt hlt) hsize,
      subU32_of_le (Nat.min_le_left m _) (show m < wordSize by omega)]
    rw [copyOut_eq (by omega), copyOut_eq (by omega)]
    simp only [Option.bind_eq_bind, Option.bind_some]
    rw [slice_append_slice hlt (by omega), htake, hplace, window_mod]
    rfl

end

/-! ## Histories -/

/-- A caller's buffer has the bytes it says it has, and sizes are words. -/
def Op.Fits : Op → Prop
  | .write buf sz => sz ≤ buf.length ∧ sz < wordSize
  | .read sz => sz < wordSize

instance : (op : Op) → Decidable op.Fits
  | .write buf sz => inferInstanceAs (Decidable (sz ≤ buf.length ∧ sz < wordSize))
  | .read sz => inferInstanceAs (Decidable (sz < wordSize))

/-- What a call does to the queue: `n` is what it returns, `out` what it hands over. -/
def Effect (r : RingBuffer) (op : Op) (n : Nat) (out : List UInt8) (r' : RingBuffer) : Prop :=
  match op with
  | .write buf sz =>
      if sz ≤ rbRemain r then n = sz ∧ contents r' = contents r ++ buf.take sz
      else n = 0 ∧ r' = r
  | .read sz =>
      n = min sz (rbLen r) ∧ out = (contents r).take n ∧ contents r = out ++ contents r'

/-- The room of a ring buffer adds up. -/
def Adds (r : RingBuffer) : Prop :=
  (contents r).length = rbLen r ∧ rbLen r + rbRemain r = r.size

theorem Ok.adds {r : RingBuffer} (hr : Ok r) : Adds r := by
  have := hr.fits
  exact ⟨window_length, by rw [hr.remain_eq]; omega⟩

theorem call_effect {r : RingBuffer} (hr : Ok r) (op : Op) (hop : op.Fits) :
    ∃ n out r', exec r op = some (n, out, r') ∧ Ok r' ∧ r'.size = r.size ∧
      Effect r op n out r' := by
  cases op with
  | write buf sz =>
      by_cases hroom : sz ≤ r.size - rbLen r
      · obtain ⟨r', hrun, hr', hsize, -, hcon⟩ := rbWrite_room hr hop.1 hroom
        refine ⟨sz, [], r', by rw [exec, hrun]; rfl, hr', hsize, ?_⟩
        rw [Effect, hr.remain_eq, if_pos hroom]
        exact ⟨rfl, hcon⟩
      · refine ⟨0, [], r, ?_, hr, rfl, ?_⟩
        · rw [exec, rbWrite_full hr (by omega)]
          rfl
        · rw [Effect, hr.remain_eq, if_neg hroom]
          exact ⟨rfl, rfl⟩
  | read sz =>
      obtain ⟨r', hrun, hr', hsize, -, hcon⟩ := rbRead_spec hr sz
      exact ⟨_, _, r', hrun, hr', hsize, rfl, rfl, hcon⟩

theorem shiftOut_spec (fuel : Nat) {num i k : Nat} (hk : num < 2 ^ k) (hfuel : k ≤ fuel) :
    ∃ j, shiftOut fuel num i = some j ∧ i ≤ j ∧ j ≤ i + k ∧ (num ≠ 0 → i < j) := by
  induction fuel generalizing num i k with
  | zero =>
      obtain rfl : k = 0 := by omega
      obtain rfl : num = 0 := by simpa using hk
      exact ⟨i, by rw [shiftOut, if_pos rfl], Nat.le_refl _, by omega, fun h => absurd rfl h⟩
  | succ fuel ih =>
      rw [shiftOut]
      by_cases h₀ : num = 0
      · rw [if_pos h₀]
        exact ⟨i, rfl, Nat.le_refl _, by omega, fun h => absurd h₀ h⟩
      · rw [if_neg h₀]
        have hpos : 0 < k := by
          refine Nat.pos_of_ne_zero fun hk₀ => h₀ ?_
          rw [hk₀] at hk
          simpa using hk
        have hshift : num >>> 1 < 2 ^ (k - 1) := by
          rw [Nat.shiftRight_eq_div_pow]
          have : 2 ^ k = 2 * 2 ^ (k - 1) := by
            rw [← Nat.pow_succ']
            congr 1
            omega
          omega
        obtain ⟨j, hj, h₁, h₂, -⟩ := ih (i := i + 1) hshift (by omega)
        exact ⟨j, hj, by omega, by omega, fun _ => by omega⟩

/-- Whatever size is asked for, the size used is a power of two that fits in a word. -/
theorem rbInit_ok (mem : Nat → UInt8) {sz : Nat} (hsz : sz ≤ 2 ^ 31) :
    ∃ r, rbInit mem sz = some r ∧ Ok r ∧ contents r = [] := by
  have hok : ∀ k, 1 ≤ k → k ≤ 31 →
      Ok { buf := mem, size := 2 ^ k, writePos := 0, readPos := 0 } ∧
      contents { buf := mem, size := 2 ^ k, writePos := 0, readPos := 0 } = [] := by
    intro k h₁ h₂
    have hlen : rbLen { buf := mem, size := 2 ^ k, writePos := 0, readPos := 0 } = 0 := by
      unfold rbLen subU32
      rw [Nat.zero_add, Nat.sub_zero, Nat.mod_self]
    refine ⟨⟨⟨k, h₁, h₂, rfl⟩, by simp, by simp, ?_⟩, ?_⟩
    · rw [hlen]
      exact Nat.zero_le _
    · rw [contents, hlen, window_zero]
  unfold rbInit
  by_cases hp : isPowerOfTwo sz = true
  · rw [if_pos hp]
    have hge : ¬ sz < 2 :=
      fun hlt => by rw [isPowerOfTwo, if_pos hlt] at hp; exact absurd hp (by simp)
    obtain ⟨k, rfl⟩ : sz.isPowerOfTwo := by
      rw [isPowerOfTwo, if_neg hge] at hp
      exact (Nat.and_sub_one_eq_zero_iff_isPowerOfTwo (by omega)).mp (by simpa using hp)
    refine ⟨_, rfl, hok k ?_ ?_⟩
    · refine Nat.pos_of_ne_zero fun hk => hge ?_
      rw [hk]
      decide
    · exact (Nat.pow_le_pow_iff_right (by omega)).mp hsz
  · rw [if_neg hp, roundupPowerOfTwo]
    by_cases h₀ : sz = 0
    · rw [if_pos h₀]
      exact ⟨_, rfl, hok 1 (by omega) (by omega)⟩
    · have hlt : sz < 2 ^ 31 := by
        refine lt_of_le_of_ne hsz fun heq => hp ?_
        rw [heq]
        decide +kernel
      obtain ⟨j, hj, -, hle, hpos⟩ := shiftOut_spec 32 (i := 0) hlt (by omega)
      have hpos := hpos h₀
      rw [if_neg h₀, hj]
      simp only [Option.bind_eq_bind, Option.bind_some]
      rw [if_pos (by omega)]
      exact ⟨_, rfl, hok j (by omega) (by omega)⟩

/--
**A bounded queue of bytes.** From any size that `rb_init` takes and through any calls,
the unread bytes are a queue: a write appends all it is given or nothing, a read takes
the oldest, and what is used and what is free add up to the size.
-/
theorem ring_fifo (mem : Nat → UInt8) (sz : Nat) (hsz : sz ≤ 2 ^ 31) (ops : List Op)
    (hops : ∀ op ∈ ops, op.Fits) :
    ∃ r₀ r, rbInit mem sz = some r₀ ∧ contents r₀ = [] ∧ run step r₀ ops = some r ∧ Adds r ∧
      ∀ op, op.Fits → ∃ n out r', exec r op = some (n, out, r') ∧ Effect r op n out r' ∧
        Adds r' ∧ r'.size = r.size := by
  obtain ⟨r₀, h₀, hr₀, hnil⟩ := rbInit_ok mem hsz
  have hstep : ∀ r op, Ok r → op.Fits → ∃ r', step r op = some r' ∧ Ok r' := by
    intro r op hr hop
    obtain ⟨n, out, r', hrun, hr', -, -⟩ := call_effect hr op hop
    exact ⟨r', by rw [step, hrun]; rfl, hr'⟩
  obtain ⟨r, hrun, hr⟩ := run_meets (fun _ op => op.Fits) hstep ops r₀ hr₀
    (meets_of_forall ops r₀ hops)
  refine ⟨r₀, r, h₀, hnil, hrun, hr.adds, fun op hop => ?_⟩
  obtain ⟨n, out, r', hexec, hr', hsize, heff⟩ := call_effect hr op hop
  exact ⟨n, out, r', hexec, heff, hr'.adds, hsize⟩

/-- A ring of four bytes, written round its end. -/
theorem ring_fifo_four : 3 ≤ 2 ^ 31 ∧
    ∃ r₀ r, rbInit (fun _ => 0) 3 = some r₀ ∧ contents r₀ = [] ∧
      run step r₀ [.write [1, 2, 3] 3, .read 2, .write [4, 5, 6] 3, .write [7] 1] = some r ∧
      Adds r ∧ ∀ op, op.Fits → ∃ n out r', exec r op = some (n, out, r') ∧
        Effect r op n out r' ∧ Adds r' ∧ r'.size = r.size :=
  ⟨by decide, ring_fifo (fun _ => 0) 3 (by decide) _ (by decide)⟩

end CppTrack.RingBuf
