import CppTrack.Net.RingBufProof

/-!
# Lines out of the ring buffer (`rb_readline`)

The scan goes on as long as there are unread bytes **or** its caller's limit is not passed. So it
looks at bytes that were read long ago, takes a line end there for one of the unread data, and
writes past the buffer it was given. `Careful` says from which states none of this happens, and
with the bytes in between it is all that a run has to meet.
-/

namespace CppTrack.RingBuf

open Lib

def newline : UInt8 := 10

/-- The largest `int`. -/
def intMax : Nat := 2 ^ 31 - 1

/-- The byte that is `i` after the one to read next, whether it is unread or not. -/
def RingBuffer.ahead (r : RingBuffer) (i : Nat) : UInt8 := r.buf (r.place (addU32 r.readPos i))

/-- The loop of `rb_readline`, with the bytes it writes into its caller's buffer, which has room
for `room`. `left` is how often the `int` it counts in can still be increased. -/
def readlineLoop (r : RingBuffer) (sz room : Nat) : (left i : Nat) → List UInt8 →
    Option (Nat × List UInt8 × RingBuffer)
  | left, i, out =>
      if i < rbLen r ∨ i ≤ sz then
        if i < room then
          match left with
          | 0 => none
          | left + 1 =>
              if r.ahead i = newline then
                some (i + 1, out ++ [r.ahead i], { r with readPos := addU32 r.readPos (i + 1) })
              else readlineLoop r sz room left (i + 1) (out ++ [r.ahead i])
        else none
      else some (0, out, r)

/-- `rb_readline`. -/
def rbReadline (r : RingBuffer) (sz room : Nat) : Option (Nat × List UInt8 × RingBuffer) :=
  if rbIsempty r then some (0, [], r) else readlineLoop r sz room intMax 0 []

/-! ## What the loop does -/

/-- The first `n` bytes from the one to read next on. -/
def RingBuffer.scan (r : RingBuffer) (n : Nat) : List UInt8 := (List.range n).map r.ahead

section

variable {r : RingBuffer} {sz room i k n : Nat}

theorem scan_succ (r : RingBuffer) (n : Nat) : r.scan (n + 1) = r.scan n ++ [r.ahead n] := by
  rw [RingBuffer.scan, List.range_succ, List.map_append]
  rfl

theorem Ok.ahead_eq (hr : Ok r) (i : Nat) : r.ahead i = r.buf ((r.readPos + i) % r.size) := by
  rw [RingBuffer.ahead, hr.place_eq, addU32, Nat.mod_mod_of_dvd _ hr.size_dvd]

theorem Ok.scan_eq (hr : Ok r) (hn : n ≤ rbLen r) : r.scan n = (contents r).take n := by
  rw [hr.take_contents hn]
  exact List.map_congr_left fun k _ => hr.ahead_eq k

/-- No line ends in the first `n` bytes. -/
def NoLine (r : RingBuffer) (n : Nat) : Prop := ∀ j < n, r.ahead j ≠ newline

/-- How far the loop looks. -/
def reach (r : RingBuffer) (sz : Nat) : Nat := max (rbLen r) (sz + 1)

theorem lt_reach : i < reach r sz ↔ i < rbLen r ∨ i ≤ sz := by
  unfold reach
  omega

/-- The loop finds the first line end that it comes to, looks at all there is to look at, or has to
stop on the way because the buffer or the `int` is at its end. -/
theorem readlineLoop_cases (r : RingBuffer) (sz room left i : Nat) (hint : i + left = intMax)
    (hroom : i ≤ room) (hreach : i ≤ reach r sz) (hline : NoLine r i) :
    (∃ k, NoLine r k ∧ r.ahead k = newline ∧ k < reach r sz ∧ k < intMax ∧
      readlineLoop r sz room left i (r.scan i) =
        some (k + 1, r.scan (k + 1), { r with readPos := addU32 r.readPos (k + 1) })) ∨
    (NoLine r (reach r sz) ∧ reach r sz ≤ room ∧ reach r sz ≤ intMax ∧
      readlineLoop r sz room left i (r.scan i) = some (0, r.scan (reach r sz), r)) ∨
    (∃ k, NoLine r k ∧ k < reach r sz ∧ (room ≤ k ∨ intMax ≤ k) ∧
      readlineLoop r sz room left i (r.scan i) = none) := by
  induction left generalizing i with
  | zero =>
      rw [readlineLoop]
      by_cases hmore : i < reach r sz
      · -- the next turn would write past the buffer or count too far
        refine .inr (.inr ⟨i, hline, hmore, .inr (by omega), ?_⟩)
        rw [if_pos (lt_reach.mp hmore)]
        split <;> rfl
      · obtain rfl : i = reach r sz := by omega
        exact .inr (.inl ⟨hline, hroom, by omega, if_neg fun h => hmore (lt_reach.mpr h)⟩)
  | succ left ih =>
      rw [readlineLoop]
      by_cases hmore : i < reach r sz
      · rw [if_pos (lt_reach.mp hmore)]
        by_cases hfull : i < room
        · rw [if_pos hfull]
          by_cases hend : r.ahead i = newline
          · refine .inl ⟨i, hline, hend, hmore, by omega, ?_⟩
            rw [if_pos hend, scan_succ]
          · rw [if_neg hend, ← scan_succ]
            refine ih (i + 1) (by omega) hfull hmore ?_
            intro j hj
            rcases Nat.lt_succ_iff_lt_or_eq.mp hj with hj | rfl
            · exact hline j hj
            · exact hend
        · exact .inr (.inr ⟨i, hline, hmore, .inl (Nat.not_lt.mp hfull), if_neg hfull⟩)
      · obtain rfl : i = reach r sz := by omega
        exact .inr (.inl ⟨hline, hroom, by omega, if_neg fun h => hmore (lt_reach.mpr h)⟩)

end

/-! ## What a caller is promised -/

/-- The call copies the oldest unread bytes up to the first line end and takes them out of the
ring, or it returns 0 and leaves the ring as it is; and the ring has not become too full. -/
def LineEffect (r : RingBuffer) (sz n : Nat) (out : List UInt8) (r' : RingBuffer) : Prop :=
  (0 < n → n ≤ min (rbLen r) sz ∧ out = (contents r).take n ∧ contents r = out ++ contents r' ∧
    ∃ line, out = line ++ [newline] ∧ newline ∉ line) ∧
  (n = 0 → r' = r) ∧ rbLen r' ≤ r'.size

/-- Nothing is unread; or a line ends in the unread bytes before the limit; or none ends anywhere
the loop looks, and the buffer has room for all of that. -/
def Careful (r : RingBuffer) (sz room : Nat) : Prop :=
  r.readPos = r.writePos ∨
  (∃ k, NoLine r k ∧ r.ahead k = newline ∧ k < min (rbLen r) sz ∧ k < intMax) ∨
  (NoLine r (reach r sz) ∧ reach r sz ≤ room ∧ reach r sz ≤ intMax)

section

variable {r r' : RingBuffer} {sz room : Nat}

/-- A line that lies in the unread bytes. -/
theorem Ok.line (hr : Ok r) {k : Nat} (hline : NoLine r k) (hend : r.ahead k = newline)
    (hk : k < min (rbLen r) sz) :
    LineEffect r sz (k + 1) (r.scan (k + 1)) (r.skip (k + 1)) ∧ Ok (r.skip (k + 1)) := by
  have hle : k + 1 ≤ rbLen r := by omega
  obtain ⟨hok, hlen, hsplit⟩ := hr.skip hle
  have htake := hr.scan_eq hle
  refine ⟨⟨fun _ => ⟨by omega, htake, ?_, r.scan k, ?_, ?_⟩, fun h => absurd h (by omega),
    hok.fits⟩, hok⟩
  · rw [htake, hr.take_contents hle]
    exact hsplit
  · rw [scan_succ, hend]
  · intro hmem
    obtain ⟨j, hj, hnl⟩ := List.mem_map.mp hmem
    exact hline j (List.mem_range.mp hj) hnl

theorem rbReadline_empty (hempty : r.readPos = r.writePos) :
    rbReadline r sz room = some (0, [], r) :=
  if_pos (by rw [rbIsempty, hempty]; exact beq_self_eq_true _)

theorem rbReadline_cases (sz room : Nat) (hmore : r.readPos ≠ r.writePos) :
    (∃ k, NoLine r k ∧ r.ahead k = newline ∧ k < reach r sz ∧ k < intMax ∧
      rbReadline r sz room = some (k + 1, r.scan (k + 1), r.skip (k + 1))) ∨
    (NoLine r (reach r sz) ∧ reach r sz ≤ room ∧ reach r sz ≤ intMax ∧
      rbReadline r sz room = some (0, r.scan (reach r sz), r)) ∨
    (∃ k, NoLine r k ∧ k < reach r sz ∧ (room ≤ k ∨ intMax ≤ k) ∧
      rbReadline r sz room = none) := by
  have hloop : rbReadline r sz room = readlineLoop r sz room intMax 0 [] :=
    if_neg (by rw [rbIsempty]; simpa using hmore)
  rw [hloop]
  exact readlineLoop_cases r sz room intMax 0 (Nat.zero_add _) (Nat.zero_le _) (Nat.zero_le _)
    fun j hj => absurd hj (Nat.not_lt_zero j)

/-- Used with care, `rb_readline` does what its caller is promised. -/
theorem Careful.effect (hr : Ok r) (hroom : sz ≤ room) (hc : Careful r sz room) :
    ∃ n out r', rbReadline r sz room = some (n, out, r') ∧ LineEffect r sz n out r' ∧ Ok r' := by
  have hsame : ∀ out, LineEffect r sz 0 out r :=
    fun out => ⟨fun h => absurd h (Nat.lt_irrefl 0), fun _ => rfl, hr.fits⟩
  by_cases hempty : r.readPos = r.writePos
  · exact ⟨0, [], r, rbReadline_empty hempty, hsame _, hr⟩
  · rcases hc with hnone | ⟨k, hline, hend, hk, hint⟩ | ⟨hline, hlong, hint⟩
    · exact absurd hnone hempty
    · have hle : k < reach r sz := lt_reach.mpr (by omega)
      rcases rbReadline_cases sz room hempty with
        ⟨k', hline', hend', -, -, hrun⟩ | ⟨hline', -⟩ | ⟨k', hline', -, hstop, -⟩
      · -- there is only one first line end
        obtain rfl : k' = k := by
          rcases Nat.lt_trichotomy k' k with hlt | heq | hlt
          · exact absurd hend' (hline k' hlt)
          · exact heq
          · exact absurd hend (hline' k hlt)
        obtain ⟨heff, hok⟩ := hr.line hline hend hk
        exact ⟨_, _, _, hrun, heff, hok⟩
      · exact absurd hend (hline' k hle)
      · have hge : k' ≤ k := Nat.le_of_not_lt fun hlt => hline' k hlt hend
        omega
    · rcases rbReadline_cases sz room hempty with
        ⟨k', -, hend', hk', -⟩ | ⟨-, -, -, hrun⟩ | ⟨k', -, hk', hstop, -⟩
      · exact absurd hend' (hline k' hk')
      · exact ⟨0, _, r, hrun, hsame _, hr⟩
      · omega

/-- **`rb_readline`** does what its caller is promised exactly where it is used with care. -/
theorem rbReadline_iff (hr : Ok r) (hroom : sz ≤ room) :
    (∃ n out r', rbReadline r sz room = some (n, out, r') ∧ LineEffect r sz n out r') ↔
      Careful r sz room := by
  constructor
  · rintro ⟨n, out, r', hrun, heff⟩
    by_cases hempty : r.readPos = r.writePos
    · exact .inl hempty
    · rcases rbReadline_cases sz room hempty with
        ⟨k, hline, hend, -, hint, hfound⟩ | ⟨hline, hlong, hint, -⟩ | ⟨-, -, -, -, hstop⟩
      · obtain ⟨rfl, -⟩ := Prod.mk.inj (Option.some.inj (hrun.symm.trans hfound))
        obtain ⟨hle, -⟩ := heff.1 (Nat.succ_pos k)
        exact .inr (.inl ⟨k, hline, hend, by omega, hint⟩)
      · exact .inr (.inr ⟨hline, hlong, hint⟩)
      · rw [hstop] at hrun
        cases hrun
  · intro hc
    obtain ⟨n, out, r', hrun, heff, -⟩ := hc.effect hr hroom
    exact ⟨n, out, r', hrun, heff⟩

end

/-! ## Histories -/

inductive LineOp
  | call (op : Op)
  /-- The limit, and how much room there is behind the pointer. -/
  | readline (sz room : Nat)

/-- The room is as much as the limit says, or more. -/
def LineOp.Fits : LineOp → Prop
  | .call op => op.Fits
  | .readline sz room => sz < wordSize ∧ sz ≤ room

def execLine (r : RingBuffer) : LineOp → Option (Nat × List UInt8 × RingBuffer)
  | .call op => exec r op
  | .readline sz room => rbReadline r sz room

def stepLine (r : RingBuffer) (op : LineOp) : Option RingBuffer :=
  (execLine r op).map fun x => x.2.2

/-- A call that does what its caller is promised. -/
def LineOp.Keeps (r : RingBuffer) : LineOp → Prop
  | .call op => ∃ n out r', exec r op = some (n, out, r') ∧ Effect r op n out r'
  | .readline sz room =>
      ∃ n out r', rbReadline r sz room = some (n, out, r') ∧ LineEffect r sz n out r'

/-- What is asked of a state before a call. -/
def LineOp.Careful (r : RingBuffer) : LineOp → Prop
  | .call _ => True
  | .readline sz room => RingBuf.Careful r sz room

theorem LineOp.keeps_iff {r : RingBuffer} (hr : Ok r) {op : LineOp} (hop : op.Fits) :
    op.Keeps r ↔ op.Careful r := by
  cases op with
  | call op =>
      obtain ⟨n, out, r', hrun, -, -, heff⟩ := call_effect hr op hop
      exact iff_of_true ⟨n, out, r', hrun, heff⟩ trivial
  | readline sz room => exact rbReadline_iff hr hop.2

theorem LineOp.Careful.step {r : RingBuffer} (hr : Ok r) {op : LineOp} (hop : op.Fits)
    (hc : op.Careful r) : ∃ r', stepLine r op = some r' ∧ Ok r' := by
  cases op with
  | call op =>
      obtain ⟨n, out, r', hrun, hr', -⟩ := call_effect hr op hop
      exact ⟨r', congrArg (Option.map _) hrun, hr'⟩
  | readline sz room =>
      obtain ⟨n, out, r', hrun, -, hr'⟩ := RingBuf.Careful.effect hr hop.2 hc
      exact ⟨r', congrArg (Option.map _) hrun, hr'⟩

/--
**When lines come out right.** A run of reads, writes and calls of `rb_readline` on a new ring goes
through, with every call of it as its caller is promised, if and only if `rb_readline` is always
used with care.
-/
theorem readline_keeps_iff (mem : Nat → UInt8) (sz : Nat) (hsz : sz ≤ 2 ^ 31) (ops : List LineOp)
    (hops : ∀ op ∈ ops, op.Fits) :
    ∃ r₀, rbInit mem sz = some r₀ ∧
      ((∃ r, run stepLine r₀ ops = some r ∧ rbLen r ≤ r.size) ∧
          Meets stepLine (fun r op => op.Keeps r) r₀ ops ↔
        Meets stepLine (fun r op => op.Careful r) r₀ ops) := by
  obtain ⟨r₀, hinit, hr₀, -⟩ := rbInit_ok mem hsz
  refine ⟨r₀, hinit, ?_⟩
  have hfits : Meets stepLine (fun _ op => op.Fits) r₀ ops := meets_of_forall ops r₀ hops
  have hok : ∀ r op r', Ok r → op.Careful r ∧ op.Fits → stepLine r op = some r' → Ok r' := by
    rintro r op r' hr ⟨hc, hop⟩ hrun
    obtain ⟨r'', hrun', hr''⟩ := hc.step hr hop
    exact Option.some.inj (hrun.symm.trans hrun') ▸ hr''
  constructor
  · rintro ⟨-, hkeeps⟩
    have hboth : Meets stepLine (fun r op => op.Keeps r ∧ op.Fits) r₀ ops :=
      Meets.and _ ops hkeeps hfits
    refine Meets.mono _ ?_ (fun r op hr h => (LineOp.keeps_iff hr h.2).mp h.1) ops hr₀ hboth
    rintro r op r' hr ⟨hk, hop⟩ hrun
    exact hok r op r' hr ⟨(LineOp.keeps_iff hr hop).mp hk, hop⟩ hrun
  · intro hcareful
    have hboth : Meets stepLine (fun r op => op.Careful r ∧ op.Fits) r₀ ops :=
      Meets.and _ ops hcareful hfits
    obtain ⟨r, hrun, hr⟩ := run_meets _ (fun r op hr h => h.1.step hr h.2) ops r₀ hr₀ hboth
    exact ⟨⟨r, hrun, hr.fits⟩, Meets.mono _ hok
      (fun r op hr h => (LineOp.keeps_iff hr h.2).mpr h.1) ops hr₀ hboth⟩

/-- Two lines and the start of a third, with a buffer that has room for the whole scan. -/
theorem readline_keeps_iff_two : ∃ r₀, rbInit (fun _ => 0) 4 = some r₀ ∧
    ((∃ r, run stepLine r₀ [.call (.write [97, 10, 98] 3), .readline 2 4, .readline 2 4] = some r ∧
        rbLen r ≤ r.size) ∧
        Meets stepLine (fun r op => op.Keeps r) r₀
          [.call (.write [97, 10, 98] 3), .readline 2 4, .readline 2 4] ↔
      Meets stepLine (fun r op => op.Careful r) r₀
        [.call (.write [97, 10, 98] 3), .readline 2 4, .readline 2 4]) := by
  refine readline_keeps_iff (fun _ => 0) 4 (by decide) _ ?_
  intro op hop
  simp only [List.mem_cons, List.not_mem_nil, or_false] at hop
  rcases hop with rfl | rfl | rfl
  · exact ⟨by decide, by decide⟩
  · exact ⟨by decide, by decide⟩
  · exact ⟨by decide, by decide⟩

/-- One byte is unread and no line; the scan goes round to the end of a line read before, and the
ring then holds nearly `2 ^ 32` bytes. -/
theorem readline_stale : ∃ r₀ r r' out, rbInit (fun _ => 0) 4 = some r₀ ∧
    run stepLine r₀ [.call (.write [10] 1), .call (.read 1), .call (.write [97] 1)] = some r ∧
    contents r = [97] ∧ rbReadline r 4 8 = some (4, out, r') ∧ ¬ LineEffect r 4 4 out r' ∧
    r'.size < rbLen r' := by
  obtain ⟨r₀, r, hinit, hrun, hcon, hend, hline, hread, hwrite, hsize, hlen⟩ :
      ∃ r₀ r, rbInit (fun _ => 0) 4 = some r₀ ∧
        run stepLine r₀ [.call (.write [10] 1), .call (.read 1), .call (.write [97] 1)] = some r ∧
        contents r = [97] ∧ r.ahead 3 = newline ∧ NoLine r 3 ∧ r.readPos = 1 ∧ r.writePos = 2 ∧
        r.size = 4 ∧ rbLen r = 1 :=
    ⟨_, _, rfl, rfl, by decide, by decide, by unfold NoLine; decide, rfl, rfl, rfl, by decide⟩
  have hmore : r.readPos ≠ r.writePos := by
    rw [hread, hwrite]
    decide
  have hreach : 3 < reach r 4 := lt_reach.mpr (.inr (by decide))
  have hskip : r.size < rbLen (r.skip 4) := by
    show r.size < subU32 r.writePos (addU32 r.readPos 4)
    rw [hread, hwrite, hsize]
    decide
  rcases rbReadline_cases 4 8 hmore with
    ⟨k, hline', hend', -, -, hfound⟩ | ⟨hline', -⟩ | ⟨k, hline', -, hstop, -⟩
  · obtain rfl : k = 3 := by
      rcases Nat.lt_trichotomy k 3 with hlt | heq | hlt
      · exact absurd hend' (hline k hlt)
      · exact heq
      · exact absurd hend (hline' 3 hlt)
    refine ⟨r₀, r, r.skip 4, r.scan 4, hinit, hrun, hcon, hfound, ?_, hskip⟩
    rintro ⟨h, -⟩
    have hle := (h (by decide)).1
    rw [hlen] at hle
    omega
  · exact absurd hend (hline' 3 hreach)
  · have hle : k ≤ 3 := Nat.le_of_not_lt fun hlt => hline' 3 hlt hend
    rw [intMax] at hstop
    omega

end CppTrack.RingBuf
