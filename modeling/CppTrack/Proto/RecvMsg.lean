import Mathlib.Data.List.Forall2
import CppTrack.Lib.Run
import CppTrack.Proto.ImPduRead

/-!
# The receiving loop of the IM server (`server.cc`)

`recv_msg` makes room for `READ_BUF_SIZE` bytes, receives some, and takes PDUs out of the buffer as
long as there are any. The handlers look at the PDU only; what they are called with is kept in
`pdus`.
-/

namespace CppTrack.IM

open Lib

def readBufSize : Nat := 2048

/-- `m_in_buf`, and the PDUs that `ReadPdu` has returned. -/
structure Connection where
  inBuf : CSimpleBuffer
  pdus : List CImPdu

def Connection.start : Connection := { inBuf := CSimpleBuffer.new, pdus := [] }

/-- The inner loop of `recv_msg`. -/
def readPdus : Nat → Connection → Except Fault Connection
  | 0, _ => throw .diverged
  | fuel + 1, c => do
      match ← CImPdu.readPdu c.inBuf.buffer c.inBuf.writeOffset with
      | none => pure c
      | some pdu =>
          let (_, inBuf) ← c.inBuf.read pdu.getLength
          readPdus fuel { inBuf := inBuf, pdus := c.pdus ++ [pdu] }

/-- A turn of the outer loop in which `recv` returns these bytes. Each turn of the inner loop takes
at least one byte out of the buffer. -/
def recvChunk (c : Connection) (chunk : List UInt8) : Except Fault Connection := do
  let freeBufLen := subU32 c.inBuf.allocSize c.inBuf.writeOffset
  let inBuf := if freeBufLen < readBufSize then c.inBuf.extend readBufSize else c.inBuf
  let buffer ← defined (copyTo inBuf.buffer inBuf.writeOffset (chunk.map some))
  let inBuf := { inBuf with buffer := buffer }.incWriteOffset chunk.length
  readPdus (inBuf.writeOffset + 1) { c with inBuf := inBuf }

def recvStep (c : Connection) (chunk : List UInt8) : Option Connection :=
  (recvChunk c chunk).toOption

/-! ## What the loop should do -/

/-- What `recv` can return. -/
def Receivable (chunk : List UInt8) : Prop := 1 ≤ chunk.length ∧ chunk.length ≤ readBufSize

instance (chunk : List UInt8) : Decidable (Receivable chunk) :=
  inferInstanceAs (Decidable (_ ∧ _))

/-- The body is what comes after the header, and lies in the PDU's own buffer. -/
def Sound (p : CImPdu) : Prop :=
  imPduHeaderLen ≤ p.getLength ∧ p.getBodyLength = p.getLength - imPduHeaderLen ∧
    imPduHeaderLen + p.getBodyLength ≤ p.buf.allocSize

instance (p : CImPdu) : Decidable (Sound p) := inferInstanceAs (Decidable (_ ∧ _ ∧ _))

/-- A PDU has a header, and the size of a buffer for it does not wrap. -/
def Fits (n : Nat) : Prop := imPduHeaderLen ≤ n ∧ grown n < wordSize

/-- The PDUs that are there all fit. -/
def Framed (bytes : List UInt8) : Prop := ∃ fs rest, Cuts frameLen Fits bytes fs rest

/-- The bytes that are in the buffer. -/
def Connection.pending (c : Connection) : List UInt8 :=
  (c.inBuf.buffer.take c.inBuf.writeOffset).filterMap id

/-- The buffer can be made as large as it has to be, and the PDUs that are then there fit. -/
def Safe (c : Connection) (chunk : List UInt8) : Prop :=
  (subU32 c.inBuf.allocSize c.inBuf.writeOffset < readBufSize →
    grown (c.inBuf.writeOffset + readBufSize) < wordSize) ∧ Framed (c.pending ++ chunk)

section

variable {c c' : Connection} {bytes chunk rest f : List UInt8} {fs : List (List UInt8)}
  {p : CImPdu} {fuel n : Nat}

theorem framing_fits : Framing frameLen Fits := framing_frameLen fun _ h => h.1

theorem MadeOf.sound (h : MadeOf f p) : Sound p := by
  have hlong := h.long
  have hle := h.holds.le_alloc
  rw [List.length_map] at hle
  refine ⟨h.length ▸ hlong, by rw [h.bodyLength, h.length], ?_⟩
  rw [h.bodyLength]
  omega

/-! ## The inner loop -/

/-- One turn of the inner loop. -/
theorem readPdus_frame (fuel : Nat) (h : Holds c.inBuf (bytes.map some))
    (hlen : frameLen bytes = some n)
    (hpos : 0 < n) (hfit : grown n < wordSize) :
    ∃ p inBuf, p.header = headerOf bytes ∧ Holds p.buf ((bytes.take n).map some) ∧
      Holds inBuf ((bytes.drop n).map some) ∧
      readPdus (fuel + 1) c = readPdus fuel { inBuf := inBuf, pdus := c.pdus ++ [p] } := by
  obtain ⟨-, hle, -⟩ := frameLen_spec hlen
  obtain ⟨p, hread, hheader, hp⟩ := readPdu_frame h hlen hpos hfit
  have hlength : p.getLength = n := by
    rw [CImPdu.getLength, hp.offset, List.length_map, List.length_take_of_le hle]
  obtain ⟨inBuf, hshift, hrest, -⟩ := h.read
    (show n ≤ (bytes.map some).length by rwa [List.length_map])
  rw [← List.map_drop] at hrest
  refine ⟨p, inBuf, hheader, hp, hrest, ?_⟩
  rw [readPdus, hread]
  show (c.inBuf.read p.getLength >>= _) = _
  rw [hlength, hshift]
  rfl

/-- **The inner loop takes out the PDUs that are there**, and comes to an end. -/
theorem readPdus_cuts (hcuts : Cuts frameLen Fits bytes fs rest)
    (h : Holds c.inBuf (bytes.map some)) (hfuel : bytes.length < fuel) :
    ∃ c' ps, readPdus fuel c = .ok c' ∧ Holds c'.inBuf (rest.map some) ∧
      c'.pdus = c.pdus ++ ps ∧ List.Forall₂ MadeOf fs ps := by
  induction hcuts generalizing c fuel with
  | wait hnone =>
      obtain ⟨fuel, rfl⟩ := Nat.exists_eq_succ_of_ne_zero (Nat.ne_of_gt (Nat.zero_lt_of_lt hfuel))
      refine ⟨c, [], ?_, h, (List.append_nil _).symm, .nil⟩
      rw [readPdus, readPdu_wait h hnone]
      rfl
  | frame hsome hok hcuts ih =>
      rename_i bytes rest n fs
      obtain ⟨fuel, rfl⟩ := Nat.exists_eq_succ_of_ne_zero (Nat.ne_of_gt (Nat.zero_lt_of_lt hfuel))
      have hpos : 0 < n := Nat.lt_of_lt_of_le (by decide) hok.1
      obtain ⟨p, inBuf, hheader, hp, hrest, hstep⟩ :=
        readPdus_frame fuel h hsome hpos hok.2
      have hfuel' : (bytes.drop n).length < fuel := by
        rw [List.length_drop]
        obtain ⟨-, hle, -⟩ := frameLen_spec hsome
        omega
      obtain ⟨c', ps, hrun, hholds, hpdus, hall⟩ :=
        ih (c := { inBuf := inBuf, pdus := c.pdus ++ [p] }) hrest hfuel'
      refine ⟨c', p :: ps, hstep.trans hrun, hholds, ?_, .cons ?_ hall⟩
      · rw [hpdus, List.append_assoc]
        rfl
      · obtain ⟨-, hle, -⟩ := frameLen_spec hsome
        refine ⟨?_, hheader.trans (headerOf_take hok.1).symm, hp⟩
        rw [List.length_take_of_le hle]
        exact hok.1

theorem readPdus_inv (hrun : readPdus (fuel + 1) c = .ok c') : c' = c ∨
    ∃ p inBuf, readPdus fuel { inBuf := inBuf, pdus := c.pdus ++ [p] } = .ok c' := by
  rw [readPdus] at hrun
  cases hread : CImPdu.readPdu c.inBuf.buffer c.inBuf.writeOffset with
  | error e =>
      rw [hread] at hrun
      exact absurd hrun nofun
  | ok r =>
      rw [hread] at hrun
      cases r with
      | none => exact .inl (Except.ok.inj hrun).symm
      | some p =>
          have hrun : (c.inBuf.read p.getLength >>= fun x =>
            readPdus fuel { inBuf := x.2, pdus := c.pdus ++ [p] }) = .ok c' := hrun
          cases hshift : c.inBuf.read p.getLength with
          | error e =>
              rw [hshift] at hrun
              exact absurd hrun nofun
          | ok x =>
              rw [hshift] at hrun
              exact .inr ⟨p, x.2, hrun⟩

theorem readPdus_keeps (hrun : readPdus fuel c = .ok c') : c.pdus <+: c'.pdus := by
  induction fuel generalizing c with
  | zero => exact absurd hrun nofun
  | succ fuel ih =>
      rcases readPdus_inv hrun with rfl | ⟨p, inBuf, hrun⟩
      · exact List.prefix_rfl
      · exact (List.prefix_append _ _).trans (ih hrun)

/-- Where the loop ends and all it took out was sound, the PDUs that were there fit. -/
theorem framed_of_readPdus (h : Holds c.inBuf (bytes.map some)) (hrun : readPdus fuel c = .ok c')
    (hsound : ∀ p ∈ c'.pdus, Sound p) : Framed bytes := by
  induction fuel generalizing c bytes with
  | zero => exact absurd hrun nofun
  | succ fuel ih =>
      cases hlen : frameLen bytes with
      | none => exact ⟨[], bytes, .wait hlen⟩
      | some n =>
          have hpos : 0 < n := by
            by_contra hzero
            obtain rfl : n = 0 := by omega
            rw [readPdus, readPdu_zero h hlen] at hrun
            exact absurd hrun nofun
          have hfit : grown n < wordSize := by
            by_contra hbig
            rw [readPdus, readPdu_large h hlen (Nat.not_lt.mp hbig)] at hrun
            exact absurd hrun nofun
          obtain ⟨p, inBuf, -, hp, hrest, hstep⟩ := readPdus_frame fuel h hlen hpos hfit
          rw [hstep] at hrun
          -- the PDU just taken out is one of those that are sound
          have hin : p ∈ c'.pdus :=
            (readPdus_keeps hrun).subset (List.mem_append_right _ (List.mem_singleton_self p))
          have hlong : imPduHeaderLen ≤ n := by
            have hheader := (hsound p hin).1
            obtain ⟨-, hle, -⟩ := frameLen_spec hlen
            rwa [CImPdu.getLength, hp.offset, List.length_map, List.length_take_of_le hle]
              at hheader
          obtain ⟨fs, rest, hcuts⟩ := ih hrest hrun
          exact ⟨_, rest, .frame hlen ⟨hlong, hfit⟩ hcuts⟩

/-! ## A turn of the outer loop -/

theorem Connection.pending_eq (h : Holds c.inBuf (bytes.map some)) : c.pending = bytes := by
  obtain ⟨rest, hrest⟩ := h.contents
  rw [Connection.pending, h.offset, ← hrest, List.take_left' rfl, List.filterMap_map]
  exact List.filterMap_some

theorem free_eq (h : Holds c.inBuf (bytes.map some)) :
    subU32 c.inBuf.allocSize c.inBuf.writeOffset = c.inBuf.allocSize - bytes.length := by
  have hle := h.le_alloc
  have hword := h.word
  rw [h.offset, List.length_map] at *
  simp only [subU32, wordSize_eq] at *
  omega

/-- With room for it a chunk is appended to what is there. -/
theorem recvChunk_room (h : Holds c.inBuf (bytes.map some)) (hchunk : chunk.length ≤ readBufSize)
    (hroom : subU32 c.inBuf.allocSize c.inBuf.writeOffset < readBufSize →
      grown (c.inBuf.writeOffset + readBufSize) < wordSize) :
    ∃ inBuf, Holds inBuf ((bytes ++ chunk).map some) ∧
      recvChunk c chunk = readPdus ((bytes ++ chunk).length + 1) { c with inBuf := inBuf } := by
  have hlarge : ∃ b, (if subU32 c.inBuf.allocSize c.inBuf.writeOffset < readBufSize then
      c.inBuf.extend readBufSize else c.inBuf) = b ∧ Holds b (bytes.map some) ∧
        (bytes.map some).length + readBufSize ≤ b.allocSize := by
    by_cases hfree : subU32 c.inBuf.allocSize c.inBuf.writeOffset < readBufSize
    · rw [if_pos hfree]
      have hfit := hroom hfree
      rw [h.offset] at hfit
      exact ⟨_, rfl, h.extend hfit⟩
    · rw [if_neg hfree]
      refine ⟨_, rfl, h, ?_⟩
      rw [free_eq h] at hfree
      have hle := h.le_alloc
      rw [List.length_map] at *
      omega
  obtain ⟨b, hb, hholds, hle⟩ := hlarge
  have hlen : (chunk.map some).length = chunk.length := List.length_map _
  obtain ⟨buffer, hcopy, h'⟩ :=
    hholds.copyTo (Nat.le_trans (Nat.add_le_add_left (hlen ▸ hchunk) _) hle)
  rw [← List.map_append, hlen] at h'
  refine ⟨_, h', ?_⟩
  unfold recvChunk
  dsimp only
  rw [hb, hcopy]
  have hoff : addU32 b.writeOffset chunk.length = (bytes ++ chunk).length :=
    h'.offset.trans (List.length_map _)
  rw [← hoff]
  rfl

/-- Without it the bytes are written past the end of the allocation. -/
theorem recvChunk_full (h : Holds c.inBuf (bytes.map some)) (hchunk : 1 ≤ chunk.length)
    (hfree : subU32 c.inBuf.allocSize c.inBuf.writeOffset < readBufSize)
    (hbig : wordSize ≤ grown (c.inBuf.writeOffset + readBufSize)) :
    recvChunk c chunk = .error .undefined := by
  have hle := h.le_alloc
  have hword := h.word
  have hsmall : (c.inBuf.extend readBufSize).buffer.length < c.inBuf.writeOffset + 1 := by
    show (resize none c.inBuf.buffer (c.inBuf.extend readBufSize).allocSize).length < _
    rw [length_resize, extend_allocSize]
    rw [h.offset] at *
    simp only [grown, wordSize_eq, readBufSize] at *
    rcases Nat.lt_or_ge ((bytes.map some).length + 2048) 4294967296 with hlt | hge
    · rw [Nat.mod_eq_of_lt hlt]
      omega
    · have hwrap : ((bytes.map some).length + 2048) % 4294967296 =
          (bytes.map some).length + 2048 - 4294967296 := by omega
      rw [hwrap, Nat.mod_eq_of_lt (by omega)]
      omega
  have hcopy : copyTo (c.inBuf.extend readBufSize).buffer c.inBuf.writeOffset (chunk.map some) =
      none := by
    rw [copyTo, if_neg]
    rw [List.length_map]
    omega
  unfold recvChunk
  dsimp only
  rw [if_pos hfree]
  show (defined (copyTo (c.inBuf.extend readBufSize).buffer c.inBuf.writeOffset _) >>= _) = _
  rw [hcopy]
  rfl

/-! ## Runs -/

/-- What holds between two turns. -/
def Steady (c : Connection) : Prop :=
  (∃ bytes : List UInt8, Holds c.inBuf (bytes.map some)) ∧ ∀ p ∈ c.pdus, Sound p

theorem steady_start : Steady Connection.start :=
  ⟨⟨[], holds_new⟩, fun _ hp => absurd hp List.not_mem_nil⟩

theorem recvStep_ok : recvStep c chunk = some c' ↔ recvChunk c chunk = .ok c' := by
  unfold recvStep
  cases recvChunk c chunk with
  | error e => exact iff_of_false nofun nofun
  | ok c₁ =>
      constructor
      · intro h
        exact congrArg Except.ok (Option.some.inj h)
      · intro h
        exact congrArg some (Except.ok.inj h)

theorem sound_of_madeOf {fs : List (List UInt8)} {ps : List CImPdu}
    (h : List.Forall₂ MadeOf fs ps) : ∀ p ∈ ps, Sound p := by
  induction h with
  | nil => exact fun _ hp => absurd hp List.not_mem_nil
  | cons hmade _ ih =>
      intro p hp
      rcases List.mem_cons.mp hp with rfl | hp
      · exact hmade.sound
      · exact ih p hp

theorem recvStep_safe (hc : Steady c) (hchunk : Receivable chunk) (hsafe : Safe c chunk) :
    ∃ c', recvStep c chunk = some c' ∧ Steady c' := by
  obtain ⟨⟨bytes, h⟩, hsound⟩ := hc
  obtain ⟨hroom, fs, rest, hcuts⟩ := hsafe
  rw [Connection.pending_eq h] at hcuts
  obtain ⟨inBuf, hholds, hstep⟩ := recvChunk_room h hchunk.2 hroom
  obtain ⟨c', ps, hrun, hholds', hpdus, hall⟩ :=
    readPdus_cuts (c := { c with inBuf := inBuf }) hcuts hholds (Nat.lt_succ_self _)
  refine ⟨c', recvStep_ok.mpr (hstep.trans hrun), ⟨rest, hholds'⟩, fun p hp => ?_⟩
  rw [hpdus] at hp
  rcases List.mem_append.mp hp with hp | hp
  · exact hsound p hp
  · exact sound_of_madeOf hall p hp

/-- A turn that ends had room for what it received. -/
theorem recvStep_inv (h : Holds c.inBuf (bytes.map some)) (hchunk : Receivable chunk)
    (hstep : recvStep c chunk = some c') :
    (subU32 c.inBuf.allocSize c.inBuf.writeOffset < readBufSize →
      grown (c.inBuf.writeOffset + readBufSize) < wordSize) ∧
    ∃ inBuf, Holds inBuf ((bytes ++ chunk).map some) ∧
      readPdus ((bytes ++ chunk).length + 1) { c with inBuf := inBuf } = .ok c' := by
  have hrun := recvStep_ok.mp hstep
  have hroom : subU32 c.inBuf.allocSize c.inBuf.writeOffset < readBufSize →
      grown (c.inBuf.writeOffset + readBufSize) < wordSize := by
    intro hfree
    by_contra hbig
    rw [recvChunk_full h hchunk.1 hfree (Nat.not_lt.mp hbig)] at hrun
    exact absurd hrun nofun
  obtain ⟨inBuf, hholds, heq⟩ := recvChunk_room h hchunk.2 hroom
  exact ⟨hroom, inBuf, hholds, heq.symm.trans hrun⟩

/-- A turn that ends, and leaves sound PDUs only, was safe. -/
theorem safe_of_recvStep (hc : Steady c) (hchunk : Receivable chunk)
    (hstep : recvStep c chunk = some c') (hsound : ∀ p ∈ c'.pdus, Sound p) : Safe c chunk := by
  obtain ⟨⟨bytes, h⟩, -⟩ := hc
  obtain ⟨hroom, inBuf, hholds, hrun⟩ := recvStep_inv h hchunk hstep
  refine ⟨hroom, ?_⟩
  rw [Connection.pending_eq h]
  exact framed_of_readPdus hholds hrun hsound

/-- The PDUs that have been returned stay in the record. -/
theorem recvStep_keeps (hstep : recvStep c chunk = some c') : c.pdus <+: c'.pdus := by
  have hrun := recvStep_ok.mp hstep
  unfold recvChunk at hrun
  dsimp only at hrun
  generalize (if subU32 c.inBuf.allocSize c.inBuf.writeOffset < readBufSize then
    c.inBuf.extend readBufSize else c.inBuf) = b at hrun
  cases hcopy : copyTo b.buffer b.writeOffset (chunk.map some) with
  | none =>
      rw [hcopy] at hrun
      exact absurd hrun nofun
  | some buffer =>
      rw [hcopy, defined_some, ok_bind] at hrun
      have hkeeps := readPdus_keeps hrun
      exact hkeeps

variable {chunks : List (List UInt8)}

theorem run_keeps_pdus (hrun : run recvStep c chunks = some c') : c.pdus <+: c'.pdus := by
  induction chunks generalizing c with
  | nil => exact Option.some.inj hrun ▸ List.prefix_rfl
  | cons chunk chunks ih =>
      obtain ⟨c₁, hstep, hrest⟩ := Option.bind_eq_some_iff.mp hrun
      exact (recvStep_keeps hstep).trans (ih hrest)

/-- A run that leaves sound PDUs only made safe turns only. -/
theorem safe_of_run (hc : Steady c) (hchunks : ∀ chunk ∈ chunks, Receivable chunk)
    (hrun : run recvStep c chunks = some c') (hsound : ∀ p ∈ c'.pdus, Sound p) :
    Meets recvStep Safe c chunks := by
  induction chunks generalizing c with
  | nil => trivial
  | cons chunk chunks ih =>
      obtain ⟨c₁, hstep, hrest⟩ := Option.bind_eq_some_iff.mp hrun
      have hchunk := hchunks chunk List.mem_cons_self
      have hsafe := safe_of_recvStep hc hchunk hstep fun p hp =>
        hsound p ((run_keeps_pdus hrest).subset hp)
      refine ⟨hsafe, fun c₂ h₂ => ?_⟩
      obtain ⟨c₃, h₃, hc₃⟩ := recvStep_safe hc hchunk hsafe
      obtain rfl := Option.some.inj (hstep.symm.trans h₂)
      obtain rfl := Option.some.inj (hstep.symm.trans h₃)
      exact ih hc₃ (fun d hd => hchunks d (List.mem_cons_of_mem _ hd)) hrest

/--
Whatever the bytes and the pieces they arrive in, `recv_msg` gets through them and all PDUs it is
given have their body in their own buffer, if and only if every turn is safe.
-/
theorem recvMsg_sound_iff (chunks : List (List UInt8))
    (hchunks : ∀ chunk ∈ chunks, Receivable chunk) :
    (∃ c, run recvStep .start chunks = some c ∧ ∀ p ∈ c.pdus, Sound p) ↔
      Meets recvStep Safe .start chunks := by
  constructor
  · intro h
    obtain ⟨c, hrun, hsound⟩ := h
    exact safe_of_run steady_start hchunks hrun hsound
  · intro hm
    have hboth := hm.and _ chunks (meets_of_forall chunks Connection.start hchunks)
    obtain ⟨c, hrun, -, hsound⟩ := run_meets _
      (fun c chunk hc hok => recvStep_safe hc hok.2 hok.1) chunks .start steady_start hboth
    exact ⟨c, hrun, hsound⟩

/-- A login request with a body of two bytes. -/
def loginReq : List UInt8 := [0, 0, 0, 18, 0, 1, 0, 0, 0, 7, 1, 3, 0, 0, 0, 0, 104, 105]

theorem recvMsg_sound_iff_loginReq :
    (∃ c, run recvStep .start [loginReq.take 3, loginReq.drop 3] = some c ∧
      ∀ p ∈ c.pdus, Sound p) ↔
      Meets recvStep Safe .start [loginReq.take 3, loginReq.drop 3] :=
  recvMsg_sound_iff [loginReq.take 3, loginReq.drop 3] (by decide)

/-- A PDU that says it is shorter than its header. -/
def shortPdu : List UInt8 := [0, 0, 0, 8, 0, 1, 0, 0, 0, 7, 1, 3, 0, 0, 0, 0]

theorem not_framed_shortPdu : ¬ Framed shortPdu := by
  intro hframed
  obtain ⟨fs, rest, hcuts⟩ := hframed
  have hlen : frameLen shortPdu = some 8 := by decide
  cases hcuts with
  | wait hnone => exact absurd (hlen.symm.trans hnone) nofun
  | frame hsome hok hrest =>
      obtain rfl := Option.some.inj (hlen.symm.trans hsome)
      exact absurd hok.1 (by decide)

theorem recvMsg_unsound : ¬ ∀ chunks : List (List UInt8), (∀ chunk ∈ chunks, Receivable chunk) →
    ∃ c, run recvStep .start chunks = some c ∧ ∀ p ∈ c.pdus, Sound p := by
  intro h
  have hchunks : ∀ chunk ∈ [shortPdu], Receivable chunk := by decide
  obtain ⟨c, hrun, hsound⟩ := h [shortPdu] hchunks
  obtain ⟨⟨-, hframed⟩, -⟩ := safe_of_run steady_start hchunks hrun hsound
  exact not_framed_shortPdu hframed

theorem map_madeOf {ps : List CImPdu} (h : List.Forall₂ MadeOf fs ps) :
    ps.map (fun p => (p.header, p.body)) =
      fs.map (fun f => (headerOf f, some ((f.drop imPduHeaderLen).map some))) := by
  induction h with
  | nil => rfl
  | cons hmade _ ih => rw [List.map_cons, List.map_cons, ih, hmade.header, hmade.body]

/-- A PDU as it should be sent. -/
def WellFormed (f : List UInt8) : Prop :=
  imPduHeaderLen ≤ f.length ∧ field f 0 4 = f.length

instance (f : List UInt8) : Decidable (WellFormed f) := inferInstanceAs (Decidable (_ ∧ _))

/-- The PDUs that the rest of the stream completes. -/
theorem recvMsg_cuts (h : Holds c.inBuf (bytes.map some)) (hwait : frameLen bytes = none)
    (hchunks : ∀ chunk ∈ chunks, Receivable chunk) (hsize : ∀ f ∈ fs, f.length < 2 ^ 31)
    (hcuts : Cuts frameLen Fits (bytes ++ chunks.flatten) fs []) :
    ∃ c' ps, run recvStep c chunks = some c' ∧ Holds c'.inBuf [] ∧ c'.pdus = c.pdus ++ ps ∧
      List.Forall₂ MadeOf fs ps := by
  induction chunks generalizing c bytes fs with
  | nil =>
      rw [List.flatten_nil, List.append_nil] at hcuts
      obtain ⟨rfl, rfl⟩ := hcuts.unique (.wait hwait)
      exact ⟨c, [], rfl, h, (List.append_nil _).symm, .nil⟩
  | cons chunk chunks ih =>
      have hroom : grown (c.inBuf.writeOffset + readBufSize) < wordSize := by
        have hlt : bytes.length < 2 ^ 31 := by
          rcases hcuts.rest_lt framing_fits hwait with hnil | ⟨f, hf, hlt⟩
          · rw [hnil]
            decide
          · exact Nat.lt_trans hlt (hsize f hf)
        rw [h.offset, List.length_map]
        simp only [grown, wordSize_eq, readBufSize]
        omega
      obtain ⟨inBuf, hholds, hstep⟩ :=
        recvChunk_room h (hchunks chunk List.mem_cons_self).2 fun _ => hroom
      rw [List.flatten_cons, ← List.append_assoc] at hcuts
      obtain ⟨gs, s, hs, hg, hh, rfl⟩ := hcuts.split framing_fits
      obtain ⟨c₁, ps, hrun₁, hholds₁, hpdus₁, hall₁⟩ :=
        readPdus_cuts (c := { c with inBuf := inBuf }) hg hholds (Nat.lt_succ_self _)
      obtain ⟨c', qs, hrun, hholds', hpdus, hall⟩ := ih hholds₁ hg.rest_size
        (fun d hd => hchunks d (List.mem_cons_of_mem _ hd))
        (fun f hf => hsize f (List.mem_append_right _ hf)) hh
      refine ⟨c', ps ++ qs, ?_, hholds', ?_, List.rel_append hall₁ hall⟩
      · rw [run, recvStep_ok.mpr (hstep.trans hrun₁)]
        exact hrun
      · rw [hpdus, hpdus₁, List.append_assoc]

/--
**PDUs are received as they were sent.** In whatever pieces the stream arrives, `recv_msg` takes
out just the PDUs that it is made of, in order, with their headers and bodies, and is left with an
empty buffer.
-/
theorem recvMsg_pdus (pdus chunks : List (List UInt8)) (hwf : ∀ f ∈ pdus, WellFormed f)
    (hsize : ∀ f ∈ pdus, f.length < 2 ^ 31) (hchunks : ∀ chunk ∈ chunks, Receivable chunk)
    (hstream : chunks.flatten = pdus.flatten) :
    ∃ c, run recvStep .start chunks = some c ∧
      c.pdus.map (fun p => (p.header, p.body)) =
        pdus.map (fun f => (headerOf f, some ((f.drop imPduHeaderLen).map some))) ∧
      c.inBuf.writeOffset = 0 := by
  have hnil : frameLen [] = none := by decide
  have hframe : ∀ f ∈ pdus, frameLen f = some f.length ∧ Fits f.length := by
    intro f hf
    obtain ⟨hlong, heq⟩ := hwf f hf
    have hlt := hsize f hf
    refine ⟨?_, hlong, ?_⟩
    · rw [frameLen, heq, if_pos ⟨hlong, Nat.le_refl _⟩]
    · simp only [grown, wordSize_eq]
      omega
  have hcuts := cuts_flatten framing_fits hnil pdus hframe
  rw [← hstream] at hcuts
  have hstart : Holds Connection.start.inBuf (([] : List UInt8).map some) := holds_new
  obtain ⟨c, ps, hrun, hholds, hpdus, hall⟩ :=
    recvMsg_cuts hstart hnil hchunks hsize hcuts
  refine ⟨c, hrun, ?_, hholds.offset⟩
  rw [hpdus]
  exact map_madeOf hall

/-- Two requests, in three pieces that are cut inside the length and inside the header. -/
def twoReqs : List (List UInt8) :=
  [loginReq.take 3, loginReq.drop 3 ++ loginReq.take 10, loginReq.drop 10]

theorem recvMsg_pdus_twoReqs : ∃ c, run recvStep .start twoReqs = some c ∧
    c.pdus.map (fun p => (p.header, p.body)) = [loginReq, loginReq].map
      (fun f => (headerOf f, some ((f.drop imPduHeaderLen).map some))) ∧
    c.inBuf.writeOffset = 0 :=
  recvMsg_pdus [loginReq, loginReq] twoReqs (by decide) (by decide) (by decide) (by decide)

end

end CppTrack.IM
