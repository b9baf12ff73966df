import CppTrack.Proto.ImPduRead

/-!
# What is written is read back

`SetPBMsg` empties the buffer, leaves room for the header, appends the body and then writes the
header that the PDU was made with; a setter overwrites two bytes of it. `wire` is the PDU that the
buffer holds all along. The reader, which takes the fields one after the other, finds in it what
was last put there.
-/

namespace CppTrack.IM

open Lib

/-- The fields of the header after the length, in their order. -/
def fieldsOf (h : PduHeader) : List Nat :=
  [h.version, h.flag, h.serviceId, h.commandId, h.seqNum, h.reversed]

/-- A PDU with these fields and this body. -/
def wire (fields : List Nat) (body : List UInt8) : List UInt8 :=
  toBigEndian 4 (imPduHeaderLen + body.length) ++ (fields.flatMap (toBigEndian 2) ++ body)

/-- A call of one of the setters. -/
inductive Setter
  | version (v : UInt16)
  | flag (v : UInt16)
  | serviceId (v : UInt16)
  | commandId (v : UInt16)
  | seqNum (v : UInt16)
  | reversed (v : UInt32)

def Setter.call (p : CImPdu) : Setter → Except Fault CImPdu
  | .version v => p.setVersion v
  | .flag v => p.setFlag v
  | .serviceId v => p.setServiceId v
  | .commandId v => p.setCommandId v
  | .seqNum v => p.setSeqNum v
  | .reversed v => p.setReversed v

/-- Which of the fields it sets. -/
def Setter.index : Setter → Nat
  | .version _ => 0
  | .flag _ => 1
  | .serviceId _ => 2
  | .commandId _ => 3
  | .seqNum _ => 4
  | .reversed _ => 5

/-- What it sets the field to. -/
def Setter.value : Setter → Nat
  | .version v => v.toNat
  | .flag v => v.toNat
  | .serviceId v => v.toNat
  | .commandId v => v.toNat
  | .seqNum v => v.toNat
  | .reversed v => v.toUInt16.toNat

/-- The header with the field that is set. -/
def Setter.update (h : PduHeader) : Setter → PduHeader
  | .version v => { h with version := v.toNat }
  | .flag v => { h with flag := v.toNat }
  | .serviceId v => { h with serviceId := v.toNat }
  | .commandId v => { h with commandId := v.toNat }
  | .seqNum v => { h with seqNum := v.toNat }
  | .reversed v => { h with reversed := v.toNat % 2 ^ 16 }

/-- The buffer of the PDU holds one with the fields of `h` and this body. -/
def Encodes (p : CImPdu) (h : PduHeader) (body : List UInt8) : Prop :=
  Holds p.buf ((wire (fieldsOf h) body).map some)

section

variable {p : CImPdu} {h : PduHeader} {body : List UInt8} {pre mid post : List Cell}
  {off data i : Nat}

/-! ## Writing -/

/-- Two bytes of memory with the low half of a number. -/
def cells16 (data : Nat) : List Cell := (toBigEndian 2 data).map some

theorem length_cells16 (data : Nat) : (cells16 data).length = 2 := by
  rw [cells16, List.length_map, length_toBigEndian]

theorem flatMap_cells16 (fields : List Nat) :
    (fields.flatMap (toBigEndian 2)).map some = fields.flatMap cells16 := by
  rw [List.map_flatMap]
  rfl

theorem writeUint16_eq (buf : List Cell) :
    writeUint16 buf off data = defined (copyTo buf off (cells16 data)) := by
  have hhigh : uchar (data >>> 8) = UInt8.ofNat (data / 256) := by
    rw [uchar, Nat.shiftRight_eq_div_pow]
  have hlow : uchar (data &&& 0xFF) = UInt8.ofNat data := by
    rw [uchar, show 0xFF = 2 ^ 8 - 1 from rfl, Nat.and_two_pow_sub_one_eq_mod]
    exact UInt8.toNat_inj.mp (Nat.mod_mod _ _)
  rw [writeUint16, hhigh, hlow]
  simp [cells16, toBigEndian]

theorem writeInt32_eq (buf : List Cell) :
    writeInt32 buf off data = defined (copyTo buf off ((toBigEndian 4 data).map some)) := by
  have hbyte : ∀ n, uchar (n &&& 0xFF) = UInt8.ofNat n := by
    intro n
    rw [uchar, show 0xFF = 2 ^ 8 - 1 from rfl, Nat.and_two_pow_sub_one_eq_mod]
    exact UInt8.toNat_inj.mp (Nat.mod_mod _ _)
  rw [writeInt32, hbyte, hbyte, hbyte]
  simp [toBigEndian, uchar, Nat.shiftRight_eq_div_pow]

theorem writeUint16_next (hoff : off = pre.length) (hmid : 2 ≤ mid.length) :
    writeUint16 (pre ++ (mid ++ post)) off data =
      .ok ((pre ++ cells16 data) ++ (mid.drop 2 ++ post)) := by
  have htake : (mid.take 2).length = 2 := List.length_take_of_le hmid
  have hsplit : mid ++ post = mid.take 2 ++ (mid.drop 2 ++ post) := by
    rw [← List.append_assoc, List.take_append_drop]
  rw [writeUint16_eq, hsplit, copyTo_middle hoff ((length_cells16 data).trans htake.symm),
    defined_some, List.append_assoc]

theorem writeInt32_next (hmid : 4 ≤ mid.length) :
    writeInt32 (mid ++ post) 0 data =
      .ok ((toBigEndian 4 data).map some ++ (mid.drop 4 ++ post)) := by
  have htake : (mid.take 4).length = 4 := List.length_take_of_le hmid
  have hlen : ((toBigEndian 4 data).map some).length = (mid.take 4).length := by
    rw [htake, List.length_map, length_toBigEndian]
  have hsplit : mid ++ post = [] ++ (mid.take 4 ++ (mid.drop 4 ++ post)) := by
    rw [List.nil_append, ← List.append_assoc, List.take_append_drop]
  have hoff : 0 = ([] : List Cell).length := rfl
  rw [writeInt32_eq, hsplit, copyTo_middle hoff hlen, defined_some, List.nil_append]

/-- The cells of the PDU that `wire` describes. -/
theorem cells_wire (fields : List Nat) (body : List UInt8) : (wire fields body).map some =
    (toBigEndian 4 (imPduHeaderLen + body.length)).map some ++
      (fields.flatMap cells16 ++ body.map some) := by
  rw [wire, List.map_append, List.map_append, flatMap_cells16]

theorem length_wire (h : PduHeader) (body : List UInt8) :
    (wire (fieldsOf h) body).length = imPduHeaderLen + body.length := by
  simp [wire, fieldsOf, imPduHeaderLen]
  omega

/-- `WriteHeader` fills the room before the body, whatever is there. -/
theorem writeHeader_encodes (hp : Holds p.buf (mid ++ body.map some))
    (hmid : mid.length = imPduHeaderLen) :
    ∃ p', p.writeHeader = .ok p' ∧ p'.header = p.header ∧ Encodes p' p.header body := by
  have hmid : mid.length = 16 := hmid
  have hlen : p.getLength = imPduHeaderLen + body.length := by
    show p.buf.writeOffset = _
    rw [hp.offset, List.length_append, List.length_map, hmid]
    rfl
  obtain ⟨rest, hrest⟩ := hp.contents
  have h4 : ∀ n, ((toBigEndian 4 n).map some : List Cell).length = 4 := by
    intro n
    rw [List.length_map, length_toBigEndian]
  have hbuf : p.buf.buffer = mid ++ (body.map some ++ rest) := by
    rw [← hrest, List.append_assoc]
  refine ⟨{ p with buf := { p.buf with
    buffer := (wire (fieldsOf p.header) body).map some ++ rest } }, ?_, rfl, ?_⟩
  · unfold CImPdu.writeHeader
    rw [hbuf, hlen, writeInt32_next (by omega), ok_bind]
    -- the six fields follow, each right after what has been written
    rw [writeUint16_next (by rw [h4]) (by rw [List.length_drop]; omega), ok_bind, List.drop_drop]
    rw [writeUint16_next (by simp only [List.length_append, h4, length_cells16])
      (by rw [List.length_drop]; omega), ok_bind, List.drop_drop]
    rw [writeUint16_next (by simp only [List.length_append, h4, length_cells16])
      (by rw [List.length_drop]; omega), ok_bind, List.drop_drop]
    rw [writeUint16_next (by simp only [List.length_append, h4, length_cells16])
      (by rw [List.length_drop]; omega), ok_bind, List.drop_drop]
    rw [writeUint16_next (by simp only [List.length_append, h4, length_cells16])
      (by rw [List.length_drop]; omega), ok_bind, List.drop_drop]
    rw [writeUint16_next (by simp only [List.length_append, h4, length_cells16])
      (by rw [List.length_drop]; omega), ok_bind, List.drop_drop]
    rw [List.drop_of_length_le (by omega), cells_wire]
    simp [fieldsOf, pure, Except.pure]
  · refine ⟨?_, hp.word, ?_, List.prefix_append _ _⟩
    · have halloc := hp.alloc
      rw [hbuf] at halloc
      simp only [List.length_append, List.length_map, length_wire, hmid, imPduHeaderLen]
        at halloc ⊢
      omega
    · show p.getLength = _
      rw [hlen, List.length_map, length_wire]

/-- `SetPBMsg`, on a PDU whose buffer holds anything. -/
theorem setPBMsg_encodes {cells : List Cell} (hp : Holds p.buf cells)
    (hsize : grown (imPduHeaderLen + body.length) < wordSize) :
    ∃ p', p.setPBMsg body = .ok p' ∧ p'.header = p.header ∧ Encodes p' p.header body := by
  obtain ⟨b₁, hread, h₁, -⟩ := hp.read (Nat.le_refl cells.length)
  rw [List.drop_length] at h₁
  obtain ⟨b₂, mid, hskip, hmid, h₂⟩ :=
    h₁.skip (show grown ([].length + imPduHeaderLen) < _ by decide)
  have hfit : grown (([] ++ mid).length + body.length) < wordSize := by
    rwa [List.nil_append, hmid]
  have hall : body.length ≤ (body.map some).length := Nat.le_of_eq (List.length_map _).symm
  obtain ⟨b₃, hwrite, h₃⟩ := h₂.write hall hfit
  rw [List.nil_append, List.take_of_length_le (Nat.le_of_eq (List.length_map _))] at h₃
  obtain ⟨p', hheader, hp', henc⟩ := writeHeader_encodes (p := { p with buf := b₃ }) h₃ hmid
  refine ⟨p', ?_, hp', henc⟩
  unfold CImPdu.setPBMsg
  rw [hp.offset, hread, ok_bind]
  dsimp only
  rw [hskip, ok_bind, hwrite, ok_bind]
  exact hheader

/-- A setter changes its own field and nothing else. -/
theorem setter_encodes (hp : Encodes p h body) (s : Setter) :
    ∃ p', s.call p = .ok p' ∧ Encodes p' (s.update h) body := by
  have hcall : s.call p = p.setField (4 + 2 * s.index) s.value := by cases s <;> rfl
  have hfields : fieldsOf (s.update h) = (fieldsOf h).set s.index s.value := by cases s <;> rfl
  have hindex : s.index < (fieldsOf h).length := by cases s <;> simp [Setter.index, fieldsOf]
  obtain ⟨rest, hrest⟩ := hp.contents
  have h4 : ((toBigEndian 4 (imPduHeaderLen + body.length)).map some : List Cell).length = 4 := by
    rw [List.length_map, length_toBigEndian]
  have hcopy : copyTo ((toBigEndian 4 (imPduHeaderLen + body.length)).map some ++
      ((fieldsOf h).flatMap cells16 ++ (body.map some ++ rest))) (4 + 2 * s.index)
      (cells16 s.value) = _ :=
    copyTo_flatMap length_cells16 (fieldsOf h) s.index s.value hindex
      (congrArg (· + 2 * s.index) h4.symm)
  rw [← List.append_assoc (fieldsOf h |>.flatMap cells16), ← List.append_assoc, ← cells_wire, hrest,
    ← hfields, ← List.append_assoc (fieldsOf _ |>.flatMap cells16), ← List.append_assoc,
    ← cells_wire] at hcopy
  refine ⟨{ p with buf := { p.buf with
    buffer := (wire (fieldsOf (s.update h)) body).map some ++ rest } }, ?_,
    (length_copyTo hcopy).trans hp.alloc, hp.word, ?_, List.prefix_append _ _⟩
  · rw [hcall, CImPdu.setField, writeUint16_eq]
    show (defined (copyTo p.buf.buffer (4 + 2 * s.index) _) >>= _) = _
    rw [hcopy]
    rfl
  · show p.buf.writeOffset = _
    rw [hp.offset, List.length_map, List.length_map, length_wire, length_wire]

theorem setters_encode (hp : Encodes p h body) (sets : List Setter) :
    ∃ p', sets.foldlM Setter.call p = .ok p' ∧ Encodes p' (sets.foldl Setter.update h) body := by
  induction sets generalizing p h with
  | nil => exact ⟨p, rfl, hp⟩
  | cons s sets ih =>
      obtain ⟨p₁, hcall, hp₁⟩ := setter_encodes hp s
      obtain ⟨p', hrun, hp'⟩ := ih hp₁
      refine ⟨p', ?_, hp'⟩
      rw [List.foldlM_cons, hcall]
      exact hrun

/-- `SetPBMsg` may have been called on the PDU before, any number of times. -/
theorem setPBMsgs_header {msgs : List (List UInt8)}
    (hmsgs : ∀ msg ∈ msgs, imPduHeaderLen + msg.length < 2 ^ 31)
    (hp : ∃ cells, Holds p.buf cells) :
    ∃ p', msgs.foldlM CImPdu.setPBMsg p = .ok p' ∧ p'.header = p.header ∧
      ∃ cells, Holds p'.buf cells := by
  induction msgs generalizing p with
  | nil => exact ⟨p, rfl, rfl, hp⟩
  | cons msg msgs ih =>
      obtain ⟨cells, hp⟩ := hp
      obtain ⟨p₁, hset, hheader, hp₁⟩ :=
        setPBMsg_encodes hp (grown_lt (hmsgs msg List.mem_cons_self))
      obtain ⟨p', hrun, hheader', hp'⟩ :=
        ih (fun m hm => hmsgs m (List.mem_cons_of_mem _ hm)) ⟨_, hp₁⟩
      refine ⟨p', ?_, hheader'.trans hheader, hp'⟩
      rw [List.foldlM_cons, hset]
      exact hrun

/-! ## Reading it back -/

/-- The fields of a header are 16 bits wide. -/
def Narrow (h : PduHeader) : Prop := ∀ v ∈ fieldsOf h, v < 2 ^ 16

theorem narrow_new : Narrow CImPdu.new.header := by
  show ∀ v ∈ fieldsOf CImPdu.new.header, v < 2 ^ 16
  decide

theorem narrow_update (hh : Narrow h) (s : Setter) : Narrow (s.update h) := by
  have hfields : fieldsOf (s.update h) = (fieldsOf h).set s.index s.value := by cases s <;> rfl
  have hvalue : s.value < 2 ^ 16 := by cases s <;> exact UInt16.toNat_lt _
  intro v hv
  rw [hfields] at hv
  rcases List.mem_or_eq_of_mem_set hv with hv | rfl
  · exact hh v hv
  · exact hvalue

theorem narrow_updates (hh : Narrow h) (sets : List Setter) :
    Narrow (sets.foldl Setter.update h) := by
  induction sets generalizing h with
  | nil => exact hh
  | cons s sets ih => exact ih (narrow_update hh s)

theorem field_length (hsize : imPduHeaderLen + body.length < 2 ^ 31) (fields : List Nat) :
    field (wire fields body) 0 4 = imPduHeaderLen + body.length := by
  rw [field, wire, List.drop_zero, List.take_left' (length_toBigEndian _ _), bigEndian_toBigEndian,
    Nat.mod_eq_of_lt (Nat.lt_trans hsize (by decide))]

theorem field_wire (hh : Narrow h) {v : Nat} (hv : (fieldsOf h)[i]? = some v)
    (hoff : off = 4 + 2 * i) : field (wire (fieldsOf h) body) off 2 = v := by
  have hpre : off = (toBigEndian 4 (imPduHeaderLen + body.length)).length + 2 * i := by
    rw [length_toBigEndian, hoff]
  rw [field, wire, take_drop_flatMap (length_toBigEndian 2) _ i v hv hpre, bigEndian_toBigEndian,
    Nat.mod_eq_of_lt (Nat.lt_of_lt_of_eq (hh v (List.mem_of_getElem? hv)) (by decide))]

theorem headerOf_wire (hh : Narrow h) (hsize : imPduHeaderLen + body.length < 2 ^ 31) :
    headerOf (wire (fieldsOf h) body) =
      { h with length := some (imPduHeaderLen + body.length) } := by
  rw [headerOf, field_length hsize, field_wire (i := 0) hh rfl rfl, field_wire (i := 1) hh rfl rfl,
    field_wire (i := 2) hh rfl rfl, field_wire (i := 3) hh rfl rfl, field_wire (i := 4) hh rfl rfl,
    field_wire (i := 5) hh rfl rfl]

/--
**A PDU is read as it was written.** After any calls of `SetPBMsg` on a new PDU and then any calls
of the setters, `ReadPdu` finds in its buffer the last body, the last value set for each field, and
the defaults for the others.
-/
theorem readPdu_setPBMsg (msgs : List (List UInt8)) (msg : List UInt8) (sets : List Setter)
    (hmsgs : ∀ m ∈ msgs, imPduHeaderLen + m.length < 2 ^ 31)
    (hmsg : imPduHeaderLen + msg.length < 2 ^ 31) :
    ∃ p got, (do
        let p ← msgs.foldlM CImPdu.setPBMsg CImPdu.new
        let p ← p.setPBMsg msg
        sets.foldlM Setter.call p) = .ok p ∧
      CImPdu.readPdu p.buf.buffer p.getLength = .ok (some got) ∧
      got.header = { sets.foldl Setter.update CImPdu.new.header with
        length := some (imPduHeaderLen + msg.length) } ∧
      got.body = some (msg.map some) := by
  have hnew : ∃ cells, Holds CImPdu.new.buf cells := ⟨[], holds_new⟩
  obtain ⟨p₁, hprev, hheader₁, cells, h₁⟩ := setPBMsgs_header hmsgs hnew
  obtain ⟨p₂, hset, -, h₂⟩ := setPBMsg_encodes h₁ (grown_lt hmsg)
  rw [hheader₁] at h₂
  obtain ⟨p, hsets, hp⟩ := setters_encode h₂ sets
  have hnarrow := narrow_updates narrow_new sets
  generalize sets.foldl Setter.update CImPdu.new.header = header at hp hnarrow ⊢
  have hlen : frameLen (wire (fieldsOf header) msg) = some (imPduHeaderLen + msg.length) := by
    rw [frameLen, field_length hmsg, length_wire,
      if_pos ⟨Nat.le_add_right _ _, Nat.le_refl _⟩]
  have hpos : 0 < imPduHeaderLen + msg.length :=
    Nat.lt_of_lt_of_le (by decide) (Nat.le_add_right _ _)
  obtain ⟨got, hread, hheader, hgot⟩ := readPdu_frame hp hlen hpos (grown_lt hmsg)
  rw [← length_wire header msg, List.take_length] at hgot
  have hlong : imPduHeaderLen ≤ (wire (fieldsOf header) msg).length := by
    rw [length_wire]
    exact Nat.le_add_right _ _
  have hmade : MadeOf (wire (fieldsOf header) msg) got := ⟨hlong, hheader, hgot⟩
  refine ⟨p, got, ?_, hread, hheader.trans (headerOf_wire hnarrow hmsg), ?_⟩
  · rw [hprev, ok_bind, hset, ok_bind]
    exact hsets
  · rw [hmade.body, wire, ← List.append_assoc, List.drop_left']
    simp [fieldsOf, imPduHeaderLen]

/-- A message that replaces another, with two of the fields set, one of them twice. -/
theorem readPdu_setPBMsg_login : ∃ p got, (do
      let p ← [[1, 2, 3]].foldlM CImPdu.setPBMsg CImPdu.new
      let p ← p.setPBMsg [104, 105]
      [Setter.commandId 0x0103, .seqNum 1, .seqNum 2].foldlM Setter.call p) = .ok p ∧
    CImPdu.readPdu p.buf.buffer p.getLength = .ok (some got) ∧
    got.header = { [Setter.commandId 0x0103, .seqNum 1, .seqNum 2].foldl Setter.update
      CImPdu.new.header with length := some (imPduHeaderLen + 2) } ∧
    got.body = some ([104, 105].map some) :=
  readPdu_setPBMsg [[1, 2, 3]] [104, 105] [.commandId 0x0103, .seqNum 1, .seqNum 2] (by decide)
    (by decide)

end

end CppTrack.IM
