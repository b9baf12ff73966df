import CppTrack.Proto.ImPduCodec

/-!
# The two copies of a header

A PDU has its header twice: in `m_pdu_header`, which the getters read, and in the first bytes of
its buffer, which the setters write. `SetPBMsg` writes the second from the first, and nothing after
the PDU has been made writes the first. So the two agree for as long as no setter sets a field to
anything but what `m_pdu_header` has in it.
-/

namespace CppTrack.IM

open Lib

namespace CImPdu

/-- `GetVersion`. -/
def getVersion (p : CImPdu) : Nat := p.header.version

/-- `GetFlag`. -/
def getFlag (p : CImPdu) : Nat := p.header.flag

/-- `GetServiceId`. -/
def getServiceId (p : CImPdu) : Nat := p.header.serviceId

/-- `GetCommandId`. -/
def getCommandId (p : CImPdu) : Nat := p.header.commandId

/-- `GetSeqNum`. -/
def getSeqNum (p : CImPdu) : Nat := p.header.seqNum

/-- `GetReversed`. -/
def getReversed (p : CImPdu) : Nat := p.header.reversed

/-- What the getters return, in the order of the fields. -/
def getters (p : CImPdu) : List Nat :=
  [p.getVersion, p.getFlag, p.getServiceId, p.getCommandId, p.getSeqNum, p.getReversed]

/-- `SetError`. It writes where the sequence number is. -/
def setError (p : CImPdu) (error : UInt16) : Except Fault CImPdu := p.setField 12 error.toNat

end CImPdu

/-- What a setter is given for its field; it may write less of it. -/
def Setter.given : Setter → Nat
  | .version v => v.toNat
  | .flag v => v.toNat
  | .serviceId v => v.toNat
  | .commandId v => v.toNat
  | .seqNum v => v.toNat
  | .reversed v => v.toNat

/-- A call on a PDU. -/
inductive HeaderCall
  | setPBMsg (msg : List UInt8)
  | set (s : Setter)
  | setError (error : UInt16)

namespace HeaderCall

def call (p : CImPdu) : HeaderCall → Except Fault CImPdu
  | .setPBMsg msg => p.setPBMsg msg
  | .set s => s.call p
  | .setError error => p.setError error

/-- The last values set for the fields. There is no field for an error. -/
def last (fields : List Nat) : HeaderCall → List Nat
  | .setPBMsg _ => fields
  | .set s => fields.set s.index s.given
  | .setError _ => fields

/-- The call writes into the buffer only what the header `h` has there. -/
def Agrees (h : PduHeader) : HeaderCall → Prop
  | .setPBMsg _ => True
  | .set s => (fieldsOf h)[s.index]? = some s.given
  | .setError error => h.seqNum = error.toNat

end HeaderCall

/-- The getters return these values, and the buffer has them in it. -/
def Coherent (fields : List Nat) (p : CImPdu) : Prop :=
  p.getters = fields ∧
    ∀ i v, fields[i]? = some v → readUint16 p.buf.buffer (4 + 2 * i) = .ok v

/-- The two ways to come by a PDU with a body: a new one gets a message, or one is read from the
bytes that a buffer holds. `ByteSize` returns an `int`. -/
inductive WithBody : CImPdu → Prop
  | set {p : CImPdu} (msg : List UInt8) (hmsg : msg.length < 2 ^ 31)
      (hset : CImPdu.new.setPBMsg msg = .ok p) : WithBody p
  | read {p : CImPdu} {b : CSimpleBuffer} {bytes : List UInt8} (hb : Holds b (bytes.map some))
      (hread : CImPdu.readPdu b.buffer b.writeOffset = .ok (some p))
      (hlen : imPduHeaderLen ≤ p.getLength) : WithBody p

/-! ## One call -/

/-- A PDU with room for a header, and `m_pdu_header` is `h`. -/
structure Headed (h : PduHeader) (p : CImPdu) : Prop where
  header : p.header = h
  narrow : Narrow h
  holds : ∃ cells, Holds p.buf cells ∧ imPduHeaderLen ≤ cells.length

/-- The header in the buffer is `h`. -/
def Shows (h : PduHeader) (p : CImPdu) : Prop :=
  ∀ i v, (fieldsOf h)[i]? = some v → readUint16 p.buf.buffer (4 + 2 * i) = .ok v

section

variable {h : PduHeader} {p p' : CImPdu} {i data v : Nat}

theorem getters_eq (p : CImPdu) : p.getters = fieldsOf p.header := rfl

theorem index_lt (hi : (fieldsOf h)[i]? = some v) : i < 6 :=
  (List.getElem?_eq_some_iff.mp hi).1

theorem Encodes.shows {body : List UInt8} (hp : Encodes p h body) (hh : Narrow h) : Shows h p := by
  intro i v hi
  have hlt := index_lt hi
  have hlen := length_wire h body
  have hle : 4 + 2 * i + 2 ≤ (wire (fieldsOf h) body).length := by
    rw [hlen, imPduHeaderLen]
    omega
  have hread := readUint16_bytes hp.contents hle
  rwa [field_wire hh hi rfl] at hread

/-- `SetPBMsg` writes `m_pdu_header` into the buffer. -/
theorem Headed.setPBMsg (hp : Headed h p) {msg : List UInt8} (hmsg : msg.length < 2 ^ 31) :
    ∃ p', p.setPBMsg msg = .ok p' ∧ Headed h p' ∧ Shows h p' := by
  obtain ⟨rfl, hnarrow, cells, hcells, -⟩ := hp
  have hfit : grown (imPduHeaderLen + msg.length) < wordSize := by
    simp only [grown, wordSize_eq, imPduHeaderLen]
    omega
  obtain ⟨p', hset, hheader, henc⟩ := setPBMsg_encodes hcells hfit
  refine ⟨p', hset, ⟨hheader, hnarrow, _, henc, ?_⟩, henc.shows hnarrow⟩
  rw [List.length_map, length_wire]
  exact Nat.le_add_right _ _

/-- A setter writes its two bytes into the buffer and leaves the others and `m_pdu_header`. -/
theorem Headed.setField (hp : Headed h p) (hi : i < 6) (data : Nat) :
    ∃ p', p.setField (4 + 2 * i) data = .ok p' ∧ Headed h p' ∧
      readUint16 p'.buf.buffer (4 + 2 * i) = .ok (data % 2 ^ 16) ∧
      ∀ j, j ≠ i → readUint16 p'.buf.buffer (4 + 2 * j) = readUint16 p.buf.buffer (4 + 2 * j) := by
  obtain ⟨hheader, hnarrow, cells, hcells, hlong⟩ := hp
  have hbuf := hcells.contents.length_le
  have hlong' : 16 ≤ cells.length := hlong
  have hroom : 4 + 2 * i + (cells16 data).length ≤ p.buf.buffer.length := by
    rw [length_cells16]
    omega
  obtain ⟨buf, hcopy⟩ : ∃ buf, copyTo p.buf.buffer (4 + 2 * i) (cells16 data) = some buf :=
    ⟨_, if_pos hroom⟩
  have hlen := length_copyTo hcopy
  have htake : (buf.take cells.length).length = cells.length :=
    List.length_take_of_le (hlen ▸ hbuf)
  refine ⟨{ p with buf := { p.buf with buffer := buf } }, ?_,
    ⟨hheader, hnarrow, buf.take cells.length, ⟨hlen.trans hcells.alloc, hcells.word,
      hcells.offset.trans htake.symm, List.take_prefix _ _⟩, htake.symm ▸ hlong⟩, ?_, ?_⟩
  · rw [CImPdu.setField, writeUint16_eq, hcopy]
    rfl
  · have hread := copyOut_copyTo hcopy
    rw [length_cells16] at hread
    show readUint16 buf _ = _
    rw [readUint16, hread, defined_some, ok_bind, cells16,
      joinUint16_bytes (length_toBigEndian _ _), bigEndian_toBigEndian]
    rfl
  · intro j hj
    show readUint16 buf _ = _
    rw [readUint16, readUint16, copyOut_beside hcopy (by rw [length_cells16]; omega)]

/-- A call with which the two copies agree afterwards, if they did before. -/
theorem Headed.call_shows (hp : Headed h p) (hshows : Shows h p) {c : HeaderCall}
    (hmsg : ∀ msg, c = .setPBMsg msg → msg.length < 2 ^ 31) (hc : c.Agrees h) :
    ∃ p', c.call p = .ok p' ∧ Headed h p' ∧ Shows h p' := by
  -- a field that is set to what the header has
  have hset : ∀ i v data, (fieldsOf h)[i]? = some v → data % 2 ^ 16 = v →
      ∃ p', p.setField (4 + 2 * i) data = .ok p' ∧ Headed h p' ∧ Shows h p' := by
    intro i v data hi hv
    obtain ⟨p', hcall, hp', hsame, hothers⟩ := hp.setField (index_lt hi) data
    refine ⟨p', hcall, hp', fun j w hj => ?_⟩
    by_cases hji : j = i
    · subst hji
      rw [hi] at hj
      rw [hsame, hv, Option.some.inj hj]
    · rw [hothers j hji]
      exact hshows j w hj
  cases c with
  | setPBMsg msg => exact hp.setPBMsg (hmsg msg rfl)
  | setError error =>
      have hsome : (fieldsOf h)[4]? = some error.toNat := congrArg some hc
      exact hset 4 _ _ hsome (Nat.mod_eq_of_lt (UInt16.toNat_lt error))
  | set s =>
      have hnarrow := hp.narrow _ (List.mem_of_getElem? hc)
      have hvalue : s.value % 2 ^ 16 = s.given := by
        cases s with
        | reversed v =>
            have hcut : v.toUInt16.toNat % 2 ^ 16 = v.toNat % 2 ^ 16 := Nat.mod_mod _ _
            exact hcut.trans (Nat.mod_eq_of_lt hnarrow)
        | _ => exact Nat.mod_eq_of_lt hnarrow
      have hcall : s.call p = p.setField (4 + 2 * s.index) s.value := by cases s <;> rfl
      show ∃ p', s.call p = .ok p' ∧ _
      rw [hcall]
      exact hset s.index _ _ hc hvalue

/-- Every call goes through and leaves `m_pdu_header`. -/
theorem Headed.call (hp : Headed h p) {c : HeaderCall}
    (hmsg : ∀ msg, c = .setPBMsg msg → msg.length < 2 ^ 31) :
    ∃ p', c.call p = .ok p' ∧ Headed h p' := by
  cases c with
  | setPBMsg msg =>
      obtain ⟨p', hset, hp', -⟩ := hp.setPBMsg (hmsg msg rfl)
      exact ⟨p', hset, hp'⟩
  | setError error =>
      obtain ⟨p', hset, hp', -⟩ := hp.setField (i := 4) (by decide) error.toNat
      exact ⟨p', hset, hp'⟩
  | set s =>
      have hindex : s.index < 6 := by cases s <;> simp [Setter.index]
      have hcall : s.call p = p.setField (4 + 2 * s.index) s.value := by cases s <;> rfl
      obtain ⟨p', hset, hp', -⟩ := hp.setField hindex s.value
      exact ⟨p', hcall.trans hset, hp'⟩

/-- A call after which the last values set are still there sets none but those of the header. -/
theorem Headed.agrees (hp : Headed h p) (hp' : Headed h p') {c : HeaderCall}
    (hcall : c.call p = .ok p') (hcoh : Coherent (c.last (fieldsOf h)) p') : c.Agrees h := by
  obtain ⟨hget, hbuf⟩ := hcoh
  rw [getters_eq, hp'.header] at hget
  cases c with
  | setPBMsg msg => trivial
  | set s =>
      -- the getters still return the header
      have hindex : s.index < (fieldsOf h).length := by cases s <;> simp [Setter.index, fieldsOf]
      show (fieldsOf h)[s.index]? = some s.given
      rw [hget]
      exact List.getElem?_set_self hindex
  | setError error =>
      -- the buffer should still have the sequence number of the header, and has the error there
      obtain ⟨q, hset, -, hread, -⟩ := hp.setField (i := 4) (by decide) error.toNat
      have hq : CImPdu.setError p error = .ok q := hset
      have hcall' : CImPdu.setError p error = .ok p' := hcall
      rw [hq] at hcall'
      obtain rfl := Except.ok.inj hcall'
      have hsame := hbuf 4 h.seqNum rfl
      rw [hread, Nat.mod_eq_of_lt (UInt16.toNat_lt error)] at hsame
      exact (Except.ok.inj hsame).symm

/-! ## Any number of calls -/

section

variable {calls : List HeaderCall}
  (hmsgs : ∀ msg, HeaderCall.setPBMsg msg ∈ calls → msg.length < 2 ^ 31)

include hmsgs

theorem Headed.run (hp : Headed h p) :
    ∃ p', calls.foldlM HeaderCall.call p = .ok p' ∧ Headed h p' := by
  induction calls generalizing p with
  | nil => exact ⟨p, rfl, hp⟩
  | cons c calls ih =>
      obtain ⟨p₁, hcall, hp₁⟩ := hp.call fun msg hmsg => hmsgs msg (hmsg ▸ List.mem_cons_self)
      obtain ⟨p', hrest, hp'⟩ := ih (fun msg hmsg => hmsgs msg (List.mem_cons_of_mem _ hmsg)) hp₁
      refine ⟨p', ?_, hp'⟩
      rw [List.foldlM_cons, hcall]
      exact hrest

/-- The last values set are those of the header, and they stay where the getters and where the
receiver look for them. -/
theorem Headed.run_coherent (hp : Headed h p) (hshows : Shows h p)
    (hagree : ∀ c ∈ calls, c.Agrees h) :
    ∃ p', calls.foldlM HeaderCall.call p = .ok p' ∧
      Coherent (calls.foldl HeaderCall.last (fieldsOf h)) p' := by
  induction calls generalizing p with
  | nil => exact ⟨p, rfl, congrArg fieldsOf hp.header, hshows⟩
  | cons c calls ih =>
      have hc := hagree c List.mem_cons_self
      have hlast : c.last (fieldsOf h) = fieldsOf h := by
        cases c with
        | set s =>
            obtain ⟨hlt, hget⟩ := List.getElem?_eq_some_iff.mp hc
            show (fieldsOf h).set s.index s.given = _
            rw [← hget]
            exact List.set_getElem_self hlt
        | _ => rfl
      obtain ⟨p₁, hcall, hp₁, hshows₁⟩ :=
        hp.call_shows hshows (fun msg hmsg => hmsgs msg (hmsg ▸ List.mem_cons_self)) hc
      obtain ⟨p', hrest, hp'⟩ := ih (fun msg hmsg => hmsgs msg (List.mem_cons_of_mem _ hmsg)) hp₁
        hshows₁ (fun d hd => hagree d (List.mem_cons_of_mem _ hd))
      refine ⟨p', ?_, ?_⟩
      · rw [List.foldlM_cons, hcall]
        exact hrest
      · rwa [List.foldl_cons, hlast]

end

/-! ## From the start -/

theorem narrow_headerOf (bytes : List UInt8) : Narrow (headerOf bytes) := by
  have hfield : ∀ off, field bytes off 2 < 2 ^ 16 := by
    intro off
    have hlt := bigEndian_lt ((bytes.drop off).take 2)
    exact Nat.lt_of_lt_of_le hlt (Nat.pow_le_pow_right (by decide) (List.length_take_le _ _))
  intro v hv
  simp only [fieldsOf, headerOf, List.mem_cons, List.not_mem_nil, or_false] at hv
  rcases hv with rfl | rfl | rfl | rfl | rfl | rfl <;> exact hfield _

theorem MadeOf.headed {f : List UInt8} (hp : MadeOf f p) :
    Headed p.header p ∧ Shows p.header p := by
  obtain ⟨hlong, hheader, hholds⟩ := hp
  refine ⟨⟨rfl, hheader ▸ narrow_headerOf f, _, hholds, by rwa [List.length_map]⟩, ?_⟩
  rw [hheader]
  intro i v hi
  have hlt := index_lt hi
  have hlong' : 16 ≤ f.length := hlong
  rw [readUint16_bytes hholds.contents (by omega)]
  match i, hi with
  | 0, rfl => rfl
  | 1, rfl => rfl
  | 2, rfl => rfl
  | 3, rfl => rfl
  | 4, rfl => rfl
  | 5, rfl => rfl

/-- A PDU with a header that `ReadPdu` makes of what a buffer holds. -/
theorem readPdu_madeOf {b : CSimpleBuffer} {bytes : List UInt8} (hb : Holds b (bytes.map some))
    (hread : CImPdu.readPdu b.buffer b.writeOffset = .ok (some p))
    (hlen : imPduHeaderLen ≤ p.getLength) : ∃ f, MadeOf f p := by
  cases hframe : frameLen bytes with
  | none =>
      rw [readPdu_wait hb hframe] at hread
      cases hread
  | some n =>
      by_cases hzero : n = 0
      · rw [readPdu_zero hb (hzero ▸ hframe)] at hread
        cases hread
      · by_cases hfit : grown n < wordSize
        · obtain ⟨p', hread', hheader, hholds⟩ :=
            readPdu_frame hb hframe (Nat.pos_of_ne_zero hzero) hfit
          rw [hread] at hread'
          obtain rfl := Option.some.inj (Except.ok.inj hread')
          have htake : (bytes.take n).length = n :=
            List.length_take_of_le (frameLen_spec hframe).2.1
          have hn : imPduHeaderLen ≤ n := by
            rwa [CImPdu.getLength, hholds.offset, List.length_map, htake] at hlen
          exact ⟨bytes.take n, htake.symm ▸ hn, hheader.trans (headerOf_take hn).symm, hholds⟩
        · rw [readPdu_large hb hframe (Nat.not_lt.mp hfit)] at hread
          cases hread

theorem WithBody.headed (hp : WithBody p) : Headed p.header p ∧ Shows p.header p := by
  cases hp with
  | set msg hmsg hset =>
      have hfit : grown (imPduHeaderLen + msg.length) < wordSize := by
        simp only [grown, wordSize_eq, imPduHeaderLen]
        omega
      obtain ⟨p', hset', hheader, henc⟩ := setPBMsg_encodes (p := CImPdu.new) holds_new hfit
      rw [hset] at hset'
      obtain rfl := Except.ok.inj hset'
      rw [hheader]
      refine ⟨⟨hheader, narrow_new, _, henc, ?_⟩, henc.shows narrow_new⟩
      rw [List.length_map, length_wire]
      exact Nat.le_add_right _ _
  | read hb hread hlen =>
      obtain ⟨f, hmade⟩ := readPdu_madeOf hb hread hlen
      exact hmade.headed

/--
**When the two copies of a header agree.** From a PDU with a body, all calls go through; and after
each of them the getters return the last values set, and the buffer has them, if and only if no
setter is ever given anything but the value that the field had when the PDU was made.
-/
theorem coherent_iff (hp : WithBody p) (calls : List HeaderCall)
    (hmsgs : ∀ msg, HeaderCall.setPBMsg msg ∈ calls → msg.length < 2 ^ 31) :
    (∀ done todo, calls = done ++ todo → ∃ p', done.foldlM HeaderCall.call p = .ok p' ∧
      Coherent (done.foldl HeaderCall.last p.getters) p') ↔
    ∀ c ∈ calls, c.Agrees p.header := by
  obtain ⟨hheaded, hshows⟩ := hp.headed
  have hpart : ∀ done todo, calls = done ++ todo →
      ∀ msg, HeaderCall.setPBMsg msg ∈ done → msg.length < 2 ^ 31 :=
    fun done todo hsplit msg hmsg => hmsgs msg (hsplit ▸ List.mem_append_left todo hmsg)
  constructor
  · intro hall c hc
    obtain ⟨done, todo, hsplit⟩ := List.append_of_mem hc
    -- before the call the last values are those of the header, and after it too
    obtain ⟨p₁, hrun₁, hget₁, -⟩ := hall done (c :: todo) hsplit
    have hsplit' : calls = done ++ [c] ++ todo := by rw [hsplit, List.append_assoc]; rfl
    obtain ⟨p₂, hrun₂, hget₂, hbuf₂⟩ := hall (done ++ [c]) todo hsplit'
    obtain ⟨q₁, hq₁, hheaded₁⟩ := Headed.run (hpart done _ hsplit) hheaded
    obtain ⟨q₂, hq₂, hheaded₂⟩ := Headed.run (hpart _ todo hsplit') hheaded
    rw [hrun₁] at hq₁
    rw [hrun₂] at hq₂
    obtain rfl := Except.ok.inj hq₁
    obtain rfl := Except.ok.inj hq₂
    have hlast : (done ++ [c]).foldl HeaderCall.last p.getters = c.last (fieldsOf p.header) := by
      rw [List.foldl_append, ← hget₁, getters_eq, hheaded₁.header]
      rfl
    have hcall : c.call p₁ = .ok p₂ := by
      rw [List.foldlM_append, hrun₁, ok_bind, List.foldlM_cons] at hrun₂
      cases hc₂ : c.call p₁ with
      | error e =>
          rw [hc₂] at hrun₂
          cases hrun₂
      | ok q =>
          rw [hc₂] at hrun₂
          exact hrun₂
    exact hheaded₁.agrees hheaded₂ hcall (hlast ▸ ⟨hget₂, hbuf₂⟩)
  · intro hagree done todo hsplit
    exact Headed.run_coherent (hpart done todo hsplit) hheaded hshows
      fun c hc => hagree c (hsplit ▸ List.mem_append_left todo hc)

/-- A new PDU that gets a message, and then a version and another message. -/
theorem coherent_iff_version : ∃ p, CImPdu.new.setPBMsg [104, 105] = .ok p ∧
    ((∀ done todo, [HeaderCall.set (.version 2), .setPBMsg []] = done ++ todo →
      ∃ p', done.foldlM HeaderCall.call p = .ok p' ∧
        Coherent (done.foldl HeaderCall.last p.getters) p') ↔
    ∀ c ∈ [HeaderCall.set (.version 2), .setPBMsg []], c.Agrees p.header) := by
  have hfit : grown (imPduHeaderLen + ([104, 105] : List UInt8).length) < wordSize := by decide
  obtain ⟨p, hset, -⟩ :=
    setPBMsg_encodes (p := CImPdu.new) holds_new hfit
  refine ⟨p, hset, coherent_iff (.set [104, 105] (by decide) hset) _ ?_⟩
  intro msg hmsg
  obtain rfl : msg = [] := by simpa using hmsg
  decide

/-- A PDU whose service is set goes on naming the one before. -/
theorem coherent_service : ∃ p p', CImPdu.new.setPBMsg [104, 105] = .ok p ∧ WithBody p ∧
    [HeaderCall.set (.serviceId 1)].foldlM HeaderCall.call p = .ok p' ∧
    p'.getServiceId = sidOther ∧
    ¬ Coherent ([HeaderCall.set (.serviceId 1)].foldl HeaderCall.last p.getters) p' := by
  have hfit : grown (imPduHeaderLen + ([104, 105] : List UInt8).length) < wordSize := by decide
  obtain ⟨p, hset, hheader, -⟩ :=
    setPBMsg_encodes (p := CImPdu.new) holds_new hfit
  have hbody : WithBody p := .set [104, 105] (by decide) hset
  have hnone : ∀ msg, HeaderCall.setPBMsg msg ∈ [HeaderCall.set (.serviceId 1)] →
      msg.length < 2 ^ 31 := by simp
  obtain ⟨p', hrun, hheaded⟩ := Headed.run hnone hbody.headed.1
  have hsame := hheaded.header
  rw [hheader] at hsame
  refine ⟨p, p', hset, hbody, hrun, congrArg PduHeader.serviceId hsame, ?_⟩
  rintro ⟨hget, -⟩
  rw [getters_eq, getters_eq, hsame, hheader] at hget
  revert hget
  decide

end

end CppTrack.IM
