import CppTrack.Net.WebServer

/-!
# How a response goes out

The descriptor is non-blocking, so `send` and `sendfile` take as many bytes as there is room for, or
none. `send_cb` calls each of them once for a response, asks of `send` only whether it took
anything, and of `sendfile` nothing, and goes back to reading.
-/

namespace CppTrack.WebServer

open Lib

/-- What is in the files. -/
structure Contents (fs : FileSystem) where
  bytes : List UInt8 → List UInt8
  size_eq : ∀ path size, fs.file path = some (.reg size) → (bytes path).length = size

/-- What a call on the descriptor does with the bytes it is given. -/
inductive SendResult where
  | accepted (n : Nat)
  /-- `EAGAIN`. -/
  | again

namespace SendResult

/-- What the call returns. -/
def result : SendResult → Int
  | .accepted n => n
  | .again => -1

/-- How many bytes go out. -/
def count : SendResult → Nat
  | .accepted n => n
  | .again => 0

/-- Of some bytes at least one is accepted, and never more than there are. -/
def Fits (len : Nat) : SendResult → Prop
  | .accepted n => n ≤ len ∧ (0 < len → 0 < n)
  | .again => True

end SendResult

/-- The kernel, for one call of `send_cb`. -/
structure Kernel where
  send : SendResult
  sendfile : SendResult

/-- A connection, and what was accepted on it. -/
structure Conn where
  ev : NtyEvent
  closed : Bool
  wire : List UInt8

/-- `send_cb`, with the bytes that go out. -/
def sendOnce (fs : FileSystem) (files : Contents fs) (fd : Nat) (c : Conn) (k : Kernel) : Conn :=
  let (ev, _) := httpResponse fs c.ev
  let (ev', closed, _) := sendCb fs fd c.ev k.send.result
  let header := ev.buffer.take k.send.count
  let body := if k.send.result > 0 ∧ ev.retCode = 200 then
      (files.bytes ev.resource).take k.sendfile.count
    else []
  { ev := ev', closed := closed, wire := c.wire ++ header ++ body }

/-- The descriptor is writable, time after time, while the element waits for that. -/
def writables (fs : FileSystem) (files : Contents fs) (fd : Nat) : List Kernel → Conn → Conn
  | [], c => c
  | k :: ks, c =>
      if c.closed = false ∧ c.ev.callback = some .send then
        writables fs files fd ks (sendOnce fs files fd c k)
      else c

/-- The connection is back at reading, and what was accepted since is the header and the file. -/
def Delivered (fs : FileSystem) (files : Contents fs) (path : List UInt8) (c c' : Conn) : Prop :=
  c'.closed = false ∧ c'.ev.callback = some .recv ∧
    c'.wire = c.wire ++ okHeader (files.bytes path).length ++ files.bytes path

section

variable {fs : FileSystem} (files : Contents fs) (fd : Nat) {size : Nat} {c : Conn} {k : Kernel}

theorem okHeader_pos (size : Nat) : 0 < (okHeader size).length := by
  rw [okHeader, length_bytesOf, String.utf8ByteSize_append]
  exact Nat.lt_of_lt_of_le (by decide : 0 < "\r\n\r\n".utf8ByteSize) (Nat.le_add_left _ _)

theorem count_le {t : SendResult} {len : Nat} (h : t.Fits len) : t.count ≤ len := by
  cases t with
  | accepted n => exact h.1
  | again => exact Nat.zero_le _

theorem result_pos_iff (t : SendResult) : t.result > 0 ↔ 0 < t.count := by
  cases t with
  | accepted n => exact Int.natCast_pos
  | again => exact iff_of_false (by decide) (Nat.lt_irrefl 0)

/-- Where the file is there, `http_response` puts the header into the buffer. -/
theorem httpResponse_reg (hfile : fs.file c.ev.resource = some (.reg size)) :
    (httpResponse fs c.ev).1 = { c.ev with
      buffer := okHeader size, length := (okHeader size).length, retCode := 200 } := by
  simp only [httpResponse, hfile]

/-- `send` took something: what it took goes out, and what `sendfile` took of the file. -/
theorem sendOnce_taken (hfile : fs.file c.ev.resource = some (.reg size))
    (hpos : 0 < k.send.count) :
    (sendOnce fs files fd c k).closed = false ∧
      (sendOnce fs files fd c k).ev.callback = some .recv ∧
      (sendOnce fs files fd c k).wire = c.wire ++ (okHeader size).take k.send.count ++
        (files.bytes c.ev.resource).take k.sendfile.count := by
  have hresult : k.send.result > 0 := (result_pos_iff _).mpr hpos
  have hev := httpResponse_reg hfile
  generalize hr : httpResponse fs c.ev = r at hev
  obtain ⟨ev, path⟩ := r
  dsimp only at hev
  subst hev
  have hdel : ∀ ev : NtyEvent, (ntyEventDel ev).buffer = ev.buffer ∧
      (ntyEventDel ev).retCode = ev.retCode ∧ (ntyEventDel ev).resource = ev.resource := by
    intro ev
    unfold ntyEventDel
    split <;> exact ⟨rfl, rfl, rfl⟩
  obtain ⟨hbuffer, hret, hres⟩ := hdel { c.ev with
    buffer := okHeader size, length := (okHeader size).length, retCode := 200 }
  refine ⟨?_, ?_, ?_⟩
  · simp only [sendOnce, sendCb, hr, if_pos hresult]
  · simp only [sendOnce, sendCb, hr, if_pos hresult]
    rfl
  · simp only [sendOnce, sendCb, hr, if_pos hresult, ntyEventAdd, ntyEventSet, hbuffer, hret, hres,
      and_true]

/-- `send` took nothing: the connection is given up. -/
theorem sendOnce_refused (hzero : k.send.count = 0) : (sendOnce fs files fd c k).closed = true := by
  have hresult : ¬ k.send.result > 0 := fun h => absurd ((result_pos_iff _).mp h) (by omega)
  simp only [sendOnce, sendCb, if_neg hresult]

/-- Whatever `send` takes, the response is over after one call of `send_cb`. -/
theorem writables_cons (ks : List Kernel) (hopen : c.closed = false)
    (hsend : c.ev.callback = some .send) (hfile : fs.file c.ev.resource = some (.reg size)) :
    writables fs files fd (k :: ks) c = sendOnce fs files fd c k := by
  have hover : ¬ ((sendOnce fs files fd c k).closed = false ∧
      (sendOnce fs files fd c k).ev.callback = some .send) := by
    rintro ⟨hclosed, hcallback⟩
    rcases Nat.eq_zero_or_pos k.send.count with hzero | hpos
    · exact absurd ((sendOnce_refused files fd hzero).symm.trans hclosed) (by decide)
    · obtain ⟨-, hrecv, -⟩ := sendOnce_taken files fd hfile hpos
      exact absurd (hrecv.symm.trans hcallback) (by decide)
  rw [writables, if_pos ⟨hopen, hsend⟩]
  cases ks with
  | nil => rfl
  | cons k' ks => rw [writables, if_neg hover]

/-- Of two texts as much as was taken of them: all of both only if nothing is left of either. -/
theorem take_append_take_iff {header body : List UInt8} {n m : Nat} (hn : n ≤ header.length)
    (hm : m ≤ body.length) :
    header.take n ++ body.take m = header ++ body ↔ n = header.length ∧ m = body.length := by
  constructor
  · intro heq
    have hlen := congrArg List.length heq
    simp only [List.length_append, List.length_take] at hlen
    omega
  · rintro ⟨rfl, rfl⟩
    rw [List.take_length, List.take_length]

theorem delivered_sendOnce_iff (hfile : fs.file c.ev.resource = some (.reg size))
    (hfits : k.send.Fits (okHeader size).length) (hfile_fits : k.sendfile.Fits size) :
    Delivered fs files c.ev.resource c (sendOnce fs files fd c k) ↔
      k.send.count = (okHeader size).length ∧ k.sendfile.count = size := by
  have hsize := files.size_eq _ _ hfile
  rcases Nat.eq_zero_or_pos k.send.count with hzero | hpos
  · refine iff_of_false ?_ ?_
    · rintro ⟨hopen, -, -⟩
      exact absurd ((sendOnce_refused files fd hzero).symm.trans hopen) (by decide)
    · rintro ⟨hall, -⟩
      exact absurd (hzero.symm.trans hall) (Nat.ne_of_lt (okHeader_pos size))
  · obtain ⟨hopen, hrecv, hwire⟩ := sendOnce_taken files fd hfile hpos
    have hiff := take_append_take_iff (count_le hfits)
      ((count_le hfile_fits).trans_eq hsize.symm)
    rw [Delivered, hwire, hsize, List.append_assoc, List.append_assoc, List.append_cancel_left_eq,
      hiff, hsize]
    exact ⟨fun h => h.2.2, fun h => ⟨hopen, hrecv, h⟩⟩

end

/--
**A response is delivered whole if and only if `send` takes all of the header and `sendfile` all of
the file** in the one call that each of them gets: what is left is never sent, and at `EAGAIN` the
connection is closed.
-/
theorem delivered_iff (fs : FileSystem) (files : Contents fs) (fd size : Nat) (c : Conn)
    (k : Kernel) (ks : List Kernel) (hopen : c.closed = false)
    (hsend : c.ev.callback = some .send) (hfile : fs.file c.ev.resource = some (.reg size))
    (hfits : k.send.Fits (okHeader size).length) (hfile_fits : k.sendfile.Fits size) :
    Delivered fs files c.ev.resource c (writables fs files fd (k :: ks) c) ↔
      k.send.count = (okHeader size).length ∧ k.sendfile.count = size := by
  rw [writables_cons files fd ks hopen hsend hfile]
  exact delivered_sendOnce_iff files fd hfile hfits hfile_fits

/-- One file of two bytes. -/
def oneFile : FileSystem where
  file path := if path = resourceOf [] then some (.reg 2) else none
  file_nil := rfl

def oneContents : Contents oneFile where
  bytes _ := [104, 105]
  size_eq := by
    intro path size h
    obtain ⟨-, heq⟩ := Option.ite_none_right_eq_some.mp h
    exact File.reg.inj (Option.some.inj heq)

/-- A connection that waits to send that file. -/
def oneConn : Conn where
  ev := { NtyEvent.zero with callback := some .send, resource := resourceOf [] }
  closed := false
  wire := []

theorem oneFile_resource : oneFile.file oneConn.ev.resource = some (.reg 2) := by
  show (if oneConn.ev.resource = resourceOf [] then some (File.reg 2) else none) = _
  exact if_pos rfl

theorem delivered_iff_one : oneFile.file oneConn.ev.resource = some (.reg 2) ∧
    (Delivered oneFile oneContents oneConn.ev.resource oneConn (writables oneFile oneContents 5
        [⟨.accepted (okHeader 2).length, .accepted 2⟩] oneConn) ↔
      SendResult.count (.accepted (okHeader 2).length) = (okHeader 2).length ∧
        SendResult.count (.accepted 2) = 2) :=
  ⟨oneFile_resource, delivered_iff oneFile oneContents 5 2 oneConn
    ⟨.accepted (okHeader 2).length, .accepted 2⟩ [] rfl rfl oneFile_resource
    ⟨Nat.le_refl _, id⟩ ⟨Nat.le_refl 2, id⟩⟩

/-- A file of two bytes of which `sendfile` takes one. -/
theorem short_sendfile : ¬ ∀ (fs : FileSystem) (files : Contents fs) (fd size : Nat) (c : Conn)
    (k : Kernel) (ks : List Kernel), c.closed = false → c.ev.callback = some .send →
    fs.file c.ev.resource = some (.reg size) → k.send.Fits (okHeader size).length →
    k.sendfile.Fits size →
    Delivered fs files c.ev.resource c (writables fs files fd (k :: ks) c) := by
  intro h
  have hfile := oneFile_resource
  have hfits : (SendResult.accepted (okHeader 2).length).Fits (okHeader 2).length :=
    ⟨Nat.le_refl _, id⟩
  have hpart : (SendResult.accepted 1).Fits 2 := ⟨by decide, fun _ => by decide⟩
  have hall := h oneFile oneContents 5 2 oneConn ⟨.accepted (okHeader 2).length, .accepted 1⟩
    [⟨.accepted (okHeader 2).length, .accepted 1⟩] rfl rfl hfile hfits hpart
  rw [writables_cons oneContents 5 _ rfl rfl hfile,
    delivered_sendOnce_iff oneContents 5 hfile hfits hpart] at hall
  exact absurd hall.2 (by decide)

end CppTrack.WebServer
