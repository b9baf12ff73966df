import Mathlib.Data.List.Infix
import Mathlib.Data.List.TakeWhile
import CppTrack.Lib.Blocks

/-!
# Requests and responses (`webserver.c`)

`recv_cb` reads a request into the buffer of its descriptor's element and `http_request` puts the
path into `resource`, without a look at its method or at the state it is in; `send_cb` opens that
path, sets `ret_code`, and sends the file.

An array of `char` that is only used as a string is the list of bytes before its zero. An access
outside an array is `none`, a scan that does not find what it looks for included.
-/

namespace CppTrack.WebServer

open Lib

/-- `BUFFER_LENGTH`. -/
def bufferLength : Nat := 4096

/-- The size of `linebuf`. -/
def linebufSize : Nat := 1024

def epollin : Nat := 0x001
def epollout : Nat := 0x004

/-- `HTTP_METHOD_GET`. -/
def httpMethodGet : Int := 0

def cr : UInt8 := 13
def lf : UInt8 := 10
def space : UInt8 := 32
def slash : UInt8 := 47
def dot : UInt8 := 46

/-- `"GET"`. -/
def getWord : List UInt8 := [71, 69, 84]

/-- `"POST"`. -/
def postWord : List UInt8 := [80, 79, 83, 84]

/-- `HTTP_WEBSERVER_HTML_ROOT`. -/
def htmlRoot : List UInt8 := [104, 116, 109, 108]

def bytesOf (s : String) : List UInt8 := s.toUTF8.toList

/-- The function that an element calls back. -/
inductive Callback where
  | accept
  | recv
  | send
  deriving DecidableEq

/-- `struct ntyevent`. -/
structure NtyEvent where
  fd : Nat
  events : Nat
  callback : Option Callback
  status : Nat
  buffer : List UInt8
  length : Int
  method : Int
  resource : List UInt8
  retCode : Int

/-- What `memset` makes of one. -/
def NtyEvent.zero : NtyEvent where
  fd := 0
  events := 0
  callback := none
  status := 0
  buffer := []
  length := 0
  method := 0
  resource := []
  retCode := 0

/-- `nty_event_set`. -/
def ntyEventSet (ev : NtyEvent) (fd : Nat) (callback : Callback) : NtyEvent :=
  { ev with fd, callback := some callback, events := 0 }

/-- `nty_event_add`. -/
def ntyEventAdd (events : Nat) (ev : NtyEvent) : NtyEvent := { ev with events, status := 1 }

/-- `nty_event_del`. -/
def ntyEventDel (ev : NtyEvent) : NtyEvent :=
  if ev.status ≠ 1 then ev else { ev with status := 0 }

/-! ## Requests -/

/-- `readline`; `s` is what is left of the string in `allbuf`, and `pos` where `linebuf` points. -/
def readline : (s : List UInt8) → (idx : Nat) → (linebuf : List UInt8) → (pos : Nat) →
    Option (Int × List UInt8)
  | [], _, linebuf, _ => some (-1, linebuf)
  | c :: s, idx, linebuf, pos =>
      if c = cr ∧ s.head? = some lf then some (idx + 2, linebuf)
      else (copyTo linebuf pos [c]).bind fun linebuf => readline s (idx + 1) linebuf (pos + 1)

/-- `strstr`: whether the word is in the string. -/
def strstr (block word : List UInt8) : Option Bool :=
  if word <:+: block.takeWhile (· ≠ 0) then some true
  else if 0 ∈ block then some false
  else none

/-- `http_request`. -/
def httpRequest (ev : NtyEvent) : Option NtyEvent := do
  let (_, linebuf) ← readline ev.buffer 0 (List.replicate linebufSize 0) 0
  if ← strstr linebuf getWord then
    -- `sizeof("GET ")` counts the zero behind the blank
    let uri := linebuf.drop 5
    if space ∈ uri then
      let path := (uri.takeWhile (· ≠ space)).takeWhile (· ≠ 0)
      let resource := [dot, slash] ++ (htmlRoot ++ (slash :: path))
      if resource.length < bufferLength then
        return { ev with method := httpMethodGet, resource }
      else none
    else none
  else if ← strstr linebuf postWord then return ev
  else return ev

/-- What `recv` returned. -/
inductive Received where
  | data (bytes : List UInt8)
  | closed
  | failed (err : Int)

/-- `recv_cb`: the new element, and whether the descriptor is closed. -/
def recvCb (fd : Nat) (ev : NtyEvent) : Received → Option (NtyEvent × Bool)
  | .data bytes =>
      -- the zero is put behind what was received
      if bytes.length < bufferLength then do
        let ev := { ev with buffer := bytes.takeWhile (· ≠ 0), length := bytes.length }
        let ev ← httpRequest ev
        return (ntyEventAdd epollout (ntyEventSet (ntyEventDel ev) fd .send), false)
      else none
  | .closed => some (ntyEventDel ev, true)
  | .failed _ => some (ntyEventDel ev, true)

/-! ## Responses -/

/-- What `fstat` says of a file. -/
inductive File where
  | dir
  | reg (size : Nat)
  | other

/-- The files, by their paths. There is none that has an empty one. -/
structure FileSystem where
  file : List UInt8 → Option File
  file_nil : file [] = none

def notFound : List UInt8 := bytesOf <|
  "HTTP/1.1 404 Not Found\r\n" ++
  "Date: Thu, 11 Nov 2021 12:28:52 GMT\r\n" ++
  "Content-Type: text/html;charset=ISO-8859-1\r\n" ++
  "Content-Length: 85\r\n\r\n" ++
  "<html><head><title>404 Not Found</title></head><body><H1>404</H1></body></html>\r\n\r\n"

def okHeader (size : Nat) : List UInt8 := bytesOf <|
  "HTTP/1.1 200 OK\r\n" ++
  "Date: Thu, 11 Nov 2021 12:28:52 GMT\r\n" ++
  "Content-Type: text/html;charset=ISO-8859-1\r\n" ++
  "Content-Length: " ++ toString size ++ "\r\n\r\n"

/-- `http_response`: the new element, and the path that was opened. -/
def httpResponse (fs : FileSystem) (ev : NtyEvent) : NtyEvent × List UInt8 :=
  let ev := { ev with buffer := [] }
  let ev := match fs.file ev.resource with
    | none => { ev with retCode := 404, buffer := notFound, length := notFound.length }
    | some .dir => { ev with retCode := 404, buffer := notFound, length := notFound.length }
    | some (.reg size) =>
        { ev with retCode := 200, buffer := okHeader size, length := (okHeader size).length }
    | some .other => ev
  (ev, ev.resource)

/-- `send_cb`, where `send` returned `len`: the new element, whether the descriptor is closed, and
the paths that were opened. -/
def sendCb (fs : FileSystem) (fd : Nat) (ev : NtyEvent) (len : Int) :
    NtyEvent × Bool × List (List UInt8) :=
  let (ev, path) := httpResponse fs ev
  if len > 0 then
    let opened := if ev.retCode = 200 then [path, ev.resource] else [path]
    (ntyEventAdd epollin (ntyEventSet (ntyEventDel ev) fd .recv), false, opened)
  else (ntyEventDel ev, true, [path])

/-! ## What a request says -/

/-- The first line of a string. -/
def firstLine : List UInt8 → List UInt8
  | [] => []
  | c :: s => if c = cr ∧ s.head? = some lf then [] else c :: firstLine s

/-- How many bytes the first line has with its end, if it has one. -/
def lineSize : List UInt8 → Option Nat
  | [] => none
  | c :: s => if c = cr ∧ s.head? = some lf then some 2 else (lineSize s).map (· + 1)

/-- What `readline` returns: the index of the next line. -/
def nextIdx (s : List UInt8) (idx : Nat) : Int :=
  match lineSize s with
  | some k => ((idx + k : Nat) : Int)
  | none => -1

/-- The first line of what was received. -/
def requestLine (bytes : List UInt8) : List UInt8 := firstLine (bytes.takeWhile (· ≠ 0))

/-- The text between the fifth byte of the line and the next blank. -/
def target (bytes : List UInt8) : List UInt8 := ((requestLine bytes).drop 5).takeWhile (· ≠ space)

/-- The line and the request fit the arrays they are copied to. -/
structure Fits (bytes : List UInt8) : Prop where
  request : bytes.length < bufferLength
  line : (requestLine bytes).length ≤ linebufSize

/-- A request that is taken for a `GET`. -/
structure Accepted (bytes : List UInt8) : Prop extends Fits bytes where
  word : getWord <:+: requestLine bytes
  blank : space ∈ (requestLine bytes).drop 5

/-- A request that is taken for something else. -/
structure Ignored (bytes : List UInt8) : Prop extends Fits bytes where
  word : ¬ getWord <:+: requestLine bytes
  /-- `strstr` finds a zero. -/
  short : (requestLine bytes).length < linebufSize

/-! ## What becomes of it -/

section

variable {s bytes : List UInt8} {ev ev' : NtyEvent}

theorem length_toList_loop (bs : ByteArray) (i : Nat) (r : List UInt8) :
    (ByteArray.toList.loop bs i r).length = bs.size - i + r.length := by
  induction i, r using ByteArray.toList.loop.induct bs with
  | case1 i r hlt ih =>
      rw [ByteArray.toList.loop, if_pos hlt, ih, List.length_cons]
      omega
  | case2 i r hge =>
      rw [ByteArray.toList.loop, if_neg hge, List.length_reverse]
      omega

theorem length_bytesOf (s : String) : (bytesOf s).length = s.utf8ByteSize :=
  length_toList_loop s.toUTF8 0 []

theorem mem_of_mem_firstLine {b : UInt8} (h : b ∈ firstLine s) : b ∈ s := by
  induction s with
  | nil => exact h
  | cons c s ih =>
      rw [firstLine] at h
      split at h
      · exact absurd h List.not_mem_nil
      · rcases List.mem_cons.mp h with rfl | h
        · exact List.mem_cons_self
        · exact List.mem_cons_of_mem _ (ih h)

theorem zero_notMem_takeWhile (bytes : List UInt8) : 0 ∉ bytes.takeWhile (· ≠ 0) := by
  intro h
  exact absurd (List.mem_takeWhile_imp h) (by decide)

theorem zero_notMem_requestLine (bytes : List UInt8) : 0 ∉ requestLine bytes := fun h =>
  zero_notMem_takeWhile bytes (mem_of_mem_firstLine h)

theorem ne_zero_of_notMem {line : List UInt8} (hline : 0 ∉ line) :
    ∀ b ∈ line, decide (b ≠ 0) = true := by
  intro b hb
  exact decide_eq_true fun heq => hline (heq ▸ hb)

/-- A string in an array that it does not fill. -/
theorem takeWhile_zeros {line : List UInt8} (hline : 0 ∉ line) (n : Nat) :
    (line ++ List.replicate n 0).takeWhile (· ≠ 0) = line := by
  rw [List.takeWhile_append_of_pos (ne_zero_of_notMem hline), List.takeWhile_replicate]
  simp

theorem strstr_zeros {line : List UInt8} (hline : 0 ∉ line) (word : List UInt8) (n : Nat) :
    strstr (line ++ List.replicate n 0) word =
      if word <:+: line then some true else if 0 < n then some false else none := by
  have hzero : 0 ∈ line ++ List.replicate n (0 : UInt8) ↔ 0 < n := by
    rw [List.mem_append, or_iff_right hline, List.mem_replicate, and_iff_left rfl,
      Nat.pos_iff_ne_zero]
  rw [strstr, takeWhile_zeros hline]
  exact if_congr Iff.rfl rfl (if_congr hzero rfl rfl)

/-- One byte into the free part of `linebuf`. -/
theorem copyTo_byte (pre : List UInt8) (n : Nat) (c : UInt8) :
    copyTo (pre ++ List.replicate (n + 1) 0) pre.length [c] =
      some ((pre ++ [c]) ++ List.replicate n 0) := by
  rw [copyTo_behind rfl (by rw [List.length_replicate]; exact Nat.le_add_left 1 n),
    List.drop_replicate]
  rfl

theorem nextIdx_cons {c : UInt8} (hend : ¬ (c = cr ∧ s.head? = some lf)) (idx : Nat) :
    nextIdx (c :: s) idx = nextIdx s (idx + 1) := by
  rw [nextIdx, nextIdx, lineSize, if_neg hend]
  cases lineSize s with
  | none => rfl
  | some k => exact congrArg Int.ofNat (by omega : idx + (k + 1) = idx + 1 + k)

/-- `readline` puts the line in front of what is left of `linebuf`. -/
theorem readline_fits (s pre : List UInt8) (idx n : Nat) (hle : (firstLine s).length ≤ n) :
    readline s idx (pre ++ List.replicate n 0) pre.length = some (nextIdx s idx,
      pre ++ (firstLine s ++ List.replicate (n - (firstLine s).length) 0)) := by
  induction s generalizing pre idx n with
  | nil => rfl
  | cons c s ih =>
      rw [readline, firstLine]
      rw [firstLine] at hle
      split at hle
      · rename_i hend
        rw [if_pos hend, if_pos hend, nextIdx, lineSize, if_pos hend]
        rfl
      · rename_i hend
        rw [List.length_cons] at hle
        obtain ⟨n, rfl⟩ := Nat.exists_eq_succ_of_ne_zero (Nat.ne_of_gt (Nat.zero_lt_of_lt hle))
        have hr := ih (pre ++ [c]) (idx + 1) n (Nat.le_of_succ_le_succ hle)
        rw [List.length_append, List.append_assoc] at hr
        rw [if_neg hend, if_neg hend, copyTo_byte, Option.bind_some, List.append_assoc,
          nextIdx_cons hend]
        refine hr.trans ?_
        rw [List.length_cons, Nat.succ_sub_succ, List.append_assoc]
        rfl

theorem readline_long (s pre : List UInt8) (idx n : Nat) (hlt : n < (firstLine s).length) :
    readline s idx (pre ++ List.replicate n 0) pre.length = none := by
  induction s generalizing pre idx n with
  | nil => exact absurd hlt (Nat.not_lt_zero _)
  | cons c s ih =>
      rw [readline]
      rw [firstLine] at hlt
      split at hlt
      · exact absurd hlt (Nat.not_lt_zero _)
      · rename_i hend
        rw [if_neg hend]
        cases n with
        | zero =>
            have hfull : ¬ pre.length + [c].length ≤
                (pre ++ List.replicate 0 (0 : UInt8)).length := by
              rw [List.replicate_zero, List.append_nil]
              exact Nat.not_succ_le_self _
            rw [copyTo, if_neg hfull]
            rfl
        | succ n =>
            have hrest := ih (pre ++ [c]) (idx + 1) n (Nat.lt_of_succ_lt_succ hlt)
            rw [List.length_append] at hrest
            rw [copyTo_byte, Option.bind_some]
            exact hrest

/-- The line in `linebuf`. -/
def linebuf (bytes : List UInt8) : List UInt8 :=
  requestLine bytes ++ List.replicate (linebufSize - (requestLine bytes).length) 0

theorem readline_line (hle : (requestLine bytes).length ≤ linebufSize) :
    readline (bytes.takeWhile (· ≠ 0)) 0 (List.replicate linebufSize 0) 0 =
      some (nextIdx (bytes.takeWhile (· ≠ 0)) 0, linebuf bytes) :=
  readline_fits _ [] 0 linebufSize hle

theorem strstr_linebuf (bytes word : List UInt8) :
    strstr (linebuf bytes) word =
      if word <:+: requestLine bytes then some true
      else if (requestLine bytes).length < linebufSize then some false
      else none := by
  rw [linebuf, strstr_zeros (zero_notMem_requestLine bytes)]
  exact if_congr Iff.rfl rfl (if_congr Nat.sub_pos_iff_lt rfl rfl)

theorem space_mem_linebuf (bytes : List UInt8) :
    space ∈ (linebuf bytes).drop 5 ↔ space ∈ (requestLine bytes).drop 5 := by
  rw [linebuf, List.drop_append, List.mem_append, List.drop_replicate, List.mem_replicate]
  exact or_iff_left fun h => absurd h.2 (by decide)

/-- What is between the fifth byte and the blank is on the line. -/
theorem path_linebuf (hblank : space ∈ (requestLine bytes).drop 5) :
    (((linebuf bytes).drop 5).takeWhile (· ≠ space)).takeWhile (· ≠ 0) = target bytes := by
  have hshort : ((((requestLine bytes).drop 5).takeWhile (· ≠ space)).length ≠
      ((requestLine bytes).drop 5).length) := by
    intro hlen
    have hall := (List.takeWhile_prefix _).eq_of_length hlen
    rw [← hall] at hblank
    exact absurd (List.mem_takeWhile_imp hblank) (by decide)
  have hpath : ((linebuf bytes).drop 5).takeWhile (· ≠ space) = target bytes := by
    rw [linebuf, List.drop_append, List.takeWhile_append, if_neg hshort]
    rfl
  have hzero : 0 ∉ target bytes := fun hb => zero_notMem_requestLine bytes
    (List.mem_of_mem_drop ((List.takeWhile_prefix _).subset hb))
  rw [hpath, List.takeWhile_eq_self_iff]
  exact ne_zero_of_notMem hzero

/-- The path that a request is answered with. -/
def resourceOf (bytes : List UInt8) : List UInt8 :=
  [dot, slash] ++ (htmlRoot ++ (slash :: target bytes))

theorem length_target_le (bytes : List UInt8) :
    (target bytes).length ≤ (requestLine bytes).length := by
  refine Nat.le_trans (List.takeWhile_prefix _).length_le ?_
  rw [List.length_drop]
  exact Nat.sub_le _ _

theorem httpRequest_accepted (h : Accepted bytes) (hbuffer : ev.buffer = bytes.takeWhile (· ≠ 0)) :
    httpRequest ev = some { ev with method := httpMethodGet, resource := resourceOf bytes } := by
  have hr := readline_line h.line
  have hword := (strstr_linebuf bytes getWord).trans (if_pos h.word)
  have hroom : ([dot, slash] ++ (htmlRoot ++ (slash :: target bytes))).length < bufferLength := by
    have hle := Nat.le_trans (length_target_le bytes) h.line
    simp only [List.length_append, List.length_cons, List.length_nil, htmlRoot]
    unfold linebufSize at hle
    unfold bufferLength
    omega
  simp only [httpRequest, hbuffer, hr, Option.bind_eq_bind, Option.bind_some, hword, if_true,
    if_pos ((space_mem_linebuf bytes).mpr h.blank), path_linebuf h.blank, if_pos hroom]
  rfl

theorem httpRequest_ignored (h : Ignored bytes) (hbuffer : ev.buffer = bytes.takeWhile (· ≠ 0)) :
    httpRequest ev = some ev := by
  have hr := readline_line h.line
  have hget : strstr (linebuf bytes) getWord = some false := by
    rw [strstr_linebuf, if_neg h.word, if_pos h.short]
  have hpost : ∃ b, strstr (linebuf bytes) postWord = some b := by
    rw [strstr_linebuf, if_pos h.short]
    split
    · exact ⟨true, rfl⟩
    · exact ⟨false, rfl⟩
  obtain ⟨b, hb⟩ := hpost
  simp only [httpRequest, hbuffer, hr, Option.bind_eq_bind, Option.bind_some, hget, hb,
    Bool.false_eq_true, if_false]
  cases b <;> rfl

/-- There is no third kind of request that comes through. -/
theorem accepted_or_ignored (hlen : bytes.length < bufferLength)
    (hbuffer : ev.buffer = bytes.takeWhile (· ≠ 0)) (hsome : httpRequest ev = some ev') :
    Accepted bytes ∨ Ignored bytes := by
  rw [httpRequest, hbuffer] at hsome
  obtain ⟨⟨r, buf⟩, hread, hsome⟩ := Option.bind_eq_some_iff.mp hsome
  by_cases hline : (requestLine bytes).length ≤ linebufSize
  · obtain ⟨-, rfl⟩ := Prod.mk.inj (Option.some.inj ((readline_line hline).symm.trans hread))
    obtain ⟨b, hb, hsome⟩ := Option.bind_eq_some_iff.mp hsome
    rw [strstr_linebuf] at hb
    split at hb
    · rename_i hword
      obtain rfl := Option.some.inj hb
      rw [if_pos rfl] at hsome
      dsimp only at hsome
      split at hsome
      · rename_i hblank
        exact .inl ⟨⟨hlen, hline⟩, hword, (space_mem_linebuf bytes).mp hblank⟩
      · exact absurd hsome nofun
    · rename_i hword
      split at hb
      · rename_i hshort
        exact .inr ⟨⟨hlen, hline⟩, hword, hshort⟩
      · exact absurd hb nofun
  · have hlong := readline_long (bytes.takeWhile (· ≠ 0)) [] 0 linebufSize (Nat.lt_of_not_le hline)
    exact absurd (hlong.symm.trans hread) nofun

/-- What `recv_cb` makes of an element once `http_request` is through with it. -/
def waiting (fd : Nat) (ev : NtyEvent) : NtyEvent :=
  ntyEventAdd epollout (ntyEventSet (ntyEventDel ev) fd .send)

theorem resource_waiting (fd : Nat) (ev : NtyEvent) : (waiting fd ev).resource = ev.resource := by
  unfold waiting ntyEventDel
  split <;> rfl

theorem retCode_waiting (fd : Nat) (ev : NtyEvent) : (waiting fd ev).retCode = ev.retCode := by
  unfold waiting ntyEventDel
  split <;> rfl

/-- The element with the request in its buffer. -/
def received (ev : NtyEvent) (bytes : List UInt8) : NtyEvent :=
  { ev with buffer := bytes.takeWhile (· ≠ 0), length := bytes.length }

theorem recvCb_accepted (fd : Nat) (ev : NtyEvent) (h : Accepted bytes) :
    recvCb fd ev (.data bytes) = some (waiting fd { received ev bytes with
      method := httpMethodGet, resource := resourceOf bytes }, false) := by
  have hrequest : httpRequest (received ev bytes) =
      some { received ev bytes with method := httpMethodGet, resource := resourceOf bytes } :=
    httpRequest_accepted h rfl
  rw [recvCb, if_pos h.request]
  exact Option.bind_eq_some_iff.mpr ⟨_, hrequest, rfl⟩

theorem recvCb_ignored (fd : Nat) (ev : NtyEvent) (h : Ignored bytes) :
    recvCb fd ev (.data bytes) = some (waiting fd (received ev bytes), false) := by
  have hrequest : httpRequest (received ev bytes) = some (received ev bytes) :=
    httpRequest_ignored h rfl
  rw [recvCb, if_pos h.request]
  exact Option.bind_eq_some_iff.mpr ⟨_, hrequest, rfl⟩

theorem accepted_or_ignored_of_recvCb {fd : Nat} {r : NtyEvent × Bool}
    (h : recvCb fd ev (.data bytes) = some r) : Accepted bytes ∨ Ignored bytes := by
  rw [recvCb] at h
  split at h
  · rename_i hlen
    obtain ⟨ev', hrequest, -⟩ := Option.bind_eq_some_iff.mp h
    have hbuffer : (received ev bytes).buffer = bytes.takeWhile (· ≠ 0) := rfl
    exact accepted_or_ignored hlen hbuffer hrequest
  · exact absurd h nofun

/-! ## Files -/

variable {fs : FileSystem}

theorem resource_httpResponse (fs : FileSystem) (ev : NtyEvent) :
    (httpResponse fs ev).1.resource = ev.resource ∧ (httpResponse fs ev).2 = ev.resource := by
  unfold httpResponse
  dsimp only
  split <;> exact ⟨rfl, rfl⟩

/-- `send_cb` opens the path in `resource`, and nothing else. -/
theorem mem_opened_iff (fs : FileSystem) (fd : Nat) (ev : NtyEvent) (len : Int)
    (path : List UInt8) : path ∈ (sendCb fs fd ev len).2.2 ↔ path = ev.resource := by
  obtain ⟨hsame, hopened⟩ := resource_httpResponse fs ev
  rw [sendCb]
  generalize httpResponse fs ev = r at *
  obtain ⟨ev', path'⟩ := r
  dsimp only at *
  subst hopened
  rw [hsame]
  split
  · split <;> simp
  · exact List.mem_singleton

end

end CppTrack.WebServer
