import CppTrack.Lib.Run
import CppTrack.Net.WebRoot

/-!
# What an answer depends on

The elements of the table belong to descriptors. Connections come and go, and requests follow each
other on a connection, with nothing cleared between them. `http_request` sets `resource` for a `GET`
only, and `http_response` sets `ret_code` only where there is no file, a directory or a regular one.
For other requests and other files the answer tells of what was there before.
-/

namespace CppTrack.WebServer

open Lib

/-- The elements, which `ntyreactor_idx` finds by the descriptor, and the open descriptors. -/
structure Server where
  slots : Nat → NtyEvent
  isOpen : Nat → Bool

/-- `main`, before the loop: `sockfd` listens. -/
def startServer (sockfd : Nat) : Server where
  slots := Function.update (fun _ => .zero) sockfd
    (ntyEventAdd epollin (ntyEventSet .zero sockfd .accept))
  isOpen := fun fd => fd = sockfd

/-- What the loop in `ntyreactor_run` is woken for. -/
inductive Event where
  /-- `accept` returns a descriptor for a new connection. -/
  | accept (fd clientfd : Nat)
  | recv (fd : Nat) (r : Received)
  /-- `send` returns this length. -/
  | send (fd : Nat) (len : Int)

/-- What was chosen for a request. -/
structure Answer where
  request : List UInt8
  resource : List UInt8
  status : Int

/-- A server, the last request on each descriptor, and the answers so far. -/
structure History where
  server : Server
  asked : Nat → List UInt8
  answers : List Answer

def startHistory (sockfd : Nat) : History := ⟨startServer sockfd, fun _ => [], []⟩

/-- The descriptor is watched, and its element calls this. -/
def Server.Armed (S : Server) (fd : Nat) (callback : Callback) (events : Nat) : Prop :=
  S.isOpen fd = true ∧ (S.slots fd).status = 1 ∧ (S.slots fd).events = events ∧
    (S.slots fd).callback = some callback

instance (S : Server) (fd : Nat) (callback : Callback) (events : Nat) :
    Decidable (S.Armed fd callback events) := by
  unfold Server.Armed
  infer_instance

/-- An element changed by a callback, and perhaps its descriptor closed. -/
def Server.after (S : Server) (fd : Nat) (ev : NtyEvent) (closed : Bool) : Server where
  slots := Function.update S.slots fd ev
  isOpen := Function.update S.isOpen fd (!closed)

/-- `recv` returns no more than it was asked for, and nothing only at the end. -/
def Received.Possible : Received → Prop
  | .data bytes => bytes ≠ [] ∧ bytes.length ≤ bufferLength
  | .closed => True
  | .failed _ => True

instance : DecidablePred Received.Possible
  | .data bytes => inferInstanceAs (Decidable (bytes ≠ [] ∧ _))
  | .closed => .isTrue trivial
  | .failed _ => .isTrue trivial

/-- What was received is the new request on the descriptor. -/
def Received.ask (asked : Nat → List UInt8) (fd : Nat) : Received → Nat → List UInt8
  | .data bytes => Function.update asked fd bytes
  | .closed => asked
  | .failed _ => asked

def step (fs : FileSystem) (H : History) : Event → Option History
  | .accept fd clientfd =>
      if H.server.Armed fd .accept epollin ∧ H.server.isOpen clientfd = false then
        let ev := ntyEventSet (H.server.slots clientfd) clientfd .recv
        some { H with server := H.server.after clientfd (ntyEventAdd epollin ev) false }
      else none
  | .recv fd r =>
      if H.server.Armed fd .recv epollin ∧ r.Possible then
        (recvCb fd (H.server.slots fd) r).map fun s =>
          { H with server := H.server.after fd s.1 s.2, asked := r.ask H.asked fd }
      else none
  | .send fd len =>
      if H.server.Armed fd .send epollout then
        let r := sendCb fs fd (H.server.slots fd) len
        let answer := ⟨H.asked fd, r.1.resource, r.1.retCode⟩
        some { H with server := H.server.after fd r.1 r.2.1, answers := answer :: H.answers }
      else none

/-- `recv_cb` gets through the request on any descriptor that waits for one, in any run over these
files. -/
def GotThrough (fs : FileSystem) (bytes : List UInt8) : Prop :=
  ∀ sockfd es H fd, run (step fs) (startHistory sockfd) es = some H →
    H.server.Armed fd .recv epollin → ∃ H', step fs H (.recv fd (.data bytes)) = some H'

/-- Whatever else the server was asked before and meanwhile, in this run or another over the same
files, the answers to the request are the same. -/
def AnsweredAlike (fs : FileSystem) (bytes : List UInt8) : Prop :=
  ∀ sockfd sockfd' es es' H H', run (step fs) (startHistory sockfd) es = some H →
    run (step fs) (startHistory sockfd') es' = some H' →
    ∀ a ∈ H.answers, ∀ a' ∈ H'.answers, a.request = bytes → a'.request = bytes →
      a.resource = a'.resource ∧ a.status = a'.status

/-- A request that `recv` can return is got through, and is answered alike. -/
def Independent (fs : FileSystem) (bytes : List UInt8) : Prop :=
  (Received.data bytes).Possible → GotThrough fs bytes ∧ AnsweredAlike fs bytes

/-- The request is taken for a `GET`, and its path is not that of a file which `http_response`
passes over. -/
def Clear (fs : FileSystem) (bytes : List UInt8) : Prop :=
  (Received.data bytes).Possible → Accepted bytes ∧ fs.file (resourceOf bytes) ≠ some .other

/-! ## What is set -/

/-- `ret_code` behind `http_response`. -/
def statusOf (fs : FileSystem) (path : List UInt8) (old : Int) : Int :=
  match fs.file path with
  | none => 404
  | some .dir => 404
  | some (.reg _) => 200
  | some .other => old

section

variable {fs : FileSystem} {H H' : History} {fd : Nat} {bytes : List UInt8}

theorem retCode_httpResponse (fs : FileSystem) (ev : NtyEvent) :
    (httpResponse fs ev).1.retCode = statusOf fs ev.resource ev.retCode := by
  unfold httpResponse statusOf
  dsimp only
  cases fs.file ev.resource with
  | none => rfl
  | some file => cases file <;> rfl

/-- `send_cb` leaves the path, and sets the status by it. -/
theorem sendCb_chosen (fs : FileSystem) (fd : Nat) (ev : NtyEvent) (len : Int) :
    (sendCb fs fd ev len).1.resource = ev.resource ∧
      (sendCb fs fd ev len).1.retCode = statusOf fs ev.resource ev.retCode := by
  obtain ⟨hresource, -⟩ := resource_httpResponse fs ev
  have hstatus := retCode_httpResponse fs ev
  rw [sendCb]
  generalize httpResponse fs ev = r at *
  dsimp only at *
  rw [← hstatus, ← hresource]
  split
  · unfold ntyEventDel
    split <;> exact ⟨rfl, rfl⟩
  · unfold ntyEventDel
    split <;> exact ⟨rfl, rfl⟩

/-- The status does not depend on the one before, but for files that are passed over. -/
theorem statusOf_congr {path : List UInt8} (h : fs.file path ≠ some .other) (old old' : Int) :
    statusOf fs path old = statusOf fs path old' := by
  unfold statusOf
  cases hfile : fs.file path with
  | none => rfl
  | some file =>
      cases file with
      | other => exact absurd hfile h
      | dir => rfl
      | reg size => rfl

/-! ## What is kept -/

/-- What was taken from a request, if it was accepted. -/
def Taken (bytes : List UInt8) (resource : List UInt8) : Prop :=
  Accepted bytes → resource = resourceOf bytes

/-- An element that waits for `send_cb` has the path of the last request on its descriptor, if that
was accepted, and so has each answer, with the status that belongs to it. -/
structure Inv (fs : FileSystem) (H : History) : Prop where
  slots : ∀ fd, (H.server.slots fd).callback = some .send →
    Taken (H.asked fd) (H.server.slots fd).resource
  answers : ∀ a ∈ H.answers, Taken a.request a.resource ∧
    ∃ old, a.status = statusOf fs a.resource old

theorem inv_start (fs : FileSystem) (sockfd : Nat) : Inv fs (startHistory sockfd) := by
  refine ⟨?_, fun a ha => absurd ha List.not_mem_nil⟩
  intro fd hsend
  have hnot : ((startServer sockfd).slots fd).callback ≠ some .send := by
    show (Function.update (fun _ => NtyEvent.zero) sockfd _ fd).callback ≠ _
    by_cases hfd : fd = sockfd
    · subst hfd
      rw [Function.update_self]
      exact nofun
    · rw [Function.update_of_ne hfd]
      exact nofun
  exact absurd hsend hnot

/-- An element is changed to one that does not wait for `send_cb`, or to one that was asked. -/
theorem Inv.after (h : Inv fs H) {ev : NtyEvent} {closed : Bool} {asked : Nat → List UInt8}
    (hasked : ∀ fd', fd' ≠ fd → asked fd' = H.asked fd')
    (hev : ev.callback = some .send → Taken (asked fd) ev.resource) :
    Inv fs { H with server := H.server.after fd ev closed, asked } := by
  refine ⟨?_, h.answers⟩
  intro fd' hsend
  have hslots : ∀ fd', (H.server.after fd ev closed).slots fd' =
      Function.update H.server.slots fd ev fd' := fun _ => rfl
  dsimp only at hsend ⊢
  rw [hslots] at hsend ⊢
  by_cases hfd : fd' = fd
  · subst hfd
    rw [Function.update_self] at hsend ⊢
    exact hev hsend
  · rw [Function.update_of_ne hfd] at hsend ⊢
    rw [hasked fd' hfd]
    exact h.slots fd' hsend

theorem taken_of_recvCb {ev : NtyEvent} {r : NtyEvent × Bool}
    (hrecv : recvCb fd ev (.data bytes) = some r) : Taken bytes r.1.resource := by
  intro haccepted
  rw [recvCb_accepted fd ev haccepted] at hrecv
  obtain rfl := Option.some.inj hrecv
  exact resource_waiting fd _

theorem callback_ntyEventDel (ev : NtyEvent) : (ntyEventDel ev).callback = ev.callback := by
  unfold ntyEventDel
  split <;> rfl

theorem inv_step {e : Event} (h : Inv fs H) (hstep : step fs H e = some H') : Inv fs H' := by
  -- an element whose descriptor was closed for reading still has `recv_cb`
  have hclosed : ∀ {fd : Nat}, H.server.Armed fd .recv epollin →
      (ntyEventDel (H.server.slots fd)).callback = some .send →
      Taken (H.asked fd) (ntyEventDel (H.server.slots fd)).resource := by
    intro fd harmed hsend
    rw [callback_ntyEventDel, harmed.2.2.2] at hsend
    exact absurd hsend nofun
  cases e with
  | accept fd clientfd =>
      rw [step] at hstep
      split at hstep
      · obtain rfl := Option.some.inj hstep
        exact h.after (fun _ _ => rfl) nofun
      · exact absurd hstep nofun
  | recv fd r =>
      rw [step] at hstep
      split at hstep
      · rename_i hguard
        obtain ⟨harmed, -⟩ := hguard
        obtain ⟨s, hrecv, rfl⟩ := Option.map_eq_some_iff.mp hstep
        cases r with
        | data bytes =>
            refine h.after (fun fd' hfd => Function.update_of_ne hfd _ _) fun _ => ?_
            show Taken (Function.update H.asked fd bytes fd) _
            rw [Function.update_self]
            exact taken_of_recvCb hrecv
        | closed =>
            obtain rfl := Option.some.inj hrecv
            exact h.after (fun _ _ => rfl) (hclosed harmed)
        | failed err =>
            obtain rfl := Option.some.inj hrecv
            exact h.after (fun _ _ => rfl) (hclosed harmed)
      · exact absurd hstep nofun
  | send fd len =>
      rw [step] at hstep
      split at hstep
      · rename_i hguard
        obtain rfl := Option.some.inj hstep
        obtain ⟨hresource, hstatus⟩ := sendCb_chosen fs fd (H.server.slots fd) len
        have htaken := h.slots fd hguard.2.2.2
        rw [← hresource] at htaken
        refine ⟨(h.after (fun _ _ => rfl) fun _ => htaken).slots, ?_⟩
        intro a ha
        rcases List.mem_cons.mp ha with rfl | ha
        · refine ⟨htaken, (H.server.slots fd).retCode, ?_⟩
          rw [← hresource] at hstatus
          exact hstatus
        · exact h.answers a ha
      · exact absurd hstep nofun

/-- A request that is taken for a `GET` is got through wherever it is received. -/
theorem gotThrough_of_accepted (haccepted : Accepted bytes)
    (hpossible : (Received.data bytes).Possible) : GotThrough fs bytes := by
  intro sockfd es H fd _ harmed
  rw [step, if_pos ⟨harmed, hpossible⟩, recvCb_accepted fd _ haccepted]
  exact ⟨_, rfl⟩

/-- Clear requests are answered alike. -/
theorem independent_of_clear (h : Clear fs bytes) : Independent fs bytes := by
  intro hpossible
  obtain ⟨haccepted, hfile⟩ := h hpossible
  refine ⟨gotThrough_of_accepted haccepted hpossible, ?_⟩
  intro sockfd sockfd' es es' H H' hrun hrun' a ha a' ha' hbytes hbytes'
  have hinv : Inv fs H := run_keeps (fun _ _ _ => inv_step) es (inv_start fs sockfd) hrun
  have hinv' : Inv fs H' := run_keeps (fun _ _ _ => inv_step) es' (inv_start fs sockfd') hrun'
  obtain ⟨htaken, old, hstatus⟩ := hinv.answers a ha
  obtain ⟨htaken', old', hstatus'⟩ := hinv'.answers a' ha'
  rw [hbytes] at htaken
  rw [hbytes'] at htaken'
  have hresource := htaken haccepted
  have hresource' := htaken' haccepted
  refine ⟨hresource.trans hresource'.symm, ?_⟩
  rw [hstatus, hstatus', hresource, hresource']
  exact statusOf_congr hfile old old'

/-! ## What is left over -/

/-- The descriptor waits for a request, and its element has these two. -/
structure Ready (H : History) (fd : Nat) (resource : List UInt8) (status : Int) : Prop where
  armed : H.server.Armed fd .recv epollin
  resource : (H.server.slots fd).resource = resource
  status : (H.server.slots fd).retCode = status

/-- A new connection on a descriptor that was not used before. -/
theorem ready_accept (fs : FileSystem) :
    ∃ H, run (step fs) (startHistory 0) [.accept 0 1] = some H ∧
      Ready H 1 [] 0 ∧ H.answers = [] :=
  ⟨_, rfl, ⟨⟨rfl, rfl, rfl, rfl⟩, rfl, rfl⟩, rfl⟩

theorem slots_after_self (S : Server) (fd : Nat) (ev : NtyEvent) (closed : Bool) :
    (S.after fd ev closed).slots fd = ev := Function.update_self _ _ _

theorem isOpen_after_self (S : Server) (fd : Nat) (ev : NtyEvent) (closed : Bool) :
    (S.after fd ev closed).isOpen fd = !closed := Function.update_self _ _ _

/-- After an answer was sent the element waits for the next request. -/
theorem sendCb_again (fs : FileSystem) (fd : Nat) (ev : NtyEvent) :
    (sendCb fs fd ev 1).2.1 = false ∧ (sendCb fs fd ev 1).1.status = 1 ∧
      (sendCb fs fd ev 1).1.events = epollin ∧ (sendCb fs fd ev 1).1.callback = some .recv := by
  rw [sendCb]
  generalize httpResponse fs ev = r
  exact ⟨rfl, rfl, rfl, rfl⟩

/-- A request is received and answered. -/
theorem ready_round (fs : FileSystem) {resource : List UInt8} {status : Int} {ev : NtyEvent}
    (h : Ready H fd resource status) (hne : bytes ≠ []) (hlen : bytes.length ≤ bufferLength)
    (hrecv : recvCb fd (H.server.slots fd) (.data bytes) = some (waiting fd ev, false)) :
    ∃ H', run (step fs) H [.recv fd (.data bytes), .send fd 1] = some H' ∧
      Ready H' fd ev.resource (statusOf fs ev.resource ev.retCode) ∧
      H'.answers = ⟨bytes, ev.resource, statusOf fs ev.resource ev.retCode⟩ :: H.answers := by
  let H₁ : History :=
    { H with
      server := H.server.after fd (waiting fd ev) false
      asked := Function.update H.asked fd bytes }
  have hstep₁ : step fs H (.recv fd (.data bytes)) = some H₁ := by
    have hpossible : (Received.data bytes).Possible := ⟨hne, hlen⟩
    rw [step, if_pos ⟨h.armed, hpossible⟩, hrecv]
    rfl
  have hslot : H₁.server.slots fd = waiting fd ev := slots_after_self _ _ _ _
  have harmed : H₁.server.Armed fd .send epollout := by
    rw [Server.Armed, hslot]
    exact ⟨isOpen_after_self _ _ _ _, rfl, rfl, rfl⟩
  have hasked : H₁.asked fd = bytes := Function.update_self _ _ _
  obtain ⟨hclosed, hstatus, hevents, hcallback⟩ := sendCb_again fs fd (waiting fd ev)
  obtain ⟨hresource, hcode⟩ := sendCb_chosen fs fd (waiting fd ev) 1
  rw [resource_waiting] at hresource hcode
  rw [retCode_waiting] at hcode
  generalize hr : sendCb fs fd (waiting fd ev) 1 = r at *
  let H₂ : History :=
    { H₁ with
      server := H₁.server.after fd r.1 r.2.1
      answers := ⟨bytes, r.1.resource, r.1.retCode⟩ :: H.answers }
  have hstep₂ : step fs H₁ (.send fd 1) = some H₂ := by
    rw [step, if_pos harmed, hslot, hr, hasked]
  have hslot₂ : H₂.server.slots fd = r.1 := slots_after_self _ _ _ _
  refine ⟨H₂, ?_, ⟨⟨?_, ?_, ?_, ?_⟩, ?_, ?_⟩, ?_⟩
  · rw [run, hstep₁, Option.bind_some, run, hstep₂]
    rfl
  · exact (isOpen_after_self _ _ _ _).trans (congrArg _ hclosed)
  · rw [hslot₂, hstatus]
  · rw [hslot₂, hevents]
  · rw [hslot₂, hcallback]
  · rw [hslot₂, hresource]
  · rw [hslot₂, hcode]
  · rw [← hcode, ← hresource]

/-- An accepted request leaves its own path. -/
theorem ready_accepted (fs : FileSystem) {resource : List UInt8} {status : Int}
    (h : Ready H fd resource status) (haccepted : Accepted bytes) :
    ∃ H', run (step fs) H [.recv fd (.data bytes), .send fd 1] = some H' ∧
      Ready H' fd (resourceOf bytes) (statusOf fs (resourceOf bytes) status) ∧
      H'.answers =
        ⟨bytes, resourceOf bytes, statusOf fs (resourceOf bytes) status⟩ :: H.answers := by
  have hne : bytes ≠ [] := by
    intro heq
    subst heq
    exact absurd haccepted.blank List.not_mem_nil
  have hround := ready_round fs h hne (Nat.le_of_lt haccepted.request)
    (recvCb_accepted fd (H.server.slots fd) haccepted)
  rw [← h.status]
  exact hround

/-- One that is not leaves the path as it was. -/
theorem ready_ignored (fs : FileSystem) {resource : List UInt8} {status : Int}
    (h : Ready H fd resource status) (hne : bytes ≠ []) (hignored : Ignored bytes) :
    ∃ H', run (step fs) H [.recv fd (.data bytes), .send fd 1] = some H' ∧
      Ready H' fd resource (statusOf fs resource status) ∧
      H'.answers = ⟨bytes, resource, statusOf fs resource status⟩ :: H.answers := by
  have hround := ready_round fs h hne (Nat.le_of_lt hignored.request)
    (recvCb_ignored fd (H.server.slots fd) hignored)
  rw [← h.status, ← h.resource]
  exact hround

/-- Two rounds on a new connection. -/
theorem run_rounds (fs : FileSystem) {H₀ H₁ H₂ : History} {es es' : List Event}
    (h₀ : run (step fs) (startHistory 0) [.accept 0 1] = some H₀)
    (h₁ : run (step fs) H₀ es = some H₁) (h₂ : run (step fs) H₁ es' = some H₂) :
    run (step fs) (startHistory 0) ([.accept 0 1] ++ (es ++ es')) = some H₂ := by
  rw [run_append, h₀, Option.bind_some, run_append, h₁]
  exact h₂

/-- A request on a connection of its own, and the same behind another one. -/
theorem AnsweredAlike.behind {fs : FileSystem} {H₀ H₁ H₂ H₃ : History} {es es₂ es₃ : List Event}
    {a a' : Answer} (h : AnsweredAlike fs bytes)
    (h₀ : run (step fs) (startHistory 0) [.accept 0 1] = some H₀)
    (h₁ : run (step fs) H₀ es = some H₁) (h₂ : run (step fs) H₀ es₂ = some H₂)
    (h₃ : run (step fs) H₂ es₃ = some H₃) (ha : a ∈ H₁.answers) (ha' : a' ∈ H₃.answers)
    (hreq : a.request = bytes) (hreq' : a'.request = bytes) :
    a.resource = a'.resource ∧ a.status = a'.status := by
  have hend : run (step fs) H₁ [] = some H₁ := rfl
  exact h 0 0 _ _ H₁ H₃ (run_rounds fs h₀ h₁ hend) (run_rounds fs h₀ h₂ h₃) a ha a' ha' hreq hreq'

/-- A request that is not taken is answered as the one before it. -/
theorem not_alike_of_ignored (fs : FileSystem) (hne : bytes ≠ []) (h : Ignored bytes) :
    ¬ AnsweredAlike fs bytes := by
  intro hall
  have haccepted : Accepted indexRequest := ⟨⟨by decide, by decide⟩, by decide, by decide⟩
  obtain ⟨H₀, h₀, hready, hnone⟩ := ready_accept fs
  -- on a connection of its own, and behind a `GET`
  obtain ⟨H₁, h₁, -, halone⟩ := ready_ignored fs hready hne h
  obtain ⟨H₂, h₂, hready₂, -⟩ := ready_accepted fs hready haccepted
  obtain ⟨H₃, h₃, -, hbehind⟩ := ready_ignored fs hready₂ hne h
  have hsame := hall.behind h₀ h₁ h₂ h₃ (halone ▸ List.mem_cons_self)
    (hbehind ▸ List.mem_cons_self) rfl rfl
  have hdiffer : [] ≠ resourceOf indexRequest := List.cons_ne_nil _ _ |>.symm
  exact absurd hsame.1 hdiffer

/-- `POST / HTTP/1.1`. -/
def postRequest : List UInt8 :=
  [80, 79, 83, 84, 32, 47, 32, 72, 84, 84, 80, 47, 49, 46, 49, 13, 10, 13, 10]

theorem ignored_post : Ignored postRequest := ⟨⟨by decide, by decide⟩, by decide, by decide⟩

/-- The status of a file that is passed over is that of the request before. -/
theorem not_alike_of_other (fs : FileSystem) (haccepted : Accepted bytes)
    (hother : fs.file (resourceOf bytes) = some .other) : ¬ AnsweredAlike fs bytes := by
  intro hall
  have hkeeps : ∀ old, statusOf fs (resourceOf bytes) old = old := by
    intro old
    rw [statusOf, hother]
  have hmissing : statusOf fs [] 0 = 404 := by
    rw [statusOf, fs.file_nil]
  obtain ⟨H₀, h₀, hready, -⟩ := ready_accept fs
  obtain ⟨H₁, h₁, -, halone⟩ := ready_accepted fs hready haccepted
  -- a request without a path is answered with 404
  obtain ⟨H₂, h₂, hready₂, -⟩ :=
    ready_ignored fs hready (List.cons_ne_nil _ _) ignored_post
  obtain ⟨H₃, h₃, -, hbehind⟩ := ready_accepted fs hready₂ haccepted
  rw [hkeeps] at halone
  rw [hkeeps, hmissing] at hbehind
  have hsame := hall.behind h₀ h₁ h₂ h₃ (halone ▸ List.mem_cons_self)
    (hbehind ▸ List.mem_cons_self) rfl rfl
  have hdiffer : (0 : Int) ≠ 404 := by decide
  exact absurd hsame.2 hdiffer

/--
A request is got through and its answers are the same in every run, if and only if it is taken for a
`GET`, and its path is not that of something else than a directory or a regular file.
-/
theorem independent_iff_clear (fs : FileSystem) (bytes : List UInt8) :
    Independent fs bytes ↔ Clear fs bytes := by
  refine ⟨fun hall hpossible => ?_, independent_of_clear⟩
  obtain ⟨hthrough, halike⟩ := hall hpossible
  obtain ⟨H, hrun, hready, -⟩ := ready_accept fs
  obtain ⟨H', hstep⟩ := hthrough 0 _ H 1 hrun hready.armed
  rw [step, if_pos ⟨hready.armed, hpossible⟩] at hstep
  obtain ⟨r, hrecv, -⟩ := Option.map_eq_some_iff.mp hstep
  rcases accepted_or_ignored_of_recvCb hrecv with haccepted | hignored
  · exact ⟨haccepted, fun hother => not_alike_of_other fs haccepted hother halike⟩
  · exact absurd halike (not_alike_of_ignored fs hpossible.1 hignored)

theorem post_not_independent : ¬ ∀ fs bytes, Independent fs bytes := by
  intro hall
  have hpossible : (Received.data postRequest).Possible := ⟨List.cons_ne_nil _ _, by decide⟩
  exact not_alike_of_ignored noFiles (List.cons_ne_nil _ _) ignored_post
    (hall noFiles postRequest hpossible).2

end

end CppTrack.WebServer
