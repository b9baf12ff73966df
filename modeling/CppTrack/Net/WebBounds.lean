import CppTrack.Net.WebServer

/-!
# Which requests are read inside the arrays

Nothing in `recv_cb`, `readline` and `http_request` looks at the size of an array. What keeps them
inside is the request alone: how long it is, how long its first line is, and whether there is a
blank where `http_request` scans for one.
-/

namespace CppTrack.WebServer

/--
**A request is parsed inside the arrays**, whatever its bytes and whatever the element held, if and
only if it and its first line fit and the scan and the search on that line find an end.
-/
theorem parsed_in_bounds_iff (fd : Nat) (ev : NtyEvent) (bytes : List UInt8) :
    (∃ r, recvCb fd ev (.data bytes) = some r) ↔ Accepted bytes ∨ Ignored bytes := by
  constructor
  · rintro ⟨r, hr⟩
    exact accepted_or_ignored_of_recvCb hr
  · rintro (h | h)
    · exact ⟨_, recvCb_accepted fd ev h⟩
    · exact ⟨_, recvCb_ignored fd ev h⟩

/-- A line with no blank behind its fifth byte: the scan for one leaves the array. -/
theorem short_get_unsafe : ¬ ∀ fd ev bytes, 1 ≤ bytes.length → bytes.length ≤ bufferLength →
    ∃ r, recvCb fd ev (.data bytes) = some r := by
  intro h
  obtain ⟨r, hr⟩ := h 0 .zero getWord (by decide) (by decide)
  rcases accepted_or_ignored_of_recvCb hr with h | h
  · exact absurd h.blank (by decide)
  · exact absurd (show getWord <:+: requestLine getWord by decide) h.word

end CppTrack.WebServer
