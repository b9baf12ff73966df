import CppTrack.Lib.DotPath
import CppTrack.Net.WebServer

/-!
# The document root

The path of a response is the root and what the request has behind its fifth byte. Nothing looks at
the dots in it. What has to hold of them for the path to stay below the root is counted on the
request alone.
-/

namespace CppTrack.WebServer

open Lib

/-- What a component of a path does, if anything. -/
def component (c : List UInt8) : Option (Move (List UInt8)) :=
  if c = [] ∨ c = [dot] then none
  else if c = [dot, dot] then some .up
  else some (.down c)

/-- A path by its components. -/
def moves (path : List UInt8) : List (Move (List UInt8)) :=
  (path.splitOn slash).filterMap component

/-- The path, with its dots resolved, is `./html` or below it. -/
def UnderRoot (path : List UInt8) : Prop := (resolve (moves path)).Under htmlRoot

/-- The request is taken, and the path that it leaves behind, and every path that is opened to
answer it, is below the root. -/
def Confined (fs : FileSystem) (bytes : List UInt8) : Prop :=
  ∀ fd ev, ∃ ev', recvCb fd ev (.data bytes) = some (ev', false) ∧ UnderRoot ev'.resource ∧
    ∀ len, ∀ path ∈ (sendCb fs fd ev' len).2.2, UnderRoot path

/-- The path in the request goes up no further than down, or goes up out of the root by one level
and comes back by its name. -/
def InRoot (bytes : List UInt8) : Prop :=
  ClimbsAtMost 0 (moves (target bytes)) ∨ Reenters htmlRoot 1 (moves (target bytes))

section

variable {bytes : List UInt8}

theorem moves_resourceOf (bytes : List UInt8) :
    moves (resourceOf bytes) = .down htmlRoot :: moves (target bytes) := by
  have hsplit : (resourceOf bytes).splitOn slash =
      [dot] :: htmlRoot :: (target bytes).splitOn slash := by
    have hfirst : slash ∉ [dot] := by decide
    have hsecond : slash ∉ htmlRoot := by decide
    rw [show resourceOf bytes = [dot] ++ slash :: (htmlRoot ++ slash :: target bytes) from rfl,
      List.splitOn_append_cons_self_of_not_mem hfirst,
      List.splitOn_append_cons_self_of_not_mem hsecond]
  rw [moves, hsplit, List.filterMap_cons, List.filterMap_cons]
  rfl

theorem underRoot_resourceOf (bytes : List UInt8) :
    UnderRoot (resourceOf bytes) ↔ InRoot bytes := by
  rw [UnderRoot, moves_resourceOf, resolve_under_iff]
  rfl

/-- The answer to an accepted request is looked for where the request says. -/
theorem confined_iff_resourceOf (fs : FileSystem) (h : Accepted bytes) :
    Confined fs bytes ↔ UnderRoot (resourceOf bytes) := by
  have hresource : ∀ fd ev, (waiting fd { received ev bytes with
      method := httpMethodGet, resource := resourceOf bytes }).resource = resourceOf bytes :=
    fun fd ev => resource_waiting fd _
  constructor
  · intro hall
    obtain ⟨ev', hrecv, hunder, -⟩ := hall 0 .zero
    rw [recvCb_accepted 0 .zero h] at hrecv
    obtain ⟨rfl, -⟩ := Prod.mk.inj (Option.some.inj hrecv)
    rwa [hresource] at hunder
  · intro hunder fd ev
    refine ⟨_, recvCb_accepted fd ev h, ?_, ?_⟩
    · rw [hresource]
      exact hunder
    · intro len path hpath
      rw [(mem_opened_iff fs fd _ len path).mp hpath, hresource]
      exact hunder

/--
A request that is accepted is answered from below `./html`, whatever was there before it, if and
only if its path does not leave the root, or leaves it by one level and comes back by its name.
-/
theorem confined_iff (fs : FileSystem) (h : Accepted bytes) : Confined fs bytes ↔ InRoot bytes :=
  (confined_iff_resourceOf fs h).trans (underRoot_resourceOf bytes)

end

/-! ## Two requests -/

/-- `GET /index.html HTTP/1.1`. -/
def indexRequest : List UInt8 :=
  [71, 69, 84, 32, 47, 105, 110, 100, 101, 120, 46, 104, 116, 109, 108, 32, 72, 84, 84, 80, 47, 49,
    46, 49, 13, 10, 13, 10]

/-- No files at all. -/
def noFiles : FileSystem := ⟨fun _ => none, rfl⟩

theorem confined_index : Confined noFiles indexRequest := by
  have haccepted : Accepted indexRequest := ⟨⟨by decide, by decide⟩, by decide, by decide⟩
  have hmoves : moves (target indexRequest) =
      [.down [105, 110, 100, 101, 120, 46, 104, 116, 109, 108]] := rfl
  refine (confined_iff noFiles haccepted).mpr (.inl ?_)
  rw [hmoves]
  exact climbsAtMost_down.mpr (climbsAtMost_nil _)

/-- `GET /../../etc/passwd HTTP/1.1`. -/
def passwdRequest : List UInt8 :=
  [71, 69, 84, 32, 47, 46, 46, 47, 46, 46, 47, 101, 116, 99, 47, 112, 97, 115, 115, 119, 100, 32,
    72, 84, 84, 80, 47, 49, 46, 49, 13, 10, 13, 10]

theorem passwd_not_confined : ¬ ∀ fs bytes, Accepted bytes → Confined fs bytes := by
  intro hall
  have haccepted : Accepted passwdRequest := ⟨⟨by decide, by decide⟩, by decide, by decide⟩
  have hconfined := hall noFiles passwdRequest haccepted
  have hunder := (confined_iff_resourceOf noFiles haccepted).mp hconfined
  -- the path is resolved to one that begins with a parent
  have hparents : (resolve (moves (resourceOf passwdRequest))).parents = 1 := by decide
  exact absurd (hparents.symm.trans hunder.1) (by decide)

end CppTrack.WebServer
