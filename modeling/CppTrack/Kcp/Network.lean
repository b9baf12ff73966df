import CppTrack.Kcp.Datagram
import CppTrack.Kcp.Receive
import CppTrack.Kcp.Send
import CppTrack.Lib.Countdown
import Mathlib.Logic.Function.Basic

/-!
# Two ends of KCP and the network between them

The network keeps every datagram that an end has ever sent, and may hand any of them to the other
end at any time: datagrams are lost, come late, overtake each other and come twice. Nothing else
arrives. Beside the two ends, the state records what their applications have sent and received, and
which pieces have been given a number.
-/

namespace CppTrack.Kcp

open Lib

/-- The fragment number and the data of a segment. -/
abbrev Piece : Type := IUINT32 × List UInt8

/-- How many pieces of the message come behind it. -/
def pieceTag (p : Piece) : Nat := p.1.toNat

/-- The data of the pieces, one after the other. -/
def joined (pieces : List Piece) : List UInt8 := pieces.flatMap Prod.snd

theorem merged_eq_joined (segs : List Ikcpseg) : merged segs = joined (segs.map Ikcpseg.piece) := by
  rw [merged, joined, List.flatMap_map]
  rfl

/-- The datagrams that a call gives to the output callback. -/
def datagrams (kcp : Ikcpcb) : Call → List (List UInt8)
  | .flush => ((ikcpFlush kcp).map Prod.snd).getD []
  | .update current => ((ikcpUpdate kcp current).map Prod.snd).getD []
  | _ => []

/-- The message that a call takes from the application. -/
def takenMessage (kcp : Ikcpcb) : Call → List (List UInt8)
  | .send buffer => if (ikcpSend kcp buffer).1 = 0 then [buffer] else []
  | _ => []

/-- The message that a call gives to the application, which is not one that is only looked at. -/
def givenMessage (kcp : Ikcpcb) : Call → List (List UInt8)
  | .recv len =>
      match ikcpRecv kcp len.1 with
      | some (n, buffer, _) => if 0 ≤ len.1 ∧ 0 ≤ n then [buffer] else []
      | none => []
  | _ => []

/-- The pieces that have left `snd_queue`. -/
def leftQueue (kcp kcp' : Ikcpcb) : List Piece :=
  (kcp.sndQueue.take (kcp.sndQueue.length - kcp'.sndQueue.length)).map Ikcpseg.piece

/-- The two ends, every datagram that each has sent, the messages that each has accepted from and
given to its application, and the pieces that each has given a number. -/
structure Net where
  node : Bool → Ikcpcb
  wire : Bool → List (List UInt8)
  accepted : Bool → List (List UInt8)
  got : Bool → List (List UInt8)
  numbered : Bool → List Piece

/-- Two new ends. -/
def Net.start (conv : Bool → IUINT32) : Net :=
  ⟨fun i => ikcpCreate (conv i), fun _ => [], fun _ => [], fun _ => [], fun _ => []⟩

/-- Only what the other end has sent comes in. -/
def Net.allowed (net : Net) (i : Bool) : Call → Bool
  | .input data => decide (data ∈ net.wire (!i))
  | _ => true

/-- The state after a call at one end. -/
def Net.after (net : Net) (i : Bool) (call : Call) (kcp : Ikcpcb) : Net where
  node := Function.update net.node i kcp
  wire := Function.update net.wire i (net.wire i ++ datagrams (net.node i) call)
  accepted := Function.update net.accepted i (net.accepted i ++ takenMessage (net.node i) call)
  got := Function.update net.got i (net.got i ++ givenMessage (net.node i) call)
  numbered := Function.update net.numbered i (net.numbered i ++ leftQueue (net.node i) kcp)

/-- One call at one of the ends. -/
def Net.step (net : Net) (e : Bool × Call) : Option Net :=
  if net.allowed e.1 e.2 then ((net.node e.1).call e.2).map (net.after e.1 e.2) else none

/-- `kcp->stream` stays 0. -/
def MessageMode (e : Bool × Call) : Prop :=
  ∀ stream rxMinrto fastresend, e.2 = .fields stream rxMinrto fastresend → stream = 0

/-- A segment is one of the numbered pieces, under its number. -/
def Honest (pieces : List Piece) (seg : Ikcpseg) : Prop :=
  ∃ k, pieces[k]? = some seg.piece ∧ seg.sn = BitVec.ofNat 32 k

end CppTrack.Kcp
