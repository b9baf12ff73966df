import CppTrack.Lib.Blocks
import CppTrack.Lib.OnesComplement
import Mathlib.Data.Int.Bitwise

/-!
# The checksum of an ICMP reply (`icmp_arp_udp_success.c`)

`in_cksum` adds the words of a packet in an `int` and folds the sum. `echo_icmp_pkt` makes a reply
of a request: it changes the type, exchanges the addresses and puts the checksum of the ICMP header
into its field.

Words are little-endian, as the machine has them. A sum outside the `int` is `none`, as is a read
outside the packet.
-/

namespace CppTrack.Icmp

open Lib

/-- `a + b` on `int`. -/
def addInt (a b : Int) : Option Int :=
  if -2 ^ 31 ≤ a + b ∧ a + b < 2 ^ 31 then some (a + b) else none

/-- An `unsigned short` as it lies in memory. -/
def shortBytes (n : UInt16) : List UInt8 := [n.toUInt8, (n >>> 8).toUInt8]

/-- `*w`. -/
def readShort (addr : List UInt8) (w : Nat) : Option Nat := (copyOut addr w 2).map wordSum

/-- The loop of `in_cksum`, and the byte that it may leave. -/
def sumShorts (addr : List UInt8) : (nleft w : Nat) → (sum : Int) → Option Int
  | nleft + 2, w, sum => do
      let short ← readShort addr w
      let sum ← addInt sum short
      sumShorts addr nleft (w + 2) sum
  | 1, w, sum => do
      let byte ← addr[w]?
      addInt sum byte.toNat
  | 0, _, sum => some sum

/-- `in_cksum`. -/
def inCksum (addr : List UInt8) (len : Int) : Option UInt16 := do
  let sum ← sumShorts addr len.toNat 0 0
  -- `sum & 0xffff` is the remainder, also of a negative sum
  let sum ← addInt (sum >>> 16) (sum % 0x10000)
  let sum ← addInt sum (sum >>> 16)
  some (UInt16.ofNat (~~~sum % 0x10000).toNat)

/-- `struct ethhdr`. -/
structure EthHdr where
  hDest : Vector UInt8 6
  hSource : Vector UInt8 6
  hProto : UInt16

/-- `struct iphdr`. -/
structure IpHdr where
  version : UInt8
  tos : UInt8
  totLen : UInt16
  id : UInt16
  flagOff : UInt16
  ttl : UInt8
  protocol : UInt8
  check : UInt16
  saddr : UInt32
  daddr : UInt32

/-- `struct icmphdr`. -/
structure IcmpHdr where
  type : UInt8
  code : UInt8
  check : UInt16
  identifier : UInt16
  seq : UInt16
  data : Vector UInt8 32

/-- `struct icmppkt`. -/
structure IcmpPkt where
  eh : EthHdr
  ip : IpHdr
  icmp : IcmpHdr

/-- The header as it lies in memory; it is packed. -/
def IcmpHdr.bytes (h : IcmpHdr) : List UInt8 :=
  [h.type, h.code] ++ (shortBytes h.check ++
    (shortBytes h.identifier ++ shortBytes h.seq ++ h.data.toList))

/-- `sizeof(struct icmphdr)`. -/
def icmphdrSize : Nat := 40

/-- `echo_icmp_pkt`. -/
def echoIcmpPkt (icmp : IcmpPkt) : Option IcmpPkt := do
  let rt := icmp
  let rt := { rt with icmp := { rt.icmp with type := 0, code := 0, check := 0 } }
  let rt := { rt with ip := { rt.ip with saddr := icmp.ip.daddr, daddr := icmp.ip.saddr } }
  let rt := { rt with eh := { rt.eh with hDest := icmp.eh.hSource, hSource := icmp.eh.hDest } }
  let check ← inCksum rt.icmp.bytes icmphdrSize
  some { rt with icmp := { rt.icmp with check } }

section

variable {addr pre post : List UInt8}

theorem addInt_nat {a b : Nat} (h : a + b < 2 ^ 31) : addInt a b = some ((a + b : Nat) : Int) := by
  rw [addInt, if_pos (by omega), Int.natCast_add]

theorem shortBytes_length (n : UInt16) : (shortBytes n).length = 2 := rfl

theorem wordSum_shortBytes (n : UInt16) : wordSum (shortBytes n) = n.toNat := by
  have hlt : n.toNat < 65536 := n.toNat_lt
  simp only [shortBytes, wordSum]
  simp
  omega

/-- The loop adds the words of the bytes from `w` on. -/
theorem sumShorts_eq (todo pre : List UInt8) (sum : Nat) (hfit : sum + wordSum todo < 2 ^ 31) :
    sumShorts (pre ++ todo) todo.length pre.length sum =
      some ((sum + wordSum todo : Nat) : Int) := by
  induction todo using wordSum.induct generalizing pre sum with
  | case1 => rfl
  | case2 a =>
      have hbyte : (pre ++ [a])[pre.length]? = some a := by
        rw [List.getElem?_append_right (Nat.le_refl _), Nat.sub_self]
        rfl
      rw [List.length_singleton, sumShorts, hbyte, Option.bind_eq_bind, Option.bind_some]
      exact addInt_nat hfit
  | case3 a b bs ih =>
      have hshort : readShort (pre ++ (a :: b :: bs)) pre.length = some (wordSum [a, b]) := by
        have hout : copyOut (pre ++ ([a, b] ++ bs)) pre.length 2 = some [a, b] :=
          copyOut_middle rfl rfl
        exact congrArg (Option.map wordSum) hout
      have hsum : wordSum (a :: b :: bs) = wordSum [a, b] + wordSum bs :=
        wordSum_append [a, b] bs (Nat.mod_self 2)
      rw [hsum] at hfit ⊢
      have hrest := ih (pre ++ [a, b]) (sum + wordSum [a, b]) (by omega)
      rw [List.append_assoc, List.length_append] at hrest
      rw [List.length_cons, List.length_cons, sumShorts, hshort, Option.bind_eq_bind,
        Option.bind_some, addInt_nat (by omega), Option.bind_eq_bind, Option.bind_some]
      refine Eq.trans hrest ?_
      rw [Nat.add_assoc]

theorem shiftRight_nat (n : Nat) : (n : Int) >>> 16 = ((n / 65536 : Nat) : Int) :=
  Int.shiftRight_eq_div_pow n 16

/-- The lower half of a complement. -/
theorem not_mod_nat (n : Nat) : (~~~(n : Int) % 0x10000).toNat = 65535 - n % 65536 := by
  have hnot : ~~~(n : Int) = -((n : Int) + 1) := Int.negSucc_eq n
  rw [hnot]
  omega

/-- What `in_cksum` computes, when the sum of the words is an `int`: the complement of the one's
complement sum. -/
theorem inCksum_eq (hfit : wordSum addr < 2 ^ 31) :
    inCksum addr addr.length = some (UInt16.ofNat (65535 - onesSum addr)) := by
  have hsum : sumShorts addr addr.length 0 0 = some ((0 + wordSum addr : Nat) : Int) :=
    sumShorts_eq addr [] 0 (by omega)
  rw [Nat.zero_add] at hsum
  have hone : foldOnce (wordSum addr) < 2 ^ 31 := by
    unfold foldOnce
    omega
  have hfirst : addInt ((wordSum addr : Int) >>> 16) ((wordSum addr : Int) % 0x10000) =
      some (foldOnce (wordSum addr) : Int) := by
    rw [shiftRight_nat]
    exact addInt_nat hone
  have hsecond : addInt (foldOnce (wordSum addr)) ((foldOnce (wordSum addr) : Int) >>> 16) =
      some ((foldOnce (wordSum addr) + foldOnce (wordSum addr) / 65536 : Nat) : Int) := by
    rw [shiftRight_nat]
    refine addInt_nat ?_
    unfold foldOnce
    omega
  rw [inCksum, Int.toNat_natCast, hsum, Option.bind_eq_bind, Option.bind_some, hfirst,
    Option.bind_some, hsecond, Option.bind_some, not_mod_nat, ← foldTwice_wordSum hfit, foldTwice]

/-- The word sum of a packet with something in its field. -/
theorem wordSum_field (pre post : List UInt8) (hpre : pre.length % 2 = 0) (n : UInt16) :
    wordSum (pre ++ (shortBytes n ++ post)) =
      n.toNat + wordSum (pre ++ (shortBytes 0 ++ post)) := by
  have hfield : ∀ n, wordSum (pre ++ (shortBytes n ++ post)) =
      wordSum pre + (n.toNat + wordSum post) := by
    intro n
    rw [wordSum_append _ _ hpre, wordSum_append (shortBytes n) post (Nat.mod_self 2),
      wordSum_shortBytes]
  have hzero : (0 : UInt16).toNat = 0 := rfl
  rw [hfield n, hfield 0, hzero]
  omega

theorem wordSum_lt (h : addr.length ≤ 65536) : wordSum addr < 2 ^ 31 := by
  have hle := wordSum_le addr
  omega

/-- A packet with its checksum in its field sums to ones. -/
theorem inCksum_self_parts (pre post : List UInt8) (hpre : pre.length % 2 = 0)
    (hlen : (pre ++ (shortBytes 0 ++ post)).length ≤ 65536) :
    ∃ check, inCksum (pre ++ (shortBytes 0 ++ post)) (pre ++ (shortBytes 0 ++ post)).length =
        some check ∧
      onesSum (pre ++ (shortBytes check ++ post)) = 65535 ∧
      inCksum (pre ++ (shortBytes check ++ post)) (pre ++ (shortBytes check ++ post)).length =
        some 0 := by
  refine ⟨_, inCksum_eq (wordSum_lt hlen), ?_⟩
  rw [← foldTwice_wordSum (wordSum_lt hlen)]
  generalize hcheck : UInt16.ofNat (65535 - foldTwice (wordSum (pre ++ (shortBytes 0 ++ post)))) =
    check
  have hlen' : (pre ++ (shortBytes check ++ post)).length ≤ 65536 := by
    rw [List.length_append, List.length_append, shortBytes_length] at hlen ⊢
    exact hlen
  have hnat : check.toNat = 65535 - foldTwice (wordSum (pre ++ (shortBytes 0 ++ post))) := by
    rw [← hcheck]
    exact Nat.mod_eq_of_lt (Nat.lt_of_le_of_lt (Nat.sub_le _ _) (by decide))
  have hsum := wordSum_field pre post hpre check
  rw [hnat, Nat.add_comm] at hsum
  have hfit := wordSum_lt hlen'
  have hones : onesSum (pre ++ (shortBytes check ++ post)) = 65535 := by
    rw [← foldTwice_wordSum hfit, hsum, foldTwice_complement (hsum ▸ hfit)]
  refine ⟨hones, ?_⟩
  rw [inCksum_eq hfit, hones]
  rfl

/-- What stands at an even offset inside a packet. -/
theorem field_split {packet : List UInt8} {off : Nat} (hin : off + 2 ≤ packet.length) :
    ∃ pre mid post, packet = pre ++ (mid ++ post) ∧ pre.length = off ∧ mid.length = 2 := by
  refine ⟨packet.take off, (packet.drop off).take 2, (packet.drop off).drop 2, ?_, ?_, ?_⟩
  · rw [List.take_append_drop, List.take_append_drop]
  · rw [List.length_take]
    omega
  · rw [List.length_take, List.length_drop]
    omega

theorem icmphdr_bytes_length (h : IcmpHdr) : h.bytes.length = icmphdrSize := by
  simp [IcmpHdr.bytes, shortBytes, icmphdrSize]

end

/-- The checksum is valid: the words of the packet, it among them, sum to ones, and `in_cksum` gives
zero for them. -/
def Valid (packet : List UInt8) (len : Int) : Prop :=
  onesSum packet = 65535 ∧ inCksum packet len = some 0

/-- Put a checksum into the field of a packet, and compute it again. -/
def Verifies (packet : List UInt8) (off : Nat) : Prop :=
  ∃ zeroed check stored, copyTo packet off (shortBytes 0) = some zeroed ∧
    inCksum zeroed packet.length = some check ∧
    copyTo zeroed off (shortBytes check) = some stored ∧ Valid stored packet.length

theorem verifies_of {packet : List UInt8} {off : Nat} (hlen : packet.length ≤ 65536)
    (heven : off % 2 = 0) (hin : off + 2 ≤ packet.length) : Verifies packet off := by
  obtain ⟨pre, mid, post, rfl, rfl, hmid⟩ := field_split hin
  have hsame : ∀ n, (pre ++ (shortBytes n ++ post)).length = (pre ++ (mid ++ post)).length := by
    intro n
    rw [List.length_append, List.length_append, List.length_append, List.length_append, hmid,
      shortBytes_length]
  obtain ⟨check, hfirst, hones, hsecond⟩ := inCksum_self_parts pre post heven (hsame 0 ▸ hlen)
  rw [hsame] at hfirst hsecond
  exact ⟨_, check, _, copyTo_middle rfl hmid.symm, hfirst, copyTo_middle rfl rfl, hones, hsecond⟩

/-- The reply to a request, with something in its checksum. -/
def reply (icmp : IcmpPkt) (check : UInt16) : IcmpPkt where
  eh := { icmp.eh with hDest := icmp.eh.hSource, hSource := icmp.eh.hDest }
  ip := { icmp.ip with saddr := icmp.ip.daddr, daddr := icmp.ip.saddr }
  icmp := { icmp.icmp with type := 0, code := 0, check }

theorem echoIcmpPkt_eq (icmp : IcmpPkt) : echoIcmpPkt icmp =
    (inCksum (reply icmp 0).icmp.bytes icmphdrSize).bind fun check => some (reply icmp check) := rfl

theorem reply_bytes (icmp : IcmpPkt) : ∃ post, ∀ check,
    (reply icmp check).icmp.bytes = [0, 0] ++ (shortBytes check ++ post) :=
  ⟨shortBytes icmp.icmp.identifier ++ shortBytes icmp.icmp.seq ++ icmp.icmp.data.toList,
    fun _ => rfl⟩

theorem echoIcmpPkt_verifies (icmp : IcmpPkt) : ∃ rt, echoIcmpPkt icmp = some rt ∧
    Valid rt.icmp.bytes icmphdrSize := by
  obtain ⟨post, hbytes⟩ := reply_bytes icmp
  have hsize : ∀ check, ([0, 0] ++ (shortBytes check ++ post)).length = icmphdrSize := by
    intro check
    rw [← hbytes check]
    exact icmphdr_bytes_length _
  have hle : ([0, 0] ++ (shortBytes 0 ++ post)).length ≤ 65536 := by
    rw [hsize 0]
    decide
  obtain ⟨check, hfirst, hones, hsecond⟩ := inCksum_self_parts [0, 0] post (Nat.mod_self 2) hle
  rw [hsize 0, ← hbytes 0] at hfirst
  rw [hsize check, ← hbytes check] at hsecond
  rw [← hbytes check] at hones
  refine ⟨reply icmp check, ?_, hones, hsecond⟩
  rw [echoIcmpPkt_eq, hfirst, Option.bind_some]

/--
**The checksum verifies itself**: of every packet of up to `65536` bytes with a field at an even
offset, and of the header of every reply, no sum on the way being outside the `int`.
-/
theorem inCksum_verifies (packet : List UInt8) (off : Nat) (icmp : IcmpPkt)
    (hlen : packet.length ≤ 65536) (heven : off % 2 = 0) (hin : off + 2 ≤ packet.length) :
    Verifies packet off ∧ ∃ rt, echoIcmpPkt icmp = some rt ∧ Valid rt.icmp.bytes icmphdrSize :=
  ⟨verifies_of hlen heven hin, echoIcmpPkt_verifies icmp⟩

/-- An empty echo request. -/
def emptyRequest : IcmpPkt where
  eh := ⟨.replicate 6 1, .replicate 6 2, 8⟩
  ip := ⟨0x45, 0, 60, 0, 0, 64, 1, 0, 3, 4⟩
  icmp := ⟨8, 0, 0, 1, 1, .replicate 32 0⟩

/-- It, and a packet of five bytes. -/
theorem inCksum_verifies_odd : Verifies [8, 0, 1, 2, 255] 2 ∧
    ∃ rt, echoIcmpPkt emptyRequest = some rt ∧ Valid rt.icmp.bytes icmphdrSize :=
  inCksum_verifies [8, 0, 1, 2, 255] 2 emptyRequest (by decide) (by decide) (by decide)

end CppTrack.Icmp
