import CppTrack.Memory.MemPoolRelease

/-!
# What a pool hands out

Each block is used from the bottom up, so what is cut off it lies between its header and
`last`, and no two of these regions meet, as long as `last` stays within the block. That is
what `mp_alloc` may break: it rounds `last` up first, and when that passes the end, the room
`end - m` wraps round to almost everything. And what it takes from `malloc` is aligned as
`malloc` aligns.
-/

namespace CppTrack.Memory

open Lib

/-- What is handed out is inside the blocks, disjoint and aligned. -/
structure Disjoint (s : State) : Prop where
  inside : ∀ r ∈ s.handed, ∃ b ∈ s.pool.nodes,
    b.addr + sizeofNode ≤ r.start ∧ r.start + r.size ≤ b.end_
  apart : s.handed.Pairwise Region.Apart
  headers : ∀ r ∈ s.handed, r.Apart ⟨s.pool.addr, sizeofPool⟩ ∧
    ∀ b ∈ s.pool.nodes, r.Apart ⟨b.addr, sizeofNode⟩
  results : ∀ p ∈ s.results, mpAlignment ∣ p
  last : ∀ b ∈ s.pool.nodes, b.last ≤ b.end_

/-- A call goes through and leaves everything disjoint. -/
def CallRight (M : Malloc) (s : State) (c : Call) : Prop :=
  ∃ s', step M s c = some s' ∧ Disjoint s'

/-- The same of a pool from its beginning. Nothing is asked when it could not be had. -/
def PoolRight (M : Malloc) (junk size : Nat) (calls : List Call) : Prop :=
  match mpCreatePool M junk size with
  | none => False
  | some none => True
  | some (some s) => Disjoint s ∧ Meets (step M) (CallRight M) s calls

/-- The first node that passes the test does so without passing its end, or else the walk ends. -/
def CutInside (f : Nat → Nat) (size : Nat) (s : State) : Prop :=
  match (s.pool.nodes.drop s.pool.current).find? (Node.room f size) with
  | some b => f b.last ≤ b.end_
  | none => s.pool.next = 0

/-- No block is to be had. -/
def BlockRefused (M : Malloc) (s : State) : Prop :=
  ∀ head ∈ s.pool.nodes.head?,
    M.take s.calls s.live mpAlignment (subU64 head.end_ head.addr) = none

/-- Nothing can be cut off: no node passes the test, and there is no other block. -/
def Refused (M : Malloc) (f : Nat → Nat) (size : Nat) (s : State) : Prop :=
  (s.pool.nodes.drop s.pool.current).find? (Node.room f size) = none ∧ BlockRefused M s

/-- A record that `malloc`'s answer needs is cut off inside. -/
def LargeInside (M : Malloc) (size : Nat) (s : State) : Prop :=
  ∀ p, M.take s.calls s.live mallocAlignment size = some p → reuse p 0 s.pool.large = none →
    CutInside mpAlignPtr sizeofLarge s

/-- What `malloc` answers is aligned for the pool, or is given back for want of a record. -/
def LargeAligned (M : Malloc) (size : Nat) (s : State) : Prop :=
  ∀ p s', request M s mallocAlignment size = some (p, s') →
    mpAlignment ∣ p ∨ reuse p 0 s.pool.large = none ∧ Refused M mpAlignPtr sizeofLarge s'

/-- A request is cut off inside, or else the record is that it needs. -/
def Inside (M : Malloc) (f : Nat → Nat) (size : Nat) (s : State) : Prop :=
  (size ≤ s.pool.max → CutInside f size s) ∧ (s.pool.max < size → LargeInside M size s)

/-- A call cuts off inside the blocks, and gets aligned answers. -/
def StaysInside (M : Malloc) (s : State) : Call → Prop
  | .alloc size => Inside M mpAlignPtr size s ∧ (s.pool.max < size → LargeAligned M size s)
  | .nalloc size => Inside M id size s
  | .calloc size => Inside M mpAlignPtr size s ∧ (s.pool.max < size → LargeAligned M size s)
  | .memalign size alignment =>
      (M.take s.calls s.live alignment size).isSome → CutInside mpAlignPtr sizeofLarge s
  | .free _ => True
  | .reset => s.pool.next = 0

/-- A node without its failures. -/
def Node.core (b : Node) : Node := { b with failed := 0 }

/-- Where nothing else may be: the pool's header and the blocks, from and up to. -/
def Pool.spans (pool : Pool) : List (Nat × Nat) :=
  (pool.addr, pool.addr + sizeofPool) :: pool.nodes.map Node.frame

/-- One of two spans ends before the other starts. -/
def SpanApart (x y : Nat × Nat) : Prop := x.2 ≤ y.1 ∨ y.2 ≤ x.1

instance : Std.Symm SpanApart := ⟨fun _ _ => Or.symm⟩

/-- How a pool lies in memory. -/
structure Layout (s : State) : Prop where
  starts : (s.live.map Region.start).Nodup
  home : ∀ x ∈ s.pool.spans, ∃ r ∈ s.live, r.start ∈ s.pool.homes ∧
    r.start ≤ x.1 ∧ x.2 ≤ r.start + r.size
  spans : s.pool.spans.Pairwise SpanApart
  low : ∀ x ∈ s.pool.spans, x.2 ≤ 2 ^ 63
  max : sizeofLarge ≤ s.pool.max ∧ s.pool.max ≤ mpMaxAllocFromPool
  last : ∀ b ∈ s.pool.nodes.map Node.core, b.addr + sizeofNode ≤ b.last ∧ b.last ≤ b.end_
  handed : ∀ r ∈ s.handed, ∃ b ∈ s.pool.nodes.map Node.core,
    b.addr + sizeofNode ≤ r.start ∧ r.start + r.size ≤ b.last
  apart : s.handed.Pairwise Region.Apart
  results : ∀ p ∈ s.results, mpAlignment ∣ p

section

variable {M : Malloc} {f : Nat → Nat} {size n junk : Nat} {ps : List Nat}
  {s s' : State} {p : Nat}

/-! ## Layouts are disjoint -/

theorem frame_mem {b : Node} (h : b ∈ s.pool.nodes.map Node.core) :
    b.frame ∈ s.pool.nodes.map Node.frame := by
  obtain ⟨c, hc, rfl⟩ := List.mem_map.mp h
  exact List.mem_map.mpr ⟨c, hc, rfl⟩

theorem frames_of_core {nodes nodes' : List Node}
    (h : nodes.map Node.core = nodes'.map Node.core) :
    nodes.map Node.frame = nodes'.map Node.frame := by
  have hframes := congrArg (List.map Node.frame) h
  rwa [List.map_map, List.map_map] at hframes

theorem Layout.disjoint (h : Layout s) : Disjoint s := by
  have hcore : ∀ b ∈ s.pool.nodes, b.addr + sizeofNode ≤ b.last ∧ b.last ≤ b.end_ :=
    fun b hb => h.last b.core (List.mem_map_of_mem hb)
  refine ⟨fun r hr => ?_, h.apart, fun r hr => ?_, h.results, fun b hb => (hcore b hb).2⟩
  · obtain ⟨b, hb, hlo, hhi⟩ := h.handed r hr
    obtain ⟨c, hc, rfl⟩ := List.mem_map.mp hb
    exact ⟨c, hc, hlo, Nat.le_trans hhi (hcore c hc).2⟩
  · obtain ⟨b, hb, hlo, hhi⟩ := h.handed r hr
    have hlast := h.last b hb
    obtain ⟨hpool, hblocks⟩ := List.pairwise_cons.mp h.spans
    unfold Region.Apart
    refine ⟨?_, fun c hc => ?_⟩
    · have := hpool b.frame (frame_mem hb)
      unfold SpanApart Node.frame at this
      simp only at this ⊢
      omega
    · by_cases hcb : c.frame = b.frame
      · exact .inr ((Prod.mk.inj hcb).1 ▸ hlo)
      · have := hblocks.forall (List.mem_map_of_mem hc) (frame_mem hb) hcb
        have := hcore c hc
        unfold SpanApart Node.frame at *
        simp only at *
        omega

/-! ## Asking the allocator -/

/-- The pool stays where it is. -/
theorem Layout.congr (h : Layout s) (hpool : s'.pool.spans = s.pool.spans)
    (hhomes : s'.pool.homes = s.pool.homes) (hmax : s'.pool.max = s.pool.max)
    (hcore : s'.pool.nodes.map Node.core = s.pool.nodes.map Node.core)
    (hlive : s'.live = s.live) (hhanded : s'.handed = s.handed)
    (hresults : s'.results = s.results) :
    Layout s' := by
  refine ⟨hlive ▸ h.starts, ?_, hpool ▸ h.spans, hpool ▸ h.low, hmax ▸ h.max, hcore ▸ h.last, ?_,
    hhanded ▸ h.apart, hresults ▸ h.results⟩
  · rw [hpool, hhomes, hlive]
    exact h.home
  · rw [hhanded, hcore]
    exact h.handed

theorem Layout.request {align : Nat} (h : Layout s)
    (hreq : request M s align size = some (p, s')) : Layout s' := by
  obtain ⟨q, htake, hq⟩ := Option.map_eq_some_iff.mp hreq
  simp only [Prod.mk.injEq] at hq
  obtain ⟨rfl, rfl⟩ := hq
  refine ⟨?_, fun x hx => ?_, h.spans, h.low, h.max, h.last, h.handed, h.apart, h.results⟩
  · rw [handOut_start]
    unfold requested
    split
    · exact h.starts
    · rename_i hq
      refine List.nodup_cons.mpr ⟨fun hmem => ?_, h.starts⟩
      obtain ⟨r, hr, hstart⟩ := List.mem_map.mp hmem
      exact (M.fresh htake hq r hr).1 hstart
  · obtain ⟨r, hr, hhome⟩ := h.home x hx
    refine ⟨r, ?_, hhome⟩
    unfold handOut
    split
    · exact hr
    · exact List.mem_cons_of_mem _ hr

/-- Giving back what is not the pool's leaves it where it is. -/
theorem Layout.freed {live : List Region} (h : Layout s) (hsub : live.Sublist s.live)
    (hstay : ∀ r ∈ s.live, r.start ∈ s.pool.homes → r ∈ live) :
    Layout { s with live := live } := by
  refine ⟨(hsub.map _).nodup h.starts, fun x hx => ?_, h.spans, h.low, h.max, h.last, h.handed,
    h.apart, h.results⟩
  obtain ⟨r, hr, hhome, hle⟩ := h.home x hx
  exact ⟨r, hstay r hr hhome, hhome, hle⟩

/-- What is not the pool's is not where a block is. -/
theorem Owns.not_home (h : Owns n junk ps s) (hl : Layout s) (hp : p ∈ ps ++ s.pool.allocs) :
    p ∉ s.pool.homes := by
  have hnodup := h.live.nodup_iff.mp hl.starts
  rw [Pool.owned, ← List.append_assoc] at hnodup
  exact fun hhome => (List.nodup_append.mp hnodup).2.2 p hp p hhome rfl

/-! ## Cutting off -/

/-- The other nodes are away from one of them. -/
theorem Layout.others {pre post : List Node} {b : Node} (h : Layout s)
    (hnodes : s.pool.nodes = pre ++ b :: post) :
    ∀ c ∈ pre ++ post, SpanApart b.frame c.frame := by
  have hframes := (List.pairwise_cons.mp h.spans).2
  rw [hnodes] at hframes
  have hperm : ((pre ++ b :: post).map Node.frame).Perm ((b :: (pre ++ post)).map Node.frame) :=
    List.Perm.map Node.frame List.perm_middle
  have hmiddle := (hperm.pairwise_iff fun {_ _} => Or.symm).mp hframes
  exact fun c hc => (List.pairwise_cons.mp hmiddle).1 c.frame (List.mem_map_of_mem hc)

/-- A region is cut off a node above its `last`. -/
theorem Layout.cut {pre post : List Node} {b : Node} {m : Nat} (h : Layout s)
    (hnodes : s.pool.nodes = pre ++ b :: post) (hm : b.last ≤ m) (hend : m + size ≤ b.end_) :
    Layout
      { s with
        pool := { s.pool with nodes := pre ++ { b with last := m + size } :: post }
        handed := ⟨m, size⟩ :: s.handed } := by
  have hothers := h.others hnodes
  have hlast : ∀ c ∈ pre ++ b :: post, c.addr + sizeofNode ≤ c.last ∧ c.last ≤ c.end_ :=
    fun c hc => h.last c.core (List.mem_map_of_mem (hnodes ▸ hc))
  have hb := hlast b (List.mem_append_right _ List.mem_cons_self)
  have hframes : (pre ++ { b with last := m + size } :: post).map Node.frame =
      s.pool.nodes.map Node.frame := by
    rw [hnodes, List.map_append, List.map_append]
    rfl
  have hspans : Pool.spans { s.pool with nodes := pre ++ { b with last := m + size } :: post } =
      s.pool.spans := congrArg (_ :: ·) hframes
  have hhomes : Pool.homes { s.pool with nodes := pre ++ { b with last := m + size } :: post } =
      s.pool.homes := by
    unfold Pool.homes
    simp only [hframes]
  -- a region handed out before lies in this block below `last`, or in another
  have hold : ∀ r ∈ s.handed, b.addr + sizeofNode ≤ r.start ∧ r.start + r.size ≤ b.last ∨
      ∃ c ∈ pre ++ post, c.addr + sizeofNode ≤ r.start ∧ r.start + r.size ≤ c.last := by
    intro r hr
    obtain ⟨c, hc, hlo, hhi⟩ := h.handed r hr
    obtain ⟨d, hd, rfl⟩ := List.mem_map.mp hc
    rw [hnodes] at hd
    rcases List.mem_cons.mp (List.perm_middle.mem_iff.mp hd) with rfl | hd
    · exact .inl ⟨hlo, hhi⟩
    · exact .inr ⟨d, hd, hlo, hhi⟩
  refine ⟨h.starts, ?_, hspans ▸ h.spans, hspans ▸ h.low, h.max, ?_, ?_, ?_, h.results⟩
  · rw [hspans, hhomes]
    exact h.home
  · intro c hc
    obtain ⟨d, hd, rfl⟩ := List.mem_map.mp hc
    rcases List.mem_cons.mp (List.perm_middle.mem_iff.mp hd) with rfl | hd
    · show b.addr + sizeofNode ≤ m + size ∧ m + size ≤ b.end_
      omega
    · exact hlast d (List.perm_middle.mem_iff.mpr (List.mem_cons_of_mem _ hd))
  · intro r hr
    rcases List.mem_cons.mp hr with rfl | hr
    · refine ⟨_, List.mem_map_of_mem (List.mem_append_right _ List.mem_cons_self), ?_, ?_⟩
      · show b.addr + sizeofNode ≤ m
        omega
      · exact le_refl (m + size)
    · rcases hold r hr with ⟨hlo, hhi⟩ | ⟨c, hc, hlo, hhi⟩
      · refine ⟨_, List.mem_map_of_mem (List.mem_append_right _ List.mem_cons_self), hlo, ?_⟩
        show r.start + r.size ≤ m + size
        omega
      · exact ⟨c.core,
          List.mem_map_of_mem (List.perm_middle.mem_iff.mpr (List.mem_cons_of_mem _ hc)), hlo, hhi⟩
  · refine List.pairwise_cons.mpr ⟨fun r hr => ?_, h.apart⟩
    unfold Region.Apart
    rcases hold r hr with ⟨hlo, hhi⟩ | ⟨c, hc, hlo, hhi⟩
    · exact .inr (Nat.le_trans hhi hm)
    · have hclast := hlast c (List.perm_middle.mem_iff.mpr (List.mem_cons_of_mem _ hc))
      have hspan := hothers c hc
      unfold SpanApart Node.frame at hspan
      simp only at hspan ⊢
      omega

/-- A block is put at the end of the chain, and a region is cut off it. -/
theorem Layout.addBlock {nodes : List Node} {m current : Nat} (h : Layout s)
    (hcons : s.pool.nodes ≠ [])
    (hcore : nodes.map Node.core = s.pool.nodes.map Node.core) (hsize : size ≤ n)
    (hlow : m + (sizeofNode + n) ≤ 2 ^ 63) (hlive : ⟨m, sizeofNode + n⟩ ∈ s.live)
    (hfresh : ∀ x ∈ s.pool.spans, SpanApart x (m, m + (sizeofNode + n))) :
    Layout
      { s with
        pool :=
          { s.pool with
            current := current
            nodes := nodes ++ [⟨m, m + sizeofNode + size, m + (sizeofNode + n), 0⟩] }
        handed := ⟨m + sizeofNode, size⟩ :: s.handed } := by
  let b : Node := ⟨m, m + sizeofNode + size, m + (sizeofNode + n), 0⟩
  -- the walk to `current` changes `failed` alone, which no frame depends on
  have hcore' : (nodes ++ [b]).map Node.core = s.pool.nodes.map Node.core ++ [b] := by
    rw [List.map_append, hcore]
    rfl
  have hframes : (nodes ++ [b]).map Node.frame = s.pool.nodes.map Node.frame ++ [b.frame] := by
    rw [List.map_append, frames_of_core hcore]
    rfl
  have hspans : Pool.spans { s.pool with current := current, nodes := nodes ++ [b] } =
      s.pool.spans ++ [b.frame] := congrArg (_ :: ·) hframes
  have hhomes : Pool.homes { s.pool with current := current, nodes := nodes ++ [b] } =
      (s.pool.nodes.map Node.frame).tail.map Prod.fst ++ [m] ++ [s.pool.addr] := by
    unfold Pool.homes
    simp only [hframes]
    rw [List.tail_append_of_ne_nil (fun hnil => hcons (List.map_eq_nil_iff.mp hnil)),
      List.map_append]
    rfl
  refine ⟨h.starts, ?_, ?_, ?_, h.max, ?_, ?_, ?_, h.results⟩
  · rw [hspans, hhomes]
    intro x hx
    rcases List.mem_append.mp hx with hx | hx
    · obtain ⟨r, hr, hhome, hle⟩ := h.home x hx
      refine ⟨r, hr, ?_, hle⟩
      rw [List.append_assoc]
      rcases List.mem_append.mp hhome with hhome | hhome
      · exact List.mem_append_left _ hhome
      · exact List.mem_append_right _ (List.mem_append_right _ hhome)
    · rw [List.mem_singleton.mp hx]
      exact ⟨_, hlive, List.mem_append_left _ (List.mem_append_right _ List.mem_cons_self),
        le_refl _, le_refl _⟩
  · rw [hspans]
    refine List.pairwise_append.mpr ⟨h.spans, List.pairwise_singleton .., fun x hx y hy => ?_⟩
    rw [List.mem_singleton.mp hy]
    exact hfresh x hx
  · rw [hspans]
    intro x hx
    rcases List.mem_append.mp hx with hx | hx
    · exact h.low x hx
    · rw [List.mem_singleton.mp hx]
      exact hlow
  · show ∀ c ∈ (nodes ++ [b]).map Node.core, _
    rw [hcore']
    intro c hc
    rcases List.mem_append.mp hc with hc | hc
    · exact h.last c hc
    · rw [List.mem_singleton.mp hc]
      show m + sizeofNode ≤ m + sizeofNode + size ∧
        m + sizeofNode + size ≤ m + (sizeofNode + n)
      omega
  · show ∀ r ∈ _ :: s.handed, ∃ c ∈ (nodes ++ [b]).map Node.core, _
    rw [hcore']
    intro r hr
    rcases List.mem_cons.mp hr with rfl | hr
    · exact ⟨b, List.mem_append_right _ List.mem_cons_self, le_refl _, le_refl _⟩
    · obtain ⟨c, hc, hle⟩ := h.handed r hr
      exact ⟨c, List.mem_append_left _ hc, hle⟩
  · refine List.pairwise_cons.mpr ⟨fun r hr => ?_, h.apart⟩
    -- what was handed out is inside an older node, and the new one is apart from those
    obtain ⟨c, hc, hlo, hhi⟩ := h.handed r hr
    have hspan := hfresh c.frame (List.mem_cons_of_mem _ (frame_mem hc))
    have hlast := h.last c hc
    unfold Region.Apart
    unfold SpanApart Node.frame at hspan
    simp only at hspan ⊢
    omega

/-! ## Small requests -/

/-- How a pointer is rounded. -/
structure Rounds (f : Nat → Nat) : Prop where
  le : ∀ p, p ≤ 2 ^ 63 → p ≤ f p
  lt : ∀ p, p ≤ 2 ^ 63 → f p < p + mpAlignment

theorem rounds_id : Rounds id := ⟨fun _ _ => le_refl _, fun p _ => by
  show p < p + mpAlignment
  unfold mpAlignment
  omega⟩

theorem mpAlignPtr_dvd (p : Nat) : mpAlignment ∣ mpAlignPtr p := Nat.dvd_mul_left ..

theorem rounds_align : Rounds mpAlignPtr :=
  ⟨fun p h => (mpAlignPtr_spec (by unfold mpAlignment; omega)).1,
    fun p h => (mpAlignPtr_spec (by unfold mpAlignment; omega)).2.1⟩

/-- What the test says about a node, where `last` is within the block. -/
theorem room_spec {b : Node} (hf : Rounds f) (hlast : b.last ≤ b.end_) (hlow : b.end_ ≤ 2 ^ 63)
    (hsize : size ≤ mpMaxAllocFromPool) (hroom : b.room f size = true) :
    b.last ≤ f b.last ∧ (f b.last ≤ b.end_ → f b.last + size ≤ b.end_) ∧
      f b.last + size < 2 ^ 64 := by
  have hle := hf.le b.last (Nat.le_trans hlast hlow)
  have hlt := hf.lt b.last (Nat.le_trans hlast hlow)
  have htest := of_decide_eq_true hroom
  unfold subU64 at htest
  unfold mpAlignment mpMaxAllocFromPool at *
  omega

/-- The node a request is cut off from. -/
theorem Layout.found {b : Node} (h : Layout s) (hf : Rounds f) (hsize : size ≤ mpMaxAllocFromPool)
    (hfind : (s.pool.nodes.drop s.pool.current).find? (Node.room f size) = some b) :
    b.addr + sizeofNode ≤ b.last ∧ b.last ≤ b.end_ ∧ b.last ≤ f b.last ∧
      (f b.last ≤ b.end_ → f b.last + size ≤ b.end_) ∧ f b.last + size < 2 ^ 64 := by
  have hmem : b ∈ s.pool.nodes := List.mem_of_mem_drop (List.mem_of_find?_eq_some hfind)
  obtain ⟨hfirst, hlast⟩ := h.last b.core (List.mem_map_of_mem hmem)
  have hlow : b.end_ ≤ 2 ^ 63 := h.low b.frame (List.mem_cons_of_mem _ (List.mem_map_of_mem hmem))
  exact ⟨hfirst, hlast, room_spec hf hlast hlow hsize (List.find?_some hfind)⟩

theorem mpAllocBlock_layout {r : Ptr} (h : Owns n junk ps s) (hl : Layout s) (hsize : size ≤ n)
    (hblock : mpAllocBlock M size s = some (r, s')) :
    Layout s' ∧ s'.results = s.results ∧ mpAlignment ∣ r.addr ∧
      (r.addr = 0 ↔ BlockRefused M s) := by
  obtain ⟨head, nodes, hnodes⟩ := List.exists_cons_of_length_pos (Nat.zero_lt_of_lt h.current)
  have hrefused : BlockRefused M s ↔ M.take s.calls s.live mpAlignment (sizeofNode + n) = none := by
    unfold BlockRefused
    simp [hnodes, block_size h hnodes]
  unfold mpAllocBlock at hblock
  rw [hnodes] at hblock
  simp only [block_size h hnodes] at hblock
  cases hreq : request M s mpAlignment (sizeofNode + n) with
  | none =>
      rw [hreq] at hblock
      simp only [Option.some.injEq, Prod.mk.injEq] at hblock
      obtain ⟨rfl, rfl⟩ := hblock
      refine ⟨hl.congr rfl rfl rfl rfl rfl rfl rfl, rfl, Nat.dvd_zero _, iff_of_true rfl ?_⟩
      exact hrefused.mpr (Option.map_eq_none_iff.mp hreq)
  | some x =>
      obtain ⟨m, s₁⟩ := x
      have hl₁ := hl.request hreq
      obtain ⟨q, htake, hq⟩ := Option.map_eq_some_iff.mp hreq
      simp only [Prod.mk.injEq] at hq
      obtain ⟨rfl, rfl⟩ := hq
      have hm : q ≠ 0 := by
        rintro rfl
        have := M.null htake
        unfold sizeofNode at this
        omega
      have hdvd : mpAlignment ∣ q + sizeofNode := Nat.dvd_add (M.aligned htake) (by decide)
      have hlow := M.low htake
      have hstart : mpAlignPtr (q + sizeofNode) = q + sizeofNode :=
        mpAlignPtr_of_dvd hdvd (by unfold sizeofNode mpAlignment at *; omega)
      rw [hreq] at hblock
      simp only [hstart] at hblock
      rw [addU64_of_lt (a := q + sizeofNode) (b := size) (by omega)] at hblock
      split at hblock
      · simp only [Option.some.injEq, Prod.mk.injEq] at hblock
        obtain ⟨rfl, rfl⟩ := hblock
        refine ⟨hl₁.addBlock ?_ ?_ hsize hlow ?_ ?_, rfl, hdvd, iff_of_false ?_ ?_⟩
        · show s.pool.nodes ≠ []
          rw [hnodes]
          exact List.cons_ne_nil _ _
        · rw [List.map_append, passOver_map _ fun _ _ => rfl, ← List.map_append,
            List.take_append_drop]
        · simp only [handOut, if_neg hm]
          exact List.mem_cons_self
        · intro x hx
          obtain ⟨r, hr, -, hlo, hhi⟩ := hl.home x hx
          have hapart := (M.fresh htake hm r hr).2
          unfold SpanApart
          unfold Region.Apart at hapart
          simp only at hapart ⊢
          omega
        · exact Nat.ne_of_gt (Nat.add_pos_left (Nat.pos_of_ne_zero hm) _)
        · rw [hrefused, htake]
          exact Option.some_ne_none _
      · exact absurd hblock (Option.some_ne_none _).symm

/-- A small request is cut off inside, or leaves a node that is used up past its end. -/
theorem fromBlocks_layout {r : Ptr} (hf : Rounds f) (h : Owns n junk ps s) (hl : Layout s)
    (hn : size ≤ n) (hsize : size ≤ mpMaxAllocFromPool)
    (hblocks : fromBlocks M f size s = some (r, s')) :
    (CutInside f size s → Layout s') ∧
      (¬ CutInside f size s → ∃ b ∈ s'.pool.nodes, b.end_ < b.last) ∧
      s'.results = s.results ∧ ((∀ p, mpAlignment ∣ f p) → mpAlignment ∣ r.addr) ∧
      (r.addr = 0 ↔ Refused M f size s) := by
  unfold fromBlocks at hblocks
  unfold CutInside Refused
  cases hwalk : walk f size (s.pool.nodes.drop s.pool.current) with
  | some x =>
      obtain ⟨m, bs⟩ := x
      rw [hwalk] at hblocks
      simp only [Option.some.injEq, Prod.mk.injEq] at hblocks
      obtain ⟨rfl, rfl⟩ := hblocks
      obtain ⟨pre, b, post, hbs, rfl, rfl, hfind⟩ := walk_eq_some hwalk
      have hnodes : s.pool.nodes = (s.pool.nodes.take s.pool.current ++ pre) ++ b :: post := by
        rw [List.append_assoc, ← hbs, List.take_append_drop]
      obtain ⟨hfirst, hlast, hle, hend, hlt⟩ := hl.found hf hsize hfind
      simp only [hfind, ← List.append_assoc]
      rw [addU64_of_lt hlt]
      refine ⟨fun hcut => hl.cut hnodes hle (hend hcut), fun hcut => ?_, trivial, fun hd => hd _,
        iff_of_false ?_ nofun⟩
      · refine ⟨_, List.mem_append_right _ List.mem_cons_self, ?_⟩
        show b.end_ < f b.last + size
        omega
      · show f b.last ≠ 0
        unfold sizeofNode at hfirst
        omega
  | none =>
      have hnone := walk_eq_none hwalk
      simp only [hwalk] at hblocks
      simp only [hnone]
      by_cases hnext : s.pool.next = 0
      · rw [if_pos hnext] at hblocks
        obtain ⟨hl', hresults, hdvd, hrefused⟩ := mpAllocBlock_layout h hl hn hblocks
        exact ⟨fun _ => hl', fun hnot => absurd hnext hnot, hresults, fun _ => hdvd,
          by simpa using hrefused⟩
      · rw [if_neg hnext] at hblocks
        exact absurd hblocks nofun

/-! ## Large requests -/

/-- A record is cut off inside if and only if it can be. -/
theorem recordFits_iff (hl : Layout s) :
    RecordFits s ↔ CutInside mpAlignPtr sizeofLarge s := by
  unfold RecordFits Ends Fits CutInside
  simp only [hl.max.1, true_and]
  cases hfind : (s.pool.nodes.drop s.pool.current).find? (Node.room mpAlignPtr sizeofLarge) with
  | none => simp
  | some b =>
      obtain ⟨hfirst, hlast, hle, hend, -⟩ :=
        hl.found rounds_align (show sizeofLarge ≤ mpMaxAllocFromPool by decide) hfind
      simp only [Option.some.injEq, forall_eq', reduceCtorEq, false_imp_iff, true_and]
      unfold Ptr.Writable
      unfold sizeofLarge sizeofNode at *
      constructor
      · rintro (h0 | h0 | hw)
        · omega
        · exact absurd h0 (by decide)
        · simp only at hw
          omega
      · exact fun hcut => .inr (.inr (hend hcut))

theorem newRecord_layout {x : Nat × State} (h : Owns n junk (requested p) s) (hl : Layout s)
    (hrecord : newRecord M p s = some x) :
    Layout x.2 ∧ x.2.results = s.results ∧
      (x.1 = p ∧ ¬ Refused M mpAlignPtr sizeofLarge s ∨
        x.1 = 0 ∧ Refused M mpAlignPtr sizeofLarge s) := by
  have hfits : RecordFits s := by
    by_contra hnot
    rw [(newRecord_owns (M := M) h).2 hnot] at hrecord
    exact absurd hrecord (Option.some_ne_none _).symm
  obtain ⟨r, s', hblocks, h', -⟩ := (fromBlocks_owns (M := M) (f := mpAlignPtr) h
    (Nat.le_trans hl.max.1 h.max)).1 hfits.2.1
  obtain ⟨hin, -, hresults, -, hrefused⟩ := fromBlocks_layout rounds_align h hl
    (Nat.le_trans hl.max.1 h.max) (show sizeofLarge ≤ mpMaxAllocFromPool by decide) hblocks
  have hl' := hin ((recordFits_iff hl).mp hfits)
  unfold newRecord at hrecord
  rw [if_pos hl.max.1, hblocks, Option.bind_some] at hrecord
  simp only at hrecord
  split at hrecord
  · rename_i hr
    obtain ⟨live, hfree, rfl⟩ := Option.map_eq_some_iff.mp hrecord
    refine ⟨?_, hresults, .inr ⟨rfl, hrefused.mp hr⟩⟩
    by_cases hp : p = 0
    · rw [hp, free, if_pos rfl] at hfree
      exact Option.some.inj hfree ▸ hl'
    · have hmem : p ∈ requested p ++ s'.pool.allocs := by
        rw [requested, if_neg hp]
        exact List.mem_cons_self
      refine hl'.freed ?_ fun r hr hhome => mem_free hfree hr ?_
      · unfold free at hfree
        rw [if_neg hp] at hfree
        split at hfree
        · exact Option.some.inj hfree ▸ List.eraseP_sublist
        · exact absurd hfree (Option.some_ne_none _).symm
      · exact fun hstart => h'.not_home hl' hmem (hstart ▸ hhome)
  · rename_i hr
    split at hrecord
    · obtain rfl := Option.some.inj hrecord
      exact ⟨hl'.congr rfl rfl rfl rfl rfl rfl rfl, hresults,
        .inl ⟨rfl, fun href => hr (hrefused.mpr href)⟩⟩
    · exact absurd hrecord (Option.some_ne_none _).symm

theorem largeFits_iff (hl : Layout s) :
    LargeFits M size s ↔ LargeInside M size s := by
  unfold LargeFits LargeInside
  rw [recordFits_iff hl]

theorem mpAllocLarge_layout {r : Ptr} (h : Owns n junk [] s) (hl : Layout s)
    (hsize : s.pool.max < size)
    (hlarge : mpAllocLarge M size s = some (r, s')) :
    Layout s' ∧ s'.results = s.results ∧ (mpAlignment ∣ r.addr ↔ LargeAligned M size s) := by
  unfold mpAllocLarge at hlarge
  unfold LargeAligned
  cases hreq : request M s mallocAlignment size with
  | none =>
      simp only [hreq, Option.some.injEq, Prod.mk.injEq] at hlarge
      obtain ⟨rfl, rfl⟩ := hlarge
      exact ⟨hl.congr rfl rfl rfl rfl rfl rfl rfl, rfl, iff_of_true (Nat.dvd_zero _) (by simp)⟩
  | some x =>
      obtain ⟨p, s₁⟩ := x
      obtain ⟨h₁, hpool, htake⟩ := h.request hreq
      have hl₁ := hl.request hreq
      have hresults₁ : s₁.results = s.results := by
        obtain ⟨q, -, hq⟩ := Option.map_eq_some_iff.mp hreq
        exact (Prod.mk.inj hq).2 ▸ rfl
      rw [List.append_nil] at h₁
      have hp : p ≠ 0 := fun h0 => Nat.not_lt_zero _ (M.null (h0 ▸ htake) ▸ hsize)
      have haligned : (∀ q t, some (p, s₁) = some (q, t) →
          mpAlignment ∣ q ∨ reuse q 0 s.pool.large = none ∧ Refused M mpAlignPtr sizeofLarge t) ↔
          mpAlignment ∣ p ∨ reuse p 0 s.pool.large = none ∧
            Refused M mpAlignPtr sizeofLarge s₁ := by
        refine ⟨fun hall => hall p s₁ rfl, fun hor q t heq => ?_⟩
        simp only [Option.some.injEq, Prod.mk.injEq] at heq
        obtain ⟨rfl, rfl⟩ := heq
        exact hor
      rw [haligned]
      simp only [hreq, hpool] at hlarge
      cases hreuse : reuse p 0 s.pool.large with
      | some large =>
          simp only [hreuse, Option.some.injEq, Prod.mk.injEq] at hlarge
          obtain ⟨rfl, rfl⟩ := hlarge
          refine ⟨hl₁.congr ?_ ?_ ?_ ?_ rfl rfl rfl, hresults₁, by simp⟩
          all_goals rw [hpool]
          all_goals rfl
      | none =>
          simp only [hreuse] at hlarge
          obtain ⟨x, hx, hr⟩ := Option.map_eq_some_iff.mp hlarge
          simp only [Prod.mk.injEq] at hr
          obtain ⟨rfl, rfl⟩ := hr
          obtain ⟨hl', hresults, hgot | hlost⟩ := newRecord_layout h₁ hl₁ hx
          · exact ⟨hl', hresults.trans hresults₁, by simp [hgot.1, hgot.2]⟩
          · exact ⟨hl', hresults.trans hresults₁, by simp [hlost.1, hlost.2]⟩

/-! ## Calls -/

/-- A node used up past its end is not allowed. -/
theorem not_disjoint (h : ∃ b ∈ s.pool.nodes, b.end_ < b.last) : ¬ Disjoint s := by
  obtain ⟨b, hb, hlt⟩ := h
  exact fun hd => Nat.not_lt_of_le (hd.last b hb) hlt

theorem cutInside_ends (h : CutInside f size s) : Ends f size s := by
  intro hnone
  unfold CutInside at h
  rwa [hnone] at h

theorem cutInside_fits (hf : Rounds f) (hl : Layout s) (hsize : size ≤ mpMaxAllocFromPool)
    (h : CutInside f size s) : Fits f size s := by
  intro b hfind
  obtain ⟨-, -, -, hend, -⟩ := hl.found hf hsize hfind
  unfold CutInside at h
  rw [hfind] at h
  exact .inr (.inr (hend h))

/-- `mp_alloc` and `mp_nalloc` where they stay inside. -/
theorem alloc_inside (hf : Rounds f) (h : Owns n junk [] s) (hl : Layout s)
    (hin : Inside M f size s) :
    ∃ r s', (if size ≤ s.pool.max then fromBlocks M f size s else mpAllocLarge M size s) =
        some (r, s') ∧ Owns n junk [] s' ∧ Layout s' ∧ s'.results = s.results ∧
      (r.addr = 0 ∨ r.Writable size) ∧
      ((∀ p, mpAlignment ∣ f p) →
        (mpAlignment ∣ r.addr ↔ (s.pool.max < size → LargeAligned M size s))) := by
  have hserved : Served M f size s :=
    ⟨fun hle => cutInside_ends (hin.1 hle), fun hlt => (largeFits_iff hl).mpr (hin.2 hlt)⟩
  obtain ⟨r, s', halloc, hown, hiff⟩ := (alloc_owns (M := M) (f := f) h).1 hserved
  refine ⟨r, s', halloc, hown, ?_⟩
  by_cases hsize : size ≤ s.pool.max
  · rw [if_pos hsize] at halloc
    have hmax := Nat.le_trans hsize hl.max.2
    obtain ⟨hl', -, hresults, hdvd, -⟩ :=
      fromBlocks_layout hf h hl (Nat.le_trans hsize h.max) hmax halloc
    exact ⟨hl' (hin.1 hsize), hresults, hiff.mpr fun _ => cutInside_fits hf hl hmax (hin.1 hsize),
      fun hd => iff_of_true (hdvd hd) fun hlt => absurd hsize (Nat.not_le_of_lt hlt)⟩
  · have hlt : s.pool.max < size := Nat.lt_of_not_le hsize
    rw [if_neg hsize] at halloc
    obtain ⟨hl', hresults, hdvd⟩ := mpAllocLarge_layout h hl hlt halloc
    exact ⟨hl', hresults, hiff.mpr fun hle => absurd hle hsize,
      fun _ => hdvd.trans ⟨fun ha _ => ha, fun ha => ha hlt⟩⟩

/-- And where they do not. -/
theorem alloc_outside {r : Ptr} (hf : Rounds f) (h : Owns n junk [] s) (hl : Layout s)
    (hout : ¬ Inside M f size s)
    (halloc : (if size ≤ s.pool.max then fromBlocks M f size s else mpAllocLarge M size s) =
      some (r, s')) : ∃ b ∈ s'.pool.nodes, b.end_ < b.last := by
  by_cases hsize : size ≤ s.pool.max
  · rw [if_pos hsize] at halloc
    obtain ⟨-, hbad, -⟩ :=
      fromBlocks_layout hf h hl (Nat.le_trans hsize h.max) (Nat.le_trans hsize hl.max.2) halloc
    exact hbad fun hcut => hout ⟨fun _ => hcut, fun hlt => absurd hsize (Nat.not_le_of_lt hlt)⟩
  · rw [if_neg hsize] at halloc
    by_cases hlarge : LargeFits M size s
    · exact absurd ⟨fun hle => absurd hle hsize, fun _ => (largeFits_iff hl).mp hlarge⟩ hout
    · rw [(mpAllocLarge_owns (M := M) h).2 hlarge] at halloc
      exact absurd halloc nofun

/-- What `mp_alloc` or `mp_calloc` returned is noted down. -/
theorem Layout.returned {r : Ptr} (h : Layout s) (hr : mpAlignment ∣ r.addr) :
    Layout (s.returned r) := by
  refine ⟨h.starts, h.home, h.spans, h.low, h.max, h.last, h.handed, h.apart, fun p hp => ?_⟩
  unfold State.returned at hp
  simp only at hp
  split at hp
  · exact h.results p hp
  · rcases List.mem_cons.mp hp with rfl | hp
    · exact hr
    · exact h.results p hp

theorem returned_disjoint {r : Ptr} (h : Disjoint (s.returned r)) : mpAlignment ∣ r.addr := by
  have hresults := h.results
  unfold State.returned at hresults
  simp only at hresults
  split at hresults
  · rename_i h0
    rw [h0]
    exact Nat.dvd_zero _
  · exact hresults _ List.mem_cons_self

/-- `mp_alloc` and `mp_calloc` where the request or the answer is not right. -/
theorem returned_not_disjoint {r : Ptr} (h : Owns n junk [] s) (hl : Layout s)
    (hout : ¬ (Inside M mpAlignPtr size s ∧ (s.pool.max < size → LargeAligned M size s)))
    (halloc : mpAlloc M size s = some (r, s')) : ¬ Disjoint (s'.returned r) := by
  by_cases hin : Inside M mpAlignPtr size s
  · obtain ⟨r₁, s₁, halloc', -, -, -, -, hdvd⟩ := alloc_inside rounds_align h hl hin
    obtain ⟨rfl, rfl⟩ := Prod.mk.inj (Option.some.inj (halloc.symm.trans halloc'))
    exact fun hd => hout ⟨hin, (hdvd mpAlignPtr_dvd).mp (returned_disjoint hd)⟩
  · have hbad : ∃ b ∈ s'.pool.nodes, b.end_ < b.last := alloc_outside rounds_align h hl hin halloc
    exact not_disjoint hbad

theorem mpMemalign_layout {alignment : Nat} {x : Ptr × State} (h : Owns n junk [] s)
    (hl : Layout s) (hmem : mpMemalign M size alignment s = some x) : Layout x.2 := by
  unfold mpMemalign at hmem
  split at hmem
  · exact Option.some.inj hmem ▸ hl.congr rfl rfl rfl rfl rfl rfl rfl
  · rename_i hreq
    obtain ⟨y, hy, rfl⟩ := Option.map_eq_some_iff.mp hmem
    have h₁ := (h.request hreq).1
    rw [List.append_nil] at h₁
    exact (newRecord_layout h₁ (hl.request hreq) hy).1

theorem mpFree_layout (h : Owns n junk [] s) (hl : Layout s) (hfree : mpFree p s = some s') :
    Layout s' := by
  unfold mpFree at hfree
  split at hfree
  · rename_i hany
    obtain ⟨live, hlive, rfl⟩ := Option.map_eq_some_iff.mp hfree
    refine Layout.congr (s := { s with live := live }) ?_ rfl rfl rfl rfl rfl rfl rfl
    by_cases hp : p = 0
    · rw [free, if_pos hp] at hlive
      exact Option.some.inj hlive ▸ hl
    · simp only [List.any_eq_true, decide_eq_true_eq] at hany
      obtain ⟨l, hmem, hlp⟩ := hany
      have hallocs : p ∈ [] ++ s.pool.allocs := by
        refine List.mem_filter.mpr ⟨List.mem_map.mpr ⟨l, hmem, hlp⟩, ?_⟩
        simpa using hp
      refine hl.freed ?_ fun r hr hhome => mem_free hlive hr ?_
      · unfold free at hlive
        rw [if_neg hp] at hlive
        split at hlive
        · exact Option.some.inj hlive ▸ List.eraseP_sublist
        · exact absurd hlive (Option.some_ne_none _).symm
      · exact fun hstart => h.not_home hl hallocs (hstart ▸ hhome)
  · exact Option.some.inj hfree ▸ hl

theorem mpResetPool_layout (h : Owns n junk [] s) (hl : Layout s)
    (hreset : mpResetPool s = some s') : Layout s' := by
  obtain ⟨live, hfree, hreset⟩ := Option.bind_eq_some_iff.mp hreset
  obtain ⟨live', hfree', hsub, -⟩ := freeAll_perm (allocs_ne_zero s.pool) h.live
  rw [hfree'] at hfree
  obtain rfl := Option.some.inj hfree
  have hl' := hl.freed hsub fun r hr hhome =>
    mem_freeAll hfree' hr fun hmem => h.not_home hl (List.mem_append_right _ hmem) hhome
  split at hreset
  · obtain rfl := Option.some.inj hreset
    have hframes : (s.pool.nodes.map fun h => { h with last := h.addr + sizeofNode }).map
        Node.frame = s.pool.nodes.map Node.frame := by
      rw [List.map_map]
      rfl
    refine ⟨hl'.starts, ?_, ?_, ?_, hl'.max, ?_, fun r hr => absurd hr List.not_mem_nil,
      .nil, hl'.results⟩
    · have hhome := hl'.home
      unfold Pool.spans Pool.homes at hhome ⊢
      simp only [hframes] at hhome ⊢
      exact hhome
    · have hspans := hl'.spans
      unfold Pool.spans at hspans ⊢
      simp only [hframes] at hspans ⊢
      exact hspans
    · have hlow := hl'.low
      unfold Pool.spans at hlow ⊢
      simp only [hframes] at hlow ⊢
      exact hlow
    · intro b hb
      simp only [List.mem_map] at hb
      obtain ⟨_, ⟨c, hc, rfl⟩, rfl⟩ := hb
      have := hl.last c.core (List.mem_map_of_mem hc)
      exact ⟨le_refl _, Nat.le_trans this.1 this.2⟩
  · exact absurd hreset nofun

/-- A call leaves everything disjoint if and only if it stays inside. -/
theorem call_right (c : Call) (h : Owns n junk [] s) (hl : Layout s) :
    (StaysInside M s c → ∃ s', step M s c = some s' ∧ Owns n junk [] s' ∧ Layout s') ∧
      (¬ StaysInside M s c → ∀ s', step M s c = some s' → ¬ Disjoint s') := by
  cases c with
  | alloc size =>
      constructor
      · rintro ⟨hin, haligned⟩
        obtain ⟨r, s', halloc, hown, hl', -, -, hdvd⟩ := alloc_inside rounds_align h hl hin
        exact ⟨s'.returned r, by simp only [step, mpAlloc, halloc]; rfl, hown.returned,
          hl'.returned ((hdvd mpAlignPtr_dvd).mpr haligned)⟩
      · intro hout s' hstep
        obtain ⟨⟨r, s₁⟩, halloc, rfl⟩ := Option.map_eq_some_iff.mp hstep
        exact returned_not_disjoint h hl hout halloc
  | nalloc size =>
      constructor
      · intro hin
        obtain ⟨r, s', halloc, hown, hl', -⟩ := alloc_inside rounds_id h hl hin
        exact ⟨s', by simp only [step, mpNalloc, halloc]; rfl, hown, hl'⟩
      · intro hout s' hstep
        obtain ⟨x, halloc, rfl⟩ := Option.map_eq_some_iff.mp hstep
        exact not_disjoint (alloc_outside rounds_id h hl hout halloc)
  | calloc size =>
      constructor
      · rintro ⟨hin, haligned⟩
        obtain ⟨r, s', halloc, hown, hl', -, hw, hdvd⟩ := alloc_inside rounds_align h hl hin
        refine ⟨s'.returned r, ?_, hown.returned,
          hl'.returned ((hdvd mpAlignPtr_dvd).mpr haligned)⟩
        simp only [step, mpCalloc, mpAlloc, halloc, Option.bind_some, if_pos hw]
        rfl
      · intro hout s' hstep
        obtain ⟨x, hcalloc, rfl⟩ := Option.map_eq_some_iff.mp hstep
        obtain ⟨⟨r, s₁⟩, halloc, hx⟩ := Option.bind_eq_some_iff.mp hcalloc
        simp only at hx
        split at hx
        · exact Option.some.inj hx ▸ returned_not_disjoint h hl hout halloc
        · exact absurd hx (Option.some_ne_none _).symm
  | memalign size alignment =>
      -- here the region and the writes fit under the same condition
      have hiff : StaysInside M s (.memalign size alignment) ↔
          WritesFit M s (.memalign size alignment) := by
        unfold StaysInside WritesFit
        simp only
        rw [recordFits_iff hl]
      rw [hiff]
      constructor
      · intro hfit
        obtain ⟨s', hstep, hown⟩ := (step_owns _ h).1 hfit
        obtain ⟨x, hx, rfl⟩ := Option.map_eq_some_iff.mp hstep
        exact ⟨x.2, hstep, hown, mpMemalign_layout h hl hx⟩
      · intro hnot s' hstep
        rw [(step_owns _ h).2 hnot] at hstep
        exact absurd hstep (Option.some_ne_none _).symm
  | free p =>
      refine ⟨fun _ => ?_, fun hnot => absurd trivial hnot⟩
      obtain ⟨s', hfree, hown⟩ := mpFree_owns (p := p) h
      exact ⟨s', hfree, hown, mpFree_layout h hl hfree⟩
  | reset =>
      constructor
      · intro hnext
        obtain ⟨s', hreset, hown⟩ := (mpResetPool_owns h).1 hnext
        exact ⟨s', hreset, hown, mpResetPool_layout h hl hreset⟩
      · intro hnot s' hstep
        have hnone : step M s .reset = none := (mpResetPool_owns h).2 hnot
        rw [hnone] at hstep
        exact absurd hstep (Option.some_ne_none _).symm

theorem callRight_iff (c : Call) (h : Owns n junk [] s) (hl : Layout s) :
    CallRight M s c ↔ StaysInside M s c := by
  obtain ⟨hin, hout⟩ := call_right (M := M) c h hl
  constructor
  · rintro ⟨s', hstep, hd⟩
    by_contra hnot
    exact hout hnot s' hstep hd
  · intro hstays
    obtain ⟨s', hstep, -, hl'⟩ := hin hstays
    exact ⟨s', hstep, hl'.disjoint⟩

theorem headers_fit (h : size + (sizeofPool + sizeofNode) < 2 ^ 64) :
    addU64 (addU64 size sizeofPool) sizeofNode = size + (sizeofPool + sizeofNode) := by
  rw [addU64_of_lt (a := size) (b := sizeofPool) (by omega), addU64_of_lt (by omega)]
  omega

theorem mpCreatePool_some (h : size + (sizeofPool + sizeofNode) < 2 ^ 64)
    (htake : M.take 0 [] mpAlignment (addU64 (addU64 size sizeofPool) sizeofNode) = some p) :
    ∃ s, mpCreatePool M junk size = some (some s) := by
  unfold mpCreatePool
  simp only [htake]
  rw [if_pos (headers_fit h ▸ Nat.le_add_left _ _)]
  exact ⟨_, rfl⟩

theorem mpCreatePool_layout (hmin : sizeofLarge ≤ size)
    (hsize : size + (sizeofPool + sizeofNode) < 2 ^ 64)
    (hcreate : mpCreatePool M junk size = some (some s)) : Layout s := by
  unfold mpCreatePool at hcreate
  simp only [headers_fit hsize] at hcreate
  split at hcreate
  · exact absurd hcreate (by simp)
  · rename_i p htake
    rw [if_pos (Nat.le_add_left _ _)] at hcreate
    simp only [Option.some.injEq] at hcreate
    obtain rfl := hcreate
    have hp : p ≠ 0 := by
      rintro rfl
      exact absurd (M.null htake) (Nat.ne_of_gt (Nat.add_pos_right _ (by decide)))
    have hlow := M.low htake
    refine ⟨?_, ?_, ?_, ?_, ⟨?_, ?_⟩, ?_, fun r hr => absurd hr List.not_mem_nil, .nil,
      fun r hr => absurd hr List.not_mem_nil⟩
    · simp only [handOut, if_neg hp]
      exact List.nodup_singleton _
    · simp only [handOut, if_neg hp]
      intro x hx
      refine ⟨_, List.mem_cons_self, List.mem_cons_self, ?_⟩
      rcases List.mem_cons.mp hx with rfl | hx
      · show p ≤ p ∧ p + sizeofPool ≤ p + (size + (sizeofPool + sizeofNode))
        omega
      · rw [List.mem_singleton.mp hx]
        show p ≤ p + sizeofPool ∧
          p + sizeofPool + sizeofNode + size ≤ p + (size + (sizeofPool + sizeofNode))
        omega
    · refine List.pairwise_cons.mpr ⟨fun x hx => ?_, List.pairwise_singleton ..⟩
      rw [List.mem_singleton.mp hx]
      exact .inl (le_refl _)
    · intro x hx
      rcases List.mem_cons.mp hx with rfl | hx
      · show p + sizeofPool ≤ 2 ^ 63
        omega
      · rw [List.mem_singleton.mp hx]
        show p + sizeofPool + sizeofNode + size ≤ 2 ^ 63
        omega
    · show sizeofLarge ≤ if size < mpMaxAllocFromPool then size else mpMaxAllocFromPool
      split
      · exact hmin
      · decide
    · show (if size < mpMaxAllocFromPool then size else mpMaxAllocFromPool) ≤ mpMaxAllocFromPool
      split <;> omega
    · intro b hb
      rw [List.mem_singleton.mp hb]
      exact ⟨le_refl _, Nat.le_add_right _ _⟩

end

/-- The sizes fit the word, and every call stays inside. -/
def PoolInside (M : Malloc) (junk size : Nat) (calls : List Call) : Prop :=
  (M.take 0 [] mpAlignment (addU64 (addU64 size sizeofPool) sizeofNode)).isSome →
    size + (sizeofPool + sizeofNode) < 2 ^ 64 ∧
      ∀ s, mpCreatePool M junk size = some (some s) → Meets (step M) (StaysInside M) s calls

/--
**A pool hands out disjoint regions if and only if its calls stay inside.** That is for any
allocator, any size that holds a record, whatever was in the pool's memory and any calls: the
size with the headers fits the word, no `next` is followed that was not written, no node
passes the test because its `last` rounded up passes the end, and `malloc` aligns what it
answers to a large `mp_alloc`.
-/
theorem disjoint_iff (M : Malloc) (junk size : Nat) (calls : List Call)
    (hmin : sizeofLarge ≤ size) (hsize : size < 2 ^ 64) :
    PoolRight M junk size calls ↔ PoolInside M junk size calls := by
  unfold PoolRight PoolInside
  cases htake : M.take 0 [] mpAlignment (addU64 (addU64 size sizeofPool) sizeofNode) with
  | none =>
      have hcreate : mpCreatePool M junk size = some none := by
        unfold mpCreatePool
        simp only [htake]
      simp [hcreate]
  | some p =>
      simp only [Option.isSome_some, forall_const]
      by_cases hfits : size + (sizeofPool + sizeofNode) < 2 ^ 64
      · obtain ⟨s, hcreate⟩ : ∃ s, mpCreatePool M junk size = some (some s) :=
          mpCreatePool_some hfits htake
        have hown := mpCreatePool_owns hsize hcreate
        have hl := mpCreatePool_layout hmin hfits hcreate
        have hkeep : ∀ s c s', Owns size junk [] s ∧ Layout s → StaysInside M s c →
            step M s c = some s' → Owns size junk [] s' ∧ Layout s' := by
          intro s c s' h hin hstep
          obtain ⟨s₁, hstep₁, hs₁⟩ := (call_right c h.1 h.2).1 hin
          rw [hstep] at hstep₁
          exact Option.some.inj hstep₁ ▸ hs₁
        have hright := meets_iff (CallRight M) (fun s c h => callRight_iff c h.1 h.2) hkeep calls
          ⟨hown, hl⟩
        simp only [hcreate, hl.disjoint, true_and, hright, hfits, Option.some.injEq, forall_eq']
      · have hcreate : mpCreatePool M junk size = none := by
          unfold mpCreatePool
          simp only [htake]
          refine if_neg fun hle => ?_
          unfold addU64 sizeofPool sizeofNode at *
          omega
        simp only [hcreate]
        exact (iff_of_false id fun h => hfits h.1)

/-- A small pool, with requests of each kind. -/
theorem disjoint_some :
    PoolRight bumpMalloc 0 64 [.nalloc 5, .alloc 8, .calloc 40, .alloc 100, .free 0, .reset] ↔
      PoolInside bumpMalloc 0 64 [.nalloc 5, .alloc 8, .calloc 40, .alloc 100, .free 0, .reset] :=
  disjoint_iff bumpMalloc 0 64 _ (by decide) (by decide)

/-- An unaligned request leaves four bytes of a block. The next one is rounded up past its end,
and gets what lies there. -/
theorem disjoint_not : ¬ PoolRight bumpMalloc 0 64 [.nalloc 60, .alloc 4] := by
  have h : (mpCreatePool bumpMalloc 0 64).any (fun o => o.any fun s =>
      (step bumpMalloc s (.nalloc 60)).any fun s₁ => (step bumpMalloc s₁ (.alloc 4)).any fun s₂ =>
        s₂.pool.nodes.any fun b => b.end_ < b.last) = true := by
    decide +kernel
  obtain ⟨o, hcreate, ho⟩ := (Option.any_eq_true _ _).mp h
  obtain ⟨s, rfl, hs⟩ := (Option.any_eq_true _ _).mp ho
  obtain ⟨s₁, hnalloc, h₁⟩ := (Option.any_eq_true _ _).mp hs
  obtain ⟨s₂, halloc, h₂⟩ := (Option.any_eq_true _ _).mp h₁
  obtain ⟨b, hb, hlt⟩ := List.any_eq_true.mp h₂
  unfold PoolRight
  rw [hcreate]
  rintro ⟨-, -, hright⟩
  obtain ⟨⟨s', hstep, hd⟩, -⟩ := hright s₁ hnalloc
  rw [halloc] at hstep
  obtain rfl := Option.some.inj hstep
  exact not_disjoint ⟨b, hb, of_decide_eq_true hlt⟩ hd

end CppTrack.Memory
