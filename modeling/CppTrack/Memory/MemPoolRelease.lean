import CppTrack.Lib.Run
import CppTrack.Memory.MemPool

/-!
# What a pool gives back

Everything the allocator handed out is the pool, a block on the chain or on the list of large
allocations. That is an invariant of every call, so what `mp_destory_pool` gives back is all
there is. Two things can go wrong on the way: the `next` of the head that nobody wrote is
followed, and a record or the zeros of `mp_calloc` are written where `mp_alloc` went past the
end of a block.
-/

namespace CppTrack.Memory

open Lib

/-- Where a block is, which does not change. -/
def Node.frame (b : Node) : Nat × Nat := (b.addr, b.end_)

/-- Where the blocks start, and the pool. -/
def Pool.homes (pool : Pool) : List Nat :=
  (pool.nodes.map Node.frame).tail.map Prod.fst ++ [pool.addr]

/-- What a pool has to give back. -/
def Pool.owned (pool : Pool) : List Nat := pool.allocs ++ pool.homes

/-- What is handed out belongs to a pool of `n` bytes, but for `ps`. The chain ends with `junk`. -/
structure Owns (n junk : Nat) (ps : List Nat) (s : State) : Prop where
  next : s.pool.next = junk
  addr : s.pool.addr ≠ 0
  low : n + (sizeofPool + sizeofNode) ≤ 2 ^ 63
  max : s.pool.max ≤ n
  frames : ∀ x ∈ s.pool.nodes.map Node.frame, x.2 = x.1 + (sizeofNode + n)
  added : ∀ x ∈ (s.pool.nodes.map Node.frame).tail, x.1 ≠ 0
  current : s.pool.current < s.pool.nodes.length
  live : (s.live.map Region.start).Perm (ps ++ s.pool.owned)

/-- If the walk finds a node for `size` bytes at all, they are within its block. -/
def Fits (f : Nat → Nat) (size : Nat) (s : State) : Prop :=
  ∀ b, (s.pool.nodes.drop s.pool.current).find? (Node.room f size) = some b →
    f b.last = 0 ∨ (Ptr.mk (f b.last) b.end_).Writable size

/-- If the walk finds no node, it ends at a null pointer. -/
def Ends (f : Nat → Nat) (size : Nat) (s : State) : Prop :=
  (s.pool.nodes.drop s.pool.current).find? (Node.room f size) = none → s.pool.next = 0

/-- A record can be cut off. -/
def RecordFits (s : State) : Prop :=
  sizeofLarge ≤ s.pool.max ∧ Ends mpAlignPtr sizeofLarge s ∧ Fits mpAlignPtr sizeofLarge s

/-- If a large request needs a new record, that can be cut off. -/
def LargeFits (M : Malloc) (size : Nat) (s : State) : Prop :=
  ∀ p, M.take s.calls s.live mallocAlignment size = some p → reuse p 0 s.pool.large = none →
    RecordFits s

/-- A request for `size` bytes ends its walk, or has a record for what `malloc` answers. -/
def Served (M : Malloc) (f : Nat → Nat) (size : Nat) (s : State) : Prop :=
  (size ≤ s.pool.max → Ends f size s) ∧ (s.pool.max < size → LargeFits M size s)

/-- A call follows no `next` but those the pool wrote, and writes within the blocks. -/
def WritesFit (M : Malloc) (s : State) : Call → Prop
  | .alloc size => Served M mpAlignPtr size s
  | .nalloc size => Served M id size s
  | .calloc size =>
      Served M mpAlignPtr size s ∧ (size ≤ s.pool.max → Fits mpAlignPtr size s)
  | .memalign size alignment =>
      (M.take s.calls s.live alignment size).isSome → RecordFits s
  | .free _ => True
  | .reset => s.pool.next = 0

section

variable {M : Malloc} {f : Nat → Nat} {size n junk : Nat} {ps : List Nat}
  {s : State} {p : Nat}

/-! ## Alignment -/

theorem mpAlignPtr_spec (h : p + mpAlignment ≤ 2 ^ 64) :
    p ≤ mpAlignPtr p ∧ mpAlignPtr p < p + mpAlignment ∧ mpAlignment ∣ mpAlignPtr p := by
  unfold mpAlignPtr
  unfold mpAlignment at *
  rw [addU64_of_lt (by omega)]
  exact ⟨by omega, by omega, Nat.dvd_mul_left ..⟩

theorem mpAlignPtr_of_dvd (hp : mpAlignment ∣ p) (h : p + mpAlignment ≤ 2 ^ 64) :
    mpAlignPtr p = p := by
  obtain ⟨hle, hlt, hdvd⟩ := mpAlignPtr_spec h
  obtain ⟨a, ha⟩ := hp
  obtain ⟨b, hb⟩ := hdvd
  rw [hb, ha] at hle hlt ⊢
  unfold mpAlignment at *
  omega

/-! ## The walks -/

theorem walk_eq_some {bs bs' : List Node} {m : Ptr} (h : walk f size bs = some (m, bs')) :
    ∃ pre b post, bs = pre ++ b :: post ∧
      bs' = pre ++ { b with last := addU64 (f b.last) size } :: post ∧
      m = ⟨f b.last, b.end_⟩ ∧ bs.find? (Node.room f size) = some b := by
  induction bs generalizing bs' with
  | nil => exact absurd h nofun
  | cons b bs ih =>
      rw [walk] at h
      split at h
      · rename_i hroom
        simp only [Option.some.injEq, Prod.mk.injEq] at h
        obtain ⟨rfl, rfl⟩ := h
        exact ⟨[], b, bs, rfl, rfl, rfl, List.find?_cons_of_pos hroom⟩
      · rename_i hroom
        obtain ⟨x, hx, hxs⟩ := Option.map_eq_some_iff.mp h
        simp only [Prod.mk.injEq] at hxs
        obtain ⟨rfl, rfl⟩ := hxs
        obtain ⟨pre, c, post, rfl, hbs', hm, hfind⟩ := ih hx
        refine ⟨b :: pre, c, post, rfl, by rw [hbs']; rfl, hm, ?_⟩
        rw [List.find?_cons_of_neg hroom, hfind]

theorem walk_eq_none {bs : List Node} (h : walk f size bs = none) :
    bs.find? (Node.room f size) = none := by
  induction bs with
  | nil => rfl
  | cons b bs ih =>
      rw [walk] at h
      split at h
      · exact absurd h nofun
      · rename_i hroom
        rw [List.find?_cons_of_neg hroom]
        exact ih (Option.map_eq_none_iff.mp h)

/-- The loop changes nothing but the failures. -/
theorem passOver_map {β : Type} (g : Node → β)
    (hg : ∀ (b : Node) (k : Nat), g { b with failed := k } = g b) (i current : Nat)
    (bs : List Node) : (passOver i current bs).2.map g = bs.map g := by
  fun_induction passOver i current bs with
  | case1 i current b c bs x ih =>
      show g { b with failed := b.failed + 1 } :: x.2.map g = _
      rw [hg, ih]
      rfl
  | case2 => rfl

theorem passOver_lt {i current : Nat} {bs : List Node} (h : current ≤ i) (hbs : bs ≠ []) :
    (passOver i current bs).1 < i + bs.length := by
  fun_induction passOver i current bs with
  | case1 i current b c bs x ih =>
      have hlt : x.1 < _ := ih (by split <;> omega) (List.cons_ne_nil _ _)
      simp only [List.length_cons] at hlt ⊢
      omega
  | case2 i current bs =>
      have := List.length_pos_iff.mpr hbs
      omega

/-! ## Blocks -/

/-- Only what a pool has to give back, and what is handed out, is counted. -/
theorem Owns.congr {qs : List Nat} {s' : State} (h : Owns n junk ps s)
    (hframes : s'.pool.nodes.map Node.frame = s.pool.nodes.map Node.frame)
    (haddr : s'.pool.addr = s.pool.addr) (hnext : s'.pool.next = s.pool.next)
    (hmax : s'.pool.max = s.pool.max) (hcurrent : s'.pool.current = s.pool.current)
    (hlive : (s'.live.map Region.start).Perm (qs ++ s'.pool.owned)) : Owns n junk qs s' where
  next := hnext ▸ h.next
  addr := haddr ▸ h.addr
  low := h.low
  max := hmax ▸ h.max
  frames := hframes ▸ h.frames
  added := hframes ▸ h.added
  current := by
    have hlen := congrArg List.length hframes
    rw [List.length_map, List.length_map] at hlen
    rw [hlen, hcurrent]
    exact h.current
  live := hlive

/-- What `request` hands out is not the pool's yet. -/
def requested (p : Nat) : List Nat := if p = 0 then [] else [p]

theorem handOut_start (live : List Region) (p size : Nat) :
    (handOut live p size).map Region.start = requested p ++ live.map Region.start := by
  unfold handOut requested
  split <;> rfl

theorem Owns.request {align : Nat} {s' : State} (h : Owns n junk ps s)
    (hreq : request M s align size = some (p, s')) :
    Owns n junk (requested p ++ ps) s' ∧ s'.pool = s.pool ∧
      M.take s.calls s.live align size = some p := by
  obtain ⟨q, htake, hq⟩ := Option.map_eq_some_iff.mp hreq
  simp only [Prod.mk.injEq] at hq
  obtain ⟨rfl, rfl⟩ := hq
  refine ⟨h.congr rfl rfl rfl rfl rfl ?_, rfl, htake⟩
  rw [handOut_start, List.append_assoc]
  exact h.live.append_left _

theorem Owns.refused (h : Owns n junk ps s) : Owns n junk ps s.refused :=
  h.congr rfl rfl rfl rfl rfl h.live

/-- A block is put at the end of the chain. -/
theorem Owns.addBlock {m : Nat} {s' : State} (h : Owns n junk (m :: ps) s) (hm : m ≠ 0)
    (hframes : s'.pool.nodes.map Node.frame =
      s.pool.nodes.map Node.frame ++ [(m, m + (sizeofNode + n))])
    (haddr : s'.pool.addr = s.pool.addr) (hnext : s'.pool.next = s.pool.next)
    (hmax : s'.pool.max = s.pool.max) (hlarge : s'.pool.large = s.pool.large)
    (hlive : s'.live = s.live) (hcurrent : s'.pool.current ≤ s.pool.nodes.length) :
    Owns n junk ps s' := by
  have hcons : s.pool.nodes.map Node.frame ≠ [] := fun hnil => by
    have := h.current
    rw [List.map_eq_nil_iff.mp hnil] at this
    exact Nat.not_lt_zero _ this
  have htail : (s'.pool.nodes.map Node.frame).tail =
      (s.pool.nodes.map Node.frame).tail ++ [(m, m + (sizeofNode + n))] := by
    rw [hframes, List.tail_append_of_ne_nil hcons]
  refine ⟨hnext ▸ h.next, haddr ▸ h.addr, h.low, hmax ▸ h.max, ?_, ?_, ?_, ?_⟩
  · rw [hframes]
    intro x hx
    rcases List.mem_append.mp hx with hx | hx
    · exact h.frames x hx
    · rw [List.mem_singleton.mp hx]
  · rw [htail]
    intro x hx
    rcases List.mem_append.mp hx with hx | hx
    · exact h.added x hx
    · rw [List.mem_singleton.mp hx]
      exact hm
  · have hlen := congrArg List.length hframes
    rw [List.length_append, List.length_map, List.length_map] at hlen
    exact hlen ▸ Nat.lt_succ_of_le hcurrent
  · rw [hlive]
    refine h.live.trans ?_
    unfold Pool.owned Pool.homes Pool.allocs
    rw [htail, haddr, hlarge, List.map_append]
    refine List.perm_iff_count.mpr fun a => ?_
    simp only [List.cons_append, List.count_cons, List.count_append, List.map_cons, List.map_nil,
      List.count_nil]
    omega

theorem block_size {head : Node} {nodes : List Node} (h : Owns n junk ps s)
    (hnodes : s.pool.nodes = head :: nodes) : subU64 head.end_ head.addr = sizeofNode + n := by
  have hlow := h.low
  have hframe := h.frames head.frame (by rw [hnodes]; exact List.mem_cons_self)
  unfold Node.frame at hframe
  unfold sizeofPool sizeofNode at *
  unfold subU64
  omega

theorem mpAllocBlock_owns (h : Owns n junk ps s) (hnext : s.pool.next = 0) (hsize : size ≤ n) :
    ∃ r s', mpAllocBlock M size s = some (r, s') ∧ Owns n junk ps s' ∧
      s'.pool.large = s.pool.large ∧ s'.pool.max = s.pool.max ∧
      (r.addr = 0 ∨ r.Writable size) := by
  obtain ⟨head, nodes, hnodes⟩ :=
    List.exists_cons_of_length_pos (Nat.zero_lt_of_lt h.current)
  unfold mpAllocBlock
  rw [hnodes]
  simp only [block_size h hnodes]
  cases hreq : request M s mpAlignment (sizeofNode + n) with
  | none => exact ⟨_, _, rfl, h.refused, rfl, rfl, .inl rfl⟩
  | some x =>
      obtain ⟨m, s₁⟩ := x
      obtain ⟨h₁, hpool, htake⟩ := h.request hreq
      have hm : m ≠ 0 := by
        rintro rfl
        have := M.null htake
        unfold sizeofNode at this
        omega
      rw [requested, if_neg hm] at h₁
      have hcurrent := h₁.current
      have hne : s₁.pool.nodes.drop s₁.pool.current ≠ [] :=
        List.ne_nil_of_length_pos (by rw [List.length_drop]; omega)
      rw [← hpool] at hnext
      simp only [if_pos hnext]
      refine ⟨_, _, rfl, h₁.addBlock hm ?_ rfl rfl rfl rfl rfl ?_, by rw [hpool], by rw [hpool],
        .inr (.inr ?_)⟩
      · rw [List.map_append, List.map_append, passOver_map _ fun _ _ => rfl, ← List.map_append,
          List.take_append_drop]
        rfl
      · have := passOver_lt (le_refl s₁.pool.current) hne
        rw [List.length_drop] at this
        show (passOver _ _ _).1 ≤ _
        omega
      · have hdvd : mpAlignment ∣ m + sizeofNode := Nat.dvd_add (M.aligned htake) (by decide)
        have hlow₁ := M.low htake
        rw [mpAlignPtr_of_dvd hdvd (by unfold sizeofNode mpAlignment at *; omega)]
        show m + sizeofNode + size ≤ m + (sizeofNode + n)
        omega

/-- A small request changes nothing that has to be given back, and what it cuts off is within
its block if it fits. -/
theorem fromBlocks_owns (h : Owns n junk ps s) (hsize : size ≤ n) :
    (Ends f size s → ∃ r s', fromBlocks M f size s = some (r, s') ∧ Owns n junk ps s' ∧
      s'.pool.large = s.pool.large ∧ s'.pool.max = s.pool.max ∧
      (r.addr = 0 ∨ r.Writable size ↔ Fits f size s)) ∧
      (¬ Ends f size s → fromBlocks M f size s = none) := by
  unfold fromBlocks Ends
  cases hwalk : walk f size (s.pool.nodes.drop s.pool.current) with
  | some x =>
      obtain ⟨m, bs⟩ := x
      obtain ⟨pre, b, post, hbs, rfl, rfl, hfind⟩ := walk_eq_some hwalk
      have hframes : (s.pool.nodes.take s.pool.current ++
          (pre ++ { b with last := addU64 (f b.last) size } :: post)).map Node.frame =
          s.pool.nodes.map Node.frame := by
        conv_rhs => rw [← List.take_append_drop s.pool.current s.pool.nodes, hbs]
        simp only [List.map_append, List.map_cons]
        rfl
      refine ⟨fun _ => ⟨_, _, rfl, h.congr hframes rfl rfl rfl rfl ?_, rfl, rfl, ?_⟩,
        fun hnot => absurd (fun hnone => ?_) hnot⟩
      · unfold Pool.owned Pool.homes
        simp only [hframes]
        exact h.live
      · unfold Fits
        simp only [hfind, Option.some.injEq]
        exact ⟨fun hfit c hc => hc ▸ hfit, fun hfit => hfit b rfl⟩
      · rw [hfind] at hnone
        exact absurd hnone nofun
  | none =>
      have hnone := walk_eq_none hwalk
      refine ⟨fun hends => ?_, fun hnot => if_neg fun hnext => hnot fun _ => hnext⟩
      obtain ⟨r, s', hblock, h', hlarge, hmax, hr⟩ :=
        mpAllocBlock_owns (M := M) h (hends hnone) hsize
      refine ⟨r, s', ?_, h', hlarge, hmax, iff_of_true hr fun b hb => ?_⟩
      · simp only [if_pos (hends hnone), hblock]
      · rw [hnone] at hb
        exact absurd hb nofun

/-! ## Large allocations -/

/-- Before a call: nothing but the pool's is handed out. -/
theorem Owns.free {q : Nat} (h : Owns n junk (requested q) s) :
    ∃ live, free s.live q = some live ∧ Owns n junk [] { s with live := live } := by
  by_cases hq : q = 0
  · rw [requested, if_pos hq] at h
    exact ⟨s.live, if_pos hq, h⟩
  · have hlive := h.live
    rw [requested, if_neg hq, List.singleton_append] at hlive
    obtain ⟨live, hfree, -, hperm⟩ := free_perm hlive hq
    exact ⟨live, hfree, h.congr rfl rfl rfl rfl rfl hperm⟩

theorem newRecord_owns (h : Owns n junk (requested p) s) :
    (RecordFits s → ∃ x, newRecord M p s = some x ∧ Owns n junk [] x.2) ∧
      (¬ RecordFits s → newRecord M p s = none) := by
  unfold RecordFits newRecord
  by_cases hmax : sizeofLarge ≤ s.pool.max
  · obtain ⟨hfound, hlost⟩ :=
      fromBlocks_owns (M := M) (f := mpAlignPtr) h (Nat.le_trans hmax h.max)
    rw [if_pos hmax]
    by_cases hends : Ends mpAlignPtr sizeofLarge s
    · obtain ⟨r, s', hblocks, h', -, -, hiff⟩ := hfound hends
      rw [hblocks, Option.bind_some]
      by_cases hr : r.addr = 0
      · obtain ⟨live, hfree, hlive⟩ := h'.free
        simp only [if_pos hr, hfree]
        exact ⟨fun _ => ⟨_, rfl, hlive⟩, fun hnot => absurd ⟨hmax, hends, hiff.mp (.inl hr)⟩ hnot⟩
      · simp only [if_neg hr]
        by_cases hw : r.Writable sizeofLarge
        · rw [if_pos hw]
          refine ⟨fun _ => ⟨_, rfl, h'.congr rfl rfl rfl rfl rfl ?_⟩,
            fun hnot => absurd ⟨hmax, hends, hiff.mp (.inr hw)⟩ hnot⟩
          refine h'.live.trans (.of_eq ?_)
          unfold requested Pool.owned Pool.allocs Pool.homes
          by_cases hp : p = 0
          · simp [hp]
          · simp [hp]
        · rw [if_neg hw]
          exact ⟨fun hfit => absurd (hiff.mpr hfit.2.2) (not_or.mpr ⟨hr, hw⟩), fun _ => rfl⟩
    · rw [hlost hends]
      exact ⟨fun hfit => absurd hfit.2.1 hends, fun _ => rfl⟩
  · rw [if_neg hmax]
    exact ⟨fun hfit => absurd hfit.1 hmax, fun _ => rfl⟩

/-- The allocation takes the place of a null pointer. -/
theorem reuse_allocs {k : Nat} {ls ls' : List Large} (h : reuse p k ls = some ls') :
    ((ls'.map Large.alloc).filter (· ≠ 0)).Perm
      (requested p ++ (ls.map Large.alloc).filter (· ≠ 0)) := by
  induction ls generalizing k ls' with
  | nil => exact absurd h nofun
  | cons l ls ih =>
      rw [reuse] at h
      split at h
      · rename_i hl
        obtain rfl := Option.some.inj h
        unfold requested
        by_cases hp : p = 0 <;> simp [hp, hl]
      · rename_i hl
        split at h
        · exact absurd h nofun
        · obtain ⟨ls₁, h₁, rfl⟩ := Option.map_eq_some_iff.mp h
          have hin : decide (l.alloc ≠ 0) = true := decide_eq_true hl
          rw [List.map_cons, List.map_cons, List.filter_cons, if_pos hin, List.filter_cons,
            if_pos hin]
          exact ((ih h₁).cons _).trans List.perm_middle.symm

theorem mpAllocLarge_owns (h : Owns n junk [] s) :
    (LargeFits M size s → ∃ r s', mpAllocLarge M size s = some (r, s') ∧ Owns n junk [] s' ∧
      (r.addr = 0 ∨ r.Writable size)) ∧
      (¬ LargeFits M size s → mpAllocLarge M size s = none) := by
  unfold LargeFits mpAllocLarge
  cases hreq : request M s mallocAlignment size with
  | none =>
      have htake := Option.map_eq_none_iff.mp hreq
      refine ⟨fun _ => ⟨_, _, rfl, h.refused, .inl rfl⟩, fun hnot => absurd ?_ hnot⟩
      intro p hp
      rw [htake] at hp
      exact absurd hp nofun
  | some x =>
      obtain ⟨p, s₁⟩ := x
      obtain ⟨h₁, hpool, htake⟩ := h.request hreq
      rw [List.append_nil] at h₁
      simp only [htake, Option.some.injEq, forall_eq', ← hpool]
      cases hreuse : reuse p 0 s₁.pool.large with
      | some large =>
          refine ⟨fun _ => ⟨_, _, rfl, h₁.congr rfl rfl rfl rfl rfl ?_, .inr (.inr (le_refl _))⟩,
            fun hnot => absurd nofun hnot⟩
          refine h₁.live.trans ?_
          unfold Pool.owned Pool.homes Pool.allocs
          rw [List.nil_append, ← List.append_assoc]
          exact (reuse_allocs hreuse).symm.append_right _
      | none =>
          obtain ⟨hfits, hnot⟩ := newRecord_owns (M := M) h₁
          have hsame : RecordFits s ↔ RecordFits s₁ := by
            unfold RecordFits Ends Fits
            rw [hpool]
          simp only [forall_const, hsame]
          constructor
          · intro hfit
            obtain ⟨x, hx, hown⟩ := hfits hfit
            exact ⟨_, _, by rw [hx]; rfl, hown, .inr (.inr (le_refl _))⟩
          · intro hfit
            rw [hnot hfit]
            rfl

/-! ## Giving back -/

/-- The record that has `p` has nothing now. -/
theorem cleared_allocs {ls : List Large} (h : ∃ l ∈ ls, l.alloc = p) :
    ((ls.map Large.alloc).filter (· ≠ 0)).Perm
      (requested p ++ ((ls.replaceF fun l =>
        if l.alloc = p then some { l with alloc := 0 } else none).map Large.alloc).filter
          (· ≠ 0)) := by
  induction ls with
  | nil => exact absurd h (by simp)
  | cons l ls ih =>
      by_cases hl : l.alloc = p
      · simp only [List.replaceF, if_pos hl, List.map_cons]
        unfold requested
        by_cases hp : p = 0 <;> simp [hl, hp]
      · have h' : ∃ l ∈ ls, l.alloc = p := by
          obtain ⟨c, hc, hcp⟩ := h
          rcases List.mem_cons.mp hc with rfl | hc
          · exact absurd hcp hl
          · exact ⟨c, hc, hcp⟩
        simp only [List.replaceF, if_neg hl, List.map_cons]
        by_cases hz : l.alloc = 0
        · simpa [hz] using ih h'
        · simp only [List.filter_cons, ne_eq, hz, not_false_eq_true, decide_true, if_true]
          exact ((ih h').cons _).trans List.perm_middle.symm

theorem mpFree_owns (h : Owns n junk [] s) : ∃ s', mpFree p s = some s' ∧ Owns n junk [] s' := by
  unfold mpFree
  split
  · rename_i hany
    simp only [List.any_eq_true, decide_eq_true_eq] at hany
    have hcleared := cleared_allocs hany
    have hown : Owns n junk (requested p) { s with
        pool := { s.pool with
          large := s.pool.large.replaceF fun l =>
            if l.alloc = p then some { l with alloc := 0 } else none } } := by
      refine h.congr rfl rfl rfl rfl rfl (h.live.trans ?_)
      unfold Pool.owned Pool.homes Pool.allocs
      rw [List.nil_append]
      exact (hcleared.append_right _).trans (.of_eq (List.append_assoc ..))
    obtain ⟨live, hfree, hown⟩ := hown.free
    exact ⟨_, by simp only at hfree; rw [hfree]; rfl, hown⟩
  · exact ⟨s, rfl, h⟩

theorem allocs_ne_zero (pool : Pool) : ∀ p ∈ pool.allocs, p ≠ 0 :=
  fun _ hp => of_decide_eq_true (List.mem_filter.mp hp).2

theorem mpResetPool_owns (h : Owns n junk [] s) :
    (s.pool.next = 0 → ∃ s', mpResetPool s = some s' ∧ Owns n junk [] s') ∧
      (s.pool.next ≠ 0 → mpResetPool s = none) := by
  obtain ⟨live, hfree, -, hperm⟩ := freeAll_perm (allocs_ne_zero s.pool) h.live
  have hframes : (s.pool.nodes.map fun h => { h with last := h.addr + sizeofNode }).map
      Node.frame = s.pool.nodes.map Node.frame := by
    rw [List.map_map]
    rfl
  unfold mpResetPool
  rw [hfree, Option.bind_some]
  refine ⟨fun hnext => ?_, fun hnext => if_neg hnext⟩
  rw [if_pos hnext]
  refine ⟨_, rfl, h.congr hframes rfl rfl rfl rfl (hperm.trans (.of_eq ?_))⟩
  unfold Pool.owned Pool.homes
  simp only [hframes]
  rfl

/-- All that is handed out is given back, if the chain can be walked. -/
theorem mpDestoryPool_iff (h : Owns n junk [] s) : mpDestoryPool s = some [] ↔ junk = 0 := by
  obtain ⟨live₁, h₁, -, hperm₁⟩ := freeAll_perm (allocs_ne_zero s.pool) h.live
  have hadded : ∀ p ∈ s.pool.nodes.tail.map Node.addr, p ≠ 0 := by
    intro p hp
    obtain ⟨b, hb, rfl⟩ := List.mem_map.mp hp
    refine h.added b.frame ?_
    rw [← List.map_tail]
    exact List.mem_map_of_mem hb
  rw [Pool.homes, ← List.map_tail, List.map_map, show Prod.fst ∘ Node.frame = Node.addr from rfl]
    at hperm₁
  obtain ⟨live₂, h₂, -, hperm₂⟩ := freeAll_perm hadded hperm₁
  obtain ⟨live₃, h₃, -, hperm₃⟩ := free_perm hperm₂ h.addr
  have hnil : live₃ = [] := List.map_eq_nil_iff.mp hperm₃.eq_nil
  unfold mpDestoryPool
  simp only [h₁, Option.bind_eq_bind, Option.bind_some, h₂, h₃, hnil, h.next]
  split
  · exact iff_of_true rfl ‹_›
  · exact iff_of_false nofun ‹_›

/-! ## Runs -/

theorem Owns.returned {r : Ptr} (h : Owns n junk [] s) : Owns n junk [] (s.returned r) :=
  h.congr rfl rfl rfl rfl rfl h.live

/-- `mp_alloc` and `mp_nalloc`. -/
theorem alloc_owns (h : Owns n junk [] s) :
    (Served M f size s →
      ∃ r s', (if size ≤ s.pool.max then fromBlocks M f size s else mpAllocLarge M size s) =
        some (r, s') ∧ Owns n junk [] s' ∧
        (r.addr = 0 ∨ r.Writable size ↔ (size ≤ s.pool.max → Fits f size s))) ∧
      (¬ Served M f size s →
        (if size ≤ s.pool.max then fromBlocks M f size s else mpAllocLarge M size s) = none) := by
  by_cases hsize : size ≤ s.pool.max
  · obtain ⟨hfound, hlost⟩ :=
      fromBlocks_owns (M := M) (f := f) h (Nat.le_trans hsize h.max)
    rw [if_pos hsize]
    constructor
    · intro hserved
      obtain ⟨r, s', hr, hown, -, -, hiff⟩ := hfound (hserved.1 hsize)
      exact ⟨r, s', hr, hown, hiff.trans ⟨fun hfit _ => hfit, fun hfit => hfit hsize⟩⟩
    · intro hnot
      exact hlost fun hends => hnot ⟨fun _ => hends, fun hlt => by omega⟩
  · obtain ⟨hfits, hlost⟩ : (LargeFits M size s → _) ∧ (¬ LargeFits M size s → _) :=
      mpAllocLarge_owns h
    rw [if_neg hsize]
    constructor
    · intro hserved
      obtain ⟨r, s', hr, hown, hw⟩ := hfits (hserved.2 (Nat.lt_of_not_le hsize))
      exact ⟨r, s', hr, hown, iff_of_true hw fun hle => absurd hle hsize⟩
    · intro hnot
      exact hlost fun hlarge => hnot ⟨fun hle => absurd hle hsize, fun _ => hlarge⟩

/-- A call goes through if and only if its writes are within the blocks. -/
theorem step_owns (c : Call) (h : Owns n junk [] s) :
    (WritesFit M s c → ∃ s', step M s c = some s' ∧ Owns n junk [] s') ∧
      (¬ WritesFit M s c → step M s c = none) := by
  unfold WritesFit step
  cases c with
  | alloc size =>
      obtain ⟨hfits, hnot⟩ :
        (Served M mpAlignPtr size _ → _) ∧ (¬ Served M mpAlignPtr size _ → _) :=
        alloc_owns h
      refine ⟨fun hfit => ?_, fun hfit => ?_⟩
      · obtain ⟨r, s', hr, hown, -⟩ := hfits hfit
        exact ⟨_, by simp only [mpAlloc, hr]; rfl, hown.returned⟩
      · simp only [mpAlloc, hnot hfit]
        rfl
  | nalloc size =>
      obtain ⟨hfits, hnot⟩ : (Served M id size _ → _) ∧ (¬ Served M id size _ → _) :=
        alloc_owns h
      refine ⟨fun hfit => ?_, fun hfit => ?_⟩
      · obtain ⟨r, s', hr, hown, -⟩ := hfits hfit
        exact ⟨_, by simp only [mpNalloc, hr]; rfl, hown⟩
      · simp only [mpNalloc, hnot hfit]
        rfl
  | calloc size =>
      obtain ⟨hfits, hnot⟩ :
        (Served M mpAlignPtr size _ → _) ∧ (¬ Served M mpAlignPtr size _ → _) :=
        alloc_owns h
      refine ⟨fun hfit => ?_, fun hfit => ?_⟩
      · obtain ⟨r, s', hr, hown, hiff⟩ := hfits hfit.1
        refine ⟨s'.returned r, ?_, hown.returned⟩
        simp only [mpCalloc, mpAlloc, hr, Option.bind_some, if_pos (hiff.mpr hfit.2)]
        rfl
      · by_cases hlarge : Served M mpAlignPtr size s
        · obtain ⟨r, s', hr, -, hiff⟩ := hfits hlarge
          have hw := fun hw => hfit ⟨hlarge, hiff.mp hw⟩
          simp only [mpCalloc, mpAlloc, hr, Option.bind_some, if_neg hw]
          rfl
        · simp only [mpCalloc, mpAlloc, hnot hlarge]
          rfl
  | memalign size alignment =>
      simp only [mpMemalign]
      cases hreq : request M s alignment size with
      | none =>
          refine ⟨fun _ => ⟨_, rfl, h.refused⟩, fun hfit => absurd (fun hsome => ?_) hfit⟩
          rw [Option.map_eq_none_iff.mp hreq] at hsome
          exact absurd hsome nofun
      | some x =>
          obtain ⟨p, s₁⟩ := x
          obtain ⟨h₁, hpool, htake⟩ := h.request hreq
          rw [List.append_nil] at h₁
          obtain ⟨hfits, hnot⟩ := newRecord_owns (M := M) h₁
          have hsame : RecordFits s ↔ RecordFits s₁ := by
            unfold RecordFits Ends Fits
            rw [hpool]
          simp only [htake, Option.isSome_some, forall_const, hsame]
          refine ⟨fun hfit => ?_, fun hfit => by rw [hnot hfit]; rfl⟩
          obtain ⟨x, hx, hown⟩ := hfits hfit
          exact ⟨_, by rw [hx]; rfl, hown⟩
  | free p => exact ⟨fun _ => mpFree_owns h, fun hfit => absurd trivial hfit⟩
  | reset => exact mpResetPool_owns h

/-- A new pool has nothing but itself. -/
theorem mpCreatePool_owns (hsize : size < 2 ^ 64)
    (h : mpCreatePool M junk size = some (some s)) : Owns size junk [] s := by
  unfold mpCreatePool at h
  simp only at h
  split at h
  · exact absurd h (by simp)
  · rename_i p htake
    split at h
    · rename_i hheader
      simp only [Option.some.injEq] at h
      obtain rfl := h
      have hpsize : addU64 (addU64 size sizeofPool) sizeofNode =
          size + (sizeofPool + sizeofNode) := by
        unfold addU64 sizeofPool sizeofNode at *
        omega
      have hlow := M.low htake
      have hp : p ≠ 0 := by
        rintro rfl
        exact absurd (M.null htake ▸ hheader) (by decide)
      refine ⟨rfl, hp, ?_, ?_, ?_, ?_, Nat.one_pos, ?_⟩
      · omega
      · show (if size < mpMaxAllocFromPool then size else mpMaxAllocFromPool) ≤ size
        split <;> omega
      · intro x hx
        rw [List.mem_singleton.mp hx]
        show p + sizeofPool + sizeofNode + size = p + sizeofPool + (sizeofNode + size)
        omega
      · exact fun x hx => absurd hx List.not_mem_nil
      · simp only [handOut, if_neg hp]
        exact .refl _
    · exact absurd h nofun

end

/--
**A pool releases everything exactly once if and only if** its memory was zero where the
`next` of the head is, and no record and no zeros are written past the end of a block. The
calls go through then, and `mp_destory_pool` gives back all that is handed out.
-/
theorem releases_iff (M : Malloc) (junk size : Nat) (calls : List Call) (s₀ : State)
    (hsize : size < 2 ^ 64) (hcreate : mpCreatePool M junk size = some (some s₀)) :
    (∃ s, run (step M) s₀ calls = some s ∧ mpDestoryPool s = some []) ↔
      junk = 0 ∧ Meets (step M) (WritesFit M) s₀ calls := by
  have hown := mpCreatePool_owns hsize hcreate
  have hruns := run_isSome_iff_meets (WritesFit M) (fun _ c h => (step_owns c h).1)
    (fun _ c h => (step_owns c h).2) calls s₀ hown
  constructor
  · rintro ⟨s, hrun, hdestroy⟩
    have hmeets := hruns.mp ⟨s, hrun⟩
    obtain ⟨s', hrun', h⟩ := run_meets (WritesFit M) (fun _ c h => (step_owns c h).1) calls s₀
      hown hmeets
    rw [hrun] at hrun'
    obtain rfl := Option.some.inj hrun'
    exact ⟨(mpDestoryPool_iff h).mp hdestroy, hmeets⟩
  · rintro ⟨hjunk, hmeets⟩
    obtain ⟨s, hrun, h⟩ := run_meets (WritesFit M) (fun _ c h => (step_owns c h).1) calls s₀
      hown hmeets
    exact ⟨s, hrun, (mpDestoryPool_iff h).mpr hjunk⟩

/-- A small pool in memory that was zero, some calls on it, and its end. -/
theorem releases_some :
    ∃ s₀, mpCreatePool bumpMalloc 0 64 = some (some s₀) ∧
      ((∃ s, run (step bumpMalloc) s₀ [.alloc 32, .alloc 100, .free 160, .calloc 64, .reset] =
        some s ∧ mpDestoryPool s = some []) ↔
      0 = 0 ∧ Meets (step bumpMalloc) (WritesFit bumpMalloc) s₀
        [.alloc 32, .alloc 100, .free 160, .calloc 64, .reset]) :=
  ⟨_, rfl, releases_iff bumpMalloc 0 64 _ _ (by decide) rfl⟩

/-- In a pool in memory that was not, its end follows what was there. And a record is written
past the end of a block that an unaligned allocation left with a short rest. -/
theorem releases_not :
    (∃ s₀, mpCreatePool bumpMalloc 1 64 = some (some s₀) ∧
      ¬ ∃ s, run (step bumpMalloc) s₀ [] = some s ∧ mpDestoryPool s = some []) ∧
    ∃ s₀, mpCreatePool bumpMalloc 0 64 = some (some s₀) ∧
      ¬ ∃ s, run (step bumpMalloc) s₀ [.nalloc 60, .alloc 100] = some s ∧
        mpDestoryPool s = some [] := by
  refine ⟨⟨_, rfl, ?_⟩, _, rfl, ?_⟩
  · rintro ⟨s, hrun, hdestroy⟩
    obtain rfl := Option.some.inj hrun
    exact absurd hdestroy (by decide)
  · rintro ⟨s, hrun, -⟩
    exact absurd (Option.isSome_of_mem hrun) (by decide +kernel)

end CppTrack.Memory
