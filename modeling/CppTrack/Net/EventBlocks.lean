import Mathlib.Data.List.Nodup
import CppTrack.Lib.Heap
import CppTrack.Lib.Run

/-!
# The event table of the websocket server (`websocket_server.c`)

The reactor keeps one `struct ntyevent` for each descriptor. They lie in arrays of
`MAX_EPOLL_EVENTS`, each hung on a block, and the blocks form a list that grows at its end.
`ntyreactor_idx` finds the element of a descriptor: it adds blocks until there are enough, and then
walks to the right one.

A walk that visits more blocks than were ever allocated goes round in circles. Pointers are
addresses in a heap of blocks and a heap of arrays, `none` being the null pointer.
-/

namespace CppTrack.EventBlocks

open Lib

/-- `MAX_EPOLL_EVENTS`. -/
def maxEpollEvents : Nat := 1024

/-- `BUFFER_LENGTH`. -/
def bufferLength : Nat := 4096

/-- `struct ntyevent`. -/
structure NtyEvent where
  fd : Int
  events : Int
  arg : Option Nat
  callback : Option Nat
  status : Int
  buffer : List UInt8
  length : Int
  lastActive : Int
  statusMachine : Int

/-- What `memset` makes of one. -/
def NtyEvent.zero : NtyEvent where
  fd := 0
  events := 0
  arg := none
  callback := none
  status := 0
  buffer := List.replicate bufferLength 0
  length := 0
  lastActive := 0
  statusMachine := 0

/-- `struct eventblock`. -/
structure EventBlock where
  next : Option Nat
  events : Nat

/-- `struct ntyreactor`. -/
structure NtyReactor where
  epfd : Int
  blkcnt : Nat
  evblk : Option Nat

/-- The reactor, and the memory its blocks are in. -/
structure Table where
  reactor : NtyReactor
  blocks : Heap EventBlock
  arrays : Heap (Nat → NtyEvent)

/-- A `struct ntyevent *`: an array and an index. -/
@[ext]
structure EventPtr where
  array : Nat
  index : Nat
  deriving DecidableEq

/-- `malloc` and `memset` of an array, and of a block that it is hung on. -/
def newBlock (T : Table) : Nat × Table :=
  let (evs, arrays) := T.arrays.alloc fun _ => .zero
  let (block, blocks) := T.blocks.alloc ⟨none, evs⟩
  (block, { T with blocks, arrays })

/-- `ntyreactor_init`; `epfd` is what `epoll_create` returned. -/
def ntyreactorInit (epfd : Int) : Except Int Table :=
  let T : Table := ⟨⟨epfd, 0, none⟩, .empty, .empty⟩
  if epfd ≤ 0 then .error (-2) else
    let (block, T) := newBlock T
    .ok { T with reactor := { T.reactor with evblk := some block, blkcnt := 1 } }

/-- `while (blk->next != NULL) blk = blk->next;` -/
def lastBlock (blocks : Heap EventBlock) : (fuel : Nat) → (blk : Nat) → Option Nat
  | 0, _ => none
  | fuel + 1, blk =>
      (blocks.get blk).bind fun b =>
        match b.next with
        | none => some blk
        | some next => lastBlock blocks fuel next

/-- `ntyreactor_alloc`: the number returned and the new table. -/
def ntyreactorAlloc (T : Table) : Option (Int × Table) :=
  match T.reactor.evblk with
  | none => some (-1, T)
  | some evblk => do
      let blk ← lastBlock T.blocks T.blocks.next evblk
      let (block, T) := newBlock T
      let blocks ← T.blocks.modify blk fun b => { b with next := some block }
      return (0, { T with blocks, reactor := { T.reactor with blkcnt := T.reactor.blkcnt + 1 } })

/-- `while (blkidx >= reactor->blkcnt) ntyreactor_alloc(reactor);` -/
def grow (blkidx : Nat) : (fuel : Nat) → Table → Option Table
  | 0, T => if blkidx ≥ T.reactor.blkcnt then none else some T
  | fuel + 1, T =>
      if blkidx ≥ T.reactor.blkcnt then
        (ntyreactorAlloc T).bind fun r => grow blkidx fuel r.2
      else some T

/-- `while (i ++ < blkidx && blk != NULL) blk = blk->next;`, with `n` turns to go. -/
def walk (blocks : Heap EventBlock) : (n : Nat) → (blk : Option Nat) → Option (Option Nat)
  | 0, blk => some blk
  | _ + 1, none => some none
  | n + 1, some blk => (blocks.get blk).bind fun b => walk blocks n b.next

/-- `ntyreactor_idx`. Each call of `ntyreactor_alloc` is for one missing block. -/
def ntyreactorIdx (T : Table) (sockfd : Nat) : Option (EventPtr × Table) := do
  let blkidx := sockfd / maxEpollEvents
  let T ← grow blkidx (blkidx + 1 - T.reactor.blkcnt) T
  let blk ← walk T.blocks blkidx T.reactor.evblk
  let blk ← blk
  let b ← T.blocks.get blk
  return (⟨b.events, sockfd % maxEpollEvents⟩, T)

/-! ## Histories -/

/-- What is done with the table: an element is looked up, or written to by who looked it up. -/
inductive Op where
  | idx (sockfd : Nat)
  | store (p : EventPtr) (ev : NtyEvent)

/-- A table and what the calls of `ntyreactor_idx` have returned. -/
structure History where
  table : Table
  given : List (Nat × EventPtr)

def step (H : History) : Op → Option History
  | .idx sockfd => (ntyreactorIdx H.table sockfd).map fun r => ⟨r.2, (sockfd, r.1) :: H.given⟩
  | .store p ev =>
      if p.index < maxEpollEvents then
        (H.table.arrays.modify p.array fun arr => Function.update arr p.index ev).map fun arrays =>
          { H with table := { H.table with arrays } }
      else none

/-! ## What is right -/

/-- The list of blocks from a pointer on: for each its address and that of its array. -/
def BlocksAt (blocks : Heap EventBlock) : Option Nat → List (Nat × Nat) → Prop
  | blk, [] => blk = none
  | blk, (a, evs) :: bs =>
      blk = some a ∧ ∃ next, blocks.get a = some ⟨next, evs⟩ ∧ BlocksAt blocks next bs

/-- An element of the array of a block on the list. -/
def InBlock (T : Table) (bs : List (Nat × Nat)) (i : Nat) (p : EventPtr) : Prop :=
  p.index < maxEpollEvents ∧ (T.arrays.get p.array).isSome ∧ bs[i]?.map Prod.snd = some p.array

/-- The blocks are counted, and the elements that were returned are the descriptors' own. -/
structure Right (H : History) (bs : List (Nat × Nat)) : Prop where
  blocks : BlocksAt H.table.blocks H.table.reactor.evblk bs
  count : H.table.reactor.blkcnt = bs.length
  inside : ∀ c ∈ H.given, InBlock H.table bs (c.1 / maxEpollEvents) c.2
  own : ∀ c ∈ H.given, ∀ c' ∈ H.given, c.1 = c'.1 ↔ c.2 = c'.2

/-- Every array is still there, and holds what it held. -/
def Unchanged (T T' : Table) : Prop :=
  ∀ a arr, T.arrays.get a = some arr → T'.arrays.get a = some arr

/-! ## The list of blocks -/

section

variable {blocks blocks' : Heap EventBlock} {blk : Option Nat} {bs front : List (Nat × Nat)}
  {a evs n evs' : Nat}

theorem BlocksAt.live (h : BlocksAt blocks blk bs) : ∀ b ∈ bs, (blocks.get b.1).isSome := by
  induction bs generalizing blk with
  | nil => exact fun b hb => absurd hb List.not_mem_nil
  | cons b bs ih =>
      obtain ⟨-, next, hget, hrest⟩ := h
      intro b' hb'
      rcases List.mem_cons.mp hb' with heq | hin
      · rw [heq, hget]
        rfl
      · exact ih hrest b' hin

/-- The last block points nowhere. -/
theorem BlocksAt.last (h : BlocksAt blocks blk (front ++ [(a, evs)])) :
    blocks.get a = some ⟨none, evs⟩ := by
  induction front generalizing blk with
  | nil =>
      obtain ⟨-, next, hget, hnext⟩ := h
      obtain rfl : next = none := hnext
      exact hget
  | cons b front ih =>
      obtain ⟨-, next, -, hrest⟩ := h
      exact ih hrest

/-- The last block is made to point to a new one. -/
theorem BlocksAt.concat (h : BlocksAt blocks blk (front ++ [(a, evs)]))
    (hnodup : ((front ++ [(a, evs)]).map Prod.fst).Nodup)
    (hlast : blocks'.get a = some ⟨some n, evs⟩) (hnew : blocks'.get n = some ⟨none, evs'⟩)
    (hsame : ∀ b ∈ front, b.1 ≠ a → blocks'.get b.1 = blocks.get b.1) :
    BlocksAt blocks' blk (front ++ [(a, evs)] ++ [(n, evs')]) := by
  induction front generalizing blk with
  | nil =>
      obtain ⟨hblk, -⟩ := h
      exact ⟨hblk, some n, hlast, rfl, none, hnew, rfl⟩
  | cons b front ih =>
      obtain ⟨hblk, next, hget, hrest⟩ := h
      rw [List.cons_append, List.map_cons, List.nodup_cons] at hnodup
      have hne : b.1 ≠ a := by
        intro heq
        have hin : a ∈ (front ++ [(a, evs)]).map Prod.fst :=
          List.mem_map.mpr ⟨_, List.mem_append_right front List.mem_cons_self, rfl⟩
        exact hnodup.1 (heq ▸ hin)
      refine ⟨hblk, next, ?_, ?_⟩
      · rw [hsame b List.mem_cons_self hne]
        exact hget
      · exact ih hrest hnodup.2 fun b hb => hsame b (List.mem_cons_of_mem _ hb)

/-- The loop in `ntyreactor_alloc` comes to the last block. -/
theorem lastBlock_eq {fuel p : Nat} (h : BlocksAt blocks (some p) (front ++ [(a, evs)]))
    (hfuel : front.length < fuel) : lastBlock blocks fuel p = some a := by
  induction front generalizing fuel p with
  | nil =>
      obtain ⟨fuel, rfl⟩ := Nat.exists_eq_succ_of_ne_zero (Nat.ne_of_gt hfuel)
      obtain ⟨hp, next, hget, hnext⟩ := h
      obtain rfl : next = none := hnext
      obtain rfl := Option.some.inj hp
      rw [lastBlock, hget]
      rfl
  | cons b front ih =>
      have hpos : fuel ≠ 0 := Nat.ne_of_gt (Nat.zero_lt_of_lt hfuel)
      obtain ⟨fuel, rfl⟩ := Nat.exists_eq_succ_of_ne_zero hpos
      obtain ⟨hp, next, hget, hrest⟩ := h
      obtain rfl := Option.some.inj hp
      -- there is a block behind this one, since the last one is
      cases next with
      | none => cases front <;> exact absurd hrest.1 nofun
      | some next =>
          rw [lastBlock, hget]
          exact ih hrest (Nat.lt_of_succ_lt_succ hfuel)

/-- The loop in `ntyreactor_idx` comes to the block with that number. -/
theorem walk_eq {i : Nat} (h : BlocksAt blocks blk bs) (hi : i < bs.length) :
    ∃ b next, bs[i]? = some b ∧ walk blocks i blk = some (some b.1) ∧
      blocks.get b.1 = some ⟨next, b.2⟩ := by
  induction bs generalizing blk i with
  | nil => exact absurd hi (Nat.not_lt_zero _)
  | cons b bs ih =>
      obtain ⟨rfl, next, hget, hrest⟩ := h
      cases i with
      | zero => exact ⟨b, next, rfl, rfl, hget⟩
      | succ i =>
          obtain ⟨b', next', hb', hwalk, hget'⟩ := ih hrest (Nat.lt_of_succ_lt_succ hi)
          refine ⟨b', next', hb', ?_, hget'⟩
          rw [walk, hget]
          exact hwalk

end

/-! ## Growing -/

/-- A table whose blocks are counted and have an array each. -/
structure Shape (T : Table) (bs : List (Nat × Nat)) : Prop where
  blocks : BlocksAt T.blocks T.reactor.evblk bs
  count : T.reactor.blkcnt = bs.length
  nonempty : bs ≠ []
  /-- As many blocks were allocated as are on the list. -/
  allocated : bs.length ≤ T.blocks.next
  addresses : (bs.map Prod.fst).Nodup
  arrays : (bs.map Prod.snd).Nodup
  live : ∀ b ∈ bs, (T.arrays.get b.2).isSome
  /-- Nothing is at an address that was not handed out. -/
  fresh : ∀ a, T.blocks.next ≤ a → T.blocks.get a = none
  fresh_array : ∀ a, T.arrays.next ≤ a → T.arrays.get a = none

section

variable {T T' : Table} {bs : List (Nat × Nat)}

theorem Unchanged.refl (T : Table) : Unchanged T T := fun _ _ => id

theorem Unchanged.trans {T'' : Table} (h : Unchanged T T') (h' : Unchanged T' T'') :
    Unchanged T T'' := fun a arr hget => h' a arr (h a arr hget)

theorem Shape.address_lt (h : Shape T bs) : ∀ b ∈ bs, b.1 < T.blocks.next := by
  intro b hb
  by_contra hle
  have hlive := h.blocks.live b hb
  rw [h.fresh b.1 (Nat.le_of_not_lt hle)] at hlive
  exact absurd hlive nofun

theorem Shape.array_lt (h : Shape T bs) : ∀ b ∈ bs, b.2 < T.arrays.next := by
  intro b hb
  by_contra hle
  have hlive := h.live b hb
  rw [h.fresh_array b.2 (Nat.le_of_not_lt hle)] at hlive
  exact absurd hlive nofun

/-- The table with a new block behind the last one, which is at `a`. -/
def hung (T : Table) (a evs : Nat) : Table where
  reactor := { T.reactor with blkcnt := T.reactor.blkcnt + 1 }
  blocks := (T.blocks.alloc ⟨none, T.arrays.next⟩).2.put a ⟨some T.blocks.next, evs⟩
  arrays := (T.arrays.alloc fun _ => NtyEvent.zero).2

section

variable {a evs : Nat} {front : List (Nat × Nat)}

theorem get_hung_of_ne {c : Nat} (hca : c ≠ a) (hcn : c ≠ T.blocks.next) :
    (hung T a evs).blocks.get c = T.blocks.get c :=
  (Heap.get_put_of_ne _ _ hca).trans (Heap.get_alloc_of_ne _ _ hcn)

theorem get_hung_last : (hung T a evs).blocks.get a = some ⟨some T.blocks.next, evs⟩ :=
  Heap.get_put_self _ _ _

theorem get_hung_new (hne : T.blocks.next ≠ a) :
    (hung T a evs).blocks.get T.blocks.next = some ⟨none, T.arrays.next⟩ :=
  (Heap.get_put_of_ne _ _ hne).trans (Heap.get_alloc_self _ _)

theorem arrays_hung_new :
    (hung T a evs).arrays.get T.arrays.next = some fun _ => NtyEvent.zero :=
  Heap.get_alloc_self _ _

theorem arrays_hung_of_ne {c : Nat} (hne : c ≠ T.arrays.next) :
    (hung T a evs).arrays.get c = T.arrays.get c := Heap.get_alloc_of_ne _ _ hne

theorem unchanged_hung (h : Shape T bs) : Unchanged T (hung T a evs) := by
  intro c arr hc
  have hne : c ≠ T.arrays.next := by
    intro heq
    rw [heq, h.fresh_array _ (Nat.le_refl _)] at hc
    exact absurd hc nofun
  rw [arrays_hung_of_ne hne, hc]

theorem Shape.hung (h : Shape T (front ++ [(a, evs)])) :
    Shape (hung T a evs) (front ++ [(a, evs)] ++ [(T.blocks.next, T.arrays.next)]) := by
  have hlt : a < T.blocks.next := h.address_lt (a, evs) (List.mem_append_right _ List.mem_cons_self)
  constructor
  case blocks =>
    refine h.blocks.concat h.addresses get_hung_last (get_hung_new (Nat.ne_of_gt hlt)) ?_
    intro b hb hba
    exact get_hung_of_ne hba (Nat.ne_of_lt (h.address_lt b (List.mem_append_left _ hb)))
  case count =>
    rw [List.length_append, ← h.count]
    rfl
  case nonempty => exact List.append_ne_nil_of_right_ne_nil _ (List.cons_ne_nil _ _)
  case allocated =>
    rw [List.length_append]
    exact Nat.succ_le_succ h.allocated
  case addresses =>
    rw [List.map_append, List.map_singleton, ← List.concat_eq_append]
    refine (List.nodup_concat _ _).mpr ⟨?_, h.addresses⟩
    intro hin
    obtain ⟨b, hb, heq⟩ := List.mem_map.mp hin
    exact Nat.ne_of_lt (h.address_lt b hb) heq
  case arrays =>
    rw [List.map_append, List.map_singleton, ← List.concat_eq_append]
    refine (List.nodup_concat _ _).mpr ⟨?_, h.arrays⟩
    intro hin
    obtain ⟨b, hb, heq⟩ := List.mem_map.mp hin
    exact Nat.ne_of_lt (h.array_lt b hb) heq
  case live =>
    intro b hb
    rcases List.mem_append.mp hb with hb | hb
    · rw [arrays_hung_of_ne (Nat.ne_of_lt (h.array_lt b hb))]
      exact h.live b hb
    · rw [List.mem_singleton.mp hb, arrays_hung_new]
      rfl
  case fresh =>
    intro c hc
    have hle : T.blocks.next + 1 ≤ c := hc
    rw [get_hung_of_ne (by omega) (by omega)]
    exact h.fresh c (by omega)
  case fresh_array =>
    intro c hc
    have hle : T.arrays.next + 1 ≤ c := hc
    rw [arrays_hung_of_ne (by omega)]
    exact h.fresh_array c (by omega)

theorem ntyreactorAlloc_eq (h : Shape T (front ++ [(a, evs)])) :
    ntyreactorAlloc T = some (0, EventBlocks.hung T a evs) := by
  have hblocks := h.blocks
  -- the first block is where the reactor says
  obtain ⟨p, hp⟩ : ∃ p, T.reactor.evblk = some p := by
    cases front with
    | nil => exact ⟨_, hblocks.1⟩
    | cons b front => exact ⟨_, hblocks.1⟩
  have ha := hblocks.last
  rw [hp] at hblocks
  have hlast : lastBlock T.blocks T.blocks.next p = some a := by
    refine lastBlock_eq hblocks ?_
    have hallocated := h.allocated
    rw [List.length_append] at hallocated
    exact hallocated
  have hne : a ≠ T.blocks.next :=
    Nat.ne_of_lt (h.address_lt (a, evs) (List.mem_append_right _ List.mem_cons_self))
  have hstill : (T.blocks.alloc ⟨none, T.arrays.next⟩).2.get a = some ⟨none, evs⟩ := by
    rw [Heap.get_alloc_of_ne _ _ hne, ha]
  have hmodify := Heap.modify_eq hstill fun b => { b with next := some T.blocks.next }
  simp only [ntyreactorAlloc, hp, hlast, newBlock, Heap.fst_alloc, Option.bind_eq_bind,
    Option.bind_some, hmodify]
  rw [← hp]
  rfl

end

/-- **`ntyreactor_alloc`** hangs one more block on the end. -/
theorem ntyreactorAlloc_spec (h : Shape T bs) :
    ∃ T' b, ntyreactorAlloc T = some (0, T') ∧ Shape T' (bs ++ [b]) ∧ Unchanged T T' := by
  obtain ⟨front, ⟨a, evs⟩, rfl⟩ : ∃ front b, bs = front ++ [b] :=
    ⟨_, _, (List.dropLast_append_getLast h.nonempty).symm⟩
  exact ⟨hung T a evs, _, ntyreactorAlloc_eq h, h.hung, unchanged_hung h⟩

/-- The loop in `ntyreactor_idx` ends with enough blocks. -/
theorem grow_spec {blkidx : Nat} (fuel : Nat) (h : Shape T bs)
    (hfuel : blkidx < bs.length + fuel) :
    ∃ T' more, grow blkidx fuel T = some T' ∧ Shape T' (bs ++ more) ∧
      blkidx < (bs ++ more).length ∧ Unchanged T T' := by
  induction fuel generalizing T bs with
  | zero =>
      refine ⟨T, [], ?_, (List.append_nil bs).symm ▸ h, ?_, .refl T⟩
      · rw [grow, h.count, if_neg (by omega)]
      · rw [List.append_nil]
        exact hfuel
  | succ fuel ih =>
      rw [grow, h.count]
      split
      · obtain ⟨T₁, b, halloc, h₁, hsame₁⟩ := ntyreactorAlloc_spec h
        have hfuel₁ : blkidx < (bs ++ [b]).length + fuel := by
          rw [List.length_append, List.length_singleton]
          omega
        obtain ⟨T', more, hgrow, h', hlt, hsame⟩ := ih h₁ hfuel₁
        rw [List.append_assoc] at h' hlt
        refine ⟨T', [b] ++ more, ?_, h', hlt, hsame₁.trans hsame⟩
        rw [halloc]
        exact hgrow
      · refine ⟨T, [], rfl, (List.append_nil bs).symm ▸ h, ?_, .refl T⟩
        rw [List.append_nil]
        omega

/-- **`ntyreactor_idx`** returns the element of the descriptor. -/
theorem ntyreactorIdx_spec (h : Shape T bs) (sockfd : Nat) :
    ∃ T' more b, ntyreactorIdx T sockfd = some (⟨b.2, sockfd % maxEpollEvents⟩, T') ∧
      Shape T' (bs ++ more) ∧ (bs ++ more)[sockfd / maxEpollEvents]? = some b ∧
      Unchanged T T' := by
  generalize hblkidx : sockfd / maxEpollEvents = blkidx
  have hfuel : blkidx < bs.length + (blkidx + 1 - T.reactor.blkcnt) := by
    rw [h.count]
    omega
  obtain ⟨T', more, hgrow, h', hlt, hsame⟩ := grow_spec _ h hfuel
  obtain ⟨b, next, hb, hwalk, hget⟩ := walk_eq h'.blocks hlt
  refine ⟨T', more, b, ?_, h', hb, hsame⟩
  simp only [ntyreactorIdx, hblkidx, hgrow, hwalk, hget, Option.bind_eq_bind, Option.bind_some]
  rfl

/-! ## Runs -/

theorem shape_init {epfd : Int} (hinit : ntyreactorInit epfd = .ok T) : Shape T [(0, 0)] := by
  rw [ntyreactorInit] at hinit
  split at hinit
  · exact absurd hinit nofun
  · obtain rfl := Except.ok.inj hinit
    refine ⟨⟨rfl, none, rfl, rfl⟩, rfl, List.cons_ne_nil _ _, Nat.le_refl _,
      List.nodup_singleton _, List.nodup_singleton _, ?_, ?_, ?_⟩
    · intro b hb
      rw [List.mem_singleton.mp hb]
      rfl
    · intro a ha
      exact Heap.get_alloc_of_ne _ _ (Nat.ne_of_gt ha)
    · intro a ha
      exact Heap.get_alloc_of_ne _ _ (Nat.ne_of_gt ha)

/-- What is kept of a history: its table is in shape, and each element that was returned is that of
its descriptor. -/
structure Inv (H : History) (bs : List (Nat × Nat)) : Prop where
  shape : Shape H.table bs
  given : ∀ c ∈ H.given, c.2.index = c.1 % maxEpollEvents ∧
    bs[c.1 / maxEpollEvents]?.map Prod.snd = some c.2.array

variable {H H' : History}

theorem Inv.idx (h : Inv H bs) (sockfd : Nat) :
    ∃ H' more, step H (.idx sockfd) = some H' ∧ Inv H' (bs ++ more) ∧
      Unchanged H.table H'.table := by
  obtain ⟨T', more, b, hidx, hshape, hb, hsame⟩ := ntyreactorIdx_spec h.shape sockfd
  let c : Nat × EventPtr := (sockfd, ⟨b.2, sockfd % maxEpollEvents⟩)
  refine ⟨⟨T', c :: H.given⟩, more, ?_, ⟨hshape, ?_⟩, hsame⟩
  · rw [step, hidx]
    rfl
  · intro c hc
    rcases List.mem_cons.mp hc with rfl | hc
    · exact ⟨rfl, congrArg _ hb⟩
    · obtain ⟨hindex, harray⟩ := h.given c hc
      obtain ⟨b', hb', hsnd⟩ := Option.map_eq_some_iff.mp harray
      -- a block does not move when others are hung behind it
      refine ⟨hindex, ?_⟩
      rw [List.getElem?_append_left (List.getElem?_eq_some_iff.mp hb').1, hb']
      exact congrArg some hsnd

theorem Inv.store {p : EventPtr} {ev : NtyEvent} (h : Inv H bs)
    (hstep : step H (.store p ev) = some H') : Inv H' bs := by
  rw [step] at hstep
  split at hstep
  · obtain ⟨arrays, harrays, rfl⟩ := Option.map_eq_some_iff.mp hstep
    obtain ⟨arr, harr, rfl⟩ := Option.map_eq_some_iff.mp harrays
    refine ⟨{ h.shape with live := ?_, fresh_array := ?_ }, h.given⟩
    · intro b hb
      by_cases heq : b.2 = p.array
      · rw [heq]
        exact congrArg Option.isSome (Heap.get_put_self _ _ _)
      · exact (congrArg Option.isSome (Heap.get_put_of_ne _ _ heq)).trans (h.shape.live b hb)
    · intro a ha
      have hnone := h.shape.fresh_array a ha
      have hne : a ≠ p.array := by
        intro heq
        rw [heq, harr] at hnone
        exact absurd hnone nofun
      exact (Heap.get_put_of_ne _ _ hne).trans hnone
  · exact absurd hstep nofun

theorem inv_step {op : Op} (h : ∃ bs, Inv H bs) (hstep : step H op = some H') :
    ∃ bs, Inv H' bs := by
  obtain ⟨bs, h⟩ := h
  cases op with
  | idx sockfd =>
      obtain ⟨H₁, more, h₁, hinv, -⟩ := h.idx sockfd
      obtain rfl := Option.some.inj (h₁.symm.trans hstep)
      exact ⟨bs ++ more, hinv⟩
  | store p ev => exact ⟨bs, h.store hstep⟩

/-- Calls of `ntyreactor_idx` one after another all return, and change no element. -/
theorem run_idx (fds : List Nat) (h : ∃ bs, Inv H bs) :
    ∃ H', run step H (fds.map Op.idx) = some H' ∧ (∃ bs, Inv H' bs) ∧
      Unchanged H.table H'.table := by
  induction fds generalizing H with
  | nil => exact ⟨H, rfl, h, .refl _⟩
  | cons fd fds ih =>
      obtain ⟨bs, h⟩ := h
      obtain ⟨H₁, more, h₁, hinv, hsame₁⟩ := h.idx fd
      obtain ⟨H', hrun, hinv', hsame⟩ := ih ⟨_, hinv⟩
      refine ⟨H', ?_, hinv', hsame₁.trans hsame⟩
      rw [List.map_cons, run, h₁]
      exact hrun

/-- No two blocks have one array, so the array and the index give the descriptor back. -/
theorem Inv.right (h : Inv H bs) : Right H bs := by
  have hin : ∀ c ∈ H.given, InBlock H.table bs (c.1 / maxEpollEvents) c.2 := by
    intro c hc
    obtain ⟨hindex, harray⟩ := h.given c hc
    obtain ⟨b, hb, hsnd⟩ := Option.map_eq_some_iff.mp harray
    refine ⟨?_, ?_, harray⟩
    · rw [hindex]
      exact Nat.mod_lt _ (by decide)
    · rw [← hsnd]
      exact h.shape.live b (List.mem_of_getElem? hb)
  refine ⟨h.shape.blocks, h.shape.count, hin, ?_⟩
  intro c hc c' hc'
  obtain ⟨hindex, harray⟩ := h.given c hc
  obtain ⟨hindex', harray'⟩ := h.given c' hc'
  constructor
  · intro hfd
    rw [← hfd] at hindex' harray'
    have heq := Option.some.inj (harray.symm.trans harray')
    exact EventPtr.ext heq (hindex.trans hindex'.symm)
  · intro hp
    rw [← hp] at hindex' harray'
    have hmod := hindex.symm.trans hindex'
    rw [← List.getElem?_map] at harray harray'
    obtain ⟨hlt, -⟩ := List.getElem?_eq_some_iff.mp harray
    have hdiv := (List.getElem?_inj hlt h.shape.arrays).mp (harray.trans harray'.symm)
    rw [← Nat.div_add_mod c.1 maxEpollEvents, hdiv, hmod, Nat.div_add_mod]

/--
From an initialised reactor, whatever was looked up and written before: any further calls of
`ntyreactor_idx` return, the blocks on the list are as many as `blkcnt` says, what was returned for
a descriptor then and before is one element of the array of its block and that of no other
descriptor, and no element is changed by the growth of the table.
-/
theorem lookups_right {epfd : Int} {T₀ : Table} (hinit : ntyreactorInit epfd = .ok T₀)
    (ops : List Op) (hrun : run step ⟨T₀, []⟩ ops = some H) (fds : List Nat) :
    ∃ H' bs, run step H (fds.map Op.idx) = some H' ∧ Right H' bs ∧
      Unchanged H.table H'.table := by
  have hstart : ∃ bs, Inv ⟨T₀, []⟩ bs :=
    ⟨_, shape_init hinit, fun c hc => absurd hc List.not_mem_nil⟩
  have hinv : ∃ bs, Inv H bs := run_keeps (fun _ _ _ h hs => inv_step h hs) ops hstart hrun
  obtain ⟨H', hrun', ⟨bs, hinv'⟩, hsame⟩ := run_idx fds hinv
  exact ⟨H', bs, hrun', hinv'.right, hsame⟩

/-- Three lookups, the first of which makes the table grow by two blocks. -/
theorem lookups_right_grown : ∃ T₀ H bs, ntyreactorInit 3 = .ok T₀ ∧
    run step ⟨T₀, []⟩ ([2500, 7, 2500].map Op.idx) = some H ∧ Right H bs ∧
      Unchanged T₀ H.table := by
  obtain ⟨T₀, hinit⟩ : ∃ T₀, ntyreactorInit 3 = .ok T₀ := ⟨_, rfl⟩
  obtain ⟨H, bs, h⟩ := lookups_right hinit [] rfl [2500, 7, 2500]
  exact ⟨T₀, H, bs, hinit, h⟩

end

end CppTrack.EventBlocks
