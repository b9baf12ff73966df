import CppTrack.Lib.Run

/-!
# The redis adapter (`adapter.h`, `reactor.h`)

hiredis asks through four callbacks to be told when a connection can be read or written, and the
adapter keeps in `mask` what was asked for and passes it on to epoll: a descriptor is added to the
table with its first flag, modified while it has another one, and deleted with the last. The table
of one reactor is a function from descriptors to entries; a context is a number and has one of them.

`enable_event` makes the new interest out of the flag it is called for alone, so that the other one
is lost. Calls that never find another flag set keep the table in step with the masks.
-/

namespace CppTrack.RedisAdapter

open Lib

def epollin : UInt32 := 0x001
def epollout : UInt32 := 0x004

def redisOk : Int := 0
def redisErr : Int := -1

inductive Handler where
  | redisReadHandler
  | redisWriteHandler

/-- `event_t`, but for the one reactor it points to. -/
structure EventT where
  fd : Nat
  readFn : Option Handler
  writeFn : Option Handler
  acceptFn : Option Handler

/-- `redis_event_t`. -/
structure RedisEvent where
  e : EventT
  mask : UInt32
  ctx : Nat

/-- What `ev.data` of a context points to. It is not cleared when that is freed. -/
inductive EvData where
  | null
  | live (re : RedisEvent)
  | freed

/-- `struct epoll_event`; the pointer is to the event of this context. -/
structure EpollEvent where
  events : UInt32
  ptr : Nat

abbrev Epoll := Nat → Option EpollEvent

/-- The contexts, the table, and which contexts are attached and not cleaned up. -/
structure World where
  data : Nat → EvData
  epoll : Epoll
  attached : List Nat

namespace World

def start : World := ⟨fun _ => .null, fun _ => none, []⟩

def eventOf (W : World) (ac : Nat) : Option RedisEvent :=
  match W.data ac with
  | .null => none
  | .live re => some re
  | .freed => none

def store (W : World) (ac : Nat) (re : RedisEvent) : World :=
  { W with data := Function.update W.data ac (.live re) }

end World

/-! ## `reactor.h` -/

/-- `add_event`, by `EPOLL_CTL_ADD`. -/
def addEvent (T : Epoll) (fd : Nat) (events : UInt32) (ptr : Nat) : Int × Epoll :=
  match T fd with
  | none => (0, Function.update T fd (some ⟨events, ptr⟩))
  | some _ => (1, T)

/-- `del_event`, by `EPOLL_CTL_DEL`. -/
def delEvent (T : Epoll) (fd : Nat) : Epoll := Function.update T fd none

/-- `enable_event`, by `EPOLL_CTL_MOD`. -/
def enableEvent (T : Epoll) (fd ptr : Nat) (readable writeable : Bool) : Int × Epoll :=
  let events := (if readable then epollin else 0) ||| (if writeable then epollout else 0)
  match T fd with
  | none => (1, T)
  | some _ => (0, Function.update T fd (some ⟨events, ptr⟩))

section

variable {T : Epoll} {fd n : Nat}

theorem delEvent_of_ne (hn : n ≠ fd) : delEvent T fd n = T n := Function.update_of_ne hn _ _

theorem addEvent_of_ne (hn : n ≠ fd) (events : UInt32) (ptr : Nat) :
    (addEvent T fd events ptr).2 n = T n := by
  unfold addEvent
  split
  · exact Function.update_of_ne hn _ _
  · rfl

theorem enableEvent_of_ne (hn : n ≠ fd) (ptr : Nat) (readable writeable : Bool) :
    (enableEvent T fd ptr readable writeable).2 n = T n := by
  unfold enableEvent
  dsimp only
  split
  · rfl
  · exact Function.update_of_ne hn _ _

theorem addEvent_self (hnone : T fd = none) (events : UInt32) (ptr : Nat) :
    (addEvent T fd events ptr).2 fd = some ⟨events, ptr⟩ := by
  rw [addEvent, hnone]
  exact Function.update_self _ _ _

theorem enableEvent_self {entry : EpollEvent} (hsome : T fd = some entry) (ptr : Nat)
    (readable writeable : Bool) : (enableEvent T fd ptr readable writeable).2 fd =
      some ⟨(if readable then epollin else 0) ||| (if writeable then epollout else 0), ptr⟩ := by
  rw [enableEvent, hsome]
  exact Function.update_self _ _ _

end

/-! ## `adapter.h` -/

section

variable (fd : Nat → Nat) (W : World) (ac : Nat)

/-- The end of `redisEventUpdate`, with the new mask in `re`. -/
def redisEventSet (prevMask : UInt32) (re : RedisEvent) (flag : UInt32) (enable : Bool) : World :=
  let W := W.store ac re
  let n := fd re.ctx
  if re.mask = 0 then { W with epoll := delEvent W.epoll n }
  else if prevMask = 0 then { W with epoll := (addEvent W.epoll n re.mask ac).2 }
  else if flag &&& epollin ≠ 0 then { W with epoll := (enableEvent W.epoll n ac enable false).2 }
  else if flag &&& epollout ≠ 0 then { W with epoll := (enableEvent W.epoll n ac false enable).2 }
  else W

/-- `redisEventUpdate`. -/
def redisEventUpdate (re : RedisEvent) (flag : UInt32) (remove : Bool) : World :=
  let prevMask := re.mask
  if remove then
    if re.mask &&& flag = 0 then W.store ac re
    else redisEventSet fd W ac prevMask { re with mask := re.mask &&& ~~~flag } flag false
  else
    if re.mask &&& flag ≠ 0 then W.store ac re
    else redisEventSet fd W ac prevMask { re with mask := re.mask ||| flag } flag true

def redisAddRead (re : RedisEvent) : World :=
  let re := { re with e := { re.e with readFn := some .redisReadHandler } }
  redisEventUpdate fd W ac re epollin false

def redisDelRead (re : RedisEvent) : World :=
  let re := { re with e := { re.e with readFn := none } }
  redisEventUpdate fd W ac re epollin true

def redisAddWrite (re : RedisEvent) : World :=
  let re := { re with e := { re.e with writeFn := some .redisWriteHandler } }
  redisEventUpdate fd W ac re epollout false

def redisDelWrite (re : RedisEvent) : World :=
  let re := { re with e := { re.e with writeFn := none } }
  redisEventUpdate fd W ac re epollout true

def redisCleanup (re : RedisEvent) : World :=
  { data := Function.update W.data ac .freed
    epoll := delEvent W.epoll (fd re.ctx)
    attached := W.attached.filter (· ≠ ac) }

/-- `redisAttach`; `mem` is what `hi_malloc` returned, with what was in that memory. -/
def redisAttach (mem : Option RedisEvent) : Int × World :=
  match W.data ac, mem with
  | .null, some re =>
      let re := { re with ctx := ac, e := { re.e with fd := fd ac }, mask := 0 }
      (redisOk, { W.store ac re with attached := ac :: W.attached })
  | .null, none => (redisErr, W)
  | .live _, _ => (redisErr, W)
  | .freed, _ => (redisErr, W)

end

/-! ## Runs -/

inductive Op where
  | attach (ac : Nat) (mem : Option RedisEvent)
  | addRead (ac : Nat)
  | delRead (ac : Nat)
  | addWrite (ac : Nat)
  | delWrite (ac : Nat)
  | cleanup (ac : Nat)

/-- Contexts are attached on descriptors that no other attached one has, and the callbacks are for
attached contexts. -/
def step (fd : Nat → Nat) (W : World) : Op → Option World
  | .attach ac mem =>
      if ∀ ac' ∈ W.attached, fd ac' = fd ac → ac' = ac then some (redisAttach fd W ac mem).2
      else none
  | .addRead ac => (W.eventOf ac).map (redisAddRead fd W ac)
  | .delRead ac => (W.eventOf ac).map (redisDelRead fd W ac)
  | .addWrite ac => (W.eventOf ac).map (redisAddWrite fd W ac)
  | .delWrite ac => (W.eventOf ac).map (redisDelWrite fd W ac)
  | .cleanup ac => (W.eventOf ac).map (redisCleanup fd W ac)

/-- What epoll watches a descriptor for. -/
def World.interest (W : World) (n : Nat) : Option UInt32 := (W.epoll n).map EpollEvent.events

/-- The table has the descriptors whose masks are not empty, and these masks. -/
def InStep (fd : Nat → Nat) (W : World) : Prop :=
  ∀ n events, W.interest n = some events ↔
    events ≠ 0 ∧ ∃ ac re, W.eventOf ac = some re ∧ fd ac = n ∧ re.mask = events

/-- If the call changes this flag of the context's mask, then the other one is not set. -/
def Alone (W : World) (ac : Nat) (flag : UInt32) (remove : Bool) : Prop :=
  ∀ re, W.eventOf ac = some re → (re.mask &&& flag ≠ 0 ↔ remove = true) → re.mask &&& ~~~flag = 0

def OneFlag (W : World) : Op → Prop
  | .attach _ _ => True
  | .addRead ac => Alone W ac epollin false
  | .delRead ac => Alone W ac epollin true
  | .addWrite ac => Alone W ac epollout false
  | .delWrite ac => Alone W ac epollout true
  | .cleanup _ => True

/-! ## Masks -/

/-- One of the two flags. -/
def IsFlag (flag : UInt32) : Prop := flag = epollin ∨ flag = epollout

def ValidMask (mask : UInt32) : Prop :=
  mask = 0 ∨ mask = epollin ∨ mask = epollout ∨ mask = epollin ||| epollout

/-- The mask after a call for a flag. -/
def toggled (mask flag : UInt32) (remove : Bool) : UInt32 :=
  if remove then mask &&& ~~~flag else mask ||| flag

section

variable {mask flag : UInt32} {remove : Bool}

theorem validMask_toggled (hmask : ValidMask mask) (hflag : IsFlag flag) :
    ValidMask (toggled mask flag remove) := by
  unfold ValidMask
  rcases hflag with rfl | rfl <;> rcases hmask with rfl | rfl | rfl | rfl <;>
    cases remove <;> decide

/-- A flag changed in an otherwise empty mask is the first one or was the last one. -/
theorem toggled_alone (hmask : ValidMask mask) (hflag : IsFlag flag)
    (hchange : mask &&& flag ≠ 0 ↔ remove = true) (halone : mask &&& ~~~flag = 0) :
    toggled mask flag remove = 0 ∨ mask = 0 := by
  revert hchange halone
  rcases hflag with rfl | rfl <;> rcases hmask with rfl | rfl | rfl | rfl <;>
    cases remove <;> decide

/-- Otherwise there are flags before and after, and more of them than the changed one. -/
theorem toggled_other (hmask : ValidMask mask) (hflag : IsFlag flag)
    (hchange : mask &&& flag ≠ 0 ↔ remove = true) (hother : mask &&& ~~~flag ≠ 0) :
    mask ≠ 0 ∧ toggled mask flag remove ≠ 0 ∧
      toggled mask flag remove ≠ if remove then 0 else flag := by
  revert hchange hother
  rcases hflag with rfl | rfl <;> rcases hmask with rfl | rfl | rfl | rfl <;>
    cases remove <;> decide

end

/-! ## Contexts and the table -/

/-- Events belong to attached contexts, on descriptors of their own, and have the two flags only. -/
structure Shape (fd : Nat → Nat) (W : World) : Prop where
  ctx : ∀ ac re, W.eventOf ac = some re → re.ctx = ac
  mask : ∀ ac re, W.eventOf ac = some re → ValidMask re.mask
  attached : ∀ ac re, W.eventOf ac = some re → ac ∈ W.attached
  distinct : ∀ ac ∈ W.attached, ∀ ac' ∈ W.attached, fd ac = fd ac' → ac = ac'

section

variable {fd : Nat → Nat} {W W' : World} {ac : Nat} {re re' : RedisEvent} {flag : UInt32}
  {remove : Bool}

theorem eventOf_store_self (W : World) (ac : Nat) (re : RedisEvent) :
    (W.store ac re).eventOf ac = some re := by
  unfold World.eventOf World.store
  dsimp only
  rw [Function.update_self]

theorem eventOf_store_of_ne (W : World) {ac ac' : Nat} (re : RedisEvent) (hne : ac' ≠ ac) :
    (W.store ac re).eventOf ac' = W.eventOf ac' := by
  unfold World.eventOf World.store
  dsimp only
  rw [Function.update_of_ne hne]

/-- A world in which one context's event has changed, and what its descriptor is watched for. -/
theorem InStep.of_local (h : InStep fd W)
    (hevent : ∀ ac', ac' ≠ ac → W'.eventOf ac' = W.eventOf ac')
    (hepoll : ∀ n, n ≠ fd ac → W'.interest n = W.interest n)
    (halone : ∀ ac' re', W.eventOf ac' = some re' → fd ac' = fd ac → ac' = ac)
    (hac : ∀ events, W'.interest (fd ac) = some events ↔
      events ≠ 0 ∧ ∃ re, W'.eventOf ac = some re ∧ re.mask = events) : InStep fd W' := by
  intro n events
  by_cases hn : n = fd ac
  · subst hn
    rw [hac]
    refine and_congr_right fun _ => ⟨?_, ?_⟩
    · intro ⟨re, hre, hmask⟩
      exact ⟨ac, re, hre, rfl, hmask⟩
    · intro ⟨ac', re, hre, hfd, hmask⟩
      by_cases hac' : ac' = ac
      · subst hac'
        exact ⟨re, hre, hmask⟩
      · rw [hevent ac' hac'] at hre
        exact absurd (halone ac' re hre hfd) hac'
  · rw [hepoll n hn, h n events]
    refine and_congr_right fun _ => exists_congr fun ac' => ?_
    by_cases hac' : ac' = ac
    · subst hac'
      refine ⟨?_, ?_⟩
      · intro ⟨re, _, hfd, _⟩
        exact absurd hfd.symm hn
      · intro ⟨re, _, hfd, _⟩
        exact absurd hfd.symm hn
    · rw [hevent ac' hac']

/-- What epoll watches the descriptor of an attached context for. -/
theorem InStep.interest (h : InStep fd W) (hshape : Shape fd W) (hre : W.eventOf ac = some re) :
    W.interest (fd ac) = if re.mask = 0 then none else some re.mask := by
  split
  · rename_i hzero
    rw [Option.eq_none_iff_forall_ne_some]
    intro events hevents
    obtain ⟨hne, ac', re', hre', hfd, hmask⟩ := (h _ _).mp hevents
    have hattached := hshape.attached ac re hre
    have hsame := hshape.distinct ac' (hshape.attached ac' re' hre') ac hattached hfd
    subst hsame
    obtain rfl := Option.some.inj (hre'.symm.trans hre)
    exact hne (hmask ▸ hzero)
  · rename_i hne
    exact (h _ _).mpr ⟨hne, ac, re, hre, rfl, rfl⟩

/-! ## One callback -/

theorem redisEventUpdate_eq (re : RedisEvent) :
    redisEventUpdate fd W ac re flag remove =
      if re.mask &&& flag ≠ 0 ↔ remove = true then
        redisEventSet fd W ac re.mask { re with mask := toggled re.mask flag remove } flag (!remove)
      else W.store ac re := by
  cases remove with
  | true =>
      by_cases hzero : re.mask &&& flag = 0
      · simp [redisEventUpdate, hzero]
      · simp [redisEventUpdate, toggled, hzero]
  | false =>
      by_cases hzero : re.mask &&& flag = 0
      · simp [redisEventUpdate, toggled, hzero]
      · simp [redisEventUpdate, hzero]

theorem eventOf_redisEventSet (prevMask : UInt32) (re : RedisEvent) (enable : Bool) (ac' : Nat) :
    (redisEventSet fd W ac prevMask re flag enable).eventOf ac' = (W.store ac re).eventOf ac' := by
  unfold redisEventSet
  dsimp only
  split_ifs <;> rfl

theorem attached_redisEventSet (prevMask : UInt32) (re : RedisEvent) (enable : Bool) :
    (redisEventSet fd W ac prevMask re flag enable).attached = W.attached := by
  unfold redisEventSet
  dsimp only
  split_ifs <;> rfl

theorem eventOf_store_cases {ac' : Nat} {re re₁ : RedisEvent}
    (h : (W.store ac re).eventOf ac' = some re₁) :
    (ac' = ac ∧ re₁ = re) ∨ W.eventOf ac' = some re₁ := by
  by_cases hac : ac' = ac
  · subst hac
    rw [eventOf_store_self] at h
    exact .inl ⟨rfl, (Option.some.inj h).symm⟩
  · rw [eventOf_store_of_ne _ _ hac] at h
    exact .inr h

/-- An event is stored for a context that has one. -/
theorem Shape.store (h : Shape fd W) (hre : W.eventOf ac = some re) (hctx : re'.ctx = re.ctx)
    (hmask : ValidMask re'.mask) : Shape fd (W.store ac re') := by
  refine ⟨?_, ?_, ?_, h.distinct⟩
  · intro ac' re₁ h₁
    rcases eventOf_store_cases h₁ with ⟨rfl, rfl⟩ | h₁
    · exact hctx.trans (h.ctx ac' re hre)
    · exact h.ctx ac' re₁ h₁
  · intro ac' re₁ h₁
    rcases eventOf_store_cases h₁ with ⟨rfl, rfl⟩ | h₁
    · exact hmask
    · exact h.mask ac' re₁ h₁
  · intro ac' re₁ h₁
    rcases eventOf_store_cases h₁ with ⟨rfl, -⟩ | h₁
    · exact h.attached ac' re hre
    · exact h.attached ac' re₁ h₁

theorem Shape.congr (h : Shape fd W) (hevent : ∀ ac, W'.eventOf ac = W.eventOf ac)
    (hattached : W'.attached = W.attached) : Shape fd W' := by
  refine ⟨?_, ?_, ?_, ?_⟩
  · intro ac re hre
    exact h.ctx ac re ((hevent ac).symm.trans hre)
  · intro ac re hre
    exact h.mask ac re ((hevent ac).symm.trans hre)
  · intro ac re hre
    rw [hattached]
    exact h.attached ac re ((hevent ac).symm.trans hre)
  · rw [hattached]
    exact h.distinct

/-- Any callback keeps the shape; `re'` is the event with a handler changed. -/
theorem Shape.update (h : Shape fd W) (hre : W.eventOf ac = some re) (hctx : re'.ctx = re.ctx)
    (hmask : re'.mask = re.mask) (hflag : IsFlag flag) :
    Shape fd (redisEventUpdate fd W ac re' flag remove) := by
  have hvalid := h.mask ac re hre
  rw [← hmask] at hvalid
  rw [redisEventUpdate_eq]
  split
  · have hstore : Shape fd (W.store ac { re' with mask := toggled re'.mask flag remove }) :=
      h.store hre hctx (validMask_toggled hvalid hflag)
    exact hstore.congr (eventOf_redisEventSet _ _ _) (attached_redisEventSet _ _ _)
  · exact h.store hre hctx hvalid

theorem interest_redisEventSet_of_ne {n : Nat} (prevMask : UInt32) (enable : Bool)
    (hn : n ≠ fd re.ctx) :
    (redisEventSet fd W ac prevMask re flag enable).interest n = W.interest n := by
  unfold redisEventSet World.interest
  dsimp only
  split
  · exact congrArg _ (delEvent_of_ne hn)
  · split
    · exact congrArg _ (addEvent_of_ne hn _ _)
    · split
      · exact congrArg _ (enableEvent_of_ne hn _ _ _)
      · split
        · exact congrArg _ (enableEvent_of_ne hn _ _ _)
        · rfl

/-- The last flag is taken away, or the first one is set. -/
theorem interest_redisEventSet {prevMask : UInt32} (enable : Bool)
    (hmask : re.mask = 0 ∨ prevMask = 0) (hnone : prevMask = 0 → W.interest (fd re.ctx) = none) :
    (redisEventSet fd W ac prevMask re flag enable).interest (fd re.ctx) =
      if re.mask = 0 then none else some re.mask := by
  unfold redisEventSet World.interest
  dsimp only
  split
  · exact congrArg _ (Function.update_self _ _ _)
  · rename_i hne
    have hzero := hmask.resolve_left hne
    have hentry : W.epoll (fd re.ctx) = none := Option.map_eq_none_iff.mp (hnone hzero)
    rw [if_pos hzero]
    exact congrArg _ (addEvent_self hentry _ _)

/-- With another flag set, epoll is told of the changed one only. -/
theorem interest_redisEventSet_mod {prevMask : UInt32} (hflag : IsFlag flag) (hmask : re.mask ≠ 0)
    (hprev : prevMask ≠ 0) (hsome : W.interest (fd re.ctx) ≠ none) :
    (redisEventSet fd W ac prevMask re flag (!remove)).interest (fd re.ctx) =
      some (if remove then 0 else flag) := by
  obtain ⟨entry, hentry⟩ : ∃ entry, W.epoll (fd re.ctx) = some entry := by
    cases hepoll : W.epoll (fd re.ctx) with
    | none => exact absurd (congrArg _ hepoll) hsome
    | some entry => exact ⟨entry, rfl⟩
  unfold redisEventSet World.interest
  dsimp only
  rw [if_neg hmask, if_neg hprev]
  have hmod : ∀ readable writeable, ((enableEvent W.epoll (fd re.ctx) ac readable writeable).2
      (fd re.ctx)).map EpollEvent.events =
      some ((if readable then epollin else 0) ||| (if writeable then epollout else 0)) := by
    intro readable writeable
    exact congrArg _ (enableEvent_self hentry _ _ _)
  rcases hflag with rfl | rfl
  · rw [if_pos (by decide)]
    refine (hmod _ _).trans ?_
    cases remove <;> rfl
  · rw [if_neg (by decide), if_pos (by decide)]
    refine (hmod _ _).trans ?_
    cases remove <;> rfl

/-- A context's event is replaced, and its descriptor is watched for what the new one says. -/
theorem InStep.of_store (h : InStep fd W) (hshape : Shape fd W) (hre : W.eventOf ac = some re)
    (hevent : ∀ ac', W'.eventOf ac' = (W.store ac re').eventOf ac')
    (hepoll : ∀ n, n ≠ fd ac → W'.interest n = W.interest n)
    (hac : W'.interest (fd ac) = if re'.mask = 0 then none else some re'.mask) : InStep fd W' := by
  have hself : W'.eventOf ac = some re' := (hevent ac).trans (eventOf_store_self _ _ _)
  refine h.of_local (fun ac' hne => (hevent ac').trans (eventOf_store_of_ne _ _ hne)) hepoll ?_ ?_
  · intro ac' re₁ h₁ hfd
    exact hshape.distinct ac' (hshape.attached ac' re₁ h₁) ac (hshape.attached ac re hre) hfd
  · intro events
    rw [hac]
    constructor
    · intro hsome
      obtain ⟨hne, heq⟩ := Option.ite_none_left_eq_some.mp hsome
      obtain rfl := Option.some.inj heq
      exact ⟨hne, re', hself, rfl⟩
    · intro ⟨hne, re₁, h₁, hmask⟩
      obtain rfl := Option.some.inj (h₁.symm.trans hself)
      rw [hmask, if_neg hne]

/-- A callback that finds no other flag set. -/
theorem InStep.update (h : InStep fd W) (hshape : Shape fd W) (hre : W.eventOf ac = some re)
    (hctx : re'.ctx = re.ctx) (hmask : re'.mask = re.mask) (hflag : IsFlag flag)
    (halone : Alone W ac flag remove) : InStep fd (redisEventUpdate fd W ac re' flag remove) := by
  have hac : fd re'.ctx = fd ac := congrArg fd (hctx.trans (hshape.ctx ac re hre))
  have hinterest := h.interest hshape hre
  rw [← hmask] at hinterest
  rw [redisEventUpdate_eq]
  split
  · rename_i hchange
    have hempty : re'.mask &&& ~~~flag = 0 := by
      have hold := halone re hre
      rw [← hmask] at hold
      exact hold hchange
    have hvalid := hmask ▸ hshape.mask ac re hre
    have hends := toggled_alone hvalid hflag hchange hempty
    refine h.of_store hshape hre (eventOf_redisEventSet _ _ _) ?_ ?_
    · intro n hn
      exact interest_redisEventSet_of_ne _ _ (hac ▸ hn)
    · rw [← hac]
      refine interest_redisEventSet _ hends fun hzero => ?_
      show W.interest (fd re'.ctx) = none
      rw [hac, hinterest, if_pos hzero]
  · exact h.of_store hshape hre (fun _ => rfl) (fun _ _ => rfl) hinterest

/-- One that does loses it. -/
theorem not_inStep_update (h : InStep fd W) (hshape : Shape fd W) (hre : W.eventOf ac = some re)
    (hctx : re'.ctx = re.ctx) (hmask : re'.mask = re.mask) (hflag : IsFlag flag)
    (halone : ¬ Alone W ac flag remove) :
    ¬ InStep fd (redisEventUpdate fd W ac re' flag remove) := by
  intro hafter
  have hac : fd re'.ctx = fd ac := congrArg fd (hctx.trans (hshape.ctx ac re hre))
  have hnext : Shape fd (redisEventUpdate fd W ac re' flag remove) :=
    hshape.update hre hctx hmask hflag
  -- the call changes the flag of this event, and there is another one
  obtain ⟨hchange, hother⟩ :
      (re'.mask &&& flag ≠ 0 ↔ remove = true) ∧ re'.mask &&& ~~~flag ≠ 0 := by
    rw [hmask]
    by_contra hnot
    refine halone fun re₁ h₁ hchange => ?_
    obtain rfl := Option.some.inj (h₁.symm.trans hre)
    by_contra hother
    exact hnot ⟨hchange, hother⟩
  have hvalid := hmask ▸ hshape.mask ac re hre
  obtain ⟨hprev, hset, hdiffer⟩ := toggled_other hvalid hflag hchange hother
  have hsome : W.interest (fd re'.ctx) ≠ none := by
    rw [hac, h.interest hshape hre, ← hmask, if_neg hprev]
    exact nofun
  rw [redisEventUpdate_eq, if_pos hchange] at hafter hnext
  generalize hnew : { re' with mask := toggled re'.mask flag remove } = re₁ at hafter hnext
  have hctx₁ : re₁.ctx = re'.ctx := by
    rw [← hnew]
  have hmask₁ : re₁.mask = toggled re'.mask flag remove := by
    rw [← hnew]
  rw [← hmask₁] at hset hdiffer
  rw [← hctx₁] at hsome hac
  have hself : (redisEventSet fd W ac re'.mask re₁ flag (!remove)).eventOf ac = some re₁ :=
    (eventOf_redisEventSet _ _ _ _).trans (eventOf_store_self _ _ _)
  have hwatched := hafter.interest hnext hself
  have hmod : (redisEventSet fd W ac re'.mask re₁ flag (!remove)).interest (fd re₁.ctx) =
      some (if remove then 0 else flag) := interest_redisEventSet_mod hflag hset hprev hsome
  rw [hac] at hmod
  rw [hmod, if_neg hset] at hwatched
  exact hdiffer (Option.some.inj hwatched).symm

/-! ## Attaching and cleaning up -/

/-- An attach leaves the world alone, or gives the context an event with an empty mask. -/
theorem redisAttach_cases (fd : Nat → Nat) (W : World) (ac : Nat) (mem : Option RedisEvent) :
    (redisAttach fd W ac mem).2 = W ∨ ∃ re, re.ctx = ac ∧ re.mask = 0 ∧ W.eventOf ac = none ∧
      (redisAttach fd W ac mem).2 = { W.store ac re with attached := ac :: W.attached } := by
  unfold redisAttach World.eventOf
  cases W.data ac with
  | null =>
      cases mem with
      | none => exact .inl rfl
      | some re => exact .inr ⟨_, rfl, rfl, rfl, rfl⟩
  | live re => exact .inl rfl
  | freed => exact .inl rfl

theorem Shape.attach (h : Shape fd W) (hfd : ∀ ac' ∈ W.attached, fd ac' = fd ac → ac' = ac)
    (mem : Option RedisEvent) : Shape fd (redisAttach fd W ac mem).2 := by
  rcases redisAttach_cases fd W ac mem with hsame | ⟨re, hctx, hmask, -, hnew⟩
  · rw [hsame]
    exact h
  · rw [hnew]
    refine ⟨?_, ?_, ?_, ?_⟩
    · intro ac' re' hre'
      rcases eventOf_store_cases hre' with ⟨rfl, rfl⟩ | hre'
      · exact hctx
      · exact h.ctx ac' re' hre'
    · intro ac' re' hre'
      rcases eventOf_store_cases hre' with ⟨rfl, rfl⟩ | hre'
      · exact .inl hmask
      · exact h.mask ac' re' hre'
    · intro ac' re' hre'
      rcases eventOf_store_cases hre' with ⟨rfl, rfl⟩ | hre'
      · exact List.mem_cons_self
      · exact List.mem_cons_of_mem _ (h.attached ac' re' hre')
    · intro ac₁ h₁ ac₂ h₂ heq
      rcases List.mem_cons.mp h₁ with rfl | hin₁
      · rcases List.mem_cons.mp h₂ with rfl | hin₂
        · rfl
        · exact (hfd ac₂ hin₂ heq.symm).symm
      · rcases List.mem_cons.mp h₂ with rfl | hin₂
        · exact hfd ac₁ hin₁ heq
        · exact h.distinct ac₁ hin₁ ac₂ hin₂ heq

theorem InStep.attach (h : InStep fd W) (hshape : Shape fd W)
    (hfd : ∀ ac' ∈ W.attached, fd ac' = fd ac → ac' = ac) (mem : Option RedisEvent) :
    InStep fd (redisAttach fd W ac mem).2 := by
  rcases redisAttach_cases fd W ac mem with hsame | ⟨re, hctx, hmask, hnone, hnew⟩
  · rw [hsame]
    exact h
  · rw [hnew]
    have halone : ∀ ac' re', W.eventOf ac' = some re' → fd ac' = fd ac → ac' = ac :=
      fun ac' re' hre' => hfd ac' (hshape.attached ac' re' hre')
    refine h.of_local (fun ac' hne => eventOf_store_of_ne _ _ hne) (fun _ _ => rfl) halone ?_
    intro events
    show W.interest (fd ac) = some events ↔
      events ≠ 0 ∧ ∃ re', (W.store ac re).eventOf ac = some re' ∧ re'.mask = events
    rw [h, eventOf_store_self]
    refine and_congr_right fun hne => iff_of_false ?_ ?_
    · intro ⟨ac', re', hre', hfd', _⟩
      obtain rfl := halone ac' re' hre' hfd'
      rw [hnone] at hre'
      exact absurd hre' nofun
    · intro ⟨re', hre', hevents⟩
      obtain rfl := Option.some.inj hre'
      exact hne (hevents ▸ hmask)

theorem eventOf_redisCleanup_self (re : RedisEvent) :
    (redisCleanup fd W ac re).eventOf ac = none := by
  unfold World.eventOf redisCleanup
  dsimp only
  rw [Function.update_self]

theorem eventOf_redisCleanup_of_ne {ac' : Nat} (re : RedisEvent) (hne : ac' ≠ ac) :
    (redisCleanup fd W ac re).eventOf ac' = W.eventOf ac' := by
  unfold World.eventOf redisCleanup
  dsimp only
  rw [Function.update_of_ne hne]

theorem Shape.cleanup (h : Shape fd W) (re : RedisEvent) : Shape fd (redisCleanup fd W ac re) := by
  have hevents : ∀ ac' re', (redisCleanup fd W ac re).eventOf ac' = some re' →
      ac' ≠ ac ∧ W.eventOf ac' = some re' := by
    intro ac' re' hre'
    have hne : ac' ≠ ac := by
      intro heq
      rw [heq, eventOf_redisCleanup_self] at hre'
      exact absurd hre' nofun
    rw [eventOf_redisCleanup_of_ne _ hne] at hre'
    exact ⟨hne, hre'⟩
  refine ⟨?_, ?_, ?_, ?_⟩
  · intro ac' re' hre'
    exact h.ctx ac' re' (hevents ac' re' hre').2
  · intro ac' re' hre'
    exact h.mask ac' re' (hevents ac' re' hre').2
  · intro ac' re' hre'
    obtain ⟨hne, hre'⟩ := hevents ac' re' hre'
    exact List.mem_filter.mpr ⟨h.attached ac' re' hre', decide_eq_true hne⟩
  · intro ac₁ h₁ ac₂ h₂ heq
    exact h.distinct ac₁ (List.mem_filter.mp h₁).1 ac₂ (List.mem_filter.mp h₂).1 heq

theorem InStep.cleanup (h : InStep fd W) (hshape : Shape fd W) (hre : W.eventOf ac = some re) :
    InStep fd (redisCleanup fd W ac re) := by
  have hctx := hshape.ctx ac re hre
  refine h.of_local (fun ac' hne => eventOf_redisCleanup_of_ne _ hne) ?_ ?_ ?_
  · intro n hn
    exact congrArg _ (delEvent_of_ne (hctx ▸ hn))
  · intro ac' re' hre' hfd
    exact hshape.distinct ac' (hshape.attached ac' re' hre') ac (hshape.attached ac re hre) hfd
  · intro events
    have hnone : (redisCleanup fd W ac re).interest (fd ac) = none := by
      rw [← hctx]
      exact congrArg _ (Function.update_self _ _ _)
    rw [hnone, eventOf_redisCleanup_self]
    refine iff_of_false nofun ?_
    intro ⟨_, re', hre', _⟩
    exact absurd hre' nofun

/-! ## Runs -/

theorem shape_step {op : Op} (h : Shape fd W) (hstep : step fd W op = some W') : Shape fd W' := by
  cases op with
  | attach ac mem =>
      rw [step] at hstep
      split at hstep
      · rename_i hfd
        obtain rfl := Option.some.inj hstep
        exact h.attach hfd mem
      · exact absurd hstep nofun
  | addRead ac =>
      obtain ⟨re, hre, rfl⟩ := Option.map_eq_some_iff.mp hstep
      unfold redisAddRead
      exact h.update hre rfl rfl (.inl rfl)
  | delRead ac =>
      obtain ⟨re, hre, rfl⟩ := Option.map_eq_some_iff.mp hstep
      unfold redisDelRead
      exact h.update hre rfl rfl (.inl rfl)
  | addWrite ac =>
      obtain ⟨re, hre, rfl⟩ := Option.map_eq_some_iff.mp hstep
      unfold redisAddWrite
      exact h.update hre rfl rfl (.inr rfl)
  | delWrite ac =>
      obtain ⟨re, hre, rfl⟩ := Option.map_eq_some_iff.mp hstep
      unfold redisDelWrite
      exact h.update hre rfl rfl (.inr rfl)
  | cleanup ac =>
      obtain ⟨re, hre, rfl⟩ := Option.map_eq_some_iff.mp hstep
      exact h.cleanup re

/-- A call keeps the table in step if and only if it finds no other flag set. -/
theorem inStep_step_iff {op : Op} (hshape : Shape fd W) (h : InStep fd W)
    (hstep : step fd W op = some W') : InStep fd W' ↔ OneFlag W op := by
  have hcallback : ∀ {ac : Nat} {re re' : RedisEvent} {flag : UInt32} {remove : Bool},
      W.eventOf ac = some re → re'.ctx = re.ctx → re'.mask = re.mask → IsFlag flag →
      (InStep fd (redisEventUpdate fd W ac re' flag remove) ↔ Alone W ac flag remove) := by
    intro ac re re' flag remove hre hctx hmask hflag
    refine ⟨?_, h.update hshape hre hctx hmask hflag⟩
    intro hafter
    by_contra halone
    exact not_inStep_update h hshape hre hctx hmask hflag halone hafter
  cases op with
  | attach ac mem =>
      rw [step] at hstep
      split at hstep
      · rename_i hfd
        obtain rfl := Option.some.inj hstep
        exact iff_of_true (h.attach hshape hfd mem) trivial
      · exact absurd hstep nofun
  | addRead ac =>
      obtain ⟨re, hre, rfl⟩ := Option.map_eq_some_iff.mp hstep
      exact hcallback hre rfl rfl (.inl rfl)
  | delRead ac =>
      obtain ⟨re, hre, rfl⟩ := Option.map_eq_some_iff.mp hstep
      exact hcallback hre rfl rfl (.inl rfl)
  | addWrite ac =>
      obtain ⟨re, hre, rfl⟩ := Option.map_eq_some_iff.mp hstep
      exact hcallback hre rfl rfl (.inr rfl)
  | delWrite ac =>
      obtain ⟨re, hre, rfl⟩ := Option.map_eq_some_iff.mp hstep
      exact hcallback hre rfl rfl (.inr rfl)
  | cleanup ac =>
      obtain ⟨re, hre, rfl⟩ := Option.map_eq_some_iff.mp hstep
      exact iff_of_true (h.cleanup hshape hre) trivial

/-- A call that finds another flag set can be made. -/
theorem oneFlag_of_stuck {op : Op} (hstep : step fd W op = none) : OneFlag W op := by
  have hnone : ∀ {ac : Nat} {flag : UInt32} {remove : Bool} {f : RedisEvent → World},
      (W.eventOf ac).map f = none → Alone W ac flag remove := by
    intro ac flag remove f hmap re hre
    rw [hre] at hmap
    exact absurd hmap nofun
  cases op with
  | attach ac mem => trivial
  | addRead ac => exact hnone hstep
  | delRead ac => exact hnone hstep
  | addWrite ac => exact hnone hstep
  | delWrite ac => exact hnone hstep
  | cleanup ac => trivial

theorem run_inStep_iff (ops : List Op) (hshape : Shape fd W) (h : InStep fd W) :
    (∀ pre post W', ops = pre ++ post → run (step fd) W pre = some W' → InStep fd W') ↔
      Meets (step fd) OneFlag W ops := by
  induction ops generalizing W with
  | nil =>
      refine iff_of_true ?_ trivial
      intro pre post W' heq hrun
      obtain ⟨rfl, -⟩ := List.append_eq_nil_iff.mp heq.symm
      exact Option.some.inj hrun ▸ h
  | cons op ops ih =>
      constructor
      · intro hall
        have hfirst : ∀ W₁, step fd W op = some W₁ → InStep fd W₁ := by
          intro W₁ h₁
          refine hall [op] ops W₁ rfl ?_
          rw [run, h₁]
          rfl
        constructor
        · cases hstep : step fd W op with
          | none => exact oneFlag_of_stuck hstep
          | some W₁ => exact (inStep_step_iff hshape h hstep).mp (hfirst W₁ hstep)
        · intro W₁ h₁
          refine (ih (shape_step hshape h₁) (hfirst W₁ h₁)).mp ?_
          intro pre post W' heq hrun
          refine hall (op :: pre) post W' (by rw [heq]; rfl) ?_
          rw [run, h₁]
          exact hrun
      · intro hmeets pre post W' heq hrun
        cases pre with
        | nil => exact Option.some.inj hrun ▸ h
        | cons op' pre =>
            obtain ⟨rfl, htail⟩ := List.cons.inj heq
            obtain ⟨W₁, h₁, hrun⟩ := Option.bind_eq_some_iff.mp hrun
            have hin := (inStep_step_iff hshape h h₁).mpr hmeets.1
            exact (ih (shape_step hshape h₁) hin).mpr (hmeets.2 W₁ h₁) pre post W' htail hrun

end

theorem shape_start (fd : Nat → Nat) : Shape fd .start :=
  ⟨fun _ _ h => absurd h nofun, fun _ _ h => absurd h nofun, fun _ _ h => absurd h nofun,
    fun _ h => absurd h List.not_mem_nil⟩

theorem inStep_start (fd : Nat → Nat) : InStep fd .start := by
  intro n events
  refine iff_of_false nofun ?_
  intro ⟨_, ac, re, hre, _⟩
  exact absurd hre nofun

/--
After each call of a run the table has the descriptors whose masks are not empty, with these masks,
if and only if no call changes a flag of a context whose other flag is set.
-/
theorem inStep_iff_oneFlag (fd : Nat → Nat) (ops : List Op) :
    (∀ pre post W, ops = pre ++ post → run (step fd) .start pre = some W → InStep fd W) ↔
      Meets (step fd) OneFlag .start ops :=
  run_inStep_iff ops (shape_start fd) (inStep_start fd)

/-- A connection is to be read from, and then to be written to as well. -/
def readThenWrite : List Op :=
  [.attach 0 (some ⟨⟨0, none, none, none⟩, 0, 0⟩), .addRead 0, .addWrite 0]

theorem readThenWrite_outOfStep :
    ¬ ∀ fd ops W, run (step fd) .start ops = some W → InStep fd W := by
  intro hall
  obtain ⟨W, hrun⟩ : ∃ W, run (step id) .start readThenWrite = some W := ⟨_, rfl⟩
  have hin := hall id readThenWrite W hrun
  obtain rfl := Option.some.inj hrun
  -- epoll waits for the descriptor to be written to, and the mask has both flags
  obtain ⟨-, ac, re, hre, hfd, hmask⟩ := (hin 0 epollout).mp rfl
  obtain rfl : ac = 0 := hfd
  obtain rfl := Option.some.inj hre
  exact absurd hmask (by decide)

end CppTrack.RedisAdapter
