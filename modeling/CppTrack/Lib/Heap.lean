import Mathlib.Logic.Function.Basic

/-!
# A heap of records, and loops over their array fields

C code that builds linked structures works on records reached through pointers,
some of whose fields are arrays of a fixed size. A heap maps addresses to live
records; `none` is memory that was never allocated or has been freed. Loading or
storing through a dead address, or outside an array, is `none` as well: what the
program does next is undefined.

An array field is kept as a function on indices together with its size, so a loop
that shifts or copies elements has a closed form. The lemmas below give that
closed form for a loop over one record, which is what the proofs about such code
use instead of unrolling it.
-/

namespace CppTrack.Lib

/-- Addresses to live records. -/
structure Heap (β : Type) where
  cell : Nat → Option β
  /-- The address the next allocation returns. -/
  next : Nat

/-- An array of `size` elements inside a record. -/
structure ArrayField (β γ : Type) where
  size : Nat
  read : β → Nat → γ
  write : β → (Nat → γ) → β
  read_write : ∀ b a, read (write b a) = a
  write_read : ∀ b, write b (read b) = b
  write_write : ∀ b a a', write (write b a) a' = write b a'

attribute [simp] ArrayField.read_write ArrayField.write_read ArrayField.write_write

variable {β γ σ : Type}

namespace Heap

def empty : Heap β := ⟨fun _ => none, 0⟩

def get (h : Heap β) (p : Nat) : Option β := h.cell p

def put (h : Heap β) (p : Nat) (b : β) : Heap β :=
  { h with cell := Function.update h.cell p (some b) }

/-- `malloc`: a fresh address holding `b`. -/
def alloc (h : Heap β) (b : β) : Nat × Heap β :=
  (h.next, { cell := Function.update h.cell h.next (some b), next := h.next + 1 })

/-- The heap without the record at `p`. -/
def erase (h : Heap β) (p : Nat) : Heap β := { h with cell := Function.update h.cell p none }

/-- `free`; freeing what is not live is undefined. -/
def free (h : Heap β) (p : Nat) : Option (Heap β) :=
  (h.get p).map (fun _ => h.erase p)

def modify (h : Heap β) (p : Nat) (f : β → β) : Option (Heap β) :=
  (h.get p).map (fun b => h.put p (f b))

def load (h : Heap β) (F : ArrayField β γ) (p i : Nat) : Option γ :=
  (h.get p).bind (fun b => if i < F.size then some (F.read b i) else none)

def store (h : Heap β) (F : ArrayField β γ) (p i : Nat) (v : γ) : Option (Heap β) :=
  (h.get p).bind (fun b =>
    if i < F.size then some (h.put p (F.write b (Function.update (F.read b) i v))) else none)

theorem ext' {h h' : Heap β} (hc : ∀ p, h.get p = h'.get p) (hn : h.next = h'.next) : h = h' := by
  cases h; cases h'
  simp only [mk.injEq]
  exact ⟨funext hc, hn⟩

@[simp] theorem get_put_self (h : Heap β) (p : Nat) (b : β) : (h.put p b).get p = some b := by
  simp [get, put]

theorem get_put_of_ne (h : Heap β) {p q : Nat} (b : β) (hne : q ≠ p) :
    (h.put p b).get q = h.get q := by
  simp [get, put, hne]

@[simp] theorem next_put (h : Heap β) (p : Nat) (b : β) : (h.put p b).next = h.next := rfl

@[simp] theorem put_put (h : Heap β) (p : Nat) (b b' : β) : (h.put p b).put p b' = h.put p b' := by
  simp [put]

theorem put_self {h : Heap β} {p : Nat} {b : β} (hb : h.get p = some b) : h.put p b = h := by
  refine ext' (fun q => ?_) rfl
  by_cases hq : q = p
  · subst hq; rw [get_put_self, hb]
  · rw [get_put_of_ne _ _ hq]

@[simp] theorem fst_alloc (h : Heap β) (b : β) : (h.alloc b).1 = h.next := rfl

@[simp] theorem next_alloc (h : Heap β) (b : β) : (h.alloc b).2.next = h.next + 1 := rfl

@[simp] theorem get_alloc_self (h : Heap β) (b : β) : (h.alloc b).2.get h.next = some b := by
  simp [get, alloc]

theorem get_alloc_of_ne (h : Heap β) {p : Nat} (b : β) (hne : p ≠ h.next) :
    (h.alloc b).2.get p = h.get p := by
  simp [get, alloc, hne]

@[simp] theorem put_alloc (h : Heap β) (b b' : β) :
    (h.alloc b).2.put h.next b' = (h.alloc b').2 := by
  simp [put, alloc]

theorem modify_eq {h : Heap β} {p : Nat} {b : β} (hb : h.get p = some b) (f : β → β) :
    h.modify p f = some (h.put p (f b)) := by
  rw [modify, hb]; rfl

theorem load_eq {h : Heap β} {F : ArrayField β γ} {p i : Nat} {b : β} (hb : h.get p = some b)
    (hi : i < F.size) : h.load F p i = some (F.read b i) := by
  rw [load, hb, Option.bind_some, if_pos hi]

theorem store_eq {h : Heap β} {F : ArrayField β γ} {p i : Nat} {b : β} (hb : h.get p = some b)
    (hi : i < F.size) (v : γ) :
    h.store F p i v = some (h.put p (F.write b (Function.update (F.read b) i v))) := by
  rw [store, hb, Option.bind_some, if_pos hi]

theorem load_eq_none {h : Heap β} {F : ArrayField β γ} {p i : Nat} (hi : F.size ≤ i) :
    h.load F p i = none := by
  unfold load
  cases h.get p with
  | none => rfl
  | some b => exact if_neg (Nat.not_lt.mpr hi)

theorem store_eq_none {h : Heap β} {F : ArrayField β γ} {p i : Nat} (hi : F.size ≤ i) (v : γ) :
    h.store F p i v = none := by
  unfold store
  cases h.get p with
  | none => rfl
  | some b => exact if_neg (Nat.not_lt.mpr hi)

@[simp] theorem get_erase_self (h : Heap β) (p : Nat) : (h.erase p).get p = none := by
  simp [get, erase]

theorem get_erase_of_ne (h : Heap β) {p q : Nat} (hne : q ≠ p) : (h.erase p).get q = h.get q := by
  simp [get, erase, hne]

@[simp] theorem next_erase (h : Heap β) (p : Nat) : (h.erase p).next = h.next := rfl

@[simp] theorem erase_put (h : Heap β) (p : Nat) (b : β) : (h.put p b).erase p = h.erase p := by
  simp [put, erase]

theorem free_eq {h : Heap β} {p : Nat} {b : β} (hb : h.get p = some b) :
    h.free p = some (h.erase p) := by
  rw [free, hb]; rfl

theorem load_free {h : Heap β} {F : ArrayField β γ} {p i : Nat} (hp : h.get p = none) :
    h.load F p i = none := by
  rw [load, hp]; rfl

end Heap

/-! ## Counting loops -/

/-- `for (j = lo; j < lo + n; j++) body`. -/
def forUp (body : Nat → σ → Option σ) : (lo n : Nat) → σ → Option σ
  | _, 0, s => some s
  | lo, n + 1, s => (body lo s).bind (forUp body (lo + 1) n)

/-- `for (j = lo + n - 1; j >= lo; j--) body`. -/
def forDown (body : Nat → σ → Option σ) : (lo n : Nat) → σ → Option σ
  | _, 0, s => some s
  | lo, n + 1, s => (body (lo + n) s).bind (forDown body lo n)

/--
The rule for a loop whose state after `j` is given by a function of `j`: enough that
the body takes one value to the next.
-/
theorem forUp_eq (body : Nat → σ → Option σ) (f : Nat → σ) (lo n : Nat)
    (hbody : ∀ j, lo ≤ j → j < lo + n → body j (f j) = some (f (j + 1))) :
    forUp body lo n (f lo) = some (f (lo + n)) := by
  induction n generalizing lo with
  | zero => rfl
  | succ n ih =>
      rw [forUp, hbody lo (Nat.le_refl _) (by omega), Option.bind_some]
      rw [ih (lo + 1) (fun j h₁ h₂ => hbody j (by omega) (by omega))]
      congr 2; omega

/-- The same counting down: `f j` is the state before the round of index `j - 1`. -/
theorem forDown_eq (body : Nat → σ → Option σ) (f : Nat → σ) (lo n : Nat)
    (hbody : ∀ j, lo ≤ j → j < lo + n → body j (f (j + 1)) = some (f j)) :
    forDown body lo n (f (lo + n)) = some (f lo) := by
  induction n with
  | zero => rfl
  | succ n ih =>
      rw [forDown, ← Nat.add_assoc, hbody (lo + n) (by omega) (by omega), Option.bind_some]
      exact ih (fun j h₁ h₂ => hbody j h₁ (by omega))

/-- The rule for a loop with an invariant that depends on the index. -/
theorem forUp_inv (body : Nat → σ → Option σ) (Inv : Nat → σ → Prop) (lo n : Nat) (s : σ)
    (hs : Inv lo s)
    (hbody : ∀ j s, lo ≤ j → j < lo + n → Inv j s → ∃ s', body j s = some s' ∧ Inv (j + 1) s') :
    ∃ s', forUp body lo n s = some s' ∧ Inv (lo + n) s' := by
  induction n generalizing lo s with
  | zero => exact ⟨s, rfl, hs⟩
  | succ n ih =>
      obtain ⟨s₁, h₁, hs₁⟩ := hbody lo s (Nat.le_refl _) (by omega) hs
      obtain ⟨s₂, h₂, hs₂⟩ := ih (lo + 1) s₁ hs₁
        (fun j s hlo hj => hbody j s (by omega) (by omega))
      refine ⟨s₂, by rw [forUp, h₁]; exact h₂, ?_⟩
      rwa [show lo + (n + 1) = lo + 1 + n by omega]

/-- The same counting down: `Inv j` holds before the round of index `j - 1`. -/
theorem forDown_inv (body : Nat → σ → Option σ) (Inv : Nat → σ → Prop) (lo n : Nat) (s : σ)
    (hs : Inv (lo + n) s)
    (hbody : ∀ j s, lo ≤ j → j < lo + n → Inv (j + 1) s → ∃ s', body j s = some s' ∧ Inv j s') :
    ∃ s', forDown body lo n s = some s' ∧ Inv lo s' := by
  induction n generalizing s with
  | zero => exact ⟨s, rfl, hs⟩
  | succ n ih =>
      obtain ⟨s₁, h₁, hs₁⟩ := hbody (lo + n) s (by omega) (by omega) hs
      obtain ⟨s₂, h₂, hs₂⟩ := ih s₁ hs₁ (fun j s hlo hj => hbody j s hlo (by omega))
      exact ⟨s₂, by rw [forDown, h₁]; exact h₂, hs₂⟩

/-! ## Loops over array fields -/

/-- Elements `a ..< a + n` replaced by those of `src` from `b` on. -/
def copied (src dst : Nat → γ) (a b n : Nat) : Nat → γ :=
  fun k => if a ≤ k ∧ k < a + n then src (b + (k - a)) else dst k

/-- Elements `lo ..< lo + n` moved one up. -/
def movedUp (arr : Nat → γ) (lo n : Nat) : Nat → γ :=
  fun k => if lo < k ∧ k ≤ lo + n then arr (k - 1) else arr k

/-- Elements `lo + 1 ..< lo + 1 + n` moved one down. -/
def movedDown (arr : Nat → γ) (lo n : Nat) : Nat → γ :=
  fun k => if lo ≤ k ∧ k < lo + n then arr (k + 1) else arr k

theorem copied_zero (src dst : Nat → γ) (a b : Nat) : copied src dst a b 0 = dst := by
  funext k
  exact if_neg (by omega)

theorem movedUp_zero (arr : Nat → γ) (lo : Nat) : movedUp arr lo 0 = arr := by
  funext k
  exact if_neg (by omega)

theorem movedDown_zero (arr : Nat → γ) (lo : Nat) : movedDown arr lo 0 = arr := by
  funext k
  exact if_neg (by omega)

theorem copied_succ (src dst : Nat → γ) (a b n : Nat) :
    Function.update (copied src dst a b n) (a + n) (src (b + n)) = copied src dst a b (n + 1) := by
  funext k
  by_cases hk : k = a + n
  · subst hk
    rw [Function.update_self, copied, if_pos (by omega), Nat.add_sub_cancel_left]
  · rw [Function.update_of_ne hk, copied, copied]
    exact if_congr (by omega) rfl rfl

/-- The step of a loop moving elements up: `arr[lo + 1] = arr[lo]` after all above it moved. -/
theorem movedUp_succ (arr : Nat → γ) (lo n : Nat) :
    Function.update (movedUp arr (lo + 1) n) (lo + 1) (arr lo) = movedUp arr lo (n + 1) := by
  funext k
  by_cases hk : k = lo + 1
  · subst hk
    rw [Function.update_self, movedUp, if_pos (by omega), Nat.add_sub_cancel]
  · rw [Function.update_of_ne hk, movedUp, movedUp]
    exact if_congr (by omega) rfl rfl

theorem movedDown_succ (arr : Nat → γ) (lo n : Nat) :
    Function.update (movedDown arr lo n) (lo + n) (arr (lo + n + 1)) =
      movedDown arr lo (n + 1) := by
  funext k
  by_cases hk : k = lo + n
  · subst hk
    rw [Function.update_self, movedDown, if_pos (by omega)]
  · rw [Function.update_of_ne hk, movedDown, movedDown]
    exact if_congr (by omega) rfl rfl

namespace Heap

/-- A loop copying `n` elements of one record's array into another's. -/
theorem copy_loop {F : ArrayField β γ} {h : Heap β} {src dst a b n : Nat} {s d : β}
    {body : Nat → Heap β → Option (Heap β)}
    (hbody : ∀ j h', body j h' = (h'.load F src (b + j)).bind (h'.store F dst (a + j)))
    (hne : src ≠ dst) (hs : h.get src = some s) (hd : h.get dst = some d)
    (ha : a + n ≤ F.size) (hb : b + n ≤ F.size) :
    forUp body 0 n h = some (h.put dst (F.write d (copied (F.read s) (F.read d) a b n))) := by
  have hstart : h = h.put dst (F.write d (copied (F.read s) (F.read d) a b 0)) := by
    rw [copied_zero, F.write_read, put_self hd]
  have hloop := forUp_eq body
    (fun j => h.put dst (F.write d (copied (F.read s) (F.read d) a b j))) 0 n (fun j _ hj => ?_)
  · rw [← hstart, Nat.zero_add] at hloop
    exact hloop
  · have hs' : (h.put dst (F.write d (copied (F.read s) (F.read d) a b j))).get src = some s := by
      rw [get_put_of_ne _ _ hne, hs]
    rw [hbody, load_eq hs' (by omega), Option.bind_some, store_eq (get_put_self _ _ _) (by omega),
      F.read_write, F.write_write, put_put, copied_succ]

/-- A loop moving `n` elements of one record's array up by one, from the top down. -/
theorem moveUp_loop {F : ArrayField β γ} {h : Heap β} {p lo n : Nat} {r : β}
    {body : Nat → Heap β → Option (Heap β)}
    (hbody : ∀ j h', body j h' = (h'.load F p j).bind (h'.store F p (j + 1)))
    (hr : h.get p = some r) (hsize : lo + n < F.size ∨ n = 0) :
    forDown body lo n h = some (h.put p (F.write r (movedUp (F.read r) lo n))) := by
  have hstart : h = h.put p (F.write r (movedUp (F.read r) (lo + n) 0)) := by
    rw [movedUp_zero, F.write_read, put_self hr]
  have hloop := forDown_eq body
    (fun j => h.put p (F.write r (movedUp (F.read r) j (lo + n - j)))) lo n (fun j hlo hj => ?_)
  · simp only [Nat.sub_self, ← hstart, Nat.add_sub_cancel_left] at hloop
    exact hloop
  · have hread : movedUp (F.read r) (j + 1) (lo + n - (j + 1)) j = F.read r j := if_neg (by omega)
    rw [hbody, load_eq (get_put_self _ _ _) (by omega), Option.bind_some,
      store_eq (get_put_self _ _ _) (by omega), F.read_write, F.write_write, put_put, hread,
      movedUp_succ]
    congr 5; omega

end Heap

end CppTrack.Lib
