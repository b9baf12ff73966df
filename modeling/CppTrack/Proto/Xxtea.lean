import Mathlib.Algebra.Group.Int.Defs
import Mathlib.Data.Fin.VecNotation
import Mathlib.Logic.Equiv.Defs
import Mathlib.Logic.Function.Basic

/-!
# XXTEA (`xxtea.c`)

`btea` codes `n` words in place, or decodes them when its count is negative. A coding round goes
once through the words and adds to each a mix of its two neighbours, the first of them already
coded; a decoding round goes through them backwards and takes the same mix away.

The words at `v` are a function of their index, so that what lies behind the array is there to be
left alone.

One such addition is a permutation of the words: its neighbours are other words, so what was added
can be computed again. The rounds are products of these, and `btea` with a negative count computes
the inverse of what it computes with the positive one.
-/

namespace CppTrack.Xxtea

/-- `uint32_t *v`. -/
abbrev Words : Type := Nat → UInt32

/-- `uint32_t const key[4]`. -/
abbrev Key : Type := Fin 4 → UInt32

def delta : UInt32 := 0x9e3779b9

/-- `e = (sum >> 2) & 3`. -/
def eOf (sum : UInt32) : Nat := (sum >>> 2).toNat &&& 3

/-- The index `(p & 3) ^ e`. -/
def keyIdx (p : Nat) (sum : UInt32) : Fin 4 :=
  ⟨p &&& 3 ^^^ eOf sum, Nat.xor_lt_two_pow (n := 2) (Nat.lt_succ_of_le Nat.and_le_right)
    (Nat.lt_succ_of_le Nat.and_le_right)⟩

/-- `MX`. -/
def mx (key : Key) (sum y z : UInt32) (p : Nat) : UInt32 :=
  ((z >>> 5 ^^^ y <<< 2) + (y >>> 3 ^^^ z <<< 4)) ^^^
    ((sum ^^^ y) + (key (keyIdx p sum) ^^^ z))

section

variable (key : Key)

/-! ## The coding part -/

/-- `for (p=0; p<n-1; p++)`: `turns` are left. Carries `v` and `z`. -/
def codeWords (sum : UInt32) : (turns p : Nat) → Words × UInt32 → Words × UInt32
  | 0, _, s => s
  | turns + 1, p, (v, z) =>
      let y := v (p + 1)
      let z := v p + mx key sum y z p
      codeWords sum turns (p + 1) (Function.update v p z, z)

/-- One turn of `do`, with `sum` already increased. -/
def codeRound (n : Nat) (sum : UInt32) (s : Words × UInt32) : Words × UInt32 :=
  let (v, z) := codeWords key sum (n - 1) 0 s
  let y := v 0
  let z := v (n - 1) + mx key sum y z (n - 1)
  (Function.update v (n - 1) z, z)

/-- `do … while (--rounds)`. -/
def codeRounds (n : Nat) : (rounds : Nat) → (sum : UInt32) → Words × UInt32 → Words × UInt32
  | 0, _, s => s
  | rounds + 1, sum, s => codeRounds n rounds (sum + delta) (codeRound key n (sum + delta) s)

/-! ## The decoding part -/

/-- `for (p=n-1; p>0; p--)`, from `p` on. Carries `v` and `y`. -/
def decodeWords (sum : UInt32) : (p : Nat) → Words × UInt32 → Words × UInt32
  | 0, s => s
  | p + 1, (v, y) =>
      let z := v p
      let y := v (p + 1) - mx key sum y z (p + 1)
      decodeWords sum p (Function.update v (p + 1) y, y)

/-- One turn of `do`, up to `sum -= DELTA`. -/
def decodeRound (n : Nat) (sum : UInt32) (s : Words × UInt32) : Words × UInt32 :=
  let (v, y) := decodeWords key sum (n - 1) s
  let z := v (n - 1)
  let y := v 0 - mx key sum y z 0
  (Function.update v 0 y, y)

/-- `do … while (--rounds)`. -/
def decodeRounds (n : Nat) : (rounds : Nat) → (sum : UInt32) → Words × UInt32 → Words × UInt32
  | 0, _, s => s
  | rounds + 1, sum, s => decodeRounds n rounds (sum - delta) (decodeRound key n sum s)

end

/-- `rounds = 6 + 52/n`. -/
def roundsOf (n : Nat) : Nat := 6 + 52 / n

def btea (v : Words) (n : Int) (key : Key) : Words :=
  if n > 1 then
    let n := n.toNat
    (codeRounds key n (roundsOf n) 0 (v, v (n - 1))).1
  else if n < -1 then
    let n := (-n).toNat
    (decodeRounds key n (roundsOf n) (UInt32.ofNat (roundsOf n) * delta) (v, v 0)).1
  else v

/-! ## One word -/

section

variable (key : Key) {n : Nat}

/-- The word after `p`, around the end. -/
def after (n p : Nat) : Nat := if p = n - 1 then 0 else p + 1

/-- The word before `p`, around the end. -/
def before (n p : Nat) : Nat := if p = 0 then n - 1 else p - 1

theorem after_ne (hn : 2 ≤ n) (p : Nat) : after n p ≠ p := by
  rw [after]
  split <;> omega

theorem before_ne (hn : 2 ≤ n) (p : Nat) : before n p ≠ p := by
  rw [before]
  split <;> omega

/-- What is added to the word at `p`. -/
def mixed (n : Nat) (sum : UInt32) (p : Nat) (v : Words) : UInt32 :=
  mx key sum (v (after n p)) (v (before n p)) p

/-- Nothing of it is the word itself. -/
theorem mixed_update (hn : 2 ≤ n) (sum : UInt32) (p : Nat) (v : Words) (w : UInt32) :
    mixed key n sum p (Function.update v p w) = mixed key n sum p v := by
  rw [mixed, mixed, Function.update_of_ne (after_ne hn p), Function.update_of_ne (before_ne hn p)]

/-- What was added to one word can be taken away. -/
theorem update_sub_add (hn : 2 ≤ n) (sum : UInt32) (p : Nat) (v : Words) :
    let w := Function.update v p (v p + mixed key n sum p v)
    Function.update w p (w p - mixed key n sum p w) = v := by
  intro w
  have hp : w p = v p + mixed key n sum p v := Function.update_self _ _ _
  rw [mixed_update key hn, hp, UInt32.add_sub_cancel, Function.update_idem,
    Function.update_eq_self]

theorem update_add_sub (hn : 2 ≤ n) (sum : UInt32) (p : Nat) (v : Words) :
    let w := Function.update v p (v p - mixed key n sum p v)
    Function.update w p (w p + mixed key n sum p w) = v := by
  intro w
  have hp : w p = v p - mixed key n sum p v := Function.update_self _ _ _
  rw [mixed_update key hn, hp, UInt32.sub_add_cancel, Function.update_idem,
    Function.update_eq_self]

/-- Coding one word, and decoding it. -/
def mixWord (hn : 2 ≤ n) (sum : UInt32) (p : Nat) : Equiv.Perm Words where
  toFun v := Function.update v p (v p + mixed key n sum p v)
  invFun v := Function.update v p (v p - mixed key n sum p v)
  left_inv := update_sub_add key hn sum p
  right_inv := update_add_sub key hn sum p

variable (hn : 2 ≤ n)

theorem mixWord_apply (sum : UInt32) (p : Nat) (v : Words) : mixWord key hn sum p v =
    Function.update v p (v p + mx key sum (v (after n p)) (v (before n p)) p) := rfl

theorem mixWord_symm_apply (sum : UInt32) (p : Nat) (v : Words) :
    (mixWord key hn sum p).symm v =
      Function.update v p (v p - mx key sum (v (after n p)) (v (before n p)) p) := rfl

/-- The `turns` words from `p` on, in order. -/
def mixWords (sum : UInt32) : (turns p : Nat) → Equiv.Perm Words
  | 0, _ => Equiv.refl _
  | turns + 1, p => (mixWord key hn sum p).trans (mixWords sum turns (p + 1))

/-- The rounds, `sum` being increased before each. -/
def mixRounds : (rounds : Nat) → (sum : UInt32) → Equiv.Perm Words
  | 0, _ => Equiv.refl _
  | rounds + 1, sum =>
      (mixWords key hn (sum + delta) n 0).trans (mixRounds rounds (sum + delta))

/-- What coding `n` words does to them. -/
def cipher : Equiv.Perm Words := mixRounds key hn (roundsOf n) 0

theorem mixWords_succ (sum : UInt32) (turns p : Nat) :
    mixWords key hn sum (turns + 1) p =
      (mixWords key hn sum turns p).trans (mixWord key hn sum (p + turns)) := by
  induction turns generalizing p with
  | zero => rfl
  | succ turns ih =>
      rw [mixWords, ih (p + 1), ← Equiv.trans_assoc, mixWords, Nat.add_right_comm]
      rfl

theorem delta_succ (rounds : Nat) (sum : UInt32) :
    sum + UInt32.ofNat (rounds + 1) * delta = sum + UInt32.ofNat rounds * delta + delta := by
  rw [UInt32.ofNat_add, UInt32.add_mul, UInt32.add_assoc]
  congr 2

theorem mixRounds_succ (rounds : Nat) (sum : UInt32) :
    mixRounds key hn (rounds + 1) sum = (mixRounds key hn rounds sum).trans
      (mixWords key hn (sum + UInt32.ofNat (rounds + 1) * delta) n 0) := by
  induction rounds generalizing sum with
  | zero =>
      rw [mixRounds, mixRounds, show UInt32.ofNat (0 + 1) * delta = delta from rfl]
      rfl
  | succ rounds ih =>
      have hsum : sum + delta + UInt32.ofNat (rounds + 1) * delta =
          sum + UInt32.ofNat (rounds + 1 + 1) * delta := by
        rw [delta_succ (rounds + 1) sum, UInt32.add_assoc, UInt32.add_assoc, UInt32.add_comm delta]
      rw [mixRounds, ih (sum + delta), ← Equiv.trans_assoc, hsum]
      rfl

/-! ## The loops compute the products -/

theorem codeWords_eq (sum : UInt32) (turns p : Nat) (v : Words) (hle : p + turns ≤ n - 1) :
    codeWords key sum turns p (v, v (before n p)) =
      (mixWords key hn sum turns p v, mixWords key hn sum turns p v (before n (p + turns))) := by
  induction turns generalizing p v with
  | zero => rfl
  | succ turns ih =>
      have hafter : after n p = p + 1 := if_neg (by omega)
      have hbefore : before n (p + 1) = p := if_neg (Nat.succ_ne_zero p)
      have hv : Function.update v p (v p + mx key sum (v (p + 1)) (v (before n p)) p) =
          mixWord key hn sum p v := by
        rw [mixWord_apply, hafter]
      -- the word just coded is the neighbour of the next
      have hz : v p + mx key sum (v (p + 1)) (v (before n p)) p =
          mixWord key hn sum p v (before n (p + 1)) := by
        rw [mixWord_apply, hafter, hbefore, Function.update_self]
      rw [codeWords, hv, hz, ih (p + 1) _ (by omega), Nat.add_right_comm]
      rfl

theorem codeRound_eq (sum : UInt32) (v : Words) :
    codeRound key n sum (v, v (n - 1)) =
      (mixWords key hn sum n 0 v, mixWords key hn sum n 0 v (n - 1)) := by
  have hwords := codeWords_eq key hn sum (n - 1) 0 v (by omega)
  rw [Nat.zero_add, show before n 0 = n - 1 from rfl] at hwords
  have hsucc : mixWords key hn sum n 0 =
      (mixWords key hn sum (n - 1) 0).trans (mixWord key hn sum (n - 1)) := by
    have := mixWords_succ key hn sum (n - 1) 0
    rwa [Nat.sub_add_cancel (by omega), Nat.zero_add] at this
  have hafter : after n (n - 1) = 0 := if_pos rfl
  rw [codeRound, hwords, hsucc, Equiv.trans_apply, mixWord_apply, hafter, Function.update_self]

theorem codeRounds_eq (rounds : Nat) (sum : UInt32) (v : Words) :
    (codeRounds key n rounds sum (v, v (n - 1))).1 = mixRounds key hn rounds sum v := by
  induction rounds generalizing sum v with
  | zero => rfl
  | succ rounds ih =>
      rw [codeRounds, codeRound_eq key hn, ih]
      rfl

theorem decodeWords_eq (sum : UInt32) (p : Nat) (v : Words) (hle : p ≤ n - 1) :
    decodeWords key sum p (v, v (after n p)) =
      ((mixWords key hn sum p 1).symm v, (mixWords key hn sum p 1).symm v (after n 0)) := by
  induction p generalizing v with
  | zero => rfl
  | succ p ih =>
      have hafter : after n p = p + 1 := if_neg (by omega)
      have hbefore : before n (p + 1) = p := if_neg (Nat.succ_ne_zero p)
      have hv : Function.update v (p + 1)
          (v (p + 1) - mx key sum (v (after n (p + 1))) (v p) (p + 1)) =
          (mixWord key hn sum (p + 1)).symm v := by
        rw [mixWord_symm_apply, hbefore]
      have hy : v (p + 1) - mx key sum (v (after n (p + 1))) (v p) (p + 1) =
          (mixWord key hn sum (p + 1)).symm v (after n p) := by
        rw [mixWord_symm_apply, hbefore, hafter, Function.update_self]
      rw [decodeWords, hv, hy, ih _ (by omega), mixWords_succ, Nat.add_comm 1 p]
      rfl

theorem decodeRound_eq (sum : UInt32) (v : Words) :
    decodeRound key n sum (v, v 0) =
      ((mixWords key hn sum n 0).symm v, (mixWords key hn sum n 0).symm v 0) := by
  have hwords := decodeWords_eq key hn sum (n - 1) v (Nat.le_refl _)
  rw [show after n (n - 1) = 0 from if_pos rfl] at hwords
  have hsucc : mixWords key hn sum n 0 =
      (mixWord key hn sum 0).trans (mixWords key hn sum (n - 1) 1) := by
    have hone : n - 1 + 1 = n := Nat.sub_add_cancel (Nat.le_of_succ_le hn)
    exact (congrArg (fun turns => mixWords key hn sum turns 0) hone).symm
  rw [decodeRound, hwords, hsucc, Equiv.symm_trans_apply, mixWord_symm_apply,
    show before n 0 = n - 1 from rfl, Function.update_self]

theorem decodeRounds_eq (rounds : Nat) (v : Words) :
    (decodeRounds key n rounds (UInt32.ofNat rounds * delta) (v, v 0)).1 =
      (mixRounds key hn rounds 0).symm v := by
  induction rounds generalizing v with
  | zero => rfl
  | succ rounds ih =>
      have hsum : UInt32.ofNat (rounds + 1) * delta - delta = UInt32.ofNat rounds * delta := by
        have := delta_succ rounds 0
        rw [UInt32.zero_add, UInt32.zero_add] at this
        rw [this, UInt32.add_sub_cancel]
      rw [decodeRounds, decodeRound_eq key hn, hsum, ih, mixRounds_succ, UInt32.zero_add]
      rfl

end

/-! ## `btea` -/

/-- With a positive count `btea` applies the cipher. -/
theorem btea_code (key : Key) (v : Words) {n : Nat} (hn : 2 ≤ n) :
    btea v n key = cipher key hn v := by
  rw [btea, if_pos (by omega)]
  exact codeRounds_eq key hn (roundsOf n) 0 v

/-- With a negative one, its inverse. -/
theorem btea_decode (key : Key) (v : Words) {n : Nat} (hn : 2 ≤ n) :
    btea v (-n) key = (cipher key hn).symm v := by
  rw [btea, if_neg (by omega), if_pos (by omega), Int.neg_neg]
  exact decodeRounds_eq key hn (roundsOf n) v

section

variable (key : Key) {n : Nat} (hn : 2 ≤ n)

theorem mixWords_behind (sum : UInt32) (turns p : Nat) (v : Words) {i : Nat}
    (hi : p + turns ≤ i) : mixWords key hn sum turns p v i = v i := by
  induction turns generalizing p v with
  | zero => rfl
  | succ turns ih =>
      have hne : i ≠ p := by omega
      rw [mixWords, Equiv.trans_apply, ih (p + 1) _ (by omega), mixWord_apply,
        Function.update_of_ne hne]

/-- Words behind the array are left alone. -/
theorem cipher_behind (v : Words) {i : Nat} (hi : n ≤ i) : cipher key hn v i = v i := by
  have hrounds : ∀ rounds sum (v : Words), mixRounds key hn rounds sum v i = v i := by
    intro rounds
    induction rounds with
    | zero => exact fun _ _ => rfl
    | succ rounds ih =>
        intro sum v
        rw [mixRounds, Equiv.trans_apply, ih, mixWords_behind key hn _ n 0 v (by omega)]
  exact hrounds (roundsOf n) 0 v

end

/-- Coding and decoding undo each other. -/
theorem btea_roundtrip (key : Key) (v : Words) (n : Int) (hlo : 2 ≤ n) (hhi : n ≤ 2 ^ 31 - 1) :
    btea (btea v n key) (-n) key = v ∧ btea (btea v (-n) key) n key = v := by
  obtain ⟨m, rfl⟩ := Int.eq_ofNat_of_zero_le (Int.le_trans (by decide) hlo)
  have hm : 2 ≤ m := by omega
  constructor
  · rw [btea_code key v hm, btea_decode key _ hm, Equiv.symm_apply_apply]
  · rw [btea_decode key v hm, btea_code key _ hm, Equiv.apply_symm_apply]

/-- The words and the key of `main`. -/
theorem btea_roundtrip_main :
    btea (btea UInt32.ofNat 10 ![2, 2, 3, 4]) (-10) ![2, 2, 3, 4] = UInt32.ofNat :=
  (btea_roundtrip ![2, 2, 3, 4] UInt32.ofNat 10 (by decide) (by decide)).1

end CppTrack.Xxtea
