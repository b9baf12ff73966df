import CppTrack.Lib.Clock

/-!
# Numbers in order round a clock

Sequence numbers of `w` bits that are counted on and on come round again. A list of them is in
order after a base when all of them lie in the half turn after the base and each is further ahead
of it than the one before; the base itself may be moved up behind them.
-/

namespace CppTrack.Lib

variable {w : Nat} {base s t : BitVec w} {l l' : List (BitVec w)}

/-- Each number is ahead of the base by more than the one before, and by less than half a turn. -/
structure InOrder (base : BitVec w) (l : List (BitVec w)) : Prop where
  within : ∀ t ∈ l, Within base t
  sorted : l.Pairwise fun s t => ahead base s < ahead base t

theorem inOrder_nil (base : BitVec w) : InOrder base [] where
  within := by simp
  sorted := .nil

theorem inOrder_cons : InOrder base (s :: l) ↔
    Within base s ∧ (∀ t ∈ l, ahead base s < ahead base t) ∧ InOrder base l := by
  constructor
  · intro h
    obtain ⟨hhead, htail⟩ := List.pairwise_cons.mp h.sorted
    refine ⟨h.within s List.mem_cons_self, hhead, fun t ht => ?_, htail⟩
    exact h.within t (List.mem_cons_of_mem s ht)
  · intro h
    obtain ⟨hs, hhead, htail⟩ := h
    refine ⟨fun t ht => ?_, List.pairwise_cons.mpr ⟨hhead, htail.sorted⟩⟩
    rcases List.mem_cons.mp ht with rfl | ht
    · exact hs
    · exact htail.within t ht

theorem InOrder.sublist (h : InOrder base l) (hsub : List.Sublist l' l) : InOrder base l' where
  within := fun t ht => h.within t (hsub.subset ht)
  sorted := h.sorted.sublist hsub

theorem InOrder.nodup (h : InOrder base l) : l.Nodup := by
  refine h.sorted.imp fun hlt heq => ?_
  rw [heq] at hlt
  exact lt_irrefl _ hlt

/-- A number may be put behind those it is ahead of and before those that are ahead of it. -/
theorem inOrder_insert (h : InOrder base (l ++ l')) (hs : Within base s)
    (hleft : ∀ t ∈ l, ahead base t < ahead base s)
    (hright : ∀ t ∈ l', ahead base s < ahead base t) :
    InOrder base (l ++ s :: l') := by
  obtain ⟨hl, hl', hboth⟩ := List.pairwise_append.mp h.sorted
  refine ⟨fun t ht => ?_, List.pairwise_append.mpr ⟨hl, ?_, ?_⟩⟩
  · rcases List.mem_append.mp ht with ht | ht
    · exact h.within t (List.mem_append_left _ ht)
    · rcases List.mem_cons.mp ht with rfl | ht
      · exact hs
      · exact h.within t (List.mem_append_right _ ht)
  · exact List.pairwise_cons.mpr ⟨hright, hl'⟩
  · intro t ht u hu
    rcases List.mem_cons.mp hu with rfl | hu
    · exact hleft t ht
    · exact hboth t ht u hu

/-- Past the base by something, a number is past the next base by one less. -/
theorem ahead_succ (h : Within base t) (hpos : 0 < ahead base t) :
    Within (base + 1) t ∧ ahead (base + 1) t = ahead base t - 1 := by
  have hnat := h.ahead_eq
  have hsub : t - (base + 1) = t - base - 1 := by rw [sub_add_eq_sub_sub]
  have hone : (t - (base + 1)).toNat = (t - base).toNat - 1 := by
    have hlt : (t - base).toNat < 2 ^ w := (t - base).isLt
    have hge : 1 ≤ (t - base).toNat := by omega
    have hlit : (1 : BitVec w).toNat = 1 % 2 ^ w := BitVec.toNat_ofNat 1 w
    have hunit : (1 : BitVec w).toNat = 1 := hlit.trans (Nat.mod_eq_of_lt (by omega))
    have hle : (1 : BitVec w) ≤ t - base := by
      rw [BitVec.le_def, hunit]
      exact hge
    rw [hsub, BitVec.toNat_sub_of_le hle, hunit]
  have hwithin : Within (base + 1) t := by
    unfold Within at h ⊢
    rw [hone]
    omega
  refine ⟨hwithin, ?_⟩
  rw [hwithin.ahead_eq, hone]
  omega

/-- When the number at the base has gone, the base goes up by one. -/
theorem InOrder.next (h : InOrder base (base :: l)) : InOrder (base + 1) l := by
  obtain ⟨-, hhead, htail⟩ := inOrder_cons.mp h
  have hpos : ∀ t ∈ l, 0 < ahead base t := fun t ht => ahead_self base ▸ hhead t ht
  refine ⟨fun t ht => (ahead_succ (htail.within t ht) (hpos t ht)).1, ?_⟩
  refine htail.sorted.imp_of_mem fun hs ht hlt => ?_
  rw [(ahead_succ (htail.within _ hs) (hpos _ hs)).2,
    (ahead_succ (htail.within _ ht) (hpos _ ht)).2]
  omega

/-- The first number may be made the base. -/
theorem InOrder.rebase (h : InOrder base (s :: l)) : InOrder s (s :: l) := by
  obtain ⟨hs, hhead, htail⟩ := inOrder_cons.mp h
  have hbase : ∀ t ∈ s :: l, ahead base s ≤ ahead base t := by
    intro t ht
    rcases List.mem_cons.mp ht with rfl | ht
    · exact le_refl _
    · exact (hhead t ht).le
  refine ⟨fun t ht => within_iff.mpr ?_, ?_⟩
  · rw [ahead_sub hs (h.within t ht)]
    have hle := hbase t ht
    omega
  · refine h.sorted.imp_of_mem fun hu ht hlt => ?_
    rw [ahead_sub hs (h.within _ hu), ahead_sub hs (h.within _ ht)]
    omega

/-- One further on, as long as that is less than half a turn. -/
theorem ahead_add_one (h : Within base t) (hlt : 2 * ((t - base).toNat + 1) < 2 ^ w) :
    Within base (t + 1) ∧ ahead base (t + 1) = ahead base t + 1 := by
  have hsum : t + 1 - base = t - base + 1 := add_sub_right_comm t 1 base
  have hlit : (1 : BitVec w).toNat = 1 % 2 ^ w := BitVec.toNat_ofNat 1 w
  have hunit : (1 : BitVec w).toNat = 1 := hlit.trans (Nat.mod_eq_of_lt (by omega))
  have hnat : (t + 1 - base).toNat = (t - base).toNat + 1 := by
    rw [hsum, BitVec.toNat_add, hunit, Nat.mod_eq_of_lt (by omega)]
  have hwithin : Within base (t + 1) := by
    unfold Within
    rw [hnat]
    exact hlt
  refine ⟨hwithin, ?_⟩
  rw [hwithin.ahead_eq, h.ahead_eq, hnat]
  omega

/-- What comes after the last number may be put at the end. -/
theorem InOrder.succ (h : InOrder base (l ++ [t])) (hlt : 2 * ((t - base).toNat + 1) < 2 ^ w) :
    InOrder base (l ++ [t] ++ [t + 1]) := by
  have ht := h.within t (List.mem_append_right l List.mem_cons_self)
  obtain ⟨hwithin, hahead⟩ := ahead_add_one ht hlt
  refine inOrder_insert (by rw [List.append_nil]; exact h) hwithin ?_ (by simp)
  intro s hs
  rw [hahead]
  rcases List.mem_append.mp hs with hs | hs
  · have hst := (List.pairwise_append.mp h.sorted).2.2 s hs t List.mem_cons_self
    omega
  · rw [List.mem_singleton.mp hs]
    omega

/-! ## Counting -/

/-- The `n` numbers from `start` on. -/
def counting (start : BitVec w) (n : Nat) : List (BitVec w) :=
  (List.range n).map fun k => start + BitVec.ofNat w k

theorem ofNat_succ (n : Nat) : BitVec.ofNat w (n + 1) = BitVec.ofNat w n + 1 :=
  BitVec.ofNat_add n 1

theorem counting_succ (start : BitVec w) (n : Nat) :
    counting start (n + 1) = counting start n ++ [start + BitVec.ofNat w n] := by
  unfold counting
  rw [List.range_succ, List.map_append, List.map_singleton]

theorem counting_succ' (start : BitVec w) (n : Nat) :
    counting start (n + 1) = start :: counting (start + 1) n := by
  have hfirst : start + BitVec.ofNat w 0 = start := add_zero start
  have hrest : ∀ k, start + BitVec.ofNat w (k + 1) = start + 1 + BitVec.ofNat w k := by
    intro k
    rw [ofNat_succ, add_comm (BitVec.ofNat w k), add_assoc]
  unfold counting
  rw [List.range_succ_eq_map, List.map_cons, List.map_map, hfirst]
  exact congrArg (start :: ·) (List.map_congr_left fun k _ => hrest k)

end CppTrack.Lib
