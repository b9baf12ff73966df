import CppTrack.Kcp.Sides

/-!
# When to call `ikcp_update` again

`ikcp_check` names a time, and a caller sleeps until then. Before that time `ikcp_update` would do
nothing, and no segment in `snd_buf` becomes due.
-/

namespace CppTrack.Kcp

open Lib

/-- The loop finds none of the segments due, and the shortest time. -/
theorem checkLoop_some {current : IUINT32} {tmPacket tm : Int} {segs : List Ikcpseg}
    (hpos : 0 < tmPacket) (h : checkLoop current tmPacket segs = some tm) :
    0 < tm ∧ tm ≤ tmPacket ∧ ∀ seg ∈ segs, tm ≤ itimediff seg.resendts current := by
  induction segs generalizing tmPacket with
  | nil =>
      obtain rfl := Option.some.inj h
      exact ⟨hpos, le_refl _, fun seg hseg => absurd hseg List.not_mem_nil⟩
  | cons first segs ih =>
      simp only [checkLoop] at h
      split at h
      case isTrue => exact absurd h.symm (Option.some_ne_none tm)
      case isFalse hdiff =>
        have hnext : 0 < if itimediff first.resendts current < tmPacket then
            itimediff first.resendts current else tmPacket := by
          split <;> omega
        obtain ⟨htm, hle, hrest⟩ := ih hnext h
        have hmin : tm ≤ tmPacket ∧ tm ≤ itimediff first.resendts current := by
          split at hle <;> omega
        refine ⟨htm, hmin.1, fun seg hseg => ?_⟩
        rcases List.mem_cons.mp hseg with rfl | hseg
        · exact hmin.2
        · exact hrest seg hseg

/-- Both readings are moved on by less than what lies between them. -/
theorem itimediff_earlier {s t d : IUINT32} (h : (d.toNat : Int) ≤ itimediff t s) :
    itimediff t (s + d) = itimediff t s - d.toNat := by
  have hlt : itimediff t s < 2 ^ 31 := BitVec.toInt_lt
  have hsplit : t - (s + d) = t - s - d := sub_add_eq_sub_sub t s d
  have hd : d.toInt = d.toNat := BitVec.toInt_eq_toNat_of_lt (by omega)
  unfold itimediff ahead at h hlt ⊢
  rw [hsplit, BitVec.toInt_sub, hd]
  refine Int.bmod_eq_of_le_mul_two ?_ ?_
  · omega
  · omega

/-- A reading is behind another by as much as the other is ahead of it. -/
theorem itimediff_neg {s t : IUINT32} (h : -(2 ^ 31) < itimediff s t) :
    itimediff t s = -itimediff s t := by
  have hlt : itimediff s t < 2 ^ 31 := BitVec.toInt_lt
  have hsub : t - s = -(s - t) := (neg_sub s t).symm
  unfold itimediff ahead at h hlt ⊢
  rw [hsub, BitVec.toInt_neg]
  refine Int.bmod_eq_of_le_mul_two ?_ ?_
  · omega
  · omega

/-- `ikcp_check` names a time that is not further off than the interval, the next flush and any
`resendts`. -/
theorem ikcpCheck_cases (kcp : Ikcpcb) (current : IUINT32) : ikcpCheck kcp current = current ∨
    kcp.updated ≠ 0 ∧ itimediff current kcp.tsFlush < 0 ∧
    -10000 ≤ itimediff current kcp.tsFlush ∧ ∃ minimal : IUINT32,
      ikcpCheck kcp current = current + minimal ∧ minimal ≤ kcp.interval ∧
      (minimal.toNat : Int) ≤ itimediff kcp.tsFlush current ∧
      ∀ seg ∈ kcp.sndBuf, (minimal.toNat : Int) ≤ itimediff seg.resendts current := by
  by_cases hupdated : kcp.updated = 0
  · exact .inl (if_pos hupdated)
  · by_cases hjumped :
      itimediff current kcp.tsFlush ≥ 10000 ∨ itimediff current kcp.tsFlush < -10000
    · left
      simp only [ikcpCheck, if_neg hupdated, if_pos hjumped]
      exact if_pos (by rw [itimediff, ahead_self])
    · by_cases hflush : itimediff current kcp.tsFlush ≥ 0
      · left
        simp only [ikcpCheck, if_neg hupdated, if_neg hjumped, if_pos hflush]
      · cases hloop : checkLoop current 0x7fffffff kcp.sndBuf with
        | none =>
            left
            simp only [ikcpCheck, if_neg hupdated, if_neg hjumped, if_neg hflush, hloop]
        | some tmPacket =>
            right
            obtain ⟨htm, -, hsegs⟩ := checkLoop_some (by decide) hloop
            have hback := itimediff_neg (s := current) (t := kcp.tsFlush) (by omega)
            have hshort : ∃ tm : Int, (if tmPacket < itimediff kcp.tsFlush current then tmPacket
                else itimediff kcp.tsFlush current) = tm ∧ 0 < tm ∧ tm ≤ tmPacket ∧
                tm ≤ itimediff kcp.tsFlush current ∧ (BitVec.ofInt 32 tm).toNat = tm := by
              refine ⟨_, rfl, ?_⟩
              rw [BitVec.toNat_ofInt, Int.toNat_of_nonneg (Int.emod_nonneg _ (by decide))]
              split <;> omega
            obtain ⟨tm, hite, -, hpacket, hnext, hnat⟩ := hshort
            refine ⟨hupdated, by omega, by omega,
              if BitVec.ofInt 32 tm ≥ kcp.interval then kcp.interval
              else BitVec.ofInt 32 tm, ?_, ?_⟩
            · rw [← hite]
              simp only [ikcpCheck, if_neg hupdated, if_neg hjumped, if_neg hflush, hloop]
            · have hle : (if BitVec.ofInt 32 tm ≥ kcp.interval then kcp.interval
                  else BitVec.ofInt 32 tm) ≤ BitVec.ofInt 32 tm := by
                split
                case isTrue hge => exact hge
                case isFalse => exact BitVec.le_refl _
              have hnatle := BitVec.le_def.mp hle
              refine ⟨?_, by omega, fun seg hseg => ?_⟩
              · split
                case isTrue => exact BitVec.le_refl _
                case isFalse hlt => exact BitVec.le_of_lt (BitVec.not_le.mp hlt)
              · have hseg := hsegs seg hseg
                omega

/-- From a call of `ikcp_check` until the time that it names, which is at most the interval away,
`ikcp_update` only takes down the time, and no segment in `snd_buf` becomes due. -/
theorem ikcp_check_sleeps (kcp : Ikcpcb) (current d : IUINT32)
    (hd : d < ikcpCheck kcp current - current) : d < kcp.interval ∧
    ikcpUpdate kcp (current + d) = some ({ kcp with current := current + d }, []) ∧
    ∀ seg ∈ kcp.sndBuf, itimediff (current + d) seg.resendts < 0 := by
  have hminus : ∀ m : IUINT32, current + m - current = m := fun m => add_sub_cancel_left current m
  rcases ikcpCheck_cases kcp current with
    hnow | ⟨hupdated, hlt, hge, minimal, hcheck, hle, hflush, hsegs⟩
  · rw [hnow, BitVec.sub_self, BitVec.lt_def] at hd
    exact absurd hd (Nat.not_lt_zero _)
  · rw [hcheck, hminus] at hd
    have hnat := BitVec.lt_def.mp hd
    have hmin := BitVec.le_def.mp hle
    have hbehind : ∀ t : IUINT32, (minimal.toNat : Int) ≤ itimediff t current →
        itimediff (current + d) t = d.toNat - itimediff t current := by
      intro t ht
      have hearlier := itimediff_earlier (s := current) (t := t) (d := d) (by omega)
      rw [itimediff_neg (s := t) (t := current + d) (by omega), hearlier]
      omega
    refine ⟨BitVec.lt_def.mpr (hnat.trans_le hmin), ?_, fun seg hseg => ?_⟩
    · have hslap := hbehind kcp.tsFlush hflush
      have hback := itimediff_neg (s := current) (t := kcp.tsFlush) (by omega)
      simp only [ikcpUpdate, if_neg hupdated]
      rw [if_neg (by omega), if_neg (by omega)]
    · have hseg' := hsegs seg hseg
      rw [hbehind seg.resendts hseg']
      omega

/-- A new end that has been updated at 1000, and is asked at 1030. -/
theorem ikcp_check_sleeps_once : ∃ kcp, (ikcpCreate 7).call (.update 1000) = some kcp ∧
    ikcpCheck kcp 1030 = 1100 ∧ ((20 : IUINT32) < kcp.interval ∧
    ikcpUpdate kcp (1030 + 20) = some ({ kcp with current := 1030 + 20 }, []) ∧
    ∀ seg ∈ kcp.sndBuf, itimediff (1030 + 20) seg.resendts < 0) := by
  obtain ⟨kcp, hcall, hcheck⟩ : ∃ kcp, (ikcpCreate 7).call (.update 1000) = some kcp ∧
      ikcpCheck kcp 1030 = 1100 := ⟨_, rfl, by decide⟩
  exact ⟨kcp, hcall, hcheck, ikcp_check_sleeps kcp 1030 20 (by rw [hcheck]; decide)⟩

end CppTrack.Kcp
