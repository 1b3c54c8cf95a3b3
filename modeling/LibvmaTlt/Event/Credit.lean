import Mathlib.Tactic.Common
import LibvmaTlt.Event.DeltaTimer

/-!
# The time that updates credit

Every update that credits any time to the list moves `m_ts_last` to the clock, and what is left of a
millisecond is lost. Updates that find nothing to credit leave `m_ts_last` alone, so they lose nothing.
-/

namespace LibvmaTlt.Event

/-- The thread, with the milliseconds its updates credited to the list so far. -/
structure Credit where
  thread : Thread
  msec : Nat

def Credit.update (c : Credit) (now : Nat) : Credit :=
  ⟨c.thread.updateTimeout now,
    c.msec + (toInt32 (((now : Int) - c.thread.tsLast) / nsecPerMsec)).toNat⟩

/-- The time since `m_ts_last` is less than a millisecond or a whole number of them, which fits an
`int`. -/
def Thread.keepsTime (s : Thread) (now : Nat) : Prop :=
  (now - s.tsLast < nsecPerMsec ∨ nsecPerMsec ∣ now - s.tsLast) ∧
    now - s.tsLast < 2147483648 * nsecPerMsec

section Credit

variable {t₀ now : Nat} {l : TimerList} {c : Credit}

/-- The milliseconds credited fit in between the start and `m_ts_last`. -/
structure Credit.Within (t₀ : Nat) (c : Credit) : Prop where
  credit : t₀ + c.msec * nsecPerMsec ≤ c.thread.tsLast
  last : c.thread.tsLast ≤ c.thread.clock

theorem Credit.Within.update (h : c.Within t₀) (hnow : c.thread.clock ≤ now) :
    (c.update now).Within t₀ := by
  obtain ⟨hc, hl⟩ := h
  obtain ⟨-, hM⟩ := elapsed_spec (Nat.le_trans hl hnow)
  unfold Credit.update Thread.updateTimeout
  generalize toInt32 (((now : Int) - c.thread.tsLast) / nsecPerMsec) = d at hM ⊢
  by_cases hd : 0 < d
  · simp only [if_pos hd]
    refine ⟨?_, Nat.le_refl _⟩
    show t₀ + (c.msec + d.toNat) * nsecPerMsec ≤ now
    have hle : ((d.toNat * nsecPerMsec : Nat) : Int) ≤ (now : Int) - c.thread.tsLast := by
      rw [Int.natCast_mul, Int.toNat_of_nonneg (Int.le_of_lt hd)]
      exact hM
    rw [Nat.add_mul, ← Nat.add_assoc]
    refine Nat.le_trans (Nat.add_le_add_right hc _) ?_
    clear hM hc
    omega
  · simp only [if_neg hd, Int.toNat_of_nonpos (Int.not_lt.mp hd)]
    exact ⟨hc, Nat.le_trans hl hnow⟩

/-- No time is lost: what is not credited is less than a millisecond. -/
structure Credit.Exact (t₀ : Nat) (c : Credit) : Prop where
  credit : t₀ + c.msec * nsecPerMsec = c.thread.tsLast
  last : c.thread.tsLast ≤ c.thread.clock
  rest : c.thread.clock < c.thread.tsLast + nsecPerMsec

theorem Credit.Exact.update (h : c.Exact t₀) (hnow : c.thread.clock ≤ now)
    (hk : c.thread.keepsTime now) : (c.update now).Exact t₀ := by
  obtain ⟨hc, hl, -⟩ := h
  obtain ⟨hwhole, hlt⟩ := hk
  have hd : toInt32 (((now : Int) - c.thread.tsLast) / nsecPerMsec) =
      ((now - c.thread.tsLast) / nsecPerMsec : Nat) := by
    simp only [nsecPerMsec] at hlt ⊢
    rw [toInt32_eq (by omega) (by omega)]
    omega
  unfold Credit.update Thread.updateTimeout
  simp only [hd, Int.toNat_natCast, Int.natCast_pos]
  by_cases hpos : 0 < (now - c.thread.tsLast) / nsecPerMsec
  · -- a whole number of milliseconds, all of which is credited
    have hdvd : nsecPerMsec ∣ now - c.thread.tsLast :=
      hwhole.resolve_left (Nat.not_lt.mpr (Nat.div_pos_iff.mp hpos).2)
    simp only [if_pos hpos]
    refine ⟨?_, Nat.le_refl _, Nat.lt_add_of_pos_right (by decide)⟩
    show t₀ + (c.msec + (now - c.thread.tsLast) / nsecPerMsec) * nsecPerMsec = now
    rw [Nat.add_mul, Nat.div_mul_cancel hdvd, ← Nat.add_assoc, hc]
    exact Nat.add_sub_cancel' (Nat.le_trans hl hnow)
  · have h0 := Nat.eq_zero_of_not_pos hpos
    have hlt : now - c.thread.tsLast < nsecPerMsec :=
      (Nat.div_eq_zero_iff.mp h0).resolve_left (by decide)
    simp only [h0]
    exact ⟨hc, Nat.le_trans hl hnow, (Nat.sub_lt_iff_lt_add' (Nat.le_trans hl hnow)).mp hlt⟩

/-- **The updates never credit more time than has passed**, and at most a millisecond less in a run in
which none of them meets a fraction of a millisecond to lose. -/
theorem credit_no_drift
    (h : Reach Credit.update (fun c now => c.thread.clock ≤ now)
      ⟨{ list := l, tsLast := t₀, clock := t₀ }, 0⟩ c) :
    c.msec ≤ (c.thread.clock - t₀) / nsecPerMsec ∧
      (Reach Credit.update (fun c now => c.thread.clock ≤ now ∧ c.thread.keepsTime now)
          ⟨{ list := l, tsLast := t₀, clock := t₀ }, 0⟩ c →
        (c.thread.clock - t₀) / nsecPerMsec - 1 ≤ c.msec) := by
  constructor
  · obtain ⟨hc, hl⟩ := h.inv (I := Credit.Within t₀) ⟨by simp, Nat.le_refl _⟩
      fun c now hi hok => hi.update hok
    simp only [nsecPerMsec] at hc ⊢
    omega
  · intro hk
    obtain ⟨hc, hl, hr⟩ := hk.inv (I := Credit.Exact t₀) ⟨by simp, Nat.le_refl _, by simp⟩
      fun c now hi hok => hi.update hok.1 hok.2
    simp only [nsecPerMsec] at hc hr ⊢
    omega

end Credit

theorem credit_no_drift_whole :
    ((Credit.update ⟨{}, 0⟩ 400000).update 3000000).msec ≤ 3 ∧
      3 - 1 ≤ ((Credit.update ⟨{}, 0⟩ 400000).update 3000000).msec := by
  have hrun : Reach Credit.update (fun c now => c.thread.clock ≤ now ∧ c.thread.keepsTime now)
      ⟨{ list := [], tsLast := 0, clock := 0 }, 0⟩ ((Credit.update ⟨{}, 0⟩ 400000).update 3000000) := by
    refine .next (.next .start 400000 ⟨by decide, ?_⟩) 3000000 ⟨by decide +kernel, ?_⟩
    · exact ⟨.inr (by decide +kernel), by decide +kernel⟩
    · exact ⟨.inl (by decide), by decide⟩
  obtain ⟨hle, hge⟩ := credit_no_drift (hrun.mono fun _ _ h => h.1)
  exact ⟨hle, hge hrun⟩

/-- Three updates, a nanosecond short of two milliseconds apart, credit three of nearly six. -/
theorem credit_drifts :
    let c := ((Credit.update ⟨{}, 0⟩ 1999999).update 3999998).update 5999997
    Reach Credit.update (fun c now => c.thread.clock ≤ now) ⟨{}, 0⟩ c ∧ c.msec = 3 ∧
      ¬(c.thread.clock - 0) / nsecPerMsec - 1 ≤ c.msec := by
  refine ⟨.next (.next (.next .start _ ?_) _ ?_) _ ?_, ?_, ?_⟩ <;> decide +kernel

end LibvmaTlt.Event
