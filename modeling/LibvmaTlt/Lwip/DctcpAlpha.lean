import LibvmaTlt.Lwip.Congestion
import Mathlib.Tactic.Common

/-!
# The `Alpha` estimate

At the end of an observation window `dctcp_recv` moves `Alpha` a sixteenth of the way to the share of
marked bytes. The share is scaled by 65536 in 32 bits, so that what is lost of a window with 65536 or
more marked bytes can be the whole share.
-/

namespace LibvmaTlt.Lwip

/-- `Alpha` moved by a sixteenth, `q` being a sixteenth of the scaled share; an `Alpha` below 16 counts
as zero. -/
def alphaMove (alpha q : Nat) : Nat :=
  let a := if alpha < 16 then 0 else alpha
  a + q - a / 16

/-- The update as it is meant, in unbounded integers. -/
def alphaExact (alpha marked acked : Nat) : Nat := alphaMove alpha (65536 * marked / acked / 16)

/-- `Alpha` before `dctcp_recv` clamps it. -/
def dctcpAlphaRaw (d : DctcpParam) : U32 :=
  let scaledM := (65536 * d.bytesMarked) / d.bytesAcked
  let alpha := if d.alpha >>> 4 = 0 then 0 else d.alpha
  alpha + ((scaledM >>> 4) - (alpha >>> 4))

theorem dctcpAlpha_eq (d : DctcpParam) :
    dctcpAlpha d = if dctcpAlphaRaw d > 65536 then 65536 else dctcpAlphaRaw d := rfl

def shareKept (marked acked : Nat) : Nat := 65536 * marked % 4294967296 / acked / 16

def KeepsShare (marked acked : Nat) : Prop := 4096 * (marked % 65536) / acked = 4096 * marked / acked

instance (marked acked : Nat) : Decidable (KeepsShare marked acked) :=
  inferInstanceAs (Decidable (_ = _))

/-! ## The share -/

theorem shareKept_eq (marked acked : Nat) :
    shareKept marked acked = 4096 * (marked % 65536) / acked := by
  have hmod : 65536 * marked % 4294967296 = 16 * (4096 * (marked % 65536)) := by omega
  rw [shareKept, hmod, Nat.div_div_eq_div_mul, Nat.mul_comm acked 16,
    Nat.mul_div_mul_left _ _ (by decide)]

theorem share_eq (marked acked : Nat) : 65536 * marked / acked / 16 = 4096 * marked / acked := by
  rw [show 65536 * marked = 16 * (4096 * marked) by omega, Nat.div_div_eq_div_mul,
    Nat.mul_comm acked 16, Nat.mul_div_mul_left _ _ (by decide)]

variable {d : DctcpParam} {acked marked : Nat}

theorem share_le (h : marked ≤ acked) : 4096 * marked / acked ≤ 4096 :=
  Nat.div_le_of_le_mul (by rw [Nat.mul_comm acked]; exact Nat.mul_le_mul_left 4096 h)

theorem shareKept_le (h : marked ≤ acked) : shareKept marked acked ≤ 4096 := by
  rw [shareKept_eq]
  exact share_le (Nat.le_trans (Nat.mod_le _ _) h)

theorem KeepsShare.of_lt (acked : Nat) (h : marked < 65536) : KeepsShare marked acked := by
  rw [KeepsShare, Nat.mod_eq_of_lt h]

theorem shareKept_self (h : 65536 ≤ acked) : shareKept acked acked ≤ 2048 := by
  rw [shareKept_eq]
  apply Nat.div_le_of_le_mul
  omega

theorem keepsShare_self (h : 0 < acked) : KeepsShare acked acked ↔ acked < 65536 := by
  refine ⟨fun hk => ?_, KeepsShare.of_lt acked⟩
  by_contra hn
  have hle := shareKept_self (Nat.le_of_not_lt hn)
  rw [shareKept_eq, hk, Nat.mul_div_cancel _ h] at hle
  omega

/-! ## One window -/

theorem alphaMove_le {alpha q : Nat} (ha : alpha ≤ 65536) (hq : q ≤ 4096) :
    alphaMove alpha q ≤ 65536 := by
  unfold alphaMove
  dsimp only
  split <;> omega

theorem alphaMove_inj {alpha q q' : Nat} : alphaMove alpha q = alphaMove alpha q' ↔ q = q' := by
  unfold alphaMove
  dsimp only
  split <;> omega

theorem toNat_dctcpAlphaRaw (ha : d.alpha ≤ 65536) (hm : d.bytesMarked ≤ d.bytesAcked) :
    (dctcpAlphaRaw d).toNat =
      alphaMove d.alpha.toNat (shareKept d.bytesMarked.toNat d.bytesAcked.toNat) := by
  have hq := shareKept_le (BitVec.le_def.mp hm)
  have ha : d.alpha.toNat ≤ 65536 := ha
  have hscaled : ((65536 * d.bytesMarked / d.bytesAcked) >>> 4).toNat =
      shareKept d.bytesMarked.toNat d.bytesAcked.toNat := by
    simp [shareKept, Nat.shiftRight_eq_div_pow]
  have hzero : d.alpha >>> 4 = 0 ↔ d.alpha.toNat < 16 := by
    rw [← BitVec.toNat_inj, BitVec.toNat_ushiftRight, Nat.shiftRight_eq_div_pow]
    simp
  have hshift : (d.alpha >>> 4).toNat = d.alpha.toNat / 16 := by
    rw [BitVec.toNat_ushiftRight, Nat.shiftRight_eq_div_pow]
  unfold dctcpAlphaRaw alphaMove
  dsimp only
  by_cases hlt : d.alpha.toNat < 16
  · rw [if_pos (hzero.mpr hlt), if_pos hlt, BitVec.toNat_add, BitVec.toNat_sub, hscaled]
    have hnone : ((0 : U32) >>> 4).toNat = 0 := rfl
    rw [hnone, show (0 : U32).toNat = 0 from rfl]
    omega
  · rw [if_neg (fun h => hlt (hzero.mp h)), if_neg hlt, BitVec.toNat_add, BitVec.toNat_sub, hscaled,
      hshift]
    omega

theorem dctcpAlphaRaw_le (ha : d.alpha ≤ 65536) (hm : d.bytesMarked ≤ d.bytesAcked) :
    dctcpAlphaRaw d ≤ 65536 := by
  rw [BitVec.le_def, toNat_dctcpAlphaRaw ha hm]
  exact alphaMove_le ha (shareKept_le hm)

theorem toNat_dctcpAlpha (ha : d.alpha ≤ 65536) (hm : d.bytesMarked ≤ d.bytesAcked) :
    (dctcpAlpha d).toNat =
      alphaMove d.alpha.toNat (shareKept d.bytesMarked.toNat d.bytesAcked.toNat) := by
  rw [dctcpAlpha_eq, if_neg (BitVec.not_lt.mpr (dctcpAlphaRaw_le ha hm))]
  exact toNat_dctcpAlphaRaw ha hm

/-- The update is exact, and the clamp is not needed. -/
structure AlphaRight (d : DctcpParam) : Prop where
  exact : (dctcpAlpha d).toNat = alphaExact d.alpha.toNat d.bytesMarked.toNat d.bytesAcked.toNat
  unclamped : dctcpAlphaRaw d ≤ 65536

theorem alphaRight_iff (ha : d.alpha ≤ 65536) (hm : d.bytesMarked ≤ d.bytesAcked) :
    AlphaRight d ↔ KeepsShare d.bytesMarked.toNat d.bytesAcked.toNat := by
  have hexact : (dctcpAlpha d).toNat = alphaExact d.alpha.toNat d.bytesMarked.toNat d.bytesAcked.toNat ↔
      KeepsShare d.bytesMarked.toNat d.bytesAcked.toNat := by
    rw [toNat_dctcpAlpha ha hm, alphaExact, alphaMove_inj, shareKept_eq, share_eq, KeepsShare]
  exact ⟨fun h => hexact.mp h.exact, fun h => ⟨hexact.mpr h, dctcpAlphaRaw_le ha hm⟩⟩

/-! ## Windows marked as a whole -/

/-- `Alpha` after `n` windows of `w 0`, `w 1`, ... bytes that are all marked. -/
def markedWindows (d : DctcpParam) (w : Nat → U32) : Nat → U32
  | 0 => d.alpha
  | n + 1 => dctcpAlpha { d with alpha := markedWindows d w n, bytesMarked := w n, bytesAcked := w n }

/-- From some window on `Alpha` is above fifteen sixteenths of the scale. -/
def Saturates (a : Nat → U32) : Prop := ∃ N, ∀ n, N ≤ n → 61440 < (a n).toNat

section Windows

variable {d : DctcpParam} {w : Nat → U32}

theorem markedWindows_le (ha : d.alpha ≤ 65536) (n : Nat) : markedWindows d w n ≤ 65536 := by
  cases n with
  | zero => exact ha
  | succ n =>
    rw [markedWindows, dctcpAlpha_eq]
    split
    · exact BitVec.le_refl _
    · rename_i h
      exact BitVec.not_lt.mp h

theorem toNat_markedWindows_succ (ha : d.alpha ≤ 65536) (n : Nat) :
    (markedWindows d w (n + 1)).toNat =
      alphaMove (markedWindows d w n).toNat (shareKept (w n).toNat (w n).toNat) :=
  toNat_dctcpAlpha (d := { d with alpha := markedWindows d w n, bytesMarked := w n, bytesAcked := w n })
    (markedWindows_le ha n) (BitVec.le_refl _)

theorem le_markedWindows (ha : d.alpha ≤ 65536) (hw : ∀ n, 0 < w n ∧ (w n).toNat < 65536) (n : Nat) :
    min (256 * n) 61441 ≤ (markedWindows d w n).toNat := by
  induction n with
  | zero => omega
  | succ n ih =>
    have hpos : 0 < (w n).toNat := (hw n).1
    have hshare : shareKept (w n).toNat (w n).toNat = 4096 := by
      rw [shareKept_eq, Nat.mod_eq_of_lt (hw n).2, Nat.mul_div_cancel _ hpos]
    have hle : (markedWindows d w n).toNat ≤ 65536 := markedWindows_le ha n
    rw [toNat_markedWindows_succ ha, hshare]
    unfold alphaMove
    dsimp only
    split <;> omega

theorem saturates_of_lt (ha : d.alpha ≤ 65536) (hw : ∀ n, 0 < w n ∧ (w n).toNat < 65536) :
    Saturates (markedWindows d w) := by
  refine ⟨241, fun n hn => ?_⟩
  have := le_markedWindows ha hw n
  omega

theorem not_saturates {acked : U32} (ha : d.alpha ≤ 65536) (hw : 65536 ≤ acked.toNat) :
    ¬ Saturates (markedWindows d fun _ => acked) := by
  rintro ⟨N, hN⟩
  have hdown : ∀ k, (markedWindows d (fun _ => acked) (N + k)).toNat + k ≤ 65536 := by
    intro k
    induction k with
    | zero => exact markedWindows_le ha N
    | succ k ih =>
      have hshare := shareKept_self hw
      have habove := hN (N + k) (Nat.le_add_right N k)
      rw [show N + (k + 1) = N + k + 1 from rfl, toNat_markedWindows_succ ha]
      unfold alphaMove
      dsimp only
      split <;> omega
  have := hdown 65537
  omega

end Windows

/-- **The update of `Alpha` is exact just for windows whose marked bytes keep their share**; with them
`Alpha` follows a path that is marked all the time, for windows of one size with no others. -/
theorem dctcpAlpha_right_iff (d : DctcpParam) (ha : d.alpha ≤ 65536) (hm : d.bytesMarked ≤ d.bytesAcked)
    (hb : 0 < d.bytesAcked) (w : Nat → U32) (hw : ∀ n, 0 < w n) :
    (AlphaRight d ↔ KeepsShare d.bytesMarked.toNat d.bytesAcked.toNat) ∧
      ((∀ n, KeepsShare (w n).toNat (w n).toNat) → Saturates (markedWindows d w)) ∧
      (Saturates (markedWindows d fun _ => d.bytesAcked) ↔
        KeepsShare d.bytesAcked.toNat d.bytesAcked.toNat) := by
  refine ⟨alphaRight_iff ha hm, fun hk => ?_, ?_⟩
  · exact saturates_of_lt ha fun n => ⟨hw n, (keepsShare_self (hw n)).mp (hk n)⟩
  · rw [keepsShare_self hb]
    refine ⟨fun hs => ?_, fun hlt => saturates_of_lt ha fun _ => ⟨hb, hlt⟩⟩
    by_contra hn
    exact not_saturates ha (Nat.le_of_not_lt hn) hs

def quarterMarked : DctcpParam :=
  { dctcpInit 1 with alpha := 65536, bytesMarked := 250, bytesAcked := 1000 }

theorem dctcpAlpha_right_quarter :
    AlphaRight quarterMarked ∧ Saturates (markedWindows quarterMarked fun _ => 1460) := by
  have h := dctcpAlpha_right_iff quarterMarked (by decide) (by decide) (by decide) (fun _ => 1460)
    (fun _ => by decide)
  exact ⟨h.1.mpr (by decide), h.2.1 fun _ => by decide⟩

/-- A window of 65536 bytes, all of them marked, counts as one without a mark. -/
theorem dctcpAlpha_unmarked :
    ¬ AlphaRight { dctcpInit 1 with alpha := 65536, bytesMarked := 65536, bytesAcked := 65536 } :=
  fun h => absurd h.exact (by decide)

end LibvmaTlt.Lwip
