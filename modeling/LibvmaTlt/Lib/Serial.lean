import Mathlib

/-!
# Serial numbers

Sequence numbers of a fixed width wrap around, so protocols compare them by the sign of their
difference. `At s k` says that `s` is the serial number of the integer position `k`; positions
never wrap. Two serial numbers whose positions lie less than half the number space apart compare
as their positions do (`At.lt_iff` and its siblings), and that is the only way the sign of the
difference says anything about order.
-/

namespace LibvmaTlt.Serial

variable {w : Nat}

/-- `a` comes before `b`: their difference, read as a signed number, is negative. -/
def Lt (a b : BitVec w) : Prop := (a - b).toInt < 0

def Le (a b : BitVec w) : Prop := (a - b).toInt ≤ 0

/-- `a` comes after `b`. Not the same as `Lt b a` half the number space apart. -/
def Gt (a b : BitVec w) : Prop := (a - b).toInt > 0

def Ge (a b : BitVec w) : Prop := (a - b).toInt ≥ 0

def Between (a b c : BitVec w) : Prop := Ge a b ∧ Le a c

instance (a b : BitVec w) : Decidable (Lt a b) := inferInstanceAs (Decidable (_ < _))
instance (a b : BitVec w) : Decidable (Le a b) := inferInstanceAs (Decidable (_ ≤ _))
instance (a b : BitVec w) : Decidable (Gt a b) := inferInstanceAs (Decidable (_ > _))
instance (a b : BitVec w) : Decidable (Ge a b) := inferInstanceAs (Decidable (_ ≥ _))
instance (a b c : BitVec w) : Decidable (Between a b c) := inferInstanceAs (Decidable (_ ∧ _))

/-- `s` is the serial number of position `k`. -/
def At (s : BitVec w) (k : Int) : Prop := s = BitVec.ofInt w k

theorem at_toNat (s : BitVec w) : At s s.toNat := by
  unfold At
  rw [BitVec.ofInt_natCast, BitVec.ofNat_toNat, BitVec.setWidth_eq]

theorem ofInt_sub (k l : Int) : BitVec.ofInt w (k - l) = BitVec.ofInt w k - BitVec.ofInt w l := by
  have h : BitVec.ofInt w k = BitVec.ofInt w (k - l) + BitVec.ofInt w l := by
    rw [← BitVec.ofInt_add, Int.sub_add_cancel]
  rw [h, BitVec.add_sub_cancel]

namespace At

variable {a b c : BitVec w} {k l m : Int}

theorem add (h : At a k) (n : Nat) : At (a + BitVec.ofNat w n) (k + n) := by
  unfold At at *
  rw [h, BitVec.ofInt_add, BitVec.ofInt_natCast]

theorem of_distance (h : At a k) (e : BitVec w) : At e (k + (e - a).toNat) := by
  have he : a + BitVec.ofNat w (e - a).toNat = e := by
    rw [BitVec.ofNat_toNat, BitVec.setWidth_eq, BitVec.add_comm, BitVec.sub_add_cancel]
  have hadd := h.add (e - a).toNat
  rwa [he] at hadd

theorem toInt_sub (ha : At a k) (hb : At b l) (h1 : -2 ^ w ≤ 2 * (k - l))
    (h2 : 2 * (k - l) < 2 ^ w) : (a - b).toInt = k - l := by
  unfold At at ha hb
  rw [ha, hb, ← ofInt_sub, BitVec.toInt_ofInt]
  apply Int.bmod_eq_of_le_mul_two <;> push_cast <;> omega

theorem toNat_sub (ha : At a k) (hb : At b l) (h1 : l ≤ k) (h2 : k - l < 2 ^ w) :
    ((a - b).toNat : Int) = k - l := by
  unfold At at ha hb
  have hp : (0 : Int) < 2 ^ w := Int.pow_pos (by decide)
  rw [ha, hb, ← ofInt_sub, BitVec.toNat_ofInt]
  push_cast
  rw [Int.toNat_of_nonneg (Int.emod_nonneg _ hp.ne'), Int.emod_eq_of_lt (by omega) h2]

theorem eq_iff (ha : At a k) (hb : At b l) (h1 : -2 ^ w < k - l) (h2 : k - l < 2 ^ w) :
    a = b ↔ k = l := by
  constructor
  · intro h
    subst h
    rcases Int.le_total l k with hle | hle
    · have := ha.toNat_sub hb hle h2
      simp only [BitVec.sub_self, BitVec.toNat_ofNat, Nat.zero_mod, Nat.cast_zero] at this
      omega
    · have := hb.toNat_sub ha hle (by omega)
      simp only [BitVec.sub_self, BitVec.toNat_ofNat, Nat.zero_mod, Nat.cast_zero] at this
      omega
  · intro h
    subst h
    exact ha.trans hb.symm

section Order

variable (ha : At a k) (hb : At b l) (h1 : -2 ^ w ≤ 2 * (k - l)) (h2 : 2 * (k - l) < 2 ^ w)

include ha hb h1 h2

theorem lt_iff : Lt a b ↔ k < l := by
  rw [Lt, ha.toInt_sub hb h1 h2]; omega

theorem le_iff : Le a b ↔ k ≤ l := by
  rw [Le, ha.toInt_sub hb h1 h2]; omega

theorem gt_iff : Gt a b ↔ l < k := by
  rw [Gt, ha.toInt_sub hb h1 h2]; omega

theorem ge_iff : Ge a b ↔ l ≤ k := by
  rw [Ge, ha.toInt_sub hb h1 h2]; omega

end Order

end At

/-! ## Offsets from a base

Numbers less than half the number space behind a common base compare as their offsets. -/

section Offset

variable {a b base : BitVec w}

theorem le_iff_offset (ha : 2 * (a - base).toNat < 2 ^ w) (hb : 2 * (b - base).toNat < 2 ^ w) :
    Le a b ↔ (a - base).toNat ≤ (b - base).toNat := by
  have hpow : ((2 ^ w : Nat) : Int) = 2 ^ w := by push_cast; rfl
  have hbase := at_toNat base
  rw [(hbase.of_distance a).le_iff (hbase.of_distance b) (by omega) (by omega)]
  omega

theorem lt_iff_offset (ha : 2 * (a - base).toNat < 2 ^ w) (hb : 2 * (b - base).toNat < 2 ^ w) :
    Lt a b ↔ (a - base).toNat < (b - base).toNat := by
  have hpow : ((2 ^ w : Nat) : Int) = 2 ^ w := by push_cast; rfl
  have hbase := at_toNat base
  rw [(hbase.of_distance a).lt_iff (hbase.of_distance b) (by omega) (by omega)]
  omega

theorem toNat_sub_offset (h : (a - base).toNat ≤ (b - base).toNat) :
    (b - a).toNat = (b - base).toNat - (a - base).toNat := by
  have hlt := (b - base).isLt
  have hpow : ((2 ^ w : Nat) : Int) = 2 ^ w := by push_cast; rfl
  have hbase := at_toNat base
  have := (hbase.of_distance b).toNat_sub (hbase.of_distance a) (by omega) (by omega)
  omega

theorem toNat_add_offset {k : Nat} (h : (a - base).toNat + k < 2 ^ w) :
    (a + BitVec.ofNat w k - base).toNat = (a - base).toNat + k := by
  have hpow : ((2 ^ w : Nat) : Int) = 2 ^ w := by push_cast; rfl
  have hbase := at_toNat base
  have := ((hbase.of_distance a).add k).toNat_sub hbase (by omega) (by omega)
  omega

theorem offset_add (h : (a - base).toNat + (b - a).toNat < 2 ^ w) :
    (b - base).toNat = (a - base).toNat + (b - a).toNat := by
  rw [← toNat_add_offset h, BitVec.ofNat_toNat, BitVec.setWidth_eq, BitVec.add_comm,
    BitVec.sub_add_cancel]

end Offset

/-! ## Stretches of the number space -/

/-- The `n` numbers from `a` on come before `e`, all within half the number space of it. -/
def Before (a : BitVec w) (n : Nat) (e : BitVec w) : Prop :=
  n ≤ (e - a).toNat ∧ 2 * (e - a).toNat < 2 ^ w

instance (a : BitVec w) (n : Nat) (e : BitVec w) : Decidable (Before a n e) :=
  inferInstanceAs (Decidable (_ ∧ _))

theorem toNat_sub_add {a e : BitVec w} {k : Nat} (h : k ≤ (e - a).toNat) :
    (e - (a + BitVec.ofNat w k)).toNat = (e - a).toNat - k := by
  have hlt := (e - a).isLt
  have hk : (BitVec.ofNat w k).toNat = k := by
    rw [BitVec.toNat_ofNat, Nat.mod_eq_of_lt (by omega)]
  have hsub : e - (a + BitVec.ofNat w k) = (e - a) - BitVec.ofNat w k := by
    rw [BitVec.sub_eq_add_neg, BitVec.neg_add, BitVec.sub_eq_add_neg, ← BitVec.add_assoc,
      ← BitVec.sub_eq_add_neg, ← BitVec.sub_eq_add_neg]
  rw [hsub, BitVec.toNat_sub_of_le (by rw [BitVec.le_def, hk]; exact h), hk]

namespace Before

variable {a e : BitVec w} {n k : Nat}

theorem take (h : Before a n e) (hk : k ≤ n) : Before a k e := ⟨hk.trans h.1, h.2⟩

theorem drop (h : Before a n e) (hk : k ≤ n) : Before (a + BitVec.ofNat w k) (n - k) e := by
  obtain ⟨h1, h2⟩ := h
  rw [Before, toNat_sub_add (hk.trans h1)]
  omega

theorem lt (h : Before a n e) (hk : k < n) : Lt (a + BitVec.ofNat w k) e := by
  obtain ⟨h1, h2⟩ := h
  have ha := at_toNat a
  have hpow : ((2 ^ w : Nat) : Int) = 2 ^ w := by push_cast; rfl
  rw [(ha.add k).lt_iff (ha.of_distance e) (by omega) (by omega)]
  omega

theorem self (a : BitVec w) (h : 2 * n < 2 ^ w) : Before a n (a + BitVec.ofNat w n) := by
  have hn : (a + BitVec.ofNat w n - a).toNat = n := by
    rw [BitVec.add_comm, BitVec.add_sub_cancel, BitVec.toNat_ofNat, Nat.mod_eq_of_lt (by omega)]
  rw [Before, hn]
  exact ⟨le_rfl, h⟩

end Before

end LibvmaTlt.Serial
