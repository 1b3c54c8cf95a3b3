import Mathlib.Tactic.Common

/-!
# Bit masks

Masks are bit vectors; what they have in common is stated bit by bit.
-/

namespace LibvmaTlt

variable {w : Nat} {x y : BitVec w}

theorem getLsbD_and_not (i : Nat) : (x &&& ~~~y).getLsbD i = (x.getLsbD i && !y.getLsbD i) := by
  by_cases hi : i < w
  · rw [BitVec.getLsbD_and, BitVec.getLsbD_not, decide_eq_true hi, Bool.true_and]
  · rw [BitVec.getLsbD_of_ge _ _ (Nat.not_lt.mp hi), BitVec.getLsbD_of_ge x _ (Nat.not_lt.mp hi)]
    rfl

theorem and_not_and_not (z : BitVec w) : x &&& ~~~y &&& ~~~z = x &&& ~~~(y ||| z) := by
  apply BitVec.eq_of_getLsbD_eq
  intro i _
  rw [getLsbD_and_not, getLsbD_and_not, getLsbD_and_not, BitVec.getLsbD_or, Bool.not_or, Bool.and_assoc]

theorem and_eq_zero_iff : x &&& y = 0 ↔ ∀ i, x.getLsbD i = true → y.getLsbD i = false := by
  constructor
  · intro h i hx
    have hi := congrArg (fun z => z.getLsbD i) h
    simpa [hx] using hi
  · intro h
    apply BitVec.eq_of_getLsbD_eq
    intro i _
    cases hx : x.getLsbD i with
    | false => simp [hx]
    | true => simp [h i hx]

theorem and_twoPow_ne_zero_iff {i : Nat} (hi : i < w) :
    x &&& BitVec.twoPow w i ≠ 0 ↔ x.getLsbD i = true := by
  rw [ne_eq, and_eq_zero_iff]
  constructor
  · intro h
    by_contra hx
    refine h fun j hj => ?_
    rw [BitVec.getLsbD_twoPow, Bool.and_eq_false_iff, decide_eq_false_iff_not, decide_eq_false_iff_not]
    refine .inr fun hij => hx ?_
    rwa [hij]
  · intro hx h
    have hi' := h i hx
    simp [hi] at hi'

theorem ne_zero_iff_exists_bit : x ≠ 0 ↔ ∃ i, x.getLsbD i = true := by
  constructor
  · intro h
    by_contra hall
    refine h (BitVec.eq_of_getLsbD_eq fun i _ => ?_)
    rw [not_exists] at hall
    simpa using hall i
  · rintro ⟨i, hi⟩ rfl
    simp at hi

end LibvmaTlt
