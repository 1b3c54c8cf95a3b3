import Mathlib.Tactic.Common

/-!
# Cyclic search

A search over `n` slots that starts anywhere, goes on to the next slot, wraps around, and gives up after
a number of further slots. After `n - 1` further slots it has seen all of them.
-/

namespace LibvmaTlt

variable {n : Nat}

def nextSlot (i : Fin n) : Fin n := ⟨(i + 1) % n, Nat.mod_lt _ i.pos⟩

/-- The first slot from `i` on that satisfies `p`, with at most `left` slots after `i` tried. -/
def probe (p : Fin n → Bool) : Nat → Fin n → Option (Fin n)
  | 0, i => if p i then some i else none
  | left + 1, i => if p i then some i else probe p left (nextSlot i)

theorem probe_some {p : Fin n → Bool} {left : Nat} {i j : Fin n} (h : probe p left i = some j) :
    p j = true := by
  induction left generalizing i with
  | zero =>
    unfold probe at h
    split at h
    · next hi =>
      cases h
      exact hi
    · cases h
  | succ left ih =>
    unfold probe at h
    split at h
    · next hi =>
      cases h
      exact hi
    · exact ih h

theorem probe_none_at {p : Fin n → Bool} {left : Nat} {i : Fin n} (h : probe p left i = none) (d : Nat)
    (hd : d ≤ left) (j : Fin n) (hj : j.val = (i.val + d) % n) : p j = false := by
  induction left generalizing i d with
  | zero =>
    obtain rfl : d = 0 := by omega
    have hij : j = i := Fin.ext (by rw [hj, Nat.add_zero, Nat.mod_eq_of_lt i.isLt])
    unfold probe at h
    split at h
    · cases h
    · next hi => simpa [hij] using hi
  | succ left ih =>
    unfold probe at h
    split at h
    · cases h
    next hi =>
    cases d with
    | zero =>
      have hij : j = i := Fin.ext (by rw [hj, Nat.add_zero, Nat.mod_eq_of_lt i.isLt])
      simpa [hij] using hi
    | succ d =>
      refine ih h d (by omega) ?_
      rw [hj, nextSlot, Nat.mod_add_mod, Nat.add_assoc, Nat.add_comm 1 d]

theorem probe_none {p : Fin n → Bool} {i : Fin n} (h : probe p (n - 1) i = none) (j : Fin n) :
    p j = false := by
  by_cases hle : i.val ≤ j.val
  · refine probe_none_at h (j - i) (by omega) j ?_
    rw [Nat.add_sub_cancel' hle, Nat.mod_eq_of_lt j.isLt]
  · refine probe_none_at h (n + j - i) (by omega) j ?_
    have hi := i.isLt
    rw [show i.val + (n + j.val - i.val) = j.val + n by omega, Nat.add_mod_right,
      Nat.mod_eq_of_lt j.isLt]

end LibvmaTlt
