import Mathlib.Tactic.Common

/-!
# Conversions between integer types

What is left of an integer stored in an `int`, a `uint32_t` or a `size_t`.
-/

namespace LibvmaTlt

def cInt (n : Int) : Int := n.bmod 4294967296

def cUint32 (n : Int) : Nat := (n % 4294967296).toNat

def cSize (n : Int) : Nat := (n % 18446744073709551616).toNat

theorem cInt_of_lt {n : Int} (h : -2147483648 ≤ n) (h' : n < 2147483648) : cInt n = n := by
  unfold cInt
  rw [Int.bmod_def]
  split <;> omega

theorem cInt_lt (n : Int) : cInt n < 2147483648 :=
  Int.bmod_lt (by decide)

theorem cInt_add_cInt (m n : Int) : cInt (cInt m + n) = cInt (m + n) := by
  unfold cInt
  rw [Int.bmod_add_bmod]

theorem cInt_cInt (n : Int) : cInt (cInt n) = cInt n := by
  simpa using cInt_add_cInt n 0

theorem cUint32_of_lt {n : Nat} (h : n < 4294967296) : cUint32 n = n := by
  unfold cUint32
  omega

theorem cSize_of_lt {n : Nat} (h : n < 18446744073709551616) : cSize n = n := by
  unfold cSize
  omega

theorem cSize_sub {m n : Nat} (h : n ≤ m) (h' : m < 18446744073709551616) :
    cSize (m - n) = m - n := by
  unfold cSize
  omega

end LibvmaTlt
