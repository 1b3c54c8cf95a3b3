import Mathlib.Logic.Function.Basic

/-!
# Byte buffers

A buffer is a function from offsets to bytes, with little-endian numbers in it. Two buffers agree up to a
length if no byte below it tells them apart; reading and writing below the length keep to that.
-/

namespace LibvmaTlt

abbrev Bytes := Nat → BitVec 8

def Bytes.le16 (b : Bytes) (off : Nat) : BitVec 16 := b (off + 1) ++ b off

def Bytes.le32 (b : Bytes) (off : Nat) : BitVec 32 := b.le16 (off + 2) ++ b.le16 off

def Bytes.set (b : Bytes) (off : Nat) (v : BitVec 8) : Bytes := Function.update b off v

def Bytes.slice (b : Bytes) (off n : Nat) : List (BitVec 8) := (List.range n).map fun i => b (off + i)

/-- No byte below the length tells the buffers apart. -/
def Bytes.Agree (len : Nat) (b b' : Bytes) : Prop := ∀ i, i < len → b i = b' i

section

variable {b b' : Bytes} {len off n : Nat}

theorem Bytes.Agree.le16 (h : Agree len b b') (hlen : off + 2 ≤ len) : b.le16 off = b'.le16 off := by
  unfold Bytes.le16
  rw [h off (by omega), h (off + 1) (by omega)]

theorem Bytes.Agree.le32 (h : Agree len b b') (hlen : off + 4 ≤ len) : b.le32 off = b'.le32 off := by
  unfold Bytes.le32
  rw [h.le16 (by omega), h.le16 (by omega)]

theorem Bytes.Agree.slice (h : Agree len b b') (hlen : off + n ≤ len) : b.slice off n = b'.slice off n := by
  unfold Bytes.slice
  apply List.map_congr_left
  intro i hi
  have := List.mem_range.mp hi
  exact h _ (by omega)

theorem Bytes.Agree.set (h : Agree len b b') (off : Nat) (v : BitVec 8) :
    Agree len (b.set off v) (b'.set off v) := by
  intro i hi
  unfold Bytes.set
  by_cases hio : i = off
  · rw [hio, Function.update_self, Function.update_self]
  · rw [Function.update_of_ne hio, Function.update_of_ne hio, h i hi]

end

end LibvmaTlt
