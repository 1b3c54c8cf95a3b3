import Mathlib.Data.List.AList

/-!
# Association lists as finite maps

What a key is mapped to after an insertion or an erasure, and how many keys there are.
-/

namespace LibvmaTlt

variable {α β : Type} [DecidableEq α] {m : AList fun _ : α => β} {a k : α} {b v : β}

theorem lookup_insert_cases (h : (m.insert a b).lookup k = some v) :
    (k = a ∧ v = b) ∨ (k ≠ a ∧ m.lookup k = some v) := by
  by_cases hk : k = a
  · subst hk
    rw [AList.lookup_insert, Option.some_inj] at h
    exact .inl ⟨rfl, h.symm⟩
  · rw [AList.lookup_insert_ne hk] at h
    exact .inr ⟨hk, h⟩

theorem lookup_erase_cases (h : (m.erase a).lookup k = some v) : k ≠ a ∧ m.lookup k = some v := by
  by_cases hk : k = a
  · subst hk
    rw [AList.lookup_erase] at h
    cases h
  · rw [AList.lookup_erase_ne hk] at h
    exact ⟨hk, h⟩

theorem length_keys_insert_of_mem (h : a ∈ m) : (m.insert a b).keys.length = m.keys.length := by
  rw [AList.keys_insert, List.length_cons, List.length_erase_of_mem (AList.mem_keys.mp h)]
  have := List.length_pos_of_mem (AList.mem_keys.mp h)
  omega

theorem length_keys_insert_of_notMem (h : a ∉ m) : (m.insert a b).keys.length = m.keys.length + 1 := by
  rw [AList.keys_insert, List.length_cons, List.erase_of_not_mem (mt AList.mem_keys.mpr h)]

theorem length_keys_erase_of_mem (h : a ∈ m) : (m.erase a).keys.length + 1 = m.keys.length := by
  rw [AList.keys_erase, List.length_erase_of_mem (AList.mem_keys.mp h)]
  have := List.length_pos_of_mem (AList.mem_keys.mp h)
  omega

theorem length_keys_insert_le : (m.insert a b).keys.length ≤ m.keys.length + 1 := by
  rw [AList.keys_insert, List.length_cons]
  exact Nat.succ_le_succ (List.length_erase_le ..)

theorem length_keys_erase_le : (m.erase a).keys.length ≤ m.keys.length := by
  rw [AList.keys_erase]
  exact List.length_erase_le ..

theorem erase_of_notMem (h : a ∉ m) : m.erase a = m := by
  apply AList.ext
  exact List.kerase_of_notMem_keys (mt AList.mem_keys.mpr h)

theorem mem_of_lookup (h : m.lookup k = some v) : k ∈ m := by
  rw [← AList.lookup_isSome, h]
  rfl

theorem eq_empty_of_lookup (h : ∀ k v, m.lookup k ≠ some v) : m = ∅ := by
  apply AList.ext
  rw [AList.empty_entries, List.eq_nil_iff_forall_not_mem]
  rintro ⟨k, v⟩ hmem
  exact h k v (AList.mem_lookup_iff.mpr hmem)

end LibvmaTlt
