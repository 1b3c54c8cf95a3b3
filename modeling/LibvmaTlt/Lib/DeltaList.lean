import Mathlib.Data.List.Basic
import Mathlib.Data.List.Nodup
import Mathlib.Tactic.Common

/-!
# Delta lists

A list of values with the time each is due, kept as the difference from the entry before it.
`dues b l` lists the values with their times, counted from `b`. Inserting, removing and letting time
pass work on the differences; the lemmas say what they do to the times.
-/

namespace LibvmaTlt.DeltaList

/-- A value and how long after the entry before it it is due. -/
structure Entry (α : Type*) where
  delta : Nat
  val : α
  deriving DecidableEq

variable {α : Type*}

def dues : Nat → List (Entry α) → List (Nat × α)
  | _, [] => []
  | b, e :: l => (b + e.delta, e.val) :: dues (b + e.delta) l

/-- Puts a value into the list, behind the values due at the same time. -/
def insert (d : Nat) (v : α) : List (Entry α) → List (Entry α)
  | [] => [⟨d, v⟩]
  | e :: l =>
    if e.delta ≤ d then e :: insert (d - e.delta) v l else ⟨d, v⟩ :: ⟨e.delta - d, e.val⟩ :: l

def delay (d : Nat) : List (Entry α) → List (Entry α)
  | [] => []
  | e :: l => ⟨e.delta + d, e.val⟩ :: l

def remove (p : α → Bool) : List (Entry α) → List (Entry α)
  | [] => []
  | e :: l => if p e.val then delay e.delta l else e :: remove p l

/-- Removes all values that fit; `c` is the difference of the values removed just before. -/
def removeAll (p : α → Bool) : Nat → List (Entry α) → List (Entry α)
  | _, [] => []
  | c, e :: l =>
    if p e.val then removeAll p (c + e.delta) l else ⟨c + e.delta, e.val⟩ :: removeAll p 0 l

def advance : Nat → List (Entry α) → List (Entry α)
  | _, [] => []
  | k, e :: l =>
    if k < e.delta then ⟨e.delta - k, e.val⟩ :: l else ⟨0, e.val⟩ :: advance (k - e.delta) l

variable {b d k t : Nat} {v w : α} {p : α → Bool} {l : List (Entry α)}

theorem dues_add : dues (b + d) l = (dues b l).map fun x => (x.1 + d, x.2) := by
  induction l generalizing b with
  | nil => rfl
  | cons e l ih => simp only [dues, List.map_cons, ← ih, Nat.add_right_comm]

theorem dues_delay : dues b (delay d l) = dues (b + d) l := by
  cases l with
  | nil => rfl
  | cons e l => simp only [delay, dues, Nat.add_comm e.delta d, Nat.add_assoc]

theorem le_of_mem_dues (h : (t, v) ∈ dues b l) : b ≤ t := by
  induction l generalizing b with
  | nil => simp [dues] at h
  | cons e l ih =>
    simp only [dues, List.mem_cons, Prod.mk.injEq] at h
    rcases h with ⟨rfl, -⟩ | h
    · exact Nat.le_add_right ..
    · exact Nat.le_trans (Nat.le_add_right ..) (ih h)

theorem map_snd_dues : (dues b l).map Prod.snd = l.map Entry.val := by
  induction l generalizing b with
  | nil => rfl
  | cons e l ih => simp [dues, ih]

theorem exists_mem_dues {e : Entry α} (h : e ∈ l) : ∃ t, (t, e.val) ∈ dues b l ∧ e.delta ≤ t := by
  induction l generalizing b with
  | nil => cases h
  | cons f l ih =>
    rcases List.mem_cons.mp h with rfl | h
    · exact ⟨b + e.delta, List.mem_cons_self, Nat.le_add_left ..⟩
    · obtain ⟨t, ht, hle⟩ := @ih (b + f.delta) h
      exact ⟨t, List.mem_cons_of_mem _ ht, hle⟩

theorem mem_dues_insert {x : Nat × α} :
    x ∈ dues b (insert d v l) ↔ x = (b + d, v) ∨ x ∈ dues b l := by
  induction l generalizing b d with
  | nil => simp [insert, dues]
  | cons e l ih =>
    unfold insert
    split
    · rename_i h
      rw [dues, dues, List.mem_cons, List.mem_cons, ih, Nat.add_assoc, Nat.add_sub_cancel' h]
      tauto
    · rename_i h
      have hd : b + d + (e.delta - d) = b + e.delta := by omega
      simp only [dues, hd, List.mem_cons]

theorem mem_dues_of_remove {x : Nat × α} (h : x ∈ dues b (remove p l)) : x ∈ dues b l := by
  induction l generalizing b with
  | nil => simpa [remove] using h
  | cons e l ih =>
    unfold remove at h
    split at h
    · rw [dues_delay] at h
      exact List.mem_cons_of_mem _ h
    · rw [dues, List.mem_cons] at h ⊢
      exact h.imp id ih

theorem mem_dues_of_removeAll {x : Nat × α} {c : Nat} (h : x ∈ dues b (removeAll p c l)) :
    x ∈ dues (b + c) l := by
  induction l generalizing b c with
  | nil => simp [removeAll, dues] at h
  | cons e l ih =>
    unfold removeAll at h
    split at h
    · have := ih h
      rw [← Nat.add_assoc] at this
      exact List.mem_cons_of_mem _ this
    · rw [dues, List.mem_cons] at h ⊢
      rw [← Nat.add_assoc] at h
      exact h.imp id fun h => by simpa using ih h

theorem dues_advance : dues b (advance k l) = (dues b l).map fun x => (b + (x.1 - b - k), x.2) := by
  induction l generalizing b k with
  | nil => rfl
  | cons e l ih =>
    unfold advance
    split
    · rename_i hk
      -- the difference is shortened here, and everything behind it moves with it
      have hsum : b + e.delta = b + (e.delta - k) + k := by omega
      simp only [dues, List.map_cons]
      refine congrArg₂ List.cons (Prod.ext (by simp only; omega) rfl) ?_
      rw [hsum, @dues_add _ (b + (e.delta - k)) k, List.map_map]
      refine (List.map_id' _).symm.trans (List.map_congr_left fun x hx => Prod.ext ?_ rfl)
      have := le_of_mem_dues hx
      simp only [Function.comp_apply]
      omega
    · rename_i hk
      simp only [dues, List.map_cons, Nat.add_zero]
      refine congrArg₂ List.cons (Prod.ext (by simp only; omega) rfl) ?_
      rw [ih, dues_add, List.map_map]
      refine List.map_congr_left fun x hx => Prod.ext ?_ rfl
      have := le_of_mem_dues hx
      simp only [Function.comp_apply]
      omega

theorem mem_dues_advance (h : (t, v) ∈ dues b (advance k l)) :
    ∃ t', (t', v) ∈ dues b l ∧ t' ≤ t + k ∧ t ≤ t' := by
  rw [dues_advance, List.mem_map] at h
  obtain ⟨⟨t', w⟩, hx, he⟩ := h
  obtain ⟨rfl, rfl⟩ := Prod.mk.inj he
  have := le_of_mem_dues hx
  exact ⟨t', hx, by omega, by omega⟩

theorem delay_zero : delay 0 l = l := by
  cases l <;> rfl

theorem advance_zero : advance 0 l = l := by
  induction l with
  | nil => rfl
  | cons e l ih =>
    unfold advance
    split
    · rfl
    · rename_i h
      have h : e.delta = 0 := by omega
      rw [h, ih, ← h]

/-! ## The values in the list -/

theorem map_val_delay : (delay d l).map Entry.val = l.map Entry.val := by
  cases l <;> rfl

theorem map_val_advance : (advance k l).map Entry.val = l.map Entry.val := by
  induction l generalizing k with
  | nil => rfl
  | cons e l ih =>
    unfold advance
    split <;> simp [ih]

theorem map_val_insert_perm : ((insert d v l).map Entry.val).Perm (v :: l.map Entry.val) := by
  induction l generalizing d with
  | nil => exact .refl _
  | cons e l ih =>
    unfold insert
    split
    · exact (ih.cons e.val).trans (.swap ..)
    · exact .refl _

theorem map_val_removeAll_sublist {c : Nat} :
    ((removeAll p c l).map Entry.val).Sublist (l.map Entry.val) := by
  induction l generalizing c with
  | nil => exact .refl _
  | cons e l ih =>
    unfold removeAll
    split
    · exact ih.cons e.val
    · exact ih.cons_cons e.val

end LibvmaTlt.DeltaList
