import Mathlib.Data.List.Basic
import Mathlib.Data.List.Nodup
import Mathlib.Tactic.Common

/-!
# Linked lists in memory

`Chain next a l` says that following `next` from `a` visits the cells `l` and ends. The lemmas move a
chain to a memory that agrees on its cells, take it apart, and link a cell in.
-/

namespace LibvmaTlt

def Chain (next : Nat → Option Nat) : Option Nat → List Nat → Prop
  | none, [] => True
  | some a, b :: l => a = b ∧ Chain next (next a) l
  | _, _ => False

namespace Chain

variable {next next' : Nat → Option Nat} {a : Option Nat} {b c : Nat} {l l₁ l₂ : List Nat}

@[simp] theorem nil_iff : Chain next a [] ↔ a = none := by
  cases a with
  | none => exact iff_of_true trivial rfl
  | some a => exact iff_of_false id (Option.some_ne_none a)

@[simp] theorem cons_iff : Chain next a (b :: l) ↔ a = some b ∧ Chain next (next b) l := by
  cases a with
  | none => exact iff_of_false id fun h => Option.some_ne_none b h.1.symm
  | some a =>
    constructor
    · rintro ⟨rfl, h⟩
      exact ⟨rfl, h⟩
    · rintro ⟨h, hl⟩
      obtain rfl := Option.some.inj h
      exact ⟨rfl, hl⟩

theorem head_eq (h : Chain next a l) : a = l.head? := by
  cases l with
  | nil => exact nil_iff.mp h
  | cons b l => exact (cons_iff.mp h).1

theorem unique (h₁ : Chain next a l₁) (h₂ : Chain next a l₂) : l₁ = l₂ := by
  induction l₁ generalizing a l₂ with
  | nil =>
    rw [nil_iff] at h₁
    subst h₁
    cases l₂ with
    | nil => rfl
    | cons b l₂ => simp at h₂
  | cons b l₁ ih =>
    obtain ⟨rfl, h₁'⟩ := cons_iff.mp h₁
    cases l₂ with
    | nil => simp at h₂
    | cons c l₂ =>
      obtain ⟨hc, h₂'⟩ := cons_iff.mp h₂
      obtain rfl := Option.some.inj hc
      rw [ih h₁' h₂']

theorem transport (h : Chain next a l) (heq : ∀ b ∈ l, next' b = next b) : Chain next' a l := by
  induction l generalizing a with
  | nil => exact nil_iff.mpr (nil_iff.mp h)
  | cons b l ih =>
    obtain ⟨rfl, h'⟩ := cons_iff.mp h
    refine cons_iff.mpr ⟨rfl, ?_⟩
    rw [heq b (by simp)]
    exact ih h' fun c hc => heq c (by simp [hc])

theorem split (h : Chain next a (l₁ ++ c :: l₂)) : Chain next (next c) l₂ := by
  induction l₁ generalizing a with
  | nil => exact (cons_iff.mp h).2
  | cons d l₁ ih => exact ih (cons_iff.mp h).2

theorem splice (h : Chain next a (l₁ ++ c :: l₂)) (heq : ∀ b ∈ l₁, next' b = next b) {l : List Nat}
    (hl : Chain next' (next' c) l) : Chain next' a (l₁ ++ c :: l) := by
  induction l₁ generalizing a with
  | nil => exact cons_iff.mpr ⟨(cons_iff.mp h).1, hl⟩
  | cons d l₁ ih =>
    obtain ⟨rfl, h'⟩ := cons_iff.mp h
    refine cons_iff.mpr ⟨rfl, ?_⟩
    rw [heq d (by simp)]
    exact ih h' fun b hb => heq b (by simp [hb])

theorem link (h : Chain next a (l₁ ++ l₂)) (hnd : (l₁ ++ l₂).Nodup) (hb : b ∉ l₁ ++ l₂)
    (hnb : next' b = l₂.head?) (hlast : ∀ c ∈ l₁.getLast?, next' c = some b)
    (hrest : ∀ c ∈ l₁ ++ l₂, c ∉ l₁.getLast? → next' c = next c) :
    Chain next' (if l₁ = [] then some b else a) (l₁ ++ b :: l₂) := by
  induction l₁ generalizing a with
  | nil =>
    rw [if_pos rfl]
    refine cons_iff.mpr ⟨rfl, ?_⟩
    rw [List.nil_append] at h
    rw [hnb, ← h.head_eq]
    exact h.transport fun c hc => hrest c hc (by simp)
  | cons d l₁ ih =>
    obtain ⟨rfl, h'⟩ := cons_iff.mp h
    obtain ⟨hd, hnd⟩ := List.nodup_cons.mp hnd
    rw [if_neg (by simp)]
    refine cons_iff.mpr ⟨rfl, ?_⟩
    have hlast' : ∀ c ∈ l₁.getLast?, next' c = some b := by
      intro c hc
      cases l₁ with
      | nil => simp at hc
      | cons e l₁ => exact hlast c (by simpa [List.getLast?_cons_cons] using hc)
    have hrest' : ∀ c ∈ l₁ ++ l₂, c ∉ l₁.getLast? → next' c = next c := by
      intro c hc hcl
      refine hrest c (List.mem_cons_of_mem _ hc) ?_
      cases l₁ with
      | nil =>
        intro hcd
        simp only [List.getLast?_singleton, Option.mem_def, Option.some.injEq] at hcd
        exact hd (hcd ▸ hc)
      | cons e l₁ => simpa [List.getLast?_cons_cons] using hcl
    have := ih h' hnd (fun hm => hb (List.mem_cons_of_mem _ hm)) hlast' hrest'
    cases l₁ with
    | nil =>
      rw [if_pos rfl] at this
      rw [hlast d (by simp)]
      exact this
    | cons e l₁ =>
      rw [if_neg (by simp)] at this
      rw [hrest d (by simp) ?_]
      · exact this
      · intro hde
        rw [List.getLast?_cons_cons] at hde
        exact hd (List.mem_append_left _ (List.mem_of_getLast? hde))

end Chain

end LibvmaTlt
