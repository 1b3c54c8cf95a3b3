import Mathlib

/-!
# Contiguous fragments

A list of fragments, each with the place where it starts, its length and a mark that more follow.
`Whole o l` says that the list covers a range from `o` on without gap or overlap and that exactly its
last member has no mark.
-/

namespace LibvmaTlt.Fragments

variable {α : Type*} (start len : α → Nat) (more : α → Bool)

/-- The list starts at `o`, each member where the one before it ends, and only the last has the mark
`more` clear. -/
def Whole : Nat → List α → Prop
  | _, [] => False
  | o, [f] => start f = o ∧ more f = false
  | o, f :: g :: rest => start f = o ∧ more f = true ∧ Whole (o + len f) (g :: rest)

instance decidableWhole : (o : Nat) → (l : List α) → Decidable (Whole start len more o l)
  | _, [] => inferInstanceAs (Decidable False)
  | _, [_] => inferInstanceAs (Decidable (_ ∧ _))
  | o, f :: g :: rest =>
    have := decidableWhole (o + len f) (g :: rest)
    inferInstanceAs (Decidable (_ ∧ _ ∧ _))

variable {start len more} {o : Nat} {f : α} {l : List α}

theorem Whole.ne_nil (h : Whole start len more o l) : l ≠ [] := by
  rintro rfl
  exact h

theorem Whole.cons (hs : start f = o) (hm : more f = true)
    (h : Whole start len more (o + len f) l) : Whole start len more o (f :: l) := by
  cases l with
  | nil => exact absurd rfl h.ne_nil
  | cons g rest => exact ⟨hs, hm, h⟩

theorem Whole.range (h : Whole start len more o l) :
    ∀ f ∈ l, o ≤ start f ∧ start f + len f ≤ o + (l.map len).sum := by
  induction l generalizing o with
  | nil => exact absurd rfl h.ne_nil
  | cons f rest ih =>
    cases rest with
    | nil =>
      intro g hg
      obtain rfl := List.mem_singleton.mp hg
      simp [h.1]
    | cons g rest =>
      obtain ⟨hs, -, h⟩ := h
      intro f' hf'
      rw [List.map_cons, List.sum_cons]
      rcases List.mem_cons.mp hf' with rfl | hf'
      · omega
      · have := ih h f' hf'
        omega

theorem Whole.pairwise (h : Whole start len more o l) :
    l.Pairwise fun f g => more f = true ∧ start f + len f ≤ start g := by
  induction l generalizing o with
  | nil => exact .nil
  | cons f rest ih =>
    cases rest with
    | nil => exact List.pairwise_singleton _ _
    | cons g rest =>
      obtain ⟨hs, hm, h⟩ := h
      refine .cons (fun g' hg' => ⟨hm, ?_⟩) (ih h)
      rw [hs]
      exact (h.range g' hg').1

theorem Whole.eq_of_subset {l' : List α} (h : Whole start len more o l)
    (h' : Whole start len more o l') (hpos : ∀ f ∈ l', 0 < len f) (hsub : ∀ f ∈ l, f ∈ l') :
    l = l' := by
  induction l generalizing o l' with
  | nil => exact absurd rfl h.ne_nil
  | cons f rest ih =>
    -- the first member of either list is the one that starts at `o`
    have hfirst : start f = o := by
      cases rest with
      | nil | cons => exact h.1
    cases l' with
    | nil => exact absurd rfl h'.ne_nil
    | cons g rest' =>
      obtain rfl : f = g := by
        rcases List.mem_cons.mp (hsub f (by simp)) with hfg | hf
        · exact hfg
        · have hg := List.rel_of_pairwise_cons h'.pairwise hf
          have hle := (h'.range g (by simp)).1
          have := hpos g (by simp)
          omega
      cases rest with
      | nil =>
        cases rest' with
        | nil => rfl
        | cons g rest' => exact Bool.noConfusion (h'.2.1.symm.trans h.2)
      | cons g rest =>
        cases rest' with
        | nil => exact Bool.noConfusion (h.2.1.symm.trans h'.2)
        | cons g' rest' =>
          have hlt := h.pairwise
          refine congrArg (f :: ·) (ih h.2.2 h'.2.2 (fun e he => hpos e (by simp [he])) ?_)
          intro e he
          refine (List.mem_cons.mp (hsub e (by simp [he]))).resolve_left ?_
          rintro rfl
          have := (List.rel_of_pairwise_cons hlt he).2
          have := hpos e (by simp)
          omega

theorem whole_map_iff {β : Type*} (φ : β → α) {l : List β} :
    Whole start len more o (l.map φ) ↔
      Whole (fun b => start (φ b)) (fun b => len (φ b)) (fun b => more (φ b)) o l := by
  induction l generalizing o with
  | nil => rfl
  | cons f rest ih =>
    cases rest with
    | nil => rfl
    | cons g rest => exact and_congr_right fun _ => and_congr_right fun _ => ih

end LibvmaTlt.Fragments
