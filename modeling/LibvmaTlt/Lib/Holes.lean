import LibvmaTlt.Lib.Fragments

/-!
# Reassembly by holes

The range from 0 to `top` is to be covered by fragments that arrive in any order. The receiver keeps
the list of the holes between the fragments it has, each with the fragments on its two sides. A new
fragment goes into the first hole that has room for all of it, and leaves a hole on each side where
something is still missing (RFC 815). Behind a fragment without the mark `more` nothing is missing.

`gaps` computes the holes from the fragments; `fill_gaps` says that filling a hole keeps the list in
that form, and `whole_of_gaps_nil` what it means that no hole is left.
-/

namespace LibvmaTlt.Holes

/-- The missing bytes from `first` to `last`, and the fragments next to them. -/
structure Hole (α : Type*) where
  first : Nat
  last : Nat
  dataFirst : Option α
  dataLast : Option α
  deriving DecidableEq

variable {α : Type*} (first stop : α → Nat) (more : α → Bool) (top : Nat)

def Hole.Takes (h : Hole α) (f : α) : Prop := h.first ≤ first f ∧ stop f ≤ h.last + 1

instance (h : Hole α) (f : α) : Decidable (h.Takes first stop f) :=
  inferInstanceAs (Decidable (_ ∧ _))

def Hole.parts (h : Hole α) (f : α) : List (Hole α) :=
  (if h.first < first f then [⟨h.first, first f - 1, h.dataFirst, some f⟩] else []) ++
    if stop f ≤ h.last ∧ more f = true then [⟨stop f, h.last, some f, h.dataLast⟩] else []

/-- Puts a fragment into the first hole that takes it; that hole, and the holes afterwards. -/
def fill (f : α) : List (Hole α) → Option (Hole α × List (Hole α))
  | [] => none
  | h :: hs =>
    if h.Takes first stop f then some (h, h.parts first stop more f ++ hs)
    else (fill f hs).map fun r => (r.1, h :: r.2)

/-- The holes between fragments, from `pos` on; `isOpen` says whether something is missing at the end. -/
def gaps : (pos : Nat) → (before : Option α) → (isOpen : Bool) → List α → List (Hole α)
  | pos, before, isOpen, [] => if isOpen then [⟨pos, top, before, none⟩] else []
  | pos, before, _, f :: rest =>
    (if pos < first f then [⟨pos, first f - 1, before, some f⟩] else []) ++
      gaps (stop f) (some f) (more f) rest

/-- A marked fragment is not empty and leaves room behind it. Where a fragment without the mark ends
does not matter. -/
def Sane (f : α) : Prop := more f = true → first f < stop f ∧ stop f ≤ top

/-- Fragments in order from `pos` on, without overlap, all but the last marked. -/
def Placed : (pos : Nat) → (isOpen : Bool) → List α → Prop
  | _, _, [] => True
  | pos, isOpen, f :: rest =>
    isOpen = true ∧ pos ≤ first f ∧ Sane first stop more top f ∧ Placed (stop f) (more f) rest

variable {first stop more top} {pos : Nat} {before : Option α} {isOpen : Bool} {l : List α} {f : α}

theorem fill_gaps (hp : Placed first stop more top pos isOpen l) (hf : Sane first stop more top f)
    {h : Hole α} {hs : List (Hole α)}
    (hfill : fill first stop more f (gaps first stop more top pos before isOpen l) = some (h, hs))
    (hend : more f = false → h.dataLast = none) :
    ∃ l₁ l₂, l = l₁ ++ l₂ ∧ h.dataFirst = l₁.getLast?.or before ∧ h.dataLast = l₂.head? ∧
      hs = gaps first stop more top pos before isOpen (l₁ ++ f :: l₂) ∧
      Placed first stop more top pos isOpen (l₁ ++ f :: l₂) := by
  induction l generalizing pos before isOpen h hs with
  | nil =>
    unfold gaps at hfill
    cases isOpen with
    | false => simp [fill] at hfill
    | true =>
      simp only [if_true, fill, Option.map_none] at hfill
      split at hfill
      · rename_i ht
        simp only [Option.some.injEq, Prod.mk.injEq] at hfill
        obtain ⟨rfl, rfl⟩ := hfill
        have hparts : (stop f ≤ top ∧ more f = true) ↔ more f = true :=
          ⟨And.right, fun h => ⟨(hf h).2, h⟩⟩
        refine ⟨[], [], rfl, rfl, rfl, ?_, rfl, ht.1, hf, trivial⟩
        simp [Hole.parts, gaps, hparts]
      · cases hfill
  | cons g rest ih =>
    obtain ⟨rfl, hpos, hg, hrest⟩ := hp
    -- the holes behind `g`
    have tail : ∀ {h' : Hole α} {hs'},
        fill first stop more f (gaps first stop more top (stop g) (some g) (more g) rest) =
          some (h', hs') → (more f = false → h'.dataLast = none) →
        ∃ l₁ l₂, g :: rest = l₁ ++ l₂ ∧ h'.dataFirst = l₁.getLast?.or before ∧
          h'.dataLast = l₂.head? ∧
          (if pos < first g then [⟨pos, first g - 1, before, some g⟩] else []) ++ hs' =
            gaps first stop more top pos before true (l₁ ++ f :: l₂) ∧
          Placed first stop more top pos true (l₁ ++ f :: l₂) := by
      intro h' hs' hfill' hend'
      obtain ⟨l₁, l₂, rfl, h1, h2, h3, h4⟩ := ih hrest hfill' hend'
      refine ⟨g :: l₁, l₂, rfl, ?_, h2, ?_, rfl, hpos, hg, h4⟩
      · rw [h1]
        cases l₁ with
        | nil => rfl
        | cons a l₁ =>
          rw [List.getLast?_cons_cons, List.getLast?_eq_some_getLast (List.cons_ne_nil a l₁)]
          rfl
      · rw [h3]
        rfl
    unfold gaps at hfill
    split at hfill
    · rename_i hlt
      simp only [List.singleton_append, fill] at hfill
      split at hfill
      · -- the hole in front of `g`
        rename_i ht
        simp only [Option.some.injEq, Prod.mk.injEq] at hfill
        obtain ⟨rfl, rfl⟩ := hfill
        have hmore : more f = true := by
          by_contra hm
          simpa using hend (by simpa using hm)
        obtain ⟨ht1, ht2⟩ := ht
        simp only at ht1 ht2
        have hstop : stop f ≤ first g := by omega
        refine ⟨[], g :: rest, rfl, rfl, rfl, ?_, rfl, ht1, hf, hmore, hstop, hg, hrest⟩
        have hparts : stop f ≤ first g - 1 ↔ stop f < first g := by omega
        simp [Hole.parts, gaps, hmore, hparts]
      · rw [Option.map_eq_some_iff] at hfill
        obtain ⟨⟨h', hs'⟩, hfill', heq⟩ := hfill
        simp only [Prod.mk.injEq] at heq
        obtain ⟨rfl, rfl⟩ := heq
        obtain ⟨l₁, l₂, h0, h1, h2, h3, h4⟩ := tail hfill' hend
        rw [if_pos hlt] at h3
        exact ⟨l₁, l₂, h0, h1, h2, h3, h4⟩
    · rename_i hlt
      obtain ⟨l₁, l₂, h0, h1, h2, h3, h4⟩ := tail (by simpa using hfill) hend
      rw [if_neg hlt] at h3
      exact ⟨l₁, l₂, h0, h1, h2, h3, h4⟩

variable {h : Hole α}

theorem mem_gaps_nil : h ∈ gaps first stop more top pos before isOpen [] ↔
    isOpen = true ∧ h = ⟨pos, top, before, none⟩ := by
  unfold gaps
  split <;> simp [*]

theorem mem_gaps_cons : h ∈ gaps first stop more top pos before isOpen (f :: l) ↔
    pos < first f ∧ h = ⟨pos, first f - 1, before, some f⟩ ∨
      h ∈ gaps first stop more top (stop f) (some f) (more f) l := by
  rw [gaps, List.mem_append]
  split <;> simp [*]

theorem last_of_mem_gaps (hh : h ∈ gaps first stop more top pos before isOpen l) :
    h.dataLast = none ∧ h.last = top ∨ ∃ g ∈ l, h.dataLast = some g ∧ h.last < first g := by
  induction l generalizing pos before isOpen with
  | nil =>
    obtain ⟨-, rfl⟩ := mem_gaps_nil.mp hh
    exact .inl ⟨rfl, rfl⟩
  | cons f rest ih =>
    rcases mem_gaps_cons.mp hh with ⟨hlt, rfl⟩ | hh
    · refine .inr ⟨f, by simp, rfl, ?_⟩
      simp only
      omega
    · rcases ih hh with hend | ⟨g, hg, hlast⟩
      · exact .inl hend
      · exact .inr ⟨g, by simp [hg], hlast⟩

theorem whole_of_gaps_nil {len : α → Nat}
    (hlen : ∀ f ∈ l, more f = true → first f + len f = stop f)
    (hp : Placed first stop more top pos true l)
    (hg : gaps first stop more top pos before true l = []) :
    Fragments.Whole first len more pos l := by
  induction l generalizing pos before with
  | nil => simp [gaps] at hg
  | cons f rest ih =>
    obtain ⟨-, hpos, hf, hrest⟩ := hp
    unfold gaps at hg
    obtain ⟨hg1, hg2⟩ := List.append_eq_nil_iff.mp hg
    have hfirst : first f = pos := by
      split at hg1
      · cases hg1
      · omega
    cases hm : more f with
    | false =>
      cases rest with
      | nil => exact ⟨hfirst, hm⟩
      | cons g rest => simp [Placed, hm] at hrest
    | true =>
      rw [hm] at hrest hg2
      refine .cons hfirst hm ?_
      rw [← hfirst, hlen f (by simp) hm]
      exact ih (fun g hg => hlen g (by simp [hg])) hrest hg2

theorem Placed.sorted (hp : Placed first stop more top pos isOpen l) :
    (∀ f ∈ l, pos ≤ first f) ∧ l.Pairwise fun f g => first f < first g := by
  induction l generalizing pos isOpen with
  | nil => simp
  | cons f rest ih =>
    obtain ⟨-, hpos, hf, hrest⟩ := hp
    obtain ⟨hle, hpair⟩ := ih hrest
    have hlt : ∀ g ∈ rest, first f < first g := by
      intro g hg
      cases rest with
      | nil => cases hg
      | cons _ _ => exact Nat.lt_of_lt_of_le (hf hrest.1).1 (hle g hg)
    refine ⟨?_, List.pairwise_cons.mpr ⟨?_, hpair⟩⟩
    · intro g hg
      rcases List.mem_cons.mp hg with rfl | hg
      · exact hpos
      · exact Nat.le_trans hpos (Nat.le_of_lt (hlt g hg))
    · exact hlt

theorem exists_takes (hpos : pos ≤ first f) (hne : first f < stop f) (htop : stop f ≤ top + 1)
    (hopen : l = [] → isOpen = true)
    (hfree : ∀ g ∈ l, stop f ≤ first g ∨ (more g = true ∧ stop g ≤ first f)) :
    ∃ h ∈ gaps first stop more top pos before isOpen l, h.Takes first stop f := by
  induction l generalizing pos before isOpen with
  | nil =>
    unfold gaps
    rw [hopen rfl, if_pos rfl]
    exact ⟨_, List.mem_singleton_self _, hpos, htop⟩
  | cons g rest ih =>
    unfold gaps
    rcases hfree g List.mem_cons_self with hlt | ⟨hm, hle⟩
    · rw [if_pos (by omega)]
      refine ⟨⟨pos, first g - 1, before, some g⟩, by simp, hpos, ?_⟩
      show stop f ≤ first g - 1 + 1
      omega
    · obtain ⟨h, hmem, ht⟩ := ih hle (fun _ => hm) fun g' hg' => hfree g' (List.mem_cons_of_mem _ hg')
      exact ⟨h, List.mem_append_right _ hmem, ht⟩

theorem le_first_of_mem_gaps (hp : Placed first stop more top pos isOpen l)
    (hh : h ∈ gaps first stop more top pos before isOpen l) : pos ≤ h.first := by
  induction l generalizing pos before isOpen with
  | nil =>
    obtain ⟨-, rfl⟩ := mem_gaps_nil.mp hh
    exact Nat.le_refl _
  | cons e rest ih =>
    obtain ⟨-, hpos, he, hrest⟩ := hp
    rcases mem_gaps_cons.mp hh with ⟨-, rfl⟩ | hh
    · exact Nat.le_refl _
    cases hm : more e with
    | true =>
      have := ih hrest hh
      have := he hm
      omega
    | false =>
      -- nothing is missing behind an unmarked fragment
      cases rest with
      | nil => simp [gaps, hm] at hh
      | cons e' rest => simp [Placed, hm] at hrest

theorem not_takes_of_mem (hp : Placed first stop more top pos isOpen l) {g : α} (hg : g ∈ l)
    (hfirst : first f < stop g) (hstop : first g < stop f)
    (hh : h ∈ gaps first stop more top pos before isOpen l) : ¬h.Takes first stop f := by
  rintro ⟨h1, h2⟩
  induction l generalizing pos before isOpen with
  | nil => cases hg
  | cons e rest ih =>
    have hsorted := hp.sorted.2
    obtain ⟨-, hpos, he, hrest⟩ := hp
    rcases mem_gaps_cons.mp hh with ⟨hlt, rfl⟩ | hh
    · simp only at h1 h2
      rcases List.mem_cons.mp hg with rfl | hg
      · omega
      · have := List.rel_of_pairwise_cons hsorted hg
        omega
    · rcases List.mem_cons.mp hg with rfl | hg
      · have := le_first_of_mem_gaps hrest hh
        omega
      · exact ih hrest hg hh

theorem gaps_of_whole {len : α → Nat} (hlen : ∀ f ∈ l, more f = true → first f + len f = stop f)
    (h : Fragments.Whole first len more pos l) : gaps first stop more top pos before isOpen l = [] := by
  induction l generalizing pos before isOpen with
  | nil => exact absurd rfl h.ne_nil
  | cons f rest ih =>
    unfold gaps
    cases rest with
    | nil =>
      obtain ⟨hs, hm⟩ := h
      simp [gaps, hs, hm]
    | cons g rest =>
      obtain ⟨hs, hm, h⟩ := h
      rw [if_neg (by omega), List.nil_append]
      refine ih (fun e he => hlen e (List.mem_cons_of_mem _ he)) ?_
      rw [← hlen f List.mem_cons_self hm, hs]
      exact h

end LibvmaTlt.Holes
