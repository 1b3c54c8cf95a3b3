import Mathlib.Data.List.Basic
import Mathlib.Tactic.Common
import Mathlib.Tactic.SplitIfs

/-!
# Lists of tagged stretches

A list of stretches `[lo, hi)`, each with a tag, records a partial map from positions to tags. `Gives L x t`
says that the list gives position `x` the tag `t`; a `Tidy` list gives each position at most one.

Two ways to make such a list shorter without changing its map: `glue` joins stretches that are next to each
other in the list, `tuck` joins the last stretch to one that it touches anywhere in the list.
-/

namespace LibvmaTlt

structure Stretch (τ : Type*) where
  lo : Nat
  hi : Nat
  tag : τ
  deriving DecidableEq

variable {x top : Nat}

namespace Stretch

variable {τ : Type*} {t : τ} {a b : Stretch τ} {L L' L₁ L₂ C D : List (Stretch τ)}
  {z : Option (Stretch τ)}

def Has (b : Stretch τ) (x : Nat) : Prop := b.lo ≤ x ∧ x < b.hi

instance (b : Stretch τ) (x : Nat) : Decidable (b.Has x) := inferInstanceAs (Decidable (_ ∧ _))

def Apart (a b : Stretch τ) : Prop := a.hi ≤ b.lo ∨ b.hi ≤ a.lo

instance (a b : Stretch τ) : Decidable (Apart a b) := inferInstanceAs (Decidable (_ ∨ _))

theorem Apart.symm (h : Apart a b) : Apart b a := Or.symm h

theorem exists_common (ha : a.lo < a.hi) (hb : b.lo < b.hi) (h : ¬ Apart a b) :
    ∃ x, a.Has x ∧ b.Has x := by
  refine ⟨max a.lo b.lo, ?_⟩
  unfold Apart at h
  unfold Has
  omega

theorem Apart.not_has (h : Apart a b) (ha : a.Has x) : ¬ b.Has x := by
  unfold Apart at h
  unfold Has at *
  omega

def Gives (L : List (Stretch τ)) (x : Nat) (t : τ) : Prop := ∃ b ∈ L, b.Has x ∧ b.tag = t

@[simp] theorem gives_nil : ¬ Gives [] x t := by simp [Gives]

@[simp] theorem gives_cons : Gives (a :: L) x t ↔ (a.Has x ∧ a.tag = t) ∨ Gives L x t := by
  simp [Gives]

@[simp] theorem gives_append : Gives (L₁ ++ L₂) x t ↔ Gives L₁ x t ∨ Gives L₂ x t := by
  simp only [Gives, List.mem_append, or_and_right, exists_or]

def Covers (L : List (Stretch τ)) (x : Nat) : Prop := ∃ b ∈ L, b.Has x

@[simp] theorem covers_nil : ¬ Covers ([] : List (Stretch τ)) x := by simp [Covers]

@[simp] theorem covers_cons : Covers (a :: L) x ↔ a.Has x ∨ Covers L x := by
  simp [Covers]

@[simp] theorem covers_append : Covers (L₁ ++ L₂) x ↔ Covers L₁ x ∨ Covers L₂ x := by
  simp only [Covers, List.mem_append, or_and_right, exists_or]

/-- Proper stretches below `top` that do not overlap. -/
structure Tidy (top : Nat) (L : List (Stretch τ)) : Prop where
  proper : ∀ b ∈ L, b.lo < b.hi
  below : ∀ b ∈ L, b.hi ≤ top
  apart : L.Pairwise Apart

namespace Tidy

variable {top : Nat}

theorem nil : Tidy top ([] : List (Stretch τ)) := ⟨by simp, by simp, .nil⟩

theorem cons_iff : Tidy top (a :: L) ↔
    (a.lo < a.hi ∧ a.hi ≤ top ∧ ∀ b ∈ L, Apart a b) ∧ Tidy top L := by
  constructor
  · intro ⟨hp, hb, ha⟩
    obtain ⟨ha, hL⟩ := List.pairwise_cons.mp ha
    exact ⟨⟨hp a (by simp), hb a (by simp), ha⟩, fun b hb => hp b (by simp [hb]),
      fun c hc => hb c (by simp [hc]), hL⟩
  · intro ⟨⟨h1, h2, h3⟩, hp, hb, ha⟩
    exact ⟨List.forall_mem_cons.mpr ⟨h1, hp⟩, List.forall_mem_cons.mpr ⟨h2, hb⟩,
      List.pairwise_cons.mpr ⟨h3, ha⟩⟩

theorem append_iff : Tidy top (L₁ ++ L₂) ↔
    Tidy top L₁ ∧ Tidy top L₂ ∧ ∀ a ∈ L₁, ∀ b ∈ L₂, Apart a b := by
  constructor
  · intro ⟨hp, hb, ha⟩
    obtain ⟨h1, h2, h3⟩ := List.pairwise_append.mp ha
    exact ⟨⟨fun b hb => hp b (by simp [hb]), fun c hc => hb c (by simp [hc]), h1⟩,
      ⟨fun b hb => hp b (by simp [hb]), fun c hc => hb c (by simp [hc]), h2⟩, h3⟩
  · intro ⟨⟨hp1, hb1, ha1⟩, ⟨hp2, hb2, ha2⟩, h⟩
    refine ⟨?_, ?_, List.pairwise_append.mpr ⟨ha1, ha2, h⟩⟩
    · intro b hb
      exact (List.mem_append.mp hb).elim (hp1 b) (hp2 b)
    · intro b hb
      exact (List.mem_append.mp hb).elim (hb1 b) (hb2 b)

theorem perm (h : Tidy top L₁) (hp : L₁.Perm L₂) : Tidy top L₂ :=
  ⟨fun b hb => h.proper b (hp.mem_iff.mpr hb), fun b hb => h.below b (hp.mem_iff.mpr hb),
    (hp.pairwise_iff Apart.symm).mp h.apart⟩

theorem not_gives (h : Tidy top (a :: L)) (hx : a.Has x) (t : τ) : ¬ Gives L x t := by
  rintro ⟨b, hb, hxb, -⟩
  exact ((cons_iff.mp h).1.2.2 b hb).not_has hx hxb

theorem gives_unique (h : Tidy top L) {t' : τ} (h₁ : Gives L x t) (h₂ : Gives L x t') : t = t' := by
  induction L with
  | nil => simp at h₁
  | cons a L ih =>
    rcases gives_cons.mp h₁ with ⟨hx, ht⟩ | h₁' <;> rcases gives_cons.mp h₂ with ⟨hx', ht'⟩ | h₂'
    · exact ht.symm.trans ht'
    · exact absurd h₂' (h.not_gives hx _)
    · exact absurd h₁' (h.not_gives hx' _)
    · exact ih (cons_iff.mp h).2 h₁' h₂'

end Tidy

theorem Tidy.append (h₁ : Tidy top L₁) (h₂ : Tidy top L₂)
    (h : ∀ x t t', Gives L₁ x t → ¬ Gives L₂ x t') : Tidy top (L₁ ++ L₂) := by
  refine append_iff.mpr ⟨h₁, h₂, fun a ha b hb => ?_⟩
  by_contra hcon
  obtain ⟨x, hxa, hxb⟩ := exists_common (h₁.proper a ha) (h₂.proper b hb) hcon
  exact h x a.tag b.tag ⟨a, ha, hxa, rfl⟩ ⟨b, hb, hxb, rfl⟩

/-! ## Forgetting positions -/

def above (k : Nat) (b : Stretch τ) : Option (Stretch τ) :=
  if b.hi ≤ k then none else some { b with lo := max b.lo k }

section Above

variable {k : Nat}

theorem above_of_le (h : k ≤ b.lo) (hb : b.lo < b.hi) : above k b = some b := by
  rw [above, if_neg (by omega), Nat.max_eq_left h]

theorem filterMap_above_of_le (h : ∀ b ∈ L, k ≤ b.lo ∧ b.lo < b.hi) : L.filterMap (above k) = L := by
  induction L with
  | nil => rfl
  | cons b L ih =>
    obtain ⟨h1, h2⟩ := h b (by simp)
    rw [List.filterMap_cons, above_of_le h1 h2, ih fun c hc => h c (by simp [hc])]

theorem has_above (h : above k b = some a) (x : Nat) : a.Has x ↔ k ≤ x ∧ b.Has x := by
  unfold above at h
  split at h
  · cases h
  · obtain rfl := Option.some.inj h
    unfold Has
    simp only
    omega

theorem gives_above (x : Nat) (t : τ) : Gives (L.filterMap (above k)) x t ↔ k ≤ x ∧ Gives L x t := by
  constructor
  · rintro ⟨a, ha, hx, rfl⟩
    obtain ⟨b, hb, hab⟩ := List.mem_filterMap.mp ha
    have htag : a.tag = b.tag := by
      unfold above at hab
      split at hab
      · cases hab
      · rw [← Option.some.inj hab]
    obtain ⟨hk, hxb⟩ := (has_above hab x).mp hx
    exact ⟨hk, b, hb, hxb, htag.symm⟩
  · rintro ⟨hk, b, hb, hx, rfl⟩
    have hhi : ¬ b.hi ≤ k := by
      unfold Has at hx
      omega
    have hab : above k b = some { b with lo := max b.lo k } := if_neg hhi
    exact ⟨_, List.mem_filterMap.mpr ⟨b, hb, hab⟩, (has_above hab x).mpr ⟨hk, hx⟩, rfl⟩

theorem Tidy.above {top : Nat} (h : Tidy top L) (k : Nat) : Tidy top (L.filterMap (above k)) := by
  have hfrom : ∀ a b : Stretch τ, Stretch.above k b = some a →
      b.lo ≤ a.lo ∧ a.hi = b.hi ∧ (b.lo < b.hi → a.lo < a.hi) := by
    intro a b hab
    unfold Stretch.above at hab
    split at hab
    · cases hab
    · obtain rfl := Option.some.inj hab
      refine ⟨Nat.le_max_left _ _, rfl, fun hb => ?_⟩
      simp only
      omega
  refine ⟨?_, ?_, ?_⟩
  · intro a ha
    obtain ⟨b, hb, hab⟩ := List.mem_filterMap.mp ha
    exact (hfrom a b hab).2.2 (h.proper b hb)
  · intro a ha
    obtain ⟨b, hb, hab⟩ := List.mem_filterMap.mp ha
    rw [(hfrom a b hab).2.1]
    exact h.below b hb
  · refine h.apart.filterMap _ ?_
    intro b b' hap a hab a' hab'
    obtain ⟨h1, h2, -⟩ := hfrom a b hab
    obtain ⟨h3, h4, -⟩ := hfrom a' b' hab'
    unfold Apart at hap ⊢
    omega

end Above

def Same (L L' : List (Stretch τ)) : Prop := ∀ x t, Gives L x t ↔ Gives L' x t

theorem Same.refl (L : List (Stretch τ)) : Same L L := fun _ _ => Iff.rfl

theorem Same.trans {L₃ : List (Stretch τ)} (h : Same L₁ L₂) (h' : Same L₂ L₃) : Same L₁ L₃ :=
  fun x t => (h x t).trans (h' x t)

theorem Same.cons (a : Stretch τ) (h : Same L L') : Same (a :: L) (a :: L') := by
  intro x t
  rw [gives_cons, gives_cons, h x t]

theorem Same.of_perm (h : L.Perm L') : Same L L' := by
  intro x t
  simp only [Gives, h.mem_iff]

theorem Tidy.cons_of_same (h : Tidy top (a :: L))
    (h' : Tidy top L') (hs : Same L' L) : Tidy top (a :: L') := by
  obtain ⟨⟨hpa, hta, haL⟩, -⟩ := cons_iff.mp h
  refine cons_iff.mpr ⟨⟨hpa, hta, ?_⟩, h'⟩
  intro c hc
  -- a stretch that overlapped `a` would share a position with it, and so would one of `L`
  by_contra hcon
  obtain ⟨x, hxa, hxc⟩ := exists_common hpa (h'.proper c hc) hcon
  obtain ⟨d, hd, hxd, -⟩ := (hs x c.tag).mp ⟨c, hc, hxc, rfl⟩
  exact (haL d hd).not_has hxa hxd

/-! ## Joining two stretches -/

theorem same_join (ha : a.lo < a.hi) (hb : b.lo < b.hi) (hab : a.hi = b.lo)
    (ht : a.tag = b.tag) (L : List (Stretch τ)) : Same (a :: b :: L) (⟨a.lo, b.hi, a.tag⟩ :: L) := by
  intro x t
  simp only [gives_cons, Has, ← ht, ← or_assoc, ← or_and_right]
  have : a.lo ≤ x ∧ x < a.hi ∨ b.lo ≤ x ∧ x < b.hi ↔ a.lo ≤ x ∧ x < b.hi := by omega
  rw [this]

theorem Tidy.join (h : Tidy top (a :: b :: L))
    (hab : a.hi = b.lo) (t : τ) : Tidy top (⟨a.lo, b.hi, t⟩ :: L) := by
  obtain ⟨⟨hpa, -, haL⟩, hb⟩ := cons_iff.mp h
  obtain ⟨⟨hpb, hbt, hbL⟩, hL⟩ := cons_iff.mp hb
  refine cons_iff.mpr ⟨⟨?_, hbt, ?_⟩, hL⟩
  · show a.lo < b.hi
    omega
  · intro c hc
    have h1 := haL c (by simp [hc])
    have h2 := hbL c hc
    have h3 := hL.proper c hc
    unfold Apart at *
    simp only
    omega

theorem apart_of_join (ha : a.lo < a.hi)
    (hb : b.lo < b.hi) (hab : a.hi = b.lo) (h : (⟨a.lo, b.hi, t⟩ :: L).Pairwise Apart) :
    (a :: b :: L).Pairwise Apart := by
  obtain ⟨h1, h2⟩ := List.pairwise_cons.mp h
  refine List.pairwise_cons.mpr ⟨?_, List.pairwise_cons.mpr ⟨fun c hc => ?_, h2⟩⟩
  · rintro c hc
    rcases List.mem_cons.mp hc with rfl | hc
    · exact .inl (Nat.le_of_eq hab)
    · have := h1 c hc
      unfold Apart at *
      simp only at this
      omega
  · have := h1 c hc
    unfold Apart at *
    simp only at this
    omega

/-! ## Neighbours in the list -/

variable [DecidableEq τ] (pick : τ → τ → τ)

/-- From the left, join each stretch to the one before it: where the two meet and have one tag, and where
they are one and the same stretch, whose tag is then picked. -/
def glue : Stretch τ → List (Stretch τ) → List (Stretch τ)
  | a, [] => [a]
  | a, b :: L =>
    if a.hi = b.lo ∧ a.tag = b.tag then glue { a with hi := b.hi } L
    else if a.lo = b.lo ∧ a.hi = b.hi then glue { a with tag := pick a.tag b.tag } L
    else a :: glue b L

section Step

variable {pick}

theorem glue_of_meet (h : a.hi = b.lo ∧ a.tag = b.tag) :
    glue pick a (b :: L) = glue pick { a with hi := b.hi } L := by
  rw [glue, if_pos h]

theorem glue_of_same (h : ¬ (a.hi = b.lo ∧ a.tag = b.tag)) (h' : a.lo = b.lo ∧ a.hi = b.hi) :
    glue pick a (b :: L) = glue pick { a with tag := pick a.tag b.tag } L := by
  rw [glue, if_neg h, if_pos h']

theorem glue_of_not (h : ¬ (a.hi = b.lo ∧ a.tag = b.tag)) (h' : ¬ (a.lo = b.lo ∧ a.hi = b.hi)) :
    glue pick a (b :: L) = a :: glue pick b L := by
  rw [glue, if_neg h, if_neg h']

end Step

def glueAll : List (Stretch τ) → List (Stretch τ)
  | [] => []
  | a :: L => glue pick a L

theorem glue_spec (h : Tidy top (a :: L)) :
    Tidy top (glue pick a L) ∧ Same (glue pick a L) (a :: L) := by
  fun_induction glue pick a L with
  | case1 a => exact ⟨h, .refl _⟩
  | case2 a b L hab ih =>
    obtain ⟨ht, hs⟩ := ih (h.join hab.1 a.tag)
    have hpa := h.proper a (by simp)
    have hpb := h.proper b (by simp)
    refine ⟨ht, hs.trans ?_⟩
    intro x t
    exact (same_join hpa hpb hab.1 hab.2 L x t).symm
  | case3 a b L hab heq ih =>
    -- no two stretches of a tidy list are the same
    obtain ⟨⟨hpa, -, haL⟩, -⟩ := Tidy.cons_iff.mp h
    have := haL b (by simp)
    unfold Apart at this
    omega
  | case4 a b L hab hne ih =>
    obtain ⟨ht, hs⟩ := ih (Tidy.cons_iff.mp h).2
    exact ⟨h.cons_of_same ht hs, hs.cons a⟩

/-- `C` is `D` with some stretches written twice in a row: the second copy has a tag that loses against
the first, the first does not continue the stretch in front of it, and starts below `k`. -/
inductive Doubled (k : Nat) : Option (Stretch τ) → List (Stretch τ) → List (Stretch τ) → Prop
  | nil (z : Option (Stretch τ)) : Doubled k z [] []
  | cons {z : Option (Stretch τ)} (b : Stretch τ) {C D : List (Stretch τ)} (h : Doubled k (some b) C D) :
      Doubled k z (b :: C) (b :: D)
  | twice {z : Option (Stretch τ)} {a b : Stretch τ} {C D : List (Stretch τ)}
      (hz : ∀ z' ∈ z, ¬ (z'.hi = a.lo ∧ z'.tag = a.tag)) (hlo : b.lo = a.lo) (hhi : b.hi = a.hi)
      (hk : a.lo < k) (ht : pick a.tag b.tag = a.tag) (h : Doubled k (some a) C D) :
      Doubled k z (a :: b :: C) (a :: D)

namespace Doubled

variable {pick} {k k' : Nat}

omit [DecidableEq τ] in
theorem refl (D : List (Stretch τ)) : ∀ z, Doubled pick k z D D := by
  induction D with
  | nil => exact .nil
  | cons b D ih => exact fun z => .cons b (ih _)

theorem glue_eq (h : Doubled pick k z C D) {c : Stretch τ} (hz : z = some c) (hhi : a.hi = c.hi)
    (ht : a.tag = c.tag) (hD : Tidy top (a :: D)) :
    glue pick a C = glue pick a D := by
  induction h generalizing a c with
  | nil => rfl
  | @cons z b C D h ih =>
    obtain ⟨⟨hpa, -, haD⟩, hbD⟩ := Tidy.cons_iff.mp hD
    have hdiff : ¬ (a.lo = b.lo ∧ a.hi = b.hi) := by
      have := haD b (by simp)
      unfold Apart at this
      omega
    by_cases hab : a.hi = b.lo ∧ a.tag = b.tag
    · rw [glue_of_meet hab, glue_of_meet hab]
      exact ih rfl rfl hab.2 (hD.join hab.1 a.tag)
    · rw [glue_of_not hab hdiff, glue_of_not hab hdiff, ih rfl rfl rfl hbD]
  | @twice z b b' C D hz' hlo hhi' hk htag h ih =>
    obtain ⟨⟨hpa, -, haD⟩, hbD⟩ := Tidy.cons_iff.mp hD
    have hpb := hbD.proper b (by simp)
    have hab : ¬ (a.hi = b.lo ∧ a.tag = b.tag) := by
      rw [hhi, ht]
      exact hz' c (by rw [hz]; rfl)
    have hdiff : ¬ (a.lo = b.lo ∧ a.hi = b.hi) := by
      have := haD b (by simp)
      unfold Apart at this
      omega
    have hself : ¬ (b.hi = b'.lo ∧ b.tag = b'.tag) := by omega
    rw [glue_of_not hab hdiff, glue_of_not hab hdiff, glue_of_same hself ⟨hlo.symm, hhi'.symm⟩, htag,
      ih rfl rfl rfl hbD]

end Doubled

/-! ## What gluing says about the list

The converse: of a list that is tidy once it is glued, `Mends` says what overlaps it can have had, and
`exists_glued` which of its tags are still there. -/

/-- Every stretch that `glue` puts out is apart from those it has not come to yet. -/
def Mends : Stretch τ → List (Stretch τ) → Prop
  | _, [] => True
  | a, b :: L =>
    if a.hi = b.lo ∧ a.tag = b.tag then Mends { a with hi := b.hi } L
    else if a.lo = b.lo ∧ a.hi = b.hi then Mends { a with tag := pick a.tag b.tag } L
    else (∀ c ∈ b :: L, Apart a c) ∧ Mends b L

def MendsAll : List (Stretch τ) → Prop
  | [] => True
  | a :: L => Mends pick a L

theorem glue_covers (ha : a.lo < a.hi)
    (hL : ∀ b ∈ L, b.lo < b.hi) (x : Nat) : Covers (glue pick a L) x ↔ Covers (a :: L) x := by
  fun_induction glue pick a L with
  | case1 a => rfl
  | case2 a b L hab ih =>
    have hb := hL b (by simp)
    rw [ih (by simp only; omega) fun c hc => hL c (by simp [hc])]
    have : Has { a with hi := b.hi } x ↔ a.Has x ∨ b.Has x := by
      unfold Has
      simp only
      omega
    simp only [covers_cons, this, or_assoc]
  | case3 a b L hab heq ih =>
    rw [ih ha fun c hc => hL c (by simp [hc])]
    have : b.Has x ↔ a.Has x := by
      unfold Has
      omega
    have h' : Has { a with tag := pick a.tag b.tag } x ↔ a.Has x := Iff.rfl
    simp only [covers_cons, this, h', ← or_assoc, or_self]
  | case4 a b L hab hne ih =>
    rw [covers_cons, covers_cons, ih (hL b (by simp)) fun c hc => hL c (by simp [hc])]

theorem glue_proper (ha : a.lo < a.hi)
    (hL : ∀ b ∈ L, b.lo < b.hi) : ∀ b ∈ glue pick a L, b.lo < b.hi := by
  fun_induction glue pick a L with
  | case1 a => simpa using ha
  | case2 a b L hab ih =>
    have hb := hL b (by simp)
    exact ih (by simp only; omega) fun c hc => hL c (by simp [hc])
  | case3 a b L hab heq ih => exact ih ha fun c hc => hL c (by simp [hc])
  | case4 a b L hab hne ih =>
    exact List.forall_mem_cons.mpr ⟨ha, ih (hL b (by simp)) fun c hc => hL c (by simp [hc])⟩

theorem mends_of_glue (ha : a.lo < a.hi)
    (hL : ∀ b ∈ L, b.lo < b.hi) (h : (glue pick a L).Pairwise Apart) : Mends pick a L := by
  fun_induction glue pick a L with
  | case1 a => trivial
  | case2 a b L hab ih =>
    have hb := hL b (by simp)
    rw [Mends, if_pos hab]
    exact ih (by simp only; omega) (fun c hc => hL c (by simp [hc])) h
  | case3 a b L hab heq ih =>
    rw [Mends, if_neg hab, if_pos heq]
    exact ih ha (fun c hc => hL c (by simp [hc])) h
  | case4 a b L hab hne ih =>
    obtain ⟨h1, h2⟩ := List.pairwise_cons.mp h
    have hb := hL b (by simp)
    have hL' : ∀ c ∈ L, c.lo < c.hi := fun c hc => hL c (by simp [hc])
    rw [Mends, if_neg hab, if_neg hne]
    refine ⟨fun c hc => ?_, ih hb hL' h2⟩
    by_contra hcon
    obtain ⟨x, hxa, hxc⟩ := exists_common ha (hL c hc) hcon
    obtain ⟨d, hd, hxd⟩ := (glue_covers pick hb hL' x).mpr ⟨c, hc, hxc⟩
    exact (h1 d hd).not_has hxa hxd

section Mends

variable {pick} {c p q : Stretch τ}

theorem Mends.at (h : Mends pick a (L₁ ++ p :: L₂)) (ha : a.lo < a.hi) (hL : ∀ b ∈ L₁, b.lo < b.hi) :
    ∃ c, c.lo ≤ p.lo ∧ c.hi = p.hi ∧ ((∃ x, p.Has x ∧ ¬ Covers (a :: L₁) x) → c.tag = p.tag) ∧
      Mends pick c L₂ := by
  induction L₁ generalizing a with
  | nil =>
    rw [List.nil_append, Mends] at h
    split_ifs at h with h1 h2
    · refine ⟨{ a with hi := p.hi }, ?_, rfl, fun _ => h1.2, h⟩
      simp only
      omega
    · refine ⟨{ a with tag := pick a.tag p.tag }, Nat.le_of_eq h2.1, h2.2, ?_, h⟩
      rintro ⟨x, hx, hnot⟩
      refine absurd (covers_cons.mpr (.inl ?_)) hnot
      unfold Has at *
      omega
    · exact ⟨p, Nat.le_refl _, rfl, fun _ => rfl, h.2⟩
  | cons b L₁ ih =>
    have hb := hL b (by simp)
    have hL' : ∀ b ∈ L₁, b.lo < b.hi := fun c hc => hL c (by simp [hc])
    rw [List.cons_append, Mends] at h
    split_ifs at h with h1 h2
    · obtain ⟨c, hc1, hc2, hc3, hc4⟩ := ih h (by simp only; omega) hL'
      refine ⟨c, hc1, hc2, ?_, hc4⟩
      rintro ⟨x, hx, hnot⟩
      refine hc3 ⟨x, hx, fun hcov => hnot ?_⟩
      rw [covers_cons, covers_cons, ← or_assoc]
      refine (covers_cons.mp hcov).imp_left fun hax => ?_
      unfold Has at *
      simp only at hax
      omega
    · obtain ⟨c, hc1, hc2, hc3, hc4⟩ := ih h ha hL'
      refine ⟨c, hc1, hc2, ?_, hc4⟩
      rintro ⟨x, hx, hnot⟩
      refine hc3 ⟨x, hx, fun hcov => hnot ?_⟩
      rw [covers_cons, covers_cons, ← or_assoc]
      exact (covers_cons.mp hcov).imp_left .inl
    · obtain ⟨c, hc1, hc2, hc3, hc4⟩ := ih h.2 hb hL'
      refine ⟨c, hc1, hc2, ?_, hc4⟩
      rintro ⟨x, hx, hnot⟩
      exact hc3 ⟨x, hx, fun hcov => hnot (covers_cons.mpr (.inr hcov))⟩

theorem MendsAll.at (h : MendsAll pick (L₁ ++ p :: L₂)) (hL : ∀ b ∈ L₁, b.lo < b.hi) :
    ∃ c, c.lo ≤ p.lo ∧ c.hi = p.hi ∧ ((∃ x, p.Has x ∧ ¬ Covers L₁ x) → c.tag = p.tag) ∧
      Mends pick c L₂ := by
  cases L₁ with
  | nil => exact ⟨p, Nat.le_refl _, rfl, fun _ => rfl, h⟩
  | cons a L₁ => exact Mends.at h (hL a (by simp)) fun b hb => hL b (by simp [hb])

theorem MendsAll.next (h : MendsAll pick (L₁ ++ p :: q :: L₂)) (hL : ∀ b ∈ L₁, b.lo < b.hi)
    (h1 : p.hi ≠ q.lo) (h2 : p.hi ≠ q.hi) : (∀ d ∈ q :: L₂, Apart p d) ∧ Mends pick q L₂ := by
  obtain ⟨c, hc1, hc2, -, hc4⟩ := h.at hL
  rw [Mends, if_neg (by omega), if_neg (by omega)] at hc4
  refine ⟨fun d hd => ?_, hc4.2⟩
  have := hc4.1 d hd
  unfold Apart at *
  omega

theorem Mends.overlap (h : Mends pick c L) (hL : ∀ b ∈ L, b.lo < b.hi) (hp : p ∈ L)
    (hov : ¬ Apart c p) : p.lo = c.lo ∧ c.hi ≤ p.hi := by
  induction L generalizing c with
  | nil => simp at hp
  | cons b L ih =>
    have hb := hL b (by simp)
    have ih := fun c h => ih (c := c) h fun b hb => hL b (by simp [hb])
    rw [Mends] at h
    split_ifs at h with h3 h4
    · have hpL : p ∈ L := by
        rcases List.mem_cons.mp hp with rfl | hpL
        · exact absurd (.inl (Nat.le_of_eq h3.1)) hov
        · exact hpL
      have := ih { c with hi := b.hi } h hpL (by unfold Apart at *; simp only; omega)
      simp only at this
      omega
    · rcases List.mem_cons.mp hp with rfl | hpL
      · omega
      · exact ih { c with tag := pick c.tag b.tag } h hpL hov
    · exact absurd (h.1 p hp) hov

theorem Mends.twin (h : Mends pick c (q :: L)) (hL : ∀ b ∈ q :: L, b.lo < b.hi) (hp : p ∈ q :: L)
    (h1 : c.lo ≤ p.lo) (h2 : p.hi = c.hi) : q.lo = c.lo ∧ q.hi = c.hi := by
  have hq := hL q (by simp)
  have hpp := hL p hp
  rw [Mends] at h
  split_ifs at h with h3 h4
  · have hpL : p ∈ L := by
      rcases List.mem_cons.mp hp with rfl | hpL
      · omega
      · exact hpL
    have := h.overlap (fun b hb => hL b (by simp [hb])) hpL (by unfold Apart; simp only; omega)
    simp only at this
    omega
  · exact ⟨h4.1.symm, h4.2.symm⟩
  · have := h.1 p hp
    unfold Apart at this
    omega

theorem glue_keeps (hc1 : c.lo ≤ p.lo) (hc2 : p.hi ≤ c.hi) (hL : ∀ b ∈ L, b.lo < b.hi)
    (hp : ∀ b ∈ L, ∃ x, p.Has x ∧ ¬ b.Has x) :
    ∃ m ∈ glue pick c L, m.lo ≤ p.lo ∧ p.hi ≤ m.hi ∧ m.tag = c.tag := by
  fun_induction glue pick c L with
  | case1 c => exact ⟨c, by simp, hc1, hc2, rfl⟩
  | case2 c b L hab ih =>
    have hb := hL b (by simp)
    exact ih hc1 (by simp only; omega) (fun b hb => hL b (by simp [hb])) fun b hb => hp b (by simp [hb])
  | case3 c b L hab heq ih =>
    obtain ⟨x, hx, hnot⟩ := hp b (by simp)
    unfold Has at *
    omega
  | case4 c b L hab hne ih => exact ⟨c, by simp, hc1, hc2, rfl⟩

theorem exists_glue (ha : a.lo < a.hi) (hL : ∀ b ∈ L₁, b.lo < b.hi) (hL' : ∀ b ∈ L₂, b.lo < b.hi)
    (h1 : ∃ x, p.Has x ∧ ¬ Covers (a :: L₁) x) (h2 : ∀ b ∈ L₂, ∃ x, p.Has x ∧ ¬ b.Has x) :
    ∃ m ∈ glue pick a (L₁ ++ p :: L₂), m.lo ≤ p.lo ∧ p.hi ≤ m.hi ∧ m.tag = p.tag := by
  induction L₁ generalizing a with
  | nil =>
    rw [List.nil_append]
    by_cases hab : a.hi = p.lo ∧ a.tag = p.tag
    · rw [glue_of_meet hab, ← hab.2]
      exact glue_keeps (c := { a with hi := p.hi }) (by simp only; omega) (Nat.le_refl _) hL' h2
    by_cases hsame : a.lo = p.lo ∧ a.hi = p.hi
    · obtain ⟨x, hx, hnot⟩ := h1
      refine absurd (covers_cons.mpr (.inl ?_)) hnot
      unfold Has at *
      omega
    · rw [glue_of_not hab hsame]
      obtain ⟨m, hm, h⟩ : ∃ m ∈ glue pick p L₂, m.lo ≤ p.lo ∧ p.hi ≤ m.hi ∧ m.tag = p.tag :=
        glue_keeps (Nat.le_refl _) (Nat.le_refl _) hL' h2
      exact ⟨m, by simp [hm], h⟩
  | cons b L₁ ih =>
    have hb := hL b (by simp)
    have ih := fun a ha h => ih (a := a) ha (fun c hc => hL c (by simp [hc])) h
    obtain ⟨x, hx, hnot⟩ := h1
    rw [covers_cons, covers_cons, not_or, not_or] at hnot
    rw [List.cons_append]
    by_cases hab : a.hi = b.lo ∧ a.tag = b.tag
    · rw [glue_of_meet hab]
      refine ih _ (by simp only; omega) ⟨x, hx, fun hcov => ?_⟩
      rcases covers_cons.mp hcov with hax | hcov
      · have h1 := hnot.1
        have h2 := hnot.2.1
        unfold Has at *
        simp only at hax
        omega
      · exact hnot.2.2 hcov
    · by_cases hsame : a.lo = b.lo ∧ a.hi = b.hi
      · rw [glue_of_same hab hsame]
        exact ih _ ha ⟨x, hx, fun hcov => (covers_cons.mp hcov).elim hnot.1 hnot.2.2⟩
      · rw [glue_of_not hab hsame]
        obtain ⟨m, hm, h⟩ := ih b hb ⟨x, hx, fun hcov => (covers_cons.mp hcov).elim hnot.2.1 hnot.2.2⟩
        exact ⟨m, by simp [hm], h⟩

theorem exists_glued (hL : ∀ b ∈ L₁, b.lo < b.hi) (hL' : ∀ b ∈ L₂, b.lo < b.hi)
    (h1 : ∃ x, p.Has x ∧ ¬ Covers L₁ x) (h2 : ∀ b ∈ L₂, ∃ x, p.Has x ∧ ¬ b.Has x) :
    ∃ m ∈ glueAll pick (L₁ ++ p :: L₂), m.lo ≤ p.lo ∧ p.hi ≤ m.hi ∧ m.tag = p.tag := by
  cases L₁ with
  | nil => exact glue_keeps (c := p) (Nat.le_refl _) (Nat.le_refl _) hL' h2
  | cons a L₁ => exact exists_glue (hL a (by simp)) (fun b hb => hL b (by simp [hb])) hL' h1 h2

theorem glue_split (ha : a.lo < a.hi) (hL : ∀ b ∈ L₁, b.lo < b.hi) (h1 : p.hi ≠ q.lo) (h2 : p.hi ≠ q.hi) :
    ∃ X, glue pick a (L₁ ++ p :: q :: L₂) = X ++ glue pick q L₂ := by
  induction L₁ generalizing a with
  | nil =>
    -- `p` may be joined to `a`, and what comes of it ends where `p` does
    have hend : ∀ c : Stretch τ, c.hi = p.hi → glue pick c (q :: L₂) = c :: glue pick q L₂ :=
      fun c hc => glue_of_not (by omega) (by omega)
    rw [List.nil_append]
    by_cases hab : a.hi = p.lo ∧ a.tag = p.tag
    · rw [glue_of_meet hab, hend { a with hi := p.hi } rfl]
      exact ⟨[_], rfl⟩
    by_cases hsame : a.lo = p.lo ∧ a.hi = p.hi
    · rw [glue_of_same hab hsame, hend { a with tag := pick a.tag p.tag } hsame.2]
      exact ⟨[_], rfl⟩
    · rw [glue_of_not hab hsame, hend p rfl]
      exact ⟨[a, p], rfl⟩
  | cons b L₁ ih =>
    have hb := hL b (by simp)
    have ih := fun a ha => ih (a := a) ha fun c hc => hL c (by simp [hc])
    rw [List.cons_append]
    by_cases hab : a.hi = b.lo ∧ a.tag = b.tag
    · rw [glue_of_meet hab]
      exact ih _ (by simp only; omega)
    by_cases hsame : a.lo = b.lo ∧ a.hi = b.hi
    · rw [glue_of_same hab hsame]
      exact ih _ ha
    · rw [glue_of_not hab hsame]
      obtain ⟨X, hX⟩ := ih b hb
      exact ⟨a :: X, by rw [hX]; rfl⟩

theorem glueAll_split (hL : ∀ b ∈ L₁, b.lo < b.hi) (h1 : p.hi ≠ q.lo) (h2 : p.hi ≠ q.hi) :
    ∃ X, glueAll pick (L₁ ++ p :: q :: L₂) = X ++ glue pick q L₂ := by
  cases L₁ with
  | nil => exact ⟨[p], glue_of_not (by omega) (by omega)⟩
  | cons a L₁ => exact glue_split (hL a (by simp)) (fun b hb => hL b (by simp [hb])) h1 h2

theorem glueAll_proper (hL : ∀ b ∈ L, b.lo < b.hi) : ∀ b ∈ glueAll pick L, b.lo < b.hi := by
  cases L with
  | nil => simp [glueAll]
  | cons a L => exact glue_proper pick (hL a (by simp)) fun b hb => hL b (by simp [hb])

theorem glueAll_covers (hL : ∀ b ∈ L, b.lo < b.hi) (x : Nat) : Covers (glueAll pick L) x ↔ Covers L x := by
  cases L with
  | nil => rfl
  | cons a L => exact glue_covers pick (hL a (by simp)) (fun b hb => hL b (by simp [hb])) x

theorem mendsAll_of_glueAll (hL : ∀ b ∈ L, b.lo < b.hi) (h : (glueAll pick L).Pairwise Apart) :
    MendsAll pick L := by
  cases L with
  | nil => trivial
  | cons a L => exact mends_of_glue pick (hL a (by simp)) (fun b hb => hL b (by simp [hb])) h

end Mends

/-! ## The last of the list -/

/-- Join the stretch `l` to the first of the list that it touches and that has its tag. -/
def absorb (l : Stretch τ) : List (Stretch τ) → Option (List (Stretch τ))
  | [] => none
  | c :: L =>
    if c.tag = l.tag ∧ l.hi = c.lo then some ({ c with lo := l.lo } :: L)
    else if c.tag = l.tag ∧ c.hi = l.lo then some ({ c with hi := l.hi } :: L)
    else (absorb l L).map (c :: ·)

/-- Join the last stretch to another one, and again while that works. -/
def tuck : Nat → List (Stretch τ) → List (Stretch τ)
  | 0, L => L
  | f + 1, L =>
    match L.getLast? with
    | none => L
    | some l =>
      match absorb l L.dropLast with
      | none => L
      | some L' => tuck f L'

theorem tuck_concat (f : Nat) (L : List (Stretch τ)) (l : Stretch τ) :
    tuck (f + 1) (L ++ [l]) = (absorb l L).elim (L ++ [l]) (tuck f) := by
  simp only [tuck, List.getLast?_concat, List.dropLast_concat]
  cases absorb l L <;> rfl

theorem absorb_joins {l : Stretch τ} (h : absorb l L = some L') :
    ∃ a b M, (l :: L).Perm (a :: b :: M) ∧ a.hi = b.lo ∧ a.tag = b.tag ∧
      L'.Perm (⟨a.lo, b.hi, a.tag⟩ :: M) := by
  fun_induction absorb l L generalizing L' with
  | case1 => simp at h
  | case2 c L hc =>
    obtain rfl := Option.some.inj h
    exact ⟨l, c, L, .refl _, hc.2, hc.1.symm, by rw [← hc.1]⟩
  | case3 c L hc' hc =>
    obtain rfl := Option.some.inj h
    exact ⟨c, l, L, .swap c l L, hc.2, hc.1, .refl _⟩
  | case4 c L hc' hc ih =>
    obtain ⟨L'', hL'', rfl⟩ := Option.map_eq_some_iff.mp h
    obtain ⟨a, b, M, hp, hab, ht, hp'⟩ := ih hL''
    refine ⟨a, b, c :: M, ?_, hab, ht, (hp'.cons c).trans (.swap _ c M)⟩
    exact (List.Perm.swap c l L).trans ((hp.cons c).trans ((List.Perm.swap a c _).trans
      ((List.Perm.swap b c M).cons a)))

theorem absorb_spec {l : Stretch τ} (hL : ∀ b ∈ l :: L, b.lo < b.hi) (h : absorb l L = some L') :
    (∀ b ∈ L', b.lo < b.hi) ∧ Same L' (l :: L) ∧ (∀ top, Tidy top (l :: L) → Tidy top L') ∧
      (L'.Pairwise Apart → (l :: L).Pairwise Apart) := by
  obtain ⟨a, b, M, hp, hab, ht, hp'⟩ := absorb_joins h
  have hM : ∀ c ∈ a :: b :: M, c.lo < c.hi := fun c hc => hL c (hp.mem_iff.mpr hc)
  have ha := hM a (by simp)
  have hb := hM b (by simp)
  refine ⟨fun c hc => ?_, ?_, fun top ht => ?_, fun hap => ?_⟩
  · rcases List.mem_cons.mp (hp'.mem_iff.mp hc) with rfl | hc
    · simp only
      omega
    · exact hM c (by simp [hc])
  · intro x t
    rw [Same.of_perm hp' x t, Same.of_perm hp x t, same_join ha hb hab ht M x t]
  · exact ((ht.perm hp).join hab a.tag).perm hp'.symm
  · exact (hp.pairwise_iff Apart.symm).mpr
      (apart_of_join ha hb hab ((hp'.pairwise_iff Apart.symm).mp hap))

omit [DecidableEq τ] in
theorem perm_getLast {l : Stretch τ} (h : L.getLast? = some l) : L.Perm (l :: L.dropLast) := by
  have : L = L.dropLast ++ [l] := (List.dropLast_append_getLast? l h).symm
  nth_rewrite 1 [this]
  exact List.perm_append_singleton l L.dropLast

theorem tuck_spec {f : Nat} (hL : ∀ b ∈ L, b.lo < b.hi) :
    Same (tuck f L) L ∧ (∀ top, Tidy top L → Tidy top (tuck f L)) ∧
      ((tuck f L).Pairwise Apart → L.Pairwise Apart) := by
  induction f generalizing L with
  | zero => exact ⟨.refl L, fun _ h => h, id⟩
  | succ f ih =>
    unfold tuck
    split
    · exact ⟨.refl L, fun _ h => h, id⟩
    rename_i l hl
    split
    · exact ⟨.refl L, fun _ h => h, id⟩
    rename_i L' hL'
    have hperm := perm_getLast hl
    obtain ⟨hp, hs, ht, ha⟩ := absorb_spec (fun b hb => hL b (hperm.mem_iff.mpr hb)) hL'
    obtain ⟨h1, h2, h3⟩ := ih hp
    refine ⟨h1.trans (hs.trans (Same.of_perm hperm.symm)), fun top h => ?_, fun h => ?_⟩
    · exact h2 top (ht top (h.perm hperm))
    · exact (hperm.pairwise_iff Apart.symm).mpr (ha (h3 h))

end Stretch

end LibvmaTlt
