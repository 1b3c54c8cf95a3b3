import Mathlib

/-!
# Intervals looked at one by one

A scan over intervals `[b.1, b.2)` that keeps the place it has reached: an interval that starts at or
before that place moves it to the interval's end, forwards or backwards. What the scan reaches over is
covered (`reaches_covers`), in whatever order the intervals come. The converse depends on the order:
among disjoint intervals, one of them is recognised just when those before it in the list that lie
below it follow on each other and end where it starts (`reaches_iff_isChain`).
-/

namespace LibvmaTlt.Cover

variable {α : Type*} [LinearOrder α]

def reaches (e : α) : α → List (α × α) → Bool
  | _, [] => false
  | s, b :: l => if b.1 ≤ s ∧ e ≤ b.2 then true else reaches e (if b.1 ≤ s then b.2 else s) l

/-- The place reached from `s` when every interval is looked at. -/
def place : α → List (α × α) → α
  | s, [] => s
  | s, b :: l => place (if b.1 ≤ s then b.2 else s) l

/-- Two intervals have no point in common, one lying below the other. -/
def Apart (b c : α × α) : Prop := b.2 ≤ c.1 ∨ c.2 ≤ b.1

def Adjacent (b c : α × α) : Prop := b.2 = c.1

variable {s e x : α} {b c : α × α} {l pre post : List (α × α)}

theorem reaches_covers (h : reaches e s l = true) (hs : s ≤ x) (he : x < e) :
    ∃ b ∈ l, b.1 ≤ x ∧ x < b.2 := by
  induction l generalizing s with
  | nil => exact absurd h Bool.false_ne_true
  | cons b l ih =>
    rw [reaches] at h
    split at h
    · next hb => exact ⟨b, List.mem_cons_self, hb.1.trans hs, he.trans_le hb.2⟩
    by_cases hb : b.1 ≤ s
    · rw [if_pos hb] at h
      rcases lt_or_ge x b.2 with hx | hx
      · exact ⟨b, List.mem_cons_self, hb.trans hs, hx⟩
      · obtain ⟨c, hc, hcx⟩ := ih h hx
        exact ⟨c, List.mem_cons_of_mem _ hc, hcx⟩
    · rw [if_neg hb] at h
      obtain ⟨c, hc, hcx⟩ := ih h hs
      exact ⟨c, List.mem_cons_of_mem _ hc, hcx⟩

theorem place_covers (hs : s ≤ x) (hx : x < place s l) : ∃ b ∈ l, b.1 ≤ x ∧ x < b.2 := by
  induction l generalizing s with
  | nil => exact absurd hx (not_lt.mpr hs)
  | cons b l ih =>
    rw [place] at hx
    by_cases hb : b.1 ≤ s
    · rw [if_pos hb] at hx
      rcases lt_or_ge x b.2 with hxb | hxb
      · exact ⟨b, List.mem_cons_self, hb.trans hs, hxb⟩
      · obtain ⟨c, hc, hcx⟩ := ih hxb hx
        exact ⟨c, List.mem_cons_of_mem _ hc, hcx⟩
    · rw [if_neg hb] at hx
      obtain ⟨c, hc, hcx⟩ := ih hs hx
      exact ⟨c, List.mem_cons_of_mem _ hc, hcx⟩

theorem Apart.not_both (h : Apart b c) (hb : b.1 ≤ x ∧ x < b.2) (hc : c.1 ≤ x ∧ x < c.2) : False := by
  rcases h with h | h
  · exact absurd (hb.2.trans_le (h.trans hc.1)) (lt_irrefl x)
  · exact absurd (hc.2.trans_le (h.trans hb.1)) (lt_irrefl x)

section Disjoint

variable (hc : c.1 ≤ s) (hse : s < e) (hec : e ≤ c.2)

include hc hse hec

theorem reaches_append (hpre : ∀ b ∈ pre, Apart b c) {p : α} (hp : p ≤ s) :
    place p pre ≤ s ∧ reaches e p (pre ++ l) = reaches e (place p pre) l := by
  induction pre generalizing p with
  | nil => exact ⟨hp, rfl⟩
  | cons b pre ih =>
    have hrest := fun a ha => hpre a (List.mem_cons_of_mem b ha)
    rw [List.cons_append, reaches, place]
    by_cases hb : b.1 ≤ p
    · -- an interval above `c` starts behind the place, so this one lies below
      have hbc : b.2 ≤ c.1 := (hpre b List.mem_cons_self).resolve_right fun h =>
        absurd (hse.trans_le (hec.trans (h.trans (hb.trans hp)))) (lt_irrefl s)
      have hbe : ¬ e ≤ b.2 := not_le.mpr ((hbc.trans hc).trans_lt hse)
      rw [if_pos hb, if_neg fun h : b.1 ≤ p ∧ e ≤ b.2 => hbe h.2]
      exact ih hrest (hbc.trans hc)
    · rw [if_neg hb, if_neg fun h : b.1 ≤ p ∧ e ≤ b.2 => hb h.1]
      exact ih hrest hp

theorem reaches_iff_place (hpre : ∀ b ∈ pre, Apart b c) (hpost : ∀ b ∈ post, Apart b c) :
    reaches e s (pre ++ c :: post) = true ↔ c.1 ≤ place s pre := by
  obtain ⟨hle, heq⟩ := reaches_append (l := c :: post) hc hse hec hpre le_rfl
  rw [heq, reaches]
  by_cases hp : c.1 ≤ place s pre
  · rw [if_pos ⟨hp, hec⟩]
    exact iff_of_true rfl hp
  · rw [if_neg fun h => hp h.1, if_neg hp]
    refine iff_of_false (fun h => ?_) hp
    obtain ⟨b, hb, hbs⟩ := reaches_covers h hle hse
    exact (hpost b hb).not_both hbs ⟨hc, hse.trans_le hec⟩

end Disjoint

section Order

variable (hcc : c.1 < c.2)

include hcc

theorem place_iff_isChain {a : α × α} (ha : a.1 < a.2) (hac : a.2 ≤ c.1)
    (hproper : ∀ b ∈ pre, b.1 < b.2) (hdis : (a :: pre).Pairwise Apart)
    (hpre : ∀ b ∈ pre, Apart b c) :
    c.1 ≤ place a.2 pre ↔ List.IsChain Adjacent (a :: (pre.filter (·.2 ≤ c.1) ++ [c])) := by
  induction pre generalizing a with
  | nil =>
    simp only [place, List.filter_nil, List.nil_append, List.isChain_pair, Adjacent]
    exact ⟨fun h => le_antisymm hac h, fun h => h.ge⟩
  | cons b pre ih =>
    obtain ⟨hab, hdis'⟩ := List.pairwise_cons.mp hdis
    have hb : b.1 < b.2 := hproper b List.mem_cons_self
    have hproper' := fun d hd => hproper d (List.mem_cons_of_mem b hd)
    have hpre' := fun d hd => hpre d (List.mem_cons_of_mem b hd)
    -- a point that neither `a` nor `b` leaves to the others cannot be moved over
    have hstuck : ∀ p x, p ≤ x → x < c.1 → (a.1 ≤ x ∧ x < a.2 ∨ b.1 ≤ x ∧ x < b.2) →
        ¬ c.1 ≤ place p pre := by
      intro p x hpx hxc hin hle
      obtain ⟨d, hd, hdx⟩ := place_covers hpx (hxc.trans_le hle)
      rcases hin with hin | hin
      · exact (hab d (List.mem_cons_of_mem b hd)).not_both hin hdx
      · exact ((List.pairwise_cons.mp hdis').1 d hd).not_both hin hdx
    rw [place]
    by_cases hbc : b.2 ≤ c.1
    · rw [List.filter_cons_of_pos (by simpa using hbc), List.cons_append, List.isChain_cons_cons]
      rcases lt_trichotomy b.1 a.2 with hlt | heq | hgt
      · rw [if_pos hlt.le]
        refine iff_of_false ?_ fun h => hlt.ne' h.1
        have hba : b.2 ≤ a.1 := (hab b List.mem_cons_self).resolve_left (not_le.mpr hlt)
        exact hstuck b.2 a.1 hba (ha.trans_le hac) (.inl ⟨le_rfl, ha⟩)
      · rw [if_pos heq.le, ih hb hbc hproper' hdis' hpre']
        exact ⟨fun h => ⟨heq.symm, h⟩, fun h => h.2⟩
      · rw [if_neg (not_le.mpr hgt)]
        refine iff_of_false ?_ fun h => hgt.ne h.1
        exact hstuck a.2 b.1 hgt.le (hb.trans_le hbc) (.inr ⟨le_rfl, hb⟩)
    · have hcb : c.2 ≤ b.1 := (hpre b List.mem_cons_self).resolve_left hbc
      have hba : ¬ b.1 ≤ a.2 := not_le.mpr ((hac.trans_lt hcc).trans_le hcb)
      rw [if_neg hba, List.filter_cons_of_neg (by simpa using hbc)]
      exact ih ha hac hproper' (hdis.sublist (by simp)) hpre'

theorem place_iff_isChain_of_mem (hc : c.1 ≤ s) (hs : s < c.2) (hproper : ∀ b ∈ pre, b.1 < b.2)
    (hdis : pre.Pairwise Apart) (hpre : ∀ b ∈ pre, Apart b c) :
    c.1 ≤ place s pre ↔ List.IsChain Adjacent (pre.filter (·.2 ≤ c.1) ++ [c]) := by
  induction pre with
  | nil => simpa [place] using hc
  | cons b pre ih =>
    have hb : b.1 < b.2 := hproper b List.mem_cons_self
    have hproper' := fun d hd => hproper d (List.mem_cons_of_mem b hd)
    have hpre' := fun d hd => hpre d (List.mem_cons_of_mem b hd)
    rw [place]
    by_cases hbc : b.2 ≤ c.1
    · rw [if_pos ((hb.le.trans hbc).trans hc), List.filter_cons_of_pos (by simpa using hbc)]
      exact place_iff_isChain hcc hb hbc hproper' hdis hpre'
    · have hcb : c.2 ≤ b.1 := (hpre b List.mem_cons_self).resolve_left hbc
      rw [if_neg (not_le.mpr (hs.trans_le hcb)), List.filter_cons_of_neg (by simpa using hbc)]
      exact ih hproper' (List.pairwise_cons.mp hdis).2 hpre'

end Order

/-- **A part of an interval is recognised** among disjoint intervals just when those listed before the
interval that lie below it follow on each other and end where it starts. -/
theorem reaches_iff_isChain (hproper : ∀ b ∈ pre, b.1 < b.2) (hcc : c.1 < c.2)
    (hdis : (pre ++ c :: post).Pairwise Apart) (hc : c.1 ≤ s) (hse : s < e) (hec : e ≤ c.2) :
    reaches e s (pre ++ c :: post) = true ↔
      List.IsChain Adjacent (pre.filter (·.2 ≤ c.1) ++ [c]) := by
  obtain ⟨hpre, hcpost, hcross⟩ := List.pairwise_append.mp hdis
  have hpre' : ∀ b ∈ pre, Apart b c := fun b hb => hcross b hb c List.mem_cons_self
  have hpost' : ∀ b ∈ post, Apart b c := fun b hb => ((List.pairwise_cons.mp hcpost).1 b hb).symm
  rw [reaches_iff_place hc hse hec hpre' hpost']
  exact place_iff_isChain_of_mem hcc hc (hse.trans_le hec) hproper hpre hpre'

end LibvmaTlt.Cover
