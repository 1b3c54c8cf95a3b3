import LibvmaTlt.Lwip.UimpChain

/-!
# Adding to the queue as an update of a map

`tlt_segment_add` is meant to give every byte of its range the current round and to leave the others
alone. It walks the chain once and deals with the blocks in the order of the chain, so what comes out
depends on that order. `Handled` says of a chain and a range that no block is met in a way the walk gets
wrong.
-/

namespace LibvmaTlt.Lwip

open Stretch

section Handled

variable (base round : U32)

/-- A block that is just what is left of the range `[s, e)` takes the new round, and what is left is put
into the chain once more. Merging drops the copy if it comes right behind the block and the block has not
been joined to the one in front. -/
def CopyDropped (done L : List (Stretch U32)) (s e : Nat) : Prop :=
  (∀ b ∈ done.tail, b.lo < e) ∧ (∀ b ∈ L.head?, e ≤ b.lo) ∧
    ∀ b ∈ done.getLast?, ¬ (b.hi = s ∧ b.tag = round)

/-- The block `p` lies in the range, which starts at `s`. If its start is the larger number, the gap
from `s` to it is linked in as a block: there must be none further on that it overlaps, but for a copy
right behind whose round is no later. Otherwise the block and the gap are taken to have the round. -/
def GapHandled (p : Stretch U32) (L : List (Stretch U32)) (s : Nat) : Prop :=
  if seqAt base p.lo > seqAt base s then
    (∀ b ∈ L, Apart ⟨s, p.lo, round⟩ b) ∨
      ∃ b ∈ L.head?, b.lo = s ∧ b.hi = p.lo ∧ laterRound round b.tag = round
  else p.tag = round ∧ ∀ x, s ≤ x → x < p.lo → Gives L x round

/-- The walk gets every block of the chain right; `done` is what it has left in front. -/
def Handled : (done L : List (Stretch U32)) → (s e : Nat) → Prop
  | _, [], _, _ => True
  | done, p :: L, s, e =>
    let v := visit base round p s e
    if p.lo ≤ s ∧ e ≤ p.hi then p.tag = round ∨ p.lo = s ∧ p.hi = e ∧ CopyDropped round done L s e
    else if s ≤ p.lo ∧ p.hi ≤ e then
      GapHandled base round p L s ∧ (p.hi = e ∨ Handled (done ++ v.1) L v.2.1 v.2.2)
    else Handled (done ++ v.1) L v.2.1 v.2.2

end Handled

/-- `D` gives the round to the positions of `[s, e)` and agrees with `L` on the others. -/
def Updates (round : U32) (L D : List (Stretch U32)) (s e : Nat) : Prop :=
  ∀ x t, Gives D x t ↔ if s ≤ x ∧ x < e then t = round else Gives L x t

theorem lt_of_seqAt {base : U32} {s x : Nat} (hle : s ≤ x) (h : seqAt base x > seqAt base s) : s < x := by
  refine lt_of_le_of_ne hle fun hs => ?_
  rw [hs] at h
  exact BitVec.lt_irrefl _ h

/-! ## One block -/

section Visit

variable (base round : U32) {p : Stretch U32} {L : List (Stretch U32)} {s e : Nat}

theorem visit_over (hin : ¬ (p.lo ≤ s ∧ e ≤ p.hi)) (hover : s ≤ p.lo ∧ p.hi ≤ e) :
    visit base round p s e = (if seqAt base p.lo > seqAt base s then
      [{ p with tag := round }, ⟨s, p.lo, round⟩] else [p], p.hi, e) := by
  rw [visit, if_neg hin, if_pos hover]

theorem visit_apart (hp : p.lo < p.hi) (hse : s < e) (hapart : e ≤ p.lo ∨ p.hi ≤ s) :
    visit base round p s e = ([p], s, e) := by
  rw [visit, if_neg (by omega), if_neg (by omega), if_pos hapart]

theorem visit_left (h1 : s < p.lo) (h2 : p.lo < e) (h3 : e < p.hi) :
    visit base round p s e =
      (if p.tag = round then [p] else [⟨p.lo, e, round⟩, ⟨e, p.hi, p.tag⟩], s, p.lo) := by
  rw [visit, if_neg (by omega), if_neg (by omega), if_neg (by omega), if_pos h1]

theorem visit_right (h1 : p.lo < s) (h2 : s < p.hi) (h3 : p.hi < e) :
    visit base round p s e =
      (if p.tag = round then [p] else [⟨p.lo, s, p.tag⟩, ⟨s, p.hi, round⟩], p.hi, e) := by
  rw [visit, if_neg (by omega), if_neg (by omega), if_neg (by omega), if_neg (by omega)]

theorem walk_stop (h : (visit base round p s e).2.1 = (visit base round p s e).2.2) :
    walk base round (p :: L) s e = ((visit base round p s e).1 ++ L, (visit base round p s e).2) := by
  simp only [walk, if_pos h]

theorem walk_step (h : (visit base round p s e).2.1 ≠ (visit base round p s e).2.2) :
    walk base round (p :: L) s e =
      ((visit base round p s e).1 ++
        (walk base round L (visit base round p s e).2.1 (visit base round p s e).2.2).1,
        (walk base round L (visit base round p s e).2.1 (visit base round p s e).2.2).2) := by
  simp only [walk, if_neg h]

def walkOn (L : List (Stretch U32)) (s e : Nat) : List (Stretch U32) × Nat × Nat :=
  if s = e then (L, e, e) else walk base round L s e

theorem walk_over (hin : ¬ (p.lo ≤ s ∧ e ≤ p.hi)) (hover : s ≤ p.lo ∧ p.hi ≤ e) :
    walk base round (p :: L) s e = ((if seqAt base p.lo > seqAt base s then
      [{ p with tag := round }, ⟨s, p.lo, round⟩] else [p]) ++ (walkOn base round L p.hi e).1,
      (walkOn base round L p.hi e).2) := by
  have hv := visit_over base round hin hover
  unfold walkOn
  by_cases hpe : p.hi = e
  · rw [walk_stop base round (by rw [hv]; exact hpe), hv, if_pos hpe]
    simp [hpe]
  · rw [walk_step base round (by rw [hv]; exact hpe), hv, if_neg hpe]

theorem walkOn_cons_apart (hp : p.lo < p.hi) (hse : s ≤ e) (hapart : e ≤ p.lo ∨ p.hi ≤ s) :
    walkOn base round (p :: L) s e =
      (p :: (walkOn base round L s e).1, (walkOn base round L s e).2) := by
  unfold walkOn
  by_cases h : s = e
  · simp only [if_pos h]
  · have hv := visit_apart base round hp (lt_of_le_of_ne hse h) hapart
    simp only [if_neg h]
    rw [walk_step base round (by rw [hv]; exact h), hv]
    rfl

theorem walk_apart (hse : s < e) (hL : ∀ b ∈ L, b.lo < b.hi ∧ (e ≤ b.lo ∨ b.hi ≤ s)) :
    walk base round L s e = (L, s, e) := by
  induction L with
  | nil => rfl
  | cons p L ih =>
    have hv := visit_apart base round (hL p (by simp)).1 hse (hL p (by simp)).2
    rw [walk_step base round (by rw [hv]; exact hse.ne), hv, ih fun b hb => hL b (by simp [hb])]
    rfl

end Visit

/-! ## The condition is enough -/

variable {C : List (Stretch U32)} {k : Nat}

section Enough

variable {base round : U32} {top : Nat} {p t : Stretch U32} {done L M V V' D : List (Stretch U32)}
  {z z' : Option (Stretch U32)} {s e s' e' : Nat} {w : List (Stretch U32) × Nat × Nat}

theorem Updates.cons (h : Updates round L (t :: D) s' e') (hs : s ≤ s') (he : e' ≤ e)
    (hrest : ∀ x r, s' ≤ x → x < e' → ¬ Gives V x r)
    (hin : ∀ x r, s ≤ x → x < e → ¬ (s' ≤ x ∧ x < e') → (Gives V x r ∨ Gives L x r ↔ r = round))
    (hout : ∀ x r, ¬ (s ≤ x ∧ x < e) → (Gives V x r ∨ Gives L x r ↔ Gives M x r)) :
    Updates round M (t :: (V ++ D)) s e := by
  intro x r
  have hperm : Gives (t :: (V ++ D)) x r ↔ Gives V x r ∨ Gives (t :: D) x r := by
    simp only [gives_cons, gives_append]
    tauto
  rw [hperm, h x r]
  by_cases hx : s ≤ x ∧ x < e
  · rw [if_pos hx]
    by_cases hx' : s' ≤ x ∧ x < e'
    · rw [if_pos hx']
      have := hrest x r hx'.1 hx'.2
      tauto
    · rw [if_neg hx']
      exact hin x r hx.1 hx.2 hx'
  · rw [if_neg hx, if_neg (by omega)]
    exact hout x r hx

theorem Updates.tidy (h : Updates round L (t :: D) s' e') (hV : Tidy top V) (hD : Tidy top D)
    (hrest : ∀ x r, s' ≤ x → x < e' → ¬ Gives V x r) (hVL : ∀ x r r', Gives V x r → ¬ Gives L x r') :
    Tidy top (V ++ D) := by
  refine hV.append hD fun x r r' hv hd => ?_
  have := (h x r').mp (gives_cons.mpr (.inr hd))
  split_ifs at this with hx
  · exact hrest x r hx.1 hx.2 hv
  · exact hVL x r r' hv this

/-- The walk `w` over the blocks `L`, with the blocks `done` in front, leaves a chain that merging turns
into `D`: what is left of the range is apart from it, or has been given to a block that then stands in
the chain twice. -/
structure Core (top : Nat) (round : U32) (done : List (Stretch U32)) (z : Option (Stretch U32))
    (L : List (Stretch U32)) (s e : Nat) (w : List (Stretch U32) × Nat × Nat) (D : List (Stretch U32)) :
    Prop where
  tidy : Tidy top D
  lo : s ≤ w.2.1
  le : w.2.1 ≤ w.2.2
  hi : w.2.2 ≤ e
  updates : Updates round L (⟨w.2.1, w.2.2, round⟩ :: D) s e
  chain : ((w.2.1 < w.2.2 → ∀ b ∈ D, Apart ⟨w.2.1, w.2.2, round⟩ b) ∧ Doubled laterRound w.2.1 z w.1 D) ∨
    ∃ W₁ W₂, w.1 = W₁ ++ ⟨w.2.1, w.2.2, round⟩ :: W₂ ∧ w.2.1 < w.2.2 ∧
      CopyDropped round (done ++ W₁) W₂ w.2.1 w.2.2 ∧ ⟨w.2.1, w.2.2, round⟩ ∈ D ∧
      Doubled laterRound w.2.2 z (W₁ ++ ⟨w.2.1, w.2.2, round⟩ :: ⟨w.2.1, w.2.2, round⟩ :: W₂) D

namespace Core

theorem nothing (hL : Tidy top L) : Core top round done z L e e (L, e, e) L := by
  refine ⟨hL, le_rfl, le_rfl, le_rfl, ?_, .inl ⟨fun h => absurd h (lt_irrefl e), .refl L z⟩⟩
  intro x r
  rw [if_neg (by omega), gives_cons]
  unfold Has
  simp only
  constructor
  · rintro (⟨hx, -⟩ | hx)
    · omega
    · exact hx
  · exact .inr

theorem step (h : Core top round (done ++ V') z' L s' e' w D) (hV : Tidy top V) (hs : s ≤ s')
    (he : e' ≤ e) (hrest : ∀ x r, s' ≤ x → x < e' → ¬ Gives V x r)
    (hVL : ∀ x r r', Gives V x r → ¬ Gives L x r')
    (hin : ∀ x r, s ≤ x → x < e → ¬ (s' ≤ x ∧ x < e') → (Gives V x r ∨ Gives L x r ↔ r = round))
    (hout : ∀ x r, ¬ (s ≤ x ∧ x < e) → (Gives V x r ∨ Gives L x r ↔ Gives M x r))
    (hdouble : ∀ k C D, s' ≤ k → Doubled laterRound k z' C D →
      Doubled laterRound k z (V' ++ C) (V ++ D)) :
    Core top round done z M s e (V' ++ w.1, w.2) (V ++ D) := by
  refine ⟨h.updates.tidy hV h.tidy hrest hVL, hs.trans h.lo, h.le, h.hi.trans he,
    h.updates.cons hs he hrest hin hout, ?_⟩
  rcases h.chain with ⟨hap, hd⟩ | ⟨W₁, W₂, hW, hlt, hcopy, hmem, hd⟩
  · refine .inl ⟨fun hlt b hb => ?_, hdouble _ _ _ h.lo hd⟩
    rcases List.mem_append.mp hb with hb | hb
    · -- the range left is part of `[s', e')`
      by_contra hcon
      obtain ⟨x, hx, hxb⟩ := exists_common hlt (hV.proper b hb) hcon
      exact hrest x b.tag (h.lo.trans hx.1) (hx.2.trans_le h.hi) ⟨b, hb, hxb, rfl⟩
    · exact hap hlt b hb
  · refine .inr ⟨V' ++ W₁, W₂, by simp [hW], hlt, ?_, List.mem_append_right V hmem, ?_⟩
    · rwa [← List.append_assoc]
    · rw [List.append_assoc]
      exact hdouble _ _ _ (h.lo.trans h.le) hd

theorem inside (h : Tidy top (p :: L)) (h1 : p.lo ≤ s) (h2 : e ≤ p.hi) (hse : s < e)
    (ht : p.tag = round) : Core top round done z (p :: L) s e (p :: L, s, s) (p :: L) := by
  refine ⟨h, le_rfl, le_rfl, hse.le, ?_, .inl ⟨fun hlt => absurd hlt (lt_irrefl s), .refl _ z⟩⟩
  intro x r
  have hempty : Gives (⟨s, s, round⟩ :: p :: L) x r ↔ Gives (p :: L) x r := by
    rw [gives_cons]
    unfold Has
    simp only
    constructor
    · rintro (⟨hx, -⟩ | hx)
      · omega
      · exact hx
    · exact .inr
  rw [hempty]
  split_ifs with hx
  · have hp : Gives (p :: L) x round := ⟨p, by simp, ⟨h1.trans hx.1, hx.2.trans_le h2⟩, ht⟩
    exact ⟨fun hr => h.gives_unique hr hp, fun hr => hr ▸ hp⟩
  · rfl

theorem exact (h : Tidy top (p :: L)) (h1 : p.lo = s) (h2 : p.hi = e)
    (hcopy : CopyDropped round done L s e) (hz : ∀ b ∈ z, b.hi = s → b ∈ done.getLast?) :
    Core top round done z (p :: L) s e (⟨s, e, round⟩ :: L, s, e) (⟨s, e, round⟩ :: L) := by
  subst h1 h2
  obtain ⟨⟨hp, hpt, hpL⟩, hL⟩ := Tidy.cons_iff.mp h
  refine ⟨Tidy.cons_iff.mpr ⟨⟨hp, hpt, hpL⟩, hL⟩, le_rfl, hp.le, le_rfl, ?_, ?_⟩
  · intro x r
    simp only [gives_cons]
    by_cases hx : p.Has x
    · have hnot := h.not_gives hx r
      have hx' : Has ⟨p.lo, p.hi, round⟩ x := hx
      rw [if_pos (show p.lo ≤ x ∧ x < p.hi from hx)]
      simp only [hx', true_and, hnot, or_false, or_self]
      exact eq_comm
    · have hx' : ¬ Has ⟨p.lo, p.hi, round⟩ x := hx
      rw [if_neg (show ¬ (p.lo ≤ x ∧ x < p.hi) from hx)]
      simp only [hx', hx, false_and, false_or]
  · refine .inr ⟨[], L, rfl, hp, by simpa using hcopy, by simp, ?_⟩
    refine .twice ?_ rfl rfl hp ?_ (.refl L _)
    · intro b hb hcon
      exact hcopy.2.2 b (hz b hb hcon.1) hcon
    · simp [laterRound]

theorem one (h : Core top round (done ++ [p]) (some p) L s' e' w D) (hM : Tidy top (p :: L))
    (hs : s ≤ s') (he : e' ≤ e) (hrest : ∀ x, s' ≤ x → x < e' → ¬ p.Has x)
    (hin : ∀ x, s ≤ x → x < e → ¬ (s' ≤ x ∧ x < e') → Gives (p :: L) x round) :
    Core top round done z (p :: L) s e (p :: w.1, w.2) (p :: D) := by
  have hV : Tidy top [p] :=
    Tidy.cons_iff.mpr ⟨⟨hM.proper p (by simp), hM.below p (by simp), by simp⟩, .nil⟩
  have hgives : ∀ x r, Gives [p] x r ∨ Gives L x r ↔ Gives (p :: L) x r := by simp
  refine h.step hV hs he ?_ ?_ ?_ ?_ fun k C D _ hd => .cons p hd
  · rintro x r hx1 hx2 ⟨b, hb, hxb, -⟩
    obtain rfl := List.mem_singleton.mp hb
    exact hrest x hx1 hx2 hxb
  · rintro x r r' ⟨b, hb, hxb, -⟩
    obtain rfl := List.mem_singleton.mp hb
    exact hM.not_gives hxb r'
  · intro x r hx1 hx2 hx3
    have hround := hin x hx1 hx2 hx3
    rw [hgives]
    exact ⟨fun hr => hM.gives_unique hr hround, fun hr => hr ▸ hround⟩
  · intro x r _
    exact hgives x r

theorem cut {m : Nat} {ra rb : U32}
    (h : Core top round (done ++ [⟨p.lo, m, ra⟩, ⟨m, p.hi, rb⟩]) (some ⟨m, p.hi, rb⟩) L s' e' w D)
    (hM : Tidy top (p :: L)) (h1 : p.lo < m) (h2 : m < p.hi) (hs : s ≤ s') (he : e' ≤ e)
    (hcut : (m = e ∧ ra = round ∧ rb = p.tag ∧ s' = s ∧ e' = p.lo) ∨
      (m = s ∧ ra = p.tag ∧ rb = round ∧ s' = p.hi ∧ e' = e)) :
    Core top round done z (p :: L) s e
      (⟨p.lo, m, ra⟩ :: ⟨m, p.hi, rb⟩ :: w.1, w.2) (⟨p.lo, m, ra⟩ :: ⟨m, p.hi, rb⟩ :: D) := by
  have hpt := hM.below p (by simp)
  have hV : Tidy top [⟨p.lo, m, ra⟩, ⟨m, p.hi, rb⟩] := by
    refine Tidy.cons_iff.mpr ⟨⟨h1, h2.le.trans hpt, ?_⟩, Tidy.cons_iff.mpr ⟨⟨h2, hpt, by simp⟩, .nil⟩⟩
    intro b hb
    obtain rfl := List.mem_singleton.mp hb
    exact .inl le_rfl
  have hnot := fun x hx => hM.not_gives (x := x) hx
  have hse : s' ≤ e' := h.lo.trans (h.le.trans h.hi)
  refine h.step hV hs he ?_ ?_ ?_ ?_ fun k C D _ hd => .cons _ (.cons _ hd)
  all_goals simp only [gives_cons, gives_nil, or_false, Has] at hnot ⊢
  all_goals grind

theorem gap (h : Core top round (done ++ V') z' L p.hi e w D) (h1 : s < p.lo) (hp : p.lo < p.hi)
    (h2 : p.hi ≤ e) (het : p.hi ≤ top) (hpL : ∀ b ∈ L, Apart p b)
    (hgL : ∀ b ∈ L, Apart ⟨s, p.lo, round⟩ b)
    (hM : ∀ x r, ¬ (s ≤ x ∧ x < e) → (Gives M x r ↔ Gives L x r))
    (hdouble : ∀ k C D, p.hi ≤ k → Doubled laterRound k z' C D →
      Doubled laterRound k z (V' ++ C) ([{ p with tag := round }, ⟨s, p.lo, round⟩] ++ D)) :
    Core top round done z M s e (V' ++ w.1, w.2)
      ([{ p with tag := round }, ⟨s, p.lo, round⟩] ++ D) := by
  have hV : Tidy top [{ p with tag := round }, ⟨s, p.lo, round⟩] := by
    refine Tidy.cons_iff.mpr ⟨⟨hp, het, ?_⟩, Tidy.cons_iff.mpr ⟨⟨h1, hp.le.trans het, by simp⟩, .nil⟩⟩
    intro b hb
    obtain rfl := List.mem_singleton.mp hb
    exact .inr le_rfl
  have hnot : ∀ x r, s ≤ x → x < p.hi → ¬ Gives L x r := by
    rintro x r hx1 hx2 ⟨b, hb, hxb, -⟩
    rcases Nat.lt_or_ge x p.lo with hx | hx
    · exact (hgL b hb).not_has ⟨hx1, hx⟩ hxb
    · exact (hpL b hb).not_has ⟨hx, hx2⟩ hxb
  refine h.step hV (by omega) le_rfl ?_ ?_ ?_ ?_ hdouble
  all_goals simp only [gives_cons, gives_nil, or_false, Has] at hnot ⊢
  all_goals grind

end Core

/-- What is to be shown of the chains of fewer than `n` blocks. -/
def CoreBelow (base round : U32) (top n : Nat) : Prop :=
  ∀ {done L : List (Stretch U32)} {z : Option (Stretch U32)} {s e : Nat}, L.length < n →
    Handled base round done L s e → Tidy top L → s < e → e ≤ top →
    (∀ b ∈ z, b.hi = s → b ∈ done.getLast?) → ∃ D, Core top round done z L s e (walk base round L s e) D

section Cases

variable (hM : Tidy top (p :: L)) (hse : s < e) (he : e ≤ top)

include hM hse

theorem core_inside (h : Handled base round done (p :: L) s e) (hin : p.lo ≤ s ∧ e ≤ p.hi)
    (hz : ∀ b ∈ z, b.hi = s → b ∈ done.getLast?) :
    ∃ D, Core top round done z (p :: L) s e (walk base round (p :: L) s e) D := by
  simp only [Handled, if_pos hin] at h
  by_cases ht : p.tag = round
  · have hv : visit base round p s e = ([p], s, s) := by rw [visit, if_pos hin, if_pos ht]
    rw [walk_stop base round (by rw [hv]), hv]
    exact ⟨p :: L, .inside hM hin.1 hin.2 hse ht⟩
  obtain ⟨h1, h2, hcopy⟩ := h.resolve_left ht
  have hv : visit base round p s e = ([{ p with tag := round }], s, e) := by
    rw [visit, if_pos hin, if_neg ht, if_neg (by omega), if_neg (by omega)]
  rw [walk_step base round (by rw [hv]; exact hse.ne), hv, walk_apart base round hse]
  · subst h1 h2
    exact ⟨_, .exact hM rfl rfl hcopy hz⟩
  · intro b hb
    have := (Tidy.cons_iff.mp hM).1.2.2 b hb
    unfold Apart at this
    exact ⟨hM.proper b (by simp [hb]), by omega⟩

include he

theorem core_side (ih : CoreBelow base round top (p :: L).length)
    (h : Handled base round done (p :: L) s e) (hin : ¬ (p.lo ≤ s ∧ e ≤ p.hi))
    (hover : ¬ (s ≤ p.lo ∧ p.hi ≤ e)) :
    ∃ D, Core top round done z (p :: L) s e (walk base round (p :: L) s e) D := by
  obtain ⟨⟨hp, -, -⟩, hL⟩ := Tidy.cons_iff.mp hM
  simp only [Handled, if_neg hin, if_neg hover] at h
  by_cases hapart : e ≤ p.lo ∨ p.hi ≤ s
  · have hv := visit_apart base round hp hse hapart
    rw [hv] at h
    rw [walk_step base round (by rw [hv]; exact hse.ne), hv]
    obtain ⟨D, hD⟩ := ih (z := some p) (by simp) h hL hse he (by simp)
    refine ⟨_, hD.one hM le_rfl le_rfl ?_ ?_⟩
    · intro x hx1 hx2 hx
      have hx1' : s ≤ x := hx1
      have hx2' : x < e := hx2
      unfold Has at hx
      omega
    · intro x hx1 hx2 hx3
      exact absurd ⟨hx1, hx2⟩ hx3
  · by_cases hleft : s < p.lo
    · have hlo : p.lo < e := by omega
      have hhi : e < p.hi := by omega
      have hv := visit_left base round hleft hlo hhi
      rw [hv] at h
      rw [walk_step base round (by rw [hv]; exact hleft.ne), hv]
      by_cases ht : p.tag = round
      · simp only [if_pos ht] at h ⊢
        obtain ⟨D, hD⟩ := ih (z := some p) (by simp) h hL hleft (hlo.le.trans he) (by simp)
        refine ⟨_, hD.one hM le_rfl hlo.le ?_ ?_⟩
        · intro x _ hx2 hx
          exact absurd hx.1 (Nat.not_le.mpr hx2)
        · intro x hx1 hx2 hx3
          exact ⟨p, by simp, ⟨by omega, by omega⟩, ht⟩
      · simp only [if_neg ht] at h ⊢
        obtain ⟨D, hD⟩ := ih (z := some ⟨e, p.hi, p.tag⟩) (by simp) h hL hleft (hlo.le.trans he)
          (by simp)
        exact ⟨_, hD.cut hM hlo hhi le_rfl hlo.le (.inl ⟨rfl, rfl, rfl, rfl, rfl⟩)⟩
    · have hlo : p.lo < s := by omega
      have hs : s < p.hi := by omega
      have hhi : p.hi < e := by omega
      have hv := visit_right base round hlo hs hhi
      rw [hv] at h
      rw [walk_step base round (by rw [hv]; exact hhi.ne), hv]
      by_cases ht : p.tag = round
      · simp only [if_pos ht] at h ⊢
        obtain ⟨D, hD⟩ := ih (z := some p) (by simp) h hL hhi he (by simp)
        refine ⟨_, hD.one hM hs.le le_rfl ?_ ?_⟩
        · intro x hx1 _ hx
          exact absurd hx.2 (Nat.not_lt.mpr hx1)
        · intro x hx1 hx2 hx3
          exact ⟨p, by simp, ⟨by omega, by omega⟩, ht⟩
      · simp only [if_neg ht] at h ⊢
        obtain ⟨D, hD⟩ := ih (z := some ⟨s, p.hi, round⟩) (by simp) h hL hhi he (by simp)
        exact ⟨_, hD.cut hM hlo hs hs.le le_rfl (.inr ⟨rfl, rfl, rfl, rfl, rfl⟩)⟩

omit hse in
theorem core_over (ih : CoreBelow base round top (p :: L).length)
    (h : Handled base round done (p :: L) s e) (hin : ¬ (p.lo ≤ s ∧ e ≤ p.hi))
    (hover : s ≤ p.lo ∧ p.hi ≤ e) :
    ∃ D, Core top round done z (p :: L) s e (walk base round (p :: L) s e) D := by
  obtain ⟨⟨hp, hpt, hpL⟩, hL⟩ := Tidy.cons_iff.mp hM
  simp only [Handled, if_neg hin, if_pos hover] at h
  obtain ⟨hgap, hnext⟩ := h
  rw [walk_over base round hin hover]
  rw [visit_over base round hin hover] at hnext
  have hrest : ∀ (K done' : List (Stretch U32)) (y : Option (Stretch U32)), K.length < (p :: L).length →
      Tidy top K → (p.hi = e ∨ Handled base round done' K p.hi e) →
      (∀ b ∈ y, b.hi = p.hi → b ∈ done'.getLast?) →
      ∃ D, Core top round done' y K p.hi e (walkOn base round K p.hi e) D := by
    intro K done' y hlen hK hnext hy
    unfold walkOn
    by_cases hpe : p.hi = e
    · rw [if_pos hpe, hpe]
      exact ⟨K, .nothing hK⟩
    · rw [if_neg hpe]
      exact ih hlen (hnext.resolve_left hpe) hK (lt_of_le_of_ne hover.2 hpe) he hy
  unfold GapHandled at hgap
  by_cases hplain : seqAt base p.lo > seqAt base s
  · simp only [if_pos hplain] at hgap hnext ⊢
    have hlt : s < p.lo := lt_of_seqAt hover.1 hplain
    rcases hgap with hgap | ⟨g, hg, hglo, hghi, hgt⟩
    · obtain ⟨D, hD⟩ := hrest L _ (some ⟨s, p.lo, round⟩) (by simp) hL hnext
        (by rintro b ⟨⟩ hb; simp only at hb; omega)
      refine ⟨_, hD.gap hlt hp hover.2 hpt hpL hgap ?_ fun k C D _ hd => .cons _ (.cons _ hd)⟩
      intro x r hx
      simp only [gives_cons, Has]
      constructor
      · rintro (⟨hxp, -⟩ | hxL)
        · omega
        · exact hxL
      · exact .inr
    · -- the gap is the next block, which is then written twice
      cases L with
      | nil => simp at hg
      | cons g' L =>
        obtain rfl : g' = g := by simpa using hg
        obtain ⟨⟨hgp, -, hgL⟩, hL'⟩ := Tidy.cons_iff.mp hL
        have hgapart : ¬ (g'.lo ≤ p.hi ∧ e ≤ g'.hi) ∧ ¬ (p.hi ≤ g'.lo ∧ g'.hi ≤ e) := by omega
        have hvg : p.hi ≠ e → visit base round g' p.hi e = ([g'], p.hi, e) := fun hpe =>
          visit_apart base round hgp (lt_of_le_of_ne hover.2 hpe) (.inr (by omega))
        have hnext' : p.hi = e ∨ Handled base round
            (done ++ [{ p with tag := round }, ⟨s, p.lo, round⟩, g']) L p.hi e := by
          by_cases hpe : p.hi = e
          · exact .inl hpe
          · have hh := hnext.resolve_left hpe
            simp only [Handled, if_neg hgapart.1, if_neg hgapart.2, hvg hpe] at hh
            exact .inr (by simpa using hh)
        rw [walkOn_cons_apart base round hgp hover.2 (.inr (by omega))]
        obtain ⟨D, hD⟩ := hrest L _ (some ⟨s, p.lo, round⟩) (by simp) hL' hnext'
          (by rintro b ⟨⟩ hb; simp only at hb; omega)
        refine ⟨_, hD.gap hlt hp hover.2 hpt (fun b hb => hpL b (by simp [hb])) ?_ ?_ ?_⟩
        · intro b hb
          have := hgL b hb
          unfold Apart at *
          simp only
          omega
        · intro x r hx
          simp only [gives_cons, Has]
          constructor
          · rintro (⟨hxp, -⟩ | ⟨hxg, -⟩ | hxL)
            · omega
            · omega
            · exact hxL
          · exact fun hxL => .inr (.inr hxL)
        · intro k C D hk hd
          refine .cons _ (.twice ?_ hglo hghi (by simp only; omega) hgt hd)
          rintro b ⟨⟩ ⟨hb, -⟩
          simp only at hb
          omega
  · simp only [if_neg hplain] at hgap hnext ⊢
    obtain ⟨D, hD⟩ := hrest L _ (some p) (by simp) hL hnext (by simp)
    refine ⟨_, hD.one hM (by omega) le_rfl ?_ ?_⟩
    · intro x hx1 _ hx
      exact absurd hx.2 (by omega)
    · intro x hx1 hx2 hx3
      rw [gives_cons]
      rcases Nat.lt_or_ge x p.lo with hx | hx
      · exact .inr (hgap.2 x hx1 hx)
      · exact .inl ⟨⟨hx, by omega⟩, hgap.1⟩

end Cases

theorem Handled.core (h : Handled base round done L s e) (hL : Tidy top L) (hse : s < e)
    (he : e ≤ top) (hz : ∀ b ∈ z, b.hi = s → b ∈ done.getLast?) :
    ∃ D, Core top round done z L s e (walk base round L s e) D := by
  obtain ⟨n, hn⟩ : ∃ n, L.length = n := ⟨_, rfl⟩
  induction n using Nat.strong_induction_on generalizing done z L s e with
  | _ n ih =>
  subst hn
  have ih' : CoreBelow base round top L.length := fun hlen h hL hse he hz =>
    ih _ hlen h hL hse he hz rfl
  cases L with
  | nil =>
    refine ⟨[], hL, le_rfl, hse.le, le_rfl, ?_, .inl ⟨by simp, .nil z⟩⟩
    intro x r
    simp only [walk, gives_cons, gives_nil, or_false, Has]
    split_ifs with hx
    · simp [hx, eq_comm]
    · simp [hx]
  | cons p L =>
    by_cases hin : p.lo ≤ s ∧ e ≤ p.hi
    · exact core_inside hL hse h hin hz
    · by_cases hover : s ≤ p.lo ∧ p.hi ≤ e
      · exact core_over hL he ih' h hin hover
      · exact core_side hL hse he ih' h hin hover

/-! ### The rest of the range, and merging -/

theorem putBefore_perm (t : Stretch U32) (L : List (Stretch U32)) : (putBefore t L).Perm (t :: L) := by
  induction L with
  | nil => exact .refl _
  | cons b L ih =>
    rw [putBefore]
    split_ifs
    · exact .refl _
    · exact (ih.cons b).trans (.swap t b L)

theorem place_perm (t : Stretch U32) (L : List (Stretch U32)) : (place t L).Perm (t :: L) := by
  cases L with
  | nil => exact .refl _
  | cons b L => exact ((putBefore_perm t L).cons b).trans (.swap t b L)

theorem doubled_putBefore (h : Doubled laterRound k z C D) (hk : k ≤ t.hi) :
    Doubled laterRound k z (putBefore t C) (putBefore t D) := by
  induction h with
  | nil z => exact .cons t (.nil _)
  | cons b h ih =>
    rw [putBefore, putBefore]
    split_ifs
    · exact .cons t (.cons b h)
    · exact .cons b ih
  | twice hz hlo hhi hk' ht h ih =>
    rw [putBefore, putBefore, putBefore, if_neg (by omega), if_neg (by omega),
      if_neg (by omega)]
    exact .twice hz hlo hhi hk' ht ih

theorem doubled_place (h : Doubled laterRound k z C D) (hk : k ≤ t.hi) :
    Doubled laterRound k z (place t C) (place t D) := by
  cases h with
  | nil z => exact .cons t (.nil _)
  | cons b h => exact .cons b (doubled_putBefore h hk)
  | twice hz hlo hhi hk' ht h =>
    rw [place, place, putBefore, if_neg (by omega)]
    exact .twice hz hlo hhi hk' ht (doubled_putBefore h hk)

theorem glueAll_of_doubled (h : Doubled laterRound k none C D) (hD : Tidy top D) :
    glueAll laterRound C = glueAll laterRound D := by
  cases h with
  | nil => rfl
  | cons b h => exact h.glue_eq rfl rfl rfl hD
  | @twice _ a b C D hz hlo hhi hk ht h =>
    have ha := hD.proper a (by simp)
    have hmeet : ¬ (a.hi = b.lo ∧ a.tag = b.tag) := by omega
    rw [glueAll, glueAll, glue_of_same hmeet ⟨hlo.symm, hhi.symm⟩, ht]
    exact h.glue_eq rfl rfl rfl hD

theorem place_copy (h : CopyDropped round L M s e) (hse : s < e) :
    place ⟨s, e, round⟩ (L ++ ⟨s, e, round⟩ :: M) = L ++ ⟨s, e, round⟩ :: ⟨s, e, round⟩ :: M := by
  obtain ⟨hL, hM, -⟩ := h
  have hbehind : putBefore ⟨s, e, round⟩ M = ⟨s, e, round⟩ :: M := by
    cases M with
    | nil => rfl
    | cons b M => rw [putBefore, if_pos (hM b rfl)]
  cases L with
  | nil => rw [List.nil_append, place, hbehind]; rfl
  | cons a L =>
    have hput : ∀ K : List (Stretch U32), (∀ b ∈ K, b.lo < e) →
        putBefore ⟨s, e, round⟩ (K ++ ⟨s, e, round⟩ :: M) = K ++ ⟨s, e, round⟩ :: ⟨s, e, round⟩ :: M := by
      intro K hK
      induction K with
      | nil => rw [List.nil_append, putBefore, if_neg (by simp only; omega), hbehind]; rfl
      | cons b K ih =>
        have hb := hK b (by simp)
        rw [List.cons_append, putBefore, if_neg (by simp only; omega),
          ih fun c hc => hK c (by simp [hc])]
        rfl
    rw [List.cons_append, place, hput L hL]
    rfl

theorem settle_spec (hC : Tidy top C) : Tidy top (settle C) ∧ Same (settle C) C := by
  cases C with
  | nil => exact ⟨hC, .refl _⟩
  | cons a C =>
    obtain ⟨h1, h2⟩ := glue_spec laterRound hC
    obtain ⟨h3, h4, -⟩ := tuck_spec (f := (glueAll laterRound (a :: C)).length + 1) h1.proper
    exact ⟨h4 top h1, h3.trans h2⟩

theorem Handled.updates (h : Handled base round [] L s e) (hL : Tidy top L) (hse : s < e)
    (he : e ≤ top) : Tidy top (addStretches base round L s e) ∧
      Updates round L (addStretches base round L s e) s e := by
  obtain ⟨D, hD⟩ := h.core (z := none) hL hse he (by simp)
  -- what is merged is a tidy list `E`, with copies
  suffices hE : ∃ E, Tidy top E ∧ glueAll laterRound (spread base round L s e) = glueAll laterRound E ∧
      Updates round L E s e by
    obtain ⟨E, hE, hglue, hup⟩ := hE
    obtain ⟨h1, h2⟩ := settle_spec hE
    have hset : addStretches base round L s e = settle E := by rw [addStretches, settle, settle, hglue]
    rw [hset]
    exact ⟨h1, fun x r => (h2 x r).trans (hup x r)⟩
  unfold spread
  generalize walk base round L s e = w at hD
  rcases hD.chain with ⟨hap, hd⟩ | ⟨W₁, W₂, hW, hlt, hcopy, hmem, hd⟩
  · by_cases hw : w.2.1 = w.2.2
    · refine ⟨D, hD.tidy, ?_, fun x r => ?_⟩
      · simp only [if_pos hw]
        exact glueAll_of_doubled hd hD.tidy
      · rw [← hD.updates x r, gives_cons]
        unfold Has
        simp only
        constructor
        · exact .inr
        · rintro (⟨hx, -⟩ | hx)
          · omega
          · exact hx
    · have hlt : w.2.1 < w.2.2 := lt_of_le_of_ne hD.le hw
      have hperm := place_perm ⟨w.2.1, w.2.2, round⟩ D
      have htidy : Tidy top (⟨w.2.1, w.2.2, round⟩ :: D) :=
        Tidy.cons_iff.mpr ⟨⟨hlt, hD.hi.trans he, hap hlt⟩, hD.tidy⟩
      have hplaced := htidy.perm hperm.symm
      refine ⟨place ⟨w.2.1, w.2.2, round⟩ D, hplaced, ?_, fun x r => ?_⟩
      · simp only [if_neg hw]
        exact glueAll_of_doubled (doubled_place hd hD.le) hplaced
      · rw [Same.of_perm hperm x r]
        exact hD.updates x r
  · refine ⟨D, hD.tidy, ?_, fun x r => ?_⟩
    · simp only [if_neg hlt.ne, hW]
      rw [List.nil_append] at hcopy
      rw [place_copy hcopy hlt]
      exact glueAll_of_doubled hd hD.tidy
    · rw [← hD.updates x r, gives_cons]
      exact ⟨.inr, fun hx => hx.elim (fun hx => ⟨_, hmem, hx⟩) id⟩

end Enough

end LibvmaTlt.Lwip
