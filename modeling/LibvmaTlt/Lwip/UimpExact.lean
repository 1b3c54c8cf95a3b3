import LibvmaTlt.Lwip.UimpMap

/-!
# What the walk gets wrong stays wrong

Merging joins blocks that touch and drops a copy that comes right behind its block. It repairs nothing
else, so a chain that is right once it is merged was `Handled`.
-/

namespace LibvmaTlt.Lwip

open Stretch

section Walk

variable {base round : U32} {p b t : Stretch U32} {L L₁ L₂ : List (Stretch U32)} {s e x : Nat}

theorem visit_spec (base round : U32) (hp : p.lo < p.hi) (hse : s < e) :
    s ≤ (visit base round p s e).2.1 ∧ (visit base round p s e).2.1 ≤ (visit base round p s e).2.2 ∧
      (visit base round p s e).2.2 ≤ e ∧ (∀ b ∈ (visit base round p s e).1, b.lo < b.hi) ∧
      ∀ x, Covers (visit base round p s e).1 x → p.Has x ∨ s ≤ x ∧ x < e := by
  unfold visit
  split_ifs with h1 h2 h3 h4 h4 h5 h6 h7 h8 h9 h9
  all_goals simp only [List.forall_mem_cons, List.not_mem_nil, false_implies, implies_true, and_true,
    covers_cons, covers_nil, or_false, Has]
  all_goals grind

theorem walk_spec (base round : U32) (hL : ∀ b ∈ L, b.lo < b.hi) (hse : s < e) :
    s ≤ (walk base round L s e).2.1 ∧ (walk base round L s e).2.1 ≤ (walk base round L s e).2.2 ∧
      (walk base round L s e).2.2 ≤ e ∧ (∀ b ∈ (walk base round L s e).1, b.lo < b.hi) ∧
      ∀ x, Covers (walk base round L s e).1 x → Covers L x ∨ s ≤ x ∧ x < e := by
  induction L generalizing s e with
  | nil => exact ⟨le_rfl, hse.le, le_rfl, by simp [walk], by simp [walk]⟩
  | cons p L ih =>
    have hL' : ∀ b ∈ L, b.lo < b.hi := fun b hb => hL b (by simp [hb])
    obtain ⟨h1, h2, h3, h4, h5⟩ := visit_spec base round (hL p (by simp)) hse
    by_cases hv : (visit base round p s e).2.1 = (visit base round p s e).2.2
    · rw [walk_stop base round hv]
      refine ⟨h1, h2, h3, ?_, fun x hx => ?_⟩
      · intro b hb
        exact (List.mem_append.mp hb).elim (h4 b) (hL' b)
      · rw [covers_cons]
        rcases covers_append.mp hx with hx | hx
        · exact (h5 x hx).imp_left .inl
        · exact .inl (.inr hx)
    · rw [walk_step base round hv]
      obtain ⟨i1, i2, i3, i4, i5⟩ := ih hL' (lt_of_le_of_ne h2 hv)
      refine ⟨h1.trans i1, i2, i3.trans h3, ?_, fun x hx => ?_⟩
      · intro b hb
        exact (List.mem_append.mp hb).elim (h4 b) (i4 b)
      · rw [covers_cons]
        rcases covers_append.mp hx with hx | hx
        · exact (h5 x hx).imp_left .inl
        · rcases i5 x hx with hx | hx
          · exact .inl (.inr hx)
          · exact .inr (by omega)

theorem walk_split (base round : U32) (hL : ∀ c ∈ L₁ ++ b :: L₂, c.lo < c.hi) (hse : s < e)
    (hb : e ≤ b.lo ∨ b.hi ≤ s) :
    ∃ X₁ X₂, (walk base round (L₁ ++ b :: L₂) s e).1 = X₁ ++ b :: X₂ ∧
      (∀ x, Covers X₁ x → Covers L₁ x ∨ s ≤ x ∧ x < e) ∧
      ∀ x, Covers X₂ x → Covers L₂ x ∨ s ≤ x ∧ x < e := by
  induction L₁ generalizing s e with
  | nil =>
    have hv := visit_apart base round (hL b (by simp)) hse hb
    have hL₂ := walk_spec (L := L₂) base round (fun c hc => hL c (by simp [hc])) hse
    refine ⟨[], (walk base round L₂ s e).1, ?_, by simp, hL₂.2.2.2.2⟩
    rw [List.nil_append, walk_step base round (by rw [hv]; exact hse.ne), hv]
    rfl
  | cons p L₁ ih =>
    obtain ⟨h1, h2, h3, -, h5⟩ := visit_spec base round (hL p (by simp)) hse
    have hfront : ∀ x, Covers (visit base round p s e).1 x → Covers (p :: L₁) x ∨ s ≤ x ∧ x < e :=
      fun x hx => (h5 x hx).imp_left fun hp => covers_cons.mpr (.inl hp)
    rw [List.cons_append]
    by_cases hv : (visit base round p s e).2.1 = (visit base round p s e).2.2
    · rw [walk_stop base round hv]
      refine ⟨(visit base round p s e).1 ++ L₁, L₂, by simp, fun x hx => ?_, fun x hx => .inl hx⟩
      rcases covers_append.mp hx with hx | hx
      · exact hfront x hx
      · exact .inl (covers_cons.mpr (.inr hx))
    · rw [walk_step base round hv]
      obtain ⟨X₁, X₂, hX, hX₁, hX₂⟩ := ih (fun c hc => hL c (List.mem_cons_of_mem _ hc))
        (lt_of_le_of_ne h2 hv) (by omega)
      refine ⟨(visit base round p s e).1 ++ X₁, X₂, by simp [hX], fun x hx => ?_, fun x hx => ?_⟩
      · rcases covers_append.mp hx with hx | hx
        · exact hfront x hx
        · rcases hX₁ x hx with hx | hx
          · exact .inl (covers_cons.mpr (.inr hx))
          · exact .inr (by omega)
      · exact (hX₂ x hx).imp_right fun hx => by omega

theorem walkOn_spec (base round : U32) (hL : ∀ b ∈ L, b.lo < b.hi) (hse : s ≤ e) :
    s ≤ (walkOn base round L s e).2.1 ∧ (walkOn base round L s e).2.1 ≤ (walkOn base round L s e).2.2 ∧
      (walkOn base round L s e).2.2 ≤ e ∧
      ∀ x, Covers (walkOn base round L s e).1 x → Covers L x ∨ s ≤ x ∧ x < e := by
  unfold walkOn
  split_ifs with h
  · exact ⟨hse, le_rfl, le_rfl, fun x hx => .inl hx⟩
  · obtain ⟨h1, h2, h3, -, h5⟩ := walk_spec base round hL (lt_of_le_of_ne hse h)
    exact ⟨h1, h2, h3, h5⟩

theorem walkOn_split (base round : U32) (hL : ∀ c ∈ L₁ ++ b :: L₂, c.lo < c.hi) (hse : s ≤ e)
    (hb : e ≤ b.lo ∨ b.hi ≤ s) :
    ∃ X₁ X₂, (walkOn base round (L₁ ++ b :: L₂) s e).1 = X₁ ++ b :: X₂ ∧
      (∀ x, Covers X₁ x → Covers L₁ x ∨ s ≤ x ∧ x < e) ∧
      ∀ x, Covers X₂ x → Covers L₂ x ∨ s ≤ x ∧ x < e := by
  unfold walkOn
  split_ifs with h
  · exact ⟨L₁, L₂, rfl, fun x hx => .inl hx, fun x hx => .inl hx⟩
  · exact walk_split base round hL (lt_of_le_of_ne hse h) hb

theorem walkOn_head (base round : U32) (p : Stretch U32) (L : List (Stretch U32)) (s e : Nat) :
    ∃ c V, (walkOn base round (p :: L) s e).1 = c :: V ∧ c.lo = p.lo := by
  obtain ⟨c, V, hv, hc⟩ : ∃ c V, (visit base round p s e).1 = c :: V ∧ c.lo = p.lo := by
    unfold visit
    split_ifs <;> exact ⟨_, _, rfl, rfl⟩
  unfold walkOn
  split_ifs
  · exact ⟨p, L, rfl, rfl⟩
  by_cases h : (visit base round p s e).2.1 = (visit base round p s e).2.2
  · rw [walk_stop base round h, hv]
    exact ⟨c, _, rfl, hc⟩
  · rw [walk_step base round h, hv]
    exact ⟨c, _, rfl, hc⟩

end Walk

/-! ## The rest of the range in the chain -/

section Place

variable {t : Stretch U32} {A B K : List (Stretch U32)}

theorem putBefore_append (hK : ∀ b ∈ K, b.lo < t.hi) :
    putBefore t (K ++ B) = K ++ putBefore t B := by
  induction K with
  | nil => rfl
  | cons b K ih =>
    have hb := hK b (by simp)
    rw [List.cons_append, putBefore, if_neg (by omega), ih fun c hc => hK c (by simp [hc])]
    rfl

theorem mid_cons {a : Stretch U32} {l : List (Stretch U32)}
    (h : ∃ A' B', l = A' ++ (K ++ B') ∧
      ((∀ b ∈ A', b = t ∨ b ∈ A) ∧ B' = B ∨ A' = A ∧ B' = putBefore t B)) :
    ∃ A' B', a :: l = A' ++ (K ++ B') ∧
      ((∀ b ∈ A', b = t ∨ b ∈ a :: A) ∧ B' = B ∨ A' = a :: A ∧ B' = putBefore t B) := by
  obtain ⟨A', B', rfl, hor⟩ := h
  refine ⟨a :: A', B', rfl, hor.imp (fun h => ⟨fun b hb => ?_, h.2⟩) fun h => ?_⟩
  · rcases List.mem_cons.mp hb with rfl | hb
    · exact .inr (by simp)
    · exact (h.1 b hb).imp_right fun hb => by simp [hb]
  · exact ⟨by rw [h.1], h.2⟩

theorem putBefore_mid (hK : ∀ b ∈ K, b.lo < t.hi) :
    ∃ A' B', putBefore t (A ++ (K ++ B)) = A' ++ (K ++ B') ∧
      ((∀ b ∈ A', b = t ∨ b ∈ A) ∧ B' = B ∨ A' = A ∧ B' = putBefore t B) := by
  induction A with
  | nil => exact ⟨[], putBefore t B, putBefore_append hK, .inr ⟨rfl, rfl⟩⟩
  | cons a A ih =>
    rw [List.cons_append, putBefore]
    split_ifs
    · exact ⟨t :: a :: A, B, rfl, .inl ⟨fun b hb => List.mem_cons.mp hb, rfl⟩⟩
    · exact mid_cons ih

theorem place_mid (hne : K ≠ []) (hK : ∀ b ∈ K, b.lo < t.hi) :
    ∃ A' B', place t (A ++ (K ++ B)) = A' ++ (K ++ B') ∧
      ((∀ b ∈ A', b = t ∨ b ∈ A) ∧ B' = B ∨ A' = A ∧ B' = putBefore t B) := by
  cases A with
  | nil =>
    obtain ⟨k, K, rfl⟩ := List.exists_cons_of_ne_nil hne
    refine ⟨[], putBefore t B, ?_, .inr ⟨rfl, rfl⟩⟩
    rw [List.nil_append, List.cons_append, place, putBefore_append fun b hb => hK b (by simp [hb])]
    rfl
  | cons a A => exact mid_cons (putBefore_mid hK)

theorem putBefore_later (h : ∃ b ∈ K, t.hi ≤ b.lo) :
    ∃ K₁ c K₂, t.hi ≤ c.lo ∧ ∀ B, putBefore t (K ++ B) = K₁ ++ t :: c :: (K₂ ++ B) := by
  induction K with
  | nil => simp at h
  | cons a K ih =>
    by_cases ha : t.hi ≤ a.lo
    · refine ⟨[], a, K, ha, fun B => ?_⟩
      rw [List.cons_append, putBefore, if_pos ha]
      rfl
    have h' : ∃ b ∈ K, t.hi ≤ b.lo := by
      obtain ⟨b, hb, hlo⟩ := h
      rcases List.mem_cons.mp hb with rfl | hb
      · exact absurd hlo ha
      · exact ⟨b, hb, hlo⟩
    obtain ⟨K₁, c, K₂, hc, hput⟩ := ih h'
    refine ⟨a :: K₁, c, K₂, hc, fun B => ?_⟩
    rw [List.cons_append, putBefore, if_neg ha, hput]
    rfl

theorem place_behind (hA : ∀ b ∈ A.tail, b.lo < t.hi) (ht : t.lo < t.hi) :
    place t (A ++ t :: B) = A ++ t :: putBefore t B := by
  have hone : ∀ b ∈ [t], b.lo < t.hi := by simpa using ht
  cases A with
  | nil => rfl
  | cons a A =>
    rw [List.tail_cons] at hA
    rw [List.cons_append, place, putBefore_append hA]
    have : putBefore t (t :: B) = t :: putBefore t B := putBefore_append (K := [t]) hone
    rw [this]
    rfl

end Place

/-! ## Chains that are right -/

/-- The chain, once merged, has no overlaps and gives the positions of `[S, E)` the round and nothing
else. -/
structure Right (round : U32) (C : List (Stretch U32)) (S E : Nat) : Prop where
  proper : ∀ b ∈ C, b.lo < b.hi
  mends : MendsAll laterRound C
  only : ∀ x r, S ≤ x → x < E → Gives (glueAll laterRound C) x r → r = round
  all : ∀ x, S ≤ x → x < E → Covers C x

/-- The chain that comes of a walk with the blocks `done` in front. -/
def chainOf (round : U32) (done : List (Stretch U32)) (w : List (Stretch U32) × Nat × Nat) :
    List (Stretch U32) :=
  if w.2.1 = w.2.2 then done ++ w.1 else place ⟨w.2.1, w.2.2, round⟩ (done ++ w.1)

section Necessary

variable {base round : U32} {top S E : Nat} {p : Stretch U32} {C C₁ C₂ done L : List (Stretch U32)}
  {s e x : Nat}

theorem Right.tag_eq (h : Right round (C₁ ++ p :: C₂) S E) (hx : p.Has x) (hS : S ≤ x) (hE : x < E)
    (h1 : ∃ y, p.Has y ∧ ¬ Covers C₁ y) (h2 : ∀ b ∈ C₂, ∃ y, p.Has y ∧ ¬ b.Has y) : p.tag = round := by
  obtain ⟨m, hm, hlo, hhi, htag⟩ : ∃ m ∈ glueAll laterRound (C₁ ++ p :: C₂), m.lo ≤ p.lo ∧
      p.hi ≤ m.hi ∧ m.tag = p.tag :=
    exists_glued (fun b hb => h.proper b (by simp [hb])) (fun b hb => h.proper b (by simp [hb])) h1 h2
  rw [← htag]
  exact h.only x m.tag hS hE ⟨m, hm, ⟨hlo.trans hx.1, hx.2.trans_le hhi⟩, rfl⟩

theorem Right.tag_twice {g b : Stretch U32} (h : Right round (C₁ ++ p :: g :: b :: C₂) S E)
    (hlo : p.hi ≠ g.lo) (hhi : p.hi ≠ g.hi) (hb : g.lo = b.lo ∧ g.hi = b.hi) (hx : g.Has x) (hS : S ≤ x)
    (hE : x < E) (hfar : ∀ d ∈ C₂, ¬ d.Has x) : laterRound g.tag b.tag = round := by
  obtain ⟨X, hX⟩ : ∃ X, glueAll laterRound (C₁ ++ p :: g :: b :: C₂) =
      X ++ glue laterRound g (b :: C₂) := glueAll_split (fun b hb => h.proper b (by simp [hb])) hlo hhi
  have hg := h.proper g (by simp)
  have hmeet : ¬ (g.hi = b.lo ∧ g.tag = b.tag) := by omega
  rw [glue_of_same hmeet hb] at hX
  obtain ⟨m, hm, hmlo, hmhi, hmt⟩ : ∃ m ∈ glue laterRound { g with tag := laterRound g.tag b.tag } C₂,
      m.lo ≤ g.lo ∧ g.hi ≤ m.hi ∧ m.tag = laterRound g.tag b.tag :=
    glue_keeps le_rfl le_rfl (fun b hb => h.proper b (by simp [hb])) fun d hd => ⟨x, hx, hfar d hd⟩
  have hgives : Gives (glueAll laterRound (C₁ ++ p :: g :: b :: C₂)) x m.tag := by
    rw [hX]
    exact ⟨m, List.mem_append_right _ hm, ⟨hmlo.trans hx.1, hx.2.trans_le hmhi⟩, rfl⟩
  exact hmt.symm.trans (h.only x m.tag hS hE hgives)

theorem covers_of_chainOf {w : List (Stretch U32) × Nat × Nat} (h : Covers (chainOf round done w) x) :
    Covers done x ∨ Covers w.1 x ∨ w.2.1 ≤ x ∧ x < w.2.2 := by
  unfold chainOf at h
  split_ifs at h
  · exact (covers_append.mp h).imp_right .inl
  · obtain ⟨b, hb, hxb⟩ := h
    rcases List.mem_cons.mp ((place_perm _ _).mem_iff.mp hb) with rfl | hb
    · exact .inr (.inr hxb)
    · exact (covers_append.mp ⟨b, hb, hxb⟩).imp_right .inl

/-- The blocks of a walk, with what is left of the range put in where the code looks for its place. -/
def WithRest (round : U32) (w : List (Stretch U32) × Nat × Nat) (B : List (Stretch U32)) : Prop :=
  B = w.1 ∨ w.2.1 ≠ w.2.2 ∧ B = putBefore ⟨w.2.1, w.2.2, round⟩ w.1

namespace WithRest

variable {B W : List (Stretch U32)} {b c : Stretch U32} {m : Nat × Nat}
  {w : List (Stretch U32) × Nat × Nat}

theorem mem (h : WithRest round w B) (hb : b ∈ w.1) : b ∈ B := by
  rcases h with rfl | ⟨-, rfl⟩
  · exact hb
  · exact (putBefore_perm _ _).mem_iff.mpr (List.mem_cons_of_mem _ hb)

theorem of_mem (h : WithRest round w B) (hb : b ∈ B) : b = ⟨w.2.1, w.2.2, round⟩ ∨ b ∈ w.1 := by
  rcases h with rfl | ⟨-, rfl⟩
  · exact .inr hb
  · exact List.mem_cons.mp ((putBefore_perm _ _).mem_iff.mp hb)

theorem head (h : WithRest round (b :: W, m) (c :: B)) : c = ⟨m.1, m.2, round⟩ ∨ c = b := by
  rcases h with h | ⟨-, h⟩
  · exact .inr (List.cons.inj h).1
  · rw [putBefore] at h
    split_ifs at h
    · exact .inl (List.cons.inj h).1
    · exact .inr (List.cons.inj h).1

theorem cons (h : WithRest round (b :: W, m) B) (hb : b.lo < m.2) :
    ∃ B', B = b :: B' ∧ WithRest round (W, m) B' := by
  rcases h with rfl | ⟨hne, rfl⟩
  · exact ⟨W, rfl, .inl rfl⟩
  · exact ⟨_, putBefore_append (K := [b]) (by simpa using hb), .inr ⟨hne, rfl⟩⟩

end WithRest

theorem chainOf_mid (round : U32) (done : List (Stretch U32)) {w : List (Stretch U32) × Nat × Nat}
    {K B : List (Stretch U32)} (hw : w.1 = K ++ B)
    (hne : K ≠ []) (hK : w.2.1 ≠ w.2.2 → ∀ b ∈ K, b.lo < w.2.2) :
    ∃ A' B', chainOf round done w = A' ++ (K ++ B') ∧
      (∀ b ∈ A', b = ⟨w.2.1, w.2.2, round⟩ ∧ w.2.1 ≠ w.2.2 ∨ b ∈ done) ∧
      WithRest round (B, w.2) B' := by
  unfold chainOf
  split_ifs with h
  · exact ⟨done, B, by rw [hw], fun b hb => .inr hb, .inl rfl⟩
  rw [hw]
  obtain ⟨A', B', heq, hor⟩ := place_mid (A := done) (B := B) hne
    (t := ⟨w.2.1, w.2.2, round⟩) (hK h)
  refine ⟨A', B', heq, ?_, hor.imp (fun h => h.2) fun h' => ⟨h, h'.2⟩⟩
  intro b hb
  rcases hor with h' | h'
  · exact (h'.1 b hb).imp_left fun hb => ⟨hb, h⟩
  · exact .inr (h'.1 ▸ hb)

/-- What the walk has left in front of the blocks `L` keeps off what is left of the range, and off the
blocks it still has to come to. -/
structure Front (done L : List (Stretch U32)) (s e : Nat) : Prop where
  range : ∀ x, s ≤ x → x < e → ¬ Covers done x
  far : ∀ b ∈ L, ∀ x y, b.Has x → s ≤ x → x < e → b.Has y → ¬ Covers done y
  last : ∀ b ∈ L, ∀ x, b.Has x → x + 1 = s → b.hi = s → ¬ Covers done x
  prev : ∀ z ∈ done.getLast?, z.hi = s → ∃ x, z.Has x ∧ ¬ Covers done.dropLast x

theorem Front.step {V : List (Stretch U32)} {s' e' : Nat} (h : Front done (p :: L) s e)
    (hM : Tidy top (p :: L)) (hne : V ≠ []) (he : e' ≤ e) (hs : s' = s ∨ s < p.hi ∧ s' = p.hi)
    (hrest : ∀ x, s' ≤ x → x < e' → ¬ Covers V x)
    (hcov : ∀ x, Covers V x → p.Has x ∨ s ≤ x ∧ x < p.lo ∧ s' = p.hi)
    (hprev : ∀ z ∈ V.getLast?, z.hi = s' → ∃ x, z.Has x ∧ ¬ Covers (done ++ V.dropLast) x) :
    Front (done ++ V) L s' e' := by
  obtain ⟨⟨hp, -, hpL⟩, hL⟩ := Tidy.cons_iff.mp hM
  refine ⟨fun x hx1 hx2 hcon => ?_, fun b hb x y hxb hx1 hx2 hyb hcon => ?_,
    fun b hb x hxb hx1 hx2 hcon => ?_, fun z hz hzs => ?_⟩
  · rcases covers_append.mp hcon with hcon | hcon
    · exact h.range x (by omega) (by omega) hcon
    · exact hrest x hx1 hx2 hcon
  · rcases covers_append.mp hcon with hcon | hcon
    · exact h.far b (by simp [hb]) x y hxb (by omega) (by omega) hyb hcon
    rcases hcov y hcon with hyp | hy
    · exact (hpL b hb).not_has hyp hyb
    · -- a block on both sides of `p`
      refine (hpL b hb).not_has (x := p.lo) ⟨le_rfl, hp⟩ ?_
      unfold Has at *
      omega
  · rcases covers_append.mp hcon with hcon | hcon
    · rcases hs with rfl | ⟨hsp, hs⟩
      · exact h.last b (by simp [hb]) x hxb hx1 hx2 hcon
      · refine (hpL b hb).not_has ⟨?_, ?_⟩ hxb <;> omega
    · rcases hcov x hcon with hxp | hx
      · exact (hpL b hb).not_has hxp hxb
      · omega
  · have hlast : (done ++ V).getLast? = V.getLast? := by
      rw [List.getLast?_append]
      cases hV : V.getLast? with
      | none => exact absurd (List.getLast?_eq_none_iff.mp hV) hne
      | some z => rfl
    rw [hlast] at hz
    rw [List.dropLast_append_of_ne_nil hne]
    exact hprev z hz hzs

theorem Front.one {s' e' : Nat} (h : Front done (p :: L) s e) (hM : Tidy top (p :: L)) (he : e' ≤ e)
    (hs : s' = s ∨ s < p.hi ∧ s' = p.hi) (hrest : ∀ x, s' ≤ x → x < e' → ¬ p.Has x) (hse : s < e)
    (hover : s' = p.hi → s < s' → p.lo < e) : Front (done ++ [p]) L s' e' := by
  refine h.step hM (by simp) he hs (by simpa using hrest) (fun x hx => .inl (by simpa using hx)) ?_
  intro z hzp hz
  obtain rfl : p = z := by simpa using hzp
  have hp := hM.proper p (by simp)
  simp only [List.dropLast_singleton, List.append_nil]
  rcases Nat.lt_or_ge s s' with hlt | hge
  · -- a position of the range that the block has
    refine ⟨max s p.lo, ⟨?_, ?_⟩, h.range _ ?_ ?_⟩ <;> have := hover hz.symm hlt <;> omega
  · refine ⟨s - 1, ⟨?_, ?_⟩, h.last p (by simp) _ ⟨?_, ?_⟩ ?_ ?_⟩ <;> omega

/-! ### A block that holds what is left -/

theorem Right.lo_eq (h : Right round (chainOf round done (walk base round (p :: L) s e)) S E)
    (hf : Front done (p :: L) s e) (hM : Tidy top (p :: L)) (hse : s < e) (hS : S ≤ s) (hE : e ≤ E)
    (hin : p.lo ≤ s ∧ e ≤ p.hi) (ht : p.tag ≠ round) : p.lo = s := by
  by_contra hne
  have hlt : p.lo < s := lt_of_le_of_ne hin.1 hne
  obtain ⟨V, hv, hV⟩ : ∃ V, visit base round p s e = (p :: V, s, s) ∧ ∀ b ∈ V, b.lo = s := by
    rw [visit, if_pos hin, if_neg ht, if_pos hlt]
    split_ifs
    · exact ⟨[⟨s, e, round⟩, ⟨s, e, p.tag⟩], rfl, by simp⟩
    · exact ⟨[⟨s, e, round⟩], rfl, by simp⟩
  rw [walk_stop base round (by rw [hv]), hv, chainOf, if_pos rfl, List.cons_append] at h
  apply ht
  apply h.tag_eq (x := s) ⟨hin.1, hse.trans_le hin.2⟩ hS (hse.trans_le hE)
  · exact ⟨s, ⟨hin.1, hse.trans_le hin.2⟩, hf.range s le_rfl hse⟩
  · intro b hb
    refine ⟨p.lo, ⟨le_rfl, by omega⟩, ?_⟩
    rcases List.mem_append.mp hb with hb | hb
    · have := hV b hb
      unfold Has
      omega
    · exact ((Tidy.cons_iff.mp hM).1.2.2 b hb).not_has ⟨le_rfl, by omega⟩

theorem Right.hi_eq (h : Right round (chainOf round done (walk base round (p :: L) s e)) S E)
    (hf : Front done (p :: L) s e) (hM : Tidy top (p :: L)) (hse : s < e) (hS : S ≤ s) (hE : e ≤ E)
    (hlo : p.lo = s) (hhi : e ≤ p.hi) (ht : p.tag ≠ round) : p.hi = e := by
  by_contra hne
  have hlt : e < p.hi := lt_of_le_of_ne hhi (Ne.symm hne)
  have hpL := (Tidy.cons_iff.mp hM).1.2.2
  have hv : visit base round p s e = ([p, ⟨e, p.hi, p.tag⟩], s, e) := by
    rw [visit, if_pos ⟨hlo.le, hhi⟩, if_neg ht, if_neg (by omega), if_pos hlt]
  have hrest : walk base round L s e = (L, s, e) := by
    refine walk_apart base round hse fun b hb => ⟨hM.proper b (by simp [hb]), ?_⟩
    have := hpL b hb
    unfold Apart at this
    omega
  rw [walk_step base round (by rw [hv]; exact hse.ne), hv] at h
  simp only [hrest] at h
  obtain ⟨A, B, hAB, hA, hB⟩ := chainOf_mid round done
    (w := ([p, ⟨e, p.hi, p.tag⟩] ++ L, s, e)) (K := [p]) (B := ⟨e, p.hi, p.tag⟩ :: L) rfl (by simp)
    (by intro _ b hb; obtain rfl := List.mem_singleton.mp hb; simp only; omega)
  rw [hAB] at h
  apply ht
  apply h.tag_eq (x := s) ⟨hlo.le, by omega⟩ hS (hse.trans_le hE)
  · refine ⟨e, ⟨by omega, hlt⟩, ?_⟩
    rintro ⟨b, hb, hxb⟩
    rcases hA b hb with ⟨rfl, -⟩ | hb
    · exact absurd hxb.2 (lt_irrefl e)
    · exact hf.far p (by simp) s e ⟨hlo.le, by omega⟩ le_rfl hse ⟨by omega, hlt⟩ ⟨b, hb, hxb⟩
  · have hmem : ∀ b ∈ B, b = ⟨s, e, round⟩ ∨ b = ⟨e, p.hi, p.tag⟩ ∨ b ∈ L := by
      intro b hb
      exact (hB.of_mem hb).imp_right List.mem_cons.mp
    intro b hb
    rcases hmem b hb with rfl | rfl | hb
    · exact ⟨e, ⟨by omega, hlt⟩, fun hx => absurd hx.2 (lt_irrefl e)⟩
    · refine ⟨s, ⟨hlo.le, by omega⟩, fun hx => ?_⟩
      have : e ≤ s := hx.1
      omega
    · exact ⟨s, ⟨hlo.le, by omega⟩, (hpL b hb).not_has ⟨hlo.le, by omega⟩⟩

/-- A block that is just the range stands in the chain twice, and nothing but the merge with the copy
right behind it can have mended that. -/
theorem Right.copyDropped (h : Right round (place ⟨s, e, round⟩ (done ++ ⟨s, e, round⟩ :: L)) S E)
    (hf : Front done (p :: L) s e) (hM : Tidy top (p :: L)) (hse : s < e) (hlo : p.lo = s)
    (hhi : p.hi = e) : CopyDropped round done L s e := by
  have hpL := (Tidy.cons_iff.mp hM).1.2.2
  have hdone : ∀ b ∈ done, b.lo < b.hi := fun b hb =>
    h.proper b ((place_perm _ _).mem_iff.mpr (by simp [hb]))
  -- the copy has not been put further in front
  have h1 : ∀ b ∈ done.tail, b.lo < e := by
    by_contra hcon
    push Not at hcon
    cases done with
    | nil => simp at hcon
    | cons d done =>
      rw [List.tail_cons] at hcon
      obtain ⟨K₁, c, K₂, hc, hput⟩ := putBefore_later (t := ⟨s, e, round⟩) hcon
      have hC : place ⟨s, e, round⟩ (d :: done ++ ⟨s, e, round⟩ :: L) =
          (d :: K₁) ++ ⟨s, e, round⟩ :: c :: (K₂ ++ ⟨s, e, round⟩ :: L) := by
        rw [List.cons_append, place, hput]
        rfl
      rw [hC] at h
      obtain ⟨a, ha1, ha2, -, ha4⟩ := h.mends.at fun b hb => h.proper b (List.mem_append_left _ hb)
      have := ha4.twin (p := ⟨s, e, round⟩)
        (fun b hb => h.proper b (List.mem_append_right _ (List.mem_cons_of_mem _ hb))) (by simp) ha1
        ha2.symm
      simp only at ha1 hc
      omega
  rw [place_behind h1 hse] at h
  -- what comes behind the block is no block of the chain
  have hbehind : ∀ a : Stretch U32, a.lo ≤ s → a.hi = e →
      Mends laterRound a (putBefore ⟨s, e, round⟩ L) → (∀ b ∈ L.head?, e ≤ b.lo) ∧ a.lo = s := by
    intro a ha1 ha2 hmends
    have hproper : ∀ b ∈ putBefore ⟨s, e, round⟩ L, b.lo < b.hi := fun b hb =>
      h.proper b (List.mem_append_right _ (List.mem_cons_of_mem _ hb))
    have hmem : (⟨s, e, round⟩ : Stretch U32) ∈ putBefore ⟨s, e, round⟩ L :=
      (putBefore_perm _ _).mem_iff.mpr (by simp)
    cases L with
    | nil =>
      have := hmends.twin hproper hmem ha1 ha2.symm
      exact ⟨by simp, this.1.symm⟩
    | cons b L =>
      have hb := hpL b (by simp)
      have hbp := hM.proper b (by simp)
      unfold Apart at hb
      rw [putBefore] at hmends hproper hmem
      split_ifs at hmends hproper hmem with hle
      · have := hmends.twin hproper hmem ha1 ha2.symm
        exact ⟨by simpa using hle, this.1.symm⟩
      · have := hmends.twin hproper hmem ha1 ha2.symm
        omega
  obtain ⟨a, ha1, ha2, -, ha4⟩ := h.mends.at hdone
  refine ⟨h1, (hbehind a ha1 ha2 ha4).1, fun z hz hcon => ?_⟩
  -- the block has not been joined to the one in front
  obtain ⟨done', rfl⟩ : ∃ done', done = done' ++ [z] :=
    ⟨done.dropLast, (List.dropLast_append_getLast? z hz).symm⟩
  have hprev := hf.prev z hz hcon.1
  rw [List.dropLast_concat] at hprev
  rw [List.append_assoc, List.singleton_append] at h
  obtain ⟨a', hz1, hz2, hz3, hz4⟩ := h.mends.at fun b hb => hdone b (by simp [hb])
  have hzp := hdone z (by simp)
  rw [Mends, if_pos ⟨hz2.trans hcon.1, (hz3 hprev).trans hcon.2⟩] at hz4
  have := (hbehind { a' with hi := e } (by simp only; omega) rfl hz4).2
  simp only at this
  omega

theorem Right.tag_alone (W₁ : List (Stretch U32)) {W₂ : List (Stretch U32)} {m : Nat × Nat}
    (h : Right round (chainOf round done (W₁ ++ p :: W₂, m)) S E) (hx : p.Has x) (hS : S ≤ x)
    (hE : x < E) (hfront : ¬ Covers (done ++ W₁) x) (hbehind : ¬ Covers W₂ x) (hm : m.1 ≤ m.2)
    (hrest : x < m.1) : p.tag = round := by
  have hchain : chainOf round done (W₁ ++ p :: W₂, m) = chainOf round (done ++ W₁) (p :: W₂, m) := by
    simp only [chainOf, List.append_assoc]
  have hnot : ¬ Has ⟨m.1, m.2, round⟩ x := fun hx => absurd hx.1 (Nat.not_le.mpr hrest)
  obtain ⟨A, B, hAB, hA, hB⟩ := chainOf_mid round (done ++ W₁) (w := (p :: W₂, m)) (K := [p]) (B := W₂)
    rfl (by simp) (by
      intro _ b hb
      obtain rfl := List.mem_singleton.mp hb
      exact hx.1.trans_lt (hrest.trans_le hm))
  rw [hchain, hAB] at h
  apply h.tag_eq hx hS hE
  · refine ⟨x, hx, ?_⟩
    rintro ⟨b, hb, hxb⟩
    rcases hA b hb with ⟨rfl, -⟩ | hb
    · exact hnot hxb
    · exact hfront ⟨b, hb, hxb⟩
  · intro b hb
    refine ⟨x, hx, fun hxb => ?_⟩
    rcases hB.of_mem hb with rfl | hb
    · exact hnot hxb
    · exact hbehind ⟨b, hb, hxb⟩

/-! ### A block in what is left -/

section Over

variable (hf : Front done (p :: L) s e) (hM : Tidy top (p :: L)) (hS : S ≤ s) (hE : e ≤ E)
  (hlo : s ≤ p.lo) (hhi : p.hi ≤ e)

include hf hM hS hE hlo hhi

theorem Right.recorded (h : Right round (chainOf round done
      ([p] ++ (walkOn base round L p.hi e).1, (walkOn base round L p.hi e).2)) S E) :
    p.tag = round ∧ ∀ x, s ≤ x → x < p.lo → Gives L x round := by
  obtain ⟨⟨hp, -, hpL⟩, hL⟩ := Tidy.cons_iff.mp hM
  obtain ⟨h1, h2, h3, h4⟩ := walkOn_spec base round hL.proper hhi
  have hcov : ∀ x, x < p.hi → Covers (walkOn base round L p.hi e).1 x → Covers L x := by
    intro x hx hcov
    exact (h4 x hcov).resolve_right (by omega)
  constructor
  · have hplo : p.Has p.lo := ⟨le_rfl, hp⟩
    apply Right.tag_alone [] h hplo (hS.trans hlo) (by omega) _ _ h2 (by omega)
    · simpa using hf.range p.lo hlo (by omega)
    · intro hcon
      obtain ⟨b, hb, hxb⟩ := hcov _ hp hcon
      exact (hpL b hb).not_has hplo hxb
  · intro x hx1 hx2
    have hxp : ¬ p.Has x := fun hx => absurd hx.1 (Nat.not_le.mpr hx2)
    have hxdone : ¬ Covers done x := hf.range x hx1 (by omega)
    -- the gap has been filled by blocks further on, which the walk does not change
    have hcover : Covers L x := by
      rcases covers_of_chainOf (h.all x (hS.trans hx1) (by omega)) with hx | hx | hx
      · exact absurd hx hxdone
      · rcases covers_cons.mp hx with hx | hx
        · exact absurd hx hxp
        · exact hcov x (by omega) hx
      · simp only at hx
        omega
    obtain ⟨b, hb, hxb⟩ := hcover
    refine ⟨b, hb, hxb, ?_⟩
    have hbp : b.hi ≤ p.hi := by
      have := hpL b hb
      unfold Apart Has at *
      omega
    obtain ⟨L₁, L₂, rfl⟩ := List.append_of_mem hb
    obtain ⟨X₁, X₂, hX, hX₁, hX₂⟩ := walkOn_split (b := b) base round hL.proper hhi (.inr hbp)
    obtain ⟨-, hright, hleft⟩ := List.pairwise_append.mp hL.apart
    rw [hX, ← List.append_assoc] at h
    apply h.tag_alone ([p] ++ X₁) hxb (hS.trans hx1) (by omega) _ _ h2 (by omega)
    · rw [covers_append, covers_append, not_or, not_or]
      refine ⟨hxdone, by simpa using hxp, fun hcon => ?_⟩
      obtain ⟨c, hc, hxc⟩ := (hX₁ x hcon).resolve_right (by omega)
      exact (hleft c hc b (by simp)).not_has hxc hxb
    · intro hcon
      obtain ⟨c, hc, hxc⟩ := (hX₂ x hcon).resolve_right (by omega)
      exact ((List.pairwise_cons.mp hright).1 c hc).not_has hxb hxc

omit hf hS hE hlo in
theorem gap_overlap {b : Stretch U32} {B : List (Stretch U32)} (hlt : s < p.lo)
    (hB : WithRest round (walkOn base round L p.hi e) B) (hBproper : ∀ b ∈ B, b.lo < b.hi)
    (hmends : Mends laterRound ⟨s, p.lo, round⟩ B) (hb : b ∈ L) (hov : ¬ Apart ⟨s, p.lo, round⟩ b) :
    (b.lo = s ∧ b.hi = p.lo) ∧ ∃ L', L = b :: L' := by
  obtain ⟨⟨hp, -, hpL⟩, hL⟩ := Tidy.cons_iff.mp hM
  obtain ⟨h1, -, -, -⟩ := walkOn_spec base round hL.proper hhi
  have hbp := hpL b hb
  have hbproper := hL.proper b hb
  have hbhi : b.hi ≤ p.lo := by
    unfold Apart at hbp hov
    simp only at hov
    omega
  have hbB : b ∈ B := by
    obtain ⟨L₁, L₂, rfl⟩ := List.append_of_mem hb
    obtain ⟨X₁, X₂, hX, -⟩ :=
      walkOn_split (b := b) base round hL.proper hhi (.inr (hbhi.trans hp.le))
    apply hB.mem
    rw [hX]
    simp
  have hsame : b.lo = s ∧ b.hi = p.lo := by
    obtain ⟨hlo', hhi'⟩ := hmends.overlap hBproper hbB hov
    exact ⟨hlo', Nat.le_antisymm hbhi hhi'⟩
  refine ⟨hsame, ?_⟩
  -- the next block starts with the gap, so it can only be this one
  obtain ⟨l, L, rfl⟩ := List.exists_cons_of_ne_nil (List.ne_nil_of_mem hb)
  have hl : l.lo = s := by
    obtain ⟨c, V, hV, hc⟩ := walkOn_head base round l L p.hi e
    obtain ⟨q, Q, rfl⟩ := List.exists_cons_of_ne_nil (List.ne_nil_of_mem hbB)
    have hq := (hmends.twin hBproper hbB hsame.1.ge hsame.2).1
    rw [← Prod.eta (walkOn base round (l :: L) p.hi e), hV] at hB
    rcases hB.head with rfl | rfl
    · simp only at hq
      omega
    · exact hc.symm.trans hq
  rcases List.mem_cons.mp hb with rfl | hb'
  · exact ⟨L, rfl⟩
  · have := (Tidy.cons_iff.mp hL).1.2.2 b hb'
    have hlp := hL.proper l (by simp)
    unfold Apart at this
    omega

omit hf hlo in
theorem Right.gap (hlt : s < p.lo) (h : Right round (chainOf round done
      ([{ p with tag := round }, ⟨s, p.lo, round⟩] ++ (walkOn base round L p.hi e).1,
        (walkOn base round L p.hi e).2)) S E) :
    (∀ b ∈ L, Apart ⟨s, p.lo, round⟩ b) ∨
      ∃ b ∈ L.head?, b.lo = s ∧ b.hi = p.lo ∧ laterRound round b.tag = round := by
  obtain ⟨⟨hp, -, -⟩, hL⟩ := Tidy.cons_iff.mp hM
  obtain ⟨h1, h2, -, -⟩ := walkOn_spec base round hL.proper hhi
  obtain ⟨A, B, hAB, -, hB⟩ := chainOf_mid round done
    (w := ([{ p with tag := round }, ⟨s, p.lo, round⟩] ++ (walkOn base round L p.hi e).1,
      (walkOn base round L p.hi e).2)) (K := [{ p with tag := round }, ⟨s, p.lo, round⟩]) rfl
    (by simp) (by
      intro _ b hb
      simp only [List.mem_cons, List.not_mem_nil, or_false] at hb
      rcases hb with rfl | rfl <;> simp only <;> omega)
  rw [hAB] at h
  have hproper : ∀ b ∈ A, b.lo < b.hi := fun b hb => h.proper b (by simp [hb])
  have hBproper : ∀ b ∈ B, b.lo < b.hi := fun b hb => h.proper b (by simp [hb])
  have hends : p.hi ≠ s ∧ p.hi ≠ p.lo := by omega
  obtain ⟨-, hmends⟩ := MendsAll.next h.mends hproper hends.1 hends.2
  rw [or_iff_not_imp_left]
  intro hcon
  push Not at hcon
  obtain ⟨b, hb, hov⟩ := hcon
  obtain ⟨hsame, L, rfl⟩ := gap_overlap hM hhi hlt hB hBproper hmends hb hov
  refine ⟨b, rfl, hsame.1, hsame.2, ?_⟩
  -- merging leaves the later of the two rounds, and nothing behind changes it any more
  obtain ⟨⟨hbp, -, hbL⟩, hL'⟩ := Tidy.cons_iff.mp hL
  obtain ⟨-, -, -, h4⟩ := walkOn_spec base round hL'.proper hhi
  rw [walkOn_cons_apart base round hbp hhi (.inr (by omega))] at h1 h2 hB
  obtain ⟨B, rfl, hB'⟩ := hB.cons (by simp only at h1 h2 ⊢; omega)
  have hfar : ∀ d ∈ B, ¬ d.Has s := by
    intro d hd hsd
    rcases hB'.of_mem hd with rfl | hd
    · have := hsd.1
      simp only at h1 this
      omega
    · obtain ⟨c, hc, hsc⟩ := (h4 s ⟨d, hd, hsd⟩).resolve_right (by omega)
      exact (hbL c hc).not_has ⟨hsame.1.le, by omega⟩ hsc
  have hsE : s < E := by omega
  exact Right.tag_twice h hends.1 hends.2 ⟨hsame.1.symm, hsame.2.symm⟩ ⟨le_rfl, hlt⟩ hS hsE hfar

end Over

/-! ### The whole walk -/

theorem chainOf_append (round : U32) (done V : List (Stretch U32))
    (w : List (Stretch U32) × Nat × Nat) :
    chainOf round done (V ++ w.1, w.2) = chainOf round (done ++ V) w := by
  simp only [chainOf, List.append_assoc]

theorem Right.inside (h : Right round (chainOf round done (walk base round (p :: L) s e)) S E)
    (hf : Front done (p :: L) s e) (hM : Tidy top (p :: L)) (hse : s < e) (hS : S ≤ s) (hE : e ≤ E)
    (hin : p.lo ≤ s ∧ e ≤ p.hi) (ht : p.tag ≠ round) :
    p.lo = s ∧ p.hi = e ∧ CopyDropped round done L s e := by
  have hlo : p.lo = s := h.lo_eq hf hM hse hS hE hin ht
  have hhi : p.hi = e := h.hi_eq hf hM hse hS hE hlo hin.2 ht
  refine ⟨hlo, hhi, ?_⟩
  have hv : visit base round p s e = ([⟨s, e, round⟩], s, e) := by
    rw [visit, if_pos hin, if_neg ht, if_neg (by omega), if_neg (by omega), hlo, hhi]
  have hrest : walk base round L s e = (L, s, e) := by
    refine walk_apart base round hse fun b hb => ⟨hM.proper b (by simp [hb]), ?_⟩
    have := (Tidy.cons_iff.mp hM).1.2.2 b hb
    unfold Apart at this
    omega
  rw [walk_step base round (by rw [hv]; exact hse.ne), hv] at h
  simp only [hrest, chainOf, if_neg hse.ne] at h
  exact h.copyDropped hf hM hse hlo hhi

theorem Front.side (base round : U32) (hf : Front done (p :: L) s e) (hM : Tidy top (p :: L))
    (hse : s < e) (hin : ¬ (p.lo ≤ s ∧ e ≤ p.hi)) (hover : ¬ (s ≤ p.lo ∧ p.hi ≤ e)) :
    ∃ V s' e', visit base round p s e = (V, s', e') ∧ s ≤ s' ∧ s' < e' ∧ e' ≤ e ∧
      Front (done ++ V) L s' e' := by
  have hp := hM.proper p (by simp)
  by_cases hapart : e ≤ p.lo ∨ p.hi ≤ s
  · refine ⟨_, _, _, visit_apart base round hp hse hapart, le_rfl, hse, le_rfl, ?_⟩
    apply hf.one hM le_rfl (.inl rfl) _ hse (fun _ h => absurd h (lt_irrefl s))
    intro x hx1 hx2 hx
    unfold Has at hx
    omega
  by_cases hleft : s < p.lo
  · have hlo : p.lo < e := by omega
    have hhi : e < p.hi := by omega
    refine ⟨_, _, _, visit_left base round hleft hlo hhi, le_rfl, hleft, hlo.le, ?_⟩
    split_ifs
    · apply hf.one hM hlo.le (.inl rfl) _ hse (fun _ h => absurd h (lt_irrefl s))
      intro x hx1 hx2 hx
      exact absurd hx.1 (Nat.not_le.mpr hx2)
    apply hf.step hM (by simp) hlo.le (.inl rfl)
    · intro x hx1 hx2
      simp only [covers_cons, covers_nil, or_false, Has]
      omega
    · intro x hx
      simp only [covers_cons, covers_nil, or_false, Has] at hx ⊢
      omega
    · rintro z ⟨⟩ hz
      have hz' : p.hi = s := hz
      omega
  · have hlo : p.lo < s := by omega
    have hs : s < p.hi := by omega
    have hhi : p.hi < e := by omega
    refine ⟨_, _, _, visit_right base round hlo hs hhi, hs.le, hhi, le_rfl, ?_⟩
    split_ifs
    · apply hf.one hM le_rfl (.inr ⟨hs, rfl⟩) _ hse (fun _ _ => hlo.trans hse)
      intro x hx1 hx2 hx
      exact absurd hx.2 (Nat.not_lt.mpr hx1)
    apply hf.step hM (by simp) le_rfl (.inr ⟨hs, rfl⟩)
    · intro x hx1 hx2
      simp only [covers_cons, covers_nil, or_false, Has]
      omega
    · intro x hx
      simp only [covers_cons, covers_nil, or_false, Has] at hx ⊢
      omega
    · rintro z ⟨⟩ -
      refine ⟨s, ⟨le_rfl, hs⟩, ?_⟩
      rw [covers_append, not_or]
      refine ⟨hf.range s le_rfl hse, ?_⟩
      simp [Has]

theorem Front.gap (hf : Front done (p :: L) s e) (hM : Tidy top (p :: L)) (hlt : s < p.lo)
    (round : U32) :
    Front (done ++ [{ p with tag := round }, ⟨s, p.lo, round⟩]) L p.hi e := by
  have hp := hM.proper p (by simp)
  apply hf.step hM (by simp) le_rfl (.inr ⟨hlt.trans hp, rfl⟩)
  · intro x hx1 _
    simp only [covers_cons, covers_nil, or_false, Has]
    omega
  · intro x hx
    simp only [covers_cons, covers_nil, or_false, Has, and_true] at hx ⊢
    omega
  · rintro z ⟨⟩ hz
    have hz' : p.lo = p.hi := hz
    omega

theorem Right.handled (h : Right round (chainOf round done (walk base round L s e)) S E)
    (hf : Front done L s e) (hL : Tidy top L) (hse : s < e) (hS : S ≤ s) (hE : e ≤ E) :
    Handled base round done L s e := by
  induction L generalizing done s e with
  | nil => trivial
  | cons p L ih =>
    obtain ⟨⟨hp, -, hpL⟩, hL'⟩ := Tidy.cons_iff.mp hL
    by_cases hin : p.lo ≤ s ∧ e ≤ p.hi
    · simp only [Handled, if_pos hin]
      exact or_iff_not_imp_left.mpr fun ht => h.inside hf hL hse hS hE hin ht
    by_cases hover : s ≤ p.lo ∧ p.hi ≤ e
    · simp only [Handled, if_neg hin, if_pos hover, visit_over base round hin hover]
      rw [walk_over base round hin hover] at h
      -- the rest of the walk, if anything is left
      have hnext : ∀ V, Right round (chainOf round done (V ++ (walkOn base round L p.hi e).1,
            (walkOn base round L p.hi e).2)) S E → Front (done ++ V) L p.hi e →
          p.hi = e ∨ Handled base round (done ++ V) L p.hi e := by
        intro V hR hF
        rw [or_iff_not_imp_left]
        intro hpe
        rw [chainOf_append, walkOn, if_neg hpe] at hR
        exact ih hR hF hL' (lt_of_le_of_ne hover.2 hpe) (by omega) hE
      unfold GapHandled
      split_ifs at h ⊢ with hplain
      · have hlt : s < p.lo := lt_of_seqAt hover.1 hplain
        refine ⟨h.gap hL hS hE hover.2 hlt, hnext _ h (hf.gap hL hlt round)⟩
      · refine ⟨h.recorded hf hL hS hE hover.1 hover.2, hnext _ h ?_⟩
        apply hf.one hL le_rfl (.inr ⟨by omega, rfl⟩) _ hse (fun _ _ => by omega)
        intro x hx1 _ hx
        exact absurd hx.2 (Nat.not_lt.mpr hx1)
    · simp only [Handled, if_neg hin, if_neg hover]
      obtain ⟨V, s', e', hv, h1, h2, h3, hf'⟩ := hf.side base round hL hse hin hover
      rw [walk_step base round (by rw [hv]; exact h2.ne), chainOf_append, hv] at h
      rw [hv]
      exact ih h hf' hL' h2 (hS.trans h1) (h3.trans hE)

theorem spread_proper (base round : U32) (hL : ∀ b ∈ L, b.lo < b.hi) (hse : s < e) :
    ∀ b ∈ spread base round L s e, b.lo < b.hi := by
  obtain ⟨-, h2, -, h4, -⟩ := walk_spec base round hL hse
  intro b hb
  unfold spread at hb
  dsimp only at hb
  split_ifs at hb with hne
  · exact h4 b hb
  · rcases List.mem_cons.mp ((place_perm _ _).mem_iff.mp hb) with rfl | hb
    · exact lt_of_le_of_ne h2 hne
    · exact h4 b hb

theorem Updates.right (hup : Updates round L (addStretches base round L s e) s e)
    (htidy : Tidy top (addStretches base round L s e)) (hL : Tidy top L) (hse : s < e) :
    Right round (spread base round L s e) s e := by
  have hproper := spread_proper base round hL.proper hse
  have hglued : ∀ b ∈ glueAll laterRound (spread base round L s e), b.lo < b.hi :=
    glueAll_proper hproper
  obtain ⟨hsame, -, hapart⟩ := tuck_spec
    (f := (glueAll laterRound (spread base round L s e)).length + 1) hglued
  refine ⟨hproper, mendsAll_of_glueAll hproper (hapart htidy.apart), fun x r hx1 hx2 hx => ?_,
    fun x hx1 hx2 => ?_⟩
  · have := (hup x r).mp ((hsame x r).mpr hx)
    rwa [if_pos ⟨hx1, hx2⟩] at this
  · have hgives : Gives (addStretches base round L s e) x round :=
      (hup x round).mpr (by rw [if_pos ⟨hx1, hx2⟩])
    obtain ⟨b, hb, hxb, -⟩ := (hsame x round).mp hgives
    exact (glueAll_covers hproper x).mp ⟨b, hb, hxb⟩

/-- **Adding a range to a tidy chain updates its map** just if the walk gets every block right. -/
theorem updates_iff (hL : Tidy top L) (hse : s < e) (he : e ≤ top) :
    Tidy top (addStretches base round L s e) ∧ Updates round L (addStretches base round L s e) s e ↔
      Handled base round [] L s e := by
  refine ⟨fun ⟨htidy, hup⟩ => ?_, fun h => h.updates hL hse he⟩
  have hright : Right round (chainOf round [] (walk base round L s e)) s e := hup.right htidy hL hse
  exact hright.handled ⟨by simp, by simp, by simp, by simp⟩ hL hse le_rfl le_rfl

end Necessary

end LibvmaTlt.Lwip
