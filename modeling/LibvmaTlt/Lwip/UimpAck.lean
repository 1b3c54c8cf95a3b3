import LibvmaTlt.Lwip.UimpRep

/-!
# What an acknowledgement takes out of the queue of unimportant data

`tlt_in` removes the range `[0, ackno - iss)` from the queue. As long as everything lies in the first half
of the number space from `iss` on, that is the data acknowledged and nothing else: no block reaches below
position 0, so none is cut in two.
-/

namespace LibvmaTlt.Lwip

open UimpQueue Stretch

/-! ## Stretches added -/

section Add

variable {base round : U32} {q : UimpQueue} {L : List (Nat × Stretch U32)}

theorem Queue.inHalf (h : Queue base q L) : ∀ b ∈ L.map Prod.snd, InHalf b := by
  intro b hb
  obtain ⟨n, hn, rfl⟩ := List.mem_map.mp hb
  exact (slotAt_iff.mp (h.block n hn)).2

theorem Queue.blocks_eq (h : Queue base q L) : q.blocks = (L.map Prod.snd).map (blockOf base) := by
  rw [(Queue.toBlocks h).blocks_eq, List.map_map, List.map_map]
  rfl

theorem Queue.add {s e : Nat} (h : Queue base q L) (hrep : TltRep q) (hse : s < e) (he : e < 2 ^ 31) :
    ∃ L', L'.map Prod.snd = addStretches base round (L.map Prod.snd) s e ∧
      Queue base (tltSegmentAdd q (seqAt base s) (u32 (e - s)) round) L' := by
  obtain ⟨B, hB⟩ := hrep.cut
  obtain ⟨-, B', -, -, hB', hblocks, -, -⟩ := hB.blocks.add (seqAt base s) round hB.solid hB.inArray
    (u32_ne_zero (n := e - s) (by omega) (by omega))
  obtain ⟨hhalf, hadd⟩ := @addBlocks_eq base round _ s e h.inHalf hse he
  rw [← hB.blocks.blocks_eq, h.blocks_eq, hadd] at hB'
  exact hblocks.toQueue hB' hhalf

end Add

/-! ## The first positions -/

section Front

variable {base : U32} {q : UimpQueue} {k : Nat} {b : Stretch U32} {S : List (Stretch U32)}

theorem seqAt_zero_add (base : U32) (k : Nat) : seqAt base 0 + u32 k = seqAt base k := by
  rw [seqAt_add, Nat.zero_add]

theorem fate_front (hb : InHalf b) (hk : k < 2 ^ 31) :
    fate (seqAt base 0) (u32 k) 0xFFFFFFFF (blockOf base b) =
      if b.lo = 0 ∧ k ≤ b.hi then .inside
      else if b.hi ≤ k then .drop
      else if k ≤ b.lo then .keep
      else .trim (blockOf base { b with lo := k }) := by
  obtain ⟨h1, h2⟩ := hb
  have hstop := @blockOf_stop base b ⟨h1, h2⟩
  have hseq : (blockOf base b).seq = seqAt base b.lo := rfl
  unfold fate
  dsimp only
  rw [hstop, seqAt_zero_add, hseq]
  simp only [ne_eq, not_true_eq_false, false_and, if_false]
  by_cases hin : b.lo = 0 ∧ k ≤ b.hi
  · rw [if_pos hin, if_pos]
    rw [seqAt_leq (by omega) (by omega), seqAt_leq (by omega) (by omega)]
    omega
  rw [if_neg hin, if_neg (by rw [seqAt_leq (by omega) (by omega), seqAt_leq (by omega) (by omega)]; omega)]
  by_cases hdrop : b.hi ≤ k
  · rw [if_pos hdrop, if_pos]
    rw [seqAt_leq (by omega) (by omega), seqAt_leq (by omega) (by omega)]
    omega
  rw [if_neg hdrop,
    if_neg (by rw [seqAt_leq (by omega) (by omega), seqAt_leq (by omega) (by omega)]; omega)]
  by_cases hkeep : k ≤ b.lo
  · rw [if_pos hkeep, if_pos]
    rw [seqAt_leq (by omega) (by omega), seqAt_leq (by omega) (by omega)]
    omega
  rw [if_neg hkeep,
    if_neg (by rw [seqAt_leq (by omega) (by omega), seqAt_leq (by omega) (by omega)]; omega),
    if_neg (by rw [seqAt_leq (by omega) (by omega), seqAt_leq (by omega) (by omega)]; omega),
    if_pos (by rw [seqAt_leq (by omega) (by omega), seqAt_leq (by omega) (by omega)]; omega),
    seqAt_sub (by omega)]
  rfl

theorem insideBlocks_front (stale : U32) (hb : InHalf b) (h0 : b.lo = 0) (hk : k ≤ b.hi) :
    insideBlocks (seqAt base 0) (u32 k) stale (blockOf base b) = ((above k b).toList).map (blockOf base) := by
  obtain ⟨h1, h2⟩ := hb
  have hstop := @blockOf_stop base b ⟨h1, h2⟩
  have hseq : (blockOf base b).seq = seqAt base 0 := by rw [← h0]; rfl
  have hexact : seqAt base k = seqAt base b.hi ↔ k = b.hi := seqAt_inj (by omega) (by omega)
  unfold insideBlocks above
  rw [hstop, seqAt_zero_add, hseq]
  by_cases hall : k = b.hi
  · rw [if_pos ⟨rfl, hexact.mpr hall⟩, if_pos (by omega)]
    rfl
  rw [if_neg fun h => hall (hexact.mp h.2), if_pos rfl, if_neg (by omega)]
  have hlen : (blockOf base b).len - u32 k = u32 (b.hi - k) := by
    unfold blockOf
    rw [h0, Nat.sub_zero, u32_sub hk]
  have hmax : max b.lo k = k := by omega
  rw [hlen, hmax]
  rfl

theorem removeBlocks_front (stale : U32) (hk : k < 2 ^ 31) (hS : Tidy (2 ^ 31) S) (hin : ∀ b ∈ S, InHalf b) :
    removeBlocks (seqAt base 0) (u32 k) 0xFFFFFFFF stale (S.map (blockOf base)) =
      (S.filterMap (above k)).map (blockOf base) := by
  induction S with
  | nil => rfl
  | cons b S ih =>
    have hb := hin b (by simp)
    obtain ⟨⟨-, -, hap⟩, htidy⟩ := Tidy.cons_iff.mp hS
    have hrest := ih htidy fun c hc => hin c (by simp [hc])
    rw [List.map_cons, removeBlocks, fate_front hb hk, List.filterMap_cons]
    by_cases hinside : b.lo = 0 ∧ k ≤ b.hi
    · -- the other stretches start behind this one
      have hlater : S.filterMap (above k) = S := by
        refine filterMap_above_of_le fun c hc => ⟨?_, (hin c (by simp [hc])).1⟩
        have hc1 := hap c hc
        have hc2 := (hin c (by simp [hc])).1
        have hb1 := hb.1
        unfold Apart at hc1
        omega
      rw [if_pos hinside, insideBlocks_front stale hb hinside.1 hinside.2, hlater]
      cases above k b <;> rfl
    · rw [if_neg hinside]
      by_cases hdrop : b.hi ≤ k
      · rw [if_pos hdrop, above, if_pos hdrop]
        exact hrest
      rw [if_neg hdrop, above, if_neg hdrop]
      by_cases hkeep : k ≤ b.lo
      · rw [if_pos hkeep, Nat.max_eq_left hkeep]
        exact congrArg (blockOf base b :: ·) hrest
      · rw [if_neg hkeep, Nat.max_eq_right (by omega)]
        exact congrArg (blockOf base { b with lo := k } :: ·) hrest

theorem above_inHalf {c : Stretch U32} (hb : InHalf b) (h : above k b = some c) : InHalf c := by
  unfold above at h
  split at h
  · cases h
  · obtain rfl := Option.some.inj h
    unfold InHalf at hb ⊢
    simp only
    omega

theorem Queue.acked {L : List (Nat × Stretch U32)} (h : Queue base q L) (hrep : TltRep q)
    (ht : Tidy (2 ^ 31) (L.map Prod.snd)) (hk : k < 2 ^ 31) :
    ∃ L', Queue base (tltSegmentRemove q (seqAt base 0) (u32 k)) L' ∧
      L'.map Prod.snd = (L.map Prod.snd).filterMap (above k) := by
  have hin := h.inHalf
  obtain ⟨M, hM⟩ := hrep.cut
  have hblocks : M.map Prod.snd = (L.map Prod.snd).map (blockOf base) := by
    rw [← hM.blocks.blocks_eq, h.blocks_eq]
  obtain ⟨stale, M', hM', hB, -⟩ := hM.remove (seqAt base 0) (u32 k) 0xFFFFFFFF
  dsimp only at hM'
  rw [hblocks, removeBlocks_front stale hk ht hin] at hM'
  obtain ⟨L', hL', hQ⟩ := Blocks.toQueue hB hM' fun c hc => by
    obtain ⟨b, hb, hbc⟩ := List.mem_filterMap.mp hc
    exact above_inHalf (hin b hb) hbc
  exact ⟨L', hQ, hL'⟩

end Front

end LibvmaTlt.Lwip
