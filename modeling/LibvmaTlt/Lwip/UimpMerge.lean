import LibvmaTlt.Lwip.UimpBlocks

/-!
# What merging keeps of the queue

`tlt_segment_merge` joins neighbours that touch and drops doubles, and
`tlt_segment_rearrange_last_block` joins the last block to any it touches, again and again. On any chain
of blocks, overlapping or empty ones included, each sequence number keeps the largest round of the
blocks that cover it.
-/

namespace LibvmaTlt.Lwip

open UimpQueue

/-! ## Rounds -/

def UimpBlock.Covers (b : UimpBlock) (x : U32) : Prop := x - b.seq < b.len

instance (b : UimpBlock) (x : U32) : Decidable (b.Covers x) := inferInstanceAs (Decidable (_ < _))

def topRound (x : U32) : List UimpBlock → Option U32
  | [] => none
  | b :: L =>
    if b.Covers x then some ((topRound x L).elim b.round (laterRound b.round)) else topRound x L

/-- Some block that covers `x` is of round `r` or later. -/
def Reaches (L : List UimpBlock) (x r : U32) : Prop := ∃ b ∈ L, b.Covers x ∧ r ≤ b.round

def totalLen (L : List UimpBlock) : Nat := (L.map (·.len.toNat)).sum

section Rounds

variable {L L' S : List UimpBlock} {a b : UimpBlock} {x r : U32}

@[simp] theorem totalLen_cons : totalLen (b :: L) = b.len.toNat + totalLen L := by simp [totalLen]

@[simp] theorem reaches_cons : Reaches (b :: L) x r ↔ (b.Covers x ∧ r ≤ b.round) ∨ Reaches L x r := by
  simp [Reaches]

theorem le_laterRound (r' : U32) : r ≤ laterRound b.round r' ↔ r ≤ b.round ∨ r ≤ r' := by
  unfold laterRound
  split <;> bv_omega

theorem reaches_iff_topRound : Reaches L x r ↔ ∃ t ∈ topRound x L, r ≤ t := by
  induction L with
  | nil => simp [Reaches, topRound]
  | cons b L ih =>
    rw [reaches_cons, ih, topRound]
    split
    · rename_i hb
      cases topRound x L <;> simp [hb, le_laterRound]
    · rename_i hb
      simp [hb]

theorem topRound_eq (h : ∀ r, Reaches L x r ↔ Reaches L' x r) : topRound x L = topRound x L' := by
  simp only [reaches_iff_topRound] at h
  cases hL : topRound x L <;> cases hL' : topRound x L' <;>
    simp only [hL, hL', Option.mem_some_iff, exists_eq_left'] at h
  · rfl
  · rename_i t
    simpa using h t
  · rename_i s
    simpa using h s
  · rename_i s t
    rw [BitVec.le_antisymm ((h s).mp (BitVec.le_refl s)) ((h t).mpr (BitVec.le_refl t))]

/-- `S` covers what `L` covers, in rounds as late, and is not longer in all. -/
def SameRounds (L S : List UimpBlock) : Prop :=
  (∀ x r, Reaches S x r ↔ Reaches L x r) ∧ totalLen S ≤ totalLen L

namespace SameRounds

theorem refl (L : List UimpBlock) : SameRounds L L := ⟨fun _ _ => Iff.rfl, le_rfl⟩

theorem trans (h : SameRounds L L') (h' : SameRounds L' S) : SameRounds L S :=
  ⟨fun x r => (h'.1 x r).trans (h.1 x r), h'.2.trans h.2⟩

theorem cons (b : UimpBlock) (h : SameRounds L L') : SameRounds (b :: L) (b :: L') := by
  refine ⟨fun x r => ?_, by simpa using h.2⟩
  rw [reaches_cons, reaches_cons, h.1]

theorem of_perm (h : L.Perm L') : SameRounds L L' :=
  ⟨fun x r => by simp [Reaches, h.mem_iff], (h.map _).sum_eq.ge⟩

theorem join (hseq : a.seq + a.len = b.seq) (hround : a.round = b.round)
    (hlen : totalLen (a :: b :: L) < 2 ^ 32) :
    SameRounds (a :: b :: L) (⟨a.seq, a.len + b.len, a.round⟩ :: L) := by
  simp only [SameRounds, totalLen_cons, reaches_cons] at hlen ⊢
  refine ⟨fun x r => ?_, ?_⟩
  · have hcov : (UimpBlock.mk a.seq (a.len + b.len) a.round).Covers x ↔ a.Covers x ∨ b.Covers x := by
      unfold UimpBlock.Covers
      dsimp only
      rw [← hseq]
      bv_omega
    rw [hcov, ← hround, or_and_right, or_assoc]
  · rw [BitVec.toNat_add, Nat.mod_eq_of_lt (by omega)]
    omega

theorem double (hseq : a.seq = b.seq) (hlen : a.len = b.len) :
    SameRounds (a :: b :: L) ({ a with round := laterRound a.round b.round } :: L) := by
  simp only [SameRounds, totalLen_cons, reaches_cons, le_laterRound]
  refine ⟨fun x r => ?_, by omega⟩
  have hcov : b.Covers x ↔ a.Covers x := by rw [UimpBlock.Covers, ← hseq, ← hlen]; rfl
  rw [hcov, ← or_assoc, ← and_or_left]
  rfl

end SameRounds

end Rounds

/-! ## Merging -/

section Merge

variable {L S : List UimpBlock} {a l : UimpBlock}

theorem glueBlock_sameRounds (h : totalLen (a :: L) < 2 ^ 32) :
    SameRounds (a :: L) (glueBlock a L) := by
  fun_induction glueBlock a L with
  | case1 a => exact .refl _
  | case2 a b L hjoin ih =>
    have hk := SameRounds.join ((BitVec.add_comm ..).trans hjoin.1) hjoin.2 h
    exact hk.trans (ih (hk.2.trans_lt h))
  | case3 a b L _ hsame ih =>
    have hk := SameRounds.double (L := L) hsame.1 hsame.2
    exact hk.trans (ih (hk.2.trans_lt h))
  | case4 a b L _ _ ih =>
    refine SameRounds.cons a (ih ?_)
    rw [totalLen_cons] at h
    omega

theorem absorbBlock_sameRounds (h : absorbBlock l (L ++ [l]) = some S)
    (hlen : totalLen (L ++ [l]) < 2 ^ 32) :
    S.length = L.length + 1 ∧ SameRounds (L ++ [l]) S.dropLast := by
  induction L generalizing S with
  | nil =>
    -- the last block takes itself in only if it is empty
    by_cases hl : l.seq + l.len = l.seq
    · have hzero : ∀ x, ¬ l.Covers x := by
        intro x
        unfold UimpBlock.Covers
        bv_omega
      obtain rfl : [{ l with len := l.len + l.len }] = S := by simpa [absorbBlock, hl] using h
      simp [SameRounds, hzero, Reaches, totalLen]
    · simp [absorbBlock, hl] at h
  | cons c L ih =>
    have hpass : (absorbBlock l (L ++ [l])).map (c :: ·) = some S →
        S.length = (c :: L).length + 1 ∧ SameRounds (c :: L ++ [l]) S.dropLast := by
      intro hS
      obtain ⟨S', hS', rfl⟩ := Option.map_eq_some_iff.mp hS
      obtain ⟨hn, hk⟩ := ih hS' (by rw [List.cons_append, totalLen_cons] at hlen; omega)
      rw [List.dropLast_cons_of_ne_nil (List.ne_nil_of_length_eq_add_one hn)]
      exact ⟨by simp [hn], hk.cons c⟩
    have hback : (c :: L ++ [l]).Perm (c :: l :: L) := (List.perm_append_singleton l L).cons c
    have hfront := hback.trans (.swap l c L)
    rw [List.cons_append, absorbBlock] at h
    split_ifs at h with h1 h2 h3
    · exact hpass h
    · obtain rfl := Option.some.inj h
      have hk := SameRounds.of_perm hfront
      have hj := SameRounds.join h2 (not_not.mp h1).symm (hk.2.trans_lt hlen)
      rw [← not_not.mp h1] at hj
      refine ⟨by simp, ?_⟩
      rw [← List.cons_append, List.dropLast_concat]
      exact hk.trans hj
    · obtain rfl := Option.some.inj h
      have hk := SameRounds.of_perm hback
      have hj := SameRounds.join h3 (not_not.mp h1) (hk.2.trans_lt hlen)
      refine ⟨by simp, ?_⟩
      rw [← List.cons_append, List.dropLast_concat]
      exact hk.trans hj
    · exact hpass h

theorem tuckBlocks_sameRounds (f : Nat) (h : totalLen L < 2 ^ 32) : SameRounds L (tuckBlocks f L) := by
  induction f generalizing L with
  | zero => exact .refl L
  | succ f ih =>
    rw [tuckBlocks]
    split
    · exact .refl L
    · rcases List.eq_nil_or_concat L with rfl | ⟨L, l, rfl⟩
      · exact .refl []
      · rw [List.concat_eq_append] at *
        rw [List.getLast?_concat, Option.bind_some]
        cases hS : absorbBlock l (L ++ [l]) with
        | none => exact .refl _
        | some S =>
          have hk := (absorbBlock_sameRounds hS h).2
          exact hk.trans (ih (hk.2.trans_lt h))

end Merge

/-- **Merging keeps the largest round at every sequence number.** From any chain of blocks of less than
`2 ^ 32` bytes in all, `tlt_segment_merge` and then `tlt_segment_rearrange_last_block` leave a chain
counted by `uimp_queue_len`, with the other slots free, that covers each sequence number with the same
largest round, or not at all. Any depth of the recursion from the number of nodes on gives this result,
and the last call makes no further one. -/
theorem merged_rounds {q : UimpQueue} {L : List (Nat × UimpBlock)} (h : Blocks q L)
    (hempty : L = [] → (q.slot 0).next = none) (hlen : totalLen (L.map Prod.snd) < 2 ^ 32) :
    ∃ r P, (∀ f, (tltSegmentMerge q).len ≤ f →
        tltSegmentRearrangeLastBlock f (tltSegmentMerge q) = r) ∧ rearrangeCall r = none ∧
      Blocks r P ∧ cells P ⊆ cells L ∧ Kept (cells L) q r ∧
      ∀ x, topRound x (P.map Prod.snd) = topRound x (L.map Prod.snd) := by
  rcases eq_or_ne L [] with rfl | hL
  · have hstay : tltSegmentMerge q = q := if_neg fun hq => hq.2 (hempty rfl)
    have hcall : rearrangeCall q = none := by simp [rearrangeCall, hempty rfl]
    refine ⟨q, [], fun f _ => ?_, hcall, h, fun _ hc => hc, fun _ _ => rfl, fun _ => rfl⟩
    rw [hstay]
    cases f with
    | zero => rfl
    | succ f => rw [rearrange_succ, hcall, Option.elim_none]
  · obtain ⟨M, hM, hB, hMc, hMk, hne⟩ : ∃ M, SameRounds (L.map Prod.snd) (M.map Prod.snd) ∧
        Blocks (tltSegmentMerge q) M ∧ cells M ⊆ cells L ∧ Kept (cells L) q (tltSegmentMerge q) ∧
        M ≠ [] := by
      by_cases hhead : (q.slot 0).len = 0
      · have hstay : tltSegmentMerge q = q := if_neg fun hq => hq.1 hhead
        rw [hstay]
        exact ⟨L, .refl _, h, fun _ hc => hc, fun _ _ => rfl, hL⟩
      · obtain ⟨M, hM, hB, hne, hMc, hMk⟩ := h.merge (fun _ _ _ => hhead) hL
        obtain ⟨n, post, rfl⟩ := List.exists_cons_of_ne_nil hL
        exact ⟨M, hM ▸ glueBlock_sameRounds hlen, hB, hMc, hMk, hne⟩
    obtain ⟨r, hr, hall⟩ := hB.rearrange_ends hne
    obtain ⟨P, hP, hPB, hPc, hPk⟩ := hB.tucked hne (tltSegmentMerge q).len
    rw [hall _ le_rfl] at hPB hPk
    have hk := hM.trans (hP ▸ tuckBlocks_sameRounds _ (hM.2.trans_lt hlen))
    exact ⟨r, P, hall, hr, hPB, fun c hc => hMc (hPc hc), hMk.trans (hPk.mono hMc),
      fun x => topRound_eq (hk.1 x)⟩

def touchingBlocks : UimpQueue := ⟨fun i => [⟨10, 5, 1, some 1⟩, ⟨5, 5, 1, none⟩].getD i .zero, 2⟩

theorem merged_rounds_touching :
    ∃ r P, rearrangeCall r = none ∧ Blocks r P ∧ topRound 7 (P.map Prod.snd) = some 1 := by
  have h : Blocks touchingBlocks [(0, ⟨10, 5, 1⟩), (1, ⟨5, 5, 1⟩)] := by
    refine ⟨by simp [touchingBlocks], by decide, rfl, by decide, fun i hi => ?_⟩
    match i with
    | 0 | 1 => simp at hi
    | i + 2 => rfl
  obtain ⟨r, P, -, hr, hB, -, -, hx⟩ := merged_rounds h (by simp) (by decide)
  exact ⟨r, P, hr, hB, hx 7⟩

end LibvmaTlt.Lwip
