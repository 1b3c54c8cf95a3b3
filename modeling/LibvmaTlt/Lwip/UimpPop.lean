import LibvmaTlt.Lwip.UimpChain

/-!
# Taking the head out of the queue of unimportant data

`tlt_uimpq_pop` returns the front of the head block and removes it by `tlt_segment_remove_round`, which
leaves alone the blocks of rounds before the one it is given. `tcp_output` gives it `cur_round - 2`: the
blocks old enough to count as lost are just those that are not removed.
-/

namespace LibvmaTlt.Lwip

open UimpQueue Stretch Serial

/-! ## What the queue records -/

/-- The sequence number `x`, counted from `iss`, lies in the block. -/
def TltTransmitSegment.Holds (s : TltTransmitSegment) (x : U32) : Prop :=
  (x - s.seq).toNat < s.len.toNat

instance TltTransmitSegment.decidableHolds (s : TltTransmitSegment) (x : U32) : Decidable (s.Holds x) :=
  inferInstanceAs (Decidable (_ < _))

def Recorded (q : UimpQueue) (x r : U32) : Prop :=
  ∃ i, Linked q i ∧ (q.slot i).Holds x ∧ (q.slot i).round = r

/-- The slots are linked into a chain of blocks that do not overlap, in one half of the number space. -/
def WellLinked (q : UimpQueue) : Prop :=
  ∃ base L, Queue base q L ∧ Tidy (2 ^ 31) (L.map Prod.snd)

section Record

variable {base : U32} {q : UimpQueue} {L pre post suf : List (Nat × Stretch U32)}

theorem SlotAt.holds_iff {b : Stretch U32} {s : TltTransmitSegment} (h : SlotAt base b s) (x : U32) :
    s.Holds x ↔ b.Has (x - base).toNat := by
  have hproper := h.proper
  have hbelow := h.below
  have hx := (x - base).isLt
  have hsub : x - s.seq = (x - base) - u32 b.lo := by
    rw [h.seq, seqAt, BitVec.sub_sub]
  unfold TltTransmitSegment.Holds Has
  rw [hsub, h.len, BitVec.toNat_sub, u32, u32, BitVec.toNat_ofNat, BitVec.toNat_ofNat]
  omega

theorem Queue.linked_iff (h : Queue base q L) (i : Nat) : Linked q i ↔ i ∈ cells L :=
  Listed.linked_iff h (fun n hn => (h.block n hn).len_ne_zero) i

theorem Queue.recorded_iff (h : Queue base q L) (x r : U32) :
    Recorded q x r ↔ Gives (L.map Prod.snd) (x - base).toNat r := by
  constructor
  · rintro ⟨i, hi, hx, hr⟩
    obtain ⟨n, hn, rfl⟩ := List.mem_map.mp ((h.linked_iff i).mp hi)
    have hb := h.block n hn
    exact ⟨n.2, List.mem_map_of_mem hn, (hb.holds_iff x).mp hx, hb.round.symm.trans hr⟩
  · rintro ⟨b, hb, hx, ht⟩
    obtain ⟨n, hn, rfl⟩ := List.mem_map.mp hb
    have hb := h.block n hn
    exact ⟨n.1, (h.linked_iff n.1).mpr (mem_cells hn), (hb.holds_iff x).mpr hx, hb.round.trans ht⟩

end Record

/-! ## Removal at the head -/

section Remove

variable {base round : U32} {q : UimpQueue} {post : List (Nat × Stretch U32)} {p : Stretch U32}
  {s e : Nat}

theorem SlotAt.compare {b : Stretch U32} {t : TltTransmitSegment} (h : SlotAt base b t) (hse : s ≤ e)
    (he : e < 2 ^ 31) :
    seqAt base s + u32 (e - s) = seqAt base e ∧
      (TcpSeqLeq t.seq (seqAt base s) ↔ b.lo ≤ s) ∧ (TcpSeqLeq (seqAt base s) t.seq ↔ s ≤ b.lo) ∧
      (TcpSeqLeq (seqAt base e) t.seq ↔ e ≤ b.lo) ∧
      (TcpSeqLeq (seqAt base e) (t.seq + t.len) ↔ e ≤ b.hi) ∧
      (TcpSeqLeq (t.seq + t.len) (seqAt base e) ↔ b.hi ≤ e) ∧
      (TcpSeqLeq (t.seq + t.len) (seqAt base s) ↔ b.hi ≤ s) := by
  have hproper := h.proper
  have hbelow := h.below
  rw [h.stop, h.seq, seqAt_add, Nat.add_sub_cancel' hse]
  refine ⟨rfl, ?_, ?_, ?_, ?_, ?_, ?_⟩ <;> exact seqAt_leq (by omega) (by omega)

theorem SlotAt.removeInside_end {b : Stretch U32} {c : Nat} (h : SlotAt base b (q.slot c))
    (hs : b.hi = s) (pps : Option Nat) : tltRemoveInside q (seqAt base s) 0 pps c = q := by
  have hproper := h.proper
  have hbelow := h.below
  have hne : (q.slot c).seq ≠ seqAt base s := by
    rw [h.seq]
    exact fun heq => absurd ((seqAt_inj (by omega) (by omega)).mp heq) (by omega)
  have hlen : seqAt base s - (q.slot c).seq = (q.slot c).len := by
    rw [h.seq, h.len, seqAt_sub (by omega), hs]
  unfold tltRemoveInside
  simp only [hne, false_and, if_false, add_zero, h.stop, hs, if_true, hlen]
  exact congrArg (UimpQueue.mk · q.len) (Function.update_eq_self c q.slot)

theorem Queue.removeLoop_apart (round : U32) (hse : s ≤ e) (he : e < 2 ^ 31) :
    ∀ {suf pre : List (Nat × Stretch U32)}, Queue base q (pre ++ suf) →
      (∀ n ∈ suf, s < n.2.lo ∧ e ≤ n.2.lo ∨ n.2.hi ≤ s) → ∀ f pps,
      tltRemoveLoop (seqAt base s) (u32 (e - s)) round f q pps (cells suf).head? false = q := by
  intro suf
  induction suf with
  | nil =>
    intro pre _ _ f pps
    cases f <;> rfl
  | cons n suf ih =>
    obtain ⟨c, b⟩ := n
    intro pre h hap f pps
    cases f with
    | zero => rfl
    | succ f =>
      have hb := h.block_mid
      have hproper := hb.proper
      have hout : s < b.lo ∧ e ≤ b.lo ∨ b.hi ≤ s := hap (c, b) (by simp)
      obtain ⟨hend, h1, h2, h3, h4, h5, h6⟩ := hb.compare hse he
      have hrest := @ih (pre ++ [(c, b)]) (by simpa using h) (fun n hn => hap n (by simp [hn])) f
        (some c)
      rw [← h.next_eq] at hrest
      show tltRemoveLoop (seqAt base s) (u32 (e - s)) round (f + 1) q pps (some c) false = q
      simp only [tltRemoveLoop, hend, h1, h2, h3, h4, h5, h6, Bool.false_eq_true, false_and, if_false,
        hrest]
      by_cases hin : b.lo ≤ s ∧ e ≤ b.hi
      · -- the range is empty, and the block ends there
        have hempty : s = e := by omega
        rw [if_pos hin, ← hempty, Nat.sub_self]
        exact (congrArg (ite _ q) (hb.removeInside_end (by omega) pps)).trans (ite_self q)
      · rw [if_neg hin, if_neg (show ¬ (s ≤ b.lo ∧ b.hi ≤ e) by omega)]
        by_cases hleft : s ≤ b.lo ∧ e ≤ b.lo
        · rw [if_pos hleft, ite_self]
        · rw [if_neg hleft, if_pos (show b.hi ≤ s ∧ b.hi ≤ e by omega), ite_self]

/-- The stretches once the front of the head, up to `e`, is taken out. -/
def dropFront (p : Stretch U32) (post : List (Stretch U32)) (e : Nat) : List (Stretch U32) :=
  if e = p.hi then post else ⟨e, p.hi, p.tag⟩ :: post

theorem Queue.removeFront (h : Queue base q ((0, p) :: post)) (h1 : p.lo ≤ e) (h2 : e ≤ p.hi) :
    ∃ L, Queue base (tltRemoveInside q (seqAt base p.lo) (u32 (e - p.lo)) none 0) L ∧
      L.map Prod.snd = dropFront p (post.map Prod.snd) e := by
  have hb := h.block_head
  have hproper := hb.proper
  have hbelow := hb.below
  have hend : seqAt base p.lo + u32 (e - p.lo) = seqAt base e := by
    rw [seqAt_add, Nat.add_sub_cancel' h1]
  have hexact : seqAt base e = seqAt base p.lo + (q.slot 0).len ↔ e = p.hi := by
    rw [← hb.seq, hb.stop]
    exact seqAt_inj (by omega) (by omega)
  unfold tltRemoveInside dropFront
  simp only [hend, hb.seq, hexact, true_and, if_true]
  by_cases he : e = p.hi
  · rw [if_pos he, if_pos he]
    unfold tltUnlink
    cases post with
    | nil =>
      refine ⟨[], ?_, rfl⟩
      rw [h.next_head]
      refine ⟨by simp, by simp, by simp [h.len], by simp, ?_⟩
      intro i _
      by_cases hi : i = 0
      · rw [hi]
        simp [TltTransmitSegment.zero]
      · have hfree := h.free i (by simpa using hi)
        simpa [hi] using hfree
    | cons n post =>
      obtain ⟨d, y⟩ := n
      refine ⟨(0, y) :: post, ?_, rfl⟩
      have hy := @Listed.block_mid _ _ q [(0, p)] post d y h
      have hd : (0 : Nat) ≠ d := (@Listed.ne_mid _ _ q [(0, p)] post d y h).1 0 (by simp)
      rw [h.next_head]
      refine @Listed.drop _ _ q _ [] post 0 d p y y h ?_ ?_ ?_ ?_ ?_
      · exact (hy.congr (by simp [hd]) (by simp [hd]) (by simp [hd]))
      · simp [hd]
      · simp
      · simp
      · intro j hj hjd
        simp [hj, hjd]
  · rw [if_neg he, if_neg he]
    refine ⟨(0, ⟨e, p.hi, p.tag⟩) :: post, ?_, rfl⟩
    refine @Listed.change _ _ q _ [] post 0 p ⟨e, p.hi, p.tag⟩ h ?_ (by simp) rfl ?_
    · rw [set_slot_self]
      refine ⟨rfl, ?_, hb.round, by simp only; omega, hbelow⟩
      simp only [hb.len]
      rw [u32_sub (by omega)]
      congr 1
      omega
    · intro i hi
      simp [hi]

theorem gives_dropFront {P : List (Stretch U32)} (y : Nat) (r : U32) :
    Gives (dropFront p P e) y r ↔ (e ≤ y ∧ y < p.hi ∧ p.tag = r) ∨ Gives P y r := by
  unfold dropFront
  split
  · constructor
    · exact .inr
    · rintro (h | h)
      · omega
      · exact h
  · rw [gives_cons, Has, and_assoc]

def LooksAt (round r : U32) : Prop := round = 0xFFFFFFFF ∨ round ≤ r

instance (round r : U32) : Decidable (LooksAt round r) := inferInstanceAs (Decidable (_ ∨ _))

theorem not_looksAt_iff {round r : U32} : ¬ LooksAt round r ↔ round ≠ 0xFFFFFFFF ∧ round > r := by
  unfold LooksAt
  rw [not_or, BitVec.not_le]

/-- **The removal of the front of the head block** takes it out, or does nothing if the round of the
head is not looked at. -/
theorem Queue.removeHead (round : U32) (h : Queue base q ((0, p) :: post))
    (ht : Tidy (2 ^ 31) (p :: post.map Prod.snd)) (h1 : p.lo ≤ e) (h2 : e ≤ p.hi) :
    tltSegmentRemoveRound q (seqAt base p.lo) (u32 (e - p.lo)) round =
      if LooksAt round p.tag then tltRemoveInside q (seqAt base p.lo) (u32 (e - p.lo)) none 0
      else q := by
  have hb := h.block_head
  have hbelow := hb.below
  obtain ⟨hend, hle, -, -, hin, -, -⟩ := hb.compare h1 (by omega)
  unfold tltSegmentRemoveRound
  rw [if_pos hb.len_ne_zero]
  simp only [tltRemoveLoop, hend, hle, hin, Bool.false_eq_true, false_and, if_false, hb.round,
    ← not_looksAt_iff]
  by_cases hlook : LooksAt round p.tag
  · rw [if_neg (not_not.mpr hlook), if_pos ⟨le_rfl, h2⟩, if_pos hlook]
  rw [if_pos hlook, if_neg hlook, h.next_head]
  refine @removeLoop_apart base q p.lo e round h1 (by omega) post [(0, p)] h ?_ _ (some 0)
  intro n hn
  have hproper := hb.proper
  have hap := (Tidy.cons_iff.mp ht).1.2.2 n.2 (List.mem_map_of_mem hn)
  unfold Apart at hap
  omega

end Remove

/-! ## Pop -/

def Shown (t : TltParam) (maxLen x : U32) : Prop :=
  (x - (tltUimpqPeek t maxLen).1).toNat < (tltUimpqPeek t maxLen).2.toNat

def TltParam.forcePop (t : TltParam) (maxLen : U32) : TltParam :=
  tltUimpqPop t maxLen (t.curRound - 2)

/-- The pop returns the front of the head block and takes just that out of the record, so a pop after it
returns none of these bytes. -/
structure PopsFront (t : TltParam) (maxLen : U32) : Prop where
  seq : (tltUimpqPeek t maxLen).1 = (t.uimp.slot 0).seq
  len : (tltUimpqPeek t maxLen).2.toNat = min maxLen.toNat (t.uimp.slot 0).len.toNat
  gone : ∀ x r, Shown t maxLen x → ¬ Recorded (t.forcePop maxLen).uimp x r
  kept : ∀ x r, ¬ Shown t maxLen x → (Recorded (t.forcePop maxLen).uimp x r ↔ Recorded t.uimp x r)
  fresh : ∀ maxLen' x, Shown t maxLen x → ¬ Shown (t.forcePop maxLen) maxLen' x

section Pop

variable {t : TltParam} {maxLen x : U32}

theorem Shown.recorded (h : Shown t maxLen x) : Recorded t.uimp x (t.uimp.slot 0).round := by
  unfold Shown tltUimpqPeek at h
  by_cases h0 : (t.uimp.slot 0).len ≠ 0
  · simp only [if_pos h0] at h
    refine ⟨0, .head h0, ?_, rfl⟩
    unfold TltTransmitSegment.Holds
    split at h
    · rename_i hlt
      have hlt' : maxLen.toNat < (t.uimp.slot 0).len.toNat := hlt
      omega
    · exact h
  · simp only [if_neg h0] at h
    exact absurd h (Nat.not_lt_zero _)

theorem peek_len (h : (t.uimp.slot 0).len ≠ 0) :
    (tltUimpqPeek t maxLen).1 = (t.uimp.slot 0).seq ∧
      (tltUimpqPeek t maxLen).2.toNat = min maxLen.toNat (t.uimp.slot 0).len.toNat := by
  unfold tltUimpqPeek
  simp only [if_pos h]
  refine ⟨trivial, ?_⟩
  split
  · rename_i hlt
    have hlt' : maxLen.toNat < (t.uimp.slot 0).len.toNat := hlt
    omega
  · rename_i hle
    have hle' : ¬ maxLen.toNat < (t.uimp.slot 0).len.toNat := hle
    omega

theorem Queue.cons_of_head {base : U32} {q : UimpQueue} {L : List (Nat × Stretch U32)}
    (h : Queue base q L) (h0 : (q.slot 0).len ≠ 0) : ∃ p post, L = (0, p) :: post := by
  cases L with
  | nil => exact absurd (h.free 0 (by simp)) h0
  | cons n post =>
    obtain ⟨c, p⟩ := n
    obtain rfl := h.head_eq
    exact ⟨p, post, rfl⟩

theorem Queue.peek {base : U32} {p : Stretch U32} {post : List (Nat × Stretch U32)}
    (h : Queue base t.uimp ((0, p) :: post)) (maxLen : U32) :
    ∃ e, p.lo ≤ e ∧ (p.lo = e ↔ maxLen = 0) ∧ e ≤ p.hi ∧
      tltUimpqPeek t maxLen = (seqAt base p.lo, u32 (e - p.lo)) := by
  have hb := h.block_head
  have hproper := hb.proper
  have hbelow := hb.below
  obtain ⟨hseq, hlen⟩ := @peek_len t maxLen hb.len_ne_zero
  have hzero : maxLen.toNat = 0 ↔ maxLen = 0 := BitVec.toNat_inj (y := 0)
  have hblen : (t.uimp.slot 0).len.toNat = p.hi - p.lo := by
    rw [hb.len, u32, BitVec.toNat_ofNat, Nat.mod_eq_of_lt (by omega)]
  rw [hblen] at hlen
  refine ⟨p.lo + min maxLen.toNat (p.hi - p.lo), by omega, ?_, by omega, Prod.ext (hseq.trans hb.seq) ?_⟩
  · rw [← hzero]
    omega
  · apply BitVec.toNat_inj.mp
    rw [hlen, u32, BitVec.toNat_ofNat, Nat.mod_eq_of_lt (by omega)]
    omega

theorem forcePop_uimp (t : TltParam) (maxLen : U32) :
    (t.forcePop maxLen).uimp = tltSegmentRemoveRound t.uimp (tltUimpqPeek t maxLen).1
      (tltUimpqPeek t maxLen).2 (t.curRound - 2) := by
  unfold TltParam.forcePop tltUimpqPop
  by_cases h0 : (t.uimp.slot 0).len ≠ 0
  · dsimp only
    rw [if_pos h0]
  · dsimp only
    rw [if_neg h0, tltSegmentRemoveRound, if_neg h0]

theorem Queue.forcePop {base : U32} {p : Stretch U32} {post : List (Nat × Stretch U32)} {e : Nat}
    (h : Queue base t.uimp ((0, p) :: post)) (ht : Tidy (2 ^ 31) (p :: post.map Prod.snd))
    (hpeek : tltUimpqPeek t maxLen = (seqAt base p.lo, u32 (e - p.lo))) (h1 : p.lo ≤ e) (h2 : e ≤ p.hi) :
    if LooksAt (t.curRound - 2) p.tag then
      ∃ L, Queue base (t.forcePop maxLen).uimp L ∧ L.map Prod.snd = dropFront p (post.map Prod.snd) e
    else (t.forcePop maxLen).uimp = t.uimp := by
  have hpop := forcePop_uimp t maxLen
  rw [hpeek, h.removeHead _ ht h1 h2] at hpop
  split_ifs at hpop ⊢ with hlook
  · rw [hpop]
    exact h.removeFront h1 h2
  · exact hpop

/-- **The pop of a well-linked queue**, in positions: it shows `[p.lo, e)`, and takes it out of the
record or leaves the queue as it is. -/
theorem forcePop_spec (hw : WellLinked t.uimp) (h0 : (t.uimp.slot 0).len ≠ 0) (maxLen : U32) :
    ∃ base p P e, p.lo ≤ e ∧ (p.lo = e ↔ maxLen = 0) ∧ e ≤ p.hi ∧ (t.uimp.slot 0).round = p.tag ∧
      Tidy (2 ^ 31) (p :: P) ∧
      (∀ x, Shown t maxLen x ↔ p.lo ≤ (x - base).toNat ∧ (x - base).toNat < e) ∧
      (∀ x r, Recorded t.uimp x r ↔ Gives (p :: P) (x - base).toNat r) ∧
      if LooksAt (t.curRound - 2) p.tag then
        ∀ x r, Recorded (t.forcePop maxLen).uimp x r ↔ Gives (dropFront p P e) (x - base).toNat r
      else (t.forcePop maxLen).uimp = t.uimp := by
  obtain ⟨base, L, hq, ht⟩ := hw
  obtain ⟨p, post, rfl⟩ := hq.cons_of_head h0
  have hb := hq.block_head
  have hbelow := hb.below
  obtain ⟨e, h1, hnone, h2, hpeek⟩ := hq.peek maxLen
  have hpop := hq.forcePop ht hpeek h1 h2
  refine ⟨base, p, post.map Prod.snd, e, h1, hnone, h2, hb.round, ht, ?_, hq.recorded_iff, ?_⟩
  · intro x
    unfold Shown
    rw [hpeek]
    by_cases hlt : p.lo < e
    · -- what is shown is a block of its own
      have hfront : SlotAt base ⟨p.lo, e, p.tag⟩ ⟨seqAt base p.lo, u32 (e - p.lo), p.tag, none⟩ :=
        ⟨rfl, rfl, rfl, hlt, by simp only; omega⟩
      exact hfront.holds_iff x
    · have hempty : e - p.lo = 0 := by omega
      have hz : (u32 0).toNat = 0 := rfl
      rw [hempty]
      dsimp only
      omega
  · split_ifs at hpop ⊢ with hlook
    · obtain ⟨L, hL, hmap⟩ := hpop
      intro x r
      rw [hL.recorded_iff, hmap]
    · exact hpop

def SameRecord (q q' : UimpQueue) : Prop := ∀ x r, Recorded q x r ↔ Recorded q' x r

theorem sameRecord_iff (hw : WellLinked t.uimp) (h0 : (t.uimp.slot 0).len ≠ 0) :
    SameRecord (t.forcePop maxLen).uimp t.uimp ↔
      maxLen = 0 ∨ ¬ LooksAt (t.curRound - 2) (t.uimp.slot 0).round := by
  obtain ⟨base, p, P, e, h1, hz, h2, hround, ht, -, hrec, hpop⟩ := forcePop_spec hw h0 maxLen
  rw [hround, ← hz]
  by_cases hlook : LooksAt (t.curRound - 2) p.tag
  · rw [if_pos hlook] at hpop
    refine ⟨fun h => .inl ?_, fun h => ?_⟩
    · -- the first byte of the head is recorded no longer
      by_contra hne
      have hbelow := (Tidy.cons_iff.mp ht).1
      have hiff := h (seqAt base p.lo) p.tag
      rw [hpop, hrec, toNat_seqAt_sub (by omega), gives_dropFront] at hiff
      rcases hiff.mpr (gives_cons.mpr (.inl ⟨⟨le_rfl, by omega⟩, rfl⟩)) with h' | h'
      · omega
      · exact ht.not_gives ⟨le_rfl, by omega⟩ _ h'
    · intro x r
      rw [hpop, hrec, gives_dropFront, gives_cons, Has, and_assoc,
        h.resolve_right (not_not.mpr hlook)]
  · rw [if_neg hlook] at hpop
    refine iff_of_true (fun x r => ?_) (.inr hlook)
    rw [hpop]

/-- **The pop takes out what it returns just if the head block is not older than the round before the
last one.** -/
theorem popsFront_iff (hw : WellLinked t.uimp) (h0 : (t.uimp.slot 0).len ≠ 0) (hmax : maxLen ≠ 0) :
    PopsFront t maxLen ↔ t.curRound = 1 ∨ t.curRound - 2 ≤ (t.uimp.slot 0).round := by
  obtain ⟨base, p, P, e, h1, hz, h2, hround, ht, hshown, hrec, hpop⟩ := forcePop_spec hw h0 maxLen
  have hlook : LooksAt (t.curRound - 2) p.tag ↔
      t.curRound = 1 ∨ t.curRound - 2 ≤ (t.uimp.slot 0).round := by
    rw [LooksAt, hround, sub_eq_iff_eq_add]
    rfl
  rw [← hlook]
  have hhead : Shown t maxLen (seqAt base p.lo) := by
    have hbelow := (Tidy.cons_iff.mp ht).1
    rw [hshown, toNat_seqAt_sub (by omega)]
    exact ⟨le_rfl, lt_of_le_of_ne h1 fun heq => hmax (hz.mp heq)⟩
  constructor
  · intro h
    by_contra hno
    rw [if_neg hno] at hpop
    exact h.gone _ _ hhead (hpop ▸ hhead.recorded)
  · intro hyes
    rw [if_pos hyes] at hpop
    have hgone : ∀ x r, Shown t maxLen x → ¬ Recorded (t.forcePop maxLen).uimp x r := by
      intro x r hx
      rw [hshown] at hx
      rw [hpop, gives_dropFront]
      rintro (h | h)
      · omega
      · exact ht.not_gives ⟨hx.1, by omega⟩ r h
    obtain ⟨hseq, hlen⟩ := @peek_len t maxLen h0
    refine ⟨hseq, hlen, hgone, ?_, fun maxLen' x hx hx' => hgone x _ hx hx'.recorded⟩
    intro x r hx
    rw [hshown] at hx
    rw [hpop, hrec, gives_dropFront, gives_cons, Has, and_assoc]
    apply or_congr_left
    constructor
    · exact fun h => ⟨by omega, h.2⟩
    · exact fun h => ⟨by omega, h.2⟩

end Pop

def oneBlock (round curRound : U32) : TltParam :=
  { tltInit with curRound := curRound, uimp := .set ⟨fun _ => .zero, 1⟩ 0 ⟨10, 4, round, none⟩ }

theorem oneBlock_wellLinked (round curRound : U32) : WellLinked (oneBlock round curRound).uimp := by
  refine ⟨0, [(0, ⟨10, 14, round⟩)], ⟨?_, by simp, rfl, ?_, ?_⟩, ?_⟩
  · simp [oneBlock]
  · intro n hn
    rw [List.mem_singleton.mp hn]
    exact ⟨rfl, rfl, rfl, show 10 < 14 by decide, show 14 < 2 ^ 31 by decide⟩
  · intro i hi
    have hi' : i ≠ 0 := by simpa using hi
    simp [oneBlock, hi', TltTransmitSegment.zero]
  · exact Tidy.cons_iff.mpr
      ⟨⟨show 10 < 14 by decide, show 14 ≤ 2 ^ 31 by decide, by simp⟩, Tidy.nil⟩

/-- A block of the last round. -/
theorem popsFront_recent : PopsFront (oneBlock 2 3) 1 :=
  (popsFront_iff (oneBlock_wellLinked 2 3) (by decide) (by decide)).mpr (.inr (by decide))

/-- A block that counts as lost is returned again by the next pop, and so is any block of the first
round as long as no echo has come. -/
theorem popsFront_fails :
    (WellLinked (oneBlock 1 5).uimp ∧ ¬ PopsFront (oneBlock 1 5) 1460 ∧
      ∀ x, Shown (oneBlock 1 5) 1460 x → Shown ((oneBlock 1 5).forcePop 1460) 1460 x) ∧
    (WellLinked (oneBlock 0 0).uimp ∧ ¬ PopsFront (oneBlock 0 0) 1) := by
  refine ⟨⟨oneBlock_wellLinked 1 5, fun h => ?_, fun x hx => hx⟩,
    ⟨oneBlock_wellLinked 0 0, fun h => ?_⟩⟩
  · exact h.gone 10 1 (show (10 - 10 : U32).toNat < 4 by decide) ⟨0, .head (by decide), by decide, rfl⟩
  · exact h.gone 10 0 (show (10 - 10 : U32).toNat < 1 by decide) ⟨0, .head (by decide), by decide, rfl⟩

end LibvmaTlt.Lwip
