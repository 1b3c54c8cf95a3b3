import LibvmaTlt.Lib.Stretch
import LibvmaTlt.Lwip.Ooseq
import LibvmaTlt.Lwip.UimpBlocks

/-!
# The queue of unimportant data, as the list of its blocks

`tlt.c` keeps the blocks of `uimp_queue` in slots of an array, linked from slot 0 on, and compares
their ends by signed differences. `Queue base q L` says that the slots of `q`, followed from slot 0,
are the cells of `L`, and hold the stretches of `L` at positions counted from `base`. As long as the
positions stay in the first half of the number space, each function on blocks that adds to the queue is a
function on the stretches alone.
-/

namespace LibvmaTlt.Lwip

open UimpQueue Stretch

/-! ## Blocks in slots -/

/-- The slot holds the stretch, at positions counted from `base`. -/
structure SlotAt (base : U32) (b : Stretch U32) (s : TltTransmitSegment) : Prop where
  seq : s.seq = seqAt base b.lo
  len : s.len = u32 (b.hi - b.lo)
  round : s.round = b.tag
  proper : b.lo < b.hi
  below : b.hi < 2 ^ 31

theorem u32_toNat {n : Nat} (h : n < 2 ^ 32) : (u32 n).toNat = n := by
  rw [u32, BitVec.toNat_ofNat, Nat.mod_eq_of_lt h]

theorem u32_ne_zero {n : Nat} (h0 : 0 < n) (h : n < 2 ^ 31) : u32 n ≠ 0 := by
  intro hz
  have hn : (u32 n).toNat = 0 := by rw [hz]; rfl
  rw [u32_toNat (by omega)] at hn
  omega

namespace SlotAt

variable {base : U32} {b : Stretch U32} {s s' : TltTransmitSegment}

theorem len_ne_zero (h : SlotAt base b s) : s.len ≠ 0 := by
  have := h.proper
  have := h.below
  rw [h.len]
  exact u32_ne_zero (by omega) (by omega)

theorem stop (h : SlotAt base b s) : s.seq + s.len = seqAt base b.hi := by
  have := h.proper
  rw [h.seq, h.len, seqAt_add]
  congr 1
  omega

theorem congr (h : SlotAt base b s) (hseq : s'.seq = s.seq) (hlen : s'.len = s.len)
    (hround : s'.round = s.round) : SlotAt base b s' :=
  ⟨hseq.trans h.seq, hlen.trans h.len, hround.trans h.round, h.proper, h.below⟩

end SlotAt

/-- Followed from slot 0, the slots of `q` hold the stretches of `L`; the others are free. -/
abbrev Queue (base : U32) (q : UimpQueue) (L : List (Nat × Stretch U32)) : Prop := Listed (SlotAt base) q L

theorem seqAt_sub {base : U32} {x y : Nat} (h : y ≤ x) : seqAt base x - seqAt base y = u32 (x - y) := by
  obtain ⟨n, rfl⟩ := Nat.exists_eq_add_of_le h
  rw [← seqAt_add, Nat.add_sub_cancel_left, BitVec.add_comm, BitVec.add_sub_cancel]

theorem toNat_seqAt_sub {base : U32} {x : Nat} (h : x < 2 ^ 32) : (seqAt base x - base).toNat = x := by
  rw [seqAt, BitVec.add_comm, BitVec.add_sub_cancel, u32, BitVec.toNat_ofNat, Nat.mod_eq_of_lt h]

theorem seqAt_toNat_sub (base x : U32) : seqAt base (x - base).toNat = x := by
  rw [seqAt, u32, BitVec.ofNat_toNat, BitVec.setWidth_eq, BitVec.add_comm, BitVec.sub_add_cancel]

theorem seqAt_leq {base : U32} {x y : Nat} (hx : x < 2 ^ 31) (hy : y < 2 ^ 31) :
    TcpSeqLeq (seqAt base x) (seqAt base y) ↔ x ≤ y :=
  seqAt_le (by omega) (by omega)

theorem u32_eq_zero {n : Nat} (h : n < 2 ^ 31) : u32 n = 0 ↔ n = 0 := by
  constructor
  · intro hz
    by_contra h0
    exact u32_ne_zero (Nat.pos_of_ne_zero h0) h hz
  · rintro rfl
    rfl

/-! ## Stretches and blocks -/

def blockOf (base : U32) (b : Stretch U32) : UimpBlock := ⟨seqAt base b.lo, u32 (b.hi - b.lo), b.tag⟩

def InHalf (b : Stretch U32) : Prop := b.lo < b.hi ∧ b.hi < 2 ^ 31

theorem slotAt_iff {base : U32} {b : Stretch U32} {s : TltTransmitSegment} :
    SlotAt base b s ↔ s.block = blockOf base b ∧ InHalf b := by
  constructor
  · intro h
    refine ⟨?_, h.proper, h.below⟩
    unfold blockOf TltTransmitSegment.block
    rw [h.seq, h.len, h.round]
  · rintro ⟨h, hp, hb⟩
    obtain ⟨h1, h2, h3⟩ := fields_of_block h
    exact ⟨h1, h2, h3, hp, hb⟩

section Bridge

variable {base : U32} {q : UimpQueue} {L : List (Nat × Stretch U32)} {B : List (Nat × UimpBlock)}

theorem blockOf_stop {b : Stretch U32} (h : InHalf b) :
    (blockOf base b).seq + (blockOf base b).len = seqAt base b.hi := by
  have := h.1
  unfold blockOf
  rw [seqAt_add, Nat.add_sub_cancel' h.1.le]

theorem Listed.recast {β γ : Type*} {R : β → TltTransmitSegment → Prop}
    {R' : γ → TltTransmitSegment → Prop} {M : List (Nat × β)} {M' : List (Nat × γ)} (h : Listed R q M)
    (hcells : cells M' = cells M) (hblock : ∀ n ∈ M', R' n.2 (q.slot n.1)) : Listed R' q M' := by
  have hlen : M'.length = M.length := by
    have := congrArg List.length hcells
    simpa [cells] using this
  have hstart : start M' = start M := by
    cases M with
    | nil => rw [List.length_eq_zero_iff.mp hlen]; rfl
    | cons n M =>
      cases M' with
      | nil => simp at hlen
      | cons n' M' => rfl
  refine ⟨?_, hcells ▸ h.nodup, h.len.trans hlen.symm, hblock, ?_⟩
  · rw [hcells, hstart]
    exact h.chain
  · rw [hcells]
    exact h.free

theorem Queue.toBlocks (h : Queue base q L) : Blocks q (L.map fun n => (n.1, blockOf base n.2)) := by
  refine Listed.recast h ?_ ?_
  · simp [cells]
  · intro n hn
    obtain ⟨m, hm, rfl⟩ := List.mem_map.mp hn
    exact (slotAt_iff.mp (h.block m hm)).1

theorem Blocks.toQueue {S : List (Stretch U32)} (h : Blocks q B) (hB : B.map Prod.snd = S.map (blockOf base))
    (hS : ∀ b ∈ S, InHalf b) : ∃ L, L.map Prod.snd = S ∧ Queue base q L := by
  have hlen : (cells B).length = S.length := by
    have := congrArg List.length hB
    simpa [cells] using this
  refine ⟨(cells B).zip S, List.map_snd_zip hlen.ge, Listed.recast h (List.map_fst_zip hlen.le) ?_⟩
  intro n hn
  obtain ⟨i, hi, rfl⟩ := List.mem_iff_getElem.mp hn
  have hi' : i < B.length ∧ i < S.length := by
    simp only [List.length_zip, cells, List.length_map] at hi
    omega
  have hblock : (B[i]).2 = blockOf base S[i] := by
    have := List.getElem_of_eq hB (i := i) (by simpa using hi'.1)
    simpa using this
  have hslot := h.block B[i] (List.getElem_mem hi'.1)
  simp only [List.getElem_zip, cells, List.getElem_map]
  exact slotAt_iff.mpr ⟨hslot.trans hblock, hS _ (List.getElem_mem hi'.2)⟩

end Bridge

/-! ## The loop that removes duplicates -/

section Walk

variable {base round : U32} {p : Stretch U32} {s e : Nat}

/-- A block, the pieces behind it and the rest `[s, e)` of the range, as numbers. -/
def Visit.of (base : U32) (v : Stretch U32 × List (Stretch U32) × Nat × Nat) : Visit :=
  ⟨blockOf base v.1, v.2.1.map (blockOf base), seqAt base v.2.2.1, u32 (v.2.2.2 - v.2.2.1),
    v.2.2.1 = v.2.2.2⟩

variable (base round) in
def pass (p : Stretch U32) (s e : Nat) : Stretch U32 × List (Stretch U32) × Nat × Nat :=
  if p.lo ≤ s ∧ e ≤ p.hi then
    if p.tag = round then (p, [], s, s)
    else if s ≠ p.lo then
      if p.hi ≠ e then (p, [⟨s, e, round⟩, ⟨s, e, p.tag⟩], s, e) else (p, [⟨s, e, round⟩], s, e)
    else if p.hi ≠ e then (p, [⟨e, p.hi, p.tag⟩], s, e)
    else ({ p with tag := round }, [], s, e)
  else if s ≤ p.lo ∧ p.hi ≤ e then
    if seqAt base p.lo > seqAt base s then ({ p with tag := round }, [⟨s, p.lo, round⟩], p.hi, e)
    else (p, [], p.hi, e)
  else if s ≤ p.lo ∧ e ≤ p.lo then (p, [], s, e)
  else if p.hi ≤ s ∧ p.hi ≤ e then (p, [], s, e)
  else if s ≤ p.lo ∧ e ≤ p.hi then
    if p.tag ≠ round then (⟨p.lo, e, round⟩, [⟨e, p.hi, p.tag⟩], s, p.lo) else (p, [], s, p.lo)
  else if p.lo ≤ s ∧ p.hi ≤ e then
    if p.tag ≠ round then (⟨p.lo, s, p.tag⟩, [⟨s, p.hi, round⟩], s, e) else (p, [], p.hi, e)
  else (p, [], s, e)

theorem visitBlock_eq (h : InHalf p) (hse : s < e) (he : e < 2 ^ 31) :
    visitBlock round (blockOf base p) (seqAt base s) (u32 (e - s)) = .of base (pass base round p s e) := by
  obtain ⟨hlt, hb⟩ := h
  have hstop : seqAt base s + u32 (e - s) = seqAt base e := by
    rw [seqAt_add, Nat.add_sub_cancel' hse.le]
  have hinj {x y : Nat} (hx : x < 2 ^ 31) (hy : y < 2 ^ 31) : seqAt base x - seqAt base y ≠ 0 ↔ x ≠ y := by
    rw [sub_ne_zero, Ne, seqAt_inj (by omega) (by omega)]
  have hzero {x y : Nat} (hx : x < 2 ^ 31) (hy : y < 2 ^ 31) : seqAt base x - seqAt base y = 0 ↔ y = x := by
    rw [sub_eq_zero, seqAt_inj (by omega) (by omega), eq_comm]
  have hne : decide (s = e) = false := decide_eq_false hse.ne
  have hseq : (blockOf base p).seq = seqAt base p.lo := rfl
  have hround : (blockOf base p).round = p.tag := rfl
  have hpstop := @blockOf_stop base p ⟨hlt, hb⟩
  unfold visitBlock pass
  dsimp only
  rw [hpstop, hstop, hseq, hround]
  simp (disch := omega) only [seqAt_leq, hinj, hzero]
  split_ifs
  all_goals
    simp (disch := omega) only [Visit.of, blockOf, seqAt_sub, List.map_cons, List.map_nil, hne, Nat.sub_self,
      decide_true]
  · rfl
  all_goals rw [decide_eq_false (by omega)]

theorem walkBlocks_step {p' : Stretch U32} {V : List (Stretch U32)} {s' e' : Nat} (h : InHalf p)
    (hse : s < e) (he : e < 2 ^ 31) (hp : pass base round p s e = (p', V, s', e')) (f : Nat)
    (L : List UimpBlock) :
    walkBlocks round (f + 1) (blockOf base p :: L) (seqAt base s) (u32 (e - s)) =
      if s' = e' then (blockOf base p' :: (V.map (blockOf base) ++ L), seqAt base s', u32 (e' - s'))
      else
        (blockOf base p' :: (walkBlocks round f (V.map (blockOf base) ++ L) (seqAt base s') (u32 (e' - s'))).1,
          (walkBlocks round f (V.map (blockOf base) ++ L) (seqAt base s') (u32 (e' - s'))).2) := by
  rw [walkBlocks, visitBlock_eq h hse he, hp]
  simp only [Visit.of, decide_eq_true_eq]

variable (base round) in
/-- What the loop leaves in the place of the block `p`, and what is then left of the range `[s, e)`.
The pieces it links in behind `p` are visited with it. -/
def visit (p : Stretch U32) (s e : Nat) : List (Stretch U32) × Nat × Nat :=
  if p.lo ≤ s ∧ e ≤ p.hi then
    if p.tag = round then ([p], s, s)
    else if p.lo < s then
      (if e < p.hi then [p, ⟨s, e, round⟩, ⟨s, e, p.tag⟩] else [p, ⟨s, e, round⟩], s, s)
    else (if e < p.hi then [p, ⟨e, p.hi, p.tag⟩] else [{ p with tag := round }], s, e)
  else if s ≤ p.lo ∧ p.hi ≤ e then
    -- the comparison with the start of the range is one of plain numbers
    (if seqAt base p.lo > seqAt base s then [{ p with tag := round }, ⟨s, p.lo, round⟩] else [p],
      p.hi, e)
  else if e ≤ p.lo ∨ p.hi ≤ s then ([p], s, e)
  else if s < p.lo then
    (if p.tag = round then [p] else [⟨p.lo, e, round⟩, ⟨e, p.hi, p.tag⟩], s, p.lo)
  else (if p.tag = round then [p] else [⟨p.lo, s, p.tag⟩, ⟨s, p.hi, round⟩], p.hi, e)

variable (base round) in
/-- The loop over the blocks of a chain, until nothing is left of the range. -/
def walk : List (Stretch U32) → Nat → Nat → List (Stretch U32) × Nat × Nat
  | [], s, e => ([], s, e)
  | p :: L, s, e =>
    let v := visit base round p s e
    if v.2.1 = v.2.2 then (v.1 ++ L, v.2)
    else
      let w := walk L v.2.1 v.2.2
      (v.1 ++ w.1, w.2)

variable (base round) in
/-- The loop on blocks gets from the block of `p` to the blocks `L` behind it, and leaves `[s', e')`. -/
def Passes (f : Nat) (p : Stretch U32) (L : List UimpBlock) (s e : Nat) (V : List (Stretch U32))
    (s' e' : Nat) : Prop :=
  (∀ b ∈ V, InHalf b) ∧ s' ≤ e' ∧ e' < 2 ^ 31 ∧
    if s' = e' then
      walkBlocks round (f + 2) (blockOf base p :: L) (seqAt base s) (u32 (e - s)) =
        (V.map (blockOf base) ++ L, seqAt base s', u32 (e' - s'))
    else ∃ f', f ≤ f' ∧
      walkBlocks round (f + 2) (blockOf base p :: L) (seqAt base s) (u32 (e - s)) =
        (V.map (blockOf base) ++ (walkBlocks round f' L (seqAt base s') (u32 (e' - s'))).1,
          (walkBlocks round f' L (seqAt base s') (u32 (e' - s'))).2)

section Passes

variable {L : List UimpBlock} {f : Nat} {V : List (Stretch U32)} {y z : Stretch U32} {s' e' s₁ e₁ : Nat}

theorem Passes.stop (h : InHalf p) (hse : s < e) (he : e < 2 ^ 31)
    (hp : pass base round p s e = (y, V, s', s')) (hy : ∀ b ∈ y :: V, InHalf b) (hlt : s' < 2 ^ 31) :
    Passes base round f p L s e (y :: V) s' s' := by
  have hw := walkBlocks_step h hse he hp (f + 1) L
  refine ⟨hy, le_rfl, hlt, ?_⟩
  rw [if_pos rfl] at hw ⊢
  exact hw

theorem Passes.one (h : InHalf p) (hse : s < e) (he : e < 2 ^ 31)
    (hp : pass base round p s e = (y, [], s', e')) (hy : InHalf y) (hle : s' < e') (hlt : e' < 2 ^ 31) :
    Passes base round f p L s e [y] s' e' := by
  have hw := walkBlocks_step h hse he hp (f + 1) L
  refine ⟨by simpa using hy, hle.le, hlt, ?_⟩
  rw [if_neg hle.ne] at hw ⊢
  exact ⟨f + 1, by omega, hw⟩

theorem Passes.two (h : InHalf p) (hse : s < e) (he : e < 2 ^ 31)
    (hp : pass base round p s e = (y, [z], s₁, e₁)) (hy : InHalf y) (hz : InHalf z) (hle : s₁ < e₁)
    (hlt : e₁ < 2 ^ 31) (hp' : pass base round z s₁ e₁ = (z, [], s', e')) (hle' : s' < e')
    (hlt' : e' < 2 ^ 31) : Passes base round f p L s e [y, z] s' e' := by
  have hw := walkBlocks_step h hse he hp (f + 1) L
  refine ⟨by simp [hy, hz], hle'.le, hlt', ?_⟩
  rw [if_neg hle'.ne]
  rw [if_neg hle.ne, List.map_singleton, List.singleton_append, walkBlocks_step hz hle hlt hp' f L,
    if_neg hle'.ne] at hw
  exact ⟨f, le_rfl, hw⟩

theorem Passes.found (h : InHalf p) (hse : s < e) (he : e < 2 ^ 31)
    (hp : pass base round p s e = (p, ⟨s, e, round⟩ :: V, s, e)) (hV : ∀ b ∈ V, InHalf b) :
    Passes base round f p L s e (p :: ⟨s, e, round⟩ :: V) s s := by
  have hr : InHalf ⟨s, e, round⟩ := ⟨hse, he⟩
  have hp' : pass base round ⟨s, e, round⟩ s e = (⟨s, e, round⟩, [], s, s) := by simp [pass]
  have hw := walkBlocks_step h hse he hp (f + 1) L
  refine ⟨by simpa [h, hr] using hV, le_rfl, hse.trans he, ?_⟩
  rw [if_pos rfl]
  rw [if_neg hse.ne, List.map_cons, List.cons_append, walkBlocks_step hr hse he hp', if_pos rfl] at hw
  simpa using hw

variable (round f L) in
theorem InHalf.passes (h : InHalf p) (hse : s < e) (he : e < 2 ^ 31) :
    Passes base round f p L s e (visit base round p s e).1 (visit base round p s e).2.1
      (visit base round p s e).2.2 := by
  obtain ⟨hlt, hb⟩ := id h
  have hgap : seqAt base p.lo > seqAt base s → p.lo ≠ s := fun hplain hs => BitVec.lt_irrefl _ (hs ▸ hplain)
  unfold visit
  split_ifs with hin ht h1 h2 h2 hover hplain hapart hleft ht ht
  all_goals dsimp only
  · refine .stop h hse he ?_ (by simpa using h) (by omega)
    rw [pass, if_pos hin, if_pos ht]
  · refine .found h hse he ?_ (by simp [InHalf]; omega)
    rw [pass, if_pos hin, if_neg ht, if_pos h1.ne', if_pos h2.ne']
  · refine .found h hse he ?_ (by simp)
    rw [pass, if_pos hin, if_neg ht, if_pos h1.ne', if_neg (by omega)]
  · -- the piece behind the range is passed over
    refine .two h hse he (z := ⟨e, p.hi, p.tag⟩) ?_ h ⟨h2, hb⟩ hse he ?_ hse he
    · rw [pass, if_pos hin, if_neg ht, if_neg (by omega), if_pos h2.ne']
    · rw [pass, if_neg (by simp only; omega), if_neg (by simp only; omega), if_pos ⟨hse.le, le_rfl⟩]
  · refine .one h hse he ?_ ⟨hlt, hb⟩ hse he
    rw [pass, if_pos hin, if_neg ht, if_neg (by omega), if_neg (by omega)]
  · -- the gap in front of the block is linked in behind it
    have hne := hgap hplain
    have hp : pass base round p s e = ({ p with tag := round }, [⟨s, p.lo, round⟩], p.hi, e) := by
      rw [pass, if_neg hin, if_pos hover, if_pos hplain]
    have hz : InHalf ⟨s, p.lo, round⟩ := ⟨by simp only; omega, by simp only; omega⟩
    by_cases hend : p.hi = e
    · subst hend
      exact .stop h hse he hp (by simpa [hz] using ⟨hlt, hb⟩) he
    · have hle : p.hi < e := by omega
      refine .two h hse he hp ⟨hlt, hb⟩ hz hle he ?_ hle he
      rw [pass, if_neg (by simp only; omega), if_neg (by simp only; omega), if_neg (by simp only; omega),
        if_pos (by simp only; omega)]
  · have hp : pass base round p s e = (p, [], p.hi, e) := by
      rw [pass, if_neg hin, if_pos hover, if_neg hplain]
    by_cases hend : p.hi = e
    · subst hend
      exact .stop h hse he hp (by simpa using h) he
    · exact .one h hse he hp h (by omega) he
  · refine .one h hse he ?_ h hse he
    rw [pass, if_neg hin, if_neg hover]
    split_ifs <;> first | rfl | omega
  · refine .one h hse he ?_ h hleft (by omega)
    rw [pass, if_neg hin, if_neg hover, if_neg (by omega), if_neg (by omega), if_pos (by omega),
      if_neg (by simpa using ht)]
  · refine .two h hse he (z := ⟨e, p.hi, p.tag⟩) ?_ ⟨by simp only; omega, he⟩ ⟨by simp only; omega, hb⟩
      hleft (by omega) ?_ hleft (by omega)
    · rw [pass, if_neg hin, if_neg hover, if_neg (by omega), if_neg (by omega), if_pos (by omega), if_pos ht]
    · rw [pass, if_neg (by simp only; omega), if_neg (by simp only; omega), if_pos (by simp only; omega)]
  · refine .one h hse he ?_ h (by omega) he
    rw [pass, if_neg hin, if_neg hover, if_neg (by omega), if_neg (by omega), if_neg (by omega),
      if_pos (by omega), if_neg (by simpa using ht)]
  · -- the range starts at the piece that is linked in, and the next pass moves it behind
    refine .two h hse he (z := ⟨s, p.hi, round⟩) ?_ ⟨by simp only; omega, by simp only; omega⟩
      ⟨by simp only; omega, hb⟩ hse he ?_ (by omega) he
    · rw [pass, if_neg hin, if_neg hover, if_neg (by omega), if_neg (by omega), if_neg (by omega),
        if_pos (by omega), if_pos ht]
    · rw [pass, if_neg (by simp only; omega), if_pos (by simp only; omega), if_neg (BitVec.lt_irrefl _)]

theorem walkBlocks_eq {L : List (Stretch U32)} (hL : ∀ b ∈ L, InHalf b) (hse : s < e) (he : e < 2 ^ 31)
    (hf : 2 * L.length < f) :
    let w := walk base round L s e
    (∀ b ∈ w.1, InHalf b) ∧ w.2.1 ≤ w.2.2 ∧ w.2.2 < 2 ^ 31 ∧
      walkBlocks round f (L.map (blockOf base)) (seqAt base s) (u32 (e - s)) =
        (w.1.map (blockOf base), seqAt base w.2.1, u32 (w.2.2 - w.2.1)) := by
  induction L generalizing s e f with
  | nil => exact ⟨by simp [walk], hse.le, he, by cases f <;> rfl⟩
  | cons p L ih =>
    obtain ⟨f, rfl⟩ : ∃ g, f = g + 2 := ⟨f - 2, by simp only [List.length_cons] at hf; omega⟩
    obtain ⟨hV, hle, hlt, hwalk⟩ := (hL p (by simp)).passes round (L.map (blockOf base)) f hse he
    have hrest : ∀ b ∈ L, InHalf b := fun b hb => hL b (by simp [hb])
    dsimp only
    rw [List.map_cons, walk]
    generalize visit base round p s e = v at *
    dsimp only
    split_ifs at hwalk ⊢ with hv
    · refine ⟨?_, hle, hlt, ?_⟩
      · intro b hb
        exact (List.mem_append.mp hb).elim (hV b) (hrest b)
      · rw [hwalk, List.map_append]
    · obtain ⟨f', hf', hwalk⟩ := hwalk
      obtain ⟨hW, hle', hlt', heq⟩ := @ih v.2.1 v.2.2 f' hrest (lt_of_le_of_ne hle hv) hlt
        (by simp only [List.length_cons] at hf; omega)
      refine ⟨?_, hle', hlt', ?_⟩
      · intro b hb
        exact (List.mem_append.mp hb).elim (hV b) (hW b)
      · rw [hwalk, heq, List.map_append]

end Passes

end Walk

/-! ## Where the rest goes -/

def putBefore (t : Stretch U32) : List (Stretch U32) → List (Stretch U32)
  | [] => [t]
  | b :: L => if t.hi ≤ b.lo then t :: b :: L else b :: putBefore t L

def place (t : Stretch U32) : List (Stretch U32) → List (Stretch U32)
  | [] => [t]
  | b :: L => b :: putBefore t L

theorem u32_add (m n : Nat) : u32 m + u32 n = u32 (m + n) := (BitVec.ofNat_add m n).symm

section Settle

variable {base round : U32} {x y t : Stretch U32} {L : List (Stretch U32)} {s e : Nat}

theorem putBlock_eq (ht : InHalf t) (hL : ∀ b ∈ L, InHalf b) :
    (∀ b ∈ putBefore t L, InHalf b) ∧
      putBlock (blockOf base t) (L.map (blockOf base)) = (putBefore t L).map (blockOf base) := by
  induction L with
  | nil => exact ⟨by simpa [putBefore] using ht, rfl⟩
  | cons y L ih =>
    obtain ⟨hy, hL⟩ := List.forall_mem_cons.mp hL
    obtain ⟨hput, heq⟩ := ih hL
    have hlater : TcpSeqLeq ((blockOf base t).seq + (blockOf base t).len) (blockOf base y).seq ↔
        t.hi ≤ y.lo := by
      rw [blockOf_stop ht]
      exact seqAt_leq ht.2 (hy.1.trans hy.2)
    rw [List.map_cons, putBlock, putBefore]
    simp only [hlater]
    split_ifs
    · exact ⟨by simpa [ht, hy] using hL, rfl⟩
    · exact ⟨by simpa [hy] using hput, by rw [heq, List.map_cons]⟩

theorem placeBlock_eq (ht : InHalf t) (hL : ∀ b ∈ L, InHalf b) :
    (∀ b ∈ place t L, InHalf b) ∧
      placeBlock (blockOf base t) (L.map (blockOf base)) = (place t L).map (blockOf base) := by
  cases L with
  | nil => exact ⟨by simpa [place] using ht, rfl⟩
  | cons y L =>
    obtain ⟨hy, hL⟩ := List.forall_mem_cons.mp hL
    obtain ⟨hput, heq⟩ := @putBlock_eq base t L ht hL
    exact ⟨by simpa [place, hy] using hput, congrArg (blockOf base y :: ·) heq⟩

theorem InHalf.touches_iff (hx : InHalf x) (hy : InHalf y) :
    (blockOf base x).seq + (blockOf base x).len = (blockOf base y).seq ↔ x.hi = y.lo := by
  obtain ⟨-, hxb⟩ := id hx
  obtain ⟨hyp, hyb⟩ := hy
  rw [blockOf_stop hx]
  exact seqAt_inj (by omega) (by omega)

theorem InHalf.equal_iff (hx : InHalf x) (hy : InHalf y) :
    (blockOf base x).seq = (blockOf base y).seq ∧ (blockOf base x).len = (blockOf base y).len ↔
      x.lo = y.lo ∧ x.hi = y.hi := by
  obtain ⟨hxp, hxb⟩ := id hx
  obtain ⟨hyp, hyb⟩ := id hy
  constructor
  · rintro ⟨h1, h2⟩
    have h3 := @blockOf_stop base x hx
    rw [h1, h2, blockOf_stop hy, seqAt_inj (by omega) (by omega)] at h3
    exact ⟨(seqAt_inj (by omega) (by omega)).mp h1, h3.symm⟩
  · rintro ⟨h1, h2⟩
    unfold blockOf
    rw [h1, h2]
    exact ⟨rfl, rfl⟩

theorem blockOf_join (hx : InHalf x) (hy : InHalf y) (h : x.hi = y.lo) (r : U32) :
    InHalf ⟨x.lo, y.hi, r⟩ ∧
      blockOf base ⟨x.lo, y.hi, r⟩ =
        ⟨(blockOf base x).seq, (blockOf base x).len + (blockOf base y).len, r⟩ := by
  obtain ⟨hxp, hxb⟩ := hx
  obtain ⟨hyp, hyb⟩ := hy
  refine ⟨⟨by simp only; omega, hyb⟩, ?_⟩
  unfold blockOf
  rw [u32_add]
  congr 2
  dsimp only
  omega

theorem glueBlock_eq (hx : InHalf x) (hL : ∀ b ∈ L, InHalf b) :
    (∀ b ∈ glue laterRound x L, InHalf b) ∧
      glueBlock (blockOf base x) (L.map (blockOf base)) = (glue laterRound x L).map (blockOf base) := by
  induction L generalizing x with
  | nil => exact ⟨by simpa [glue] using hx, rfl⟩
  | cons y L ih =>
    obtain ⟨hy, hL⟩ := List.forall_mem_cons.mp hL
    have htouch : (blockOf base x).len + (blockOf base x).seq = (blockOf base y).seq ↔ x.hi = y.lo := by
      rw [BitVec.add_comm]
      exact hx.touches_iff hy
    rw [List.map_cons, glueBlock, glue]
    simp only [htouch, hx.equal_iff hy]
    show _ ∧ (if x.hi = y.lo ∧ x.tag = y.tag then _ else _) = _
    split_ifs with h1
    · obtain ⟨hj, heq⟩ := @blockOf_join base x y hx hy h1.1 x.tag
      have := ih hj hL
      rwa [heq] at this
    · exact @ih { x with tag := laterRound x.tag y.tag } hx hL
    · obtain ⟨hglue, heq⟩ := ih hy hL
      exact ⟨by simpa [hx] using hglue, by rw [heq, List.map_cons]⟩

theorem mergeBlocks_eq (hL : ∀ b ∈ L, InHalf b) :
    (∀ b ∈ glueAll laterRound L, InHalf b) ∧
      mergeBlocks (L.map (blockOf base)) = (glueAll laterRound L).map (blockOf base) := by
  cases L with
  | nil => exact ⟨by simp [glueAll], rfl⟩
  | cons x L =>
    obtain ⟨hx, hL⟩ := List.forall_mem_cons.mp hL
    exact glueBlock_eq hx hL

theorem absorbBlock_eq (hy : InHalf y) (hL : ∀ b ∈ L, InHalf b) :
    (∀ S, absorb y L = some S → ∀ b ∈ S, InHalf b) ∧
      absorbBlock (blockOf base y) ((L ++ [y]).map (blockOf base)) =
        (absorb y L).map fun S => (S ++ [y]).map (blockOf base) := by
  induction L with
  | nil =>
    refine ⟨by simp [absorb], ?_⟩
    have hself : ¬ (blockOf base y).seq + (blockOf base y).len = (blockOf base y).seq := by
      rw [hy.touches_iff hy]
      exact hy.1.ne'
    simp [absorb, absorbBlock, hself]
  | cons x L ih =>
    obtain ⟨hx, hL⟩ := List.forall_mem_cons.mp hL
    obtain ⟨hS, heq⟩ := ih hL
    have hkeep : (∀ S, (absorb y L).map (x :: ·) = some S → ∀ b ∈ S, InHalf b) ∧
        ((absorb y L).map fun S => (S ++ [y]).map (blockOf base)).map (blockOf base x :: ·) =
          ((absorb y L).map (x :: ·)).map fun S => (S ++ [y]).map (blockOf base) := by
      cases h : absorb y L with
      | none => simp
      | some S => exact ⟨by simpa [hx] using hS S h, rfl⟩
    rw [List.cons_append, List.map_cons, absorbBlock, absorb, heq]
    simp only [hy.touches_iff hx, hx.touches_iff hy]
    change _ ∧ (if ¬ x.tag = y.tag then _ else _) = _
    by_cases ht : x.tag = y.tag
    · rw [if_neg (not_not.mpr ht)]
      by_cases h1 : y.hi = x.lo
      · obtain ⟨hj, hb⟩ := @blockOf_join base y x hy hx h1 x.tag
        rw [if_pos h1, if_pos ⟨ht, h1⟩]
        refine ⟨by simpa [hj] using hL, ?_⟩
        simp only [Option.map_some, List.cons_append, List.map_cons, hb]
        rfl
      · rw [if_neg h1, if_neg fun h => h1 h.2]
        by_cases h2 : x.hi = y.lo
        · obtain ⟨hj, hb⟩ := @blockOf_join base x y hx hy h2 x.tag
          rw [if_pos h2, if_pos ⟨ht, h2⟩]
          refine ⟨by simpa [hj] using hL, ?_⟩
          simp only [Option.map_some, List.cons_append, List.map_cons, hb]
          rfl
        · rw [if_neg h2, if_neg fun h => h2 h.2]
          exact hkeep
    · rw [if_pos ht, if_neg fun h => ht h.1, if_neg fun h => ht h.1]
      exact hkeep

theorem tuckBlocks_eq (f : Nat) (hL : ∀ b ∈ L, InHalf b) :
    (∀ b ∈ tuck f L, InHalf b) ∧ tuckBlocks f (L.map (blockOf base)) = (tuck f L).map (blockOf base) := by
  induction f generalizing L with
  | zero => exact ⟨hL, rfl⟩
  | succ f ih =>
    rcases List.eq_nil_or_concat L with rfl | ⟨L, y, rfl⟩
    · exact ⟨by simp [tuck], rfl⟩
    rw [List.concat_eq_append] at *
    obtain ⟨hL', hy⟩ := List.forall_mem_append.mp hL
    obtain ⟨hS, heq⟩ := @absorbBlock_eq base y L (hy y (by simp)) hL'
    rw [tuck_concat]
    have hlast : ((L ++ [y]).map (blockOf base)).getLast?.bind
        (absorbBlock · ((L ++ [y]).map (blockOf base))) =
          (absorb y L).map fun S => (S ++ [y]).map (blockOf base) := by
      rw [List.map_append, List.map_singleton, List.getLast?_concat, ← heq, List.map_append,
        List.map_singleton]
      rfl
    rw [tuckBlocks, hlast]
    cases hab : absorb y L with
    | none => exact ⟨by simpa using hL, by simp⟩
    | some S =>
      have hlen : ¬ ((L ++ [y]).map (blockOf base)).length < 2 := by
        have : L ≠ [] := by
          rintro rfl
          simp [absorb] at hab
        have := List.length_pos_iff.mpr this
        simp only [List.length_map, List.length_append, List.length_singleton]
        omega
      rw [if_neg hlen]
      simpa using ih (hS S hab)

end Settle

/-! ## `tlt_segment_add` -/

def spread (base round : U32) (L : List (Stretch U32)) (s e : Nat) : List (Stretch U32) :=
  let w := walk base round L s e
  if w.2.1 = w.2.2 then w.1 else place ⟨w.2.1, w.2.2, round⟩ w.1

/-- `tlt_segment_merge` and `tlt_segment_rearrange_last_block`. -/
def settle (C : List (Stretch U32)) : List (Stretch U32) :=
  Stretch.tuck ((Stretch.glueAll laterRound C).length + 1) (Stretch.glueAll laterRound C)

def addStretches (base round : U32) (L : List (Stretch U32)) (s e : Nat) : List (Stretch U32) :=
  settle (spread base round L s e)

/-- **`tlt_segment_add` does on the blocks what `addStretches` does on the stretches.** -/
theorem addBlocks_eq {base round : U32} {L : List (Stretch U32)} {s e : Nat} (hL : ∀ b ∈ L, InHalf b)
    (hse : s < e) (he : e < 2 ^ 31) :
    (∀ b ∈ addStretches base round L s e, InHalf b) ∧
      addBlocks round (L.map (blockOf base)) (seqAt base s) (u32 (e - s)) =
        (addStretches base round L s e).map (blockOf base) := by
  obtain ⟨hw, hle, hlt, hwalk⟩ := @walkBlocks_eq base round s e (3 * L.length + 3) L hL hse he (by omega)
  have hspread : (∀ b ∈ spread base round L s e, InHalf b) ∧
      spreadBlocks round (L.map (blockOf base)) (seqAt base s) (u32 (e - s)) =
        (spread base round L s e).map (blockOf base) := by
    unfold spread spreadBlocks
    rw [List.length_map, hwalk]
    generalize walk base round L s e = w at *
    have hzero : u32 (w.2.2 - w.2.1) = 0 ↔ w.2.1 = w.2.2 := by
      rw [u32_eq_zero (by omega)]
      omega
    simp only [hzero]
    split_ifs with hdone
    · exact ⟨hw, rfl⟩
    · exact placeBlock_eq ⟨lt_of_le_of_ne hle hdone, hlt⟩ hw
  obtain ⟨hmerge, hglue⟩ := @mergeBlocks_eq base _ hspread.1
  unfold addStretches settle addBlocks
  rw [hspread.2, hglue]
  dsimp only
  rw [List.length_map]
  exact tuckBlocks_eq _ hmerge

end LibvmaTlt.Lwip
