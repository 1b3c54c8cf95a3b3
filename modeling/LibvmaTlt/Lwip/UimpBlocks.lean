import LibvmaTlt.Lwip.UimpSlots

/-!
# The functions of `tlt.c` on lists of blocks

The functions that add to and remove from the queue of unimportant data branch on the blocks they meet
and on nothing else of the slots. Here each is a function on the list of blocks, for blocks and ranges
of any numbers, and what it does to the slots is read off that list: which are in use, and that a slot
is in use only if it lies below the number of blocks.
-/

namespace LibvmaTlt.Lwip

open UimpQueue

/-! ## Blocks -/

def laterRound (r r' : U32) : U32 := if r ≥ r' then r else r'

structure UimpBlock where
  seq : U32
  len : U32
  round : U32
  deriving DecidableEq

def TltTransmitSegment.block (s : TltTransmitSegment) : UimpBlock := ⟨s.seq, s.len, s.round⟩

theorem fields_of_block {s : TltTransmitSegment} {b : UimpBlock} (h : s.block = b) :
    s.seq = b.seq ∧ s.len = b.len ∧ s.round = b.round := by
  subst h
  exact ⟨rfl, rfl, rfl⟩

def UimpBlock.slot (b : UimpBlock) (next : Option Nat) : TltTransmitSegment :=
  ⟨b.seq, b.len, b.round, next⟩

@[simp] theorem UimpBlock.block_slot (b : UimpBlock) (next : Option Nat) : (b.slot next).block = b := rfl

@[simp] theorem UimpBlock.slot_next (b : UimpBlock) (next : Option Nat) : (b.slot next).next = next := rfl

/-- Followed from slot 0, the slots of `q` hold the blocks of `L`; the others are free. -/
abbrev Blocks (q : UimpQueue) (L : List (Nat × UimpBlock)) : Prop :=
  Listed (fun b s => s.block = b) q L

def Solid (L : List UimpBlock) : Prop := ∀ b ∈ L, b.len ≠ 0

theorem Blocks.used {q : UimpQueue} {L : List (Nat × UimpBlock)} (h : Blocks q L)
    (hs : Solid (L.map Prod.snd)) : ∀ n ∈ L, (q.slot n.1).len ≠ 0 := by
  intro n hn
  have hb := h.block n hn
  have hlen := hs n.2 (List.mem_map_of_mem hn)
  rw [← hb] at hlen
  exact hlen

/-! ## A pass over a block -/

/-- What the loop of `tlt_segment_add` makes of a block: the block as it stays, the pieces linked in
behind it, what is left of the range, and whether it breaks. -/
structure Visit where
  p : UimpBlock
  new : List UimpBlock
  seq : U32
  len : U32
  stop : Bool

def visitBlock (round : U32) (p : UimpBlock) (seq len : U32) : Visit :=
  let pEnd := p.seq + p.len
  let sEnd := seq + len
  if TcpSeqLeq p.seq seq ∧ TcpSeqLeq sEnd pEnd then
    if p.round = round then ⟨p, [], seq, 0, true⟩
    else if seq - p.seq ≠ 0 then
      if pEnd - sEnd ≠ 0 then ⟨p, [⟨seq, len, round⟩, ⟨seq, len, p.round⟩], seq, len, false⟩
      else ⟨p, [⟨seq, len, round⟩], seq, len, false⟩
    else if pEnd - sEnd ≠ 0 then ⟨p, [⟨sEnd, pEnd - sEnd, p.round⟩], seq, len, false⟩
    else ⟨{ p with round := round }, [], seq, len, false⟩
  else if TcpSeqLeq seq p.seq ∧ TcpSeqLeq pEnd sEnd then
    if p.seq > seq then
      ⟨{ p with round := round }, [⟨seq, p.seq - seq, round⟩], pEnd, sEnd - pEnd, sEnd - pEnd = 0⟩
    else ⟨p, [], pEnd, sEnd - pEnd, sEnd - pEnd = 0⟩
  else if TcpSeqLeq seq p.seq ∧ TcpSeqLeq sEnd p.seq then ⟨p, [], seq, len, false⟩
  else if TcpSeqLeq pEnd seq ∧ TcpSeqLeq pEnd sEnd then ⟨p, [], seq, len, false⟩
  else if TcpSeqLeq seq p.seq ∧ TcpSeqLeq sEnd pEnd then
    if p.round ≠ round then
      ⟨⟨p.seq, sEnd - p.seq, round⟩, [⟨sEnd, pEnd - sEnd, p.round⟩], seq, p.seq - seq, false⟩
    else ⟨p, [], seq, p.seq - seq, false⟩
  else if TcpSeqLeq p.seq seq ∧ TcpSeqLeq pEnd sEnd then
    if p.round ≠ round then
      ⟨{ p with len := seq - p.seq }, [⟨seq, pEnd - seq, round⟩], seq, len, false⟩
    else ⟨p, [], pEnd, sEnd - pEnd, false⟩
  else ⟨p, [], seq, len, false⟩

def TltAdd.rewrite (a : TltAdd) (ps : Nat) (b : UimpBlock) : TltAdd :=
  { a with q := a.q.set ps (b.slot (a.q.slot ps).next) }

def TltAdd.linkAll (a : TltAdd) (ps : Nat) : List UimpBlock → TltAdd
  | [] => a
  | b :: bs => (a.link ps (b.slot none)).linkAll a.i bs

theorem TltAdd.rewrite_self (a : TltAdd) (ps : Nat) : a.rewrite ps (a.q.slot ps).block = a := by
  have hq : a.q.set ps ((a.q.slot ps).block.slot (a.q.slot ps).next) = a.q :=
    congrArg (UimpQueue.mk · a.q.len) (Function.update_eq_self ps a.q.slot)
  unfold TltAdd.rewrite
  rw [hq]

/-- What the loop has done to the slots once it has visited the slot `ps`. -/
def TltAdd.visited (a : TltAdd) (ps : Nat) (v : Visit) : TltAdd :=
  { (a.rewrite ps v.p).linkAll ps v.new with seq := v.seq, len := v.len }

theorem tltAddStep_eq (a : TltAdd) (round : U32) (ps : Nat) :
    tltAddStep a round ps =
      (a.visited ps (visitBlock round (a.q.slot ps).block a.seq a.len),
        (visitBlock round (a.q.slot ps).block a.seq a.len).stop) := by
  have hself := a.rewrite_self ps
  generalize hp : (a.q.slot ps).block = p at hself ⊢
  obtain ⟨hseq, hlen, hround⟩ := fields_of_block hp
  generalize hv : visitBlock round p a.seq a.len = v
  revert hv
  unfold visitBlock tltAddStep
  dsimp only
  rw [hseq, hlen, hround]
  split_ifs
  all_goals
    rintro rfl
    simp only [TltAdd.visited, TltAdd.linkAll, hself]
  all_goals rfl

/-! ### No piece is empty -/

theorem leq_refl (x : U32) : TcpSeqLeq x x := by
  simp [Serial.Le]

theorem visitBlock_solid {round seq len : U32} {p : UimpBlock} (hp : p.len ≠ 0) (hlen : len ≠ 0) :
    (visitBlock round p seq len).p.len ≠ 0 ∧ Solid (visitBlock round p seq len).new ∧
      ((visitBlock round p seq len).stop = true ↔ (visitBlock round p seq len).len = 0) := by
  generalize hs : seq + len = sEnd
  generalize he : p.seq + p.len = pEnd
  unfold visitBlock
  simp only [hs, he]
  split_ifs with hin hround hfront hback hback hover hgap hbefore hbehind hleft hround hright hround
  all_goals simp only [Solid, List.mem_cons, List.not_mem_nil, or_false, forall_eq_or_imp, forall_eq,
    false_implies, implies_true, and_true, true_and, false_iff, decide_eq_true_eq]
  · exact hp
  · exact ⟨hp, ⟨hlen, hlen⟩, hlen⟩
  · exact ⟨hp, hlen, hlen⟩
  · exact ⟨hp, hback, hlen⟩
  · exact ⟨hp, hlen⟩
  · refine ⟨hp, sub_ne_zero.mpr fun heq => ?_⟩
    exact BitVec.lt_irrefl _ (heq ▸ hgap)
  · exact hp
  · exact ⟨hp, hlen⟩
  · exact ⟨hp, hlen⟩
  · -- else one of the cases above would have been taken
    refine ⟨sub_ne_zero.mpr ?_, sub_ne_zero.mpr ?_, sub_ne_zero.mpr ?_⟩
    · rintro rfl
      exact hbefore ⟨hleft.1, leq_refl _⟩
    · rintro rfl
      exact hover ⟨hleft.1, leq_refl _⟩
    · intro heq
      exact hin ⟨heq ▸ leq_refl _, hleft.2⟩
  · refine ⟨hp, sub_ne_zero.mpr fun heq => ?_⟩
    exact hin ⟨heq ▸ leq_refl _, hleft.2⟩
  · refine ⟨sub_ne_zero.mpr ?_, sub_ne_zero.mpr ?_, hlen⟩
    · intro heq
      exact hover ⟨heq ▸ leq_refl _, hright.2⟩
    · intro heq
      exact hbehind ⟨heq ▸ leq_refl _, hright.2⟩
  · refine ⟨hp, sub_ne_zero.mpr fun heq => ?_⟩
    exact hin ⟨hright.1, heq ▸ leq_refl _⟩
  · exact ⟨hp, hlen⟩

/-! ## The slots while a range is added -/

def Kept (l : List Nat) (q q' : UimpQueue) : Prop := ∀ i, i ∉ l → q'.slot i = q.slot i

theorem Kept.mono {l l' : List Nat} {q q' : UimpQueue} (h : Kept l q q') (hsub : l ⊆ l') : Kept l' q q' :=
  fun i hi => h i fun hmem => hi (hsub hmem)

theorem Kept.trans {l : List Nat} {q q' q'' : UimpQueue} (h : Kept l q q') (h' : Kept l q' q'') :
    Kept l q q'' := fun i hi => (h' i hi).trans (h i hi)

/-- A slot past the array is in use only if the array has no room for the blocks. -/
def Within {β : Type*} (L : List (Nat × β)) : Prop := ∀ c ∈ cells L, c < max maxUimpQueueElem L.length

theorem FirstFree.le_length {β : Type*} {L : List (Nat × β)} {i : Nat} (h : FirstFree L i) :
    i ≤ L.length := by
  have hsub : List.range i ⊆ cells L := fun j hj => h.below j (List.mem_range.mp hj)
  have hle := (List.subperm_of_subset List.nodup_range hsub).length_le
  simpa [cells] using hle

/-- The queue while blocks are linked in: no block is empty, and the slots of `q₀` that are not in use
have not been written. -/
structure Laid (q₀ q : UimpQueue) (L : List (Nat × UimpBlock)) : Prop where
  blocks : Blocks q L
  solid : Solid (L.map Prod.snd)
  within : Within L
  kept : Kept (cells L) q₀ q

section Laid

variable {q₀ q q' : UimpQueue} {pre post : List (Nat × UimpBlock)} {c i : Nat} {p b : UimpBlock}

theorem Laid.change (h : Laid q₀ q (pre ++ (c, p) :: post)) (hb : b.len ≠ 0) :
    Laid q₀ (q.set c (b.slot (q.slot c).next)) (pre ++ (c, b) :: post) := by
  have hcells : cells (pre ++ (c, b) :: post) = cells (pre ++ (c, p) :: post) := by simp
  refine ⟨?_, ?_, ?_, ?_⟩
  · refine h.blocks.change (by simp) (by simp) rfl fun i hi => ?_
    exact set_slot_of_ne _ _ hi
  · intro x hx
    simp only [List.map_append, List.map_cons, List.mem_append, List.mem_cons] at hx
    rcases hx with hx | rfl | hx
    · exact h.solid x (by simp [hx])
    · exact hb
    · exact h.solid x (by simp [hx])
  · intro j hj
    have hj' := h.within j (hcells ▸ hj)
    simpa using hj'
  · rw [hcells]
    intro j hj
    have hjc : j ≠ c := by
      rintro rfl
      simp at hj
    rw [set_slot_of_ne _ _ hjc]
    exact h.kept j hj

theorem Laid.link (h : Laid q₀ q (pre ++ (c, p) :: post)) (hi : FirstFree (pre ++ (c, p) :: post) i)
    (hb : b.len ≠ 0) (hc : q'.slot c = { q.slot c with next := some i })
    (hslot : q'.slot i = b.slot (q.slot c).next) (hlen : q'.len = q.len + 1)
    (hrest : ∀ j, j ≠ c → j ≠ i → q'.slot j = q.slot j) :
    Laid q₀ q' (pre ++ (c, p) :: (i, b) :: post) := by
  refine ⟨?_, ?_, ?_, ?_⟩
  · refine h.blocks.link hi.free ?_ ?_ ?_ ?_ hlen hrest
    · rw [hc]
      exact h.blocks.block_mid
    · rw [hc]
    · rw [hslot]
      rfl
    · rw [hslot]
      rfl
  · intro x hx
    simp only [List.map_append, List.map_cons, List.mem_append, List.mem_cons] at hx
    rcases hx with hx | rfl | rfl | hx
    · exact h.solid x (by simp [hx])
    · exact h.solid x (by simp)
    · exact hb
    · exact h.solid x (by simp [hx])
  · intro j hj
    have hle := hi.le_length
    have hw := h.within j
    simp only [cells_append, cells_cons, List.mem_append, List.mem_cons, List.length_append,
      List.length_cons] at hj hle hw ⊢
    rcases hj with hj | rfl | rfl | hj
    · have := hw (.inl hj)
      omega
    · have := hw (.inr (.inl rfl))
      omega
    · omega
    · have := hw (.inr (.inr hj))
      omega
  · intro j hj
    simp only [cells_append, cells_cons, List.mem_append, List.mem_cons, not_or] at hj
    rw [hrest j hj.2.1 hj.2.2.1]
    exact h.kept j (by simp [hj])

end Laid

structure Adding (q₀ : UimpQueue) (a : TltAdd) (L : List (Nat × UimpBlock)) : Prop where
  laid : Laid q₀ a.q L
  free : FirstFree L a.i

section Adding

variable {q₀ : UimpQueue} {a : TltAdd} {L pre post : List (Nat × UimpBlock)} {c : Nat} {p b : UimpBlock}
  {round : U32}

theorem Adding.link (h : Adding q₀ a (pre ++ (c, p) :: post)) (hb : b.len ≠ 0) :
    Adding q₀ (a.link c (b.slot none)) (pre ++ (c, p) :: (a.i, b) :: post) := by
  have hic : a.i ≠ c := by
    rintro hic
    exact h.free.free (by simp [hic])
  have hl : Laid q₀ (a.link c (b.slot none)).q (pre ++ (c, p) :: (a.i, b) :: post) := by
    refine h.laid.link h.free hb ?_ ?_ rfl ?_
    · simp [TltAdd.link, hic.symm]
    · simp only [TltAdd.link, grow_slot, setNext_slot_of_ne _ _ hic, set_slot_self]
      rfl
    · intro j hjc hji
      simp [TltAdd.link, hjc, hji]
  refine ⟨hl, hl.blocks.nextAvailable (hl.blocks.used hl.solid) ?_⟩
  intro j hj
  have := h.free.below j hj
  simp only [cells_append, cells_cons, List.mem_append, List.mem_cons] at this ⊢
  tauto

theorem Adding.linkAll {bs : List UimpBlock} (h : Adding q₀ a (pre ++ (c, p) :: post)) (hb : Solid bs) :
    ∃ B, B.map Prod.snd = bs ∧ Adding q₀ (a.linkAll c bs) (pre ++ (c, p) :: (B ++ post)) := by
  induction bs generalizing a pre c p with
  | nil => exact ⟨[], rfl, h⟩
  | cons b bs ih =>
    have hlink := h.link (hb b (by simp))
    have happ := List.append_cons pre (c, p) ((a.i, b) :: post)
    obtain ⟨B, hB, hall⟩ := ih (happ ▸ hlink) fun x hx => hb x (by simp [hx])
    exact ⟨(a.i, b) :: B, by simp [hB], by simpa [TltAdd.linkAll] using hall⟩

theorem Adding.rewrite (h : Adding q₀ a (pre ++ (c, p) :: post)) (hb : b.len ≠ 0) :
    Adding q₀ (a.rewrite c b) (pre ++ (c, b) :: post) := by
  refine ⟨h.laid.change hb, ⟨?_, ?_⟩⟩
  · simpa [TltAdd.rewrite] using h.free.free
  · simpa [TltAdd.rewrite] using h.free.below

theorem Adding.visited {v : Visit} (h : Adding q₀ a (pre ++ (c, p) :: post)) (hp : v.p.len ≠ 0)
    (hnew : Solid v.new) :
    ∃ B, B.map Prod.snd = v.new ∧ Adding q₀ (a.visited c v) (pre ++ (c, v.p) :: (B ++ post)) := by
  obtain ⟨B, hB, hlaid, hfree⟩ := (h.rewrite hp).linkAll hnew
  exact ⟨B, hB, hlaid, hfree⟩

/-- The loop over the blocks, a pass for each unit of `f`: the blocks it leaves, and what is left of the
range. The pieces that a pass links in are the next to be visited. -/
def walkBlocks (round : U32) : Nat → List UimpBlock → U32 → U32 → List UimpBlock × U32 × U32
  | f + 1, p :: L, seq, len =>
    let v := visitBlock round p seq len
    if v.stop then (v.p :: (v.new ++ L), v.seq, v.len)
    else
      let w := walkBlocks round f (v.new ++ L) v.seq v.len
      (v.p :: w.1, w.2)
  | _, L, seq, len => (L, seq, len)

theorem Adding.walked {suf : List (Nat × UimpBlock)} (round : U32) (f : Nat)
    (h : Adding q₀ a (pre ++ suf)) (hlen : a.len ≠ 0) :
    ∃ W, W.map Prod.snd = (walkBlocks round f (suf.map Prod.snd) a.seq a.len).1 ∧
      Adding q₀ (tltAddLoop round f a (cells suf).head?) (pre ++ W) ∧
      (tltAddLoop round f a (cells suf).head?).seq =
        (walkBlocks round f (suf.map Prod.snd) a.seq a.len).2.1 ∧
      (tltAddLoop round f a (cells suf).head?).len =
        (walkBlocks round f (suf.map Prod.snd) a.seq a.len).2.2 := by
  induction f generalizing pre suf a with
  | zero => exact ⟨suf, rfl, h, rfl, rfl⟩
  | succ f ih =>
    cases suf with
    | nil => exact ⟨[], rfl, h, rfl, rfl⟩
    | cons n suf =>
      obtain ⟨c, p⟩ := n
      have hslot : (a.q.slot c).block = p := h.laid.blocks.block_mid
      obtain ⟨hp, hnew, hstop⟩ := @visitBlock_solid round a.seq a.len p (h.laid.solid p (by simp)) hlen
      have hstep := tltAddStep_eq a round c
      rw [hslot] at hstep
      simp only [List.map_cons, cells_cons, List.head?_cons, tltAddLoop, walkBlocks, hstep]
      generalize visitBlock round p a.seq a.len = v at *
      obtain ⟨B, hB, hv⟩ := h.visited hp hnew
      by_cases hs : v.stop
      · rw [if_pos hs, if_pos hs]
        exact ⟨(c, v.p) :: (B ++ suf), by simp [hB], hv, rfl, rfl⟩
      rw [if_neg hs, if_neg hs, hv.laid.blocks.next_eq]
      have happ := List.append_cons pre (c, v.p) (B ++ suf)
      obtain ⟨W, hW, hA, h1, h2⟩ := ih (happ ▸ hv) (fun hz => hs (hstop.mpr hz))
      rw [List.map_append, hB] at hW h1 h2
      exact ⟨(c, v.p) :: W, congrArg (v.p :: ·) hW, by simpa using hA, h1, h2⟩

end Adding

/-! ## Where the rest goes -/

/-- In front of the first later block, else at the end. -/
def putBlock (b : UimpBlock) : List UimpBlock → List UimpBlock
  | [] => [b]
  | y :: L => if TcpSeqLeq (b.seq + b.len) y.seq then b :: y :: L else y :: putBlock b L

def placeBlock (b : UimpBlock) : List UimpBlock → List UimpBlock
  | [] => [b]
  | y :: L => y :: putBlock b L

@[simp] theorem length_putBlock (b : UimpBlock) (L : List UimpBlock) :
    (putBlock b L).length = L.length + 1 := by
  induction L with
  | nil => rfl
  | cons y L ih =>
    unfold putBlock
    split
    · rfl
    · rw [List.length_cons, ih, List.length_cons]

@[simp] theorem length_placeBlock (b : UimpBlock) (L : List UimpBlock) :
    (placeBlock b L).length = L.length + 1 := by
  cases L with
  | nil => rfl
  | cons y L => simp [placeBlock]

section Place

variable {q₀ q : UimpQueue} {pre post : List (Nat × UimpBlock)} {c i f : Nat} {x b : UimpBlock}

theorem Laid.insert (h : Laid q₀ q (pre ++ (c, x) :: post)) (hi : FirstFree (pre ++ (c, x) :: post) i)
    (hb : b.len ≠ 0) :
    Laid q₀ ((q.setNext c (some i)).set i ⟨b.seq, b.len, b.round, (cells post).head?⟩).grow
      (pre ++ (c, x) :: (i, b) :: post) := by
  have hci : c ≠ i := by
    rintro rfl
    exact hi.free (by simp)
  refine h.link hi hb ?_ ?_ rfl ?_
  · rw [grow_slot, set_slot_of_ne _ _ hci, setNext_slot_self]
  · rw [grow_slot, set_slot_self, h.blocks.next_eq]
    rfl
  · intro j hjc hji
    rw [grow_slot, set_slot_of_ne _ _ hji, setNext_slot_of_ne _ _ hjc]

theorem Laid.inserted (h : Laid q₀ q (pre ++ (c, x) :: post))
    (hi : FirstFree (pre ++ (c, x) :: post) i) (hb : b.len ≠ 0) (hf : post.length < f) :
    ∃ P, P.map Prod.snd = putBlock b (post.map Prod.snd) ∧
      Laid q₀ (tltInsertLoop i b.seq b.len b.round f q c (cells post).head?) (pre ++ (c, x) :: P) := by
  induction post generalizing pre c x f with
  | nil =>
    refine ⟨[(i, b)], rfl, ?_⟩
    have hins := h.insert hi hb
    cases f <;> exact hins
  | cons n post ih =>
    obtain ⟨d, y⟩ := n
    obtain ⟨f, rfl⟩ : ∃ g, f = g + 1 := ⟨f - 1, by omega⟩
    have happ := List.append_cons pre (c, x) ((d, y) :: post)
    obtain ⟨hy, -⟩ := fields_of_block (Listed.block_mid (happ ▸ h.blocks))
    simp only [List.map_cons, putBlock, cells_cons, List.head?_cons, tltInsertLoop, hy]
    split_ifs with hle
    · exact ⟨(i, b) :: (d, y) :: post, rfl, h.insert hi hb⟩
    obtain ⟨P, hP, hQ⟩ := ih (happ ▸ h) (happ ▸ hi) (f := f)
      (by simp only [List.length_cons] at hf; omega)
    refine ⟨(d, y) :: P, by simp [hP], ?_⟩
    rw [Listed.next_eq (happ ▸ h.blocks)]
    simpa using hQ

end Place

/-! ## Merging -/

/-- The loop of `tlt_segment_merge`, behind the block `a`. -/
def glueBlock : UimpBlock → List UimpBlock → List UimpBlock
  | a, [] => [a]
  | a, b :: L =>
    if a.len + a.seq = b.seq ∧ a.round = b.round then glueBlock { a with len := a.len + b.len } L
    else if a.seq = b.seq ∧ a.len = b.len then glueBlock { a with round := laterRound a.round b.round } L
    else a :: glueBlock b L

def mergeBlocks : List UimpBlock → List UimpBlock
  | [] => []
  | a :: L => glueBlock a L

section Merge

variable {q : UimpQueue} {L pre post : List (Nat × UimpBlock)} {c d f : Nat} {x y : UimpBlock}

theorem Blocks.join {z : UimpBlock} {t u : TltTransmitSegment}
    (h : Blocks q (pre ++ (c, x) :: (d, y) :: post)) (ht : t.block = z)
    (hn : t.next = (q.slot d).next) (hu : u.len = 0) :
    Blocks ((q.set c t).set d u).shrink (pre ++ (c, z) :: post) ∧
      Kept (cells (pre ++ (c, x) :: (d, y) :: post)) q ((q.set c t).set d u).shrink := by
  have happ := List.append_cons pre (c, x) ((d, y) :: post)
  have hcd : c ≠ d := (Listed.ne_mid (happ ▸ h)).1 c (by simp)
  have hrest : ∀ j, j ≠ c → j ≠ d → (((q.set c t).set d u).shrink).slot j = q.slot j := by
    intro j hjc hjd
    rw [shrink_slot, set_slot_of_ne _ _ hjd, set_slot_of_ne _ _ hjc]
  constructor
  · refine Listed.drop h ?_ ?_ ?_ rfl hrest
    · rwa [shrink_slot, set_slot_of_ne _ _ hcd, set_slot_self]
    · rwa [shrink_slot, set_slot_of_ne _ _ hcd, set_slot_self]
    · rwa [shrink_slot, set_slot_self]
  · intro j hj
    simp only [cells_append, cells_cons, List.mem_append, List.mem_cons, not_or] at hj
    exact hrest j hj.2.1 hj.2.2.1

theorem Blocks.glued (h : Blocks q (pre ++ (c, x) :: post)) (hf : post.length < f) :
    ∃ P, P.map Prod.snd = glueBlock x (post.map Prod.snd) ∧
      Blocks (mergeLoop f q c (cells post).head?) (pre ++ P) ∧
      cells (pre ++ P) ⊆ cells (pre ++ (c, x) :: post) ∧
      Kept (cells (pre ++ (c, x) :: post)) q (mergeLoop f q c (cells post).head?) := by
  induction post generalizing q pre c x f with
  | nil =>
    refine ⟨[(c, x)], rfl, ?_, fun _ hi => hi, ?_⟩
    · cases f <;> exact h
    · cases f <;> exact fun i _ => rfl
  | cons n post ih =>
    obtain ⟨d, y⟩ := n
    obtain ⟨f, rfl⟩ : ∃ g, f = g + 1 := ⟨f - 1, by omega⟩
    simp only [List.length_cons, Nat.add_lt_add_iff_right] at hf
    have happ := List.append_cons pre (c, x) ((d, y) :: post)
    obtain ⟨hxs, hxl, hxr⟩ := fields_of_block h.block_mid
    obtain ⟨hys, hyl, hyr⟩ := fields_of_block (Listed.block_mid (happ ▸ h))
    simp only [List.map_cons, glueBlock, cells_cons, List.head?_cons, mergeLoop]
    have hlater : (if x.round ≥ y.round then x.round else y.round) = laterRound x.round y.round := rfl
    rw [hxs, hxl, hxr, hys, hyl, hyr, hlater]
    -- the loop goes on behind the joined block
    have hjoined : ∀ (t u : TltTransmitSegment), t.next = (q.slot d).next → u.len = 0 →
        ∃ P, P.map Prod.snd = glueBlock t.block (post.map Prod.snd) ∧
          Blocks (mergeLoop f ((q.set c t).set d u).shrink c
            (((q.set c t).set d u).shrink.slot c).next) (pre ++ P) ∧
          cells (pre ++ P) ⊆ cells (pre ++ (c, x) :: (d, y) :: post) ∧
          Kept (cells (pre ++ (c, x) :: (d, y) :: post)) q
            (mergeLoop f ((q.set c t).set d u).shrink c (((q.set c t).set d u).shrink.slot c).next) := by
      intro t u hn hu
      obtain ⟨hQ, hk⟩ := h.join rfl hn hu
      have hsub : cells (pre ++ (c, t.block) :: post) ⊆ cells (pre ++ (c, x) :: (d, y) :: post) := by
        intro j hj
        simp only [cells_append, cells_cons, List.mem_append, List.mem_cons] at hj ⊢
        tauto
      obtain ⟨P, hP, hB, hc, hk'⟩ := ih hQ hf
      rw [← hQ.next_eq] at hB hk'
      exact ⟨P, hP, hB, fun j hj => hsub (hc hj), hk.trans (hk'.mono hsub)⟩
    split_ifs
    · exact hjoined ⟨x.seq, x.len + y.len, x.round, (q.slot d).next⟩ ⟨0, 0, y.round, none⟩ rfl rfl
    · exact hjoined ⟨x.seq, x.len, laterRound x.round y.round, (q.slot d).next⟩ .zero rfl rfl
    · obtain ⟨P, hP, hB, hc, hk⟩ := ih (happ ▸ h) hf
      rw [← Listed.next_eq (happ ▸ h)] at hB hk
      rw [← happ] at hc hk
      exact ⟨(c, x) :: P, by simp [hP], by simpa using hB, by simpa using hc, by simpa using hk⟩

theorem glueBlock_ne_nil (x : UimpBlock) (B : List UimpBlock) : glueBlock x B ≠ [] := by
  fun_induction glueBlock x B <;> simp_all

theorem Blocks.merge (h : Blocks q L) (hs : ∀ n ∈ L, n.1 = 0 → (q.slot 0).len ≠ 0) (hL : L ≠ []) :
    ∃ P, P.map Prod.snd = mergeBlocks (L.map Prod.snd) ∧ Blocks (tltSegmentMerge q) P ∧ P ≠ [] ∧
      cells P ⊆ cells L ∧ Kept (cells L) q (tltSegmentMerge q) := by
  obtain ⟨⟨c, x⟩, post, rfl⟩ := List.exists_cons_of_ne_nil hL
  obtain rfl := h.head_eq
  have hnext := h.next_head
  have hlen := hs (0, x) (by simp) rfl
  have hq := h.len
  simp only [List.length_cons] at hq
  unfold tltSegmentMerge
  by_cases hn : (q.slot 0).next = none
  · rw [if_neg (by simp [hn])]
    obtain rfl : post = [] := by
      rw [hn] at hnext
      cases post with
      | nil => rfl
      | cons n post => simp at hnext
    exact ⟨_, rfl, h, by simp, fun _ hi => hi, fun _ _ => rfl⟩
  · rw [if_pos ⟨hlen, hn⟩, hnext]
    have hf : post.length < q.len + 1 := by omega
    obtain ⟨P, hP, hB, hc, hk⟩ := Blocks.glued (show Blocks q ([] ++ (0, x) :: post) from h) hf
    refine ⟨P, hP, hB, ?_, hc, hk⟩
    rintro rfl
    exact glueBlock_ne_nil x (post.map Prod.snd) hP.symm

end Merge

/-! ## The last block -/

/-- The loop of `tlt_segment_rearrange_last_block` for the last block `l`. It looks at the last block too,
which touches itself if it is empty. -/
def absorbBlock (l : UimpBlock) : List UimpBlock → Option (List UimpBlock)
  | [] => none
  | c :: L =>
    if c.round ≠ l.round then (absorbBlock l L).map (c :: ·)
    else if l.seq + l.len = c.seq then some ({ c with len := l.len + c.len, seq := l.seq } :: L)
    else if c.seq + c.len = l.seq then some ({ c with len := c.len + l.len } :: L)
    else (absorbBlock l L).map (c :: ·)

def tuckBlocks : Nat → List UimpBlock → List UimpBlock
  | 0, L => L
  | f + 1, L =>
    if L.length < 2 then L
    else
      match L.getLast?.bind (absorbBlock · L) with
      | none => L
      | some L' => tuckBlocks f L'.dropLast

section Tuck

variable {q : UimpQueue} {L pre suf : List (Nat × UimpBlock)} {d f : Nat} {y : UimpBlock}

theorem Blocks.absorbed (h : Blocks q (pre ++ suf)) (hd : (q.slot d).block = y) (hf : suf.length < f) :
    match absorbBlock y (suf.map Prod.snd) with
    | none => rearrangeLoop q d f (cells suf).head? = (q, false)
    | some S => ∃ q' suf', rearrangeLoop q d f (cells suf).head? = (q', true) ∧
        cells suf' = cells suf ∧ suf'.map Prod.snd = S ∧ Blocks q' (pre ++ suf') ∧
        Kept (cells suf) q q' := by
  obtain ⟨hys, hyl, hyr⟩ := fields_of_block hd
  induction suf generalizing pre f with
  | nil => cases f <;> rfl
  | cons n suf ih =>
    obtain ⟨c, x⟩ := n
    obtain ⟨f, rfl⟩ : ∃ g, f = g + 1 := ⟨f - 1, by omega⟩
    obtain ⟨hxs, hxl, hxr⟩ := fields_of_block h.block_mid
    have happ := List.append_cons pre (c, x) suf
    have hnext := h.next_eq
    have ih := ih (happ ▸ h) (f := f) (by simp only [List.length_cons] at hf; omega)
    -- the block at `c` takes the last one in
    have hset : ∀ z : UimpBlock, ∃ q' suf',
        (q.set c (z.slot (q.slot c).next), true) = (q', true) ∧ cells suf' = cells ((c, x) :: suf) ∧
        suf'.map Prod.snd = z :: suf.map Prod.snd ∧ Blocks q' (pre ++ suf') ∧
        Kept (cells ((c, x) :: suf)) q q' := by
      intro z
      refine ⟨_, (c, z) :: suf, rfl, rfl, rfl, ?_, ?_⟩
      · exact Listed.change h (by simp) (by simp) rfl fun i hi => set_slot_of_ne _ _ hi
      · intro i hi
        refine set_slot_of_ne _ _ ?_
        rintro rfl
        simp at hi
    -- or it is passed over
    have hpass : rearrangeLoop q d (f + 1) (some c) = rearrangeLoop q d f (cells suf).head? →
        match (absorbBlock y (suf.map Prod.snd)).map (x :: ·) with
        | none => rearrangeLoop q d (f + 1) (some c) = (q, false)
        | some S => ∃ q' suf', rearrangeLoop q d (f + 1) (some c) = (q', true) ∧
            cells suf' = cells ((c, x) :: suf) ∧ suf'.map Prod.snd = S ∧ Blocks q' (pre ++ suf') ∧
            Kept (cells ((c, x) :: suf)) q q' := by
      intro hloop
      rw [hloop]
      cases hS : absorbBlock y (suf.map Prod.snd) with
      | none =>
        rw [hS] at ih
        exact ih
      | some S =>
        rw [hS] at ih
        obtain ⟨q', suf', h1, h2, h3, h4, h5⟩ := ih
        exact ⟨q', (c, x) :: suf', h1, by simp [h2], by simp [h3], by simpa using h4,
          h5.mono (by simp)⟩
    have hstep : rearrangeLoop q d (f + 1) (some c) =
        if x.round ≠ y.round then rearrangeLoop q d f (cells suf).head?
        else if y.seq + y.len = x.seq then
          (q.set c (({ x with len := y.len + x.len, seq := y.seq } : UimpBlock).slot (q.slot c).next), true)
        else if x.seq + x.len = y.seq then
          (q.set c (({ x with len := x.len + y.len } : UimpBlock).slot (q.slot c).next), true)
        else rearrangeLoop q d f (cells suf).head? := by
      simp only [rearrangeLoop]
      rw [hxs, hxl, hxr, hys, hyl, hyr, hnext]
      rfl
    rw [List.map_cons, cells_cons, List.head?_cons, absorbBlock]
    split_ifs with h1 h2 h3
    · refine hpass ?_
      rw [hstep, if_pos h1]
    · rw [hstep, if_neg h1, if_pos h2]
      exact hset _
    · rw [hstep, if_neg h1, if_neg h2, if_pos h3]
      exact hset _
    · refine hpass ?_
      rw [hstep, if_neg h1, if_neg h2, if_neg h3]

theorem Blocks.unlinkLast {c : Nat} {x : UimpBlock} (h : Blocks q (pre ++ [(c, x), (d, y)])) :
    Blocks ((q.set d .zero).setNext c none).shrink (pre ++ [(c, x)]) ∧
      Kept (cells (pre ++ [(c, x), (d, y)])) q ((q.set d .zero).setNext c none).shrink := by
  have hlast : Blocks q ((pre ++ [(c, x)]) ++ (d, y) :: []) := by simpa using h
  have hcd : c ≠ d := hlast.ne_mid.1 c (by simp)
  have hrest : ∀ j, j ≠ c → j ≠ d → (((q.set d .zero).setNext c none).shrink).slot j = q.slot j := by
    intro j hjc hjd
    rw [shrink_slot, setNext_slot_of_ne _ _ hjc, set_slot_of_ne _ _ hjd]
  constructor
  · refine Listed.drop h ?_ ?_ ?_ rfl hrest
    · rw [shrink_slot, setNext_slot_self, set_slot_of_ne _ _ hcd]
      exact h.block_mid
    · rw [shrink_slot, setNext_slot_self]
      exact hlast.next_eq.symm
    · rw [shrink_slot, setNext_slot_of_ne _ _ hcd.symm, set_slot_self]
      rfl
  · intro j hj
    simp only [cells_append, cells_cons, cells_nil, List.mem_append, List.mem_cons, not_or] at hj
    exact hrest j hj.2.1 hj.2.2.1

/-- The call that `tlt_segment_rearrange_last_block` makes of itself, if any. -/
def rearrangeCall (q : UimpQueue) : Option UimpQueue :=
  match (q.slot 0).next with
  | none => none
  | some _ =>
    match lastNode q (q.len + 1) none 0 with
    | (none, _) => none
    | (some prevLast, last) =>
      match rearrangeLoop q last (q.len + 1) (some 0) with
      | (_, false) => none
      | (q, true) => some (((q.set last .zero).setNext prevLast none).shrink)

theorem rearrangeLoop_false (last f : Nat) (cur : Option Nat)
    (h : (rearrangeLoop q last f cur).2 = false) : (rearrangeLoop q last f cur).1 = q := by
  fun_induction rearrangeLoop q last f cur <;> simp_all

theorem rearrange_succ (f : Nat) (q : UimpQueue) : tltSegmentRearrangeLastBlock (f + 1) q =
    (rearrangeCall q).elim q (tltSegmentRearrangeLastBlock f) := by
  rw [tltSegmentRearrangeLastBlock, rearrangeCall]
  cases (q.slot 0).next with
  | none => rfl
  | some _ =>
    rcases lastNode q (q.len + 1) none 0 with ⟨_ | prevLast, last⟩
    · rfl
    have hloop := @rearrangeLoop_false q last (q.len + 1) (some 0)
    dsimp only
    generalize rearrangeLoop q last (q.len + 1) (some 0) = w at hloop ⊢
    obtain ⟨q', _ | _⟩ := w
    · exact hloop rfl
    · rfl

theorem Blocks.call (h : Blocks q L) (hL : L ≠ []) :
    (rearrangeCall q = none ∧ ∀ f, tuckBlocks f (L.map Prod.snd) = L.map Prod.snd) ∨
      ∃ q' P, rearrangeCall q = some q' ∧ P ≠ [] ∧ P.length < L.length ∧
        (∀ f, tuckBlocks (f + 1) (L.map Prod.snd) = tuckBlocks f (P.map Prod.snd)) ∧
        Blocks q' P ∧ cells P ⊆ cells L ∧ Kept (cells L) q q' := by
  obtain ⟨init, ⟨d, y⟩, rfl⟩ : ∃ init n, L = init ++ [n] :=
    ⟨L.dropLast, L.getLast hL, (List.dropLast_append_getLast hL).symm⟩
  rcases List.eq_nil_or_concat init with rfl | ⟨pre, ⟨c, x⟩, rfl⟩
  · -- a single block
    obtain rfl := Listed.head_eq h
    have hnext : (q.slot 0).next = none := h.next_head
    exact .inl ⟨by simp [rearrangeCall, hnext], fun f => by cases f <;> rfl⟩
  · rw [List.concat_eq_append] at *
    have happ : pre ++ [(c, x)] ++ [(d, y)] = [] ++ (pre ++ [(c, x), (d, y)]) := by simp
    have hq : q.len = pre.length + 2 := by rw [h.len]; simp
    obtain ⟨i, hi, hlast⟩ := lastNode_eq (f := q.len + 1) none (happ ▸ h) (by omega)
    rw [happ, List.nil_append] at h ⊢
    generalize hM : pre ++ [(c, x), (d, y)] = M at *
    -- the chain starts at slot 0, and does not end there
    obtain ⟨x₀, m, post, rfl⟩ : ∃ x₀ m post, M = (0, x₀) :: m :: post := by
      obtain ⟨⟨i, z⟩, m, post, hL⟩ : ∃ n m post, M = n :: m :: post := by
        rw [← hM]
        cases pre with
        | nil => exact ⟨_, _, _, rfl⟩
        | cons n pre => cases pre <;> exact ⟨_, _, _, rfl⟩
      rw [hL] at h
      obtain rfl := h.head_eq
      exact ⟨z, m, post, hL⟩
    obtain rfl : 0 = i := by simpa using hi
    have hn : (q.slot 0).next = some m.1 := h.next_head
    have hy : (q.slot d).block = y := h.block (d, y) (by simp [← hM])
    have hf : ((0, x₀) :: m :: post).length < q.len + 1 := by rw [h.len]; omega
    have hloop := Blocks.absorbed (show Blocks q ([] ++ (0, x₀) :: m :: post) from h) hy hf
    have hget : (((0, x₀) :: m :: post).map Prod.snd).getLast? = some y := by simp [← hM]
    have htuck : ∀ f, tuckBlocks (f + 1) (((0, x₀) :: m :: post).map Prod.snd) =
        match absorbBlock y (((0, x₀) :: m :: post).map Prod.snd) with
        | none => ((0, x₀) :: m :: post).map Prod.snd
        | some L' => tuckBlocks f L'.dropLast := by
      intro f
      rw [tuckBlocks, if_neg (by simp), hget]
      rfl
    rw [hi] at hloop
    cases hS : absorbBlock y (((0, x₀) :: m :: post).map Prod.snd) with
    | none =>
      rw [hS] at hloop
      simp only [hS] at htuck
      refine .inl ⟨by simp only [rearrangeCall, hn, hlast, hloop], fun f => ?_⟩
      cases f with
      | zero => rfl
      | succ f => exact htuck f
    | some S =>
      rw [hS] at hloop
      obtain ⟨q', suf', hl, hcells, rfl, hB, hk⟩ := hloop
      obtain ⟨pre', x', y', rfl⟩ : ∃ pre' x' y', suf' = pre' ++ [(c, x'), (d, y')] := by
        rw [← hM, cells_append] at hcells
        obtain ⟨pre', l, rfl, -, hl⟩ := List.map_eq_append_iff.mp hcells
        obtain ⟨n, l', rfl, rfl, hl'⟩ := List.map_eq_cons_iff.mp hl
        obtain ⟨n', l'', rfl, rfl, hl''⟩ := List.map_eq_cons_iff.mp hl'
        rw [List.map_eq_nil_iff.mp hl'']
        exact ⟨pre', n.2, n'.2, rfl⟩
      obtain ⟨hD, hkD⟩ := Blocks.unlinkLast hB
      have hsub : cells (pre' ++ [(c, x')]) ⊆ cells (pre' ++ [(c, x'), (d, y')]) := by simp
      refine .inr ⟨_, _, by simp only [rearrangeCall, hn, hlast, hl], by simp, ?_, fun f => ?_, hD,
        hcells ▸ hsub, ?_⟩
      · have := congrArg List.length hcells
        simp [cells] at this ⊢
        omega
      · rw [htuck, hS]
        simp
      · rw [← hcells] at hk ⊢
        exact hk.trans hkD

theorem Blocks.tucked (h : Blocks q L) (hL : L ≠ []) (f : Nat) :
    ∃ P, P.map Prod.snd = tuckBlocks f (L.map Prod.snd) ∧
      Blocks (tltSegmentRearrangeLastBlock f q) P ∧ cells P ⊆ cells L ∧
      Kept (cells L) q (tltSegmentRearrangeLastBlock f q) := by
  induction f generalizing q L with
  | zero => exact ⟨L, rfl, h, fun _ hi => hi, fun _ _ => rfl⟩
  | succ f ih =>
    rw [rearrange_succ]
    rcases h.call hL with ⟨hq, ht⟩ | ⟨q', M, hq, hne, -, ht, hB, hc, hk⟩
    · rw [hq, ht]
      exact ⟨L, rfl, h, fun _ hi => hi, fun _ _ => rfl⟩
    · obtain ⟨P, hP, hPB, hPc, hPk⟩ := ih hB hne
      rw [hq, ht]
      exact ⟨P, hP, hPB, fun c hi => hc (hPc hi), hk.trans (hPk.mono hc)⟩

theorem Blocks.rearrange_ends (h : Blocks q L) (hL : L ≠ []) : ∃ r, rearrangeCall r = none ∧
    ∀ f, q.len ≤ f → tltSegmentRearrangeLastBlock f q = r := by
  induction hn : L.length using Nat.strong_induction_on generalizing q L with
  | h n ih =>
    have hlen := h.len
    have hpos := List.length_pos_iff.mpr hL
    rcases h.call hL with ⟨hq, -⟩ | ⟨q', M, hq, hne, hlt, -, hB, -⟩
    · refine ⟨q, hq, fun f hf => ?_⟩
      obtain ⟨f, rfl⟩ : ∃ g, f = g + 1 := ⟨f - 1, by omega⟩
      rw [rearrange_succ, hq, Option.elim_none]
    · obtain ⟨r, hr, hall⟩ := ih M.length (hn ▸ hlt) hB hne rfl
      refine ⟨r, hr, fun f hf => ?_⟩
      obtain ⟨f, rfl⟩ : ∃ g, f = g + 1 := ⟨f - 1, by omega⟩
      rw [rearrange_succ, hq, Option.elim_some, hall f (by rw [hB.len]; omega)]

end Tuck

/-! ## `tlt_segment_add` -/

/-- The queue of `tlt_segment_add` before `tlt_segment_merge` is called. -/
def tltPlaced (q : UimpQueue) (seq len round : U32) : UimpQueue :=
  let i := q.freeFrom (min q.len maxUimpQueueElem) q.len 0
  if i = 0 then (q.set 0 ⟨seq, len, round, none⟩).grow
  else
    let a := tltAddLoop round (3 * q.len + 3) ⟨q, i, seq, len⟩ (some 0)
    if a.len = 0 then a.q
    else tltInsertLoop a.i a.seq a.len round (a.q.len + 1) a.q 0 (a.q.slot 0).next

def spreadBlocks (round : U32) (L : List UimpBlock) (seq len : U32) : List UimpBlock :=
  let w := walkBlocks round (3 * L.length + 3) L seq len
  if w.2.2 = 0 then w.1 else placeBlock ⟨w.2.1, w.2.2, round⟩ w.1

def addBlocks (round : U32) (L : List UimpBlock) (seq len : U32) : List UimpBlock :=
  let M := mergeBlocks (spreadBlocks round L seq len)
  tuckBlocks (M.length + 1) M

theorem walkBlocks_ne_nil (round : U32) {f : Nat} (p : UimpBlock) (L : List UimpBlock) (seq len : U32) :
    (walkBlocks round f (p :: L) seq len).1 ≠ [] := by
  cases f with
  | zero => simp [walkBlocks]
  | succ f =>
    simp only [walkBlocks]
    split <;> simp

def slotsLinked (round : U32) : Nat → List UimpBlock → U32 → U32 → Nat
  | f + 1, p :: L, seq, len =>
    let v := visitBlock round p seq len
    v.new.length + if v.stop then 0 else slotsLinked round f (v.new ++ L) v.seq v.len
  | _, _, _, _ => 1

def slotsTaken (round : U32) (L : List UimpBlock) (seq len : U32) : Nat :=
  slotsLinked round (3 * L.length + 3) L seq len

theorem length_walkBlocks (round : U32) (f : Nat) {L : List UimpBlock} {seq len : U32} (hL : Solid L)
    (hlen : len ≠ 0) :
    (walkBlocks round f L seq len).1.length + (if (walkBlocks round f L seq len).2.2 = 0 then 0 else 1) =
      L.length + slotsLinked round f L seq len := by
  induction f generalizing L seq len with
  | zero =>
    show L.length + (if len = 0 then 0 else 1) = L.length + 1
    rw [if_neg hlen]
  | succ f ih =>
    cases L with
    | nil =>
      show 0 + (if len = 0 then 0 else 1) = 0 + 1
      rw [if_neg hlen]
    | cons p L =>
      obtain ⟨-, hnew, hstop⟩ := @visitBlock_solid round seq len p (hL p (by simp)) hlen
      unfold walkBlocks slotsLinked
      dsimp only
      generalize visitBlock round p seq len = v at *
      by_cases hs : v.stop
      · rw [if_pos hs, if_pos hs, if_pos (hstop.mp hs)]
        simp only [List.length_cons, List.length_append]
        omega
      rw [if_neg hs, if_neg hs]
      have hsolid : Solid (v.new ++ L) := by
        intro b hb
        rcases List.mem_append.mp hb with hb | hb
        · exact hnew b hb
        · exact hL b (by simp [hb])
      have := @ih (v.new ++ L) v.seq v.len hsolid fun hz => hs (hstop.mpr hz)
      simp only [List.length_cons, List.length_append] at this ⊢
      omega

theorem length_spreadBlocks (round : U32) {L : List UimpBlock} {seq len : U32} (hL : Solid L)
    (hlen : len ≠ 0) :
    (spreadBlocks round L seq len).length = L.length + slotsTaken round L seq len := by
  rw [slotsTaken, ← length_walkBlocks round _ hL hlen]
  unfold spreadBlocks
  dsimp only
  split_ifs <;> simp

section Add

variable {q : UimpQueue} {L : List (Nat × UimpBlock)} {len : U32}

theorem length_le_of_lt {β : Type*} {L : List (Nat × β)} {n : Nat} (hnd : (cells L).Nodup)
    (h : ∀ c ∈ cells L, c < n) : L.length ≤ n := by
  have hsub : cells L ⊆ List.range n := fun c hc => List.mem_range.mpr (h c hc)
  have hle := (List.subperm_of_subset hnd hsub).length_le
  simpa [cells] using hle

theorem Blocks.placed (seq round : U32) (h : Blocks q L) (hs : Solid (L.map Prod.snd))
    (hin : ∀ c ∈ cells L, c < maxUimpQueueElem) (hlen : len ≠ 0) :
    ∃ C, C.map Prod.snd = spreadBlocks round (L.map Prod.snd) seq len ∧ C ≠ [] ∧
      Laid q (tltPlaced q seq len round) C := by
  have hscan := h.scan (f := q.len) (i := 0) (h.used hs) (by omega) (by omega)
  have hq : q.len ≤ maxUimpQueueElem := by
    rw [h.len]
    exact length_le_of_lt h.nodup hin
  have hwithin : Within L := fun c hc => lt_of_lt_of_le (hin c hc) (le_max_left _ _)
  unfold tltPlaced
  rw [Nat.min_eq_left hq]
  cases L with
  | nil =>
    have hq0 : q.len = 0 := h.len
    have hi : q.freeFrom q.len q.len 0 = 0 := by rw [hq0]; rfl
    simp only [hi, if_true]
    refine ⟨[(0, ⟨seq, len, round⟩)], ?_, by simp, ⟨?_, by simp, ?_, ?_, ?_⟩, ?_, ?_, ?_⟩
    · simp only [spreadBlocks, walkBlocks, List.map_nil, if_neg hlen, placeBlock, List.map_cons]
    · simp
    · simp [hq0]
    · intro n hn
      obtain rfl := List.mem_singleton.mp hn
      rw [grow_slot, set_slot_self]
      rfl
    · intro i hi
      have hi0 : i ≠ 0 := by simpa using hi
      rw [grow_slot, set_slot_of_ne _ _ hi0]
      exact h.free i (by simp)
    · simpa [Solid] using hlen
    · simp [Within]
    · intro i hi
      have hi0 : i ≠ 0 := by simpa using hi
      rw [grow_slot, set_slot_of_ne _ _ hi0]
  | cons n L =>
    obtain ⟨c, x⟩ := n
    obtain rfl := h.head_eq
    have hi : q.freeFrom q.len q.len 0 ≠ 0 := by
      intro hi
      rw [hi] at hscan
      exact hscan.free (by simp)
    generalize q.freeFrom q.len q.len 0 = i at hscan hi ⊢
    simp only [if_neg hi]
    have ha : Adding q ⟨q, i, seq, len⟩ ([] ++ ((0, x) :: L)) :=
      ⟨⟨h, hs, hwithin, fun _ _ => rfl⟩, hscan⟩
    obtain ⟨W, hW, hA, hseq', hlen'⟩ := ha.walked round (3 * q.len + 3) hlen
    have hfuel : 3 * (((0, x) :: L).map Prod.snd).length + 3 = 3 * q.len + 3 := by
      rw [List.length_map, h.len]
    have hne := @walkBlocks_ne_nil round (3 * q.len + 3) x (L.map Prod.snd) seq len
    rw [cells_cons, List.head?_cons] at hA hseq' hlen'
    simp only [spreadBlocks, hfuel]
    rw [List.map_cons] at *
    generalize walkBlocks round (3 * q.len + 3) (x :: L.map Prod.snd) seq len = w at *
    generalize tltAddLoop round (3 * q.len + 3) ⟨q, i, seq, len⟩ (some 0) = a at *
    rw [List.nil_append] at hA
    obtain ⟨⟨c, y⟩, W, rfl⟩ : ∃ n W', W = n :: W' := by
      cases W with
      | nil => exact absurd hW.symm hne
      | cons n W => exact ⟨n, W, rfl⟩
    by_cases hrest : a.len = 0
    · rw [if_pos hrest, if_pos (hlen' ▸ hrest)]
      exact ⟨_, hW, by simp, hA.laid⟩
    rw [if_neg hrest, if_neg (hlen' ▸ hrest)]
    obtain rfl := hA.laid.blocks.head_eq
    have hf : W.length < a.q.len + 1 := by
      rw [hA.laid.blocks.len, List.length_cons]
      omega
    obtain ⟨P, hP, hl⟩ := @Laid.inserted q a.q [] W 0 a.i (a.q.len + 1) y ⟨a.seq, a.len, round⟩ hA.laid
      hA.free hrest hf
    rw [← Listed.next_head hA.laid.blocks] at hl
    refine ⟨(0, y) :: P, ?_, by simp, hl⟩
    rw [← hW, ← hseq', ← hlen']
    simp [placeBlock, hP]

/-- **`tlt_segment_add` does on the slots what `addBlocks` does on the blocks**; in between, the blocks of
`spreadBlocks` are all in slots. -/
theorem Blocks.add (seq round : U32) (h : Blocks q L) (hs : Solid (L.map Prod.snd))
    (hin : ∀ c ∈ cells L, c < maxUimpQueueElem) (hlen : len ≠ 0) :
    ∃ C L', C.map Prod.snd = spreadBlocks round (L.map Prod.snd) seq len ∧
      Laid q (tltPlaced q seq len round) C ∧
      L'.map Prod.snd = addBlocks round (L.map Prod.snd) seq len ∧
      Blocks (tltSegmentAdd q seq len round) L' ∧ cells L' ⊆ cells C ∧
      Kept (cells C) q (tltSegmentAdd q seq len round) := by
  obtain ⟨C, hC, hne, hl⟩ := h.placed seq round hs hin hlen
  obtain ⟨M, hM, hB, hMne, hMc, hMk⟩ := hl.blocks.merge
    (fun n hn h0 => h0 ▸ hl.blocks.used hl.solid n hn) hne
  have hfuel : (tltSegmentMerge (tltPlaced q seq len round)).len = (M.map Prod.snd).length := by
    rw [hB.len, List.length_map]
  obtain ⟨L', hL', hB', hLc, hLk⟩ := hB.tucked hMne
    ((tltSegmentMerge (tltPlaced q seq len round)).len + 1)
  refine ⟨C, L', hC, hl, ?_, hB', fun c hc => hMc (hLc hc), ?_⟩
  · rw [hL', hfuel, hM, hC]
    rfl
  · exact hl.kept.trans (hMk.trans (hLk.mono hMc))

end Add

end LibvmaTlt.Lwip
