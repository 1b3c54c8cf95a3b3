import LibvmaTlt.Lib.Reach
import LibvmaTlt.Lwip.Tcp
import LibvmaTlt.Lwip.UimpPop

/-!
# The representation of the queue of unimportant data over a run

`tlt_segment_verify` says what `uimp_queue` should look like at all times: a chain of distinct slots of the
array from slot 0 on, as many as `uimp_queue_len` says, none of them empty, and all other slots free.
Release builds do not check it. What a call needs for it is room: `tlt_segment_add` cuts blocks into pieces
before it merges them, and `tlt_segment_remove_round` cuts a block in two, and neither looks whether a slot
is left in the array.
-/

namespace LibvmaTlt.Lwip

open UimpQueue

/-! ## Removal on blocks -/

inductive Fate where
  | keep
  | trim (b : UimpBlock)
  | drop
  /-- The block holds the range, and the loop ends. -/
  | inside

def fate (seq len round : U32) (p : UimpBlock) : Fate :=
  let pEnd := p.seq + p.len
  let sEnd := seq + len
  if round ≠ 0xFFFFFFFF ∧ round > p.round then .keep
  else if TcpSeqLeq p.seq seq ∧ TcpSeqLeq sEnd pEnd then .inside
  else if TcpSeqLeq seq p.seq ∧ TcpSeqLeq pEnd sEnd then .drop
  else if TcpSeqLeq seq p.seq ∧ TcpSeqLeq sEnd p.seq then .keep
  else if TcpSeqLeq pEnd seq ∧ TcpSeqLeq pEnd sEnd then .keep
  else if TcpSeqLeq seq p.seq ∧ TcpSeqLeq sEnd pEnd then .trim { p with len := pEnd - sEnd, seq := sEnd }
  else if TcpSeqLeq p.seq seq ∧ TcpSeqLeq pEnd sEnd then .trim { p with len := seq - p.seq }
  else .keep

/-- What is left of a block that holds the range. The second piece gets the round that its slot had. -/
def insideBlocks (seq len stale : U32) (p : UimpBlock) : List UimpBlock :=
  if p.seq = seq ∧ seq + len = p.seq + p.len then []
  else if p.seq = seq then [{ p with len := p.len - len, seq := seq + len }]
  else if p.seq + p.len = seq + len then [{ p with len := seq - p.seq }]
  else [{ p with len := seq - p.seq }, ⟨seq + len, p.len + p.seq - (seq + len), stale⟩]

def removeBlocks (seq len round stale : U32) : List UimpBlock → List UimpBlock
  | [] => []
  | p :: L =>
    match fate seq len round p with
    | .keep => p :: removeBlocks seq len round stale L
    | .trim b => b :: removeBlocks seq len round stale L
    | .drop => removeBlocks seq len round stale L
    | .inside => insideBlocks seq len stale p ++ L

/-- The range comes to lie strictly inside a block before any block is dropped. -/
def splitsBlock (seq len round : U32) : List UimpBlock → Bool
  | [] => false
  | p :: L =>
    match fate seq len round p with
    | .keep | .trim _ => splitsBlock seq len round L
    | .drop => false
    | .inside => p.seq ≠ seq && p.seq + p.len ≠ seq + len

theorem length_insideBlocks_eq (seq len stale : U32) (p : UimpBlock) :
    if p.seq ≠ seq ∧ p.seq + p.len ≠ seq + len then (insideBlocks seq len stale p).length = 2
    else (insideBlocks seq len stale p).length ≤ 1 := by
  unfold insideBlocks
  split_ifs <;> simp_all

/-- A removal needs a slot more exactly if it splits a block. -/
theorem length_removeBlocks_le_iff (seq len round stale : U32) {L : List UimpBlock} {n : Nat}
    (h : L.length ≤ n) : (removeBlocks seq len round stale L).length ≤ n ↔
      (splitsBlock seq len round L = true → L.length < n) := by
  have hmost : ∀ L, (removeBlocks seq len round stale L).length ≤ L.length + 1 := by
    intro L
    induction L with
    | nil => exact Nat.zero_le _
    | cons p L ih =>
      have hin := length_insideBlocks_eq seq len stale p
      unfold removeBlocks
      cases fate seq len round p <;> simp only [List.length_cons, List.length_append] <;> grind
  induction L generalizing n with
  | nil => simp [removeBlocks, splitsBlock]
  | cons p L ih =>
    obtain ⟨n, rfl⟩ : ∃ m, n = m + 1 := ⟨n - 1, by simp only [List.length_cons] at h; omega⟩
    have hL : L.length ≤ n := Nat.le_of_succ_le_succ h
    have hin := length_insideBlocks_eq seq len stale p
    unfold removeBlocks splitsBlock
    cases fate seq len round p with
    | keep | trim => simpa using ih hL
    | drop =>
      have := hmost L
      simp only [Bool.false_eq_true, false_implies, iff_true]
      omega
    | inside =>
      simp only [List.length_cons, List.length_append, Bool.and_eq_true, decide_eq_true_eq]
      split_ifs at hin with hsplit
      · simp only [hsplit, ne_eq, not_false_eq_true, and_self, true_implies]
        omega
      · simp only [hsplit, false_implies, iff_true]
        omega

theorem fate_solid {seq len round : U32} {p b : UimpBlock} (h : fate seq len round p = .trim b) :
    b.len ≠ 0 := by
  unfold fate at h
  dsimp only at h
  split_ifs at h with hold hin hover hbefore hbehind hleft hright
  · obtain rfl := Fate.trim.inj h
    refine sub_ne_zero.mpr fun heq => ?_
    exact hover ⟨hleft.1, heq ▸ leq_refl _⟩
  · obtain rfl := Fate.trim.inj h
    refine sub_ne_zero.mpr fun heq => ?_
    exact hover ⟨heq ▸ leq_refl _, hright.2⟩

theorem insideBlocks_solid (seq len stale : U32) {p : UimpBlock} : Solid (insideBlocks seq len stale p) := by
  unfold insideBlocks
  split_ifs with hall hfront hback
  all_goals simp only [Solid, List.mem_cons, List.not_mem_nil, or_false, forall_eq_or_imp, forall_eq,
    false_implies, implies_true]
  · refine sub_ne_zero.mpr fun heq => hall ⟨hfront, ?_⟩
    rw [hfront, heq]
  · exact sub_ne_zero.mpr fun heq => hfront heq.symm
  · refine ⟨sub_ne_zero.mpr fun heq => hfront heq.symm, sub_ne_zero.mpr fun heq => hback ?_⟩
    rw [BitVec.add_comm]
    exact heq

theorem tltRemoveLoop_succ (seq len round : U32) (f : Nat) (q : UimpQueue) (pps : Option Nat) (ps : Nat)
    (preserve : Bool) :
    tltRemoveLoop seq len round (f + 1) q pps (some ps) preserve =
      if preserve ∧ (q.slot ps).len = 0 then q
      else
        match fate seq len round (q.slot ps).block with
        | .keep => tltRemoveLoop seq len round f q (some ps) (q.slot ps).next false
        | .trim b => tltRemoveLoop seq len round f (q.set ps (b.slot (q.slot ps).next)) (some ps)
            (q.slot ps).next false
        | .drop =>
          match pps with
          | none => tltRemoveLoop seq len round f (tltUnlink q none ps) none (some 0) true
          | some pp => tltRemoveLoop seq len round f (tltUnlink q (some pp) ps) (some pp)
              ((tltUnlink q (some pp) ps).slot pp).next false
        | .inside => tltRemoveInside q seq len pps ps := by
  generalize hp : (q.slot ps).block = p
  obtain ⟨hseq, hlen, hround⟩ := fields_of_block hp
  generalize hv : fate seq len round p = v
  revert hv
  unfold fate
  simp only [tltRemoveLoop]
  rw [hseq, hlen, hround]
  split_ifs
  all_goals
    rintro rfl
  all_goals first | rfl | (cases pps <;> rfl)

/-! ## Removal on slots -/

structure Cut (q₀ q : UimpQueue) (L : List (Nat × UimpBlock)) : Prop where
  blocks : Blocks q L
  solid : Solid (L.map Prod.snd)
  inArray : ∀ c ∈ cells L, c < maxUimpQueueElem
  kept : ∀ i, maxUimpQueueElem ≤ i → q.slot i = q₀.slot i

/-- What a removal leaves: as many blocks as the list has, in the array if it has room for them. -/
def Leaves (q₀ q : UimpQueue) (pre : List (Nat × UimpBlock)) (S : U32 → List UimpBlock) : Prop :=
  ∃ stale S', S'.map Prod.snd = S stale ∧ Blocks q (pre ++ S') ∧
    ((pre ++ S').length ≤ maxUimpQueueElem → Cut q₀ q (pre ++ S'))

section Remove

variable {q₀ q : UimpQueue} {L pre post suf : List (Nat × UimpBlock)} {c pp : Nat} {p b x : UimpBlock}
  {seq len round : U32}

theorem Solid.append_iff {B B' : List UimpBlock} : Solid (B ++ B') ↔ Solid B ∧ Solid B' := by
  simp only [Solid, List.mem_append, or_imp, forall_and]

theorem Cut.change (h : Cut q₀ q (pre ++ (c, p) :: post)) (hb : b.len ≠ 0) :
    Cut q₀ (q.set c (b.slot (q.slot c).next)) (pre ++ (c, b) :: post) := by
  have hcells : cells (pre ++ (c, b) :: post) = cells (pre ++ (c, p) :: post) := by simp
  have hc := h.inArray c (by simp)
  refine ⟨?_, ?_, hcells ▸ h.inArray, ?_⟩
  · exact h.blocks.change (by simp) (by simp) rfl fun i hi => set_slot_of_ne _ _ hi
  · have hs := h.solid
    rw [List.map_append, List.map_cons, Solid.append_iff] at hs ⊢
    refine ⟨hs.1, ?_⟩
    intro y hy
    rcases List.mem_cons.mp hy with rfl | hy
    · exact hb
    · exact hs.2 y (by simp [hy])
  · intro i hi
    rw [set_slot_of_ne _ _ (by omega)]
    exact h.kept i hi

theorem Cut.unlink (h : Cut q₀ q (pre ++ (pp, x) :: (c, p) :: post)) :
    Cut q₀ (tltUnlink q (some pp) c) (pre ++ (pp, x) :: post) ∧
      ((tltUnlink q (some pp) c).slot pp).next = (cells post).head? := by
  have happ := List.append_cons pre (pp, x) ((c, p) :: post)
  have hne : pp ≠ c := (Listed.ne_mid (happ ▸ h.blocks)).1 pp (by simp)
  have hpp := h.inArray pp (by simp)
  have hc := h.inArray c (by simp)
  have hB : Blocks (tltUnlink q (some pp) c) (pre ++ (pp, x) :: post) := by
    refine h.blocks.drop ?_ ?_ ?_ rfl ?_
    · simp only [tltUnlink, shrink_slot, set_slot_of_ne _ _ hne, setNext_slot_self]
      exact h.blocks.block_mid
    · simp [tltUnlink, hne]
    · simp [tltUnlink]
    · intro j hj hjc
      simp [tltUnlink, hj, hjc]
  refine ⟨⟨hB, ?_, ?_, ?_⟩, hB.next_eq⟩
  · intro y hy
    refine h.solid y ?_
    simp only [List.map_append, List.map_cons, List.mem_append, List.mem_cons] at hy ⊢
    tauto
  · intro j hj
    refine h.inArray j ?_
    simp only [cells_append, cells_cons, List.mem_append, List.mem_cons] at hj ⊢
    tauto
  · intro i hi
    have h1 : i ≠ pp := by omega
    have h2 : i ≠ c := by omega
    simp only [tltUnlink, shrink_slot, set_slot_of_ne _ _ h2, setNext_slot_of_ne _ _ h1]
    exact h.kept i hi

theorem Cut.unlinkHead (h : Cut q₀ q ((0, p) :: post)) :
    ∃ L, L.map Prod.snd = post.map Prod.snd ∧ Cut q₀ (tltUnlink q none 0) L := by
  have h0 := h.inArray 0 (by simp)
  cases post with
  | nil =>
    refine ⟨[], rfl, ⟨by simp, by simp, ?_, by simp, ?_⟩, by simp [Solid], by simp, ?_⟩
    · simp [tltUnlink, h.blocks.next_head, h.blocks.len]
    · intro i _
      by_cases hi : i = 0
      · rw [hi]
        simp [tltUnlink, h.blocks.next_head, TltTransmitSegment.zero]
      · have hfree := h.blocks.free i (by simpa using hi)
        simpa [tltUnlink, h.blocks.next_head, hi] using hfree
    · intro i hi
      have h1 : i ≠ 0 := by omega
      simp only [tltUnlink, h.blocks.next_head, cells_nil, List.head?_nil, shrink_slot,
        set_slot_of_ne _ _ h1]
      exact h.kept i hi
  | cons n post =>
    obtain ⟨d, y⟩ := n
    have hy := @Listed.block_mid _ _ q [(0, p)] post d y h.blocks
    have hd : (0 : Nat) ≠ d := (@Listed.ne_mid _ _ q [(0, p)] post d y h.blocks).1 0 (by simp)
    have hd' := h.inArray d (by simp)
    have hnext : (q.slot 0).next = some d := h.blocks.next_head
    refine ⟨(0, y) :: post, rfl, ?_, ?_, ?_, ?_⟩
    · refine @Listed.drop _ _ q _ [] post 0 d p y y h.blocks ?_ ?_ ?_ ?_ ?_
      · simp only [tltUnlink, hnext, shrink_slot, set_slot_of_ne _ _ hd, set_slot_self]
        exact hy
      · simp [tltUnlink, hnext, hd]
      · simp [tltUnlink, hnext]
      · simp [tltUnlink, hnext]
      · intro j hj hjd
        simp [tltUnlink, hnext, hj, hjd]
    · intro z hz
      refine h.solid z ?_
      simp only [List.map_cons, List.mem_cons] at hz ⊢
      tauto
    · intro j hj
      refine h.inArray j ?_
      simp only [cells_cons, List.mem_cons] at hj ⊢
      tauto
    · intro i hi
      have h1 : i ≠ 0 := by omega
      have h2 : i ≠ d := by omega
      simp only [tltUnlink, hnext, shrink_slot, set_slot_of_ne _ _ h2, set_slot_of_ne _ _ h1]
      exact h.kept i hi

theorem Cut.split {y : UimpBlock} {i : Nat} {q' : UimpQueue} (h : Cut q₀ q (pre ++ (c, p) :: post))
    (hi : FirstFree (pre ++ (c, p) :: post) i) (hb : b.len ≠ 0) (hy : y.len ≠ 0)
    (hc : q'.slot c = b.slot (some i)) (hslot : q'.slot i = y.slot (q.slot c).next)
    (hlen : q'.len = q.len + 1) (hrest : ∀ j, j ≠ c → j ≠ i → q'.slot j = q.slot j) :
    Blocks q' (pre ++ (c, b) :: (i, y) :: post) ∧
      ((pre ++ (c, b) :: (i, y) :: post).length ≤ maxUimpQueueElem →
        Cut q₀ q' (pre ++ (c, b) :: (i, y) :: post)) := by
  have hchange := h.change hb
  have hcells : cells (pre ++ (c, b) :: post) = cells (pre ++ (c, p) :: post) := by simp
  have hic : i ≠ c := by
    rintro rfl
    exact hi.free (by simp)
  have hB : Blocks q' (pre ++ (c, b) :: (i, y) :: post) := by
    refine hchange.blocks.link (hcells ▸ hi.free) ?_ ?_ ?_ ?_ hlen ?_
    · rw [hc]
      rfl
    · rw [hc]
      rfl
    · rw [hslot]
      rfl
    · rw [hslot, set_slot_self]
      rfl
    · intro j hjc hji
      rw [hrest j hjc hji, set_slot_of_ne _ _ hjc]
  refine ⟨hB, fun hroom => ?_⟩
  have hle := hi.le_length
  simp only [List.length_append, List.length_cons] at hroom hle
  refine ⟨hB, ?_, ?_, ?_⟩
  · intro z hz
    have hs := hchange.solid z
    simp only [List.map_append, List.map_cons, List.mem_append, List.mem_cons] at hz hs
    rcases hz with hz | rfl | rfl | hz
    · exact hs (.inl hz)
    · exact hb
    · exact hy
    · exact hs (.inr (.inr hz))
  · intro j hj
    have hin := hchange.inArray j
    simp only [cells_append, cells_cons, List.mem_append, List.mem_cons] at hj hin
    rcases hj with hj | rfl | rfl | hj
    · exact hin (.inl hj)
    · exact hin (.inr (.inl rfl))
    · omega
    · exact hin (.inr (.inr hj))
  · intro j hj
    have hcIn := h.inArray c (by simp)
    rw [hrest j (by omega) (by omega)]
    exact h.kept j hj

theorem Cut.leaves {S : U32 → List UimpBlock} {S' : List (Nat × UimpBlock)} (h : Cut q₀ q (pre ++ S'))
    (hS : S'.map Prod.snd = S 0) : Leaves q₀ q pre S :=
  ⟨0, S', hS, h.blocks, fun _ => h⟩

theorem Cut.inside (h : Cut q₀ q (pre ++ (c, p) :: post)) (seq len : U32) {pps : Option Nat}
    (hexact : Leaves q₀ (tltUnlink q pps c) pre fun _ => post.map Prod.snd) :
    Leaves q₀ (tltRemoveInside q seq len pps c) pre
      fun stale => insideBlocks seq len stale p ++ post.map Prod.snd := by
  obtain ⟨hps, hpl, hpr⟩ := fields_of_block h.blocks.block_mid
  have hsolid := fun stale => insideBlocks_solid seq len stale (p := p)
  unfold tltRemoveInside
  unfold insideBlocks at hsolid ⊢
  simp only
  rw [hps, hpl, hpr]
  split_ifs at hsolid ⊢ with hall hfront hback
  · exact hexact
  · have hb := hsolid 0 ⟨seq + len, p.len - len, p.round⟩ (by simp)
    exact (h.change hb).leaves rfl
  · have hb := hsolid 0 ⟨p.seq, seq - p.seq, p.round⟩ (by simp)
    exact (h.change hb).leaves rfl
  · have hfree : FirstFree (pre ++ (c, p) :: post) (q.nextAvailable 0) :=
      h.blocks.nextAvailable (h.blocks.used h.solid) (by omega)
    generalize q.nextAvailable 0 = i at hfree ⊢
    have hic : i ≠ c := by
      rintro rfl
      exact hfree.free (by simp)
    have hb := hsolid 0 ⟨p.seq, seq - p.seq, p.round⟩ (by simp)
    have hy := hsolid (q.slot i).round ⟨seq + len, p.len + p.seq - (seq + len), (q.slot i).round⟩ (by simp)
    have hsplit := @Cut.split q₀ q pre post c p ⟨p.seq, seq - p.seq, p.round⟩
      ⟨seq + len, p.len + p.seq - (seq + len), (q.slot i).round⟩ i
      ((q.set i ⟨seq + len, p.len + p.seq - (seq + len), (q.slot i).round, (q.slot c).next⟩).set c
        ⟨p.seq, seq - p.seq, p.round, some i⟩).grow h hfree hb hy
      (by rw [grow_slot, set_slot_self]; rfl)
      (by rw [grow_slot, set_slot_of_ne _ _ hic, set_slot_self]; rfl) rfl
      (fun j hj hji => by rw [grow_slot, set_slot_of_ne _ _ hj, set_slot_of_ne _ _ hji])
    rw [set_slot_of_ne _ _ hic.symm, hps, hpr]
    exact ⟨(q.slot i).round, _ :: _ :: post, rfl, hsplit.1, hsplit.2⟩

theorem Cut.removed {f : Nat} (seq len round : U32) (h : Cut q₀ q (pre ++ (pp, x) :: suf))
    (hf : suf.length < f) :
    Leaves q₀ (tltRemoveLoop seq len round f q (some pp) (cells suf).head? false) (pre ++ [(pp, x)])
      fun stale => removeBlocks seq len round stale (suf.map Prod.snd) := by
  induction suf generalizing q pre pp x f with
  | nil =>
    have hcut : Cut q₀ q ((pre ++ [(pp, x)]) ++ []) := by simpa using h
    cases f <;> exact hcut.leaves rfl
  | cons n suf ih =>
    obtain ⟨c, p⟩ := n
    obtain ⟨f, rfl⟩ : ∃ g, f = g + 1 := ⟨f - 1, by omega⟩
    simp only [List.length_cons, Nat.add_lt_add_iff_right] at hf
    have happ := List.append_cons pre (pp, x) ((c, p) :: suf)
    have hblock : (q.slot c).block = p := Listed.block_mid (happ ▸ h.blocks)
    have hnext := Listed.next_eq (happ ▸ h.blocks)
    rw [cells_cons, List.head?_cons, tltRemoveLoop_succ, if_neg (by simp), hblock, hnext]
    simp only [List.map_cons, removeBlocks]
    -- the loop goes on behind the cell `c`
    have hgo : ∀ {q'} (b : UimpBlock), Cut q₀ q' ((pre ++ [(pp, x)]) ++ (c, b) :: suf) →
        Leaves q₀ (tltRemoveLoop seq len round f q' (some c) (cells suf).head? false) (pre ++ [(pp, x)])
          fun stale => b :: removeBlocks seq len round stale (suf.map Prod.snd) := by
      intro q' b hb
      obtain ⟨stale, S, hS, hB, hC⟩ := ih hb hf
      refine ⟨stale, (c, b) :: S, by simp [hS], by simpa using hB, ?_⟩
      simpa using hC
    cases hfate : fate seq len round p with
    | keep => exact hgo p (happ ▸ h)
    | trim b =>
      have hcut := Cut.change (happ ▸ h) (fate_solid hfate)
      rw [hnext] at hcut
      exact hgo b hcut
    | drop =>
      obtain ⟨hcut, hn⟩ := h.unlink
      have hrest := ih hcut hf
      rw [← hn] at hrest
      exact hrest
    | inside =>
      refine Cut.inside (happ ▸ h) seq len ?_
      obtain ⟨hcut, -⟩ := h.unlink
      have hcut' : Cut q₀ (tltUnlink q (some pp) c) ((pre ++ [(pp, x)]) ++ suf) := by simpa using hcut
      exact hcut'.leaves rfl

theorem Cut.removedHead {f : Nat} (seq len round : U32) (h : Cut q₀ q L) {preserve : Bool}
    (hL : preserve = false → L ≠ []) (hf : L.length < f) :
    Leaves q₀ (tltRemoveLoop seq len round f q none (some 0) preserve) []
      fun stale => removeBlocks seq len round stale (L.map Prod.snd) := by
  induction f generalizing q L preserve with
  | zero => omega
  | succ f ih =>
    rw [tltRemoveLoop_succ]
    cases L with
    | nil =>
      have hp : preserve = true := by
        by_contra hp
        exact hL (by simpa using hp) rfl
      rw [if_pos ⟨hp, h.blocks.free 0 (by simp)⟩]
      exact h.leaves rfl
    | cons n suf =>
      obtain ⟨c, p⟩ := n
      obtain rfl := h.blocks.head_eq
      simp only [List.length_cons, Nat.add_lt_add_iff_right] at hf
      have hlen : (q.slot 0).len ≠ 0 := h.blocks.used h.solid (0, p) (by simp)
      have hblock : (q.slot 0).block = p := h.blocks.block_head
      have hnext := h.blocks.next_head
      rw [if_neg fun hz => hlen hz.2, hblock, hnext]
      simp only [List.map_cons, removeBlocks]
      have hgo : ∀ {q'} (b : UimpBlock), Cut q₀ q' ((0, b) :: suf) →
          Leaves q₀ (tltRemoveLoop seq len round f q' (some 0) (cells suf).head? false) []
            fun stale => b :: removeBlocks seq len round stale (suf.map Prod.snd) := by
        intro q' b hb
        obtain ⟨stale, S, hS, hB, hC⟩ := @Cut.removed q₀ q' [] suf 0 b f seq len round hb hf
        exact ⟨stale, (0, b) :: S, by simp [hS], hB, hC⟩
      cases hfate : fate seq len round p with
      | keep => exact hgo p h
      | trim b =>
        have hcut := @Cut.change q₀ q [] suf 0 p b h (fate_solid hfate)
        rw [hnext] at hcut
        exact hgo b hcut
      | drop =>
        obtain ⟨L', hL', hcut⟩ := h.unlinkHead
        have hlen' : L'.length = suf.length := by
          rw [← List.length_map, hL', List.length_map]
        have hrest := @ih _ L' hcut true (by simp) (by omega)
        rw [hL'] at hrest
        exact hrest
      | inside =>
        obtain ⟨L', hL', hcut⟩ := h.unlinkHead
        exact @Cut.inside q₀ q [] suf 0 p h seq len none (hcut.leaves hL')

/-- **`tlt_segment_remove_round` does on the slots what `removeBlocks` does on the blocks.** -/
theorem Cut.remove (seq len round : U32) (h : Cut q₀ q L) :
    Leaves q₀ (tltSegmentRemoveRound q seq len round) []
      fun stale => removeBlocks seq len round stale (L.map Prod.snd) := by
  unfold tltSegmentRemoveRound
  cases L with
  | nil =>
    rw [if_neg (not_not.mpr (h.blocks.free 0 (by simp)))]
    exact h.leaves rfl
  | cons n suf =>
    obtain ⟨c, p⟩ := n
    obtain rfl := h.blocks.head_eq
    rw [if_pos (h.blocks.used h.solid (0, p) (by simp))]
    refine h.removedHead seq len round (by simp) ?_
    rw [h.blocks.len]
    omega

end Remove

/-! ## What `tlt_segment_verify` asserts -/

/-- The nodes reached from slot 0 are the slots `l`, all of them in the array and in use; the others are
free. -/
structure TltChain (q : UimpQueue) (l : List Nat) : Prop where
  chain : Chain (fun i => (q.slot i).next) (if (q.slot 0).len = 0 then none else some 0) l
  nodup : l.Nodup
  len : q.len = l.length
  used : ∀ i ∈ l, i < maxUimpQueueElem ∧ (q.slot i).len ≠ 0
  free : ∀ i, i ∉ l → (q.slot i).len = 0

def TltRep (q : UimpQueue) : Prop := ∃ l, TltChain q l

def Untouched (q q' : UimpQueue) : Prop := ∀ i, maxUimpQueueElem ≤ i → q'.slot i = q.slot i

section Rep

variable {q q₀ : UimpQueue} {L : List (Nat × UimpBlock)}

theorem TltChain.cut {l : List Nat} (h : TltChain q l) :
    ∃ L, cells L = l ∧ Cut q q L := by
  have hcells : cells (l.map fun i => (i, (q.slot i).block)) = l := by
    rw [cells, List.map_map]
    exact List.map_id l
  have hstart : (if (q.slot 0).len = 0 then none else some 0) =
      start (l.map fun i => (i, (q.slot i).block)) := by
    have hch := h.chain
    cases l with
    | nil => exact if_pos (h.free 0 (by simp))
    | cons a l =>
      rw [Chain.cons_iff] at hch
      rw [List.map_cons, start_cons]
      split
      · rename_i h0
        rw [if_pos h0] at hch
        cases hch.1
      · rfl
  refine ⟨l.map fun i => (i, (q.slot i).block), hcells, ⟨?_, ?_, ?_, ?_, ?_⟩, ?_, ?_, ?_⟩
  · rw [hcells, ← hstart]
    exact h.chain
  · rw [hcells]
    exact h.nodup
  · rw [h.len, List.length_map]
  · intro n hn
    obtain ⟨i, -, rfl⟩ := List.mem_map.mp hn
    rfl
  · rw [hcells]
    exact h.free
  · intro b hb
    obtain ⟨n, hn, rfl⟩ := List.mem_map.mp hb
    obtain ⟨i, hi, rfl⟩ := List.mem_map.mp hn
    exact (h.used i hi).2
  · rw [hcells]
    exact fun i hi => (h.used i hi).1
  · exact fun _ _ => rfl

theorem Cut.chain (h : Cut q₀ q L) : TltChain q (cells L) := by
  have hused := h.blocks.used h.solid
  refine ⟨?_, h.blocks.nodup, ?_, ?_, h.blocks.free⟩
  · have hch := h.blocks.chain
    cases L with
    | nil =>
      rw [if_pos (h.blocks.free 0 (by simp))]
      exact hch
    | cons n L =>
      have h0 : n.1 = 0 := Listed.head_eq h.blocks
      rw [if_neg (h0 ▸ hused n (by simp))]
      exact hch
  · rw [h.blocks.len, cells, List.length_map]
  · intro i hi
    obtain ⟨n, hn, rfl⟩ := List.mem_map.mp hi
    exact ⟨h.inArray n.1 hi, hused n hn⟩

theorem Cut.untouched (h : Cut q₀ q L) : Untouched q₀ q := h.kept

theorem TltChain.cells_eq {l : List Nat} (h : TltChain q l) (hB : Blocks q L) : cells L = l := by
  have hch := hB.chain
  have hch' := h.chain
  cases L with
  | nil =>
    rw [if_pos (hB.free 0 (by simp))] at hch'
    exact hch.unique hch'
  | cons n L =>
    by_cases h0 : (q.slot 0).len = 0
    · rw [if_pos h0] at hch'
      have hnil : [] = l := (Chain.nil_iff.mpr rfl).unique hch'
      have hlen := hB.len
      rw [h.len, ← hnil] at hlen
      simp at hlen
    · rw [if_neg h0] at hch'
      exact hch.unique hch'

theorem TltRep.solid (h : TltRep q) (hB : Blocks q L) : Solid (L.map Prod.snd) := by
  obtain ⟨l, h⟩ := h
  have hcells := h.cells_eq hB
  intro b hb
  obtain ⟨n, hn, rfl⟩ := List.mem_map.mp hb
  have hlen := (h.used n.1 (hcells ▸ mem_cells hn)).2
  rw [← hB.block n hn]
  exact hlen

theorem TltRep.length_le (h : TltRep q) (hB : Blocks q L) : L.length ≤ maxUimpQueueElem := by
  obtain ⟨l, h⟩ := h
  have hcells := h.cells_eq hB
  refine length_le_of_lt hB.nodup ?_
  rw [hcells]
  exact fun i hi => (h.used i hi).1

theorem TltRep.cut (h : TltRep q) : ∃ L, Cut q q L := by
  obtain ⟨l, h⟩ := h
  obtain ⟨L, -, hL⟩ := h.cut
  exact ⟨L, hL⟩

end Rep

/-! ## The blocks of a queue -/

def UimpQueue.follow (q : UimpQueue) : Nat → Option Nat → List UimpBlock
  | f + 1, some i => (q.slot i).block :: q.follow f (q.slot i).next
  | _, _ => []

def UimpQueue.blocks (q : UimpQueue) : List UimpBlock := q.follow q.len (some 0)

theorem Blocks.follow_eq {q : UimpQueue} {pre suf : List (Nat × UimpBlock)} (h : Blocks q (pre ++ suf)) :
    q.follow suf.length (cells suf).head? = suf.map Prod.snd := by
  induction suf generalizing pre with
  | nil => rfl
  | cons n suf ih =>
    obtain ⟨c, p⟩ := n
    have happ := List.append_cons pre (c, p) suf
    have hblock : (q.slot c).block = p := h.block_mid
    have hrest := ih (happ ▸ h)
    rw [← h.next_eq] at hrest
    simp only [List.length_cons, cells_cons, List.head?_cons, List.map_cons, follow, hblock, hrest]

theorem Blocks.blocks_eq {q : UimpQueue} {L : List (Nat × UimpBlock)} (h : Blocks q L) :
    q.blocks = L.map Prod.snd := by
  have hfollow := @Blocks.follow_eq q [] L h
  unfold UimpQueue.blocks
  rw [h.len]
  cases L with
  | nil => rfl
  | cons n L =>
    have h0 : n.1 = 0 := Listed.head_eq h
    rw [cells_cons, List.head?_cons, h0] at hfollow
    exact hfollow

theorem TltRep.blocks_solid {q : UimpQueue} (h : TltRep q) : Solid q.blocks := by
  obtain ⟨L, hL⟩ := h.cut
  rw [hL.blocks.blocks_eq]
  exact hL.solid

/-! ## What a call does to the representation -/

section Calls

variable {q : UimpQueue} {seq len : U32}

theorem Laid.untouched_iff {C L : List (Nat × UimpBlock)} {q' : UimpQueue} (hL : Cut q q L)
    (h : Laid q q' C) : Untouched q q' ↔ C.length ≤ maxUimpQueueElem := by
  constructor
  · intro hun
    refine length_le_of_lt h.blocks.nodup fun c hc => ?_
    by_contra hcon
    obtain ⟨n, hn, rfl⟩ := List.mem_map.mp hc
    have hused := h.blocks.used h.solid n hn
    rw [hun n.1 (by omega)] at hused
    refine hused (hL.blocks.free n.1 fun hmem => ?_)
    exact hcon (hL.inArray n.1 hmem)
  · intro hroom i hi
    refine h.kept i fun hmem => ?_
    have hw := h.within i hmem
    omega

/-- **`tlt_segment_add` keeps the representation and stays in the array** just if there is a slot for every
piece, and merging leaves no block of 2³² bytes, which has length 0. -/
theorem add_rep_iff (h : TltRep q) (hlen : len ≠ 0) (round : U32) :
    TltRep (tltSegmentAdd q seq len round) ∧ Untouched q (tltPlaced q seq len round) ∧
        Untouched q (tltSegmentAdd q seq len round) ↔
      (spreadBlocks round q.blocks seq len).length ≤ maxUimpQueueElem ∧
        Solid (addBlocks round q.blocks seq len) := by
  obtain ⟨L, hL⟩ := h.cut
  obtain ⟨C, L', hC, hlaid, hL', hB, hsub, hk⟩ := hL.blocks.add seq round hL.solid hL.inArray hlen
  rw [hL.blocks.blocks_eq, ← hC, ← hL', List.length_map, ← hlaid.untouched_iff hL]
  constructor
  · rintro ⟨hrep, hplaced, -⟩
    exact ⟨hplaced, hrep.solid hB⟩
  · rintro ⟨hplaced, hsolid⟩
    have hin : ∀ c ∈ cells C, c < maxUimpQueueElem := by
      intro c hc
      have hw := hlaid.within c hc
      have hroom := (hlaid.untouched_iff hL).mp hplaced
      omega
    have hcut : Cut q (tltSegmentAdd q seq len round) L' := by
      refine ⟨hB, hsolid, fun c hc => hin c (hsub hc), fun i hi => hk i fun hmem => ?_⟩
      have := hin i hmem
      omega
    exact ⟨⟨_, hcut.chain⟩, hplaced, hcut.untouched⟩

/-- **`tlt_segment_remove_round` keeps the representation and stays in the array** just if it finds a free
slot when it splits a block. -/
theorem remove_rep_iff (h : TltRep q) (seq len round : U32) :
    TltRep (tltSegmentRemoveRound q seq len round) ∧ Untouched q (tltSegmentRemoveRound q seq len round) ↔
      (splitsBlock seq len round q.blocks = true → q.blocks.length < maxUimpQueueElem) := by
  obtain ⟨L, hL⟩ := h.cut
  obtain ⟨stale, L', hL', hB, hcut⟩ := hL.remove seq len round
  dsimp only at hL'
  have hle : (L.map Prod.snd).length ≤ maxUimpQueueElem := by
    rw [List.length_map]
    exact h.length_le hL.blocks
  rw [hL.blocks.blocks_eq, ← length_removeBlocks_le_iff seq len round stale hle, ← hL', List.length_map]
  constructor
  · rintro ⟨hrep, -⟩
    exact hrep.length_le hB
  · intro hroom
    exact ⟨⟨_, (hcut hroom).chain⟩, (hcut hroom).untouched⟩

end Calls

/-! ## Runs -/

/-- What happens to the queue of a pcb: a segment is sent, one arrives, or the forced retransmission takes
the head. -/
inductive TltAct where
  | send (seg : TcpSeg)
  | receive (hdr : TcpHdr) (tos : U8)
  | pop (maxLen : U32)

def TltAct.Typed : TltAct → Prop
  | .send seg => seg.len < 2 ^ 16
  | _ => True

def tltStep (pcb : Pcb) : TltAct → Pcb
  | .send seg => { pcb with tlt := (tltOut pcb seg).1 }
  | .receive hdr tos => { pcb with tlt := tltIn pcb hdr tos }
  | .pop maxLen => { pcb with tlt := pcb.tlt.forcePop maxLen }

def Records (pcb : Pcb) (seg : TcpSeg) : Prop := seg.len ≠ 0 ∧ pcb.tlt.sendState = .idle

instance (pcb : Pcb) (seg : TcpSeg) : Decidable (Records pcb seg) := inferInstanceAs (Decidable (_ ∧ _))

/-- The queue when the most slots are in use: while a segment is recorded, before its blocks are merged. -/
def tltFullest (pcb : Pcb) : TltAct → UimpQueue
  | .send seg =>
    if Records pcb seg then
      tltPlaced pcb.tlt.uimp (seg.seqno - pcb.iss) (u32 seg.len) pcb.tlt.curRound
    else pcb.tlt.uimp
  | a => (tltStep pcb a).tlt.uimp

/-- The step leaves the queue as `tlt_segment_verify` wants it, and writes no slot past the array. -/
structure KeepsRep (pcb : Pcb) (a : TltAct) : Prop where
  rep : TltRep (tltStep pcb a).tlt.uimp
  during : Untouched pcb.tlt.uimp (tltFullest pcb a)
  after : Untouched pcb.tlt.uimp (tltStep pcb a).tlt.uimp

def Fits (pcb : Pcb) : TltAct → Prop
  | .send seg =>
    Records pcb seg →
      pcb.tlt.uimp.blocks.length +
          slotsTaken pcb.tlt.curRound pcb.tlt.uimp.blocks (seg.seqno - pcb.iss) (u32 seg.len) ≤
            maxUimpQueueElem ∧
        Solid (addBlocks pcb.tlt.curRound pcb.tlt.uimp.blocks (seg.seqno - pcb.iss) (u32 seg.len))
  | .receive hdr _ =>
    hdr.flags.ack = true → splitsBlock 0 (hdr.ackno - pcb.iss) 0xFFFFFFFF pcb.tlt.uimp.blocks = true →
      pcb.tlt.uimp.blocks.length < maxUimpQueueElem
  | .pop maxLen =>
    splitsBlock (tltUimpqPeek pcb.tlt maxLen).1 (tltUimpqPeek pcb.tlt maxLen).2 (pcb.tlt.curRound - 2)
      pcb.tlt.uimp.blocks = true → pcb.tlt.uimp.blocks.length < maxUimpQueueElem

section Run

variable {pcb pcb₀ : Pcb}

theorem tltOut_uimp (pcb : Pcb) (seg : TcpSeg) :
    (tltOut pcb seg).1.uimp =
      if Records pcb seg then
        tltSegmentAdd pcb.tlt.uimp (seg.seqno - pcb.iss) (u32 seg.len) pcb.tlt.curRound
      else pcb.tlt.uimp := by
  unfold tltOut
  by_cases hlen : seg.len = 0
  · have hno : ¬ Records pcb seg := fun h => h.1 hlen
    rw [if_neg (not_not.mpr hlen), if_neg hno]
    split_ifs <;> rfl
  rw [if_pos hlen]
  by_cases hs : pcb.tlt.sendState = .idle
  · rw [if_pos ⟨hlen, hs⟩]
    simp only [tltSendPayload, hs]
  have hno : ¬ Records pcb seg := fun h => hs h.2
  rw [if_neg hno]
  unfold tltSendPayload
  split
  · rfl
  · rfl
  · contradiction

theorem tltIn_uimp (pcb : Pcb) (hdr : TcpHdr) (tos : U8) :
    (tltIn pcb hdr tos).uimp =
      if hdr.flags.ack then tltSegmentRemove pcb.tlt.uimp 0 (hdr.ackno - pcb.iss) else pcb.tlt.uimp := by
  have hmark : ∀ t, (tltInMark t (tos &&& 0xFC)).uimp = t.uimp := by
    intro t
    unfold tltInMark
    split_ifs <;> rfl
  unfold tltIn
  rw [hmark]
  split_ifs <;> rfl

theorem u32_len_ne_zero {n : Nat} (h0 : n ≠ 0) (h : n < 2 ^ 16) : u32 n ≠ 0 :=
  u32_ne_zero (Nat.pos_of_ne_zero h0) (by omega)

theorem keepsRep_iff (h : TltRep pcb.tlt.uimp) {a : TltAct} (ha : a.Typed) : KeepsRep pcb a ↔ Fits pcb a := by
  have hself : TltRep pcb.tlt.uimp ∧ Untouched pcb.tlt.uimp pcb.tlt.uimp := ⟨h, fun _ _ => rfl⟩
  cases a with
  | send seg =>
    have hout := tltOut_uimp pcb seg
    by_cases hrec : Records pcb seg
    · have hlen := u32_len_ne_zero hrec.1 ha
      have hadd := @add_rep_iff pcb.tlt.uimp (seg.seqno - pcb.iss) (u32 seg.len) h hlen pcb.tlt.curRound
      rw [if_pos hrec] at hout
      have hfits : Fits pcb (.send seg) ↔ _ := ⟨fun hf => hf hrec, fun hf _ => hf⟩
      rw [hfits, ← length_spreadBlocks _ h.blocks_solid hlen, ← hadd, ← hout]
      have hfull : tltFullest pcb (.send seg) = tltPlaced pcb.tlt.uimp (seg.seqno - pcb.iss)
          (u32 seg.len) pcb.tlt.curRound := if_pos hrec
      rw [← hfull]
      exact ⟨fun hk => ⟨hk.rep, hk.during, hk.after⟩, fun hk => ⟨hk.1, hk.2.1, hk.2.2⟩⟩
    · rw [if_neg hrec] at hout
      refine iff_of_true ?_ fun hr => absurd hr hrec
      have hfull : tltFullest pcb (.send seg) = pcb.tlt.uimp := if_neg hrec
      have hafter : (tltStep pcb (.send seg)).tlt.uimp = pcb.tlt.uimp := hout
      refine ⟨?_, ?_, ?_⟩
      · rw [hafter]
        exact h
      · rw [hfull]
        exact hself.2
      · rw [hafter]
        exact hself.2
  | receive hdr tos =>
    have hin : (tltStep pcb (.receive hdr tos)).tlt.uimp = _ := tltIn_uimp pcb hdr tos
    have hk : KeepsRep pcb (.receive hdr tos) ↔
        TltRep (tltStep pcb (.receive hdr tos)).tlt.uimp ∧
          Untouched pcb.tlt.uimp (tltStep pcb (.receive hdr tos)).tlt.uimp :=
      ⟨fun hk => ⟨hk.rep, hk.after⟩, fun hk => ⟨hk.1, hk.2, hk.2⟩⟩
    rw [hk, hin]
    by_cases hack : hdr.flags.ack = true
    · rw [if_pos hack, tltSegmentRemove, remove_rep_iff h]
      exact ⟨fun hf _ => hf, fun hf => hf hack⟩
    · rw [if_neg hack]
      exact iff_of_true hself fun hf => absurd hf hack
  | pop maxLen =>
    have hpop : (tltStep pcb (.pop maxLen)).tlt.uimp = _ := forcePop_uimp pcb.tlt maxLen
    have hk : KeepsRep pcb (.pop maxLen) ↔
        TltRep (tltStep pcb (.pop maxLen)).tlt.uimp ∧
          Untouched pcb.tlt.uimp (tltStep pcb (.pop maxLen)).tlt.uimp :=
      ⟨fun hk => ⟨hk.rep, hk.after⟩, fun hk => ⟨hk.1, hk.2, hk.2⟩⟩
    rw [hk, hpop]
    exact remove_rep_iff h _ _ _

theorem tltRep_init : TltRep tltInit.uimp := by
  refine ⟨[], ?_, by simp, rfl, by simp, fun _ _ => rfl⟩
  simp [tltInit, empty, TltTransmitSegment.zero]

/-- **In every run whose steps all have room the queue is as `tlt_segment_verify` wants it, and no slot past
the array is written; a step from such a state keeps it so just if it has room.** -/
theorem tltRep_run (h0 : pcb₀.tlt = tltInit)
    (h : Reach tltStep (fun pcb a => a.Typed ∧ Fits pcb a) pcb₀ pcb) :
    TltRep pcb.tlt.uimp ∧ ∀ a : TltAct, a.Typed → (KeepsRep pcb a ↔ Fits pcb a) := by
  have hrep : TltRep pcb.tlt.uimp := by
    refine h.inv (I := fun pcb => TltRep pcb.tlt.uimp) ?_ ?_
    · rw [h0]
      exact tltRep_init
    · intro pcb a hi ha
      exact ((keepsRep_iff hi ha.1).mpr ha.2).rep
  exact ⟨hrep, fun a ha => keepsRep_iff hrep ha⟩

end Run

instance (L : List UimpBlock) : Decidable (Solid L) := inferInstanceAs (Decidable (∀ b ∈ L, b.len ≠ 0))

instance (pcb : Pcb) : (a : TltAct) → Decidable (Fits pcb a)
  | .send _ => inferInstanceAs (Decidable (_ → _))
  | .receive _ _ => inferInstanceAs (Decidable (_ → _))
  | .pop _ => inferInstanceAs (Decidable (_ → _))

def sendDot (i : Nat) : TltAct :=
  .send { addr := 0, seqno := seqAt 1 (2 * i), len := 1, p := [] }

theorem sendDot_typed (i : Nat) : (sendDot i).Typed := show 1 < 2 ^ 16 by decide

/-- Three bytes are sent, the first is acknowledged, and then the byte between the others is sent. -/
theorem tltRep_sent :
    let pcb := [sendDot 0, sendDot 1, sendDot 2, .receive ⟨0, 2, 5, { ack := true }, 0⟩ 0,
      .send { addr := 0, seqno := 4, len := 1, p := [] }].foldl tltStep (tcpPcbInit {})
    pcb.tlt.uimp.blocks = [⟨2, 3, 0⟩] ∧ TltRep pcb.tlt.uimp := by
  have hstart : Reach tltStep (fun pcb a => a.Typed ∧ Fits pcb a) (tcpPcbInit {}) (tcpPcbInit {}) :=
    .start
  have h1 := hstart.next (sendDot 0) ⟨sendDot_typed 0, by decide +kernel⟩
  have h2 := h1.next (sendDot 1) ⟨sendDot_typed 1, by decide +kernel⟩
  have h3 := h2.next (sendDot 2) ⟨sendDot_typed 2, by decide +kernel⟩
  have h4 := h3.next (.receive ⟨0, 2, 5, { ack := true }, 0⟩ 0) ⟨trivial, by decide +kernel⟩
  have h5 := h4.next (.send { addr := 0, seqno := 4, len := 1, p := [] })
    ⟨show 1 < 2 ^ 16 by decide, by decide +kernel⟩
  exact ⟨by decide +kernel, (tltRep_run rfl h5).1⟩

/-! ### A queue that is full -/

def Loose (a b : UimpBlock) : Prop :=
  a.len + a.seq ≠ b.seq ∧ a.seq ≠ b.seq ∧ b.seq + b.len ≠ a.seq

section Loose

variable {x b : UimpBlock} {L : List UimpBlock}

theorem glueBlock_loose (h : (x :: L).Pairwise Loose) : glueBlock x L = x :: L := by
  induction L generalizing x with
  | nil => rfl
  | cons y L ih =>
    obtain ⟨hx, hL⟩ := List.pairwise_cons.mp h
    obtain ⟨h1, h2, -⟩ := hx y (by simp)
    rw [glueBlock, if_neg fun h => h1 h.1, if_neg fun h => h2 h.1, ih hL]

theorem absorbBlock_loose (h : ∀ c ∈ L, b.seq + b.len ≠ c.seq ∧ c.seq + c.len ≠ b.seq) :
    absorbBlock b L = none := by
  induction L with
  | nil => rfl
  | cons c L ih =>
    obtain ⟨h1, h2⟩ := h c (by simp)
    have hrest := ih fun c hc => h c (by simp [hc])
    rw [absorbBlock, if_neg h1, if_neg h2, hrest]
    simp

theorem walkBlocks_pass {round seq len : U32} (f : Nat)
    (h : ∀ p ∈ L, visitBlock round p seq len = ⟨p, [], seq, len, false⟩) :
    walkBlocks round f L seq len = (L, seq, len) := by
  induction L generalizing f with
  | nil => cases f <;> rfl
  | cons p L ih =>
    cases f with
    | zero => rfl
    | succ f =>
      have hrest := ih f fun p hp => h p (by simp [hp])
      simp [walkBlocks, h p (by simp), hrest]

theorem putBlock_last (h : ∀ y ∈ L, ¬ TcpSeqLeq (b.seq + b.len) y.seq) : putBlock b L = L ++ [b] := by
  induction L with
  | nil => rfl
  | cons y L ih =>
    rw [putBlock, if_neg (h y (by simp)), ih fun y hy => h y (by simp [hy])]
    rfl

theorem placeBlock_last (h : ∀ y ∈ L, ¬ TcpSeqLeq (b.seq + b.len) y.seq) :
    placeBlock b L = L ++ [b] := by
  cases L with
  | nil => rfl
  | cons y L => rw [placeBlock, putBlock_last fun y hy => h y (by simp [hy])]; rfl

theorem addBlocks_last (hlen : b.len ≠ 0)
    (hpass : ∀ p ∈ L, visitBlock b.round p b.seq b.len = ⟨p, [], b.seq, b.len, false⟩)
    (hlast : ∀ y ∈ L, ¬ TcpSeqLeq (b.seq + b.len) y.seq) (hloose : (L ++ [b]).Pairwise Loose) :
    spreadBlocks b.round L b.seq b.len = L ++ [b] ∧ addBlocks b.round L b.seq b.len = L ++ [b] := by
  have hspread : spreadBlocks b.round L b.seq b.len = L ++ [b] := by
    unfold spreadBlocks
    rw [walkBlocks_pass _ hpass]
    dsimp only
    rw [if_neg hlen]
    exact placeBlock_last hlast
  have hmerge : mergeBlocks (L ++ [b]) = L ++ [b] := by
    cases L with
    | nil => rfl
    | cons x L => exact glueBlock_loose hloose
  have hself : b.seq + b.len ≠ b.seq := fun h => hlen (add_eq_left.mp h)
  have habsorb : absorbBlock b (L ++ [b]) = none := by
    refine absorbBlock_loose fun c hc => ?_
    rcases List.mem_append.mp hc with hc | hc
    · obtain ⟨h1, -, h3⟩ := (List.pairwise_append.mp hloose).2.2 c hc b (by simp)
      rw [BitVec.add_comm] at h1
      exact ⟨h3, h1⟩
    · rw [List.mem_singleton.mp hc]
      exact ⟨hself, hself⟩
  refine ⟨hspread, ?_⟩
  unfold addBlocks
  rw [hspread, hmerge]
  dsimp only
  rw [tuckBlocks]
  split
  · rfl
  · rw [List.getLast?_concat, Option.bind_some, habsorb]

end Loose

def dot (i : Nat) : UimpBlock := ⟨seqAt 0 (2 * i), u32 1, 0⟩

def dots (n : Nat) : List UimpBlock := (List.range n).map dot

theorem dots_succ (n : Nat) : dots (n + 1) = dots n ++ [dot n] := by
  unfold dots
  rw [List.range_succ, List.map_append, List.map_singleton]

theorem dots_loose {n : Nat} (hn : n ≤ 2 ^ 20) : (dots n).Pairwise Loose := by
  unfold dots
  rw [List.pairwise_map]
  refine List.pairwise_lt_range.imp_of_mem fun {i j} hi hj hij => ?_
  rw [List.mem_range] at hi hj
  unfold Loose dot
  dsimp only
  rw [BitVec.add_comm, seqAt_add, seqAt_add]
  refine ⟨?_, ?_, ?_⟩
  · rw [Ne, seqAt_inj (by omega) (by omega)]
    omega
  · rw [Ne, seqAt_inj (by omega) (by omega)]
    omega
  · rw [Ne, seqAt_inj (by omega) (by omega)]
    omega

theorem add_dot {n : Nat} (hn : n < 2 ^ 20) :
    spreadBlocks 0 (dots n) (seqAt 0 (2 * n)) (u32 1) = dots (n + 1) ∧
      addBlocks 0 (dots n) (seqAt 0 (2 * n)) (u32 1) = dots (n + 1) := by
  have hloose := @dots_loose (n + 1) (by omega)
  rw [dots_succ] at hloose ⊢
  refine @addBlocks_last (dot n) (dots n) (u32_ne_zero (by omega) (by omega)) ?_ ?_ hloose
  · intro p hp
    obtain ⟨i, hi, rfl⟩ := List.mem_map.mp hp
    rw [List.mem_range] at hi
    unfold visitBlock dot
    dsimp only
    rw [seqAt_add, seqAt_add, if_neg, if_neg, if_neg, if_pos]
    all_goals rw [seqAt_leq (by omega) (by omega), seqAt_leq (by omega) (by omega)]
    all_goals omega
  · intro y hy
    obtain ⟨i, hi, rfl⟩ := List.mem_map.mp hy
    rw [List.mem_range] at hi
    unfold dot
    dsimp only
    rw [seqAt_add, seqAt_leq (by omega) (by omega)]
    omega

theorem add_blocks_eq {q : UimpQueue} {seq len : U32} (h : TltRep q) (hlen : len ≠ 0) (round : U32) :
    (tltSegmentAdd q seq len round).blocks = addBlocks round q.blocks seq len := by
  obtain ⟨L, hL⟩ := h.cut
  obtain ⟨-, L', -, -, hL', hB, -, -⟩ := hL.blocks.add seq round hL.solid hL.inArray hlen
  rw [hB.blocks_eq, hL.blocks.blocks_eq, hL']

def sendDots : Nat → Pcb
  | 0 => tcpPcbInit {}
  | n + 1 => tltStep (sendDots n) (sendDot n)

structure Dotted (pcb : Pcb) (n : Nat) : Prop where
  iss : pcb.iss = 1
  idle : pcb.tlt.sendState = .idle
  round : pcb.tlt.curRound = 0
  rep : TltRep pcb.tlt.uimp
  blocks : pcb.tlt.uimp.blocks = dots n

section Dots

variable {pcb : Pcb} {n : Nat}

theorem seqAt_one_sub (x : Nat) : seqAt 1 x - 1 = seqAt 0 x := by
  unfold seqAt
  rw [add_sub_cancel_left, zero_add]

theorem Dotted.records (h : Dotted pcb n) (i : Nat) :
    Records pcb { addr := 0, seqno := seqAt 1 (2 * i), len := 1, p := [] } :=
  ⟨show 1 ≠ 0 by decide, h.idle⟩

theorem Dotted.fullest (h : Dotted pcb n) (i : Nat) :
    tltFullest pcb (sendDot i) = tltPlaced pcb.tlt.uimp (seqAt 0 (2 * i)) (u32 1) 0 := by
  refine (if_pos (h.records i)).trans ?_
  dsimp only
  rw [h.iss, h.round, seqAt_one_sub]

theorem Dotted.fits_iff (h : Dotted pcb n) (hn : n < 2 ^ 20) :
    Fits pcb (sendDot n) ↔ n + 1 ≤ maxUimpQueueElem := by
  have hone : u32 1 ≠ 0 := u32_ne_zero (by omega) (by omega)
  obtain ⟨hspread, hadd⟩ := add_dot hn
  have hlen : (dots (n + 1)).length = n + 1 := by simp [dots]
  have hsolid : Solid (dots (n + 1)) := by
    intro b hb
    obtain ⟨i, -, rfl⟩ := List.mem_map.mp hb
    exact hone
  have hfits : Fits pcb (sendDot n) ↔ _ := ⟨fun hf => hf (h.records n), fun hf _ => hf⟩
  rw [hfits]
  dsimp only
  rw [← length_spreadBlocks _ h.rep.blocks_solid hone, h.iss, h.round, h.blocks, seqAt_one_sub, hspread,
    hadd, hlen]
  exact and_iff_left hsolid

theorem Dotted.next (h : Dotted pcb n) (hn : n < maxUimpQueueElem) :
    Dotted (tltStep pcb (sendDot n)) (n + 1) := by
  have hn' : n < 2 ^ 20 := hn.trans (by decide)
  have hfits := (h.fits_iff hn').mpr hn
  have huimp : (tltStep pcb (sendDot n)).tlt.uimp =
      tltSegmentAdd pcb.tlt.uimp (seqAt 1 (2 * n) - pcb.iss) (u32 1) pcb.tlt.curRound := by
    refine (tltOut_uimp pcb _).trans ?_
    rw [if_pos (h.records n)]
  have hpay : (tltStep pcb (sendDot n)).tlt.sendState = .idle ∧
      (tltStep pcb (sendDot n)).tlt.curRound = pcb.tlt.curRound := by
    simp [tltStep, sendDot, tltOut, tltSendPayload, h.idle]
  refine ⟨h.iss, hpay.1, hpay.2.trans h.round, ?_, ?_⟩
  · exact ((keepsRep_iff h.rep (sendDot_typed n)).mpr hfits).rep
  · rw [huimp, add_blocks_eq h.rep (u32_ne_zero (by omega) (by omega)), h.iss, h.round, h.blocks,
      seqAt_one_sub]
    exact (add_dot hn').2

theorem sendDots_dotted (hn : n ≤ maxUimpQueueElem) : Dotted (sendDots n) n := by
  induction n with
  | zero => exact ⟨rfl, rfl, rfl, tltRep_init, rfl⟩
  | succ n ih => exact (ih (by omega)).next (by omega)

theorem sendDots_reach (n : Nat) :
    Reach tltStep (fun _ a => a.Typed) (tcpPcbInit {}) (sendDots n) := by
  induction n with
  | zero => exact .start
  | succ n ih => exact .next ih (sendDot n) (sendDot_typed n)

end Dots

/-- The 257th of these bytes is recorded past the array. -/
theorem tltRep_overrun :
    Reach tltStep (fun _ a => a.Typed) (tcpPcbInit {}) (sendDots maxUimpQueueElem) ∧
      TltRep (sendDots maxUimpQueueElem).tlt.uimp ∧
      ¬ KeepsRep (sendDots maxUimpQueueElem) (sendDot maxUimpQueueElem) ∧
      ¬ Untouched (sendDots maxUimpQueueElem).tlt.uimp
        (tltFullest (sendDots maxUimpQueueElem) (sendDot maxUimpQueueElem)) := by
  have hdot := @sendDots_dotted maxUimpQueueElem le_rfl
  refine ⟨sendDots_reach _, hdot.rep, ?_, ?_⟩
  · rw [keepsRep_iff hdot.rep (sendDot_typed _), hdot.fits_iff (by decide)]
    decide
  · intro hun
    obtain ⟨L, hL⟩ := hdot.rep.cut
    have hone : u32 1 ≠ 0 := by decide
    obtain ⟨C, -, hC, hlaid, -⟩ := hL.blocks.add (seqAt 0 (2 * maxUimpQueueElem)) 0 hL.solid hL.inArray hone
    rw [hdot.fullest] at hun
    have hroom := (hlaid.untouched_iff hL).mp hun
    rw [← hL.blocks.blocks_eq, hdot.blocks, (add_dot (by decide)).1] at hC
    have hlen := congrArg List.length hC
    simp only [List.length_map, dots, List.length_range] at hlen
    omega

end LibvmaTlt.Lwip
