import LibvmaTlt.Lwip.UimpAck
import LibvmaTlt.Lwip.UimpExact
import LibvmaTlt.Lwip.UimpPop

/-!
# The queue as a record of bytes and their rounds

`tlt_segment_add` is to give the bytes of its range the round and to leave the record of every other
byte alone. It does so just if the walk over the chain gets every block right, in whatever half of the
number space the blocks lie.
-/

namespace LibvmaTlt.Lwip

open UimpQueue Stretch

def UimpBlock.Holds (b : UimpBlock) (x : U32) : Prop := (x - b.seq).toNat < b.len.toNat

def UimpBlock.stretch (base : U32) (b : UimpBlock) : Stretch U32 :=
  ⟨(b.seq - base).toNat, (b.seq - base).toNat + b.len.toNat, b.round⟩

/-- The blocks share no byte, none is empty, and they lie in the half of the number space from `base`
on. -/
structure UimpFormed (base : U32) (q : UimpQueue) : Prop where
  rep : TltRep q
  disjoint : q.blocks.Pairwise fun a b => ∀ x, ¬ (a.Holds x ∧ b.Holds x)
  span : ∀ b ∈ q.blocks, (b.seq - base).toNat + b.len.toNat < 2 ^ 31

/-- The bytes of `[seq, seq + len)` are recorded with the round and no other, and the record of the
other bytes is as it was. -/
structure AddsRange (base : U32) (q : UimpQueue) (seq len round : U32) : Prop where
  formed : UimpFormed base (tltSegmentAdd q seq len round)
  inside : ∀ x r, (x - seq).toNat < len.toNat →
    (Recorded (tltSegmentAdd q seq len round) x r ↔ r = round)
  outside : ∀ x r, ¬ (x - seq).toNat < len.toNat →
    (Recorded (tltSegmentAdd q seq len round) x r ↔ Recorded q x r)

section Positions

variable {base : U32} {b : UimpBlock} {s : Stretch U32} {L : List (Stretch U32)}

theorem stretch_blockOf (base : U32) (h : InHalf s) : (blockOf base s).stretch base = s := by
  obtain ⟨h1, h2⟩ := h
  unfold UimpBlock.stretch blockOf
  dsimp only
  rw [toNat_seqAt_sub (by omega), u32_toNat (by omega), Nat.add_sub_cancel' h1.le]

theorem blockOf_stretch (base : U32) (b : UimpBlock) : blockOf base (b.stretch base) = b := by
  unfold UimpBlock.stretch blockOf
  dsimp only
  rw [seqAt_toNat_sub, Nat.add_sub_cancel_left, u32, BitVec.ofNat_toNat, BitVec.setWidth_eq]

theorem InHalf.holds_iff (h : InHalf s) (x : U32) : (blockOf base s).Holds x ↔ s.Has (x - base).toNat :=
  SlotAt.holds_iff (slotAt_iff.mpr ⟨UimpBlock.block_slot (blockOf base s) none, h⟩) x

theorem disjoint_iff_apart (base : U32) (hL : ∀ b ∈ L, InHalf b) :
    (L.map (blockOf base)).Pairwise (fun a b => ∀ x, ¬ (a.Holds x ∧ b.Holds x)) ↔ L.Pairwise Apart := by
  rw [List.pairwise_map]
  refine List.Pairwise.iff_of_mem fun {a b} ha hb => ?_
  obtain ⟨ha1, ha2⟩ := hL a ha
  constructor
  · intro h
    by_contra hcon
    obtain ⟨x, hxa, hxb⟩ := exists_common ha1 (hL b hb).1 hcon
    have hx : (seqAt base x - base).toNat = x := toNat_seqAt_sub (by have := hxa.2; omega)
    apply h (seqAt base x)
    rw [(hL a ha).holds_iff, (hL b hb).holds_iff, hx]
    exact ⟨hxa, hxb⟩
  · intro h x
    rw [(hL a ha).holds_iff, (hL b hb).holds_iff]
    exact fun hx => h.not_has hx.1 hx.2

end Positions

section Refines

variable {base seq len round : U32} {q : UimpQueue} {L : List (Nat × Stretch U32)}

theorem Queue.below {x : Nat} {t : U32} (h : Queue base q L) (hx : Gives (L.map Prod.snd) x t) :
    x < 2 ^ 31 := by
  obtain ⟨b, hb, hxb, -⟩ := hx
  exact hxb.2.trans (h.inHalf b hb).2

theorem Queue.formed_iff (h : Queue base q L) (hrep : TltRep q) :
    UimpFormed base q ↔ Tidy (2 ^ 31) (L.map Prod.snd) := by
  have hhalf := h.inHalf
  have hdisjoint := disjoint_iff_apart base hhalf
  constructor
  · intro hw
    have hd := hw.disjoint
    rw [h.blocks_eq] at hd
    exact ⟨fun b hb => (hhalf b hb).1, fun b hb => (hhalf b hb).2.le, hdisjoint.mp hd⟩
  · intro ht
    refine ⟨hrep, ?_, ?_⟩ <;> rw [h.blocks_eq]
    · exact hdisjoint.mpr ht.apart
    · intro b hb
      obtain ⟨s, hs, rfl⟩ := List.mem_map.mp hb
      have hstretch := stretch_blockOf base (hhalf s hs)
      exact (congrArg Stretch.hi hstretch).trans_lt (hhalf s hs).2

theorem UimpFormed.queue (h : UimpFormed base q) :
    ∃ L, L.map Prod.snd = q.blocks.map (UimpBlock.stretch base) ∧ Queue base q L := by
  obtain ⟨B, hB⟩ := h.rep.cut
  have hsolid := hB.solid
  rw [← hB.blocks.blocks_eq] at hsolid
  refine hB.blocks.toQueue ?_ ?_
  · have hid : blockOf base ∘ UimpBlock.stretch base = id := funext (blockOf_stretch base)
    rw [← hB.blocks.blocks_eq, List.map_map, hid, List.map_id]
  · intro s hs
    obtain ⟨b, hb, rfl⟩ := List.mem_map.mp hs
    refine ⟨?_, h.span b hb⟩
    have hpos : 0 < b.len.toNat := Nat.pos_of_ne_zero fun h0 => hsolid b hb (BitVec.eq_of_toNat_eq h0)
    unfold UimpBlock.stretch
    dsimp only
    omega

theorem Queue.rep_add {L' : List (Nat × Stretch U32)}
    (h' : Queue base (tltSegmentAdd q seq len round) L') (hrep : TltRep q) (hlen : len ≠ 0)
    (hroom : (spreadBlocks round q.blocks seq len).length ≤ maxUimpQueueElem) :
    TltRep (tltSegmentAdd q seq len round) := by
  obtain ⟨B, hB⟩ := hrep.cut
  obtain ⟨-, B', -, -, hB', hblocks, -, -⟩ := hB.blocks.add seq round hB.solid hB.inArray hlen
  refine ((add_rep_iff hrep hlen round).mpr ⟨hroom, ?_⟩).1
  rw [hB.blocks.blocks_eq, ← hB', ← hblocks.blocks_eq, h'.blocks_eq]
  intro b hb
  obtain ⟨s, hs, rfl⟩ := List.mem_map.mp hb
  obtain ⟨h1, h2⟩ := h'.inHalf s hs
  exact u32_ne_zero (by omega) (by omega)

/-- **`tlt_segment_add` updates the record of bytes and rounds** just if the walk over the chain gets
every block right. -/
theorem addsRange_iff (h : UimpFormed base q) (hlen : len ≠ 0)
    (hspan : (seq - base).toNat + len.toNat < 2 ^ 31)
    (hroom : (spreadBlocks round q.blocks seq len).length ≤ maxUimpQueueElem) :
    AddsRange base q seq len round ↔
      Handled base round [] (q.blocks.map (UimpBlock.stretch base)) (seq - base).toNat
        ((seq - base).toNat + len.toNat) := by
  obtain ⟨L, hL, hQ⟩ := h.queue
  have htidy := (hQ.formed_iff h.rep).mp h
  have hpos : 0 < len.toNat := Nat.pos_of_ne_zero fun h0 => hlen (BitVec.eq_of_toNat_eq h0)
  obtain ⟨s, hs⟩ : ∃ s, (seq - base).toNat = s := ⟨_, rfl⟩
  obtain ⟨e, he⟩ : ∃ e, s + len.toNat = e := ⟨_, rfl⟩
  rw [← hL, hs, he, ← updates_iff htidy (by omega) (by omega)]
  -- the range in positions
  have hseq : seqAt base s = seq := hs ▸ seqAt_toNat_sub base seq
  have hlen' : u32 (e - s) = len := by
    rw [← he, Nat.add_sub_cancel_left, u32, BitVec.ofNat_toNat, BitVec.setWidth_eq]
  have hrange : ∀ x : U32,
      (x - seq).toNat < len.toNat ↔ s ≤ (x - base).toNat ∧ (x - base).toNat < e := by
    intro x
    rw [← hseq, ← hlen']
    exact InHalf.holds_iff (s := ⟨s, e, 0⟩) ⟨by simp only; omega, by simp only; omega⟩ x
  obtain ⟨L', hL', hQ'⟩ : ∃ L', L'.map Prod.snd = addStretches base round (L.map Prod.snd) s e ∧
      Queue base (tltSegmentAdd q (seqAt base s) (u32 (e - s)) round) L' :=
    hQ.add h.rep (by omega) (by omega)
  rw [hseq, hlen'] at hQ'
  rw [← hL', ← hQ'.formed_iff (hQ'.rep_add h.rep hlen hroom)]
  constructor
  · intro ha
    refine ⟨ha.formed, fun y t => ?_⟩
    by_cases hy : y < 2 ^ 31
    · have hoff : (seqAt base y - base).toNat = y := toNat_seqAt_sub (by omega)
      have hin := ha.inside (seqAt base y) t
      have hout := ha.outside (seqAt base y) t
      rw [hrange, hQ'.recorded_iff, hoff] at hin hout
      rw [hQ.recorded_iff, hoff] at hout
      split_ifs with hx
      · exact hin hx
      · exact hout hx
    · rw [if_neg (by omega)]
      exact iff_of_false (fun hg => hy (hQ'.below hg)) fun hg => hy (hQ.below hg)
  · rintro ⟨hw, hup⟩
    refine ⟨hw, fun x r hx => ?_, fun x r hx => ?_⟩
    · rw [hQ'.recorded_iff, hup, if_pos ((hrange x).mp hx)]
    · rw [hQ'.recorded_iff, hup, if_neg fun hx' => hx ((hrange x).mpr hx'), ← hQ.recorded_iff]

end Refines

def soleBlock (b : UimpBlock) : UimpQueue := .set ⟨fun _ => .zero, 1⟩ 0 (b.slot none)

theorem soleBlock_formed {base : U32} {b : UimpBlock} (hlen : b.len ≠ 0)
    (hspan : (b.seq - base).toNat + b.len.toNat < 2 ^ 31) : UimpFormed base (soleBlock b) := by
  have hzero : (soleBlock b).slot 0 = b.slot none := rfl
  have hblocks : (soleBlock b).blocks = [b] := rfl
  refine ⟨⟨[0], ?_, by simp, rfl, ?_, ?_⟩, by simp [hblocks], by simpa [hblocks] using hspan⟩
  · rw [hzero, if_neg (show (b.slot none).len ≠ 0 from hlen), Chain.cons_iff]
    exact ⟨rfl, trivial⟩
  · intro i hi
    obtain rfl := List.mem_singleton.mp hi
    exact ⟨by decide, hlen⟩
  · intro i hi
    have hi' : i ≠ 0 := by simpa using hi
    simp [soleBlock, hi', TltTransmitSegment.zero]

/-- A range that starts in the block and goes on across the end of the number space. -/
theorem addsRange_overlap : AddsRange 0xFFFFFFF0 (soleBlock ⟨0xFFFFFFF0, 8, 1⟩) 0xFFFFFFF4 20 2 :=
  (addsRange_iff (soleBlock_formed (by decide) (by decide)) (by decide) (by decide)
    (by decide)).mpr (show Handled 0xFFFFFFF0 2 [] [⟨0, 8, 1⟩] 4 24 by simp [Handled])

/-- A range in the middle of a block of another round: the block keeps its length, so the bytes of the
range have two rounds. -/
theorem addsRange_fails : UimpFormed 0 (soleBlock ⟨0, 30, 1⟩) ∧
    ((10 : U32) - 0).toNat + (10 : U32).toNat < 2 ^ 31 ∧
    (spreadBlocks 2 (soleBlock ⟨0, 30, 1⟩).blocks 10 10).length ≤ maxUimpQueueElem ∧
    ¬ AddsRange 0 (soleBlock ⟨0, 30, 1⟩) 10 10 2 := by
  refine ⟨soleBlock_formed (by decide) (by decide), by decide, by decide, fun h => ?_⟩
  have hrec : Recorded (tltSegmentAdd (soleBlock ⟨0, 30, 1⟩) 10 10 2) 15 1 :=
    ⟨0, .head (by decide), by decide, by decide⟩
  exact absurd ((h.inside 15 1 (by decide)).mp hrec) (by decide)

end LibvmaTlt.Lwip
