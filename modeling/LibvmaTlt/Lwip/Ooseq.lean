import LibvmaTlt.Lib.Reassembly
import LibvmaTlt.Lwip.InputSpec

/-!
# The out-of-sequence queue is a reassembly queue

`tcp_receive` keeps the segments that came early in `ooseq` and compares them by signed differences of
sequence numbers. Read at positions that do not wrap, and less than half the number space ahead of
`rcv_nxt`, what it does is `Reassembly.place` and `Reassembly.popReady`: the lemmas of this file carry
each function over from segments to pieces.
-/

namespace LibvmaTlt.Lwip

open Reassembly (Piece Ordered)
open Serial

/-! ## Positions -/

/-- The sequence number of a position counted from `base`. -/
def seqAt (base : U32) (x : Nat) : U32 := base + u32 x

variable {p : Piece U8} {off lo : Nat}

section Position

variable {base : U32} {x y : Nat}

theorem seqAt_add (base : U32) (x n : Nat) : seqAt base x + u32 n = seqAt base (x + n) := by
  show base + u32 x + u32 n = base + BitVec.ofNat 32 (x + n)
  rw [BitVec.ofNat_add, BitVec.add_assoc]

theorem seqAt_pred (base : U32) (x : Nat) : seqAt base (x + 1) - 1 = seqAt base x := by
  rw [← seqAt_add]
  exact BitVec.add_sub_cancel _ _

theorem add_u32_sub (a q : U32) : a + u32 (q - a).toNat = q := by
  show a + BitVec.ofNat 32 (q - a).toNat = q
  rw [BitVec.ofNat_toNat, BitVec.setWidth_eq, BitVec.add_comm, BitVec.sub_add_cancel]

theorem seqAt_wrap (base : U32) (x : Nat) : seqAt base (x + 2 ^ 32) = seqAt base x := by
  rw [← seqAt_add]
  exact BitVec.add_zero _

theorem exists_seqAt {base : U32} (hoff : 2 ^ 31 ≤ off) (q : U32) :
    ∃ o : Nat, q = seqAt base o ∧ (o : Int) = off + (q - seqAt base off).toInt := by
  have hq : seqAt base (off + (q - seqAt base off).toNat) = q := by
    rw [← seqAt_add]
    exact add_u32_sub _ _
  generalize q - seqAt base off = n at hq ⊢
  have hn := n.isLt
  rw [BitVec.toInt_eq_toNat_cond]
  split
  · exact ⟨off + n.toNat, hq.symm, by push_cast; rfl⟩
  · obtain ⟨o, ho⟩ : ∃ o, off + n.toNat = o + 2 ^ 32 := ⟨off + n.toNat - 2 ^ 32, by omega⟩
    refine ⟨o, ?_, by push_cast; omega⟩
    rw [ho, seqAt_wrap] at hq
    exact hq.symm

theorem at_seqAt (base : U32) (x : Nat) : At (seqAt base x) (base.toNat + x) :=
  (at_toNat base).add x

theorem seqAt_sub_toNat (h : y ≤ x) (h' : x < y + 2 ^ 32) :
    (seqAt base x - seqAt base y).toNat = x - y := by
  have := (at_seqAt base x).toNat_sub (at_seqAt base y) (by omega) (by omega)
  omega

variable (h1 : x < y + 2 ^ 31) (h2 : y < x + 2 ^ 31)

include h1 h2

theorem seqAt_inj : seqAt base x = seqAt base y ↔ x = y := by
  rw [(at_seqAt base x).eq_iff (at_seqAt base y) (by omega) (by omega)]
  omega

theorem seqAt_lt : TcpSeqLt (seqAt base x) (seqAt base y) ↔ x < y := by
  rw [TcpSeqLt, (at_seqAt base x).lt_iff (at_seqAt base y) (by omega) (by omega)]
  omega

theorem seqAt_le : TcpSeqLeq (seqAt base x) (seqAt base y) ↔ x ≤ y := by
  rw [TcpSeqLeq, (at_seqAt base x).le_iff (at_seqAt base y) (by omega) (by omega)]
  omega

theorem seqAt_gt : TcpSeqGt (seqAt base x) (seqAt base y) ↔ y < x := by
  rw [TcpSeqGt, (at_seqAt base x).gt_iff (at_seqAt base y) (by omega) (by omega)]
  omega

theorem seqAt_ge : TcpSeqGeq (seqAt base x) (seqAt base y) ↔ y ≤ x := by
  rw [TcpSeqGeq, (at_seqAt base x).ge_iff (at_seqAt base y) (by omega) (by omega)]
  omega

end Position

/-! ## Segments and pieces -/

structure SpanAt (base : U32) (p : Piece U8) (s : TcpSeg) : Prop where
  seqno : s.seqno = seqAt base p.pos
  len : s.len = p.data.length
  small : p.data.length < 65535
  fin : s.flags.fin = p.last
  syn : s.flags.syn = false

/-- The chain of the segment holds the bytes of the piece. -/
structure Holds (p : Piece U8) (s : TcpSeg) : Prop where
  chain : Consistent s.p
  bytes : pbufBytes s.p = p.data

/-- The same for a segment of the queue: the cut to the receive window can leave one that is 65535
long. -/
structure Placed (base : U32) (p : Piece U8) (s : TcpSeg) : Prop where
  seqno : s.seqno = seqAt base p.pos
  len : s.len = p.data.length
  small : p.data.length ≤ 65535
  fin : s.flags.fin = p.last
  syn : s.flags.syn = false

structure SegAt (base : U32) (p : Piece U8) (s : TcpSeg) : Prop extends SpanAt base p s, Holds p s

/-- The piece lies ahead of `lo` by less than half the number space. -/
def Near (lo : Nat) (p : Piece U8) : Prop := lo ≤ p.pos ∧ p.stop + 1 < lo + 2 ^ 31

theorem Near.cut (n : Nat) (h : Near lo p) : Near lo (p.cut n) := by
  have := p.cut_stop n
  unfold Near Piece.stop at *
  rw [Piece.cut_pos] at *
  omega

theorem Near.setLast (h : Near lo p) : Near lo p.setLast := h

theorem Near.insertAt {lo' : Nat} {l : List (Piece U8)} (hp : Near lo p) (ho : Ordered lo' l)
    (hl : ∀ q ∈ l, Near lo q) : ∀ q ∈ Reassembly.insertAt p l, Near lo q :=
  Reassembly.forall_insertAt (fun _ n => Near.cut n) ho hp (fun _ _ _ => hp.setLast) hl

theorem Near.mono {lo' : Nat} (h : Near lo p) (hle : lo ≤ lo') (hp : lo' ≤ p.pos) : Near lo' p :=
  ⟨hp, by have := h.2; omega⟩

section Segments

variable {base : U32} {p : Piece U8} {s : TcpSeg}

theorem SpanAt.placed (h : SpanAt base p s) : Placed base p s :=
  ⟨h.seqno, h.len, h.small.le, h.fin, h.syn⟩

theorem Placed.dataEnd (h : Placed base p s) : s.dataEnd = seqAt base p.stop := by
  rw [TcpSeg.dataEnd, h.seqno, h.len, seqAt_add, Piece.stop]

theorem Placed.tcplen (h : Placed base p s) : s.tcplen = p.seqLen := by
  simp only [TcpSeg.tcplen, Piece.seqLen, h.len, h.fin, h.syn, Bool.or_false]

theorem SpanAt.dataEnd (h : SpanAt base p s) : s.dataEnd = seqAt base p.stop := h.placed.dataEnd

theorem SpanAt.tcplen (h : SpanAt base p s) : s.tcplen = p.seqLen := h.placed.tcplen

theorem SpanAt.u16_tcplen (h : SpanAt base p s) : u16 s.tcplen = p.seqLen := by
  rw [h.tcplen]
  have := h.small
  unfold u16 Piece.seqLen
  split <;> omega

theorem SpanAt.setFin (h : SpanAt base p s) : SpanAt base p.setLast s.setFin :=
  ⟨h.seqno, h.len, h.small, rfl, h.syn⟩

theorem SpanAt.cut {n : Nat} (h : SpanAt base p s) (hn : n ≤ p.data.length) :
    SpanAt base (p.cut n) (s.cut n) := by
  have hlen : (p.cut n).data.length = n := by
    simp only [Piece.cut, List.length_take]
    omega
  exact ⟨h.seqno, hlen.symm, by have := h.small; omega, h.fin, h.syn⟩

theorem Holds.cut (h : Holds p s) (n : Nat) : Holds (p.cut n) (s.cut n) := by
  obtain ⟨hb, hc⟩ := pbufRealloc_spec n h.chain
  exact ⟨hc, by rw [TcpSeg.cut, hb, h.bytes]; rfl⟩

theorem SegAt.len_pbuf (h : SegAt base p s) : ∀ b ∈ s.p, b.len ≤ 0xffff := by
  intro b hb
  have hle : b.payload.length ≤ (pbufBytes s.p).length := by
    rw [pbufBytes, List.length_flatMap]
    exact List.single_le_sum (by simp) _ (List.mem_map_of_mem hb)
  have := h.small
  rw [h.bytes] at hle
  unfold Pbuf.len
  omega

theorem Placed.cutAt_eq {x : Nat} (h : Placed base p s) (hn : Near lo p) (hx : p.pos ≤ x)
    (hx' : x < lo + 2 ^ 31) :
    cutAt s (seqAt base x) = if x < p.stop then s.cut (x - p.pos) else s := by
  have hlo := hn.1
  have hhi := hn.2
  have hstop : p.stop = p.pos + p.data.length := rfl
  have hcond : TcpSeqGt s.dataEnd (seqAt base x) ↔ x < p.stop := by
    rw [h.dataEnd]
    exact seqAt_gt (by omega) (by omega)
  unfold Lwip.cutAt
  by_cases hlt : x < p.stop
  · have hsub : u16 (seqAt base x - s.seqno).toNat = x - p.pos := by
      have := h.small
      rw [h.seqno, seqAt_sub_toNat hx (by omega)]
      unfold u16
      omega
    rw [if_pos (hcond.mpr hlt), if_pos hlt, hsub]
  · rw [if_neg (mt hcond.mp hlt), if_neg hlt]

/-- What the operations on the queue keep of its segments: they lie where their pieces do, and whatever
else is kept when a segment is cut and when it takes over a FIN. -/
structure QueueRel (base : U32) (R : Piece U8 → TcpSeg → Prop) : Prop where
  placed : ∀ {p s}, R p s → Placed base p s
  cut : ∀ {p s n}, R p s → n ≤ p.data.length → R (p.cut n) (s.cut n)
  setFin : ∀ {p s}, R p s → R p.setLast s.setFin

theorem queueRel_segAt (base : U32) : QueueRel base (SegAt base) where
  placed := fun h => h.toSpanAt.placed
  cut := fun h hn => ⟨h.toSpanAt.cut hn, h.toHolds.cut _⟩
  setFin := fun h => ⟨h.toSpanAt.setFin, ⟨h.chain, h.bytes⟩⟩

theorem QueueRel.cutAt {R : Piece U8 → TcpSeg → Prop} (hR : QueueRel base R) {lo x : Nat} (h : R p s)
    (hn : Near lo p) (hx : p.pos ≤ x) (hx' : x < lo + 2 ^ 31) :
    R (p.cutAt x) (cutAt s (seqAt base x)) := by
  have hstop : p.stop = p.pos + p.data.length := rfl
  rw [(hR.placed h).cutAt_eq hn hx hx']
  unfold Piece.cutAt
  split
  · exact hR.cut h (by omega)
  · exact h

end Segments

/-! ## Placing a segment -/

theorem forall₂_mem {α β : Type} {R : α → β → Prop} {l : List α} {m : List β} {y : β}
    (h : List.Forall₂ R l m) (hy : y ∈ m) : ∃ x ∈ l, R x y := by
  induction h with
  | nil => cases hy
  | @cons x z rest zs hz _ ih =>
    rcases List.mem_cons.mp hy with rfl | hy
    · exact ⟨x, List.mem_cons_self, hz⟩
    · obtain ⟨q, hq, hqy⟩ := ih hy
      exact ⟨q, List.mem_cons_of_mem _ hq, hqy⟩

section Place

variable {base : U32} {R : Piece U8 → TcpSeg → Prop} {lo : Nat} {p : Piece U8} {s : TcpSeg}
  {l : List (Piece U8)} {segs : List TcpSeg}

theorem Near.seqAt_stop_ge {q : Piece U8} (hp : Near lo p) (hq : Near lo q) :
    TcpSeqGeq (seqAt base p.stop) (seqAt base q.stop) ↔ q.stop ≤ p.stop := by
  have h1 : p.pos ≤ p.stop := Nat.le_add_right _ _
  have h2 : q.pos ≤ q.stop := Nat.le_add_right _ _
  obtain ⟨h3, h4⟩ := hp
  obtain ⟨h5, h6⟩ := hq
  exact seqAt_ge (by omega) (by omega)

theorem swallow_refines (hR : QueueRel base R) (hs : R p s) (hl : List.Forall₂ R l segs)
    (hp : Near lo p) (hn : ∀ q ∈ l, Near lo q) :
    R (Reassembly.swallow p l).1 (swallow s segs).1 ∧
      List.Forall₂ R (Reassembly.swallow p l).2 (swallow s segs).2 := by
  induction hl generalizing p s with
  | nil => exact ⟨hs, .nil⟩
  | @cons q t rest rsegs hq hrest ih =>
    have hcond : TcpSeqGeq s.dataEnd t.dataEnd ↔ q.stop ≤ p.stop := by
      rw [(hR.placed hs).dataEnd, (hR.placed hq).dataEnd]
      exact hp.seqAt_stop_ge (hn q List.mem_cons_self)
    simp only [swallow, Reassembly.swallow]
    by_cases hle : q.stop ≤ p.stop
    · rw [if_pos hle, if_pos (hcond.mpr hle), (hR.placed hq).fin]
      have hrn : ∀ r ∈ rest, Near lo r := fun r hr => hn r (List.mem_cons_of_mem _ hr)
      by_cases hlast : q.last = true
      · rw [if_pos hlast, if_pos hlast]
        exact ih (hR.setFin hs) hp.setLast hrn
      · rw [if_neg hlast, if_neg hlast]
        exact ih hs hp hrn
    · rw [if_neg hle, if_neg (mt hcond.mp hle)]
      exact ⟨hs, .cons hq hrest⟩

theorem tcpOosInsertSegment_refines (hR : QueueRel base R) (hs : R p s)
    (hl : List.Forall₂ R l segs) (hp : Near lo p) (hn : ∀ q ∈ l, Near lo q) (ho : Ordered lo l)
    (hlt : ∀ q ∈ l, p.pos < q.pos ∨ q.stop ≤ p.stop) :
    List.Forall₂ R (Reassembly.insertAt p l) (tcpOosInsertSegment s segs) := by
  obtain ⟨h1, h2⟩ := swallow_refines hR hs hl hp hn
  obtain ⟨gone, hg, -, hhead, heq⟩ := Reassembly.swallow_spec (p := p) ho
  unfold tcpOosInsertSegment Reassembly.insertAt
  rw [(hR.placed hs).fin]
  split
  · exact .cons hs .nil
  simp only
  generalize Reassembly.swallow p l = r at *
  generalize swallow s segs = r' at *
  obtain ⟨p', l'⟩ := r
  obtain ⟨s', segs'⟩ := r'
  cases h2 with
  | nil => exact .cons h1 .nil
  | @cons n t rest rsegs hq hrest =>
    -- the end of the stream was not taken over, since something is left
    obtain rfl : p' = p := by
      rcases heq with heq | ⟨_, hnil, _⟩
      · exact heq
      · cases hnil
    have hmem : n ∈ l := by rw [hg]; simp
    have hpn : p'.pos < n.pos := by
      rcases hlt n hmem with hlt | hle
      · exact hlt
      · have : p'.stop < n.stop := hhead n rfl
        omega
    have hnn := hn n hmem
    simp only
    rw [(hR.placed hq).seqno]
    refine .cons (hR.cutAt h1 hp hpn.le ?_) (.cons hq hrest)
    have := hnn.2
    have : n.pos ≤ n.stop := Nat.le_add_right _ _
    omega

/-- The walk along the queue places the segment. `q` and `t`, if there are any, are the piece and the
segment walked over last: it starts before `p` and overlaps nothing that follows. -/
theorem oosWalk_refines {edge : U32} {tcplen : Nat} {tail : Piece U8} {q : Option (Piece U8)}
    {t : Option TcpSeg} (hR : QueueRel base R) (hs : R p s)
    (ht : ∀ r ∈ l.getLast?, r.pos < p.pos → r.last = false → R tail (cutTail edge tcplen s))
    (hp : Near lo p) (hl : List.Forall₂ R l segs) (hn : ∀ r ∈ l, Near lo r)
    (ho : Ordered lo l) (hne : l ≠ []) (hq : Option.Rel R q t)
    (hprev : ∀ r ∈ q, Near lo r ∧ r.pos < p.pos ∧ Ordered (max (r.pos + 1) r.stop) l) :
    List.Forall₂ R (q.toList.map (Piece.cutAt · p.pos) ++ Reassembly.place p tail l)
      (oosWalk edge tcplen s t segs) := by
  induction hl generalizing q t with
  | nil => exact absurd rfl hne
  | @cons n u rest rsegs hnu hrest ih =>
    have hnn := hn n List.mem_cons_self
    have hps : p.pos ≤ p.stop := Nat.le_add_right _ _
    have hns : n.pos ≤ n.stop := Nat.le_add_right _ _
    obtain ⟨hp1, hp2⟩ := hp
    obtain ⟨hn1, hn2⟩ := hnn
    have hEq : s.seqno = u.seqno ↔ p.pos = n.pos := by
      rw [(hR.placed hs).seqno, (hR.placed hnu).seqno]
      exact seqAt_inj (by omega) (by omega)
    have hLt : TcpSeqLt s.seqno u.seqno ↔ p.pos < n.pos := by
      rw [(hR.placed hs).seqno, (hR.placed hnu).seqno]
      exact seqAt_lt (by omega) (by omega)
    have hGt : TcpSeqGt s.seqno u.seqno ↔ n.pos < p.pos := by
      rw [(hR.placed hs).seqno, (hR.placed hnu).seqno]
      exact seqAt_gt (by omega) (by omega)
    have hInsert (hle : p.pos ≤ n.pos) (hlen : p.pos = n.pos → n.data.length < p.data.length) :
        List.Forall₂ R (Reassembly.insertAt p (n :: rest))
          (tcpOosInsertSegment s (u :: rsegs)) := by
      apply tcpOosInsertSegment_refines hR hs (.cons hnu hrest) ⟨hp1, hp2⟩ hn ho
      intro r hr
      rcases List.mem_cons.mp hr with rfl | hr
      · rcases hle.lt_or_eq with hlt | heq
        · exact .inl hlt
        · exact .inr (by have := hlen heq; unfold Piece.stop; omega)
      · exact .inl (by have := ho.2.2.le_pos r hr; omega)
    -- what was walked over is not cut unless `p` comes right behind it
    have hkeep (hle : n.pos ≤ p.pos) :
        List.Forall₂ R (q.toList.map (Piece.cutAt · p.pos)) t.toList := by
      cases hq with
      | none => exact .nil
      | @some r v hrv =>
        have := (hprev r rfl).2.2.1
        rw [Option.toList_some, List.map_singleton, Piece.cutAt_of_le (by omega)]
        exact .cons hrv .nil
    rw [oosWalk, Reassembly.place]
    rcases Nat.lt_trichotomy p.pos n.pos with hlt | heq | hgt
    · rw [if_pos hlt, if_neg (mt hEq.mp (by omega))]
      cases hq with
      | none =>
        rw [if_pos ⟨rfl, hLt.mpr hlt⟩]
        exact hInsert hlt.le (by omega)
      | @some r v hrv =>
        obtain ⟨hrn, hrp, hro⟩ := hprev r rfl
        have hr1 := hrn.1
        have hBetween : TcpSeqBetween s.seqno (v.seqno + 1) (u.seqno - 1) := by
          obtain ⟨k, hk⟩ : ∃ k, n.pos = k + 1 := ⟨n.pos - 1, by omega⟩
          have hone : v.seqno + 1 = seqAt base (r.pos + 1) := by
            rw [(hR.placed hrv).seqno]
            exact seqAt_add base r.pos 1
          rw [(hR.placed hs).seqno, hone, (hR.placed hnu).seqno, hk, seqAt_pred]
          exact ⟨(seqAt_ge (by omega) (by omega)).mpr (by omega),
            (seqAt_le (by omega) (by omega)).mpr (by omega)⟩
        rw [if_neg (by simp), if_pos ⟨v, rfl, hBetween⟩]
        have hc := hR.cutAt hrv hrn hrp.le (by omega)
        rw [← (hR.placed hs).seqno] at hc
        exact .cons hc (hInsert hlt.le (by omega))
    · rw [if_neg (by omega), if_pos heq, if_pos (hEq.mpr heq)]
      refine List.rel_append (hkeep heq.ge) ?_
      rw [(hR.placed hs).len, (hR.placed hnu).len]
      split
      · rename_i hlen
        exact hInsert heq.le fun _ => hlen
      · exact .cons hnu hrest
    · have hnb : ¬∃ v ∈ t, TcpSeqBetween s.seqno (v.seqno + 1) (u.seqno - 1) := by
        rintro ⟨v, hv, -, hle⟩
        cases hq with
        | none => cases hv
        | @some r v hrv =>
          have := (hprev r rfl).2.2.1
          obtain ⟨k, hk⟩ : ∃ k, n.pos = k + 1 := ⟨n.pos - 1, by omega⟩
          rw [(hR.placed hs).seqno, (hR.placed hnu).seqno, hk, seqAt_pred] at hle
          have := (seqAt_le (by omega) (by omega)).mp hle
          omega
      have hnl : ¬(t = none ∧ TcpSeqLt s.seqno u.seqno) := fun h => by
        have := hLt.mp h.2
        omega
      have hng : ¬p.pos < n.pos := by omega
      have hne' : ¬p.pos = n.pos := by omega
      rw [if_neg hng, if_neg hne', if_neg (mt hEq.mp hne'), if_neg hnl, if_neg hnb]
      cases hrest with
      | nil =>
        have hend : ([] : List TcpSeg) = [] ∧ TcpSeqGt s.seqno u.seqno := ⟨rfl, hGt.mpr hgt⟩
        rw [if_pos hend, (hR.placed hnu).fin]
        refine List.rel_append (hkeep hgt.le) ?_
        split
        · exact .cons hnu .nil
        · rename_i hlast
          have hc := hR.cutAt hnu ⟨hn1, hn2⟩ hgt.le (by omega)
          rw [← (hR.placed hs).seqno] at hc
          exact .cons hc (.cons (ht n rfl hgt (by simpa using hlast)) .nil)
      | @cons n' u' rest' rsegs' hnu' hrest' =>
        have hlast : ¬n.last = true := fun h => List.cons_ne_nil _ _ (ho.2.1 h)
        have hend : ¬(u' :: rsegs' = [] ∧ TcpSeqGt s.seqno u.seqno) := fun h => by cases h.1
        rw [if_neg hend, if_neg hlast]
        refine List.rel_append (hkeep hgt.le) ?_
        have hrn : ∀ r ∈ n' :: rest', Near lo r := fun r hr => hn r (List.mem_cons_of_mem _ hr)
        refine ih (fun r hr => ht r (by simpa using hr)) hrn (ho.2.2.mono (by omega)) (by simp)
          (q := some n) (.some hnu) ?_
        rintro r hr
        cases hr
        exact ⟨⟨hn1, hn2⟩, hgt, ho.2.2⟩

/-- What is kept of a piece appended at the tail: it is cut to the receive window. -/
def tailPiece (edge : U32) (tcplen : Nat) (s : TcpSeg) (p : Piece U8) : Piece U8 :=
  if u32 tcplen + s.seqno > edge then { p.cut (u16 (edge - s.seqno).toNat) with last := false } else p

@[simp] theorem tailPiece_pos (edge : U32) (tcplen : Nat) (s : TcpSeg) (p : Piece U8) :
    (tailPiece edge tcplen s p).pos = p.pos := by
  unfold tailPiece
  split <;> rfl

theorem cutTail_refines {edge : U32} {tcplen : Nat} (hs : SegAt base p s)
    (h : u32 tcplen + s.seqno > edge → u16 (edge - s.seqno).toNat ≤ s.len) :
    SegAt base (tailPiece edge tcplen s p) (cutTail edge tcplen s) := by
  unfold tailPiece cutTail
  split
  · rename_i hover
    have hle := h hover
    rw [hs.len] at hle
    have hs' : SpanAt base { p with last := false } { s with flags := { s.flags with fin := false } } :=
      ⟨hs.seqno, hs.len, hs.small, rfl, hs.syn⟩
    have hh' : Holds { p with last := false } { s with flags := { s.flags with fin := false } } :=
      ⟨hs.chain, hs.bytes⟩
    exact ⟨hs'.cut hle, hh'.cut _⟩
  · exact hs

theorem forall₂_getLast {α β : Type} {R : α → β → Prop} {l : List α} {m : List β} {r : α}
    (hl : List.Forall₂ R l m) (hr : r ∈ l.getLast?) : ∃ t ∈ m.getLast?, R r t := by
  induction hl with
  | nil => cases hr
  | @cons q t rest rsegs hq hrest ih =>
    cases hrest with
    | nil =>
      cases hr
      exact ⟨t, rfl, hq⟩
    | cons hq' hrest' =>
      rw [List.getLast?_cons_cons] at hr
      obtain ⟨u, hu, hru⟩ := ih hr
      exact ⟨u, by rw [List.getLast?_cons_cons]; exact hu, hru⟩

end Place

/-! ## The segment that is next in sequence -/

/-- A piece cut to `w` positions; the end of the stream is the first to go. -/
def fitWnd (w : Nat) (p : Piece U8) : Piece U8 :=
  if w < p.seqLen then { p.cut w with last := false } else p

@[simp] theorem fitWnd_pos (w : Nat) (p : Piece U8) : (fitWnd w p).pos = p.pos := by
  unfold fitWnd
  split <;> rfl

theorem Near.fitWnd {lo : Nat} {p : Piece U8} (w : Nat) (h : Near lo p) : Near lo (fitWnd w p) := by
  unfold Lwip.fitWnd
  split
  · exact h.cut w
  · exact h

section Inseq

variable {base : U32} {R : Piece U8 → TcpSeg → Prop} {lo : Nat} {p : Piece U8} {s : TcpSeg}
  {l : List (Piece U8)} {segs : List TcpSeg}

theorem trimToWnd_refines (w : U32) (hs : SpanAt base p s) :
    SpanAt base (fitWnd w.toNat p) (trimToWnd w s) ∧
      (Holds p s → Holds (fitWnd w.toNat p) (trimToWnd w s)) := by
  have hlen : p.seqLen ≤ p.data.length + 1 := by
    unfold Piece.seqLen
    split <;> omega
  have hsmall := hs.small
  have hcond : u32 (u16 s.tcplen) > w ↔ w.toNat < p.seqLen := by
    rw [hs.u16_tcplen, gt_iff_lt, BitVec.lt_def, BitVec.toNat_ofNat, Nat.mod_eq_of_lt (by omega)]
  unfold trimToWnd fitWnd
  by_cases hw : w.toNat < p.seqLen
  · have hn : u16 (w.toNat + if s.flags.syn = true then 65535 else 0) = w.toNat := by
      rw [hs.syn]
      simp only [Bool.false_eq_true, if_false, u16]
      omega
    rw [if_pos (hcond.mpr hw), if_pos hw]
    simp only [hn]
    have hs' : SpanAt base { p with last := false } { s with flags := { s.flags with fin := false } } :=
      ⟨hs.seqno, hs.len, hs.small, rfl, hs.syn⟩
    refine ⟨hs'.cut (show w.toNat ≤ p.data.length by omega), fun hh => ?_⟩
    have hh' : Holds { p with last := false } { s with flags := { s.flags with fin := false } } :=
      ⟨hh.chain, hh.bytes⟩
    exact hh'.cut _
  · rw [if_neg (mt hcond.mp hw), if_neg hw]
    exact ⟨hs, id⟩

theorem dropCovered_refines (hR : QueueRel base R) (hs : SpanAt base p s) (hlast : p.last = false)
    (hl : List.Forall₂ R l segs) (hp : Near lo p) (hn : ∀ q ∈ l, Near lo q)
    (ho : Ordered lo l) :
    SpanAt base (Reassembly.swallow p l).1 (dropCovered s segs).1 ∧
      List.Forall₂ R (Reassembly.swallow p l).2 (dropCovered s segs).2 ∧
      (dropCovered s segs).1.p = s.p := by
  induction hl generalizing lo with
  | nil => exact ⟨hs, .nil, rfl⟩
  | @cons q t rest rsegs hq hrest ih =>
    have hnq := hn q List.mem_cons_self
    have hseq : s.seqno + u32 (u16 s.tcplen) = seqAt base p.stop := by
      rw [hs.u16_tcplen, hs.seqno, seqAt_add, Piece.stop, Piece.seqLen, hlast]
      rfl
    have hcond : TcpSeqGeq (s.seqno + u32 (u16 s.tcplen)) t.dataEnd ↔ q.stop ≤ p.stop := by
      rw [hseq, (hR.placed hq).dataEnd]
      exact hp.seqAt_stop_ge hnq
    simp only [dropCovered, Reassembly.swallow]
    by_cases hle : q.stop ≤ p.stop
    · rw [if_pos hle, if_pos (hcond.mpr hle), (hR.placed hq).fin, hs.syn]
      by_cases hql : q.last = true
      · -- the FIN is on the last segment, so the loop ends here
        have hnil := ho.2.1 hql
        subst hnil
        cases hrest
        rw [if_pos hql, if_pos ⟨hql, rfl⟩]
        exact ⟨hs.setFin, .nil, rfl⟩
      · rw [if_neg hql, if_neg (fun h => hql h.1)]
        exact ih hp (fun r hr => hn r (List.mem_cons_of_mem _ hr))
          (ho.2.2.mono (by have := hnq.1; omega))
    · rw [if_neg hle, if_neg (mt hcond.mp hle)]
      exact ⟨hs, .cons hq hrest, rfl⟩

theorem adjustOoseq_refines (hR : QueueRel base R) (hs : SpanAt base p s) (hl : List.Forall₂ R l segs)
    (hp : Near lo p) (hn : ∀ q ∈ l, Near lo q) (ho : Ordered lo l) (hlt : ∀ q ∈ l, p.pos < q.pos) :
    ∃ p' l', Reassembly.insertAt p l = p' :: l' ∧ SpanAt base p' (adjustOoseq s segs).1 ∧
      List.Forall₂ R l' (adjustOoseq s segs).2 ∧
      (Holds p s → Holds p' (adjustOoseq s segs).1) ∧ p'.pos = p.pos := by
  unfold adjustOoseq Reassembly.insertAt
  by_cases hnil : segs = []
  · subst hnil
    cases hl
    rw [if_pos rfl]
    split <;> exact ⟨p, [], rfl, hs, .nil, id, rfl⟩
  rw [if_neg hnil, hs.fin]
  by_cases hlast : p.last = true
  · rw [if_pos hlast, if_pos hlast]
    exact ⟨p, [], rfl, hs, .nil, id, rfl⟩
  rw [if_neg hlast, if_neg hlast]
  obtain ⟨h1, h2, h3⟩ := dropCovered_refines hR hs (by simpa using hlast) hl hp hn ho
  obtain ⟨gone, hg, -, hhead, heq⟩ := Reassembly.swallow_spec (p := p) ho
  generalize Reassembly.swallow p l = r at *
  generalize dropCovered s segs = r' at *
  obtain ⟨p', l'⟩ := r
  obtain ⟨s', segs'⟩ := r'
  simp only at *
  have hh : Holds p s → Holds p' s' := by
    intro hh
    refine ⟨by rw [h3]; exact hh.chain, ?_⟩
    rw [h3, hh.bytes]
    rcases heq with rfl | ⟨rfl, _⟩ <;> rfl
  cases h2 with
  | nil =>
    refine ⟨p', [], rfl, h1, .nil, hh, ?_⟩
    rcases heq with rfl | ⟨rfl, _⟩ <;> rfl
  | @cons n t rest rsegs hq hrest =>
    obtain rfl : p' = p := by
      rcases heq with heq | ⟨_, hnil, _⟩
      · exact heq
      · cases hnil
    have hmem : n ∈ l := by rw [hg]; simp
    have hpn := hlt n hmem
    have hnn := (hn n hmem).2
    have hns : n.pos ≤ n.stop := Nat.le_add_right _ _
    have hcut := h1.placed.cutAt_eq hp hpn.le (by omega)
    -- without a FIN the segment ends where its data does
    have htrim : trimToNext s' (t :: rsegs) = cutAt s' (seqAt base n.pos) := by
      have htc : u16 s'.tcplen = s'.len := by
        rw [h1.u16_tcplen, h1.len, Piece.seqLen, if_neg hlast, Nat.add_zero]
      have hsub : u16 (u16 (seqAt base n.pos - s'.seqno).toNat + if s'.flags.syn = true then 65535 else 0)
          = u16 (seqAt base n.pos - s'.seqno).toNat := by
        rw [h1.syn]
        simp [u16]
      simp only [trimToNext, cutAt, htc, (hR.placed hq).seqno, hsub]
    rw [htrim, hcut]
    refine ⟨p'.cutAt n.pos, n :: rest, rfl, ?_, .cons hq hrest, fun h => ?_, Piece.cutAt_pos _ _⟩
    · unfold Piece.cutAt
      split
      · exact h1.cut (by unfold Piece.stop at *; omega)
      · exact h1
    · unfold Piece.cutAt
      split
      · exact (hh h).cut _
      · exact hh h

theorem pbufBytes_chainData {recvData c : List Pbuf} (hc : Consistent c) :
    pbufBytes (chainData recvData c) = pbufBytes recvData ++ pbufBytes c := by
  unfold chainData
  split
  · split
    · rename_i hnil
      rw [hnil]
      rfl
    · exact pbufBytes_pbufCat _ _
  · rename_i htot
    have hnil : pbufBytes c = [] := by
      rw [← List.length_eq_zero_iff, length_pbufBytes, ← hc.totLen]
      omega
    rw [hnil, List.append_nil]

theorem len_chainData {recvData c : List Pbuf} (h : ∀ b ∈ recvData, b.len ≤ 0xffff)
    (hc : ∀ b ∈ c, b.len ≤ 0xffff) : ∀ b ∈ chainData recvData c, b.len ≤ 0xffff := by
  unfold chainData
  split
  · split
    · exact hc
    intro b hb
    rcases List.mem_append.mp hb with hb | hb
    · obtain ⟨a, ha, rfl⟩ := List.mem_map.mp hb
      exact h a ha
    · exact hc b hb
  · exact h

/-- What is left once the pieces of `l` that are ready are taken; the receiver stood at `off` and had
`data` for the application. The bytes are those of the pieces if `H` holds. -/
structure Drained (R : Piece U8 → TcpSeg → Prop) (base : U32) (off : Nat) (l : List (Piece U8))
    (H : Prop) (pcb : Pcb) (data : List Pbuf) (fin : Bool) (r : Pcb × InData) : Prop where
  rcvNxt : r.1.rcvNxt = seqAt base (Reassembly.advance off (Reassembly.popReady off l).1)
  ooseq : List.Forall₂ R (Reassembly.popReady off l).2 r.1.ooseq
  permitted : r.1.sackPermitted = pcb.sackPermitted
  blocks : r.1.rcvSackBlock = pcb.rcvSackBlock
  bytes : H → pbufBytes r.2.recvData =
    pbufBytes data ++ (Reassembly.popReady off l).1.flatMap Piece.data
  chunks : H → (∀ b ∈ data, b.len ≤ 0xffff) → ∀ b ∈ r.2.recvData, b.len ≤ 0xffff
  gotFin : r.2.gotFin = (fin || (Reassembly.popReady off l).1.any Piece.last)
  state : r.2.gotFin = false → r.1.state = pcb.state
  flags : r.1.flags = pcb.flags

theorem dequeueLoop_refines (hR : QueueRel base R) (hl : List.Forall₂ R l segs)
    (hn : ∀ q ∈ l, Near lo q) (hlo : lo ≤ off) (hoff : off < lo + 2 ^ 31) {pcb : Pcb}
    (hpcb : pcb.rcvNxt = seqAt base off) (d : InData) :
    Drained R base off l (∀ p s, R p s → SegAt base p s) pcb d.recvData d.gotFin
      (dequeueLoop segs pcb d) := by
  induction hl generalizing off pcb d with
  | nil =>
    exact ⟨hpcb, .nil, rfl, rfl, fun _ => (List.append_nil _).symm, fun _ => id,
      (Bool.or_false _).symm, fun _ => rfl, rfl⟩
  | @cons q t rest rsegs hq hrest ih =>
    have hnq := hn q List.mem_cons_self
    have hqs : q.pos ≤ q.stop := Nat.le_add_right _ _
    have hcond : t.seqno = pcb.rcvNxt ↔ q.pos = off := by
      have := hnq.1
      have := hnq.2
      rw [(hR.placed hq).seqno, hpcb]
      exact seqAt_inj (by omega) (by omega)
    rw [dequeueLoop]
    by_cases hpos : q.pos = off
    · rw [if_pos (hcond.mpr hpos)]
      simp only
      have hlen : off + q.seqLen ≤ q.stop + 1 := by
        unfold Piece.seqLen Piece.stop
        split <;> omega
      have hadv : (advance pcb t.tcplen).rcvNxt = seqAt base (off + q.seqLen) := by
        rw [(hR.placed hq).tcplen, ← seqAt_add, ← hpcb]
        rfl
      have h := @ih (off + q.seqLen) (fun r hr => hn r (List.mem_cons_of_mem _ hr)) (by omega)
        (by have := hnq.2; omega)
        (if t.flags.fin ∧ (advance pcb t.tcplen).state = .established then
          { advance pcb t.tcplen with state := .closeWait } else advance pcb t.tcplen)
        (by split <;> exact hadv)
        { d with
          recvData := chainData d.recvData t.p
          gotFin := d.gotFin || t.flags.fin }
      generalize dequeueLoop rsegs _ _ = r at h ⊢
      obtain ⟨h1, h2, h3, h4, h5, h6, h7, h8, h9⟩ := h
      have hpop : Reassembly.popReady off (q :: rest) =
          (q :: (Reassembly.popReady (off + q.seqLen) rest).1,
            (Reassembly.popReady (off + q.seqLen) rest).2) := by
        rw [Reassembly.popReady, if_pos hpos]
      constructor
      · rw [hpop, Reassembly.advance_cons]
        exact h1
      · rw [hpop]
        exact h2
      · rw [h3]
        split <;> rfl
      · rw [h4]
        split <;> rfl
      · intro hseg
        rw [h5 hseg, hpop, pbufBytes_chainData (hseg _ _ hq).chain, (hseg _ _ hq).bytes,
          List.flatMap_cons, List.append_assoc]
      · exact fun hseg hd => h6 hseg (len_chainData hd (hseg _ _ hq).len_pbuf)
      · rw [h7, hpop, (hR.placed hq).fin, List.any_cons, Bool.or_assoc]
      · intro hg
        rw [h8 hg]
        rw [h7] at hg
        simp only [Bool.or_eq_false_iff] at hg
        rw [if_neg (by simp [hg.1.2])]
        rfl
      · rw [h9]
        split <;> rfl
    · rw [if_neg (mt hcond.mp hpos)]
      have hpop : Reassembly.popReady off (q :: rest) = ([], q :: rest) := by
        rw [Reassembly.popReady, if_neg hpos]
      constructor
      · rw [hpop]
        exact hpcb
      · rw [hpop]
        exact .cons hq hrest
      all_goals simp [hpop]

/-- **The segment that is next in sequence** is put in front of the queue, and what is ready is
taken. -/
theorem receiveInseq_refines (hR : QueueRel base R) {pcb : Pcb} {d : InData}
    (hpcb : pcb.rcvNxt = seqAt base off) (hs : SpanAt base p d.inseg) (hpos : p.pos = off)
    (hp : Near off p) (hl : List.Forall₂ R l pcb.ooseq) (hn : ∀ q ∈ l, Near off q)
    (ho : Ordered (off + 1) l) :
    ∃ q : Pcb × InData, receiveInseq pcb d = (tcpAckNow (sackCleanup q.1), q.2) ∧
      Drained R base off (Reassembly.insertAt (fitWnd pcb.rcvWnd.toNat p) l)
        (Holds p d.inseg ∧ ∀ p s, R p s → SegAt base p s) pcb [] false q := by
  obtain ⟨ht1, ht2⟩ := trimToWnd_refines pcb.rcvWnd hs
  have hlt : ∀ q ∈ l, (fitWnd pcb.rcvWnd.toNat p).pos < q.pos := by
    intro q hq
    have := ho.le_pos q hq
    rw [fitWnd_pos]
    omega
  obtain ⟨p', l', hins, hs', hl', hh', hp'⟩ :=
    adjustOoseq_refines hR ht1 hl (hp.fitWnd _) hn (ho.mono (by omega)) hlt
  rw [hins]
  have hpn : ∀ q ∈ p' :: l', Near off q := by
    rw [← hins]
    exact (hp.fitWnd _).insertAt ho hn
  rw [fitWnd_pos, hpos] at hp'
  have hlen : off + p'.seqLen ≤ p'.stop + 1 := by
    unfold Piece.seqLen Piece.stop
    split <;> omega
  have hstop := (hpn p' List.mem_cons_self).2
  unfold receiveInseq
  generalize adjustOoseq (trimToWnd pcb.rcvWnd d.inseg) pcb.ooseq = r at *
  obtain ⟨s', segs'⟩ := r
  simp only at *
  have hadv : (advance pcb (u16 s'.tcplen)).rcvNxt = seqAt base (off + p'.seqLen) := by
    rw [hs'.u16_tcplen, ← seqAt_add, ← hpcb]
    rfl
  refine ⟨_, rfl, ?_⟩
  have h := dequeueLoop_refines hR hl' (fun q hq => hpn q (List.mem_cons_of_mem _ hq)) (by omega)
    (show off + p'.seqLen < off + 2 ^ 31 by omega) hadv
    { d with
      inseg := s'
      tcplen := u16 s'.tcplen
      recvData := if pbufTotLen s'.p > 0 then s'.p else []
      gotFin := s'.flags.fin }
  generalize dequeueLoop segs' _ _ = q at h ⊢
  obtain ⟨h1, h2, h3, h4, h5, h6, h7, h8, h9⟩ := h
  have hpop : Reassembly.popReady off (p' :: l') =
      (p' :: (Reassembly.popReady (off + p'.seqLen) l').1,
        (Reassembly.popReady (off + p'.seqLen) l').2) := by
    rw [Reassembly.popReady, if_pos hp']
  constructor
  · rw [hpop, Reassembly.advance_cons]
    exact h1
  · rw [hpop]
    exact h2
  · exact h3
  · exact h4
  · rintro ⟨hh, hseg⟩
    have hbytes := @pbufBytes_chainData [] _ (hh' (ht2 hh)).chain
    simp only [chainData, if_true] at hbytes
    rw [h5 hseg, hpop, hbytes, (hh' (ht2 hh)).bytes, List.flatMap_cons, List.append_assoc]
  · rintro ⟨hh, hseg⟩ _
    apply h6 hseg
    have hfirst : SegAt base p' s' := ⟨hs', hh' (ht2 hh)⟩
    split
    · exact hfirst.len_pbuf
    · simp
  · rw [h7, hpop, hs'.fin, List.any_cons, Bool.false_or]
  · intro hg
    exact h8 hg
  · exact h9

end Inseq

end LibvmaTlt.Lwip
