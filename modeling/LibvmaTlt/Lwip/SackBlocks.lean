import LibvmaTlt.Lib.Runs
import LibvmaTlt.Lwip.SackRemove

/-!
# The SACK blocks of the out-of-sequence queue

`maximalRuns` is what `rcv_sack_block` is for: the maximal contiguous ranges of `ooseq`. The loop that
rebuilds the blocks means to keep the left edge of an open run in `incomplete`, but never sets it, so
each segment of a run overwrites the left edge: of every run the last segment is reported. Nor does the
loop stop at the end of the array.
-/

namespace LibvmaTlt.Lwip

open Serial Runs

/-! ## The runs of a queue -/

/-- A non-empty segment in front of blocks, joined to the first one if that follows on it. -/
def joinBlock (s : TcpSeg) : List TcpSackBlock → List TcpSackBlock
  | [] => [⟨s.seqno, s.dataEnd⟩]
  | b :: r =>
    if s.dataEnd = b.blockLe then ⟨s.seqno, b.blockRe⟩ :: r else ⟨s.seqno, s.dataEnd⟩ :: b :: r

def maximalRuns : List TcpSeg → List TcpSackBlock
  | [] => []
  | s :: l => if s.len = 0 then maximalRuns l else joinBlock s (maximalRuns l)

/-- The queue is sorted without overlap, in the half of the number space behind `base`. -/
structure OoseqSorted (base : U32) (l : List TcpSeg) : Prop where
  half : ∀ s ∈ l, s.InHalf base
  sorted : l.Pairwise fun s t => (s.seqno - base).toNat + s.len ≤ (t.seqno - base).toNat

def TcpSeg.offs (base : U32) (s : TcpSeg) : Nat × Nat :=
  ((s.seqno - base).toNat, (s.seqno - base).toNat + s.len)

section Offsets

variable {base : U32} {l : List TcpSeg} {s t : TcpSeg}

theorem OoseqSorted.tail (h : OoseqSorted base (s :: l)) : OoseqSorted base l :=
  ⟨fun t ht => h.half t (List.mem_cons_of_mem s ht), (List.pairwise_cons.mp h.sorted).2⟩

theorem OoseqSorted.ordered (h : OoseqSorted base l) : Ordered (l.map (·.offs base)) := by
  refine ⟨?_, List.pairwise_map.mpr h.sorted⟩
  intro a ha
  obtain ⟨s, -, rfl⟩ := List.mem_map.mp ha
  exact Nat.le_add_right _ _

theorem offs_injective (base : U32) : Function.Injective (TcpSackBlock.offs base) := by
  rintro ⟨a, b⟩ ⟨a', b'⟩ h
  obtain ⟨h1, h2⟩ := Prod.mk.inj h
  obtain rfl := sub_left_inj.mp (BitVec.toNat_inj.mp h1)
  obtain rfl := sub_left_inj.mp (BitVec.toNat_inj.mp h2)
  rfl

theorem TcpSeg.InHalf.offs (h : s.InHalf base) :
    (TcpSackBlock.mk s.seqno s.dataEnd).offs base = s.offs base :=
  Prod.ext rfl h.dataEnd

theorem edge_eq_iff {x y : U32} : x = y ↔ (x - base).toNat = (y - base).toNat :=
  sub_left_inj.symm.trans BitVec.toNat_inj.symm

theorem maximalRuns_offs (h : OoseqSorted base l) :
    (maximalRuns l).map (·.offs base) = runs (l.map (·.offs base)) := by
  induction l with
  | nil => rfl
  | cons s l ih =>
    have hs := h.half s List.mem_cons_self
    rw [List.map_cons, maximalRuns, runs, ← ih h.tail]
    by_cases hlen : s.len = 0
    · rw [if_pos hlen, if_pos (by simp [TcpSeg.offs, hlen])]
    rw [if_neg hlen, if_neg (by simpa [TcpSeg.offs] using hlen)]
    cases maximalRuns l with
    | nil => simp [joinBlock, joinRun, hs.offs]
    | cons b r =>
      have hiff : s.dataEnd = b.blockLe ↔ (s.offs base).2 = (b.offs base).1 := by
        rw [@edge_eq_iff base, hs.dataEnd]
        rfl
      rw [List.map_cons, joinBlock, joinRun]
      by_cases ht : s.dataEnd = b.blockLe
      · rw [if_pos ht, if_pos (hiff.mp ht)]
        rfl
      · rw [if_neg ht, if_neg fun h => ht (hiff.mpr h), List.map_cons, List.map_cons, hs.offs]

theorem OoseqSorted.gap_iff (h : OoseqSorted base (s :: t :: l)) :
    TcpSeqLt s.dataEnd t.seqno ↔ ¬ (s.offs base).2 = (t.offs base).1 := by
  have hs := h.half s List.mem_cons_self
  have ht := h.half t (by simp)
  have hle := (List.pairwise_cons.mp h.sorted).1 t List.mem_cons_self
  have hend := hs.dataEnd
  unfold TcpSeg.InHalf at hs ht
  rw [show TcpSeqLt s.dataEnd t.seqno ↔ _ from
    @lt_iff_offset 32 s.dataEnd t.seqno base (by omega) (by omega), hend]
  unfold TcpSeg.offs
  simp only
  omega

theorem sackRebuild_offs (h : OoseqSorted base l) :
    (sackRebuild l).map (·.offs base) = lasts (l.map (·.offs base)) := by
  induction l with
  | nil => rfl
  | cons s l ih =>
    have hs := h.half s List.mem_cons_self
    cases l with
    | nil => simp [sackRebuild, lasts, hs.offs]
    | cons t l =>
      have hgap := h.gap_iff
      rw [sackRebuild, List.map_cons, List.map_cons, lasts, ← List.map_cons, ← ih h.tail]
      by_cases ht : (s.offs base).2 = (t.offs base).1
      · rw [if_neg fun hl => hgap.mp hl ht, if_pos ht]
      · rw [if_pos (hgap.mpr ht), if_neg ht, List.map_cons, hs.offs]

end Offsets

/-! ## What is reported -/

/-- Once an out-of-sequence segment is queued, `rcv_sack_block` lists the first sixteen maximal runs of
`ooseq`, and nothing was written behind the array. -/
structure ReportsRuns (env : Env) (d : InData) (c : Conn) : Prop where
  lists : (receiveOos env d c).pcb.rcvSackBlock =
    (maximalRuns (oosInsert env d c.pcb).ooseq).take lwipTcpSackBlockLen
  inArray : (receiveOos env d c).fault = false

/-- A segment is without payload just when the next one follows on it, and the last one has payload. -/
def PayloadApart : List TcpSeg → Prop
  | [] => True
  | [s] => s.len ≠ 0
  | s :: t :: l => (s.len = 0 ↔ s.dataEnd = t.seqno) ∧ PayloadApart (t :: l)

theorem payloadApart_iff {base : U32} {l : List TcpSeg} (h : OoseqSorted base l) :
    PayloadApart l ↔ Spread (l.map (·.offs base)) := by
  induction l with
  | nil => exact Iff.rfl
  | cons s l ih =>
    have hlen : s.len = 0 ↔ (s.offs base).1 = (s.offs base).2 := by
      unfold TcpSeg.offs
      simp only
      omega
    cases l with
    | nil => exact not_congr hlen
    | cons t l =>
      have hs := h.half s List.mem_cons_self
      have htouch : s.dataEnd = t.seqno ↔ (s.offs base).2 = (t.offs base).1 := by
        rw [@edge_eq_iff base, hs.dataEnd]
        rfl
      rw [PayloadApart, ih h.tail, hlen, htouch]
      rfl

def withPayload (l : List TcpSeg) : List TcpSeg := l.filter (·.len ≠ 0)

theorem oosInsert_sackPermitted (env : Env) (d : InData) (pcb : Pcb) :
    (oosInsert env d pcb).sackPermitted = pcb.sackPermitted := by
  unfold oosInsert
  split <;> rfl

theorem tcpSendEmptyAck_sackBlock (env : Env) (n : Nat) (c : Conn) :
    (tcpSendEmptyAck env n c).pcb.rcvSackBlock = c.pcb.rcvSackBlock ∧
      (tcpSendEmptyAck env n c).fault = c.fault := by
  unfold tcpSendEmptyAck
  split <;> exact ⟨rfl, rfl⟩

theorem reportsRuns_iff_rebuild {env : Env} {d : InData} {c : Conn} (hp : c.pcb.sackPermitted = true)
    (hf : c.fault = false) :
    ReportsRuns env d c ↔
      sackRebuild (oosInsert env d c.pcb).ooseq =
          (maximalRuns (oosInsert env d c.pcb).ooseq).take lwipTcpSackBlockLen ∧
        (sackRebuild (oosInsert env d c.pcb).ooseq).length ≤ lwipTcpSackBlockLen := by
  have hnew : newSackBlocks (oosInsert env d c.pcb) = sackRebuild (oosInsert env d c.pcb).ooseq :=
    if_pos ((oosInsert_sackPermitted env d c.pcb).trans hp)
  have hrec : receiveOos env d c =
      if lwipTcpSackBlockLen < (sackRebuild (oosInsert env d c.pcb).ooseq).length then
        { c with fault := true }
      else tcpSendEmptyAck env 1 { c with
        pcb := (oosInsert env d c.pcb).setSackBlocks (sackRebuild (oosInsert env d c.pcb).ooseq) } := by
    rw [← hnew]
    rfl
  generalize sackRebuild (oosInsert env d c.pcb).ooseq = blocks at hrec ⊢
  by_cases hlen : lwipTcpSackBlockLen < blocks.length
  · rw [if_pos hlen] at hrec
    refine iff_of_false (fun h => ?_) fun h => absurd h.2 (by omega)
    have := h.inArray
    rw [hrec] at this
    cases this
  · rw [if_neg hlen] at hrec
    obtain ⟨hb, hfault⟩ := tcpSendEmptyAck_sackBlock env 1
      { c with pcb := (oosInsert env d c.pcb).setSackBlocks blocks }
    rw [← hrec] at hb hfault
    constructor
    · exact fun h => ⟨hb.symm.trans h.lists, by omega⟩
    · exact fun h => ⟨hb.trans h.1, hfault.trans hf⟩

/-- **When the blocks are the maximal runs.** -/
theorem reportsRuns_iff {base : U32} {env : Env} {d : InData} {c : Conn}
    (hp : c.pcb.sackPermitted = true) (hf : c.fault = false)
    (hs : OoseqSorted base (oosInsert env d c.pcb).ooseq) :
    ReportsRuns env d c ↔ PayloadApart (oosInsert env d c.pcb).ooseq ∧
      (withPayload (oosInsert env d c.pcb).ooseq).length ≤ lwipTcpSackBlockLen := by
  rw [reportsRuns_iff_rebuild hp hf, payloadApart_iff hs]
  generalize (oosInsert env d c.pcb).ooseq = l at hs ⊢
  have hfil : (withPayload l).length = ((l.map (·.offs base)).filter fun a => a.1 ≠ a.2).length := by
    rw [List.filter_map, List.length_map, withPayload]
    congr 1
    apply List.filter_congr
    intro s _
    simp [TcpSeg.offs]
  rw [hfil, ← lasts_eq_take_iff hs.ordered, ← sackRebuild_offs hs, ← maximalRuns_offs hs,
    ← List.map_take, List.length_map, (List.map_injective_iff.mpr (offs_injective base)).eq_iff]

/-- A receiver at 1 that has queued segments of five octets at the given places. -/
def queuedAt (l : List U32) : Conn where
  pcb := { tcpPcbInit {} with
    state := .established
    rcvNxt := 1
    sackPermitted := true
    ooseq := l.map fun q => { addr := 0, seqno := q, len := 5, p := [] } }

def arrivesAt (q : U32) : InData where
  hdr := ⟨q, 1, 5, {}, 100⟩
  seqno := q
  tcplen := 5
  inseg := { addr := 0, seqno := q, len := 5, p := [] }

/-- Two runs of one segment each. -/
theorem reportsRuns_apart : ReportsRuns {} (arrivesAt 21) (queuedAt [11]) := by
  have hq : (oosInsert {} (arrivesAt 21) (queuedAt [11]).pcb).ooseq =
      [{ addr := 0, seqno := 11, len := 5, p := [] },
        { addr := 0, seqno := 21, len := 5, p := [] }] := by
    decide
  have hs : OoseqSorted 1 (oosInsert {} (arrivesAt 21) (queuedAt [11]).pcb).ooseq := by
    rw [hq]
    exact ⟨by decide, by decide⟩
  refine (reportsRuns_iff rfl rfl hs).mpr ?_
  rw [hq]
  exact ⟨⟨by decide, Nat.succ_ne_zero 4⟩, by decide⟩

/-- A segment that follows on a queued one: of the run `[11, 21)` only `[16, 21)` is reported. And with
sixteen runs queued, one more is written behind the array. -/
theorem reportsRuns_fails :
    ¬ ReportsRuns {} (arrivesAt 16) (queuedAt [11]) ∧
      ¬ ReportsRuns {} (arrivesAt 171)
        (queuedAt [11, 21, 31, 41, 51, 61, 71, 81, 91, 101, 111, 121, 131, 141, 151, 161]) := by
  constructor
  · intro h
    exact absurd h.lists (by decide)
  · intro h
    exact absurd h.inArray (by decide)

end LibvmaTlt.Lwip
