import LibvmaTlt.Lib.Ledger
import LibvmaTlt.Lwip.SplitExact

/-!
# A split that runs out of memory

`tcp_split_segment` asks for a pbuf, if it cuts inside the first one, and for a segment.
`tcp_create_segment` releases the chain it is given when there is no segment. By then that chain is
linked to the pbufs of the segment to be split, or is a part of them. `tcpSplitMem` follows the links:
the segment's pbufs are the cells `0, 1, …`, the new one is the cell behind them.
-/

namespace LibvmaTlt.Lwip

def segHeap (k : Nat) : ChainHeap where
  next i := if i + 1 < k then some (i + 1) else none

/-- The new pbuf is obtained and linked to what follows the first: `p->next = seg->p->next`. -/
def newPbufHeap (k : Nat) : ChainHeap :=
  { (segHeap k).link k ((segHeap k).next 0) with mem := ({} : Ledger Nat).get k }

/-- What a call of `tcp_split_segment` leaves of the pbufs, and whether an allocation failed. -/
structure SplitMem where
  heap : ChainHeap
  failed : Bool

def tcpSplitMem (env : Env) (n : Nat) (pcb : Pcb) (seg : TcpSeg) (wnd : U32) : SplitMem :=
  let h := segHeap seg.p.length
  let hdr := tcpHlen + lwipTcpOptLength pcb pcb.dataOpts
  let lentosend := wnd - (seg.seqno - pcb.lastack)
  if seg.p = [] ∨ seg.seqno - pcb.lastack ≥ wnd ∨ env.refBusy n 0 then ⟨h, false⟩
  else if hdr + lentosend.toNat < seg.firstPbuf.length then
    if !env.pbufOk (n + 1) then ⟨h, true⟩
    else if !env.segOk (n + 1) then
      ⟨ChainHeap.freeChain (seg.p.length + 1) (some seg.p.length) (newPbufHeap seg.p.length), true⟩
    else ⟨(newPbufHeap seg.p.length).link 0 none, false⟩
  else if seg.p.length ≤ 1 then ⟨h, false⟩
  else
    match splitWalk env n hdr lentosend 0 seg.firstPbuf.length (seg.p.take 1) seg.p.tail with
    | none => ⟨h, false⟩
    | some (_, front, _) =>
      if !env.segOk (n + 1) then ⟨ChainHeap.freeChain (seg.p.length + 1) (some front.length) h, true⟩
      else ⟨h.link (front.length - 1) none, false⟩

/-- The split has changed nothing: the pcb, its segments and the links of the pbufs are as before, none
was released, and what was obtained was released once. -/
structure SplitUndone (pcb p : Pcb) (seg : TcpSeg) (m : SplitMem) : Prop where
  same : p = pcb
  chain : Chain m.heap.next (some 0) (List.range seg.p.length)
  kept : ∀ i < seg.p.length, i ∉ m.heap.mem.freed
  settled : ∀ x ∈ m.heap.mem.got, m.heap.mem.freed.count x = 1

/-- The new pbuf is not to be had, so that no segment is asked for. -/
def PbufFails (env : Env) (n : Nat) (pcb : Pcb) (seg : TcpSeg) (wnd : U32) : Prop :=
  tcpHlen + lwipTcpOptLength pcb pcb.dataOpts + (wnd - (seg.seqno - pcb.lastack)).toNat <
    seg.firstPbuf.length ∧ env.pbufOk (n + 1) = false

instance (env : Env) (n : Nat) (pcb : Pcb) (seg : TcpSeg) (wnd : U32) :
    Decidable (PbufFails env n pcb seg wnd) := inferInstanceAs (Decidable (_ ∧ _))

theorem segHeap_chain {k i : Nat} (hi : i < k) :
    Chain (segHeap k).next (some i) (List.range' i (k - i)) := by
  obtain ⟨d, rfl⟩ : ∃ d, k = i + 1 + d := ⟨k - (i + 1), by omega⟩
  induction d generalizing i with
  | zero =>
    have hk : i + 1 + 0 - i = 1 := by omega
    rw [hk, List.range'_one, Chain.cons_iff, Chain.nil_iff]
    exact ⟨rfl, if_neg (by omega)⟩
  | succ d ih =>
    have hk : i + 1 + (d + 1) - i = d + 1 + 1 := by omega
    have hn : (segHeap (i + 1 + (d + 1))).next i = some (i + 1) := if_pos (by omega)
    rw [hk, List.range'_succ, Chain.cons_iff, hn]
    refine ⟨rfl, ?_⟩
    have := @ih (i + 1) (by omega)
    rw [show i + 1 + 1 + d = i + 1 + (d + 1) by omega] at this
    rwa [show i + 1 + (d + 1) - (i + 1) = d + 1 by omega] at this

theorem newPbufHeap_next_ne {k x : Nat} (h : x ≠ k) :
    (newPbufHeap k).next x = (segHeap k).next x := by
  simp [newPbufHeap, ChainHeap.link, h]

theorem newPbufHeap_chain (d : Nat) :
    Chain (newPbufHeap (d + 1)).next (some (d + 1)) ((d + 1) :: List.range' 1 d) := by
  have hseg := @segHeap_chain (d + 1) 0 (Nat.succ_pos d)
  rw [Nat.sub_zero, List.range'_succ] at hseg
  have hrest := (Chain.cons_iff.mp hseg).2
  have hnew : (newPbufHeap (d + 1)).next (d + 1) = (segHeap (d + 1)).next 0 := if_pos rfl
  refine Chain.cons_iff.mpr ⟨rfl, ?_⟩
  rw [hnew]
  refine hrest.transport fun x hx => newPbufHeap_next_ne ?_
  rw [List.mem_range'_1] at hx
  omega

/-! ## What is released -/

section Fail

variable {env : Env} {n : Nat} {pcb : Pcb} {seg : TcpSeg} {rest : List TcpSeg} {wnd : U32}

/-- The ways in which an allocation can fail: there is no new pbuf; there is no segment for the new
pbuf, which is linked to the pbufs behind the first; there is no segment for the pbufs behind a cut. -/
inductive SplitFailure (env : Env) (n : Nat) (pcb : Pcb) (seg : TcpSeg) (wnd : U32)
    (heap : ChainHeap) : Prop
  | pbuf (h : PbufFails env n pcb seg wnd) (hh : heap = segHeap seg.p.length)
  | inside (h : ¬PbufFails env n pcb seg wnd)
      (hh : heap = ChainHeap.freeChain (seg.p.length + 1) (some seg.p.length)
        (newPbufHeap seg.p.length))
  | between (j : Nat) (h : ¬PbufFails env n pcb seg wnd) (hj : j < seg.p.length) (h0 : 0 < j)
      (hh : heap = ChainHeap.freeChain (seg.p.length + 1) (some j) (segHeap seg.p.length))

theorem tcpSplitMem_failure (hfail : (tcpSplitMem env n pcb seg wnd).failed = true) :
    SplitFailure env n pcb seg wnd (tcpSplitMem env n pcb seg wnd).heap := by
  unfold tcpSplitMem at hfail ⊢
  simp only at hfail ⊢
  split at hfail
  · cases hfail
  rename_i hgo
  rw [if_neg hgo]
  split at hfail
  · rename_i hin
    rw [if_pos hin]
    split at hfail
    · rename_i hp
      rw [if_pos hp]
      exact .pbuf ⟨hin, by simpa using hp⟩ rfl
    rename_i hp
    rw [if_neg hp]
    split at hfail
    · rename_i hs
      rw [if_pos hs]
      exact .inside (fun h => hp (by simp [h.2])) rfl
    · cases hfail
  · rename_i hin
    rw [if_neg hin]
    split at hfail
    · cases hfail
    rename_i hlen
    rw [if_neg hlen]
    split at hfail
    · cases hfail
    rename_i headlen front back hw
    split at hfail
    · rename_i hs
      rw [if_pos hs]
      obtain ⟨mid, hfront, hrest, hback, -⟩ := splitWalk_spec hw
      have hl1 := congrArg List.length hfront
      have hl2 := congrArg List.length hrest
      have hb := List.length_pos_iff.mpr hback
      simp only [List.length_append, List.length_take, List.length_tail] at hl1 hl2
      exact .between _ (fun h => hin h.1) (by omega) (by omega) rfl
    · cases hfail

theorem tcpSplitSegment_failed (hu : pcb.unsent = seg :: rest)
    (hfail : (tcpSplitMem env n pcb seg wnd).failed = true) : tcpSplitSegment env n pcb wnd = pcb := by
  unfold tcpSplitMem at hfail
  unfold tcpSplitSegment
  simp only [hu] at hfail ⊢
  split at hfail
  · cases hfail
  rename_i hgo
  rw [if_neg hgo]
  obtain ⟨p0, prest, hp⟩ := List.exists_cons_of_ne_nil fun hnil => hgo (.inl hnil)
  have hnone : splitCut env n pcb seg (wnd - (seg.seqno - pcb.lastack)) = none := by
    unfold splitCut
    simp only [hp, TcpSeg.firstPbuf_of_cons hp] at hfail ⊢
    split at hfail
    · rename_i hin
      rw [if_pos (show p0.len > _ from hin)]
      split at hfail
      · rename_i hpb
        rw [if_pos (.inl hpb)]
      · split at hfail
        · rename_i hs
          rw [if_pos (.inr hs)]
        · cases hfail
    · rename_i hin
      rw [if_neg (show ¬p0.len > _ from hin)]
      split at hfail
      · cases hfail
      rename_i hlen
      rw [if_neg (by rintro rfl; simp at hlen)]
      simp only [List.take_succ_cons, List.take_zero, List.tail_cons] at hfail
      rw [show p0.payload.length = p0.len from rfl] at hfail
      cases hw : splitWalk env n (tcpHlen + lwipTcpOptLength pcb pcb.dataOpts)
          (wnd - (seg.seqno - pcb.lastack)) 0 p0.len [p0] prest with
      | none => rfl
      | some r =>
        simp only [hw] at hfail ⊢
        split at hfail
        · rename_i hs
          rw [if_pos hs]
        · cases hfail
  rw [hnone]

theorem freeChain_newPbuf (d : Nat) :
    (ChainHeap.freeChain (d + 1 + 1) (some (d + 1)) (newPbufHeap (d + 1))).mem =
        ⟨[d + 1], (d + 1) :: List.range' 1 d⟩ ∧
      (ChainHeap.freeChain (d + 1 + 1) (some (d + 1)) (newPbufHeap (d + 1))).next 0 =
        (segHeap (d + 1)).next 0 := by
  have hnd : ((d + 1) :: List.range' 1 d).Nodup := by
    refine List.nodup_cons.mpr ⟨?_, List.nodup_range'⟩
    rw [List.mem_range'_1]
    omega
  obtain ⟨hm, hn⟩ := @ChainHeap.freeChain_spec _ (d + 1 + 1) _ _ (newPbufHeap_chain d) hnd (by simp)
  refine ⟨hm, (hn 0 ?_).trans (newPbufHeap_next_ne (Nat.zero_ne_add_one d))⟩
  rw [List.mem_cons, List.mem_range'_1]
  omega

theorem freeChain_segHeap {k j : Nat} (hj : j < k) :
    (ChainHeap.freeChain (k + 1) (some j) (segHeap k)).mem = ⟨[], List.range' j (k - j)⟩ :=
  (@ChainHeap.freeChain_spec _ (k + 1) _ _ (segHeap_chain hj) List.nodup_range' (by simp; omega)).1

/-- **A failed split changes nothing** just if the segment is a single pbuf or there was no new pbuf. -/
theorem tcpSplitSegment_undone_iff (hu : pcb.unsent = seg :: rest)
    (hfail : (tcpSplitMem env n pcb seg wnd).failed = true) :
    SplitUndone pcb (tcpSplitSegment env n pcb wnd) seg (tcpSplitMem env n pcb seg wnd) ↔
      seg.p.length = 1 ∨ PbufFails env n pcb seg wnd := by
  have hsame := tcpSplitSegment_failed hu hfail
  have hf := tcpSplitMem_failure hfail
  obtain ⟨d, hd⟩ : ∃ d, seg.p.length = d + 1 := by
    cases hp : seg.p with
    | nil => simp [tcpSplitMem, hp] at hfail
    | cons p0 prest => exact ⟨prest.length, rfl⟩
  generalize hm : tcpSplitMem env n pcb seg wnd = m at hf ⊢
  obtain ⟨heap, failed⟩ := m
  have hfull : Chain (segHeap seg.p.length).next (some 0) (List.range seg.p.length) := by
    have hc := @segHeap_chain seg.p.length 0 (by omega)
    rwa [Nat.sub_zero, ← List.range_eq_range'] at hc
  cases hf with
  | pbuf h hh =>
    dsimp only at hh
    subst hh
    exact ⟨fun _ => .inr h, fun _ => ⟨hsame, hfull, fun _ _ => List.not_mem_nil, by simp [segHeap]⟩⟩
  | inside h hh =>
    rw [hd] at hh hfull ⊢
    obtain ⟨hmem, hnext⟩ := freeChain_newPbuf d
    rw [← show heap = _ from hh] at hmem hnext
    refine ⟨fun hund => .inl ?_, fun hone => ?_⟩
    · have hkept := hund.kept 1
      rw [hmem, hd] at hkept
      by_contra hne
      exact hkept (by omega) (List.mem_cons_of_mem _ (List.mem_range'_1.mpr ⟨le_rfl, by omega⟩))
    · obtain rfl : d = 0 := by
        have := hone.resolve_right h
        omega
      refine ⟨hsame, ?_, ?_, ?_⟩
      · rw [hd]
        exact hfull.transport fun x hx => by
          obtain rfl : x = 0 := by simpa using hx
          exact hnext
      · rw [hmem, hd]
        simp
      · rw [hmem]
        simp
  | between j h hj h0 hh =>
    have hmem := freeChain_segHeap hj
    rw [← show heap = _ from hh] at hmem
    refine ⟨fun hund => ?_, fun hone => ?_⟩
    · have hkept := hund.kept j hj
      rw [hmem] at hkept
      exact absurd (List.mem_range'_1.mpr ⟨le_rfl, by omega⟩) hkept
    · have := hone.resolve_right h
      omega

end Fail

def noSegEnv : Env := { segOk := fun _ => false }

/-- The twenty bytes are in a single pbuf: they are left as they were. -/
theorem tcpSplitSegment_undone_twenty :
    SplitUndone (twentyPcb false) (tcpSplitSegment noSegEnv 0 (twentyPcb false) 5) (twentySeg false)
      (tcpSplitMem noSegEnv 0 (twentyPcb false) (twentySeg false) 5) :=
  (tcpSplitSegment_undone_iff (twentyPcb_unsent false).1 (by decide +kernel)).mpr (by decide +kernel)

/-- Fifteen bytes in two pbufs, as two calls of `tcp_write` leave them when the window grows in
between. -/
def chainSeg : TcpSeg :=
  ⟨0, 1, 15, [⟨List.replicate 20 0 ++ List.replicate 10 7, 35⟩, ⟨List.replicate 5 7, 5⟩], {}, {}, 5, 20⟩

def chainPcb : Pcb := { tcpPcbInit {} with state := .established, unsent := [chainSeg] }

/-- For want of a segment the second pbuf is released with the new one, or alone when the cut falls
between the two; the segment still has it. -/
theorem tcpSplitSegment_undone_chain :
    chainPcb.unsent = [chainSeg] ∧ chainSeg.Built ∧
      (tcpSplitMem noSegEnv 0 chainPcb chainSeg 5).heap.mem = ⟨[2], [2, 1]⟩ ∧
      (tcpSplitMem noSegEnv 0 chainPcb chainSeg 12).heap.mem = ⟨[], [1]⟩ ∧
      ∀ wnd : U32, wnd = 5 ∨ wnd = 12 → (tcpSplitMem noSegEnv 0 chainPcb chainSeg wnd).failed = true ∧
        ¬SplitUndone chainPcb (tcpSplitSegment noSegEnv 0 chainPcb wnd) chainSeg
          (tcpSplitMem noSegEnv 0 chainPcb chainSeg wnd) := by
  have h5 : (tcpSplitMem noSegEnv 0 chainPcb chainSeg 5).heap.mem = ⟨[2], [2, 1]⟩ := by decide +kernel
  have h12 : (tcpSplitMem noSegEnv 0 chainPcb chainSeg 12).heap.mem = ⟨[], [1]⟩ := by decide +kernel
  refine ⟨rfl, by decide +kernel, h5, h12, ?_⟩
  rintro wnd (rfl | rfl)
  · exact ⟨by decide +kernel, fun h => h.kept 1 (by decide) (by rw [h5]; decide)⟩
  · exact ⟨by decide +kernel, fun h => h.kept 1 (by decide) (by rw [h12]; decide)⟩

end LibvmaTlt.Lwip
