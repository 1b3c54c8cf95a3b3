import LibvmaTlt.Lwip.Stream

/-!
# The out-of-sequence queue

`ooseq_in_order`: whatever segments `tcp_receive` takes, the queue stays in order, free of overlaps and
ahead of `rcv_nxt`, its lengths are those of its pbufs and only its last segment has a FIN. The
segments lie within half the number space of `rcv_nxt`, and the cut at the tail of the queue does not
make them longer; `wrappedTail_len` is a queue with a segment that was made longer.
-/

namespace LibvmaTlt.Lwip

open Reassembly (Piece Ordered)

structure OoseqInOrder (pcb : Pcb) : Prop where
  order : pcb.ooseq.Pairwise fun s t =>
    TcpSeqLt s.seqno t.seqno ∧ TcpSeqLeq s.dataEnd t.seqno ∧ s.flags.fin = false
  ahead : ∀ s ∈ pcb.ooseq, TcpSeqGt s.seqno pcb.rcvNxt
  len : ∀ s ∈ pcb.ooseq, s.len = pbufTotLen s.p

/-- A segment goes to `tcp_receive`, with the blocks of its SACK option, or something else is done that
leaves the queue alone. -/
inductive RecvAct where
  | segment (env : Env) (cc : CcAlgo) (pkt : InPkt) (sack : List TcpSackBlock)
  | between (a : Act)

def Conn.recvStep (c : Conn) : RecvAct → Conn
  | .segment env cc pkt sack =>
    if c.fault then c else (tcpReceive env cc { pkt.inData with sack := sack } c).1
  | .between a => c.step a

/-- `tcp_process` keeps a SYN from `tcp_receive`. -/
def RecvAct.Comes : RecvAct → Prop
  | .segment _ _ pkt _ => pkt.Whole ∧ pkt.hdr.flags.syn = false
  | .between a => a.isQuiet = true

/-- The segment lies within half the number space of `rcv_nxt` and is not made longer at the tail. -/
def RecvAct.Fits (c : Conn) : RecvAct → Prop
  | .segment _ _ pkt _ =>
    (-2 ^ 31 < (pkt.hdr.seqno - c.pcb.rcvNxt).toInt ∧
      (pkt.hdr.seqno - c.pcb.rcvNxt).toInt + pbufLen pkt.p + 1 < 2 ^ 31) ∧ TailOk c.pcb pkt.inData
  | .between _ => True

section Run

variable {base : U32} {off : Nat} {l : List (Piece U8)} {pcb : Pcb} {c : Conn}

theorem pairwise_of_ordered {segs : List TcpSeg} {lo : Nat} (hl : List.Forall₂ (SegAt base) l segs)
    (ho : Ordered lo l) (hn : ∀ q ∈ l, Near off q) :
    segs.Pairwise fun s t =>
      TcpSeqLt s.seqno t.seqno ∧ TcpSeqLeq s.dataEnd t.seqno ∧ s.flags.fin = false := by
  induction hl generalizing lo with
  | nil => exact .nil
  | @cons p s l segs hs hl ih =>
    obtain ⟨-, hlast, ho'⟩ := ho
    refine List.pairwise_cons.mpr ⟨fun t ht => ?_, ih ho' fun q hq => hn q (List.mem_cons_of_mem _ hq)⟩
    obtain ⟨q, hq, hqt⟩ := forall₂_mem hl ht
    have hnp := hn p List.mem_cons_self
    have hnq := hn q (List.mem_cons_of_mem _ hq)
    have hle := ho'.le_pos q hq
    have hps : p.pos ≤ p.stop := Nat.le_add_right _ _
    have hqs : q.pos ≤ q.stop := Nat.le_add_right _ _
    obtain ⟨h1, h2⟩ := hnp
    obtain ⟨h3, h4⟩ := hnq
    rw [hs.toSpanAt.dataEnd, hs.seqno, hqt.seqno, hs.fin]
    refine ⟨(seqAt_lt (by omega) (by omega)).mpr (by omega),
      (seqAt_le (by omega) (by omega)).mpr (by omega), ?_⟩
    by_contra hp
    rw [hlast (by simpa using hp)] at hq
    cases hq

theorem RcvAt.inOrder (h : RcvAt base off l pcb) : OoseqInOrder pcb where
  order := pairwise_of_ordered h.ooseq h.ordered h.near
  ahead := by
    intro s hs
    obtain ⟨q, hq, hqs⟩ := forall₂_mem h.ooseq hs
    have hle := h.ordered.le_pos q hq
    obtain ⟨-, hn⟩ := h.near q hq
    have hst : q.pos ≤ q.stop := Nat.le_add_right _ _
    rw [hqs.seqno, h.rcvNxt]
    exact (seqAt_gt (by omega) (by omega)).mpr (by omega)
  len := by
    intro s hs
    obtain ⟨q, -, hqs⟩ := forall₂_mem h.ooseq hs
    rw [hqs.len, hqs.chain.totLen, ← length_pbufBytes, hqs.bytes]

theorem RcvAt.receive (h : RcvAt base off l c.pcb) (hoff : 2 ^ 31 ≤ off) (env : Env) (cc : CcAlgo)
    {pkt : InPkt} {sack : List TcpSackBlock} (hc : RecvAct.Comes (.segment env cc pkt sack))
    (hok : RecvAct.Fits c (.segment env cc pkt sack)) :
    ∃ off' l', 2 ^ 31 ≤ off' ∧
      RcvAt base off' l' (tcpReceive env cc { pkt.inData with sack := sack } c).1.pcb := by
  obtain ⟨hwhole, hsyn⟩ := hc
  obtain ⟨⟨hd1, hd2⟩, htail⟩ := hok
  have hack := tcpReceiveAck_ackStep env cc { pkt.inData with sack := sack } c
  show ∃ off' l', _ ∧ RcvAt base off' l'
    (tcpReceiveData env _ (tcpReceiveAck env cc { pkt.inData with sack := sack } c)).1.pcb
  generalize tcpReceiveAck env cc { pkt.inData with sack := sack } c = c1 at hack ⊢
  have h1 : RcvAt base off l c1.pcb := h.of_core hack.core
  obtain ⟨o, hseq, ho⟩ := @exists_seqAt off base hoff pkt.hdr.seqno
  rw [← h.rcvNxt] at ho
  obtain ⟨hin, hholds⟩ := hwhole.inAt hseq hsyn sack
  have hstop : (⟨o, pbufBytes pkt.p, pkt.hdr.flags.fin⟩ : Piece U8).stop = o + pbufLen pkt.p := by
    rw [Piece.stop, length_pbufBytes]
  rcases tcpReceiveData_refines env h1 hin (show off < o + 2 ^ 31 by omega) (by rw [hstop]; omega) with
    ⟨hq, -⟩ | ⟨hp, -, q, heq, hdr⟩ | ⟨hp, -, heq⟩
  · exact ⟨off, l, hoff, h1.of_core hq.core⟩
  · rw [heq]
    have hnear := (Near.frontDrop hp (by rw [hstop]; omega)).fitWnd c1.pcb.rcvWnd.toNat
    exact ⟨_, _, hoff.trans (Reassembly.le_advance _ _), (h1.drained (fitWnd_pos _ _) hnear hdr).sackCleanup⟩
  · rw [heq]
    rcases receiveOos_quiet env { pkt.inData with sack := sack } c1 with hq | hq
    · exact ⟨off, l, hoff, h1.of_core hq.core⟩
    · obtain ⟨l', -, hat⟩ := oosInsert_refines env h1 hin hholds hp (by rw [hstop]; omega)
        (htail.of_core hack.core (congrArg RcvVars.rcvWnd hack.rcv))
      exact ⟨off, l', hoff, hat.setSackBlocks.of_core hq.core⟩

theorem RcvAt.recvStep {a : RecvAct} (h : RcvAt base off l c.pcb) (hoff : 2 ^ 31 ≤ off)
    (hc : a.Comes) (hok : a.Fits c) :
    ∃ off' l', 2 ^ 31 ≤ off' ∧ RcvAt base off' l' (c.recvStep a).pcb := by
  by_cases hf : c.fault = true
  · have hsame : c.recvStep a = c := by
      cases a with
      | segment env cc pkt sack => exact if_pos hf
      | between a => exact Conn.step_fault a hf
    rw [hsame]
    exact ⟨off, l, hoff, h⟩
  · cases a with
    | segment env cc pkt sack =>
      rw [Conn.recvStep, if_neg hf]
      exact h.receive hoff env cc hc hok
    | between a =>
      have hf : c.fault = false := by simpa using hf
      show ∃ off' l', _ ∧ RcvAt base off' l' (c.step a).pcb
      rw [Conn.step_eq a hf]
      exact ⟨off, l, hoff, h.of_core (act_quiet hf hc).core⟩

end Run

/-- **The out-of-sequence queue stays in order**, in every run from an empty one in which the segments
fit. -/
theorem ooseq_in_order {c₀ c : Conn} (hoos : c₀.pcb.ooseq = [])
    (h : Reach Conn.recvStep (fun c a => a.Comes ∧ a.Fits c) c₀ c) : OoseqInOrder c.pcb := by
  have hinv : ∃ off l, 2 ^ 31 ≤ off ∧ RcvAt (c₀.pcb.rcvNxt - u32 (2 ^ 31)) off l c.pcb := by
    refine h.inv (I := fun c => ∃ off l, 2 ^ 31 ≤ off ∧ RcvAt _ off l c.pcb) ?_ ?_
    · refine ⟨2 ^ 31, [], le_rfl, ⟨(BitVec.sub_add_cancel _ _).symm, ?_, by simp, trivial⟩⟩
      rw [hoos]
      exact .nil
    · rintro c a ⟨off, l, hoff, hat⟩ ⟨hc, hok⟩
      exact hat.recvStep hoff hc hok
  obtain ⟨off, l, -, hat⟩ := hinv
  exact hat.inOrder

def takes (o : Nat) : RecvAct := .segment {} lwipCcAlgo (segment 0xFFFFFF9C counting o 10) []

theorem takes_comes (o : Nat) : (takes o).Comes := by
  have h := segment_carries 0xFFFFFF9C counting o (show 10 < 65535 by decide)
  exact ⟨h.toWhole, h.syn⟩

/-- A segment comes before one that is queued, and then one that overlaps both. -/
theorem ooseq_in_order_overlap :
    let c := ((wrapStart.conn.recvStep (takes 25)).recvStep (takes 10)).recvStep (takes 18)
    c.pcb.ooseq.map (·.len) = [8, 7, 10] ∧ OoseqInOrder c.pcb := by
  have hstart : Reach Conn.recvStep (fun c a => a.Comes ∧ a.Fits c) wrapStart.conn wrapStart.conn :=
    .start
  have h1 := hstart.next (takes 25) ⟨takes_comes 25, by decide +kernel, by decide +kernel⟩
  have h2 := h1.next (takes 10) ⟨takes_comes 10, by decide +kernel, by decide +kernel⟩
  have h3 := h2.next (takes 18) ⟨takes_comes 18, by decide +kernel, by decide +kernel⟩
  exact ⟨by decide +kernel, ooseq_in_order rfl h3⟩

/-- **A queued segment is longer than its pbuf.** The second segment is appended at the tail and cut to
the 492 bytes up to the wrapped edge of the window; its pbuf has ten. -/
theorem wrappedTail_len :
    let c := (wrapStart.conn.recvStep (takes 10)).recvStep (takes 20)
    Reach Conn.recvStep (fun _ a => a.Comes) wrapStart.conn c ∧
      c.pcb.ooseq.map (fun s => (s.len, pbufTotLen s.p)) = [(10, 10), (492, 10)] := by
  refine ⟨.next (.next .start _ ?_) _ ?_, by decide +kernel⟩
  · exact takes_comes 10
  · exact takes_comes 20

end LibvmaTlt.Lwip
