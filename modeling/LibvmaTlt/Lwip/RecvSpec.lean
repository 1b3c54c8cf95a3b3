import LibvmaTlt.Lwip.Ooseq
import LibvmaTlt.Lwip.WriteSpec
import LibvmaTlt.Lwip.Run

/-!
# What the receiver holds

`RcvCore` is what the receiver has taken, queued and reported. Only a segment with text and the slow
timer change it: everything else is `Quiet`. `tcpReceiveData_refines` says what a segment does to it.
-/

namespace LibvmaTlt.Lwip

open Reassembly (Piece Ordered)

/-- What the receiver has taken, what it has queued, and what it reports. -/
structure RcvCore where
  rcvNxt : U32
  ooseq : List TcpSeg
  sackPermitted : Bool
  rcvSackBlock : List TcpSackBlock

def Pcb.rcvCore (pcb : Pcb) : RcvCore :=
  ⟨pcb.rcvNxt, pcb.ooseq, pcb.sackPermitted, pcb.rcvSackBlock⟩

theorem rcvCore_of_rcv {p p' : Pcb} (h : p'.toRcvVars = p.toRcvVars) : p'.rcvCore = p.rcvCore := by
  unfold Pcb.rcvCore
  rw [h]

/-- The receiver holds what it held, and the packets sent were sent from there. -/
structure Quiet (c c' : Conn) : Prop where
  core : c'.pcb.rcvCore = c.pcb.rcvCore
  rxclosed : c'.pcb.flags.rxclosed = c.pcb.flags.rxclosed
  sent : ∀ s ∈ c'.sent, s ∈ c.sent ∨ s.pcb.rcvCore = c.pcb.rcvCore

variable (env : Env) (force : Bool) (n : Nat) (d : InData) (c : Conn)

namespace Quiet

theorem refl : Quiet c c := ⟨rfl, rfl, fun _ => .inl⟩

theorem trans {c c' c'' : Conn} (h : Quiet c c') (h' : Quiet c' c'') : Quiet c c'' where
  core := h'.core.trans h.core
  rxclosed := h'.rxclosed.trans h.rxclosed
  sent s hs := by
    rcases h'.sent s hs with hs | hs
    · exact h.sent s hs
    · exact .inr (hs.trans h.core)

theorem setPcb (p : Pcb) (h : p.rcvCore = c.pcb.rcvCore) (hx : p.flags.rxclosed = c.pcb.flags.rxclosed)
    : Quiet c { c with pcb := p } :=
  ⟨h, hx, fun _ => .inl⟩

theorem of_core {c c' : Conn} (h : c'.pcb.rcvCore = c.pcb.rcvCore)
    (hx : c'.pcb.flags.rxclosed = c.pcb.flags.rxclosed) (hs : c'.sent = c.sent) : Quiet c c' :=
  ⟨h, hx, fun s => by rw [hs]; exact .inl⟩

theorem of_snd {c c' : Conn} (h : SndStep c.pcb c'.pcb) (hs : c'.sent = c.sent) : Quiet c c' :=
  of_core (rcvCore_of_rcv h.rcv) h.rxclosed hs

theorem send {c c' : Conn} {x : Sent} (h : c'.pcb.rcvCore = c.pcb.rcvCore)
    (hr : c'.pcb.flags.rxclosed = c.pcb.flags.rxclosed) (hs : c'.sent = c.sent ++ [x])
    (hx : x.pcb.rcvCore = c.pcb.rcvCore) : Quiet c c' := by
  refine ⟨h, hr, fun s hm => ?_⟩
  rw [hs] at hm
  rcases List.mem_append.mp hm with hm | hm
  · exact .inl hm
  · rw [List.mem_singleton.mp hm]
    exact .inr hx

end Quiet

/-! ## Quiet steps -/

theorem tcpSendEmptyAck_quiet : Quiet c (tcpSendEmptyAck env n c) := by
  unfold tcpSendEmptyAck
  split
  · exact .send rfl rfl rfl rfl
  · exact .refl c

theorem tcpKeepalive_quiet : Quiet c (tcpKeepalive env n c) := by
  unfold tcpKeepalive
  split
  · exact .send rfl rfl rfl rfl
  · exact .refl c

/-- A quiet step of the acknowledgement half: the receiver's variables stay as they are. -/
structure AckStep (c c' : Conn) : Prop extends Quiet c c' where
  rcv : c'.pcb.toRcvVars = c.pcb.toRcvVars
  state : c'.pcb.state = c.pcb.state
  fault : c'.fault = c.fault

theorem AckStep.trans {c c' c'' : Conn} (h : AckStep c c') (h' : AckStep c' c'') : AckStep c c'' :=
  ⟨h.toQuiet.trans h'.toQuiet, h'.rcv.trans h.rcv, h'.state.trans h.state, h'.fault.trans h.fault⟩

theorem AckStep.of_snd {c c' : Conn} (h : SndStep c.pcb c'.pcb) (hs : c'.sent = c.sent)
    (hf : c'.fault = c.fault) : AckStep c c' :=
  ⟨.of_snd h hs, h.rcv, h.state, hf⟩

theorem tcpSendEmptyAck_ackStep : AckStep c (tcpSendEmptyAck env n c) := by
  refine ⟨tcpSendEmptyAck_quiet env n c, ?_, ?_, ?_⟩ <;> unfold tcpSendEmptyAck <;> split <;> rfl

theorem tcpReceiveAck_ackStep (cc : CcAlgo) (d : InData) (c : Conn) :
    AckStep c (tcpReceiveAck env cc d c) :=
  AckRel.tcpReceiveAck ⟨.trans, .of_snd, tcpSendEmptyAck_ackStep env⟩ cc d c

theorem beforeSend_quiet (seg : TcpSeg) (rest : List TcpSeg) :
    Quiet c (beforeSend env force n c seg rest).1 := by
  have h1 : Quiet c (ackBeforeDummy env n seg
      { c with pcb := c.pcb.takeHead rest (nextSmlSnt force c.pcb seg rest) }) := by
    unfold ackBeforeDummy
    have h0 := Quiet.setPcb c (c.pcb.takeHead rest (nextSmlSnt force c.pcb seg rest)) rfl rfl
    split
    · exact h0.trans (tcpSendEmptyAck_quiet env (n + 1) _)
    · exact h0
  unfold beforeSend
  simp only
  split
  · exact h1
  · exact h1.trans (.of_core rfl rfl rfl)

theorem sendHead_quiet (seg : TcpSeg) (rest : List TcpSeg) :
    Quiet c (sendHead env force n c seg rest) := by
  have h1 := beforeSend_quiet env force n c seg rest
  unfold sendHead
  generalize beforeSend env force n c seg rest = r at h1 ⊢
  simp only
  split
  · exact h1.trans (.send rfl rfl rfl h1.core.symm)
  · rename_i p hp
    obtain ⟨q, rfl, -⟩ := afterSend_eq hp
    exact h1.trans (.send rfl rfl rfl h1.core.symm)

theorem splitHead_quiet (wnd : U32) (n : Nat) (c : Conn) :
    Quiet c { c with pcb := splitHead env force wnd n c.pcb } := by
  rcases splitHead_unsent env force wnd n c.pcb with he | ⟨seg, rest, s, -, -, -, -, -, -, he⟩
  · rw [he]
    exact .refl c
  · rw [he]
    exact .of_core rfl rfl rfl

theorem forceTransmit_core (pcb : Pcb) :
    (forceTransmit env pcb).1.rcvCore = pcb.rcvCore ∧
      (forceTransmit env pcb).1.flags = pcb.flags := by
  rcases forceTransmit_cases env pcb with he | ⟨k, -, he⟩ | ⟨seq, target, -, -, -, -, -, he⟩ <;>
    rw [he] <;> exact ⟨rfl, rfl⟩

theorem tcpOutput_quiet (hf : c.fault = false) : Quiet c (tcpOutput env c) := by
  unfold tcpOutput
  split
  · exact tcpSendEmptyAck_quiet env 0 c
  simp only
  have h1 := @outputLoop_inv (forceTransmit env c.pcb).2 env c.pcb.wnd (Quiet c)
    (fun n c' h => h.trans (splitHead_quiet ..))
    (fun n c' seg rest h _ _ _ _ => h.trans (sendHead_quiet ..))
    (outputFuel (forceTransmit env c.pcb).1.unsent) 0
    { c with pcb := (forceTransmit env c.pcb).1 } hf
    (.setPcb c _ (forceTransmit_core env c.pcb).1 (by rw [(forceTransmit_core env c.pcb).2]))
  exact h1.trans (.of_core rfl rfl rfl)

theorem write_quiet (data : List U8) (isDummy : Bool) (c : Conn) :
    Quiet c (c.write env data isDummy) := by
  unfold Conn.write
  split
  · exact .of_core rfl rfl rfl
  · rename_i r hr
    obtain ⟨p, e⟩ := r
    exact .of_core (rcvCore_of_rcv (tcpWrite_frame hr).rcv) (tcpWrite_frame hr).rxclosed rfl

theorem tcpRecved_quiet (len : U32) (c : Conn) : Quiet c { c with pcb := (tcpRecved c.pcb len).1 } := by
  unfold tcpRecved
  simp only
  split <;> exact .of_core rfl rfl rfl

theorem tcpRexmitRtoRequeue_quiet : Quiet c { c with pcb := tcpRexmitRtoRequeue c.pcb } := by
  unfold tcpRexmitRtoRequeue
  split <;> exact .of_core rfl rfl rfl

theorem slowTimers_quiet : Quiet c (slowTimers env c) := by
  unfold slowTimers
  split
  · split
    · exact (Quiet.setPcb c c.pcb.persistNext rfl rfl).trans (tcpKeepalive_quiet env 0 _)
    · exact .of_core rfl rfl rfl
  · exact .of_core rfl rfl rfl

theorem slowKeepalive_quiet : Quiet c (slowKeepalive env c) := by
  unfold slowKeepalive
  split
  · exact Quiet.trans (tcpKeepalive_quiet env 1 c) (.of_core rfl rfl rfl)
  · exact .refl c

/-- The action takes no text, closes nothing and drops nothing. -/
def Act.isQuiet : Act → Bool
  | .input .. | .close .. | .shutdown .. | .slowChecks .. => false
  | _ => true

theorem act_quiet {c : Conn} {a : Act} (hf : c.fault = false) (ha : a.isQuiet = true) :
    Quiet c (c.act a) := by
  cases a with
  | write env data isDummy => exact write_quiet env data isDummy c
  | output env => exact tcpOutput_quiet env c hf
  | recved len => exact tcpRecved_quiet len c
  | rexmit => exact .of_snd (tcpRexmit_snd c.pcb) rfl
  | rexmitRto => exact tcpRexmitRtoRequeue_quiet c
  | rexmitFast cc => exact .of_snd (tcpRexmitFast_snd cc c.pcb) rfl
  | slowTimers env => exact slowTimers_quiet env c
  | slowRto cc => exact .of_core rfl rfl rfl
  | input | close | shutdown | slowChecks => cases ha

/-! ## A segment with text -/

/-- The receiver stands at position `off` and holds the pieces `l`. -/
structure RcvAt (base : U32) (off : Nat) (l : List (Piece U8)) (pcb : Pcb) : Prop where
  rcvNxt : pcb.rcvNxt = seqAt base off
  ooseq : List.Forall₂ (SegAt base) l pcb.ooseq
  near : ∀ q ∈ l, Near off q
  ordered : Ordered (off + 1) l

namespace RcvAt

variable {base : U32} {off : Nat} {l : List (Piece U8)} {pcb : Pcb}

theorem of_core {p' : Pcb} (h : RcvAt base off l pcb) (hc : p'.rcvCore = pcb.rcvCore) :
    RcvAt base off l p' := by
  have h1 : p'.rcvNxt = pcb.rcvNxt := congrArg RcvCore.rcvNxt hc
  have h2 : p'.ooseq = pcb.ooseq := congrArg RcvCore.ooseq hc
  exact ⟨by rw [h1]; exact h.rcvNxt, by rw [h2]; exact h.ooseq, h.near, h.ordered⟩

theorem setSackBlocks (h : RcvAt base off l pcb) {b : List TcpSackBlock} :
    RcvAt base off l (pcb.setSackBlocks b) :=
  ⟨h.rcvNxt, h.ooseq, h.near, h.ordered⟩

theorem sackCleanup (h : RcvAt base off l pcb) : RcvAt base off l (tcpAckNow (sackCleanup pcb)) := by
  unfold Lwip.sackCleanup
  split <;> exact ⟨h.rcvNxt, h.ooseq, h.near, h.ordered⟩

end RcvAt

structure InAt (base : U32) (p : Piece U8) (d : InData) : Prop where
  span : SpanAt base p d.inseg
  seqno : d.seqno = d.inseg.seqno
  tcplen : d.tcplen = p.seqLen

/-- The payload is a chain in order that fits an IP packet. -/
structure InPkt.Whole (pkt : InPkt) : Prop where
  chain : Consistent pkt.p
  small : pbufLen pkt.p < 65535

theorem InPkt.Whole.inAt {base : U32} {pkt : InPkt} {o : Nat} (h : pkt.Whole)
    (hseq : pkt.hdr.seqno = seqAt base o) (hsyn : pkt.hdr.flags.syn = false)
    (sack : List TcpSackBlock) :
    InAt base ⟨o, pbufBytes pkt.p, pkt.hdr.flags.fin⟩ { pkt.inData with sack := sack } ∧
      Holds ⟨o, pbufBytes pkt.p, pkt.hdr.flags.fin⟩ pkt.inData.inseg := by
  have hlen : (pbufBytes pkt.p).length = pbufLen pkt.p := length_pbufBytes _
  have hsmall := h.small
  have htot : pbufTotLen pkt.p = pbufLen pkt.p := h.chain.totLen
  have hu : u16 (pbufTotLen pkt.p) = pbufLen pkt.p := by
    rw [htot, u16, Nat.mod_eq_of_lt (by omega)]
  refine ⟨⟨⟨hseq, hu.trans hlen.symm, hlen.trans_lt hsmall, rfl, hsyn⟩, rfl, ?_⟩, h.chain, rfl⟩
  show u16 (pbufTotLen pkt.p + if pkt.hdr.flags.fin || pkt.hdr.flags.syn then 1 else 0) =
    (pbufBytes pkt.p).length + if pkt.hdr.flags.fin then 1 else 0
  rw [hsyn, htot, hlen, Bool.or_false]
  unfold u16
  split <;> omega

def frontDrop (off : Nat) (p : Piece U8) : Piece U8 :=
  { p with pos := off, data := p.data.drop (off - p.pos) }

theorem frontDrop_self (p : Piece U8) : frontDrop p.pos p = p := by
  simp [frontDrop]

section Data

variable {base : U32} {off : Nat} {p : Piece U8} {l : List (Piece U8)} {d : InData}

theorem stop_le_seqLen (p : Piece U8) : p.stop ≤ p.pos + p.seqLen ∧ p.pos + p.seqLen ≤ p.stop + 1 := by
  unfold Piece.stop Piece.seqLen
  split <;> omega

theorem Near.frontDrop (h1 : p.pos ≤ off) (h2 : p.stop + 1 < off + 2 ^ 31) :
    Near off (frontDrop off p) := by
  refine ⟨le_refl off, ?_⟩
  show off + (p.data.drop (off - p.pos)).length + 1 < off + 2 ^ 31
  rw [List.length_drop]
  unfold Piece.stop at *
  omega

theorem trimFirstEdge_refines (hd : InAt base p d) (h1 : p.pos < off) (h2 : off < p.pos + p.seqLen) :
    SpanAt base (frontDrop off p) (trimFirstEdge (seqAt base off) d).inseg ∧
      (Holds p d.inseg ∧ TrimOk (off - p.pos) d.inseg.p →
        Holds (frontDrop off p) (trimFirstEdge (seqAt base off) d).inseg) := by
  obtain ⟨hs, hseq, -⟩ := hd
  have hsmall := hs.small
  have hst := stop_le_seqLen p
  have hle : off - p.pos ≤ p.data.length := by
    unfold Piece.stop at hst
    omega
  have hoff : (seqAt base off - d.seqno).toNat = off - p.pos := by
    rw [hseq, hs.seqno]
    exact seqAt_sub_toNat h1.le (by omega)
  constructor
  · refine ⟨rfl, ?_, ?_, hs.fin, hs.syn⟩
    · show u16 (d.inseg.len + 65536 - u16 (seqAt base off - d.seqno).toNat) = _
      rw [hoff, hs.len, frontDrop, List.length_drop]
      unfold u16
      omega
    · rw [frontDrop, List.length_drop]
      omega
  · rintro ⟨hh, htrim⟩
    have hlen : pbufLen d.inseg.p = p.data.length := by rw [← length_pbufBytes, hh.bytes]
    rw [← hoff] at htrim hle
    have hp : ∀ q ∈ d.inseg.p, q.len ≤ 65535 := fun q hq =>
      (List.single_le_sum (by simp) _ (List.mem_map_of_mem hq)).trans (by rw [← pbufLen]; omega)
    obtain ⟨hb, hc⟩ := (trimFront_iff hh.chain hp (by omega) (by omega)).mpr
      ⟨htrim, fun _ _ _ => by omega⟩
    exact ⟨hc, by rw [trimFirstEdge, hb, hh.bytes, hoff]; rfl⟩

theorem needsTrim_iff (hd : InAt base p d) (h0 : 0 < d.tcplen) (hf1 : off < p.pos + 2 ^ 31)
    (hf2 : p.stop + 1 < off + 2 ^ 31) :
    needsTrim (seqAt base off) d ↔ p.pos < off ∧ off < p.pos + p.seqLen := by
  obtain ⟨hs, hseq, htc⟩ := hd
  have hst := stop_le_seqLen p
  have hsmall := hs.small
  obtain ⟨k, hk⟩ : ∃ k, p.seqLen = k + 1 := ⟨p.seqLen - 1, by omega⟩
  have hone : d.seqno + 1 = seqAt base (p.pos + 1) := by
    rw [hseq, hs.seqno]
    exact seqAt_add base p.pos 1
  have hend : d.seqno + u32 d.tcplen - 1 = seqAt base (p.pos + k) := by
    rw [hseq, hs.seqno, htc, hk, seqAt_add]
    exact seqAt_pred base (p.pos + k)
  have hps : p.stop = p.pos + p.data.length := rfl
  unfold needsTrim
  rw [hone, hend]
  show TcpSeqGeq _ _ ∧ TcpSeqLeq _ _ ↔ _
  rw [seqAt_ge (by omega) (by omega), seqAt_le (by omega) (by omega)]
  omega

theorem tcpReceiveData_cases (d : InData) (c : Conn) :
    (Quiet c (tcpReceiveData env d c).1 ∧ (tcpReceiveData env d c).2.recvData = d.recvData ∧
      (tcpReceiveData env d c).2.gotFin = d.gotFin ∧ (tcpReceiveData env d c).2.reset = d.reset ∧
      (tcpReceiveData env d c).2.closed = d.closed) ∨
    (0 < d.tcplen ∧ ∃ d', (needsTrim c.pcb.rcvNxt d ∧ d' = trimFirstEdge c.pcb.rcvNxt d ∨
        ¬needsTrim c.pcb.rcvNxt d ∧ c.pcb.rcvNxt = d.seqno ∧ d' = d) ∧
      tcpReceiveData env d c =
        ({ c with pcb := (receiveInseq c.pcb d').1 }, (receiveInseq c.pcb d').2)) ∨
    (0 < d.tcplen ∧ c.pcb.rcvNxt ≠ d.seqno ∧
      TcpSeqBetween d.seqno c.pcb.rcvNxt (c.pcb.rcvNxt + c.pcb.rcvWnd - 1) ∧
      tcpReceiveData env d c = (receiveOos env d c, d)) := by
  generalize hr : tcpReceiveData env d c = r
  unfold tcpReceiveData at hr
  split at hr
  · rename_i h0
    by_cases hn : needsTrim c.pcb.rcvNxt d
    · simp only [if_pos hn, decide_eq_true hn, Bool.not_true, Bool.false_and, Bool.false_eq_true,
        if_false] at hr
      have hseq : (trimFirstEdge c.pcb.rcvNxt d).seqno = c.pcb.rcvNxt := rfl
      rw [hseq, if_pos rfl] at hr
      split at hr
      · exact .inr (.inl ⟨h0.1, _, .inl ⟨hn, rfl⟩, hr.symm⟩)
      · subst hr
        exact .inl ⟨tcpSendEmptyAck_quiet env 1 c, rfl, rfl, rfl, rfl⟩
    · by_cases hlate : TcpSeqLt d.seqno c.pcb.rcvNxt
      · -- a duplicate is in front of the window, so it is only acknowledged
        have hout : ¬TcpSeqBetween d.seqno (tcpAckNow c.pcb).rcvNxt
            ((tcpAckNow c.pcb).rcvNxt + (tcpAckNow c.pcb).rcvWnd - 1) :=
          fun h => absurd h.1 (Int.not_le.mpr hlate)
        simp only [if_neg hn, decide_eq_false hn, decide_eq_true hlate, Bool.not_false, Bool.and_self,
          if_true] at hr
        rw [if_neg hout] at hr
        subst hr
        exact .inl ⟨(Quiet.setPcb c (tcpAckNow c.pcb) rfl rfl).trans
          (tcpSendEmptyAck_quiet env 1 _), rfl, rfl, rfl, rfl⟩
      · simp only [if_neg hn, decide_eq_false hn, decide_eq_false hlate, Bool.and_false,
          Bool.false_eq_true, if_false] at hr
        split at hr
        · rename_i hb
          split at hr
          · rename_i heq
            exact .inr (.inl ⟨h0.1, d, .inr ⟨hn, heq, rfl⟩, hr.symm⟩)
          · rename_i hne
            exact .inr (.inr ⟨h0.1, hne, hb, hr.symm⟩)
        · subst hr
          exact .inl ⟨tcpSendEmptyAck_quiet env 1 c, rfl, rfl, rfl, rfl⟩
  · subst hr
    exact .inl ⟨.refl c, rfl, rfl, rfl, rfl⟩

/-- **What a segment with text does to the receiver.** It is quiet, or it is next in sequence once its
front is trimmed, or it goes to the out-of-sequence queue. -/
theorem tcpReceiveData_refines {c : Conn} (hr : RcvAt base off l c.pcb) (hd : InAt base p d)
    (hf1 : off < p.pos + 2 ^ 31) (hf2 : p.stop + 1 < off + 2 ^ 31) :
    (Quiet c (tcpReceiveData env d c).1 ∧ (tcpReceiveData env d c).2.recvData = d.recvData ∧
      (tcpReceiveData env d c).2.gotFin = d.gotFin) ∨
    (p.pos ≤ off ∧ off < p.pos + p.seqLen ∧ ∃ q : Pcb × InData,
      tcpReceiveData env d c = ({ c with pcb := tcpAckNow (sackCleanup q.1) }, q.2) ∧
      Drained (SegAt base) base off
        (Reassembly.insertAt (fitWnd c.pcb.rcvWnd.toNat (frontDrop off p)) l)
        (Holds p d.inseg ∧ TrimOk (off - p.pos) d.inseg.p) c.pcb [] false q) ∨
    (off < p.pos ∧ TcpSeqBetween d.seqno c.pcb.rcvNxt (c.pcb.rcvNxt + c.pcb.rcvWnd - 1) ∧
      tcpReceiveData env d c = (receiveOos env d c, d)) := by
  have hseq : d.seqno = seqAt base p.pos := hd.seqno.trans hd.span.seqno
  have hps : p.pos ≤ p.stop := Nat.le_add_right _ _
  rcases tcpReceiveData_cases env d c with ⟨h1, h2, h3, -⟩ | ⟨h0, d', hd', heq⟩ | ⟨h0, hne, hb, heq⟩
  · exact .inl ⟨h1, h2, h3⟩
  · refine .inr (.inl ?_)
    have hneed := needsTrim_iff hd h0 hf1 hf2
    rw [← hr.rcvNxt] at hneed
    rcases hd' with ⟨hn, rfl⟩ | ⟨-, hpos, rfl⟩
    · obtain ⟨h1, h2⟩ := hneed.mp hn
      rw [hr.rcvNxt] at heq
      obtain ⟨ht1, ht2⟩ := trimFirstEdge_refines hd h1 h2
      obtain ⟨q, hq, hdr⟩ := receiveInseq_refines (queueRel_segAt base) hr.rcvNxt ht1 rfl
        (Near.frontDrop h1.le hf2) hr.ooseq hr.near hr.ordered
      rw [hq] at heq
      exact ⟨h1.le, h2, q, heq, { hdr with
        bytes := fun h => hdr.bytes ⟨ht2 h, fun _ _ => id⟩
        chunks := fun h => hdr.chunks ⟨ht2 h, fun _ _ => id⟩ }⟩
    · have hpos : off = p.pos := by
        rw [hr.rcvNxt, hseq] at hpos
        exact (seqAt_inj (by omega) (by omega)).mp hpos
      subst hpos
      obtain ⟨q, hq, hdr⟩ := receiveInseq_refines (queueRel_segAt base) hr.rcvNxt hd.span rfl
        ⟨le_refl _, hf2⟩ hr.ooseq hr.near hr.ordered
      rw [hq] at heq
      rw [frontDrop_self]
      exact ⟨le_refl _, by have := hd.tcplen; omega, q, heq, { hdr with
        bytes := fun h => hdr.bytes ⟨h.1, fun _ _ => id⟩
        chunks := fun h => hdr.chunks ⟨h.1, fun _ _ => id⟩ }⟩
  · refine .inr (.inr ⟨?_, hb, heq⟩)
    have hge : off ≤ p.pos := by
      have hge := hb.1
      rw [hseq, hr.rcvNxt] at hge
      exact (seqAt_ge (by omega) (by omega)).mp hge
    have hne : off ≠ p.pos := by
      rintro rfl
      exact hne (hr.rcvNxt.trans hseq.symm)
    omega

end Data

/-! ## The receiver after a segment -/

/-- The cut to the receive window does not make a segment at the tail of the out-of-sequence queue
longer. The code compares the right edges as plain numbers and cuts the length to 16 bits, so this can
fail when an edge has wrapped. -/
def TailOk (pcb : Pcb) (d : InData) : Prop :=
  ∀ t ∈ pcb.ooseq.getLast?, TcpSeqGt d.seqno t.seqno → t.flags.fin = false →
    u32 d.tcplen + d.seqno > pcb.rcvNxt + pcb.rcvWnd →
    u16 (pcb.rcvNxt + pcb.rcvWnd - d.seqno).toNat ≤ d.inseg.len

instance (pcb : Pcb) (d : InData) : Decidable (TailOk pcb d) := by
  unfold TailOk
  cases pcb.ooseq.getLast? with
  | none => exact .isTrue (by simp)
  | some t => exact decidable_of_iff (TcpSeqGt d.seqno t.seqno → t.flags.fin = false →
      u32 d.tcplen + d.seqno > pcb.rcvNxt + pcb.rcvWnd →
      u16 (pcb.rcvNxt + pcb.rcvWnd - d.seqno).toNat ≤ d.inseg.len) (by simp)

theorem TailOk.of_core {p p' : Pcb} {d : InData} {sack : List TcpSackBlock} (h : TailOk p d)
    (hc : p'.rcvCore = p.rcvCore) (hw : p'.rcvWnd = p.rcvWnd) : TailOk p' { d with sack := sack } := by
  have h1 : p'.rcvNxt = p.rcvNxt := congrArg RcvCore.rcvNxt hc
  have h2 : p'.ooseq = p.ooseq := congrArg RcvCore.ooseq hc
  unfold TailOk at *
  rw [h1, h2, hw]
  exact h

theorem receiveOos_quiet :
    Quiet c (receiveOos env d c) ∨
      Quiet { c with
        pcb := (oosInsert env d c.pcb).setSackBlocks (newSackBlocks (oosInsert env d c.pcb)) }
        (receiveOos env d c) := by
  unfold receiveOos
  simp only
  split
  · exact .inl (.of_core rfl rfl rfl)
  · exact .inr (tcpSendEmptyAck_quiet env 1 _)

section After

variable {base : U32} {off : Nat} {p : Piece U8} {l : List (Piece U8)} {d : InData}

/-- The pieces held once `p` was queued: none are added without memory. -/
def Queued (p : Piece U8) (l l' : List (Piece U8)) : Prop :=
  l' = l ∨ l' = [p] ∧ l = [] ∨
    ∃ tail, (tail = p ∨ ∃ n, tail = { p.cut n with last := false }) ∧ l' = Reassembly.place p tail l

theorem oosInsert_refines {pcb : Pcb} (hr : RcvAt base off l pcb) (hd : InAt base p d)
    (hh : Holds p d.inseg) (hpos : off < p.pos) (hf : p.stop + 1 < off + 2 ^ 31) (ht : TailOk pcb d) :
    ∃ l', Queued p l l' ∧ RcvAt base off l' (oosInsert env d pcb) := by
  unfold oosInsert
  split
  · have hs : SegAt base p { d.inseg with addr := pcb.nextSeg } :=
      ⟨⟨hd.span.seqno, hd.span.len, hd.span.small, hd.span.fin, hd.span.syn⟩, ⟨hh.chain, hh.bytes⟩⟩
    have hp : Near off p := ⟨hpos.le, hf⟩
    obtain ⟨hnxt, hseg, hnear, hord⟩ := hr
    by_cases hnil : pcb.ooseq = []
    · rw [hnil] at hseg
      cases hseg
      refine ⟨[p], .inr (.inl ⟨rfl, rfl⟩), ⟨hnxt, ?_, by simpa using hp, hpos, fun _ => rfl, trivial⟩⟩
      simp only [if_pos hnil]
      exact .cons hs .nil
    · have hne : l ≠ [] := by
        rintro rfl
        exact hnil (List.forall₂_nil_left_iff.mp hseg)
      have hq : tailPiece (pcb.rcvNxt + pcb.rcvWnd) d.tcplen { d.inseg with addr := pcb.nextSeg } p = p ∨
          ∃ n, tailPiece (pcb.rcvNxt + pcb.rcvWnd) d.tcplen { d.inseg with addr := pcb.nextSeg } p =
            { p.cut n with last := false } := by
        unfold tailPiece
        split
        · exact .inr ⟨_, rfl⟩
        · exact .inl rfl
      have hwalk := @oosWalk_refines base (SegAt base) off p { d.inseg with addr := pcb.nextSeg } l
        pcb.ooseq (pcb.rcvNxt + pcb.rcvWnd) d.tcplen
        (tailPiece (pcb.rcvNxt + pcb.rcvWnd) d.tcplen { d.inseg with addr := pcb.nextSeg } p) none none
        (queueRel_segAt base) hs ?_ hp hseg hnear (hord.mono (by omega)) hne .none (by simp)
      · refine ⟨_, .inr (.inr ⟨_, hq, rfl⟩), ⟨hnxt, ?_, ?_, ?_⟩⟩
        · simp only [if_neg hnil]
          exact hwalk
        · refine Reassembly.forall_place (fun q n => Near.cut n) hord
            (fun _ => ⟨hp, fun _ _ _ => hp.setLast⟩) (fun _ => ?_) hnear
          rcases hq with hq | ⟨n, hq⟩
          · rw [hq]
            exact hp
          · rw [hq]
            exact hp.cut n
        · exact hord.place hpos (by simp)
      · intro r hr hrp hrl
        obtain ⟨t, htm, hrt⟩ := forall₂_getLast hseg hr
        apply cutTail_refines hs
        intro hover
        have hgt : TcpSeqGt d.seqno t.seqno := by
          have h1 := (hnear r (List.mem_of_getLast? hr)).1
          have h2 : p.pos ≤ p.stop := Nat.le_add_right _ _
          rw [hd.seqno, hd.span.seqno, hrt.seqno]
          exact (seqAt_gt (by omega) (by omega)).mpr hrp
        have hover' : u32 d.tcplen + d.seqno > pcb.rcvNxt + pcb.rcvWnd := by
          rw [hd.seqno]
          exact hover
        have hle := ht t htm hgt (by rw [hrt.fin, hrl]) hover'
        rw [hd.seqno] at hle
        exact hle
  · exact ⟨l, .inl rfl, hr⟩

theorem RcvAt.drained {pcb : Pcb} {H : Prop} {q : Pcb × InData} (hr : RcvAt base off l pcb)
    (hpos : p.pos = off) (hp : Near off p)
    (hq : Drained (SegAt base) base off (Reassembly.insertAt p l) H pcb [] false q) :
    RcvAt base (Reassembly.advance off (Reassembly.popReady off (Reassembly.insertAt p l)).1)
      (Reassembly.popReady off (Reassembly.insertAt p l)).2 q.1 := by
  have hord : Ordered off (Reassembly.insertAt p l) := by
    apply (hr.ordered.mono (by omega)).insertAt hpos.ge
    intro r hm
    have := hr.ordered.le_pos r hm
    exact .inl (by omega)
  have hnear : ∀ r ∈ Reassembly.insertAt p l, Near off r := hp.insertAt hr.ordered hr.near
  refine ⟨hq.rcvNxt, hq.ooseq, fun r hm => ?_, hord.popReady⟩
  have hm' : r ∈ Reassembly.insertAt p l := by
    rw [← Reassembly.popReady_append off (Reassembly.insertAt p l)]
    exact List.mem_append_right _ hm
  have := hord.popReady.le_pos r hm
  exact (hnear r hm').mono (Reassembly.le_advance _ _) (by omega)

end After

/-! ## A segment arrives -/

theorem tcpReceiveData_rxclosed :
    (tcpReceiveData env d c).1.pcb.flags.rxclosed = c.pcb.flags.rxclosed := by
  have hrel : TextRel env fun c c' => c'.pcb.flags.rxclosed = c.pcb.flags.rxclosed :=
    ⟨fun _ => rfl, fun h h' => h'.trans h, fun h => h.rxclosed,
      fun n c => (tcpSendEmptyAck_quiet env n c).rxclosed, fun _ => rfl⟩
  exact hrel.tcpReceiveData d c

theorem dequeueLoop_reset (l : List TcpSeg) :
    ∀ pcb d, (dequeueLoop l pcb d).2.reset = d.reset ∧ (dequeueLoop l pcb d).2.closed = d.closed := by
  induction l with
  | nil =>
    intro pcb d
    exact ⟨rfl, rfl⟩
  | cons s rest ih =>
    intro pcb d
    rw [dequeueLoop]
    split
    · exact ih _ _
    · exact ⟨rfl, rfl⟩

theorem tcpReceiveData_reset :
    (tcpReceiveData env d c).2.reset = d.reset ∧ (tcpReceiveData env d c).2.closed = d.closed := by
  rcases tcpReceiveData_cases env d c with ⟨-, -, -, h1, h2⟩ | ⟨-, d', hd', heq⟩ | ⟨-, -, -, heq⟩
  · exact ⟨h1, h2⟩
  · have hsame : d'.reset = d.reset ∧ d'.closed = d.closed := by
      rcases hd' with ⟨-, rfl⟩ | ⟨-, -, rfl⟩ <;> exact ⟨rfl, rfl⟩
    rw [heq, ← hsame.1, ← hsame.2]
    exact dequeueLoop_reset _ _ _
  · rw [heq]
    exact ⟨rfl, rfl⟩

theorem afterReceive_open {state : TcpState} (hst : state = .established ∨ state = .closeWait)
    (d : InData) (c : Conn) :
    ∃ p : Pcb, afterReceive state d c = ({ c with pcb := p }, d) ∧ p.rcvCore = c.pcb.rcvCore ∧
      p.flags.rxclosed = c.pcb.flags.rxclosed := by
  rcases hst with rfl | rfl <;>
  · unfold afterReceive
    simp only
    by_cases hfin : d.gotFin = true
    · rw [if_pos hfin]
      exact ⟨_, rfl, rfl, rfl⟩
    · rw [if_neg hfin]
      exact ⟨c.pcb, rfl, rfl, rfl⟩

theorem tcpReceiveData_closeWait {c : Conn} (h : c.pcb.state = .closeWait) :
    tcpReceiveData env d c = (c, d) := by
  unfold tcpReceiveData
  rw [h]
  exact if_neg fun hlt => absurd hlt.2 (Nat.lt_irrefl _)

/-- **A segment without SYN and RST** in `ESTABLISHED` or `CLOSE_WAIT` is quiet, or it does what the
second half of `tcp_receive` does; the data goes to the application. -/
theorem tcpInput_text (cc : CcAlgo) (pkt : InPkt) {c : Conn}
    (hst : c.pcb.state = .established ∨ c.pcb.state = .closeWait)
    (hrx : c.pcb.state = .established → c.pcb.flags.rxclosed = false) (hrst : pkt.hdr.flags.rst = false)
    (hsyn : pkt.hdr.flags.syn = false) :
    (Quiet c (tcpInput env cc pkt c).conn ∧ (tcpInput env cc pkt c).data = []) ∨
    ∃ (c1 : Conn) (sack : List TcpSackBlock), Quiet c c1 ∧ c1.pcb.rcvWnd = c.pcb.rcvWnd ∧
      c1.fault = c.fault ∧
      (tcpInput env cc pkt c).conn.pcb.rcvCore =
        (tcpReceiveData env { pkt.inData with sack := sack } c1).1.pcb.rcvCore ∧
      (tcpInput env cc pkt c).conn.sent =
        (tcpReceiveData env { pkt.inData with sack := sack } c1).1.sent ∧
      ((tcpReceiveData env { pkt.inData with sack := sack } c1).1.fault = true ∧
          (tcpInput env cc pkt c).data = [] ∨
        (tcpInput env cc pkt c).data =
          deliver (tcpReceiveData env { pkt.inData with sack := sack } c1).2.recvData.length
            (tcpReceiveData env { pkt.inData with sack := sack } c1).2.recvData) := by
  have hsync : Synchronized ({ c with pcb := c.pcb.marksIn pkt } : Conn).pcb := by
    show Synchronized (c.pcb.marksIn pkt)
    unfold Synchronized
    show TcpState.num .established ≤ c.pcb.state.num ∧ c.pcb.state.num < _
    rcases hst with hst | hst <;> rw [hst] <;> decide
  have hact : pcbInActiveState c.pcb = true := hsync.active
  unfold tcpInput
  rw [if_pos hact]
  rcases tcpProcess_cases env cc pkt.optMem pkt.inData hsync with
    ⟨h, -⟩ | ⟨h, -⟩ | ⟨-, h, -⟩ | ⟨-, -, -, heq⟩ | ⟨t, sack, -, -, -, heq⟩
  · exact nomatch hrst.symm.trans h
  · exact nomatch hrst.symm.trans h
  · exact nomatch hsyn.symm.trans h
  · left
    rw [heq]
    exact ⟨.of_core rfl rfl rfl, rfl⟩
  · right
    have hq1 : Quiet c { c with pcb := ((c.pcb.marksIn pkt).heard env).setTsRecent t } :=
      .setPcb c _ rfl rfl
    have hstep := tcpReceiveAck_ackStep env cc { pkt.inData with sack := sack }
      { c with pcb := ((c.pcb.marksIn pkt).heard env).setTsRecent t }
    have hrecv : ∀ d c', tcpReceive env cc d c' = tcpReceiveData env d (tcpReceiveAck env cc d c') :=
      fun _ _ => rfl
    rw [hrecv] at heq
    refine ⟨_, sack, hq1.trans hstep.toQuiet, (congrArg RcvVars.rcvWnd hstep.rcv :), hstep.fault,
      ?_⟩
    rw [heq]
    generalize tcpReceiveAck env cc { pkt.inData with sack := sack } _ = c1 at hstep ⊢
    have hc1 : c1.pcb.flags.rxclosed = c.pcb.flags.rxclosed := hstep.rxclosed
    have hs1 : c1.pcb.state = c.pcb.state := hstep.state
    obtain ⟨hreset, hclosed⟩ := tcpReceiveData_reset env { pkt.inData with sack := sack } c1
    have hrxc := tcpReceiveData_rxclosed env { pkt.inData with sack := sack } c1
    have hnil : c.pcb.state = .closeWait →
        (tcpReceiveData env { pkt.inData with sack := sack } c1).2.recvData = [] := by
      intro h
      rw [tcpReceiveData_closeWait env _ (hs1.trans h)]
      rfl
    generalize tcpReceiveData env { pkt.inData with sack := sack } c1 = r at *
    obtain ⟨p, hp, hcore, hprx⟩ := @afterReceive_open (c.pcb.marksIn pkt).state hst r.2 r.1
    rw [hp]
    simp only
    by_cases hfault : r.1.fault = true
    · rw [if_pos hfault]
      exact ⟨hcore, rfl, .inl ⟨hfault, rfl⟩⟩
    have hno : ¬(r.2.reset = true ∨ r.2.closed = true) := by
      rintro (h | h)
      · exact nomatch hreset.symm.trans h
      · exact nomatch hclosed.symm.trans h
    have hopen : ¬(r.2.recvData ≠ [] ∧ p.flags.rxclosed = true) := by
      rintro ⟨hne, hx⟩
      rcases hst with hst | hst
      · rw [hprx, hrxc, hc1, hrx hst] at hx
        cases hx
      · exact hne (hnil hst)
    rw [if_neg hfault, if_neg hno, notify, if_neg hopen]
    refine ⟨?_, rfl, .inr rfl⟩
    show (if r.2.gotFin = true then p.finTaken else p).rcvCore = _
    split <;> exact hcore

end LibvmaTlt.Lwip
