import LibvmaTlt.Lwip.DctcpCalls

/-!
# The congestion variables

`cwnd` and `ssthresh`, what they are computed from, and the part of `dctcp` that sending does not
change: few places of the stack touch them. An acknowledgement does (`tcpInput_cc`), the two signals of
loss do, and every other action leaves them alone (`act_cc`).
-/

namespace LibvmaTlt.Lwip

/-- `dctcp` without what sending a packet changes. -/
def DctcpParam.bare (d : DctcpParam) : DctcpParam :=
  { d with enabled := true, ce := 0, pendingCwr := false }

structure CcVars extends CwndVars where
  dctcp : DctcpParam

def Pcb.cc (p : Pcb) : CcVars := ⟨p.cwndVars, p.dctcp.bare⟩

theorem Pcb.cc_eq {p q : Pcb} (hs : q.toSndVars = p.toSndVars) (hi : q.flags.infr = p.flags.infr)
    (hd : q.dctcp.bare = p.dctcp.bare) : q.cc = p.cc := by
  unfold Pcb.cc Pcb.cwndVars
  rw [hs, hi, hd]

variable {c : Conn}

theorem Still.cc {c' : Conn} (h : Still c c') : c'.pcb.cc = c.pcb.cc := by
  unfold Pcb.cc
  rw [h.cwnd, h.dctcp]

theorem dctcpSendEmpty_bare (d : DctcpParam) (f : TcphFlags) :
    (dctcpSendEmpty d f).1.bare = d.bare := by
  unfold dctcpSendEmpty
  split <;> rfl

/-! ## Output -/

variable (env : Env) (cc : CcAlgo) (pkt : InPkt)

theorem tcpSendEmptyAck_cc (n : Nat) (c : Conn) : (tcpSendEmptyAck env n c).pcb.cc = c.pcb.cc := by
  unfold tcpSendEmptyAck
  split
  · exact Pcb.cc_eq rfl rfl (dctcpSendEmpty_bare c.pcb.dctcp { ack := true })
  · rfl

theorem beforeSend_cc (force : Bool) (n : Nat) (c : Conn) (seg : TcpSeg) (rest : List TcpSeg) :
    (beforeSend env force n c seg rest).1.pcb.cc = c.pcb.cc := by
  have hack : (ackBeforeDummy env n seg
      { c with pcb := c.pcb.takeHead rest (nextSmlSnt force c.pcb seg rest) }).pcb.cc = c.pcb.cc := by
    unfold ackBeforeDummy
    split
    · exact tcpSendEmptyAck_cc ..
    · rfl
  unfold beforeSend
  simp only
  split
  · exact hack
  · exact hack

theorem segmentOut_cc (pcb : Pcb) (seg : TcpSeg) : (pcb.segmentOut env seg).cc = pcb.cc :=
  Pcb.cc_eq rfl rfl (dctcpSendEmpty_bare pcb.dctcp seg.flags)

theorem sendHead_cc (force : Bool) (n : Nat) (c : Conn) (seg : TcpSeg) (rest : List TcpSeg) :
    (sendHead env force n c seg rest).pcb.cc = c.pcb.cc := by
  have hout : ∀ s : TcpSeg, ((beforeSend env force n c seg rest).1.pcb.segmentOut env s).cc =
      c.pcb.cc := fun s =>
    (segmentOut_cc env _ s).trans (beforeSend_cc env force n c seg rest)
  unfold sendHead
  simp only
  split
  · exact hout _
  · rename_i ha
    obtain ⟨q, rfl, -⟩ := afterSend_eq ha
    exact hout _

theorem cc_sendRel : SendRel fun c c' => c'.pcb.cc = c.pcb.cc where
  trans := fun h h' => h'.trans h
  still := Still.cc
  ack := tcpSendEmptyAck_cc
  segment := sendHead_cc

theorem cc_passRel : PassRel fun c c' => c'.pcb.cc = c.pcb.cc where
  trans := fun h h' => h'.trans h
  calm := fun h => h.toStill.cc
  rst := fun env n seqno ackno c => by
    unfold tcpRst
    split <;> rfl
  probe := fun env n c => by
    unfold tcpKeepalive
    split <;> rfl

/-! ## Input -/

/-- The connection is in order and between `ESTABLISHED` and `LAST_ACK`. -/
def Conn.Live (c : Conn) : Prop := c.fault = false ∧ Synchronized c.pcb

instance (c : Conn) : Decidable c.Live := inferInstanceAs (Decidable (_ ∧ _))

def AcksNew (ackno lastack sndNxt : U32) : Prop :=
  ¬ TcpSeqLeq ackno lastack ∧ TcpSeqBetween ackno (lastack + 1) sndNxt

instance (ackno lastack sndNxt : U32) : Decidable (AcksNew ackno lastack sndNxt) :=
  inferInstanceAs (Decidable (_ ∧ _))

/-- What an acknowledgement makes of the congestion variables of `p`; `q` is a pcb with the same
variables, whose window may be another. -/
inductive AckCc (cc : CcAlgo) (d : InData) (p : Pcb) : CcVars → Prop where
  | none (h : ¬ AcksNew d.hdr.ackno p.lastack p.sndNxt) : AckCc cc d p p.cc
  | dup (q : Pcb) (hq : q.cc = p.cc) (h : ¬ AcksNew d.hdr.ackno p.lastack p.sndNxt) :
    AckCc cc d p (dupAckReact cc q).cc
  | new (q : Pcb) (hq : q.cc = p.cc) (hst : q.state = p.state)
    (h : AcksNew d.hdr.ackno p.lastack p.sndNxt) : AckCc cc d p (ackNewData cc d q).cc

theorem tcpRexmitFast_lastack (q : Pcb) : (tcpRexmitFast cc q).lastack = q.lastack := by
  unfold tcpRexmitFast tcpRexmit
  split
  · split <;> rfl
  · rfl

theorem dupAckReact_lastack (q : Pcb) : (dupAckReact cc q).lastack = q.lastack := by
  unfold dupAckReact
  split
  · rfl
  · split
    · exact tcpRexmitFast_lastack cc q
    · rfl

theorem ackNewData_lastack (d : InData) (q : Pcb) : (ackNewData cc d q).lastack = d.hdr.ackno := by
  unfold ackNewData ackNewCwnd dctcpReduceCwnd
  split
  · split <;> rfl
  · rfl

namespace AckCc

variable {cc : CcAlgo} {d : InData} {p : Pcb} {v : CcVars}

theorem lastack (h : AckCc cc d p v) :
    v.lastack = if AcksNew d.hdr.ackno p.lastack p.sndNxt then d.hdr.ackno else p.lastack := by
  cases h with
  | none hn =>
    rw [if_neg hn]
    rfl
  | dup q hq hn =>
    rw [if_neg hn]
    exact (dupAckReact_lastack cc q).trans (congrArg (fun v : CcVars => v.lastack) hq)
  | new q hq hst hn =>
    rw [if_pos hn]
    exact ackNewData_lastack cc d q

theorem dctcp (h : AckCc cc d p v) : ∃ e, v.dctcp = { p.dctcp.bare with pendingEce := e } := by
  cases h with
  | none hn => exact ⟨p.dctcp.pendingEce, rfl⟩
  | dup q hq hn =>
    have hd : q.dctcp.bare = p.dctcp.bare := congrArg CcVars.dctcp hq
    refine ⟨p.dctcp.pendingEce, ?_⟩
    show (dupAckReact cc q).dctcp.bare = _
    rw [dupAckReact_dctcp, hd]
    rfl
  | new q hq hst hn =>
    have hd : q.dctcp.bare = p.dctcp.bare := congrArg CcVars.dctcp hq
    rcases ackNewData_dctcp cc d q with he | he
    · refine ⟨p.dctcp.pendingEce, ?_⟩
      show (ackNewData cc d q).dctcp.bare = _
      rw [he, hd]
      rfl
    · show ∃ e, (ackNewData cc d q).dctcp.bare = _
      rw [he, ← hd]
      simp only [DctcpCall.next]
      split
      · exact ⟨false, rfl⟩
      · exact ⟨q.dctcp.pendingEce, rfl⟩

end AckCc

theorem tcpReceiveAck_cc (d : InData) (c : Conn) (ha : d.hdr.flags.ack = true) :
    AckCc cc d c.pcb (tcpReceiveAck env cc d c).pcb.cc := by
  unfold tcpReceiveAck
  rw [if_pos ha]
  simp only
  have hcc : (freeSacked d { c with pcb := (windowUpdate c.pcb d).1 }).pcb.cc = c.pcb.cc :=
    (freeSacked_still _ d).cc.trans (windowUpdate_still c d).cc
  have hsnd := (windowUpdate_snd c.pcb d).trans
    (freeSacked_snd d { c with pcb := (windowUpdate c.pcb d).1 })
  generalize freeSacked d { c with pcb := (windowUpdate c.pcb d).1 } = c1 at hcc hsnd ⊢
  have hlast : c1.pcb.lastack = c.pcb.lastack := congrArg (fun v : CcVars => v.lastack) hcc
  have hnew : AcksNew d.hdr.ackno c1.pcb.lastack c1.pcb.sndNxt ↔
      AcksNew d.hdr.ackno c.pcb.lastack c.pcb.sndNxt := by rw [hlast, hsnd.sndNxt]
  rw [(rttEstimate_still env _ d.hdr.ackno).cc, (freeUnsent_still _ d.hdr.ackno).cc]
  unfold ackClause
  split
  · rename_i hle
    have hno : ¬ AcksNew d.hdr.ackno c.pcb.lastack c.pcb.sndNxt := fun h => (hnew.mpr h).1 hle
    show AckCc cc d c.pcb (dupAck cc _ d c1.pcb.clearAcked).cc
    unfold dupAck
    split
    · exact .dup _ hcc hno
    · have : AckCc cc d c.pcb c.pcb.cc := .none hno
      rw [← hcc] at this
      exact this
  · rename_i hle
    split
    · rename_i hb
      exact .new c1.pcb hcc hsnd.state (hnew.mp ⟨hle, hb⟩)
    rename_i hb
    have hno : ¬ AcksNew d.hdr.ackno c.pcb.lastack c.pcb.sndNxt := fun h => hb (hnew.mpr h).2
    have heq : (tcpSendEmptyAck env 0 { c1 with pcb := c1.pcb.clearAcked }).pcb.cc = c.pcb.cc :=
      (tcpSendEmptyAck_cc env 0 _).trans hcc
    have : AckCc cc d c.pcb c.pcb.cc := .none hno
    rw [← heq] at this
    exact this

/-- The segment is taken as an acknowledgement: neither `RST` nor `SYN`, and its options are read to an
end. -/
def takesAck (env : Env) (pkt : InPkt) (p : Pcb) : Prop :=
  pkt.hdr.flags.rst = false ∧ pkt.hdr.acks = true ∧
    (tcpParseopt env pkt.optMem (p.heard env) pkt.inData).isSome = true

instance (env : Env) (pkt : InPkt) (p : Pcb) : Decidable (takesAck env pkt p) :=
  inferInstanceAs (Decidable (_ ∧ _ ∧ _))

theorem takesAck_congr (p q : Pcb) : takesAck env pkt p ↔ takesAck env pkt q := by
  unfold takesAck
  rw [tcpParseopt_isSome_congr env pkt.optMem (p.heard env) (q.heard env)]

theorem tcpProcess_cc (hs : Synchronized c.pcb) :
    takesAck env pkt c.pcb ∧
        AckCc cc pkt.inData c.pcb (tcpProcess env cc pkt.optMem pkt.inData c).1.pcb.cc ∨
      ¬ takesAck env pkt c.pcb ∧ (tcpProcess env cc pkt.optMem pkt.inData c).1.pcb.cc = c.pcb.cc := by
  rcases tcpProcess_cases env cc pkt.optMem pkt.inData hs with ⟨hr, -, he⟩ | ⟨hr, he⟩ |
    ⟨-, hsyn, he⟩ | ⟨-, -, hparse, he⟩ | ⟨t, sack, hr, hsyn, hparse, he⟩
  · refine .inr ⟨fun h => ?_, by rw [he]; rfl⟩
    exact nomatch h.1.symm.trans hr
  · refine .inr ⟨fun h => ?_, by rw [he]⟩
    exact nomatch h.1.symm.trans hr
  · refine .inr ⟨fun h => ?_, by rw [he]; rfl⟩
    have hacks := h.2.1
    have hsyn' : pkt.hdr.flags.syn = true := hsyn
    simp [TcpHdr.acks, hsyn'] at hacks
  · refine .inr ⟨fun h => ?_, by rw [he]⟩
    have hsome := h.2.2
    rw [hparse] at hsome
    cases hsome
  · rw [he, (afterReceive_calm _ _ _).toStill.cc, tcpReceive, cc_sendRel.tcpReceiveData]
    have hsyn' : pkt.hdr.flags.syn = false := hsyn
    cases ha : pkt.hdr.flags.ack with
    | false =>
      refine .inr ⟨fun h => ?_, ?_⟩
      · have hacks := h.2.1
        simp [TcpHdr.acks, ha] at hacks
      · rw [tcpReceiveAck_noAck ha]
        rfl
    | true =>
      refine .inl ⟨⟨hr, by simp [TcpHdr.acks, ha, hsyn'], by rw [hparse]; rfl⟩, ?_⟩
      have h := tcpReceiveAck_cc env cc { pkt.inData with sack := sack }
        { c with pcb := (c.pcb.heard env).setTsRecent t } ha
      generalize (tcpReceiveAck env cc { pkt.inData with sack := sack }
        { c with pcb := (c.pcb.heard env).setTsRecent t }).pcb.cc = v at h ⊢
      cases h with
      | none hn => exact .none hn
      | dup q hq hn => exact .dup q hq hn
      | new q hq hst hn => exact .new q hq hst hn

/-- **What an arriving segment does to the congestion variables** of a synchronized connection: it is
taken as an acknowledgement, or `dctcp_recv` alone has changed them. -/
theorem tcpInput_cc (hs : Synchronized c.pcb) :
    takesAck env pkt c.pcb ∧
        AckCc cc pkt.inData (c.pcb.marksIn pkt) (tcpInput env cc pkt c).conn.pcb.cc ∨
      ¬ takesAck env pkt c.pcb ∧ (tcpInput env cc pkt c).conn.pcb.cc = (c.pcb.marksIn pkt).cc := by
  have hproc := tcpProcess_cc env cc pkt (c := { c with pcb := c.pcb.marksIn pkt }) hs
  rw [takesAck_congr env pkt _ c.pcb] at hproc
  unfold tcpInput
  rw [if_pos hs.active]
  simp only
  split
  · exact hproc
  split
  · rw [(tcpPcbRemove_calm _).toStill.cc]
    exact hproc
  · rw [cc_passRel.notify env]
    exact hproc

theorem tcpInput_bare (hs : Synchronized c.pcb) :
    ∃ e, (tcpInput env cc pkt c).conn.pcb.dctcp.bare =
      { (c.pcb.marksIn pkt).dctcp.bare with pendingEce := e } := by
  rcases tcpInput_cc env cc pkt hs with ⟨-, hcc⟩ | ⟨-, hcc⟩
  · exact hcc.dctcp
  · exact ⟨(c.pcb.marksIn pkt).dctcp.pendingEce, congrArg CcVars.dctcp hcc⟩

theorem tcpInput_lastack (hs : Synchronized c.pcb) :
    (tcpInput env cc pkt c).conn.pcb.lastack =
      if takesAck env pkt c.pcb ∧ AcksNew pkt.hdr.ackno c.pcb.lastack c.pcb.sndNxt then pkt.hdr.ackno
      else c.pcb.lastack := by
  rcases tcpInput_cc env cc pkt hs with ⟨ht, hcc⟩ | ⟨ht, hcc⟩
  · refine hcc.lastack.trans ?_
    simp only [ht, true_and]
    rfl
  · rw [if_neg fun h => ht h.1]
    exact congrArg (fun v : CcVars => v.lastack) hcc

/-! ## The other actions -/

/-- The action is neither the arrival of a segment nor a signal of loss. -/
def Act.keepsCc : Act → Bool
  | .input .. | .rexmitFast _ | .slowRto _ => false
  | _ => true

theorem act_cc (hf : c.fault = false) {a : Act} (ha : a.keepsCc = true) :
    (c.act a).pcb.cc = c.pcb.cc := by
  cases a with
  | output env => exact cc_sendRel.tcpOutput env hf
  | input | rexmitFast | slowRto => cases ha
  | write | recved | rexmit | rexmitRto | close | shutdown | slowTimers | slowChecks =>
    exact cc_passRel.act c rfl

theorem act_call_bare (hf : c.fault = false) {a : Act} (ha : a.isCall = true) :
    (c.act a).pcb.dctcp.bare = c.pcb.dctcp.bare ∧ (c.act a).pcb.lastack = c.pcb.lastack := by
  have hkeeps : (c.act a).pcb.cc = c.pcb.cc →
      (c.act a).pcb.dctcp.bare = c.pcb.dctcp.bare ∧ (c.act a).pcb.lastack = c.pcb.lastack :=
    fun h => ⟨congrArg CcVars.dctcp h, congrArg (fun v : CcVars => v.lastack) h⟩
  cases a with
  | input => cases ha
  | rexmitFast cc => exact ⟨congrArg DctcpParam.bare (tcpRexmitFast_dctcp cc c.pcb),
      tcpRexmitFast_lastack cc c.pcb⟩
  | slowRto cc => exact ⟨rfl, rfl⟩
  | write | output | recved | rexmit | rexmitRto | close | shutdown | slowTimers | slowChecks =>
    exact hkeeps (act_cc hf rfl)

end LibvmaTlt.Lwip
