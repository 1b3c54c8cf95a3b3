import LibvmaTlt.Lwip.InputSpec
import LibvmaTlt.Lwip.WriteSpec
import LibvmaTlt.Lwip.Run

/-!
# Relations across the calls of the stack

Most of the stack leaves `dctcp`, the congestion window and the packets sent alone: `Still` steps. The
rest sends something. A relation between the connection before and after that holds across such steps
and across each kind of packet holds across every function built from them: `PassRel` for functions that
send probes and resets at most, `SendRel` for `tcp_output`.
-/

namespace LibvmaTlt.Lwip

structure CwndVars where
  cwnd : U32
  ssthresh : U32
  lastack : U32
  mss : Nat
  infr : Bool
  deriving DecidableEq

def Pcb.cwndVars (p : Pcb) : CwndVars := ⟨p.cwnd, p.ssthresh, p.lastack, p.mss, p.flags.infr⟩

/-- Nothing is sent, and neither `dctcp` nor the congestion window has changed. -/
structure Still (c c' : Conn) : Prop where
  sent : c'.sent = c.sent
  dctcp : c'.pcb.dctcp = c.pcb.dctcp
  cwnd : c'.pcb.cwndVars = c.pcb.cwndVars

namespace Still

variable {c c' c'' : Conn}

theorem refl (c : Conn) : Still c c := ⟨rfl, rfl, rfl⟩

theorem trans (h : Still c c') (h' : Still c' c'') : Still c c'' :=
  ⟨h'.sent.trans h.sent, h'.dctcp.trans h.dctcp, h'.cwnd.trans h.cwnd⟩

theorem of_rcv {p : Pcb} (h : RcvStep c.pcb p) (hi : p.flags.infr = c.pcb.flags.infr) :
    Still c { c with pcb := p } := by
  refine ⟨rfl, ?_, ?_⟩
  · show p.dctcp = c.pcb.dctcp
    rw [h.out]
  · show p.cwndVars = c.pcb.cwndVars
    unfold Pcb.cwndVars
    rw [h.snd, hi]

end Still

def NoSyn (p : Pcb) : Prop := ∀ s, s ∈ p.unsent ∨ s ∈ p.unacked → s.flags.syn = false

/-- The step leaves the marks of TLT alone too, and queues no SYN. -/
structure Calm (c c' : Conn) : Prop extends Still c c' where
  tlt : c'.pcb.tlt = c.pcb.tlt
  tos : c'.pcb.tos = c.pcb.tos
  noSyn : NoSyn c.pcb → NoSyn c'.pcb

namespace Calm

variable {c c' c'' : Conn}

theorem refl (c : Conn) : Calm c c := ⟨.refl c, rfl, rfl, id⟩

theorem trans (h : Calm c c') (h' : Calm c' c'') : Calm c c'' :=
  ⟨h.toStill.trans h'.toStill, h'.tlt.trans h.tlt, h'.tos.trans h.tos, fun hs => h'.noSyn (h.noSyn hs)⟩

end Calm

/-! ## Functions that only change other fields -/

section CalmSteps

variable (env : Env) (c : Conn)

theorem setState_calm (st : TcpState) : Calm c { c with pcb := c.pcb.setState st } :=
  ⟨⟨rfl, rfl, rfl⟩, rfl, rfl, id⟩

theorem ackNow_calm : Calm c { c with pcb := tcpAckNow c.pcb } := ⟨⟨rfl, rfl, rfl⟩, rfl, rfl, id⟩

theorem tcpPcbPurge_calm : Calm c (tcpPcbPurge c) := by
  unfold tcpPcbPurge
  split
  · exact .refl c
  · exact ⟨⟨rfl, rfl, rfl⟩, rfl, rfl, fun _ => by simp [NoSyn, Pcb.purged]⟩

theorem tcpPcbRemove_calm : Calm c (tcpPcbRemove c) :=
  (tcpPcbPurge_calm c).trans ⟨⟨rfl, rfl, rfl⟩, rfl, rfl, id⟩

theorem toTimeWait_calm : Calm c (toTimeWait c) := (tcpPcbPurge_calm c).trans (setState_calm _ _)

theorem afterReceive_calm (st : TcpState) (d : InData) : Calm c (afterReceive st d c).1 := by
  have hset (st : TcpState) : Calm c { c with pcb := (tcpAckNow c.pcb).setState st } :=
    (ackNow_calm c).trans (setState_calm _ st)
  have htw : Calm c (toTimeWait { c with pcb := tcpAckNow c.pcb }) :=
    (ackNow_calm c).trans (toTimeWait_calm _)
  unfold afterReceive
  split
  · simp only
    split
    · exact hset _
    · exact .refl c
  · simp only
    split
    · exact hset _
    · exact .refl c
  · simp only
    split
    · split
      · exact htw
      · exact hset _
    · split
      · exact setState_calm c _
      · exact .refl c
  · simp only
    split
    · exact htw
    · exact .refl c
  · simp only
    split
    · exact toTimeWait_calm c
    · exact .refl c
  · exact .refl c
  · exact .refl c

theorem appendAfter_flags (pcb : Pcb) (last : TcpSeg) (queue : List TcpSeg) :
    (pcb.appendAfter last queue).flags = pcb.flags := by
  unfold Pcb.appendAfter
  split <;> rfl

theorem tcpWriteCommit_flags (pcb : Pcb) (len : Nat) (w : NewSegs) (last : Option TcpSeg)
    (touched : Bool) : (tcpWriteCommit pcb len w last touched).flags = pcb.flags := by
  cases last with
  | none => rfl
  | some l => exact appendAfter_flags _ _ _

theorem tcpWrite_infr {env : Env} {pcb p : Pcb} {data : List U8} {isDummy : Bool} {e : Err}
    (h : tcpWrite env pcb data isDummy = some (p, e)) : p.flags.infr = pcb.flags.infr := by
  rcases tcpWrite_cases h with ⟨-, rfl | rfl | ⟨a, rfl⟩⟩ | ⟨-, -, w, -, rfl⟩ |
    ⟨-, -, last, t, w, -, rfl⟩
  · rfl
  · rfl
  · rfl
  · rw [tcpWriteCommit_flags]
    rfl
  · rw [tcpWriteCommit_flags]
    rfl

theorem write_calm (data : List U8) (isDummy : Bool) : Calm c (c.write env data isDummy) := by
  unfold Conn.write
  split
  · exact ⟨⟨rfl, rfl, rfl⟩, rfl, rfl, id⟩
  rename_i r hr
  have hf : WriteFrame c.pcb r.1 := tcpWrite_frame (e := r.2) hr
  have hi : r.1.flags.infr = c.pcb.flags.infr := tcpWrite_infr (e := r.2) hr
  have hcwnd : r.1.cwndVars = c.pcb.cwndVars := by
    unfold Pcb.cwndVars
    rw [hf.snd, hi]
  refine ⟨⟨rfl, congrArg OutVars.dctcp hf.out, hcwnd⟩, congrArg OutVars.tlt hf.out, hf.tos, ?_⟩
  intro h s hs
  rcases tcpWrite_origin (p := r.1) (e := r.2) hr hs with hn | ⟨t, ht, he, -⟩
  · exact hn.1
  · exact he.trans (h t ht)

theorem tcpRecved_calm (len : U32) : Calm c { c with pcb := (tcpRecved c.pcb len).1 } := by
  unfold tcpRecved
  simp only
  split <;> exact ⟨⟨rfl, rfl, rfl⟩, rfl, rfl, id⟩

theorem tcpRexmit_calm : Calm c { c with pcb := tcpRexmit c.pcb } := by
  have hsnd := tcpRexmit_snd c.pcb
  refine ⟨?_, hsnd.tlt, hsnd.tos, fun h s hs => h s (hsnd.segs s hs)⟩
  unfold tcpRexmit
  split <;> exact ⟨rfl, rfl, rfl⟩

theorem tcpRexmitRtoRequeue_calm : Calm c { c with pcb := tcpRexmitRtoRequeue c.pcb } := by
  unfold tcpRexmitRtoRequeue
  split
  · exact .refl c
  · refine ⟨⟨rfl, rfl, rfl⟩, rfl, rfl, ?_⟩
    rintro h s (hs | hs)
    · exact h s (List.mem_append.mp hs).symm
    · cases hs

theorem closeFin_calm (st : TcpState) : Calm c (closeFin env st c).1 := by
  have hsyn : NoSyn c.pcb → NoSyn (tcpSendFin env c.pcb).1 := by
    intro h s hs
    rcases mem_tcpSendFin hs with rfl | hs | ⟨l, hl, rfl⟩
    · rfl
    · exact h s hs
    · exact h l (.inl hl)
  have hfin : Calm c { c with pcb := (tcpSendFin env c.pcb).1 } := by
    refine ⟨?_, ?_, ?_, hsyn⟩ <;>
      rcases tcpSendFin_cases env c.pcb with ⟨_, he, -⟩ | he | ⟨_, _, -, he⟩ <;> rw [he]
    all_goals first | rfl | exact ⟨rfl, rfl, rfl⟩
  unfold closeFin
  simp only
  split
  · exact hfin.trans (setState_calm _ st)
  · exact hfin

end CalmSteps

section StillSteps

variable (env : Env) (c : Conn)

theorem splitHead_still (force : Bool) (wnd : U32) (n : Nat) :
    Still c { c with pcb := splitHead env force wnd n c.pcb } := by
  rcases splitHead_unsent env force wnd n c.pcb with he | ⟨seg, rest, s, -, -, -, -, -, -, he⟩
  · rw [he]
    exact .refl c
  · rw [he]
    exact ⟨rfl, rfl, rfl⟩

theorem forceTransmit_still : Still c { c with pcb := (forceTransmit env c.pcb).1 } := by
  rcases forceTransmit_cases env c.pcb with h | ⟨k, -, h⟩ | ⟨seq, target, -, -, -, -, -, h⟩ <;>
    rw [h] <;> exact ⟨rfl, rfl, rfl⟩

theorem windowUpdate_still (d : InData) : Still c { c with pcb := (windowUpdate c.pcb d).1 } := by
  unfold windowUpdate
  simp only
  split <;> exact ⟨rfl, rfl, rfl⟩

theorem freeSacked_still (d : InData) : Still c (freeSacked d c) := by
  unfold freeSacked
  split <;> exact ⟨rfl, rfl, rfl⟩

theorem freeUnsent_still (ackno : U32) : Still c (freeUnsent ackno c) := ⟨rfl, rfl, rfl⟩

theorem rttEstimate_still (ackno : U32) : Still c { c with pcb := rttEstimate env ackno c.pcb } := by
  unfold rttEstimate
  split <;> exact ⟨rfl, rfl, rfl⟩

end StillSteps

/-! ## Probes and resets -/

/-- A relation that holds across calm steps, resets and probes. -/
structure PassRel (R : Conn → Conn → Prop) : Prop where
  trans : ∀ {c c' c''}, R c c' → R c' c'' → R c c''
  calm : ∀ {c c'}, Calm c c' → R c c'
  rst : ∀ env n seqno ackno c, R c (tcpRst env n seqno ackno c)
  probe : ∀ env n c, R c (tcpKeepalive env n c)

namespace PassRel

variable {R : Conn → Conn → Prop} (h : PassRel R) (env : Env) (c : Conn)

include h

theorem notify (d : InData) : R c (notify env d c).conn := by
  unfold Lwip.notify
  split
  · unfold tcpAbort
    simp only
    split
    · exact h.calm (tcpPcbRemove_calm c)
    · exact h.trans (h.calm (tcpPcbRemove_calm c)) (h.rst ..)
  · refine h.calm ?_
    simp only
    split <;> exact ⟨⟨rfl, rfl, rfl⟩, rfl, rfl, id⟩

theorem tcpTimewaitInput (d : InData) : R c (tcpTimewaitInput env d c).conn := by
  unfold Lwip.tcpTimewaitInput
  split
  · exact h.calm (.refl c)
  split
  · exact h.rst ..
  · refine h.calm ?_
    simp only
    split <;> split <;> exact ⟨⟨rfl, rfl, rfl⟩, rfl, rfl, id⟩

theorem tcpCloseShutdown (rst : Bool) : R c (tcpCloseShutdown env rst c).1 := by
  unfold Lwip.tcpCloseShutdown
  split
  · refine h.trans (h.rst env 0 c.pcb.sndNxt c.pcb.rcvNxt c) (h.calm ?_)
    refine (tcpPcbPurge_calm _).trans ?_
    simp only
    split <;> exact ⟨⟨rfl, rfl, rfl⟩, rfl, rfl, id⟩
  · split
    · exact h.calm (tcpPcbRemove_calm c)
    · exact h.calm (tcpPcbRemove_calm c)
    · exact h.calm (closeFin_calm env c _)
    · exact h.calm (closeFin_calm env c _)
    · exact h.calm (closeFin_calm env c _)
    · exact h.calm (.refl c)

theorem tcpClose : R c (tcpClose env c).1 := by
  have hrx : R c { c with pcb := c.pcb.shutRx } := h.calm ⟨⟨rfl, rfl, rfl⟩, rfl, rfl, id⟩
  exact h.trans hrx (h.tcpCloseShutdown env _ true)

theorem tcpShutdown (rx tx : Bool) : R c (tcpShutdown env rx tx c).1 := by
  have hrx : R c (if rx then { c with pcb := c.pcb.shutRx } else c) := by
    split
    · exact h.calm ⟨⟨rfl, rfl, rfl⟩, rfl, rfl, id⟩
    · exact h.calm (.refl c)
  unfold Lwip.tcpShutdown
  simp only
  generalize (if rx then { c with pcb := c.pcb.shutRx } else c) = c' at hrx ⊢
  split
  · exact h.trans hrx (h.tcpCloseShutdown env c' true)
  split
  · split
    · exact h.trans hrx (h.tcpCloseShutdown env c' false)
    · exact hrx
  · exact hrx

theorem slowTimers : R c (slowTimers env c) := by
  unfold Lwip.slowTimers
  split
  · split
    · have hnext : R c { c with pcb := c.pcb.persistNext } := h.calm ⟨⟨rfl, rfl, rfl⟩, rfl, rfl, id⟩
      exact h.trans hnext (h.probe env 0 _)
    · exact h.calm ⟨⟨rfl, rfl, rfl⟩, rfl, rfl, id⟩
  · exact h.calm ⟨⟨rfl, rfl, rfl⟩, rfl, rfl, id⟩

theorem slowChecks (exhausted : Bool) : R c (slowChecks env exhausted c).1 := by
  have hkeep : R c (slowKeepalive env c) := by
    unfold slowKeepalive
    split
    · exact h.trans (h.probe env 1 c) (h.calm ⟨⟨rfl, rfl, rfl⟩, rfl, rfl, id⟩)
    · exact h.calm (.refl c)
  have hooseq : R c (slowOoseq env (slowKeepalive env c)) := by
    unfold slowOoseq
    split
    · exact h.trans hkeep (h.calm ⟨⟨rfl, rfl, rfl⟩, rfl, rfl, id⟩)
    · exact hkeep
  unfold Lwip.slowChecks slowFinish
  simp only
  generalize slowOoseq env (slowKeepalive env c) = c' at hooseq ⊢
  refine h.trans hooseq ?_
  split
  · have hpurge : R c' (tcpPcbPurge c') := h.calm (tcpPcbPurge_calm c')
    split
    · exact h.trans (h.trans hpurge (h.rst ..)) (h.calm ⟨⟨rfl, rfl, rfl⟩, rfl, rfl, id⟩)
    · exact h.trans hpurge (h.calm ⟨⟨rfl, rfl, rfl⟩, rfl, rfl, id⟩)
  · split <;> exact h.calm ⟨⟨rfl, rfl, rfl⟩, rfl, rfl, id⟩

end PassRel

/-- The action neither takes a segment, nor sends one, nor signals loss. -/
def Act.isPlain : Act → Bool
  | .output _ | .input .. | .rexmitFast _ | .slowRto _ => false
  | _ => true

/-- **Every other action sends probes and resets at most**, and leaves the congestion window alone. -/
theorem PassRel.act {R : Conn → Conn → Prop} (h : PassRel R) (c : Conn) {a : Act}
    (ha : a.isPlain = true) : R c (c.act a) := by
  cases a with
  | write env data isDummy => exact h.calm (write_calm env c data isDummy)
  | output | input => cases ha
  | recved len => exact h.calm (tcpRecved_calm c len)
  | rexmit => exact h.calm (tcpRexmit_calm c)
  | rexmitRto => exact h.calm (tcpRexmitRtoRequeue_calm c)
  | rexmitFast cc => cases ha
  | close env => exact h.tcpClose env c
  | shutdown env rx tx => exact h.tcpShutdown env c rx tx
  | slowTimers env => exact h.slowTimers env c
  | slowRto cc => cases ha
  | slowChecks env exhausted => exact h.slowChecks env c exhausted

/-! ## Segments and empty ACKs -/

/-- A relation that holds across `Still` steps, empty ACKs and the sending of a segment. -/
structure SendRel (R : Conn → Conn → Prop) : Prop where
  trans : ∀ {c c' c''}, R c c' → R c' c'' → R c c''
  still : ∀ {c c'}, Still c c' → R c c'
  ack : ∀ env n c, R c (tcpSendEmptyAck env n c)
  segment : ∀ env force n c seg rest, R c (sendHead env force n c seg rest)

namespace SendRel

variable {R : Conn → Conn → Prop} (h : SendRel R) (env : Env) {c : Conn}

include h

theorem tcpOutput (hf : c.fault = false) : R c (tcpOutput env c) := by
  have hloop : ∀ force wnd f n (c' : Conn), c'.fault = false → R c c' →
      R c (outputLoop env force wnd f n c') := by
    intro force wnd
    refine outputLoop_inv (R c) ?_ ?_
    · intro n c' hc'
      exact h.trans hc' (h.still (splitHead_still env c' _ _ n))
    · intro n c' seg rest hc' _ _ _ _
      exact h.trans hc' (h.segment env _ n c' seg rest)
  unfold Lwip.tcpOutput
  split
  · exact h.ack env 0 c
  · have hforce : R c { c with pcb := (forceTransmit env c.pcb).1 } :=
      h.still (forceTransmit_still env c)
    exact h.trans (hloop _ _ _ 0 { c with pcb := (forceTransmit env c.pcb).1 } hf hforce)
      (h.still ⟨rfl, rfl, rfl⟩)

theorem tcpReceiveData (d : InData) : R c (tcpReceiveData env d c).1 :=
  TextRel.tcpReceiveData ⟨fun c => h.still (.refl c), h.trans, fun hr => h.still (.of_rcv hr.toRcvStep hr.infr),
    h.ack env, fun _ => h.still ⟨rfl, rfl, rfl⟩⟩ d c

end SendRel

end LibvmaTlt.Lwip
