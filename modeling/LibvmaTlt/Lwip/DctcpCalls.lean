import LibvmaTlt.Lwip.ParseEnd
import LibvmaTlt.Lwip.StackRel

/-!
# The calls of the stack into DCTCP

The stack knows DCTCP by four functions: `dctcp_recv` for a segment that arrives, `dctcp_reduce_cwnd`
for an ACK of new data, `dctcp_reduce_cwnd_rto` for a timeout, and `dctcp_send` (`dctcp_send_empty`) for
the header of a packet that leaves. What a connection does to its `dctcp` and which flags its packets
carry is a sequence of such calls: `exists_stepCalls` gives the calls of every step of a run.
-/

namespace LibvmaTlt.Lwip

/-! ## `dctcp_recv` -/

section Recv

variable (pcb : Pcb) (ecn : U8) (hdr : TcpHdr)

def TcpHdr.acks (hdr : TcpHdr) : Bool := hdr.flags.ack && !hdr.flags.syn

def Pcb.counted (pcb : Pcb) (hdr : TcpHdr) : U32 × U32 :=
  if hdr.acks then
    (pcb.dctcp.bytesAcked + (hdr.ackno - pcb.lastack),
      if hdr.flags.ece then pcb.dctcp.bytesMarked + (hdr.ackno - pcb.lastack)
      else pcb.dctcp.bytesMarked)
  else (pcb.dctcp.bytesAcked, pcb.dctcp.bytesMarked)

/-- `dctcp` with these counters, from which `Alpha` is updated. -/
def Pcb.atWindowEnd (pcb : Pcb) (hdr : TcpHdr) : DctcpParam :=
  { pcb.dctcp with bytesAcked := (pcb.counted hdr).1, bytesMarked := (pcb.counted hdr).2 }

/-- The segment ends the window: `Alpha` is updated. -/
def endsWindow (pcb : Pcb) (hdr : TcpHdr) : Prop :=
  hdr.acks = true ∧ ¬ TcpSeqLeq hdr.ackno pcb.dctcp.windowEnd ∧ 0 < (pcb.counted hdr).1

instance : Decidable (endsWindow pcb hdr) := inferInstanceAs (Decidable (_ ∧ _ ∧ _))

def schedules (pcb : Pcb) (hdr : TcpHdr) : Prop :=
  hdr.flags.ece = true ∧ hdr.flags.syn = false ∧ pcb.dctcp.nextEce ≤ pcb.sndNxt

instance : Decidable (schedules pcb hdr) := inferInstanceAs (Decidable (_ ∧ _ ∧ _))

/-- The middle part of `dctcp_recv`: the counters and `Alpha`. -/
def recvAck (pcb : Pcb) (hdr : TcpHdr) (d : DctcpParam) : DctcpParam :=
  if hdr.flags.ack && !hdr.flags.syn then
    let bytesAcked := hdr.ackno - pcb.lastack
    let d := { d with
      bytesAcked := d.bytesAcked + bytesAcked
      bytesMarked := if hdr.flags.ece then d.bytesMarked + bytesAcked else d.bytesMarked }
    if TcpSeqLeq hdr.ackno d.windowEnd then d
    else if d.bytesAcked > 0 then
      { d with alpha := dctcpAlpha d, windowEnd := pcb.sndNxt, bytesAcked := 0, bytesMarked := 0 }
    else d
  else d

/-- The last part of `dctcp_recv`: the gate that lets one reduction through for a window. -/
def recvEce (pcb : Pcb) (hdr : TcpHdr) (d : DctcpParam) : DctcpParam :=
  if hdr.flags.ece && !hdr.flags.syn && pcb.sndNxt ≥ d.nextEce then
    { d with pendingEce := true, nextEce := pcb.sndNxt + pcb.cwnd }
  else d

theorem dctcpRecv_parts : dctcpRecv pcb ecn hdr = recvEce pcb hdr (recvAck pcb hdr
    (if ecn &&& 3 = 3 then { pcb.dctcp with ce := cInt (pcb.dctcp.ce + 1) } else pcb.dctcp)) := rfl

theorem recvAck_eq (ce : Int) : recvAck pcb hdr { pcb.dctcp with ce := ce } =
    { pcb.dctcp with
      ce := ce
      windowEnd := if endsWindow pcb hdr then pcb.sndNxt else pcb.dctcp.windowEnd
      bytesAcked := if endsWindow pcb hdr then 0 else (pcb.counted hdr).1
      bytesMarked := if endsWindow pcb hdr then 0 else (pcb.counted hdr).2
      alpha := if endsWindow pcb hdr then dctcpAlpha (pcb.atWindowEnd hdr) else pcb.dctcp.alpha } := by
  unfold recvAck
  by_cases hack : (hdr.flags.ack && !hdr.flags.syn) = true
  · have hc : pcb.counted hdr = (pcb.dctcp.bytesAcked + (hdr.ackno - pcb.lastack),
        if hdr.flags.ece then pcb.dctcp.bytesMarked + (hdr.ackno - pcb.lastack)
        else pcb.dctcp.bytesMarked) := if_pos hack
    by_cases hleq : TcpSeqLeq hdr.ackno pcb.dctcp.windowEnd
    · have hend : ¬ endsWindow pcb hdr := fun h => h.2.1 hleq
      simp only [if_pos hack, if_pos hleq, if_neg hend, hc]
    by_cases hpos : 0 < pcb.dctcp.bytesAcked + (hdr.ackno - pcb.lastack)
    · have hend : endsWindow pcb hdr := ⟨hack, hleq, by rw [hc]; exact hpos⟩
      simp only [if_pos hack, if_neg hleq, if_pos hend, gt_iff_lt, if_pos hpos, Pcb.atWindowEnd, hc]
      rfl
    have hend : ¬ endsWindow pcb hdr := by
      intro h
      have hsum := h.2.2
      rw [hc] at hsum
      exact hpos hsum
    simp only [if_pos hack, if_neg hleq, if_neg hend, gt_iff_lt, if_neg hpos, hc]
  · have hend : ¬ endsWindow pcb hdr := fun h => hack h.1
    have hc : pcb.counted hdr = (pcb.dctcp.bytesAcked, pcb.dctcp.bytesMarked) := if_neg hack
    simp only [if_neg hack, if_neg hend, hc]

theorem recvEce_eq {d : DctcpParam} (hd : d.nextEce = pcb.dctcp.nextEce) : recvEce pcb hdr d =
    { d with
      pendingEce := if schedules pcb hdr then true else d.pendingEce
      nextEce := if schedules pcb hdr then pcb.sndNxt + pcb.cwnd else d.nextEce } := by
  have hiff : (hdr.flags.ece && !hdr.flags.syn && decide (pcb.sndNxt ≥ d.nextEce)) = true ↔
      schedules pcb hdr := by
    unfold schedules
    rw [hd]
    simp [and_assoc]
  unfold recvEce
  by_cases hs : schedules pcb hdr
  · rw [if_pos (hiff.mpr hs), if_pos hs, if_pos hs]
  · rw [if_neg (fun h => hs (hiff.mp h)), if_neg hs, if_neg hs]

theorem dctcpRecv_eq : dctcpRecv pcb ecn hdr =
    { pcb.dctcp with
      ce := if ecn &&& 3 = 3 then cInt (pcb.dctcp.ce + 1) else pcb.dctcp.ce
      pendingEce := if schedules pcb hdr then true else pcb.dctcp.pendingEce
      nextEce := if schedules pcb hdr then pcb.sndNxt + pcb.cwnd else pcb.dctcp.nextEce
      windowEnd := if endsWindow pcb hdr then pcb.sndNxt else pcb.dctcp.windowEnd
      bytesAcked := if endsWindow pcb hdr then 0 else (pcb.counted hdr).1
      bytesMarked := if endsWindow pcb hdr then 0 else (pcb.counted hdr).2
      alpha := if endsWindow pcb hdr then dctcpAlpha (pcb.atWindowEnd hdr) else pcb.dctcp.alpha } := by
  have hmark : (if ecn &&& 3 = 3 then { pcb.dctcp with ce := cInt (pcb.dctcp.ce + 1) } else pcb.dctcp) =
      { pcb.dctcp with ce := if ecn &&& 3 = 3 then cInt (pcb.dctcp.ce + 1) else pcb.dctcp.ce } := by
    split <;> rfl
  rw [dctcpRecv_parts, hmark, recvAck_eq]
  exact recvEce_eq pcb hdr rfl

end Recv

/-! ## Calls -/

/-- A call into DCTCP, or a packet that leaves without one. -/
inductive DctcpCall where
  | recv (pcb : Pcb) (ecn : U8) (hdr : TcpHdr)
  | reduce
  | rto
  /-- A header with these flags is about to leave. -/
  | send (stored : TcphFlags)
  /-- A probe or a reset. -/
  | pass (rst : Bool)

variable {x : DctcpCall}

namespace DctcpCall

def next (d : DctcpParam) : DctcpCall → DctcpParam
  | recv pcb ecn hdr => dctcpRecv { pcb with dctcp := d } ecn hdr
  | reduce => if d.pendingEce then { d with pendingEce := false, pendingCwr := true } else d
  | rto => { d with pendingCwr := true }
  | send f => (dctcpSendEmpty d f).1
  | pass _ => d

def packet (d : DctcpParam) : DctcpCall → Option TcphFlags
  | send f => some (dctcpSendEmpty d f).2
  | pass rst => some { rst := rst, ack := true }
  | _ => none

def after (d : DctcpParam) (l : List DctcpCall) : DctcpParam := l.foldl next d

def packets : DctcpParam → List DctcpCall → List TcphFlags
  | _, [] => []
  | d, x :: l => (packet d x).toList ++ packets (next d x) l

theorem after_append (d : DctcpParam) (l l' : List DctcpCall) :
    after d (l ++ l') = after (after d l) l' := List.foldl_append

theorem packets_append (d : DctcpParam) (l l' : List DctcpCall) :
    packets d (l ++ l') = packets d l ++ packets (after d l) l' := by
  induction l generalizing d with
  | nil => rfl
  | cons x l ih =>
    rw [List.cons_append, packets, packets, ih, List.append_assoc]
    rfl

def IsPass : DctcpCall → Prop
  | pass _ => True
  | _ => False

def IsSend : DctcpCall → Prop
  | send _ => True
  | _ => False

/-- What can follow `dctcp_recv` in the processing of a segment. -/
def IsReply : DctcpCall → Prop
  | reduce | send _ | pass _ => True
  | _ => False

theorem IsPass.isReply (h : x.IsPass) : x.IsReply := by
  cases x <;> trivial

theorem IsSend.isReply (h : x.IsSend) : x.IsReply := by
  cases x <;> trivial

end DctcpCall

def Sent.flags (s : Sent) : TcphFlags := s.pkt.hdr.flags

structure Calls (l : List DctcpCall) (c c' : Conn) : Prop where
  dctcp : c'.pcb.dctcp = DctcpCall.after c.pcb.dctcp l
  sent : c'.sent.map Sent.flags = c.sent.map Sent.flags ++ DctcpCall.packets c.pcb.dctcp l

theorem Calls.trans {l l' : List DctcpCall} {c c' c'' : Conn} (h : Calls l c c')
    (h' : Calls l' c' c'') : Calls (l ++ l') c c'' where
  dctcp := by rw [h'.dctcp, h.dctcp, DctcpCall.after_append]
  sent := by rw [h'.sent, h.sent, h.dctcp, DctcpCall.packets_append, List.append_assoc]

/-- Calls of the kind `K` lead from `c` to `c'`. -/
def MadeCalls (K : DctcpCall → Prop) (c c' : Conn) : Prop := ∃ l, (∀ x ∈ l, K x) ∧ Calls l c c'

variable (env : Env) (n : Nat) (cc : CcAlgo) (d : InData) (c : Conn)

namespace MadeCalls

variable {K K' : DctcpCall → Prop} {c c' c'' : Conn}

theorem none (hd : c'.pcb.dctcp = c.pcb.dctcp) (hs : c'.sent = c.sent) : MadeCalls K c c' :=
  ⟨[], by simp, hd, by rw [hs]; simp [DctcpCall.packets]⟩

theorem refl (c : Conn) : MadeCalls K c c := none rfl rfl

theorem still (h : Still c c') : MadeCalls K c c' := none h.dctcp h.sent

theorem trans (h : MadeCalls K c c') (h' : MadeCalls K c' c'') : MadeCalls K c c'' := by
  obtain ⟨l, hl, hc⟩ := h
  obtain ⟨l', hl', hc'⟩ := h'
  refine ⟨l ++ l', fun x hx => ?_, hc.trans hc'⟩
  rcases List.mem_append.mp hx with hx | hx
  · exact hl x hx
  · exact hl' x hx

theorem mono (h : MadeCalls K c c') (hK : ∀ x, K x → K' x) : MadeCalls K' c c' := by
  obtain ⟨l, hl, hc⟩ := h
  exact ⟨l, fun x hx => hK x (hl x hx), hc⟩

theorem one (hx : K x) (hd : c'.pcb.dctcp = x.next c.pcb.dctcp)
    (hs : c'.sent.map Sent.flags = c.sent.map Sent.flags ++ (x.packet c.pcb.dctcp).toList) :
    MadeCalls K c c' :=
  ⟨[x], fun y hy => by rw [List.mem_singleton.mp hy]; exact hx, hd,
    by simpa [DctcpCall.packets] using hs⟩

end MadeCalls

/-! ## Packets -/

theorem tcpSendEmptyAck_made : MadeCalls DctcpCall.IsSend c (tcpSendEmptyAck env n c) := by
  unfold tcpSendEmptyAck
  split
  · exact MadeCalls.one (x := .send { ack := true }) trivial rfl (by simp; rfl)
  · exact MadeCalls.refl c

theorem tcpKeepalive_made : MadeCalls DctcpCall.IsPass c (tcpKeepalive env n c) := by
  unfold tcpKeepalive
  split
  · exact MadeCalls.one (x := .pass false) trivial rfl (by simp; rfl)
  · exact MadeCalls.refl c

theorem tcpRst_made (seqno ackno : U32) (c : Conn) :
    MadeCalls DctcpCall.IsPass c (tcpRst env n seqno ackno c) := by
  unfold tcpRst
  split
  · exact MadeCalls.one (x := .pass true) trivial rfl (by simp; rfl)
  · exact MadeCalls.refl c

theorem markSegment_flags (pcb : Pcb) (seg : TcpSeg) :
    (markSegment pcb seg).2.flags = (dctcpSendEmpty pcb.dctcp seg.flags).2 := by
  unfold markSegment
  rw [tltOut_seg]
  rfl

theorem beforeSend_made (force : Bool) (n : Nat) (c : Conn) (seg : TcpSeg) (rest : List TcpSeg) :
    MadeCalls DctcpCall.IsSend c (beforeSend env force n c seg rest).1 := by
  have hack : MadeCalls DctcpCall.IsSend c (ackBeforeDummy env n seg
      { c with pcb := c.pcb.takeHead rest (nextSmlSnt force c.pcb seg rest) }) := by
    refine (MadeCalls.none rfl rfl : MadeCalls _ c
      { c with pcb := c.pcb.takeHead rest (nextSmlSnt force c.pcb seg rest) }).trans ?_
    unfold ackBeforeDummy
    split
    · exact tcpSendEmptyAck_made env (n + 1) _
    · exact MadeCalls.refl _
  unfold beforeSend
  simp only
  split
  · exact hack
  · exact hack.trans (MadeCalls.none rfl rfl)

theorem sendHead_made (force : Bool) (n : Nat) (c : Conn) (seg : TcpSeg) (rest : List TcpSeg) :
    MadeCalls DctcpCall.IsSend c (sendHead env force n c seg rest) := by
  refine (beforeSend_made env force n c seg rest).trans ?_
  unfold sendHead
  generalize beforeSend env force n c seg rest = r
  refine MadeCalls.one (x := .send r.2.flags) trivial ?_ ?_
  · simp only
    split
    · rfl
    · rename_i ha
      obtain ⟨q, rfl, -⟩ := afterSend_eq ha
      rfl
  · simp only
    split <;>
    · simp only [List.map_append, List.map_cons, List.map_nil, DctcpCall.packet, Option.toList_some,
        Sent.flags, tcpOutputSegment, segmentPacket, markSegment_flags]

theorem made_sendRel : SendRel (MadeCalls DctcpCall.IsSend) where
  trans := .trans
  still := .still
  ack := tcpSendEmptyAck_made
  segment := sendHead_made

theorem made_passRel : PassRel (MadeCalls DctcpCall.IsPass) where
  trans := .trans
  calm := fun h => .still h.toStill
  rst := tcpRst_made
  probe := tcpKeepalive_made

/-! ## Acknowledgements -/

theorem ackNewData_dctcp (pcb : Pcb) :
    (ackNewData cc d pcb).dctcp = pcb.dctcp ∨
      (ackNewData cc d pcb).dctcp = DctcpCall.reduce.next pcb.dctcp := by
  have hleave : ((leaveRecovery cc pcb).ackVars d.hdr.ackno).dctcp = pcb.dctcp := by
    unfold leaveRecovery
    split <;> rfl
  unfold ackNewData ackNewCwnd
  generalize (leaveRecovery cc pcb).ackVars d.hdr.ackno = q at hleave ⊢
  split
  · right
    rw [← hleave]
    unfold dctcpReduceCwnd DctcpCall.next
    split <;> rfl
  · exact .inl hleave

theorem tcpRexmitFast_dctcp (pcb : Pcb) : (tcpRexmitFast cc pcb).dctcp = pcb.dctcp := by
  unfold tcpRexmitFast
  split
  · exact (tcpRexmit_calm { pcb := pcb }).dctcp
  · rfl

theorem dupAckReact_dctcp (pcb : Pcb) : (dupAckReact cc pcb).dctcp = pcb.dctcp := by
  unfold dupAckReact
  split
  · rfl
  · split
    · exact tcpRexmitFast_dctcp cc pcb
    · rfl

theorem dupAck_dctcp (edge : U32) (d : InData) (pcb : Pcb) :
    (dupAck cc edge d pcb).dctcp = pcb.dctcp := by
  unfold dupAck
  split
  · exact dupAckReact_dctcp cc _
  · rfl

theorem ackClause_made (edge : U32) (persist : Bool) (d : InData) (c : Conn) :
    MadeCalls DctcpCall.IsReply c (ackClause env cc edge persist d c) := by
  unfold ackClause
  split
  · exact MadeCalls.none (dupAck_dctcp cc edge d _) rfl
  split
  · rcases ackNewData_dctcp cc d c.pcb with h | h
    · exact MadeCalls.none h rfl
    · exact MadeCalls.one (x := .reduce) trivial h (by simp [DctcpCall.packet, freeUnacked])
  · have hclear : MadeCalls DctcpCall.IsSend c { c with pcb := c.pcb.clearAcked } :=
      MadeCalls.none rfl rfl
    exact (hclear.trans (tcpSendEmptyAck_made env 0 _)).mono fun _ h => h.isReply

theorem tcpReceiveAck_made : MadeCalls DctcpCall.IsReply c (tcpReceiveAck env cc d c) := by
  unfold tcpReceiveAck
  split
  · have hupdate : MadeCalls DctcpCall.IsReply c { c with pcb := (windowUpdate c.pcb d).1 } :=
      .still (windowUpdate_still c d)
    have hsack := hupdate.trans (.still (freeSacked_still _ d))
    have hrest : ∀ c' : Conn, MadeCalls DctcpCall.IsReply c' { freeUnsent d.hdr.ackno c' with
        pcb := rttEstimate env d.hdr.ackno (freeUnsent d.hdr.ackno c').pcb } := fun c' =>
      .still ((freeUnsent_still c' d.hdr.ackno).trans (rttEstimate_still env _ _))
    exact (hsack.trans (ackClause_made env cc _ _ d _)).trans (hrest _)
  · exact MadeCalls.refl c

/-! ## Text and states -/

theorem tcpReceive_made : MadeCalls DctcpCall.IsReply c (tcpReceive env cc d c).1 :=
  (tcpReceiveAck_made env cc d c).trans ((made_sendRel.tcpReceiveData env d).mono fun _ h => h.isReply)

theorem processSynSent_made : MadeCalls DctcpCall.IsPass c (processSynSent env cc d c) := by
  unfold processSynSent
  split
  · exact MadeCalls.none rfl rfl
  split
  · unfold synSentAck
    split
    · exact MadeCalls.none rfl rfl
    · exact MadeCalls.none rfl rfl
  · split
    · exact tcpRst_made ..
    · exact MadeCalls.refl c

theorem processSynRcvd_made : MadeCalls DctcpCall.IsReply c (processSynRcvd env cc d c).1 := by
  unfold processSynRcvd
  split
  · split
    · have hest : MadeCalls DctcpCall.IsReply c
          { c with pcb := { c.pcb with state := .established } } := MadeCalls.none rfl rfl
      refine (hest.trans (tcpReceive_made env cc d _)).trans ?_
      simp only
      split
      · exact MadeCalls.none rfl rfl
      · exact MadeCalls.none rfl rfl
    · exact (tcpRst_made ..).mono fun _ h => h.isReply
  · split
    · exact .still (tcpRexmit_calm c).toStill
    · exact MadeCalls.refl c

theorem processState_made : MadeCalls DctcpCall.IsReply c (processState env cc d c).1 := by
  unfold processState
  split
  · exact (processSynSent_made env cc d c).mono fun _ h => h.isReply
  · exact processSynRcvd_made env cc d c
  · exact MadeCalls.refl c
  · exact MadeCalls.refl c
  · exact MadeCalls.refl c
  · exact (tcpReceive_made env cc d c).trans (.still (afterReceive_calm _ _ _).toStill)

theorem tcpParseopt_dctcp {env : Env} {m : Nat → U8} {pcb : Pcb} {d : InData} {r : Gathered}
    (h : tcpParseopt env m pcb d = some r) : r.1.dctcp = pcb.dctcp := by
  refine parseoptLoop_inv (I := fun p => p.dctcp = pcb.dctcp) (s := (pcb, [])) ?_ ?_ ?_ ?_ h rfl
  · intro n p hp
    unfold parseMss
    split <;> exact hp
  · intro n p hp
    unfold parseWndScale
    split <;> exact hp
  · intro p hp
    unfold parseSackPerm
    split <;> exact hp
  · intro t p hp
    unfold parseTs
    split <;> split <;> exact hp

theorem tcpProcess_made (m : Nat → U8) (d : InData) (c : Conn) :
    MadeCalls DctcpCall.IsReply c (tcpProcess env cc m d c).1 := by
  unfold tcpProcess
  split
  · split
    · exact MadeCalls.none rfl rfl
    · exact MadeCalls.refl c
  split
  · exact MadeCalls.none rfl rfl
  split
  · exact MadeCalls.none rfl rfl
  · rename_i r hr
    have hopts : MadeCalls DctcpCall.IsReply c { c with pcb := r.1 } :=
      MadeCalls.none (by rw [tcpParseopt_dctcp hr]; rfl) rfl
    exact hopts.trans (processState_made env cc _ _)

/-- **An arriving segment**: `dctcp_recv` comes first, for a pcb in an active state. -/
theorem tcpInput_made (pkt : InPkt) (c : Conn) :
    (pcbInActiveState c.pcb = true →
      MadeCalls DctcpCall.IsReply { c with pcb := c.pcb.marksIn pkt } (tcpInput env cc pkt c).conn) ∧
    (pcbInActiveState c.pcb = false → MadeCalls DctcpCall.IsPass c (tcpInput env cc pkt c).conn) := by
  unfold tcpInput
  refine ⟨fun ha => ?_, fun ha => ?_⟩
  · rw [if_pos ha]
    have hproc := tcpProcess_made env cc pkt.optMem pkt.inData { c with pcb := c.pcb.marksIn pkt }
    simp only
    split
    · exact hproc
    · split
      · exact hproc.trans (.still (tcpPcbRemove_calm _).toStill)
      · exact hproc.trans ((made_passRel.notify env _ _).mono fun _ h => h.isReply)
  · rw [if_neg (by rw [ha]; exact Bool.false_ne_true)]
    split
    · exact made_passRel.tcpTimewaitInput env c pkt.inData
    · exact MadeCalls.refl c

/-! ## Steps -/

def Act.Makes (c : Conn) (l : List DctcpCall) : Act → Prop
  | .output _ => ∀ x ∈ l, x.IsSend
  | .input _ _ pkt =>
    if pcbInActiveState c.pcb then
      ∃ l', l = .recv c.pcb (pkt.tos &&& 3) pkt.hdr :: l' ∧ ∀ x ∈ l', x.IsReply
    else ∀ x ∈ l, x.IsPass
  | .slowRto _ => l = [.rto]
  | _ => ∀ x ∈ l, x.IsPass

structure StepCalls (c : Conn) (a : Act) (l : List DctcpCall) : Prop where
  calls : Calls l c (c.step a)
  makes : if c.fault then l = [] else a.Makes c l

theorem exists_stepCalls (a : Act) : ∃ l, StepCalls c a l := by
  cases hf : c.fault with
  | true =>
    refine ⟨[], ⟨?_, ?_⟩, ?_⟩
    · rw [Conn.step_fault a hf]
      rfl
    · rw [Conn.step_fault a hf]
      simp [DctcpCall.packets]
    · rw [hf]
      rfl
  | false =>
    -- an action whose calls are all of one kind
    have kind {K : DctcpCall → Prop} (hm : MadeCalls K c (c.act a))
        (hk : ∀ l, (∀ x ∈ l, K x) → a.Makes c l) : ∃ l, StepCalls c a l := by
      obtain ⟨l, hl, hc⟩ := hm
      refine ⟨l, ?_, ?_⟩
      · rw [Conn.step_eq a hf]
        exact hc
      · rw [if_neg (by rw [hf]; exact Bool.false_ne_true)]
        exact hk l hl
    have plain (ha : a.isPlain = true) : ∃ l, StepCalls c a l := by
      refine kind (made_passRel.act c ha) fun l h => ?_
      cases a <;> first | exact h | cases ha
    cases a with
    | output env => exact kind (made_sendRel.tcpOutput env hf) fun _ h => h
    | input env cc pkt =>
      cases ha : pcbInActiveState c.pcb with
      | false =>
        refine kind ((tcpInput_made env cc pkt c).2 ha) fun l h => ?_
        rw [Act.Makes, if_neg (by rw [ha]; exact Bool.false_ne_true)]
        exact h
      | true =>
        obtain ⟨l, hl, hc⟩ := (tcpInput_made env cc pkt c).1 ha
        refine ⟨.recv c.pcb (pkt.tos &&& 3) pkt.hdr :: l, ⟨?_, ?_⟩, ?_⟩
        · rw [Conn.step_eq _ hf]
          exact hc.dctcp
        · rw [Conn.step_eq _ hf]
          exact hc.sent
        · rw [if_neg (by rw [hf]; exact Bool.false_ne_true), Act.Makes, if_pos ha]
          exact ⟨l, rfl, hl⟩
    | rexmitFast cc =>
      exact kind (K := DctcpCall.IsPass) (.none (tcpRexmitFast_dctcp cc c.pcb) rfl) fun _ h => h
    | slowRto cc =>
      refine ⟨[.rto], ⟨?_, ?_⟩, ?_⟩
      · rw [Conn.step_eq _ hf]
        rfl
      · rw [Conn.step_eq _ hf]
        simp [DctcpCall.packets, DctcpCall.packet, Conn.act, Conn.slowRto]
      · rw [if_neg (by rw [hf]; exact Bool.false_ne_true)]
        rfl
    | write | recved | rexmit | rexmitRto | close | shutdown | slowTimers | slowChecks =>
      exact plain rfl

inductive RunCalls (c₀ : Conn) : List Act → List DctcpCall → Prop where
  | start : RunCalls c₀ [] []
  | step {acts l l'} (h : RunCalls c₀ acts l) (a : Act) (hs : StepCalls (c₀.run acts) a l') :
    RunCalls c₀ (acts ++ [a]) (l ++ l')

theorem exists_runCalls (c₀ : Conn) (acts : List Act) : ∃ l, RunCalls c₀ acts l := by
  induction acts using List.reverseRecOn with
  | nil => exact ⟨[], .start⟩
  | append_singleton acts a ih =>
    obtain ⟨l, hl⟩ := ih
    obtain ⟨l', hl'⟩ := exists_stepCalls (c₀.run acts) a
    exact ⟨l ++ l', .step hl a hl'⟩

theorem RunCalls.calls {c₀ : Conn} {acts : List Act} {l : List DctcpCall} (h : RunCalls c₀ acts l) :
    Calls l c₀ (c₀.run acts) := by
  induction h with
  | start => exact ⟨rfl, (List.append_nil _).symm⟩
  | step _ a hs ih =>
    rw [Conn.run_append]
    exact ih.trans hs.calls

end LibvmaTlt.Lwip
