import LibvmaTlt.Lwip.OutputSpec
import LibvmaTlt.Lwip.ParseEnd
import LibvmaTlt.Lwip.Tcp

/-!
# What input processing leaves alone

The two halves of `tcp_receive` work on different parts of the pcb: acknowledgements on the sender's
variables and queues, text on the receiver's. `SndStep` and `RcvStep` say so; only an empty ACK, which
either half can send, touches the marks.
-/

namespace LibvmaTlt.Lwip

/-! ## Acknowledgements -/

structure SndStep (p p' : Pcb) : Prop where
  rcv : p'.toRcvVars = p.toRcvVars
  state : p'.state = p.state
  flags : p'.flags = { p.flags with infr := p'.flags.infr }
  tos : p'.tos = p.tos
  tlt : p'.tlt = p.tlt
  iss : p'.iss = p.iss
  nextSeg : p'.nextSeg = p.nextSeg
  sndNxt : p'.sndNxt = p.sndNxt
  sndLbb : p'.sndLbb = p.sndLbb
  annEdge : p'.rcvAnnRightEdge = p.rcvAnnRightEdge
  segs : ∀ s, s ∈ p'.unsent ∨ s ∈ p'.unacked → s ∈ p.unsent ∨ s ∈ p.unacked

namespace SndStep

theorem refl (p : Pcb) : SndStep p p := ⟨rfl, rfl, rfl, rfl, rfl, rfl, rfl, rfl, rfl, rfl, fun _ => id⟩

theorem trans {p q r : Pcb} (h : SndStep p q) (h' : SndStep q r) : SndStep p r where
  rcv := h'.rcv.trans h.rcv
  state := h'.state.trans h.state
  flags := by rw [h'.flags, h.flags]
  tos := h'.tos.trans h.tos
  tlt := h'.tlt.trans h.tlt
  iss := h'.iss.trans h.iss
  nextSeg := h'.nextSeg.trans h.nextSeg
  sndNxt := h'.sndNxt.trans h.sndNxt
  sndLbb := h'.sndLbb.trans h.sndLbb
  annEdge := h'.annEdge.trans h.annEdge
  segs s hs := h.segs s (h'.segs s hs)

theorem rxclosed {p p' : Pcb} (h : SndStep p p') : p'.flags.rxclosed = p.flags.rxclosed := by
  rw [h.flags]

end SndStep

theorem windowUpdate_snd (pcb : Pcb) (d : InData) : SndStep pcb (windowUpdate pcb d).1 := by
  unfold windowUpdate
  simp only
  split <;> exact ⟨rfl, rfl, rfl, rfl, rfl, rfl, rfl, rfl, rfl, rfl, fun _ => id⟩

variable (env : Env) (ackno : U32) (cc : CcAlgo) (d : InData) (c : Conn)

theorem freeSacked_snd : SndStep c.pcb (freeSacked d c).pcb := by
  unfold freeSacked
  split
  · exact ⟨rfl, rfl, rfl, rfl, rfl, rfl, rfl, rfl, rfl, rfl,
      fun _ hs => hs.imp id fun h => (List.mem_filter.mp h).1⟩
  · exact .refl _

theorem tcpRexmit_snd (pcb : Pcb) : SndStep pcb (tcpRexmit pcb) := by
  unfold tcpRexmit
  split
  · exact .refl _
  rename_i seg rest hu
  refine ⟨rfl, rfl, rfl, rfl, rfl, rfl, rfl, rfl, rfl, rfl, ?_⟩
  rintro s (hs | hs)
  · rcases mem_insertSorted.mp hs with rfl | hs
    · exact .inr (by rw [hu]; exact List.mem_cons_self)
    · exact .inl hs
  · exact .inr (by rw [hu]; exact List.mem_cons_of_mem _ hs)

theorem setCwnd_snd (pcb : Pcb) (r : U32 × U32) : SndStep pcb (pcb.setCwnd r) :=
  ⟨rfl, rfl, rfl, rfl, rfl, rfl, rfl, rfl, rfl, rfl, fun _ => id⟩

theorem setInfr_snd (pcb : Pcb) (b : Bool) : SndStep pcb (pcb.setInfr b) :=
  ⟨rfl, rfl, rfl, rfl, rfl, rfl, rfl, rfl, rfl, rfl, fun _ => id⟩

theorem tcpRexmitFast_snd (pcb : Pcb) : SndStep pcb (tcpRexmitFast cc pcb) := by
  unfold tcpRexmitFast
  split
  · exact (tcpRexmit_snd pcb).trans ((setCwnd_snd _ _).trans (setInfr_snd _ _))
  · exact .refl _

theorem setDupacks_snd (pcb : Pcb) (n : Nat) : SndStep pcb (pcb.setDupacks n) :=
  ⟨rfl, rfl, rfl, rfl, rfl, rfl, rfl, rfl, rfl, rfl, fun _ => id⟩

theorem dupAckReact_snd (pcb : Pcb) : SndStep pcb (dupAckReact cc pcb) := by
  unfold dupAckReact
  split
  · exact setCwnd_snd _ _
  · split
    · exact (tcpRexmitFast_snd cc pcb).trans (setCwnd_snd _ _)
    · exact .refl _

theorem dupAck_snd (edge : U32) (d : InData) (pcb : Pcb) : SndStep pcb (dupAck cc edge d pcb) := by
  unfold dupAck
  split
  · exact (setDupacks_snd _ _).trans (dupAckReact_snd cc _)
  · exact setDupacks_snd _ _

theorem dctcpReduceCwnd_eq (pcb : Pcb) :
    ∃ w d, (dctcpReduceCwnd pcb).1 = { pcb with cwnd := w, dctcp := d } := by
  unfold dctcpReduceCwnd
  split
  · exact ⟨_, _, rfl⟩
  · exact ⟨pcb.cwnd, pcb.dctcp, rfl⟩

theorem dctcpReduceCwnd_snd (pcb : Pcb) : SndStep pcb (dctcpReduceCwnd pcb).1 := by
  obtain ⟨w, d, he⟩ := dctcpReduceCwnd_eq pcb
  rw [he]
  exact ⟨rfl, rfl, rfl, rfl, rfl, rfl, rfl, rfl, rfl, rfl, fun _ => id⟩

theorem ackNewCwnd_snd (pcb : Pcb) : SndStep pcb (ackNewCwnd cc pcb) := by
  unfold ackNewCwnd
  split
  · simp only
    split
    · exact dctcpReduceCwnd_snd pcb
    · exact (dctcpReduceCwnd_snd pcb).trans (setCwnd_snd _ _)
  · exact .refl _

theorem leaveRecovery_snd (pcb : Pcb) : SndStep pcb (leaveRecovery cc pcb) := by
  unfold leaveRecovery
  split
  · exact (setCwnd_snd _ _).trans (setInfr_snd _ _)
  · exact .refl _

theorem ackVars_snd (pcb : Pcb) (ackno : U32) : SndStep pcb (pcb.ackVars ackno) :=
  ⟨rfl, rfl, rfl, rfl, rfl, rfl, rfl, rfl, rfl, rfl, fun _ => id⟩

theorem ackNewData_snd (pcb : Pcb) : SndStep pcb (ackNewData cc d pcb) :=
  (leaveRecovery_snd cc pcb).trans ((ackVars_snd _ _).trans (ackNewCwnd_snd cc _))

theorem clearAcked_snd (pcb : Pcb) : SndStep pcb pcb.clearAcked :=
  ⟨rfl, rfl, rfl, rfl, rfl, rfl, rfl, rfl, rfl, rfl, fun _ => id⟩

theorem freeUnacked_snd (persist : Bool) (c : Conn) : SndStep c.pcb (freeUnacked ackno persist c).pcb :=
  ⟨rfl, rfl, rfl, rfl, rfl, rfl, rfl, rfl, rfl, rfl,
    fun _ hs => hs.imp id (List.dropWhile_sublist _).mem⟩

theorem freeUnsent_snd : SndStep c.pcb (freeUnsent ackno c).pcb :=
  ⟨rfl, rfl, rfl, rfl, rfl, rfl, rfl, rfl, rfl, rfl,
    fun _ hs => hs.imp (List.dropWhile_sublist _).mem id⟩

theorem rttEstimate_snd (pcb : Pcb) : SndStep pcb (rttEstimate env ackno pcb) := by
  unfold rttEstimate
  split
  · exact ⟨rfl, rfl, rfl, rfl, rfl, rfl, rfl, rfl, rfl, rfl, fun _ => id⟩
  · exact .refl _

theorem tcpReceiveAck_noAck {env : Env} {cc : CcAlgo} {d : InData} {c : Conn}
    (ha : d.hdr.flags.ack = false) : tcpReceiveAck env cc d c = c := by
  rw [tcpReceiveAck, ha]
  rfl

theorem freeSacked_same : (freeSacked d c).sent = c.sent ∧ (freeSacked d c).fault = c.fault := by
  unfold freeSacked
  split <;> exact ⟨rfl, rfl⟩

/-- A relation that holds across steps of the sender and empty ACKs. -/
structure AckRel (env : Env) (R : Conn → Conn → Prop) : Prop where
  trans : ∀ {c c' c''}, R c c' → R c' c'' → R c c''
  snd : ∀ {c c' : Conn}, SndStep c.pcb c'.pcb → c'.sent = c.sent → c'.fault = c.fault → R c c'
  ack : ∀ n c, R c (tcpSendEmptyAck env n c)

namespace AckRel

variable {env : Env} {R : Conn → Conn → Prop}

theorem ackClause (h : AckRel env R) (cc : CcAlgo) (edge : U32) (persist : Bool) (d : InData) (c : Conn) :
    R c (ackClause env cc edge persist d c) := by
  unfold Lwip.ackClause
  split
  · exact h.snd ((clearAcked_snd _).trans ((dupAck_snd cc edge d _).trans
      (freeUnacked_snd d.hdr.ackno persist { c with pcb := dupAck cc edge d c.pcb.clearAcked }))) rfl rfl
  split
  · exact h.snd ((ackNewData_snd cc d _).trans
      (freeUnacked_snd d.hdr.ackno persist { c with pcb := ackNewData cc d c.pcb })) rfl rfl
  · have h1 : R c { c with pcb := c.pcb.clearAcked } := h.snd (clearAcked_snd _) rfl rfl
    exact h.trans h1 (h.ack 0 _)

/-- **Acknowledgements are the sender's business**: such a relation holds across the half of `tcp_receive`
that takes them. -/
theorem tcpReceiveAck (h : AckRel env R) (cc : CcAlgo) (d : InData) (c : Conn) :
    R c (tcpReceiveAck env cc d c) := by
  unfold Lwip.tcpReceiveAck
  split
  · obtain ⟨hs, hf⟩ := freeSacked_same d { c with pcb := (windowUpdate c.pcb d).1 }
    have h1 : R c (freeSacked d { c with pcb := (windowUpdate c.pcb d).1 }) :=
      h.snd ((windowUpdate_snd c.pcb d).trans
        (freeSacked_snd d { c with pcb := (windowUpdate c.pcb d).1 })) hs hf
    have h2 := h.ackClause cc (c.pcb.sndWnd + c.pcb.sndWl2) (windowUpdate c.pcb d).2 d
      (freeSacked d { c with pcb := (windowUpdate c.pcb d).1 })
    refine h.trans (h.trans h1 h2) (h.snd ((freeUnsent_snd d.hdr.ackno _).trans ?_) rfl rfl)
    exact rttEstimate_snd env d.hdr.ackno _
  · exact h.snd (.refl _) rfl rfl

end AckRel

/-! ## Text -/

structure RcvStep (p p' : Pcb) : Prop where
  snd : p'.toSndVars = p.toSndVars
  timer : p'.toTimerVars = p.toTimerVars
  out : p'.toOutVars = p.toOutVars
  queues : p'.toSndQueues = { p.toSndQueues with nextSeg := p'.nextSeg }
  tos : p'.tos = p.tos
  timestamp : p'.flags.timestamp = p.flags.timestamp
  rxclosed : p'.flags.rxclosed = p.flags.rxclosed

namespace RcvStep

theorem refl (p : Pcb) : RcvStep p p := ⟨rfl, rfl, rfl, rfl, rfl, rfl, rfl⟩

theorem trans {p q r : Pcb} (h : RcvStep p q) (h' : RcvStep q r) : RcvStep p r where
  snd := h'.snd.trans h.snd
  timer := h'.timer.trans h.timer
  out := h'.out.trans h.out
  queues := by rw [h'.queues, h.queues]
  tos := h'.tos.trans h.tos
  timestamp := h'.timestamp.trans h.timestamp
  rxclosed := h'.rxclosed.trans h.rxclosed

variable {p p' : Pcb}

theorem unsent (h : RcvStep p p') : p'.unsent = p.unsent := by rw [h.queues]

theorem unacked (h : RcvStep p p') : p'.unacked = p.unacked := by rw [h.queues]

end RcvStep

/-- The state after text: a FIN closes the direction of the peer. -/
def FinTaken (s s' : TcpState) : Prop := s' = s ∨ (s = .established ∧ s' = .closeWait)

theorem FinTaken.trans {s s' s'' : TcpState} (h : FinTaken s s') (h' : FinTaken s' s'') :
    FinTaken s s'' := by
  rcases h with rfl | ⟨rfl, rfl⟩
  · exact h'
  · rcases h' with rfl | ⟨h', -⟩
    · exact .inr ⟨rfl, rfl⟩
    · cases h'

structure TextStep (p p' : Pcb) : Prop extends RcvStep p p' where
  infr : p'.flags.infr = p.flags.infr
  fin : FinTaken p.state p'.state

theorem TextStep.refl (p : Pcb) : TextStep p p := ⟨.refl p, rfl, .inl rfl⟩

theorem TextStep.trans {p q r : Pcb} (h : TextStep p q) (h' : TextStep q r) : TextStep p r :=
  ⟨h.toRcvStep.trans h'.toRcvStep, h'.infr.trans h.infr, h.fin.trans h'.fin⟩

theorem tcpAckNow_text (pcb : Pcb) : TextStep pcb (tcpAckNow pcb) :=
  ⟨⟨rfl, rfl, rfl, rfl, rfl, rfl, rfl⟩, rfl, .inl rfl⟩

theorem advance_text (pcb : Pcb) (n : Nat) : TextStep pcb (advance pcb n) :=
  ⟨⟨rfl, rfl, rfl, rfl, rfl, rfl, rfl⟩, rfl, .inl rfl⟩

theorem dequeueLoop_text (l : List TcpSeg) : ∀ pcb d, TextStep pcb (dequeueLoop l pcb d).1 := by
  induction l with
  | nil => exact fun pcb d => ⟨⟨rfl, rfl, rfl, rfl, rfl, rfl, rfl⟩, rfl, .inl rfl⟩
  | cons s rest ih =>
    intro pcb d
    simp only [dequeueLoop]
    split
    · refine ((advance_text pcb s.tcplen).trans ?_).trans (ih _ _)
      split
      · rename_i h
        exact ⟨⟨rfl, rfl, rfl, rfl, rfl, rfl, rfl⟩, rfl, .inr ⟨h.2, rfl⟩⟩
      · exact .refl _
    · exact ⟨⟨rfl, rfl, rfl, rfl, rfl, rfl, rfl⟩, rfl, .inl rfl⟩

theorem sackCleanup_text (pcb : Pcb) : TextStep pcb (sackCleanup pcb) := by
  unfold sackCleanup
  split
  · exact ⟨⟨rfl, rfl, rfl, rfl, rfl, rfl, rfl⟩, rfl, .inl rfl⟩
  · exact .refl _

theorem receiveInseq_text (pcb : Pcb) (d : InData) : TextStep pcb (receiveInseq pcb d).1 :=
  (advance_text pcb _).trans
    ((dequeueLoop_text _ _ _).trans ((sackCleanup_text _).trans (tcpAckNow_text _)))

theorem oosInsert_text (pcb : Pcb) : TextStep pcb (oosInsert env d pcb) := by
  unfold oosInsert
  split
  · exact ⟨⟨rfl, rfl, rfl, rfl, rfl, rfl, rfl⟩, rfl, .inl rfl⟩
  · exact .refl _

/-- A relation that holds across steps of the receiver, empty ACKs and faults. -/
structure TextRel (env : Env) (R : Conn → Conn → Prop) : Prop where
  refl : ∀ c, R c c
  trans : ∀ {c c' c''}, R c c' → R c' c'' → R c c''
  text : ∀ {c : Conn} {p : Pcb}, TextStep c.pcb p → R c { c with pcb := p }
  ack : ∀ n c, R c (tcpSendEmptyAck env n c)
  fault : ∀ c, R c { c with fault := true }

namespace TextRel

variable {env : Env} {R : Conn → Conn → Prop}

theorem receiveOos (h : TextRel env R) (d : InData) (c : Conn) : R c (receiveOos env d c) := by
  unfold Lwip.receiveOos
  simp only
  split
  · exact h.fault c
  · have hins : R c { c with
        pcb := (oosInsert env d c.pcb).setSackBlocks (newSackBlocks (oosInsert env d c.pcb)) } :=
      h.text ((oosInsert_text env d c.pcb).trans ⟨⟨rfl, rfl, rfl, rfl, rfl, rfl, rfl⟩, rfl, .inl rfl⟩)
    exact h.trans hins (h.ack 1 _)

/-- **Text is the receiver's business**: such a relation holds across the half of `tcp_receive` that
takes it. -/
theorem tcpReceiveData (h : TextRel env R) (d : InData) (c : Conn) :
    R c (tcpReceiveData env d c).1 := by
  unfold Lwip.tcpReceiveData
  split
  · simp only
    generalize (if needsTrim c.pcb.rcvNxt d then trimFirstEdge c.pcb.rcvNxt d else d) = d'
    generalize (!decide (needsTrim c.pcb.rcvNxt d) && decide (TcpSeqLt d.seqno c.pcb.rcvNxt)) = late
    have h1 : R c (if late = true then { c with pcb := tcpAckNow c.pcb } else c) := by
      split
      · exact h.text (tcpAckNow_text c.pcb)
      · exact h.refl c
    generalize (if late = true then { c with pcb := tcpAckNow c.pcb } else c) = c1 at h1 ⊢
    split
    · split
      · exact h.trans h1 (h.text (receiveInseq_text _ _))
      · exact h.trans h1 (h.receiveOos d' c1)
    · exact h.trans h1 (h.ack 1 c1)
  · exact h.refl c

end TextRel

/-! ## Options and states -/

def Pcb.setTsRecent (pcb : Pcb) (t : U32) : Pcb := { pcb with tsRecent := t }

variable {pcb : Pcb}

section NoSyn

variable {env : Env} {d : InData} (hs : d.hdr.flags.syn = false)

include hs

theorem parseMss_noSyn (mss : Nat) (pcb : Pcb) : parseMss d mss pcb = pcb := by
  simp [parseMss, hs]

theorem parseWndScale_noSyn (shift : Nat) (pcb : Pcb) : parseWndScale env d shift pcb = pcb := by
  simp [parseWndScale, hs]

theorem parseTs_noSyn (tsval : U32) (pcb : Pcb) : ∃ t, parseTs d tsval pcb = pcb.setTsRecent t := by
  simp only [parseTs, hs, Bool.false_eq_true, if_false]
  split
  · exact ⟨tsval, rfl⟩
  · exact ⟨pcb.tsRecent, rfl⟩

theorem tcpParseopt_noSyn {m : Nat → U8} {r : Pcb × List TcpSackBlock}
    (h : tcpParseopt env m pcb d = some r) : ∃ t, r.1 = pcb.setTsRecent t := by
  refine parseoptLoop_inv (I := fun p => ∃ t, p = pcb.setTsRecent t) (s := (pcb, []))
    (fun n p hp => ?_) (fun n p hp => ?_) (fun p hp => ?_) (fun t p hp => ?_) h ⟨pcb.tsRecent, rfl⟩
  · rwa [parseMss_noSyn hs]
  · rwa [parseWndScale_noSyn hs]
  · rwa [parseSackPerm, hs]
  · obtain ⟨t₁, rfl⟩ := hp
    exact parseTs_noSyn hs t (pcb.setTsRecent t₁)

end NoSyn

/-- The states from `ESTABLISHED` to `LAST_ACK`. -/
def Synchronized (pcb : Pcb) : Prop :=
  TcpState.num .established ≤ pcb.state.num ∧ pcb.state.num < TcpState.num .timeWait

instance (pcb : Pcb) : Decidable (Synchronized pcb) := inferInstanceAs (Decidable (_ ∧ _))

theorem Synchronized.active (h : Synchronized pcb) : pcbInActiveState pcb = true := by
  have h2 : TcpState.num .listen < pcb.state.num := Nat.lt_of_lt_of_le (by decide) h.1
  simp only [pcbInActiveState, h2, h.2, decide_true, Bool.and_self]

theorem processState_sync {env : Env} {cc : CcAlgo} {d : InData} {c : Conn}
    (h : Synchronized c.pcb) :
    processState env cc d c =
      afterReceive c.pcb.state (tcpReceive env cc d c).2 (tcpReceive env cc d c).1 := by
  unfold Synchronized at h
  unfold processState
  cases hs : c.pcb.state <;> rw [hs] at h <;> simp_all [TcpState.num]

theorem tcpProcess_cases (m : Nat → U8) (d : InData) {c : Conn} (h : Synchronized c.pcb) :
    (d.hdr.flags.rst = true ∧ rstAcceptable d c.pcb = true ∧
      tcpProcess env cc m d c = ({ c with pcb := c.pcb.clearDelay }, { d with reset := true })) ∨
    (d.hdr.flags.rst = true ∧ tcpProcess env cc m d c = (c, d)) ∨
    (d.hdr.flags.rst = false ∧ d.hdr.flags.syn = true ∧
      tcpProcess env cc m d c = ({ c with pcb := tcpAckNow c.pcb }, d)) ∨
    (d.hdr.flags.rst = false ∧ d.hdr.flags.syn = false ∧ tcpParseopt env m (c.pcb.heard env) d = none ∧
      tcpProcess env cc m d c = ({ c with fault := true }, d)) ∨
    ∃ t sack, d.hdr.flags.rst = false ∧ d.hdr.flags.syn = false ∧
      tcpParseopt env m (c.pcb.heard env) d = some ((c.pcb.heard env).setTsRecent t, sack) ∧
      tcpProcess env cc m d c =
        afterReceive c.pcb.state
          (tcpReceive env cc { d with sack := sack }
            { c with pcb := (c.pcb.heard env).setTsRecent t }).2
          (tcpReceive env cc { d with sack := sack }
            { c with pcb := (c.pcb.heard env).setTsRecent t }).1 := by
  have hne : c.pcb.state ≠ .synSent ∧ c.pcb.state ≠ .synRcvd := by
    unfold Synchronized at h
    constructor <;> intro he <;> rw [he] at h <;> simp [TcpState.num] at h
  unfold tcpProcess
  cases hr : d.hdr.flags.rst with
  | true =>
    simp only [if_true]
    split
    · rename_i ha
      exact .inl ⟨trivial, ha, rfl⟩
    · exact .inr (.inl ⟨trivial, rfl⟩)
  | false =>
    cases hs : d.hdr.flags.syn with
    | true =>
      refine .inr (.inr (.inl ⟨rfl, rfl, ?_⟩))
      simp [hne.1, hne.2]
    | false =>
      simp only [Bool.false_eq_true, if_false, false_and]
      cases hp : tcpParseopt env m (c.pcb.heard env) d with
      | none => exact .inr (.inr (.inr (.inl ⟨trivial, trivial, rfl, rfl⟩)))
      | some r =>
        obtain ⟨t, ht⟩ := tcpParseopt_noSyn hs hp
        obtain ⟨p, sack⟩ := r
        cases ht
        refine .inr (.inr (.inr (.inr ⟨t, sack, trivial, trivial, rfl, ?_⟩)))
        exact processState_sync h

end LibvmaTlt.Lwip
