import LibvmaTlt.Lwip.RecvSpec

/-!
# What the sender holds

`SndCore` is what the sender has queued and the state of its retransmission timer. A call that does not
touch it is `Silent`: it sends no segment either. `tcpInput_core` says what an incoming segment does to
it: nothing, drop everything, or the moves of `Pcb.ackCore`.
-/

namespace LibvmaTlt.Lwip

structure SndCore where
  unsent : List TcpSeg
  lastUnsent : Option Nat
  unacked : List TcpSeg
  lastUnacked : Option Nat
  unsentOversize : Nat
  sndNxt : U32
  sndLbb : U32
  lastack : U32
  rtime : Int

def Pcb.sndCore (pcb : Pcb) : SndCore where
  unsent := pcb.unsent
  lastUnsent := pcb.lastUnsent
  unacked := pcb.unacked
  lastUnacked := pcb.lastUnacked
  unsentOversize := pcb.unsentOversize
  sndNxt := pcb.sndNxt
  sndLbb := pcb.sndLbb
  lastack := pcb.lastack
  rtime := pcb.rtime

/-! ## Silent steps -/

/-- The sender holds what it held, and no segment was sent. -/
structure Silent (c c' : Conn) : Prop where
  core : c'.pcb.sndCore = c.pcb.sndCore
  sent : ∃ l, c'.sent = c.sent ++ l ∧ ∀ s ∈ l, s.seg = none

variable (env : Env) (n : Nat) (cc : CcAlgo) (edge : U32) (d : InData) (c : Conn)

namespace Silent

theorem refl : Silent c c := ⟨rfl, [], (List.append_nil _).symm, by simp⟩

theorem trans {c c' c'' : Conn} (h : Silent c c') (h' : Silent c' c'') : Silent c c'' := by
  obtain ⟨l, hl, hn⟩ := h.sent
  obtain ⟨l', hl', hn'⟩ := h'.sent
  refine ⟨h'.core.trans h.core, l ++ l', by rw [hl', hl, List.append_assoc], fun s hs => ?_⟩
  rcases List.mem_append.mp hs with hs | hs
  · exact hn s hs
  · exact hn' s hs

theorem of_core {c c' : Conn} (h : c'.pcb.sndCore = c.pcb.sndCore) (hs : c'.sent = c.sent) :
    Silent c c' := ⟨h, [], by rw [hs, List.append_nil], by simp⟩

theorem send {c c' : Conn} {x : Sent} (h : c'.pcb.sndCore = c.pcb.sndCore)
    (hs : c'.sent = c.sent ++ [x]) (hx : x.seg = none) : Silent c c' := by
  refine ⟨h, [x], hs, fun s hm => ?_⟩
  rw [List.mem_singleton.mp hm]
  exact hx

theorem of_rcv {c c' : Conn} (h : RcvStep c.pcb c'.pcb) (hs : c'.sent = c.sent) : Silent c c' := by
  refine of_core ?_ hs
  unfold Pcb.sndCore
  rw [h.queues, h.out, h.snd]

end Silent

theorem tcpSendEmptyAck_silent : Silent c (tcpSendEmptyAck env n c) := by
  unfold tcpSendEmptyAck
  split
  · exact .send rfl rfl rfl
  · exact .refl c

theorem tcpKeepalive_silent : Silent c (tcpKeepalive env n c) := by
  unfold tcpKeepalive
  split
  · exact .send rfl rfl rfl
  · exact .refl c

theorem tcpRst_silent (seqno ackno : U32) (c : Conn) : Silent c (tcpRst env n seqno ackno c) := by
  unfold tcpRst
  split
  · exact .send rfl rfl rfl
  · exact .refl c

theorem tcpReceiveData_silent : Silent c (tcpReceiveData env d c).1 :=
  TextRel.tcpReceiveData
    ⟨.refl, .trans, fun h => .of_rcv h.toRcvStep rfl, tcpSendEmptyAck_silent env,
      fun _ => .of_core rfl rfl⟩ d c

/-! ## Moves of the queues -/

namespace SndCore

/-- The segments that the SACK blocks cover leave `unacked`. -/
def dropSacked (sack : List TcpSackBlock) (q : SndCore) : SndCore :=
  { q with unacked := q.unacked.filter fun s => !sacked sack s }

/-- The first segment of `unacked` goes back to `unsent`. -/
def rexmit (q : SndCore) : SndCore :=
  match q.unacked with
  | [] => q
  | seg :: rest =>
    { q with
      unacked := rest
      unsent := insertSorted seg q.unsent
      unsentOversize :=
        if ((insertSorted seg q.unsent).getLast?.map TcpSeg.addr) = some seg.addr then 0
        else q.unsentOversize }

/-- The segments up to `ackno` leave the head of `unacked`; the timer stops or starts again. -/
def ackTo (ackno : U32) (q : SndCore) : SndCore :=
  { q with
    unacked := q.unacked.dropWhile fun s => TcpSeqLeq s.seqEnd ackno
    rtime := if q.unacked.dropWhile (fun s => TcpSeqLeq s.seqEnd ackno) = [] then -1 else 0 }

/-- The segments up to `ackno` leave the head of `unacked`, and `lastack` moves up to it. -/
def ackNew (ackno : U32) (q : SndCore) : SndCore := { q.ackTo ackno with lastack := ackno }

def dropUnsent (ackno : U32) (q : SndCore) : SndCore :=
  { q with
    unsent := q.unsent.dropWhile fun s => TcpSeqBetween ackno s.seqEnd q.sndNxt
    unsentOversize :=
      if q.unsent.takeWhile (fun s => TcpSeqBetween ackno s.seqEnd q.sndNxt) ≠ [] ∧
          q.unsent.dropWhile (fun s => TcpSeqBetween ackno s.seqEnd q.sndNxt) = [] then 0
      else q.unsentOversize }

def requeue (q : SndCore) : SndCore :=
  if q.unacked = [] then q else { q with unsent := q.unacked ++ q.unsent, unacked := [] }

def purged (q : SndCore) : SndCore :=
  { q with unsent := [], unacked := [], unsentOversize := 0, rtime := -1 }

end SndCore

/-- What an acknowledgement leaves of the queues; `rex` says that its duplicates made the stack
retransmit. -/
def Pcb.ackCore (pcb : Pcb) (d : InData) (rex : Bool) : SndCore :=
  let q := if pcb.sackPermitted then pcb.sndCore.dropSacked d.sack else pcb.sndCore
  let q :=
    if TcpSeqLeq d.hdr.ackno pcb.lastack then (if rex then q.rexmit else q).ackTo d.hdr.ackno
    else if TcpSeqBetween d.hdr.ackno (pcb.lastack + 1) pcb.sndNxt then q.ackNew d.hdr.ackno
    else q
  q.dropUnsent d.hdr.ackno

theorem ackCore_inv {I : SndCore → Prop} {pcb : Pcb} {d : InData}
    (hsack : ∀ q, I q → I (q.dropSacked d.sack)) (hrex : ∀ q, I q → I q.rexmit)
    (hack : ∀ q, I q → I (q.ackTo d.hdr.ackno)) (hnew : ∀ q, I q → I (q.ackNew d.hdr.ackno))
    (hunsent : ∀ q, I q → I (q.dropUnsent d.hdr.ackno))
    (h : I pcb.sndCore) (rex : Bool) : I (pcb.ackCore d rex) := by
  unfold Pcb.ackCore
  simp only
  apply hunsent
  have h1 : I (if pcb.sackPermitted then pcb.sndCore.dropSacked d.sack else pcb.sndCore) := by
    split
    · exact hsack _ h
    · exact h
  generalize (if pcb.sackPermitted then pcb.sndCore.dropSacked d.sack else pcb.sndCore) = q at h1
  split
  · apply hack
    cases rex with
    | true => exact hrex q h1
    | false => exact h1
  · split
    · exact hnew q h1
    · exact h1

theorem tcpRexmit_core (pcb : Pcb) : (tcpRexmit pcb).sndCore = pcb.sndCore.rexmit := by
  unfold tcpRexmit SndCore.rexmit
  cases h : pcb.unacked with
  | nil | cons => simp [Pcb.sndCore, h]

theorem tcpRexmitFast_core (pcb : Pcb) :
    ∃ rex : Bool, (tcpRexmitFast cc pcb).sndCore = if rex then pcb.sndCore.rexmit else pcb.sndCore := by
  unfold tcpRexmitFast
  split
  · exact ⟨true, tcpRexmit_core pcb⟩
  · exact ⟨false, rfl⟩

theorem dupAck_core (pcb : Pcb) :
    ∃ rex : Bool, (dupAck cc edge d pcb).sndCore = if rex then pcb.sndCore.rexmit else pcb.sndCore := by
  unfold dupAck
  split
  · unfold dupAckReact
    split
    · exact ⟨false, rfl⟩
    · split
      · exact tcpRexmitFast_core cc (pcb.setDupacks (nextDupacks pcb))
      · exact ⟨false, rfl⟩
  · exact ⟨false, rfl⟩

theorem ackNewData_core (pcb : Pcb) :
    (ackNewData cc d pcb).sndCore = { pcb.sndCore with lastack := d.hdr.ackno } := by
  have hrec : (leaveRecovery cc pcb).sndCore = pcb.sndCore := by
    unfold leaveRecovery
    split <;> rfl
  have hcwnd (p : Pcb) : (ackNewCwnd cc p).sndCore = p.sndCore := by
    obtain ⟨w, d, he⟩ := dctcpReduceCwnd_eq p
    unfold ackNewCwnd
    split
    · simp only [he]
      split <;> rfl
    · rfl
  refine (hcwnd _).trans ?_
  rw [← hrec]
  rfl

theorem rttEstimate_core (ackno : U32) (pcb : Pcb) :
    (rttEstimate env ackno pcb).sndCore = pcb.sndCore := by
  unfold rttEstimate
  split <;> rfl

theorem windowUpdate_core (pcb : Pcb) (d : InData) :
    (windowUpdate pcb d).1.sndCore = pcb.sndCore ∧ (windowUpdate pcb d).1.lastack = pcb.lastack ∧
      (windowUpdate pcb d).1.sackPermitted = pcb.sackPermitted := by
  unfold windowUpdate
  simp only
  split <;> exact ⟨rfl, rfl, rfl⟩

theorem freeSacked_core :
    (freeSacked d c).pcb.sndCore =
        (if c.pcb.sackPermitted then c.pcb.sndCore.dropSacked d.sack else c.pcb.sndCore) ∧
      (freeSacked d c).pcb.lastack = c.pcb.lastack ∧ (freeSacked d c).sent = c.sent := by
  unfold freeSacked
  split <;> exact ⟨rfl, rfl, rfl⟩

theorem ackClause_core (persist : Bool) (d : InData) (c : Conn) :
    ∃ rex : Bool, (ackClause env cc edge persist d c).pcb.sndCore =
      if TcpSeqLeq d.hdr.ackno c.pcb.lastack then
        (if rex then c.pcb.sndCore.rexmit else c.pcb.sndCore).ackTo d.hdr.ackno
      else if TcpSeqBetween d.hdr.ackno (c.pcb.lastack + 1) c.pcb.sndNxt then
        c.pcb.sndCore.ackNew d.hdr.ackno
      else c.pcb.sndCore := by
  unfold ackClause
  split
  · obtain ⟨rex, hr⟩ := dupAck_core cc edge d c.pcb.clearAcked
    refine ⟨rex, ?_⟩
    show (dupAck cc edge d c.pcb.clearAcked).sndCore.ackTo d.hdr.ackno = _
    rw [hr]
    rfl
  · split
    · refine ⟨false, ?_⟩
      show (ackNewData cc d c.pcb).sndCore.ackTo d.hdr.ackno = _
      rw [ackNewData_core]
      rfl
    · exact ⟨false, (tcpSendEmptyAck_silent env 0 { c with pcb := c.pcb.clearAcked }).core⟩

theorem ackClause_sent (persist : Bool) (d : InData) (c : Conn) :
    ∃ l, (ackClause env cc edge persist d c).sent = c.sent ++ l ∧ ∀ s ∈ l, s.seg = none := by
  unfold ackClause
  split
  · exact ⟨[], (List.append_nil _).symm, by simp⟩
  · split
    · exact ⟨[], (List.append_nil _).symm, by simp⟩
    · exact (tcpSendEmptyAck_silent env 0 { c with pcb := c.pcb.clearAcked }).sent

theorem tcpReceiveAck_core {d : InData} (hack : d.hdr.flags.ack = true) :
    (∃ rex, (tcpReceiveAck env cc d c).pcb.sndCore = c.pcb.ackCore d rex) ∧
      ∃ l, (tcpReceiveAck env cc d c).sent = c.sent ++ l ∧ ∀ s ∈ l, s.seg = none := by
  unfold tcpReceiveAck
  rw [if_pos hack]
  simp only
  obtain ⟨hw, hwl, hws⟩ := windowUpdate_core c.pcb d
  obtain ⟨hf, hfl, hfs⟩ := freeSacked_core d { c with pcb := (windowUpdate c.pcb d).1 }
  generalize freeSacked d { c with pcb := (windowUpdate c.pcb d).1 } = c1 at hf hfl hfs ⊢
  obtain ⟨rex, hr⟩ := ackClause_core env cc (c.pcb.sndWnd + c.pcb.sndWl2) (windowUpdate c.pcb d).2 d c1
  obtain ⟨l, hl, hn⟩ :=
    ackClause_sent env cc (c.pcb.sndWnd + c.pcb.sndWl2) (windowUpdate c.pcb d).2 d c1
  have hnxt : c1.pcb.sndNxt = c.pcb.sndNxt := by
    rw [show c1.pcb.sndNxt = c1.pcb.sndCore.sndNxt from rfl, hf]
    simp only [hw]
    split <;> rfl
  refine ⟨⟨rex, ?_⟩, l, ?_, hn⟩
  · rw [rttEstimate_core]
    show (ackClause _ _ _ _ _ _).pcb.sndCore.dropUnsent d.hdr.ackno = _
    rw [hr, hf, hfl, hnxt]
    simp only [hw, hwl, hws]
    rfl
  · show (ackClause _ _ _ _ _ _).sent = _
    rw [hl, hfs]

/-! ## Incoming segments -/

theorem ackCore_purged (pcb : Pcb) (d : InData) (rex : Bool) :
    ∃ a, (pcb.ackCore d rex).purged = { pcb.sndCore.purged with lastack := a } := by
  refine ackCore_inv (I := fun q => ∃ a, q.purged = { pcb.sndCore.purged with lastack := a })
    ?_ ?_ ?_ ?_ ?_ ⟨pcb.lastack, rfl⟩ rex
  · exact fun q h => h
  · intro q h
    unfold SndCore.rexmit
    split <;> exact h
  · exact fun q h => h
  · rintro q ⟨a, h⟩
    refine ⟨d.hdr.ackno, ?_⟩
    rw [show (q.ackNew d.hdr.ackno).purged = { q.purged with lastack := d.hdr.ackno } from rfl, h]
  · exact fun q h => h

theorem tcpPcbPurge_core :
    (tcpPcbPurge c).pcb.sndCore = c.pcb.sndCore ∨
      (tcpPcbPurge c).pcb.sndCore = c.pcb.sndCore.purged := by
  unfold tcpPcbPurge
  split
  · exact .inl rfl
  · exact .inr rfl

theorem tcpPcbPurge_same : (tcpPcbPurge c).sent = c.sent ∧ (tcpPcbPurge c).pcb.state = c.pcb.state := by
  unfold tcpPcbPurge
  split <;> exact ⟨rfl, rfl⟩

/-- The states in which data and a FIN can still be queued. -/
def Writable (s : TcpState) : Prop := s = .established ∨ s = .closeWait

instance (s : TcpState) : Decidable (Writable s) := inferInstanceAs (Decidable (_ ∨ _))

def Done (s : TcpState) : Prop := s = .timeWait ∨ s = .closed

instance (s : TcpState) : Decidable (Done s) := inferInstanceAs (Decidable (_ ∨ _))

theorem Done.not_writable {s : TcpState} (h : Done s) : ¬Writable s := by
  rcases h with rfl | rfl <;> decide

theorem Synchronized.not_done {pcb : Pcb} (h : Synchronized pcb) : ¬Done pcb.state := by
  unfold Synchronized at h
  rintro (hd | hd) <;> rw [hd] at h <;> simp [TcpState.num] at h

theorem tcpReceiveData_state : FinTaken c.pcb.state (tcpReceiveData env d c).1.pcb.state := by
  have hrel : TextRel env fun c c' => FinTaken c.pcb.state c'.pcb.state :=
    ⟨fun _ => .inl rfl, .trans, fun h => h.fin,
      fun n c => .inl (tcpSendEmptyAck_ackStep env n c).state, fun _ => .inl rfl⟩
  exact hrel.tcpReceiveData d c

/-- The sender holds what it held, or dropped everything at the end of the connection. -/
def KeptOrDropped (c c' : Conn) : Prop :=
  c'.pcb.sndCore = c.pcb.sndCore ∨ (c'.pcb.sndCore = c.pcb.sndCore.purged ∧ Done c'.pcb.state)

theorem toTimeWait_kept : KeptOrDropped c (toTimeWait c) :=
  (tcpPcbPurge_core c).imp id fun h => ⟨h, .inl rfl⟩

theorem afterReceive_core (state : TcpState) (d : InData) (c : Conn) :
    (afterReceive state d c).1.sent = c.sent ∧
      (Writable (afterReceive state d c).1.pcb.state → Writable state ∨ Writable c.pcb.state) ∧
      KeptOrDropped c (afterReceive state d c).1 := by
  have hwait (c : Conn) : (toTimeWait c).sent = c.sent ∧
      (Writable (toTimeWait c).pcb.state → Writable state ∨ Writable c.pcb.state) ∧
      KeptOrDropped c (toTimeWait c) := by
    exact ⟨(tcpPcbPurge_same c).1, fun h => absurd (show Writable .timeWait from h) (by decide),
      toTimeWait_kept c⟩
  have hsame : c.sent = c.sent ∧ (Writable c.pcb.state → Writable state ∨ Writable c.pcb.state) ∧
      KeptOrDropped c c := ⟨rfl, .inr, .inl rfl⟩
  unfold afterReceive
  cases state with
  | established =>
    simp only
    split
    · exact ⟨rfl, fun _ => .inl (.inl rfl), .inl rfl⟩
    · exact hsame
  | closeWait =>
    simp only
    split
    · exact ⟨rfl, fun h => .inl h, .inl rfl⟩
    · exact hsame
  | finWait1 =>
    simp only
    split
    · split
      · exact hwait { c with pcb := tcpAckNow c.pcb }
      · exact ⟨rfl, fun h => absurd (show Writable .closing from h) (by decide), .inl rfl⟩
    · split
      · exact ⟨rfl, fun h => absurd (show Writable .finWait2 from h) (by decide), .inl rfl⟩
      · exact hsame
  | finWait2 =>
    simp only
    split
    · exact hwait { c with pcb := tcpAckNow c.pcb }
    · exact hsame
  | closing =>
    simp only
    split
    · exact hwait c
    · exact hsame
  | lastAck | closed | listen | synSent | synRcvd | timeWait => exact hsame

structure InputCore (env : Env) (pkt : InPkt) (c c' : Conn) : Prop where
  sent : ∃ l, c'.sent = c.sent ++ l ∧ ∀ s ∈ l, s.seg = none
  writable : Writable c'.pcb.state → Writable c.pcb.state
  core : c'.pcb.sndCore = c.pcb.sndCore ∨
    ((∃ a, c'.pcb.sndCore = { c.pcb.sndCore.purged with lastack := a }) ∧ Done c'.pcb.state) ∨
    ∃ p sack rex, pkt.hdr.flags.ack = true ∧
      tcpParseopt env pkt.optMem ((c.pcb.marksIn pkt).heard env) pkt.inData = some (p, sack) ∧
      c'.pcb.sndCore = c.pcb.ackCore { pkt.inData with sack := sack } rex

namespace InputCore

variable {env : Env} {pkt : InPkt} {c c' c'' : Conn}

theorem of_silent (h : Silent c c') (hw : Writable c'.pcb.state → Writable c.pcb.state) :
    InputCore env pkt c c' := ⟨h.sent, hw, .inl h.core⟩

theorem andThen (h : InputCore env pkt c c') (hsent : ∃ l, c''.sent = c'.sent ++ l ∧ ∀ s ∈ l, s.seg = none)
    (hw : Writable c''.pcb.state → Writable c.pcb.state) (hd : Done c'.pcb.state → Done c''.pcb.state)
    (hcore : KeptOrDropped c' c'') : InputCore env pkt c c'' := by
  obtain ⟨l, hl, hn⟩ := h.sent
  obtain ⟨l', hl', hn'⟩ := hsent
  refine ⟨⟨l ++ l', by rw [hl', hl, List.append_assoc], fun s hs => ?_⟩, hw, ?_⟩
  · rcases List.mem_append.mp hs with hs | hs
    · exact hn s hs
    · exact hn' s hs
  · rcases hcore with he | ⟨he, hdone⟩
    · rw [he]
      exact h.core.imp id (.imp (.imp id hd) id)
    refine .inr (.inl ⟨?_, hdone⟩)
    rw [he]
    rcases h.core with hc | ⟨⟨a, hc⟩, -⟩ | ⟨p, sack, rex, -, -, hc⟩
    · exact ⟨c.pcb.lastack, by rw [hc]; rfl⟩
    · exact ⟨a, by rw [hc]; rfl⟩
    · rw [hc]
      exact ackCore_purged _ _ _

theorem remove (h : InputCore env pkt c c') : InputCore env pkt c (tcpPcbRemove c') :=
  h.andThen ⟨[], by rw [List.append_nil]; exact (tcpPcbPurge_same c').1, by simp⟩
    (fun hw => absurd (show Writable .closed from hw) (by decide)) (fun _ => .inr rfl)
    ((tcpPcbPurge_core c').imp id fun h => ⟨h, .inr rfl⟩)

end InputCore

theorem tcpProcess_core (pkt : InPkt) {c : Conn} (hs : Synchronized c.pcb) :
    InputCore env pkt c
      (tcpProcess env cc pkt.optMem pkt.inData { c with pcb := c.pcb.marksIn pkt }).1 := by
  have hs' : Synchronized (c.pcb.marksIn pkt) := hs
  rcases @tcpProcess_cases env cc pkt.optMem pkt.inData { c with pcb := c.pcb.marksIn pkt } hs' with
    ⟨-, -, he⟩ | ⟨-, he⟩ | ⟨-, -, he⟩ | ⟨-, -, -, he⟩ | ⟨t, sack, -, -, hparse, he⟩ <;> rw [he]
  · exact .of_silent (.of_core rfl rfl) id
  · exact .of_silent (.of_core rfl rfl) id
  · exact .of_silent (.of_core rfl rfl) id
  · exact .of_silent (.of_core rfl rfl) id
  · generalize hc0 : ({ c with pcb := ((c.pcb.marksIn pkt).heard env).setTsRecent t } : Conn) = c0
    have h0 : Silent c c0 := by rw [← hc0]; exact .of_core rfl rfl
    have hst0 : c0.pcb.state = c.pcb.state := by rw [← hc0]; rfl
    -- the acknowledgement
    have h1 : InputCore env pkt c (tcpReceiveAck env cc { pkt.inData with sack := sack } c0) := by
      have hst := (tcpReceiveAck_ackStep env cc { pkt.inData with sack := sack } c0).state
      by_cases hack : pkt.hdr.flags.ack = true
      · obtain ⟨⟨rex, hcore⟩, l, hl, hn⟩ :=
          @tcpReceiveAck_core env cc c0 { pkt.inData with sack := sack } hack
        refine ⟨⟨l, ?_, hn⟩, by rw [hst, hst0]; exact id, .inr (.inr ⟨_, sack, rex, hack, hparse, ?_⟩)⟩
        · rw [hl, ← hc0]
        · rw [hcore, ← hc0]
          rfl
      · have hno : tcpReceiveAck env cc { pkt.inData with sack := sack } c0 = c0 := if_neg hack
        rw [hno]
        exact .of_silent h0 (by rw [hst0]; exact id)
    -- the text, and what follows it
    have hst1 := (tcpReceiveAck_ackStep env cc { pkt.inData with sack := sack } c0).state
    have hd := tcpReceiveData_silent env { pkt.inData with sack := sack }
      (tcpReceiveAck env cc { pkt.inData with sack := sack } c0)
    have hds := tcpReceiveData_state env { pkt.inData with sack := sack }
      (tcpReceiveAck env cc { pkt.inData with sack := sack } c0)
    have hnd := hs.not_done
    rw [hst1, hst0] at hds
    rw [← hst0, ← hst1] at hnd
    have hnd2 : ¬Done (tcpReceiveData env { pkt.inData with sack := sack }
        (tcpReceiveAck env cc { pkt.inData with sack := sack } c0)).1.pcb.state := by
      rcases hds with hds | ⟨-, hds⟩
      · rw [hds, ← hst0, ← hst1]; exact hnd
      · rw [hds]; decide
    have hdw : Writable (tcpReceiveData env { pkt.inData with sack := sack }
        (tcpReceiveAck env cc { pkt.inData with sack := sack } c0)).1.pcb.state → Writable c.pcb.state := by
      rcases hds with hds | ⟨hds, -⟩
      · rw [hds]; exact id
      · exact fun _ => .inl hds
    have h2 := h1.andThen hd.sent hdw (fun h => absurd h hnd) (.inl hd.core)
    obtain ⟨ha, hw, hc⟩ := afterReceive_core c.pcb.state
      (tcpReceive env cc { pkt.inData with sack := sack } c0).2
      (tcpReceive env cc { pkt.inData with sack := sack } c0).1
    exact h2.andThen ⟨[], by rw [List.append_nil]; exact ha, by simp⟩
      (fun h => (hw h).elim id hdw) (fun h => absurd h hnd2) hc

theorem tcpInput_core (pkt : InPkt) {c : Conn} (hs : Synchronized c.pcb) :
    InputCore env pkt c (tcpInput env cc pkt c).conn := by
  have h := tcpProcess_core env cc pkt hs
  unfold tcpInput
  rw [if_pos hs.active]
  simp only
  generalize tcpProcess env cc pkt.optMem pkt.inData { c with pcb := c.pcb.marksIn pkt } = r at h ⊢
  split
  · exact h
  split
  · exact h.remove
  unfold notify
  split
  · simp only [tcpAbort]
    split
    · exact h.remove
    have hr := tcpRst_silent env 2 r.1.pcb.sndNxt r.1.pcb.rcvNxt (tcpPcbRemove r.1)
    have hst : (tcpRst env 2 r.1.pcb.sndNxt r.1.pcb.rcvNxt (tcpPcbRemove r.1)).pcb.state = .closed := by
      unfold tcpRst
      split <;> rfl
    exact h.remove.andThen hr.sent (fun hw => absurd (hst ▸ hw) (by decide)) (fun _ => .inr hst)
      (.inl hr.core)
  · refine h.andThen ⟨[], (List.append_nil _).symm, by simp⟩ ?_ ?_ (.inl ?_)
    · split <;> exact h.writable
    · split <;> exact id
    · split <;> rfl

/-! ## Upkeep -/

/-- The actions that neither queue nor send a segment, incoming segments apart. -/
def Act.isUpkeep : Act → Bool
  | .recved .. | .rexmit | .rexmitRto | .rexmitFast .. | .slowTimers .. | .slowRto .. | .slowChecks .. =>
    true
  | _ => false

/-- What upkeep does to the sender, up to the retransmission timer. -/
structure Upkeep (c c' : Conn) : Prop where
  sent : ∃ l, c'.sent = c.sent ++ l ∧ ∀ s ∈ l, s.seg = none
  state : c'.pcb.state = c.pcb.state ∨ Done c'.pcb.state
  core : ∃ q, c'.pcb.sndCore = { q with rtime := c'.pcb.rtime } ∧
    (q = c.pcb.sndCore ∨ q = c.pcb.sndCore.rexmit ∨ q = c.pcb.sndCore.requeue ∨
      (q = c.pcb.sndCore.purged ∧ Done c'.pcb.state))

namespace Upkeep

variable {c c' : Conn}

theorem of_silent (h : Silent c c') (hst : c'.pcb.state = c.pcb.state) : Upkeep c c' :=
  ⟨h.sent, .inl hst, _, rfl, .inl h.core⟩

theorem of_queues (hs : c'.sent = c.sent) (hst : c'.pcb.state = c.pcb.state) {r : Int}
    (h : c'.pcb.sndCore = { c.pcb.sndCore with rtime := r }) : Upkeep c c' := by
  refine ⟨⟨[], by rw [hs, List.append_nil], by simp⟩, .inl hst, c.pcb.sndCore, ?_, .inl rfl⟩
  have hr : c'.pcb.rtime = r := congrArg SndCore.rtime h
  rw [hr, h]

end Upkeep

theorem tcpRexmitRtoRequeue_core (pcb : Pcb) :
    (tcpRexmitRtoRequeue pcb).sndCore = pcb.sndCore.requeue := by
  unfold tcpRexmitRtoRequeue SndCore.requeue
  by_cases h : pcb.unacked = []
  · rw [if_pos h, if_pos (show pcb.sndCore.unacked = [] from h)]
  · rw [if_neg h, if_neg (show ¬pcb.sndCore.unacked = [] from h)]
    rfl

theorem slowTimers_upkeep : Upkeep c (slowTimers env c) := by
  unfold slowTimers
  split
  · split
    · have h := tcpKeepalive_silent env 0 { c with pcb := c.pcb.persistNext }
      refine .of_silent ⟨h.core, h.sent⟩ ?_
      unfold tcpKeepalive
      split <;> rfl
    · exact .of_queues rfl rfl rfl
  · exact .of_queues rfl rfl rfl

theorem slowChecks_upkeep (exhausted : Bool) (c : Conn) : Upkeep c (slowChecks env exhausted c).1 := by
  have hk : Silent c (slowKeepalive env c) ∧ (slowKeepalive env c).pcb.state = c.pcb.state := by
    unfold slowKeepalive
    split
    · refine ⟨(tcpKeepalive_silent env 1 c).trans (.of_core rfl rfl), ?_⟩
      show (tcpKeepalive env 1 c).pcb.state = c.pcb.state
      unfold tcpKeepalive
      split <;> rfl
    · exact ⟨.refl c, rfl⟩
  have ho : Silent c (slowOoseq env (slowKeepalive env c)) ∧
      (slowOoseq env (slowKeepalive env c)).pcb.state = c.pcb.state := by
    unfold slowOoseq
    split
    · exact ⟨hk.1.trans (.of_core rfl rfl), hk.2⟩
    · exact hk
  unfold slowChecks slowFinish
  simp only
  generalize slowOoseq env (slowKeepalive env c) = c2 at ho ⊢
  obtain ⟨hsil, hst⟩ := ho
  split
  · -- the pcb is removed
    have hp : KeptOrDropped c { tcpPcbPurge c2 with pcb := (tcpPcbPurge c2).pcb.setState .closed } := by
      rcases tcpPcbPurge_core c2 with h | h
      · exact .inl (h.trans hsil.core)
      · exact .inr ⟨h.trans (congrArg SndCore.purged hsil.core), .inr rfl⟩
    have hq {c' : Conn} (hs : Silent (tcpPcbPurge c2) c') :
        Upkeep c { c' with pcb := c'.pcb.setState .closed } := by
      obtain ⟨l, hl, hn⟩ := hsil.sent
      obtain ⟨l', hl', hn'⟩ := hs.sent
      refine ⟨⟨l ++ l', ?_, fun s hm => ?_⟩, .inr (.inr rfl), (c'.pcb.setState .closed).sndCore, rfl, ?_⟩
      · show c'.sent = _
        rw [hl', (tcpPcbPurge_same c2).1, hl, List.append_assoc]
      · rcases List.mem_append.mp hm with hm | hm
        · exact hn s hm
        · exact hn' s hm
      · have hcore : (c'.pcb.setState .closed).sndCore = (tcpPcbPurge c2).pcb.sndCore := hs.core
        rw [hcore]
        rcases hp with h | ⟨h, -⟩
        · exact .inl h
        · exact .inr (.inr (.inr ⟨h, .inr rfl⟩))
    split
    · exact hq (tcpRst_silent env 2 _ _ _)
    · exact hq (.refl _)
  · split
    · exact .of_silent ⟨hsil.core, hsil.sent⟩ hst
    · exact .of_silent ⟨hsil.core, hsil.sent⟩ hst

theorem act_upkeep {a : Act} (h : a.isUpkeep = true) : Upkeep c (c.act a) := by
  have hnone : ∃ l : List Sent, c.sent = c.sent ++ l ∧ ∀ s ∈ l, s.seg = none :=
    ⟨[], (List.append_nil _).symm, by simp⟩
  cases a with
  | recved len =>
    refine .of_queues rfl ?_ ?_ (r := c.pcb.rtime)
    · show (tcpRecved c.pcb len).1.state = _
      unfold tcpRecved
      simp only
      split <;> rfl
    · show (tcpRecved c.pcb len).1.sndCore = _
      unfold tcpRecved
      simp only
      split <;> rfl
  | rexmit =>
    refine ⟨hnone, .inl ?_, _, rfl, .inr (.inl (tcpRexmit_core c.pcb))⟩
    show (tcpRexmit c.pcb).state = _
    unfold tcpRexmit
    split <;> rfl
  | rexmitRto =>
    refine ⟨hnone, .inl ?_, _, rfl, .inr (.inr (.inl (tcpRexmitRtoRequeue_core c.pcb)))⟩
    show (tcpRexmitRtoRequeue c.pcb).state = _
    unfold tcpRexmitRtoRequeue
    split <;> rfl
  | rexmitFast cc =>
    obtain ⟨rex, hr⟩ := tcpRexmitFast_core cc c.pcb
    refine ⟨hnone, .inl ?_, (tcpRexmitFast cc c.pcb).sndCore, rfl, ?_⟩
    · show (tcpRexmitFast cc c.pcb).state = _
      unfold tcpRexmitFast tcpRexmit
      split
      · split <;> rfl
      · rfl
    · show (tcpRexmitFast cc c.pcb).sndCore = _ ∨ _
      rw [hr]
      cases rex with
      | true => exact .inr (.inl rfl)
      | false => exact .inl rfl
  | slowTimers env => exact slowTimers_upkeep env c
  | slowRto cc => exact .of_queues rfl rfl rfl
  | slowChecks env exhausted => exact slowChecks_upkeep env exhausted c
  | write | output | input | close | shutdown => cases h

end LibvmaTlt.Lwip
