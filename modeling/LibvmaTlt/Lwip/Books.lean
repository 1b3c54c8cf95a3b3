import LibvmaTlt.Lwip.CcVars
import LibvmaTlt.Lwip.SndSpec

/-!
# The books of the sender

The fields in which a pcb keeps account of what it has queued and of its retransmissions. Receiving,
announcing and the congestion window leave them alone; the lemmas here say, for every call of the stack
and in every state, which changes of the books it is made of. An invariant of the books is then shown
on those changes alone.
-/

namespace LibvmaTlt.Lwip

/-- The books: the queues, the buffer, what is acknowledged, and the retransmission timer. -/
structure Books where
  unsent : List TcpSeg
  unacked : List TcpSeg
  sndQueuelen : Nat
  sndBuf : U32
  sndNxt : U32
  lastack : U32
  maxSndBuff : Nat
  sa : Int
  sv : Int
  rto : Int
  minrto : Int
  nrtx : Nat
  rtime : Int
  rttest : U32
  rtseq : U32
  active : Bool

def Pcb.books (p : Pcb) : Books where
  unsent := p.unsent
  unacked := p.unacked
  sndQueuelen := p.sndQueuelen
  sndBuf := p.sndBuf
  sndNxt := p.sndNxt
  lastack := p.lastack
  maxSndBuff := p.maxSndBuff
  sa := p.sa
  sv := p.sv
  rto := p.rto
  minrto := p.minrto
  nrtx := p.nrtx
  rtime := p.rtime
  rttest := p.rttest
  rtseq := p.rtseq
  active := pcbInActiveState p

/-- A property of the books that dropping a connection keeps. -/
structure Carried (I : Pcb → Prop) : Prop where
  same : ∀ {p q : Pcb}, I p → q.books = p.books → I q
  dropped : ∀ {p q : Pcb}, I p → q.books = { p.purged.books with active := false } → I q

variable {q p : Pcb}

theorem Pcb.active_congr (h : q.state = p.state) : pcbInActiveState q = pcbInActiveState p := by
  unfold pcbInActiveState
  rw [h]

/-! ## Quiet steps -/

variable (env : Env) (n : Nat) (cc : CcAlgo) (d : InData) (c : Conn)

theorem tcpSendEmptyAck_books : (tcpSendEmptyAck env n c).pcb.books = c.pcb.books := by
  unfold tcpSendEmptyAck
  split <;> rfl

theorem tcpKeepalive_books : (tcpKeepalive env n c).pcb.books = c.pcb.books := by
  unfold tcpKeepalive
  split <;> rfl

theorem tcpRst_books (seqno ackno : U32) (c : Conn) :
    (tcpRst env n seqno ackno c).pcb.books = c.pcb.books := by
  unfold tcpRst
  split <;> rfl

theorem finTaken_active (h : FinTaken p.state q.state) : pcbInActiveState q = pcbInActiveState p := by
  rcases h with h | ⟨h, h'⟩
  · exact Pcb.active_congr h
  · simp [pcbInActiveState, h, h', TcpState.num]

theorem tcpReceiveData_books : (tcpReceiveData env d c).1.pcb.books = c.pcb.books := by
  have hrel : TextRel env fun c c' => c'.pcb.books = c.pcb.books :=
    { refl := fun _ => rfl
      trans := fun h h' => h'.trans h
      text := fun {c p} h => by
        show p.books = c.pcb.books
        unfold Pcb.books
        rw [h.queues, h.snd, h.timer, h.out, finTaken_active h.fin]
      ack := tcpSendEmptyAck_books env
      fault := fun _ => rfl }
  exact hrel.tcpReceiveData d c

theorem tcpReceive_active : pcbInActiveState (tcpReceive env cc d c).1.pcb = pcbInActiveState c.pcb :=
  (finTaken_active (tcpReceiveData_state env d _)).trans
    (Pcb.active_congr (tcpReceiveAck_ackStep env cc d c).state)

/-- The books with the count of duplicate ACKs and the mark of fast recovery. -/
def Pcb.heed (p : Pcb) : Books × Nat × Bool := (p.books, p.dupacks, p.flags.infr)

theorem Pcb.heed_books (h : q.heed = p.heed) : q.books = p.books := congrArg Prod.fst h

/-- What the options of a segment leave alone, also those of a SYN. -/
def Pcb.unread (p : Pcb) : (Books × Nat × Bool) × TcpState × U32 := (p.heed, p.state, p.rcvNxt)

theorem tcpParseopt_unread {env : Env} {d : InData} {m : Nat → U8} {pcb : Pcb} {r : Gathered}
    (h : tcpParseopt env m pcb d = some r) : r.1.unread = pcb.unread := by
  refine parseoptLoop_inv (I := fun p => p.unread = pcb.unread) (s := (pcb, [])) ?_ ?_ ?_ ?_ h rfl
  · intro n p hp
    unfold parseMss
    split <;> exact hp
  · intro n p hp
    unfold parseWndScale
    split <;> exact hp
  · intro p hp
    unfold parseSackPerm
    split <;> exact hp
  · intro t p hp
    unfold parseTs
    split <;> split <;> exact hp

/-! ## Dropping the connection -/

namespace Carried

variable {I : Pcb → Prop} (hk : Carried I) {c : Conn}

include hk

theorem purge (h : I c.pcb) (hq : q.books = { (tcpPcbPurge c).pcb.books with active := false }) :
    I q := by
  unfold tcpPcbPurge at hq
  split at hq
  · rename_i hs
    refine hk.same h (hq.trans ?_)
    have hact : c.pcb.books.active = false := by
      show pcbInActiveState c.pcb = false
      rcases hs with hs | hs | hs <;> simp [pcbInActiveState, hs, TcpState.num]
    rw [← hact]
  · exact hk.dropped h hq

theorem remove (h : I c.pcb) : I (tcpPcbRemove c).pcb := hk.purge h rfl

theorem timeWait (h : I c.pcb) : I (toTimeWait c).pcb := hk.purge h rfl

theorem afterReceive (ha : pcbInActiveState c.pcb = true) (st : TcpState) (d : InData)
    (h : I c.pcb) : I (afterReceive st d c).1.pcb := by
  have hnow : I (tcpAckNow c.pcb) := hk.same h rfl
  have hset (s : TcpState) (hs : pcbInActiveState (c.pcb.setState s) = true) :
      I (c.pcb.setState s) ∧ I ((tcpAckNow c.pcb).setState s) := by
    have hb : (c.pcb.setState s).books = c.pcb.books := by
      unfold Pcb.books
      rw [hs, ha]
      rfl
    exact ⟨hk.same h hb, hk.same h hb⟩
  unfold Lwip.afterReceive
  split
  · simp only
    split
    · exact (hset _ rfl).2
    · exact h
  · simp only
    split
    · exact (hset _ rfl).2
    · exact h
  · simp only
    split
    · split
      · exact hk.timeWait hnow
      · exact (hset _ rfl).2
    · split
      · exact (hset _ rfl).1
      · exact h
  · simp only
    split
    · exact hk.timeWait hnow
    · exact h
  · simp only
    split
    · exact hk.timeWait h
    · exact h
  · exact h
  · exact h

theorem notify (env : Env) (d : InData) (h : I c.pcb) : I (notify env d c).conn.pcb := by
  unfold Lwip.notify
  split
  · unfold tcpAbort
    simp only
    split
    · exact hk.remove h
    · exact hk.same (hk.remove h) (tcpRst_books ..)
  · simp only
    split
    · exact hk.same h rfl
    · exact h

theorem tcpTimewaitInput (env : Env) (d : InData) (h : I c.pcb) :
    I (tcpTimewaitInput env d c).conn.pcb := by
  unfold Lwip.tcpTimewaitInput
  split
  · exact h
  · split
    · exact hk.same h (tcpRst_books ..)
    · simp only
      split <;> split <;> exact hk.same h rfl

end Carried

/-! ## Arriving segments -/

/-- Another copy of the SYN that opened the connection. -/
def DupSyn (pkt : InPkt) (p : Pcb) : Prop :=
  p.state = .synRcvd ∧ pkt.hdr.flags.rst = false ∧ pkt.hdr.flags.ack = false ∧
    pkt.hdr.flags.syn = true ∧ pkt.hdr.seqno = p.rcvNxt - 1

instance (pkt : InPkt) (p : Pcb) : Decidable (DupSyn pkt p) :=
  inferInstanceAs (Decidable (_ ∧ _ ∧ _ ∧ _ ∧ _))

/-- The segment reaches the acknowledgement half of `tcp_receive`. -/
def AckTaken (pkt : InPkt) (p : Pcb) : Prop :=
  pkt.hdr.flags.rst = false ∧ pkt.hdr.flags.ack = true ∧
    (Synchronized p ∧ pkt.hdr.flags.syn = false ∨
      p.state = .synRcvd ∧ TcpSeqBetween pkt.hdr.ackno (p.lastack + 1) p.sndNxt)

instance (pkt : InPkt) (p : Pcb) : Decidable (AckTaken pkt p) :=
  inferInstanceAs (Decidable (_ ∧ _ ∧ (_ ∨ _)))

/-- `q` is what the answer to the SYN `rseg` makes of the books in `SYN_SENT`. -/
structure SynAnswer (pkt : InPkt) (p q : Pcb) (rseg : TcpSeg) (rest : List TcpSeg) : Prop where
  state : p.state = .synSent
  unacked : p.unacked = rseg :: rest
  ackno : pkt.hdr.ackno = rseg.seqno + 1
  books : q.books = { p.books with
    lastack := pkt.hdr.ackno
    unacked := rest
    sndQueuelen := p.sndQueuelen - 1
    rtime := if rest = [] then -1 else 0
    nrtx := if rest = [] then p.nrtx else 0
    rttest := 0 }

/-- What has to be shown of a property for it to be kept by an arriving segment. -/
structure InputKept (env : Env) (cc : CcAlgo) (pkt : InPkt) (c : Conn) (I : Pcb → Prop) : Prop where
  synAnswer : ∀ {q rseg rest}, SynAnswer pkt c.pcb q rseg rest → I q
  dupSyn : DupSyn pkt c.pcb → ∀ {q : Pcb}, q.books = c.pcb.books → I (tcpRexmit q)
  ack : AckTaken pkt c.pcb → ∀ {q : Pcb} sack, q.heed = c.pcb.heed →
    I (tcpReceiveAck env cc { pkt.inData with sack := sack } { c with pcb := q }).pcb

section Input

variable {I : Pcb → Prop} {env : Env} {cc : CcAlgo} {pkt : InPkt} {c : Conn}

theorem processSynSent_kept (hk : Carried I) (hi : InputKept env cc pkt c I) (h : I c.pcb)
    (hst : c.pcb.state = .synSent) (hq : q.books = c.pcb.books) (sack : List TcpSackBlock) :
    I (processSynSent env cc { pkt.inData with sack := sack } { c with pcb := q }).pcb := by
  have hI : I q := hk.same h hq
  unfold processSynSent
  split
  · exact hI
  split
  · rename_i hack
    unfold synSentAck
    cases hu : q.unacked with
    | nil => exact hI
    | cons rseg rest =>
      have hunacked : q.unacked = c.pcb.unacked := congrArg Books.unacked hq
      have hno : pkt.hdr.ackno = rseg.seqno + 1 := by
        have := hack.2.2
        simp only [hu, List.head?_cons, Option.map_some, Option.some.injEq] at this
        exact this.symm
      have hact : c.pcb.books.active = true := by
        show pcbInActiveState c.pcb = true
        simp [pcbInActiveState, hst, TcpState.num]
      refine hi.synAnswer ⟨hst, hunacked.symm.trans hu, hno, ?_⟩
      show { q.books with
          lastack := pkt.hdr.ackno
          unacked := rest
          sndQueuelen := q.books.sndQueuelen - 1
          rtime := if rest = [] then -1 else 0
          nrtx := if rest = [] then q.books.nrtx else 0
          rttest := 0
          active := true } = _
      rw [hq, ← hact]
      rfl
  · split
    · exact hk.same hI (tcpRst_books ..)
    · exact hI

theorem processSynRcvd_kept (hk : Carried I) (hi : InputKept env cc pkt c I) (h : I c.pcb)
    (hst : c.pcb.state = .synRcvd) (hr : pkt.hdr.flags.rst = false) (hq : q.heed = c.pcb.heed)
    (hnxt : q.rcvNxt = c.pcb.rcvNxt) (sack : List TcpSackBlock) :
    I (processSynRcvd env cc { pkt.inData with sack := sack } { c with pcb := q }).1.pcb := by
  have hb : q.books = c.pcb.books := Pcb.heed_books hq
  have hI : I q := hk.same h hb
  have hlast : q.lastack = c.pcb.lastack := congrArg Books.lastack hb
  have hsnd : q.sndNxt = c.pcb.sndNxt := congrArg Books.sndNxt hb
  unfold processSynRcvd
  split
  · rename_i ha
    split
    · rename_i hbt
      have hbt' : TcpSeqBetween pkt.hdr.ackno (c.pcb.lastack + 1) c.pcb.sndNxt := by
        rw [← hlast, ← hsnd]
        exact hbt
      have hest : ({ q with state := .established } : Pcb).heed = c.pcb.heed := by
        have hact : c.pcb.books.active = true := by
          show pcbInActiveState c.pcb = true
          simp [pcbInActiveState, hst, TcpState.num]
        rw [← hq]
        show ({ q.books with active := true }, q.dupacks, q.flags.infr) = _
        rw [hb, ← hact, ← hb]
        rfl
      have hack := hi.ack ⟨hr, ha, .inr ⟨hst, hbt'⟩⟩ sack hest
      have hrec := hk.same hack (tcpReceiveData_books env { pkt.inData with sack := sack } _)
      have hact := tcpReceive_active env cc { pkt.inData with sack := sack }
        { c with pcb := { q with state := .established } }
      simp only
      split
      · refine hk.same hrec ?_
        show { (tcpReceive env cc { pkt.inData with sack := sack }
          { c with pcb := { q with state := .established } }).1.pcb.books with active := true } = _
        rw [show true = pcbInActiveState _ from hact.symm]
        rfl
      · exact hk.same hrec rfl
    · exact hk.same hI (tcpRst_books ..)
  · rename_i ha
    split
    · rename_i hs
      refine hi.dupSyn ⟨hst, hr, Bool.eq_false_of_not_eq_true ha, hs.1, ?_⟩ hb
      rw [← hnxt]
      exact hs.2
    · exact hI

theorem tcpProcess_kept (hk : Carried I) (hi : InputKept env cc pkt c I) (h : I c.pcb)
    (hact : pcbInActiveState c.pcb = true) :
    I (tcpProcess env cc pkt.optMem pkt.inData { c with pcb := c.pcb.marksIn pkt }).1.pcb := by
  have hmarks : I (c.pcb.marksIn pkt) := hk.same h rfl
  unfold tcpProcess
  split
  · split
    · exact hk.same hmarks rfl
    · exact hmarks
  rename_i hr
  have hr : pkt.hdr.flags.rst = false := Bool.eq_false_of_not_eq_true hr
  split
  · exact hk.same hmarks rfl
  rename_i hsyn
  split
  · exact hmarks
  rename_i r hparse
  have hread : r.1.unread = ((c.pcb.marksIn pkt).heard env).unread :=
    tcpParseopt_unread hparse
  have hq : r.1.heed = c.pcb.heed := congrArg Prod.fst hread
  have hst : r.1.state = c.pcb.state := congrArg (fun x => x.2.1) hread
  have hnxt : r.1.rcvNxt = c.pcb.rcvNxt := congrArg (fun x => x.2.2) hread
  have hI : I r.1 := hk.same h (Pcb.heed_books hq)
  have hsync (hs : Synchronized c.pcb) : I (processState env cc
      { pkt.inData with sack := r.2 } { c with pcb := r.1 }).1.pcb := by
    have hs' : Synchronized r.1 := by
      unfold Synchronized
      rw [hst]
      exact hs
    rw [processState_sync hs']
    refine hk.afterReceive ?_ _ _ ?_
    · rw [tcpReceive_active]
      exact (Pcb.active_congr hst).trans hact
    · refine hk.same ?_ (tcpReceiveData_books env { pkt.inData with sack := r.2 } _)
      cases ha : pkt.hdr.flags.ack with
      | false =>
        rw [tcpReceiveAck_noAck ha]
        exact hI
      | true =>
        refine hi.ack ⟨hr, ha, .inl ⟨hs, ?_⟩⟩ r.2 hq
        refine Bool.eq_false_of_not_eq_true fun hsyn' => hsyn ⟨hsyn', ?_, ?_⟩ <;>
          intro he <;> unfold Synchronized at hs <;> rw [show c.pcb.state = _ from he] at hs <;>
          simp [TcpState.num] at hs
  cases hcase : c.pcb.state with
  | synSent =>
    unfold processState
    simp only [hst, hcase]
    exact processSynSent_kept hk hi h hcase (Pcb.heed_books hq) r.2
  | synRcvd =>
    unfold processState
    simp only [hst, hcase]
    exact processSynRcvd_kept hk hi h hcase hr hq hnxt r.2
  | closed | listen | timeWait => simp [pcbInActiveState, hcase, TcpState.num] at hact
  | established | finWait1 | finWait2 | closeWait | closing | lastAck =>
    exact hsync (by unfold Synchronized; rw [hcase]; decide)

/-- **Arriving segments**, in every state: a property of the books is kept if the handshake's steps and
the acknowledgement half of `tcp_receive` keep it. -/
theorem tcpInput_kept (hk : Carried I) (hi : InputKept env cc pkt c I) (h : I c.pcb) :
    I (tcpInput env cc pkt c).conn.pcb := by
  unfold tcpInput
  split
  · rename_i hact
    have hproc := tcpProcess_kept hk hi h hact
    simp only
    split
    · exact hproc
    · split
      · exact hk.remove hproc
      · exact hk.notify env _ hproc
  · split
    · exact hk.tcpTimewaitInput env _ h
    · exact h

end Input

/-! ## Acknowledgements -/

/-- The segment is the duplicate ACK that reaches `LWIP_TCP_DUP_ACK_THRESH`, here the first one, outside
of fast recovery. -/
def DupAtThresh (d : InData) (p : Pcb) : Prop :=
  d.tcplen = 0 ∧ d.hdr.ackno = p.lastack ∧ 0 ≤ p.rtime ∧ p.dupacks + 1 = lwipTcpDupAckThresh ∧
    p.flags.infr = false

instance (d : InData) (p : Pcb) : Decidable (DupAtThresh d p) :=
  inferInstanceAs (Decidable (_ ∧ _ ∧ _ ∧ _ ∧ _))

theorem DupAtThresh.of_heed {d : InData} (h : DupAtThresh d q) (hq : q.heed = p.heed) :
    DupAtThresh d p := by
  have hb := Pcb.heed_books hq
  have hlast : q.lastack = p.lastack := congrArg Books.lastack hb
  have hrtime : q.rtime = p.rtime := congrArg Books.rtime hb
  have hdup : q.dupacks = p.dupacks := congrArg (fun x => x.2.1) hq
  have hinfr : q.flags.infr = p.flags.infr := congrArg (fun x => x.2.2) hq
  unfold DupAtThresh at h ⊢
  rw [hlast, hrtime, hdup, hinfr] at h
  exact h

/-- What has to be shown of a property for it to be kept by the acknowledgement half of `tcp_receive`:
`J` holds once the SACKed segments are gone, `K` from the clause of the ACK on, `I` at the end. -/
structure AckKept (env : Env) (d : InData) (c : Conn) (J K I : Pcb → Prop) : Prop where
  sameJ : ∀ {p q : Pcb}, J p → q.books = p.books → J q
  sameK : ∀ {p q : Pcb}, K p → q.books = p.books → K q
  sacked : ∀ {q : Pcb}, q.books = c.pcb.books → J (freeSacked d { c with pcb := q }).pcb
  idle : ∀ {p}, J p → K p
  rexmit : DupAtThresh d c.pcb → ∀ {p}, J p → K (tcpRexmit p)
  new : AcksNew d.hdr.ackno c.pcb.lastack c.pcb.sndNxt → ∀ {p}, J p → K (p.ackVars d.hdr.ackno)
  freeUnacked : ∀ persist {c' : Conn}, K c'.pcb → K (freeUnacked d.hdr.ackno persist c').pcb
  freeUnsent : ∀ {c' : Conn}, K c'.pcb → K (freeUnsent d.hdr.ackno c').pcb
  rtt : ∀ {p}, K p → I (rttEstimate env d.hdr.ackno p)

theorem windowUpdate_heed (p : Pcb) (d : InData) : (windowUpdate p d).1.heed = p.heed := by
  unfold windowUpdate
  simp only
  split <;> rfl

theorem freeSacked_vars :
    (freeSacked d c).pcb.lastack = c.pcb.lastack ∧ (freeSacked d c).pcb.sndNxt = c.pcb.sndNxt ∧
      (freeSacked d c).pcb.rtime = c.pcb.rtime ∧ (freeSacked d c).pcb.dupacks = c.pcb.dupacks ∧
      (freeSacked d c).pcb.flags = c.pcb.flags := by
  unfold freeSacked
  split <;> exact ⟨rfl, rfl, rfl, rfl, rfl⟩

theorem dupAck_books (edge : U32) (d : InData) (p : Pcb) :
    (dupAck cc edge d p).books = p.books ∨
      DupAtThresh d p ∧ (dupAck cc edge d p).books = (tcpRexmit p).books := by
  unfold dupAck
  split
  · rename_i hdup
    unfold dupAckReact
    split
    · exact .inl rfl
    split
    · rename_i hthresh
      have hcount : p.dupacks + 1 = lwipTcpDupAckThresh := by
        have : nextDupacks p = lwipTcpDupAckThresh := hthresh
        unfold nextDupacks at this
        split at this <;> simp only [lwipTcpDupAckThresh] at this ⊢ <;> omega
      unfold tcpRexmitFast
      split
      · rename_i hfast
        refine .inr ⟨⟨hdup.1, hdup.2.2.2.symm, hdup.2.2.1, hcount, ?_⟩, ?_⟩
        · have hout : (!p.flags.infr) = true := hfast.2
          simpa using hout
        · show (tcpRexmit (p.setDupacks (nextDupacks p))).books = _
          unfold tcpRexmit
          rw [show (p.setDupacks (nextDupacks p)).unacked = p.unacked from rfl]
          split <;> rfl
      · exact .inl rfl
    · exact .inl rfl
  · exact .inl rfl

theorem ackNewData_books (p : Pcb) : (ackNewData cc d p).books = (p.ackVars d.hdr.ackno).books := by
  have hleave : ((leaveRecovery cc p).ackVars d.hdr.ackno).books = (p.ackVars d.hdr.ackno).books := by
    unfold leaveRecovery
    split <;> rfl
  rw [← hleave]
  unfold ackNewData ackNewCwnd
  split
  · unfold dctcpReduceCwnd
    simp only
    split
    · rfl
    · rfl
  · rfl

theorem tcpReceiveAck_kept {J K I : Pcb → Prop} {env : Env} {d : InData} {c : Conn}
    (h : AckKept env d c J K I) (ha : d.hdr.flags.ack = true) :
    I (tcpReceiveAck env cc d c).pcb := by
  have hwin := windowUpdate_heed c.pcb d
  have hJ : J (freeSacked d { c with pcb := (windowUpdate c.pcb d).1 }).pcb :=
    h.sacked (Pcb.heed_books hwin)
  obtain ⟨hlast, hsnd, hrtime, hdup, hfl⟩ := freeSacked_vars d { c with pcb := (windowUpdate c.pcb d).1 }
  have hlast' : (windowUpdate c.pcb d).1.lastack = c.pcb.lastack :=
    congrArg Books.lastack (Pcb.heed_books hwin)
  have hsnd' : (windowUpdate c.pcb d).1.sndNxt = c.pcb.sndNxt :=
    congrArg Books.sndNxt (Pcb.heed_books hwin)
  unfold tcpReceiveAck
  rw [if_pos ha]
  simp only
  generalize freeSacked d { c with pcb := (windowUpdate c.pcb d).1 } = c1
    at hJ hlast hsnd hrtime hdup hfl ⊢
  refine h.rtt (h.freeUnsent ?_)
  unfold ackClause
  split
  · refine h.freeUnacked _ ?_
    rcases dupAck_books cc (c.pcb.sndWnd + c.pcb.sndWl2) d c1.pcb.clearAcked with hb | ⟨hthresh, hb⟩
    · exact h.sameK (h.idle hJ) hb
    refine h.sameK (h.rexmit ?_ (h.sameJ hJ (show c1.pcb.clearAcked.books = _ from rfl))) hb
    have hw : DupAtThresh d (windowUpdate c.pcb d).1 := by
      unfold DupAtThresh at hthresh ⊢
      rw [← hlast, ← hrtime, ← hdup, ← hfl]
      exact hthresh
    exact hw.of_heed hwin
  · rename_i hle
    split
    · rename_i hbt
      refine h.freeUnacked _ (h.sameK (h.new ⟨?_, ?_⟩ hJ) (ackNewData_books cc d c1.pcb))
      · rw [← hlast', ← hlast]
        exact hle
      · rw [← hlast', ← hsnd', ← hlast, ← hsnd]
        exact hbt
    · exact h.sameK (h.idle hJ) (tcpSendEmptyAck_books env 0 { c1 with pcb := c1.pcb.clearAcked })

/-! ## The other calls -/

theorem tcpOutput_kept {I : Pcb → Prop} (hsame : ∀ {p q : Pcb}, I p → q.books = p.books → I q)
    {env : Env} {c : Conn} (hf : c.fault = false) (h : I c.pcb) (hforce : I (forceTransmit env c.pcb).1)
    (hsplit : ∀ wnd n {p : Pcb}, I p → I (splitHead env (forceTransmit env c.pcb).2 wnd n p))
    (hsend : ∀ n {c' : Conn} {seg rest}, I c'.pcb → c'.pcb.unsent = seg :: rest →
      I (sendHead env (forceTransmit env c.pcb).2 n c' seg rest).pcb) :
    I (tcpOutput env c).pcb := by
  unfold tcpOutput
  split
  · exact hsame h (tcpSendEmptyAck_books env 0 c)
  refine hsame (p := (outputLoop env (forceTransmit env c.pcb).2 c.pcb.wnd
    (outputFuel (forceTransmit env c.pcb).1.unsent) 0
    { c with pcb := (forceTransmit env c.pcb).1 }).pcb) ?_ rfl
  refine outputLoop_inv (fun c' => I c'.pcb) ?_ ?_ _ 0 { c with pcb := (forceTransmit env c.pcb).1 }
    hf hforce
  · exact fun n c' h' => hsplit c.pcb.wnd n h'
  · exact fun n c' seg rest h' _ hu _ _ => hsend n h' hu

/-- A close that resets the connection although its pcb stays in `CLOSE_WAIT`. -/
def Pcb.abortsOpen (p : Pcb) : Prop := p.state = .closeWait ∧ p.rcvWnd ≠ p.rcvWndMax

instance (p : Pcb) : Decidable p.abortsOpen := inferInstanceAs (Decidable (_ ∧ _))

section Closing

variable {I : Pcb → Prop} (hk : Carried I) {env : Env} {c : Conn}

include hk

theorem closeFin_kept (ha : pcbInActiveState c.pcb = true) {next : TcpState}
    (hnext : pcbInActiveState (c.pcb.setState next) = true) (hfin : I (tcpSendFin env c.pcb).1) :
    I (closeFin env next c).1.pcb := by
  have hst : (tcpSendFin env c.pcb).1.state = c.pcb.state := by
    rcases tcpSendFin_cases env c.pcb with ⟨_, he, -⟩ | he | ⟨_, _, -, he⟩ <;> rw [he] <;> rfl
  unfold closeFin
  simp only
  split
  · refine hk.same hfin ?_
    show { (tcpSendFin env c.pcb).1.books with active := pcbInActiveState (c.pcb.setState next) } = _
    rw [hnext, ← ha, ← Pcb.active_congr hst]
    rfl
  · exact hfin

theorem tcpCloseShutdown_kept (rst : Bool) (h : I c.pcb) (hfin : I (tcpSendFin env c.pcb).1)
    (habort : c.pcb.abortsOpen → I c.pcb.purged) : I (tcpCloseShutdown env rst c).1.pcb := by
  unfold tcpCloseShutdown
  split
  · rename_i hrst
    have hpcb : (tcpRst env 0 c.pcb.sndNxt c.pcb.rcvNxt c).pcb = c.pcb := by
      unfold tcpRst
      split <;> rfl
    have h1 : I (tcpRst env 0 c.pcb.sndNxt c.pcb.rcvNxt c).pcb := by
      rw [hpcb]
      exact h
    simp only
    split
    · exact hk.purge h1 rfl
    rename_i hne
    have hcw : c.pcb.state = .closeWait := hrst.2.1.resolve_left hne
    have hp : (tcpPcbPurge (tcpRst env 0 c.pcb.sndNxt c.pcb.rcvNxt c)).pcb = c.pcb.purged := by
      unfold tcpPcbPurge
      rw [hpcb, if_neg (by simp [hcw])]
    rw [hp]
    exact habort ⟨hcw, hrst.2.2⟩
  · split
    · exact hk.remove h
    · exact hk.remove h
    iterate 3
      · rename_i hs
        exact closeFin_kept hk (by simp [pcbInActiveState, hs, TcpState.num]) rfl hfin
    · exact h

theorem tcpClose_kept (h : I c.pcb) (hfin : I (tcpSendFin env c.pcb.shutRx).1)
    (habort : c.pcb.abortsOpen → I c.pcb.purged) : I (tcpClose env c).1.pcb :=
  tcpCloseShutdown_kept hk true (hk.same h rfl) hfin fun ha => hk.same (habort ha) rfl

theorem tcpShutdown_kept (rx tx : Bool) (h : I c.pcb) (hfin : I (tcpSendFin env c.pcb).1)
    (hfin' : I (tcpSendFin env c.pcb.shutRx).1) (habort : c.pcb.abortsOpen → I c.pcb.purged) :
    I (tcpShutdown env rx tx c).1.pcb := by
  have h1 : I (if rx then { c with pcb := c.pcb.shutRx } else c).pcb := by
    split
    · exact hk.same h rfl
    · exact h
  have h2 : I (tcpSendFin env (if rx then { c with pcb := c.pcb.shutRx } else c).pcb).1 := by
    split
    · exact hfin'
    · exact hfin
  have h3 : (if rx then { c with pcb := c.pcb.shutRx } else c).pcb.abortsOpen →
      I (if rx then { c with pcb := c.pcb.shutRx } else c).pcb.purged := by
    split
    · exact fun ha => hk.same (habort ha) rfl
    · exact habort
  unfold tcpShutdown
  simp only
  generalize (if rx then { c with pcb := c.pcb.shutRx } else c) = c1 at h1 h2 h3 ⊢
  split
  · exact tcpCloseShutdown_kept hk true h1 h2 h3
  split
  · split
    · exact tcpCloseShutdown_kept hk false h1 h2 h3
    · exact h1
  · exact h1

theorem slowChecks_kept (exhausted : Bool) (h : I c.pcb) : I (slowChecks env exhausted c).1.pcb := by
  have hkeep : I (slowKeepalive env c).pcb := by
    unfold slowKeepalive
    split
    · exact hk.same h (tcpKeepalive_books env 1 c)
    · exact h
  have hooseq : I (slowOoseq env (slowKeepalive env c)).pcb := by
    unfold slowOoseq
    split
    · exact hk.same hkeep rfl
    · exact hkeep
  unfold slowChecks slowFinish
  simp only
  generalize slowOoseq env (slowKeepalive env c) = c1 at hooseq ⊢
  split
  · refine hk.purge hooseq ?_
    split
    · show { (tcpRst env 2 _ _ (tcpPcbPurge c1)).pcb.books with active := false } = _
      rw [tcpRst_books]
    · rfl
  · split <;> exact hk.same hooseq rfl

end Closing

theorem tcpRecved_books (p : Pcb) (len : U32) : (tcpRecved p len).1.books = p.books := by
  unfold tcpRecved
  simp only
  split <;> rfl

end LibvmaTlt.Lwip
