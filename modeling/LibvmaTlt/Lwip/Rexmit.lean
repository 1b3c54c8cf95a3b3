import LibvmaTlt.Lwip.Books
import LibvmaTlt.Lwip.Stall

/-!
# The retransmission timer

Runs of whole calls, the slow timer among them. The count of retransmissions is compared for equality
with its limit, and in the timer only: it stays within the limit as long as no segment makes the stack
retransmit at the limit. Past the limit the timer reads `tcp_backoff` behind its end, which is a fault.
The timeout stays within the 16 bits of `rtime` as long as the round trips measured are short enough for
the backoff.
-/

namespace LibvmaTlt.Lwip

/-! ## Calls -/

/-- The action is a call of its own, not a part of the slow timer or of input processing. -/
def Act.isEntry : Act → Bool
  | .rexmit | .rexmitRto | .rexmitFast _ | .slowTimers _ | .slowRto _ | .slowChecks .. => false
  | _ => true

/-- A call into the stack: an action, or the slow timer as a whole. -/
inductive Call where
  | act (a : Act)
  | slowtmr (env env' : Env) (cc : CcAlgo)

/-- The effect of a call; a connection whose call went wrong stays as it is. -/
def Conn.call (c : Conn) : Call → Conn
  | .act a => c.step a
  | .slowtmr env env' cc => if c.fault then c else tcpSlowtmr env env' cc c

/-! ## What sending leaves alone -/

structure RtoVars where
  sa : Int
  sv : Int
  rto : Int
  minrto : Int
  nrtx : Nat

def Pcb.rtoVars (p : Pcb) : RtoVars := ⟨p.sa, p.sv, p.rto, p.minrto, p.nrtx⟩

/-- `q` has the timeout of `p`, and `rtime` runs as it did or has been started or stopped. -/
structure Started (p q : Pcb) : Prop where
  vars : q.rtoVars = p.rtoVars
  rtime : q.rtime = p.rtime ∨ q.rtime ≤ 0

variable {p q : Pcb}

namespace Started

theorem refl (p : Pcb) : Started p p := ⟨rfl, .inl rfl⟩

theorem trans {r : Pcb} (h : Started p q) (h' : Started q r) : Started p r := by
  refine ⟨h'.vars.trans h.vars, ?_⟩
  rcases h'.rtime with he | he
  · rw [he]
    exact h.rtime
  · exact .inr he

theorem of_books {r : Pcb} (h : Started p q) (hr : r.books = q.books) : Started p r := by
  have hvars : r.rtoVars = q.rtoVars :=
    congrArg (fun b : Books => (⟨b.sa, b.sv, b.rto, b.minrto, b.nrtx⟩ : RtoVars)) hr
  exact h.trans ⟨hvars, .inl (congrArg Books.rtime hr)⟩

theorem purged (p : Pcb) : Started p p.purged := ⟨rfl, .inr (by decide : (-1 : Int) ≤ 0)⟩

theorem kept (p : Pcb) : Carried (Started p) where
  same := of_books
  dropped := fun {q r} h hr => by
    have hvars : r.rtoVars = q.rtoVars :=
      congrArg (fun b : Books => (⟨b.sa, b.sv, b.rto, b.minrto, b.nrtx⟩ : RtoVars)) hr
    have hrtime : r.rtime = -1 := congrArg Books.rtime hr
    exact h.trans ⟨hvars, .inr (by omega)⟩

end Started

variable (env env' : Env) (cc : CcAlgo) {S : Int}

theorem splitHead_started (force : Bool) (wnd : U32) (n : Nat) (p : Pcb) :
    Started p (splitHead env force wnd n p) := by
  rcases splitHead_unsent env force wnd n p with he | ⟨seg, rest, s, -, -, -, -, -, -, he⟩ <;> rw [he]
  · exact .refl p
  · exact ⟨rfl, .inl rfl⟩

theorem forceTransmit_started (p : Pcb) : Started p (forceTransmit env p).1 := by
  rcases forceTransmit_cases env p with he | ⟨k, -, he⟩ | ⟨seq, target, -, -, -, -, -, he⟩ <;>
    rw [he] <;> exact ⟨rfl, .inl rfl⟩

theorem sendHead_started (force : Bool) (n : Nat) (c : Conn) (seg : TcpSeg) (rest : List TcpSeg) :
    Started c.pcb (sendHead env force n c seg rest).pcb := by
  obtain ⟨hrt, htv⟩ := sendHead_timer env force n c seg rest
  refine ⟨?_, ?_⟩
  · unfold Pcb.rtoVars
    rw [htv]
  · rw [hrt]
    split
    · exact .inl rfl
    · exact .inr (Int.le_refl 0)

variable {c : Conn}

theorem tcpOutput_started (hf : c.fault = false) : Started c.pcb (tcpOutput env c).pcb :=
  tcpOutput_kept (I := Started c.pcb) Started.of_books hf (.refl _) (forceTransmit_started env _)
    (fun wnd n _ h => h.trans (splitHead_started env _ wnd n _))
    fun n c' seg rest h _ => h.trans (sendHead_started env _ n c' seg rest)

theorem tcpSendFin_started (p : Pcb) : Started p (tcpSendFin env p).1 := by
  rcases tcpSendFin_cases env p with ⟨_, he, -⟩ | he | ⟨_, _, -, he⟩ <;> rw [he] <;>
    exact ⟨rfl, .inl rfl⟩

theorem write_started (data : List U8) (isDummy : Bool) (c : Conn) :
    Started c.pcb (c.write env data isDummy).pcb := by
  unfold Conn.write
  split
  · exact .refl _
  rename_i r hr
  have hf : WriteFrame c.pcb r.1 := tcpWrite_frame (e := r.2) hr
  refine ⟨?_, .inl ?_⟩
  · show r.1.rtoVars = c.pcb.rtoVars
    unfold Pcb.rtoVars
    rw [hf.timer]
  · show r.1.rtime = c.pcb.rtime
    rw [hf.out]

def Act.isLocal (a : Act) : Bool := a.isEntry && a.isCall

theorem act_started (hf : c.fault = false) {a : Act} (ha : a.isLocal = true) :
    Started c.pcb (c.act a).pcb := by
  have hk := Started.kept c.pcb
  have hrx : Started c.pcb c.pcb.shutRx := ⟨rfl, .inl rfl⟩
  cases a with
  | write env data isDummy => exact write_started env data isDummy c
  | output env => exact tcpOutput_started env hf
  | recved len => exact hk.same (.refl _) (tcpRecved_books c.pcb len)
  | close env =>
    exact tcpClose_kept hk (.refl _) (hrx.trans (tcpSendFin_started env c.pcb.shutRx))
      fun _ => .purged _
  | shutdown env rx tx =>
    exact tcpShutdown_kept hk rx tx (.refl _) (tcpSendFin_started env c.pcb)
      (hrx.trans (tcpSendFin_started env c.pcb.shutRx)) fun _ => .purged _
  | input | rexmit | rexmitRto | rexmitFast | slowTimers | slowRto | slowChecks => cases ha

/-! ## The slow timer -/

def slowTicks (p : Pcb) : Prop :=
  pcbInActiveState p = true ∧ retriesExhausted p = false ∧ p.persistBackoff = 0

instance (p : Pcb) : Decidable (slowTicks p) := inferInstanceAs (Decidable (_ ∧ _ ∧ _))

theorem slowRest_started (exhausted : Bool) (c : Conn) :
    Started c.pcb (if c.fault then c else if (slowChecks env exhausted c).2 then
      tcpOutput env' (slowChecks env exhausted c).1 else (slowChecks env exhausted c).1).pcb := by
  have hchecks : Started c.pcb (slowChecks env exhausted c).1.pcb :=
    slowChecks_kept (Started.kept c.pcb) exhausted (.refl _)
  split
  · exact .refl _
  rename_i hf
  split
  · refine hchecks.trans (tcpOutput_started env' ?_)
    rw [slowChecks_fault]
    simpa using hf
  · exact hchecks

theorem tcpRexmitRto_started (hf : c.fault = false) (hu : c.pcb.unacked ≠ []) :
    Started (tcpRexmitRtoRequeue c.pcb.backoffRto)
      (tcpRexmitRto env { c with pcb := slowRto cc c.pcb.rtimeTick }).pcb := by
  unfold tcpRexmitRto
  rw [if_neg (show (slowRto cc c.pcb.rtimeTick).unacked ≠ [] from hu)]
  refine Started.trans ?_
    (tcpOutput_started env (c := { c with pcb := tcpRexmitRtoRequeue (slowRto cc c.pcb.rtimeTick) }) hf)
  unfold tcpRexmitRtoRequeue
  rw [if_neg (show c.pcb.backoffRto.unacked ≠ [] from hu),
    if_neg (show (slowRto cc c.pcb.rtimeTick).unacked ≠ [] from hu)]
  exact ⟨rfl, .inl rfl⟩

/-- **What the slow timer does** to the retransmission timer: it backs off and retransmits, it ticks, or
it leaves it alone. -/
theorem tcpSlowtmr_rto (hf : c.fault = false)
    (hread : slowTicks c.pcb → rtoFires c.pcb = true → c.pcb.backoffOverrun = false) :
    slowTicks c.pcb ∧ rtoFires c.pcb = true ∧
        Started (tcpRexmitRtoRequeue c.pcb.backoffRto) (tcpSlowtmr env env' cc c).pcb ∨
      slowTicks c.pcb ∧ rtoFires c.pcb = false ∧
        Started c.pcb.rtimeTick (tcpSlowtmr env env' cc c).pcb ∨
      ¬slowTicks c.pcb ∧ Started c.pcb (tcpSlowtmr env env' cc c).pcb := by
  unfold tcpSlowtmr
  split
  · rename_i hact
    have hrest := slowRest_started env env' (retriesExhausted c.pcb) (slowRetransmit env cc c)
    simp only
    cases hex : retriesExhausted c.pcb with
    | true =>
      have hsame : slowRetransmit env cc c = c := by
        unfold slowRetransmit
        rw [if_pos hex]
      rw [hex, hsame] at hrest
      rw [hsame]
      refine .inr (.inr ⟨fun h => ?_, hrest⟩)
      exact nomatch h.2.1.symm.trans hex
    | false =>
      rw [hex] at hrest
      by_cases hp : c.pcb.persistBackoff = 0
      · have htick : slowTimers env c = { c with pcb := c.pcb.rtimeTick } := by
          unfold slowTimers
          rw [if_neg (by omega)]
        cases hfire : rtoFires c.pcb with
        | true =>
          have hr : slowRetransmit env cc c =
              tcpRexmitRto env { c with pcb := slowRto cc c.pcb.rtimeTick } := by
            have hno : c.pcb.rtimeTick.backoffOverrun = false := hread ⟨hact, hex, hp⟩ hfire
            unfold slowRetransmit
            rw [hex, htick]
            simp [hp, hfire, Conn.slowRto, hf, hno]
          have hu : c.pcb.unacked ≠ [] := by
            have := hfire
            simp only [rtoFires, Bool.and_eq_true, decide_eq_true_eq] at this
            exact this.1
          rw [hr] at hrest ⊢
          exact .inl ⟨⟨hact, hex, hp⟩, rfl, (tcpRexmitRto_started env cc hf hu).trans hrest⟩
        | false =>
          have hr : slowRetransmit env cc c = { c with pcb := c.pcb.rtimeTick } := by
            unfold slowRetransmit
            rw [hex, htick]
            simp [hfire]
          rw [hr] at hrest ⊢
          exact .inr (.inl ⟨⟨hact, hex, hp⟩, rfl, hrest⟩)
      · have hr : Started c.pcb (slowRetransmit env cc c).pcb := by
          unfold slowRetransmit slowTimers
          simp only [hex, hp, Bool.false_eq_true, if_false, false_and]
          rw [if_pos (by omega)]
          split
          · have hnext : Started c.pcb c.pcb.persistNext := ⟨rfl, .inl rfl⟩
            exact hnext.of_books (tcpKeepalive_books ..)
          · exact ⟨rfl, .inl rfl⟩
        exact .inr (.inr ⟨fun h => hp h.2.2, hr.trans hrest⟩)
  · rename_i hact
    refine .inr (.inr ⟨fun h => hact h.1, ?_⟩)
    split
    · exact ⟨rfl, .inl rfl⟩
    · exact .refl _

/-! ## The count of retransmissions -/

/-- The segment makes the stack retransmit: another copy of the SYN, or the duplicate ACK that reaches
`LWIP_TCP_DUP_ACK_THRESH`, with something unacknowledged. -/
def Rexmits (pkt : InPkt) (p : Pcb) : Prop :=
  p.unacked ≠ [] ∧ (DupSyn pkt p ∨ AckTaken pkt p ∧ DupAtThresh pkt.inData p)

instance (pkt : InPkt) (p : Pcb) : Decidable (Rexmits pkt p) :=
  inferInstanceAs (Decidable (_ ∧ (_ ∨ _ ∧ _)))

/-- A segment that makes the stack retransmit finds the count below its limit. -/
def Call.leavesRoom (p : Pcb) : Call → Prop
  | .act (.input _ _ pkt) => Rexmits pkt p → p.nrtx < tcpMaxrtx
  | .act a => a.isEntry = true
  | .slowtmr .. => True

theorem tcpRexmit_nrtx_le (h : p.nrtx ≤ tcpMaxrtx) (hr : p.unacked ≠ [] → p.nrtx < tcpMaxrtx) :
    (tcpRexmit p).nrtx ≤ tcpMaxrtx := by
  unfold tcpRexmit
  split
  · exact h
  rename_i seg rest hu
  have := hr (by rw [hu]; exact List.cons_ne_nil _ _)
  show (p.nrtx + 1) % 256 ≤ tcpMaxrtx
  simp only [tcpMaxrtx] at this ⊢
  omega

theorem Started.nrtx (h : Started p q) : q.nrtx = p.nrtx := congrArg RtoVars.nrtx h.vars

theorem nrtxLe_kept : Carried fun p => p.nrtx ≤ tcpMaxrtx where
  same := fun {p q} h hq => by
    rw [show q.nrtx = p.nrtx from congrArg Books.nrtx hq]
    exact h
  dropped := fun {p q} h hq => by
    rw [show q.nrtx = p.nrtx from congrArg Books.nrtx hq]
    exact h

theorem tcpInput_nrtx {pkt : InPkt} (hroom : Rexmits pkt c.pcb → c.pcb.nrtx < tcpMaxrtx)
    (h : c.pcb.nrtx ≤ tcpMaxrtx) :
    (tcpInput env cc pkt c).conn.pcb.nrtx ≤ tcpMaxrtx := by
  refine tcpInput_kept nrtxLe_kept ⟨?_, ?_, ?_⟩ h
  · intro q rseg rest ha
    rw [show q.nrtx = if rest = [] then c.pcb.nrtx else 0 from congrArg Books.nrtx ha.books]
    split
    · exact h
    · exact Nat.zero_le _
  · intro hdup q hq
    have hnrtx : q.nrtx = c.pcb.nrtx := congrArg Books.nrtx hq
    have hun : q.unacked = c.pcb.unacked := congrArg Books.unacked hq
    refine tcpRexmit_nrtx_le (by rw [hnrtx]; exact h) fun hne => ?_
    rw [hnrtx]
    exact hroom ⟨by rw [← hun]; exact hne, .inl hdup⟩
  · intro htaken q sack hq
    -- up to the clause of the ACK the count is still that of the start
    refine tcpReceiveAck_kept (J := fun p => p.nrtx = c.pcb.nrtx ∧ (p.unacked ≠ [] → c.pcb.unacked ≠ []))
      (K := fun p => p.nrtx ≤ tcpMaxrtx) (I := fun p => p.nrtx ≤ tcpMaxrtx) cc
      (d := { pkt.inData with sack := sack }) (c := { c with pcb := q })
      ⟨?_, nrtxLe_kept.same, ?_, ?_, ?_, ?_, ?_, ?_, ?_⟩ htaken.2.1
    · intro p r hp hr
      rw [show r.nrtx = p.nrtx from congrArg Books.nrtx hr,
        show r.unacked = p.unacked from congrArg Books.unacked hr]
      exact hp
    · intro r hr
      have hb : r.books = c.pcb.books := hr.trans (Pcb.heed_books hq)
      have hn : r.nrtx = c.pcb.nrtx := congrArg Books.nrtx hb
      have hun : r.unacked = c.pcb.unacked := congrArg Books.unacked hb
      unfold freeSacked
      split
      · refine ⟨hn, fun hne hnil => hne ?_⟩
        show r.unacked.filter _ = []
        rw [hun, hnil]
        rfl
      · exact ⟨hn, fun hne => by rw [← hun]; exact hne⟩
    · intro p hp
      rw [hp.1]
      exact h
    · intro hthresh p hp
      refine tcpRexmit_nrtx_le (by rw [hp.1]; exact h) fun hne => ?_
      rw [hp.1]
      exact hroom ⟨hp.2 hne, .inr ⟨htaken, hthresh.of_heed hq⟩⟩
    · exact fun _ _ _ => Nat.zero_le _
    · exact fun _ _ hk => hk
    · exact fun hk => hk
    · intro p hk
      unfold rttEstimate
      split <;> exact hk

theorem tcpBackoff_of_le {n : Nat} (h : n ≤ tcpMaxrtx) : (tcpBackoff n).isNone = false := by
  unfold tcpBackoff
  rw [List.getElem?_eq_getElem (Nat.lt_succ_of_le h)]
  rfl

theorem tcpSlowtmr_nrtx (hf : c.fault = false) (h : c.pcb.nrtx ≤ tcpMaxrtx) :
    (tcpSlowtmr env env' cc c).pcb.nrtx ≤ tcpMaxrtx := by
  have hread : c.pcb.backoffOverrun = false := by simp [Pcb.backoffOverrun, tcpBackoff_of_le h]
  rcases tcpSlowtmr_rto env env' cc hf (fun _ _ => hread) with ⟨ht, -, hs⟩ | ⟨-, -, hs⟩ | ⟨-, hs⟩
  · rw [hs.nrtx]
    have hlt : c.pcb.nrtx ≠ tcpMaxrtx := by
      have := ht.2.1
      simp only [retriesExhausted, Bool.or_eq_false_iff, decide_eq_false_iff_not] at this
      exact this.2
    unfold tcpRexmitRtoRequeue
    split
    · exact h
    · show (c.pcb.nrtx + 1) % 256 ≤ tcpMaxrtx
      simp only [tcpMaxrtx] at h hlt ⊢
      omega
  · rw [hs.nrtx]
    exact h
  · rw [hs.nrtx]
    exact h

theorem tcpSlowtmr_removes (hf : c.fault = false) (ha : pcbInActiveState c.pcb = true)
    (hn : c.pcb.nrtx = tcpMaxrtx) :
    (tcpSlowtmr env env' cc c).pcb.state = .closed := by
  have hex : retriesExhausted c.pcb = true := by simp [retriesExhausted, hn]
  have hsame : slowRetransmit env cc c = c := by
    unfold slowRetransmit
    rw [if_pos hex]
  unfold tcpSlowtmr
  simp only [ha, if_true, hsame, hf, Bool.false_eq_true, if_false, hex]
  unfold slowChecks slowFinish
  simp only [Bool.true_or, if_true]
  rfl

/-- **Whole runs of calls.** What survives a timer started or stopped has only segments and the slow timer to
survive. -/
theorem calls_kept {I : Pcb → Prop} {ok : Conn → Call → Prop} {c₀ : Conn} (h : Reach Conn.call ok c₀ c)
    (h₀ : I c₀.pcb) (hentry : ∀ c a, ok c (.act a) → a.isEntry = true)
    (hstarted : ∀ {p q : Pcb}, I p → Started p q → I q)
    (hinput : ∀ env cc (pkt : InPkt) (c : Conn), ok c (.act (.input env cc pkt)) → I c.pcb →
      I (tcpInput env cc pkt c).conn.pcb)
    (hslow : ∀ env env' cc (c : Conn), c.fault = false → ok c (.slowtmr env env' cc) → I c.pcb →
      I (tcpSlowtmr env env' cc c).pcb) :
    I c.pcb := by
  refine h.inv (I := fun c => I c.pcb) h₀ fun c a hI hok => ?_
  cases a with
  | act a =>
    show I (c.step a).pcb
    cases hf : c.fault with
    | true =>
      rw [Conn.step_fault a hf]
      exact hI
    | false =>
      rw [Conn.step_eq a hf]
      have he := hentry c a hok
      cases a with
      | input env cc pkt => exact hinput env cc pkt c hok hI
      | rexmit | rexmitRto | rexmitFast | slowTimers | slowRto | slowChecks => cases he
      | write | output | recved | close | shutdown => exact hstarted hI (act_started hf rfl)
  | slowtmr env env' cc =>
    simp only [Conn.call]
    split
    · exact hI
    · rename_i hf
      exact hslow env env' cc c (by simpa using hf) hok hI

/-- **The count of retransmissions.** In every run in which no segment makes the stack retransmit at the
limit, the count stays within it: `tcp_backoff` is read within its 13 entries, and a connection whose
count has reached the limit is removed by the slow timer. -/
theorem nrtx_bounded {c₀ c : Conn} (h₀ : c₀.pcb.nrtx ≤ tcpMaxrtx)
    (h : Reach Conn.call (fun c a => a.leavesRoom c.pcb) c₀ c) :
    c.pcb.nrtx ≤ tcpMaxrtx ∧ c.pcb.nrtx < 13 ∧
      (c.fault = false → pcbInActiveState c.pcb = true → c.pcb.nrtx = tcpMaxrtx →
        ∀ env env' cc, (tcpSlowtmr env env' cc c).pcb.state = .closed) := by
  have hle : c.pcb.nrtx ≤ tcpMaxrtx := by
    refine calls_kept (I := fun p => p.nrtx ≤ tcpMaxrtx) h h₀ (fun c a hok => ?_) ?_ ?_ ?_
    · cases a <;> first | rfl | exact hok
    · intro p q hp hs
      rw [hs.nrtx]
      exact hp
    · exact fun env cc _ _ hok hI => tcpInput_nrtx env cc hok hI
    · exact fun env env' cc _ hf _ hI => tcpSlowtmr_nrtx env env' cc hf hI
  refine ⟨hle, Nat.lt_succ_of_le hle, fun hf ha hn env env' cc => tcpSlowtmr_removes env env' cc hf ha hn⟩

def synRcvdConn : Conn where
  pcb := { tcpPcbInit {} with
    state := .synRcvd
    rcvNxt := 1001
    sndNxt := 2
    sndLbb := 2
    sndWnd := 1000
    unacked := [{ addr := 0, seqno := 1, len := 0, p := [⟨List.replicate 20 0, 20⟩],
                  flags := { syn := true, ack := true } }]
    lastUnacked := some 0
    sndQueuelen := 1
    nextSeg := 1
    rtime := 0 }

def dupSyn : InPkt :=
  { hdr := ⟨1000, 0, 5, { syn := true }, 1000⟩, optMem := fun _ => 0, p := [], tos := 0 }

def dupSynCalls : List Call := [.act (.input {} lwipCcAlgo dupSyn), .act (.output {})]

/-- A copy of the SYN and a timeout: two retransmissions. -/
theorem nrtx_bounded_synRcvd :
    let c := (dupSynCalls.foldl Conn.call synRcvdConn).call (.slowtmr {} {} lwipCcAlgo)
    c.pcb.nrtx = 2 ∧ c.pcb.nrtx < 13 := by
  intro c
  have hsyn : Reach Conn.call (fun c a => a.leavesRoom c.pcb) synRcvdConn
      (synRcvdConn.call (.act (.input {} lwipCcAlgo dupSyn))) :=
    .next .start _ fun _ => by decide
  have hrun := (hsyn.next (.act (.output {})) rfl).next (.slowtmr {} {} lwipCcAlgo) trivial
  exact ⟨by decide +kernel, (nrtx_bounded (by decide) hrun).2.1⟩

/-- Thirteen copies of the SYN between two ticks take the count past the limit: the slow timer reads
`tcp_backoff` behind its end and does not remove the connection. -/
theorem nrtx_passes_limit :
    let c := (List.replicate 13 dupSynCalls).flatten.foldl Conn.call synRcvdConn
    c.pcb.nrtx = 13 ∧ c.fault = false ∧ retriesExhausted c.pcb = false ∧ rtoFires c.pcb = true ∧
      tcpBackoff c.pcb.nrtx = none ∧ (tcpSlowtmr {} {} lwipCcAlgo c).fault = true ∧
      (tcpSlowtmr {} {} lwipCcAlgo c).pcb.state = .synRcvd := by
  decide +kernel

/-! ## The timeout -/

/-- The timer's values from `tcp_pcb_init`, for a timer resolution of `v` milliseconds. -/
def rtoConfig (v : Nat) : Config where
  minrto := ((4 / (2 * v) : Nat) : Int)
  rto := ((100 / (2 * v) : Nat) : Int)
  sa := ((4 * 8 / (2 * v) : Nat) : Int)

structure RtoInit (v : Nat) (p : Pcb) : Prop where
  vars : p.rtoVars = (tcpPcbInit (rtoConfig v)).rtoVars
  rtime : p.rtime = -1

/-- The bounds on the estimator when no round trip has been longer than `S` ticks. -/
structure RtoWithin (S : Int) (p : Pcb) : Prop where
  sa : 0 ≤ p.sa ∧ p.sa ≤ 8 * S + 7
  sv : 0 ≤ p.sv ∧ p.sv ≤ 4 * S + 3
  minrto : p.minrto ≤ 32767
  low : p.minrto ≤ p.rto
  high : p.rto ≤ 32767
  rtime : p.rtime < 32767

/-- The number of ticks a round trip took, as far as the 16 bits of the sample go. -/
def rttTicks (env : Env) (p : Pcb) : Nat := (env.tcpTicks - p.rttest).toNat % 65536

/-- The acknowledgement ends the measurement of a round trip. -/
def RttTaken (pkt : InPkt) (p : Pcb) : Prop :=
  AckTaken pkt p ∧ p.rttest ≠ 0 ∧ TcpSeqLt p.rtseq pkt.hdr.ackno

instance (pkt : InPkt) (p : Pcb) : Decidable (RttTaken pkt p) :=
  inferInstanceAs (Decidable (_ ∧ _ ∧ _))

/-- A round trip is measured to `S` ticks at most, the timer is backed off by `2 ^ B` at most, within the
entries of `tcp_backoff`, and it does not run to its end with nothing unacknowledged. -/
def Call.within (S B : Nat) (p : Pcb) : Call → Prop
  | .act (.input env _ pkt) => RttTaken pkt p → rttTicks env p ≤ S
  | .act a => a.isEntry = true
  | .slowtmr .. => slowTicks p →
    (rtoFires p = true → p.state ≠ .synSent → ∃ b ∈ tcpBackoff p.nrtx, b ≤ B) ∧
      (p.unacked = [] → p.rtime < 32766)

namespace RtoWithin

variable {S : Int} {p q : Pcb}

theorem setRto (h : RtoWithin S p) {r : Int} (hlow : p.minrto ≤ r) (hhigh : r ≤ 32767) {t : Int}
    (ht : t < 32767) (hq : q.rtoVars = { p.rtoVars with rto := r, nrtx := q.nrtx })
    (hqt : q.rtime = t) : RtoWithin S q := by
  have hsa : q.sa = p.sa := congrArg RtoVars.sa hq
  have hsv : q.sv = p.sv := congrArg RtoVars.sv hq
  have hrto : q.rto = r := congrArg RtoVars.rto hq
  have hmin : q.minrto = p.minrto := congrArg RtoVars.minrto hq
  refine ⟨?_, ?_, ?_, ?_, ?_, ?_⟩
  · rw [hsa]; exact h.sa
  · rw [hsv]; exact h.sv
  · rw [hmin]; exact h.minrto
  · rw [hmin, hrto]; exact hlow
  · rw [hrto]; exact hhigh
  · rw [hqt]; exact ht

theorem started (h : RtoWithin S p) (hs : Started p q) : RtoWithin S q := by
  refine h.setRto h.low h.high ?_ (by rw [hs.nrtx]; exact hs.vars) rfl
  have := h.rtime
  rcases hs.rtime with he | he <;> omega

theorem estimate_le (h : RtoWithin S p) : p.sa / 8 + p.sv ≤ 5 * S + 3 := by
  have := h.sa
  have := h.sv
  omega

theorem books (h : RtoWithin S p) (hq : q.books = p.books) : RtoWithin S q :=
  h.started (Started.of_books (.refl p) hq)

theorem sample {S : Int} {p : Pcb} (h : RtoWithin S p) (hS : 5 * S + 3 ≤ 32767) {env : Env} {ackno : U32}
    (hs : p.rttest ≠ 0 → TcpSeqLt p.rtseq ackno → (rttTicks env p : Int) ≤ S) :
    RtoWithin S (rttEstimate env ackno p) := by
  unfold rttEstimate
  split
  · rename_i ht
    have hle := hs ht.1 ht.2
    have hnat : ((env.tcpTicks - p.rttest).setWidth 16).toNat = rttTicks env p := by
      rw [BitVec.toNat_setWidth]
      rfl
    have hint : ((env.tcpTicks - p.rttest).setWidth 16).toInt = (rttTicks env p : Int) := by
      rw [BitVec.toInt_eq_toNat_of_lt (by rw [hnat]; omega), hnat]
    obtain ⟨hsa, hsa'⟩ := h.sa
    obtain ⟨hsv, hsv'⟩ := h.sv
    have hpos : 0 ≤ (rttTicks env p : Int) := Int.natCast_nonneg _
    simp only [hint]
    generalize (rttTicks env p : Int) = s at hle hpos
    -- the deviation of the sample from the mean is `S` at most
    have hdev : |s - p.sa / 8| ≤ S := abs_le.mpr ⟨by omega, by omega⟩
    have hdev0 : 0 ≤ |s - p.sa / 8| := abs_nonneg _
    generalize |s - p.sa / 8| = m at hdev hdev0
    have hmin := h.minrto
    have hmean : 0 ≤ p.sa + (s - p.sa / 8) ∧ p.sa + (s - p.sa / 8) ≤ 8 * S + 7 := by omega
    have hvar : 0 ≤ p.sv + (m - p.sv / 4) ∧ p.sv + (m - p.sv / 4) ≤ 4 * S + 3 := by omega
    have hrto : (p.sa + (s - p.sa / 8)) / 8 + (p.sv + (m - p.sv / 4)) ≤ 32767 := by omega
    exact ⟨hmean, hvar, hmin, le_max_right _ _, max_le hrto hmin, h.rtime⟩
  · exact h

end RtoWithin

theorem rtoWithin_kept (S : Int) : Carried (RtoWithin S) where
  same := RtoWithin.books
  dropped := fun {p q} h hq => by
    have hs : Started p q := (Started.kept p).dropped (.refl p) hq
    exact h.started hs

theorem tcpInput_within {pkt : InPkt} (hS : 5 * S + 3 ≤ 32767)
    (hrtt : RttTaken pkt c.pcb → (rttTicks env c.pcb : Int) ≤ S) (h : RtoWithin S c.pcb) :
    RtoWithin S (tcpInput env cc pkt c).conn.pcb := by
  have hrex {p : Pcb} (hp : RtoWithin S p) : RtoWithin S (tcpRexmit p) := by
    unfold tcpRexmit
    split
    · exact hp
    · exact hp.setRto hp.low hp.high hp.rtime rfl rfl
  refine tcpInput_kept (rtoWithin_kept S) ⟨?_, ?_, ?_⟩ h
  · intro q rseg rest ha
    have hvars : q.rtoVars = { c.pcb.rtoVars with rto := c.pcb.rto, nrtx := q.nrtx } := by
      have hb := ha.books
      have hsa : q.sa = c.pcb.sa := congrArg Books.sa hb
      have hsv : q.sv = c.pcb.sv := congrArg Books.sv hb
      have hrto : q.rto = c.pcb.rto := congrArg Books.rto hb
      have hmin : q.minrto = c.pcb.minrto := congrArg Books.minrto hb
      unfold Pcb.rtoVars
      rw [hsa, hsv, hrto, hmin]
    refine h.setRto h.low h.high ?_ hvars (congrArg Books.rtime ha.books)
    show (if rest = [] then (-1 : Int) else 0) < 32767
    split <;> decide
  · exact fun _ _ hq => hrex (h.books hq)
  · intro htaken q sack hq
    have hb := Pcb.heed_books hq
    -- the segment timed is the one of the start, or no longer timed
    let K (p : Pcb) : Prop := RtoWithin S p ∧
      (p.rttest = 0 ∨ p.rttest = c.pcb.rttest ∧ p.rtseq = c.pcb.rtseq)
    have hsame {p r : Pcb} (hp : K p) (hr : r.books = p.books) : K r := by
      refine ⟨hp.1.books hr, ?_⟩
      rw [show r.rttest = p.rttest from congrArg Books.rttest hr,
        show r.rtseq = p.rtseq from congrArg Books.rtseq hr]
      exact hp.2
    refine tcpReceiveAck_kept (J := K) (K := K) (I := RtoWithin S) cc
      (d := { pkt.inData with sack := sack }) (c := { c with pcb := q })
      ⟨hsame, hsame, ?_, id, ?_, ?_, ?_, ?_, ?_⟩ htaken.2.1
    · intro r hr
      have hr' : K r := hsame ⟨h, .inr ⟨rfl, rfl⟩⟩ (hr.trans hb)
      unfold freeSacked
      split
      · exact ⟨hr'.1.started ⟨rfl, .inl rfl⟩, hr'.2⟩
      · exact hr'
    · intro _ p hp
      refine ⟨hrex hp.1, ?_⟩
      unfold tcpRexmit
      split
      · exact hp.2
      · exact .inl rfl
    · intro _ p hp
      have hest := hp.1.estimate_le
      exact ⟨hp.1.setRto (le_max_right _ _) (max_le (by omega) hp.1.minrto) hp.1.rtime rfl rfl, hp.2⟩
    · intro persist c' hp
      refine ⟨hp.1.started ⟨rfl, .inr ?_⟩, hp.2⟩
      show (if _ = [] then (-1 : Int) else 0) ≤ 0
      split <;> decide
    · exact fun hp => ⟨hp.1.started ⟨rfl, .inl rfl⟩, hp.2⟩
    · intro p hp
      refine hp.1.sample hS fun hne hlt => ?_
      rcases hp.2 with h0 | ⟨ht, hseq⟩
      · exact absurd h0 hne
      · unfold rttTicks
        rw [ht]
        exact hrtt ⟨htaken, by rw [← ht]; exact hne, by rw [← hseq]; exact hlt⟩

theorem backoffRto_within {B : Nat} (hS : (5 * S + 3) * 2 ^ B ≤ 32767)
    (hB : p.state ≠ .synSent → ∃ b ∈ tcpBackoff p.nrtx, b ≤ B) (h : RtoWithin S p) :
    RtoWithin S p.backoffRto := by
  refine h.setRto (r := p.backoffRto.rto) ?_ ?_ (by decide : (0 : Int) < 32767) rfl rfl
  · show p.minrto ≤ if _ then _ else _
    split
    · exact h.low
    · exact le_max_right _ _
  · show (if _ then _ else _) ≤ (32767 : Int)
    split
    · exact h.high
    rename_i hst
    obtain ⟨b, hb, hle⟩ := hB hst
    rw [Option.mem_def.mp hb]
    refine max_le ?_ h.minrto
    have hest := h.estimate_le
    have hnn : 0 ≤ p.sa / 8 + p.sv := by
      have := h.sa
      have := h.sv
      omega
    calc (p.sa / 8 + p.sv) * 2 ^ b
        ≤ (p.sa / 8 + p.sv) * 2 ^ B :=
          mul_le_mul_of_nonneg_left (pow_le_pow_right₀ (by decide) hle) hnn
      _ ≤ (5 * S + 3) * 2 ^ B := mul_le_mul_of_nonneg_right hest (by positivity)
      _ ≤ 32767 := hS

theorem tcpSlowtmr_within (hf : c.fault = false) {B : Nat} (hS : (5 * S + 3) * 2 ^ B ≤ 32767)
    (hok : slowTicks c.pcb →
      (rtoFires c.pcb = true → c.pcb.state ≠ .synSent → ∃ b ∈ tcpBackoff c.pcb.nrtx, b ≤ B) ∧
      (c.pcb.unacked = [] → c.pcb.rtime < 32766))
    (h : RtoWithin S c.pcb) :
    RtoWithin S (tcpSlowtmr env env' cc c).pcb := by
  have hread : slowTicks c.pcb → rtoFires c.pcb = true → c.pcb.backoffOverrun = false := by
    intro ht hfire
    by_cases hst : c.pcb.state = .synSent
    · simp [Pcb.backoffOverrun, hst]
    · obtain ⟨b, hb, -⟩ := (hok ht).1 hfire hst
      simp [Pcb.backoffOverrun, Option.mem_def.mp hb]
  rcases tcpSlowtmr_rto env env' cc hf hread with ⟨ht, hfire, hs⟩ | ⟨ht, hfire, hs⟩ | ⟨-, hs⟩
  · refine RtoWithin.started ?_ hs
    have hb := backoffRto_within hS ((hok ht).1 hfire) h
    unfold tcpRexmitRtoRequeue
    split
    · exact hb
    · exact hb.setRto hb.low hb.high hb.rtime rfl rfl
  · refine RtoWithin.started ?_ hs
    refine h.setRto h.low h.high ?_ rfl rfl
    -- with something unacknowledged the timer fires before `rtime` is at its end
    have hlt := h.rtime
    have hhigh := h.high
    show rtimeNext c.pcb.rtime < 32767
    by_cases hu : c.pcb.unacked = []
    · have := (hok ht).2 hu
      unfold rtimeNext
      split
      · rw [if_neg (by omega)]
        omega
      · omega
    · have hno : ¬c.pcb.rto ≤ rtimeNext c.pcb.rtime := by
        intro hle
        simp [rtoFires, hu, hle] at hfire
      omega
  · exact h.started hs

theorem RtoInit.within {v : Nat} (h : RtoInit v p) (hS : 2 ≤ S) : RtoWithin S p := by
  have hsa : p.sa = ((4 * 8 / (2 * v) : Nat) : Int) := congrArg RtoVars.sa h.vars
  have hsv : p.sv = 0 := congrArg RtoVars.sv h.vars
  have hrto : p.rto = ((100 / (2 * v) : Nat) : Int) := congrArg RtoVars.rto h.vars
  have hmin : p.minrto = ((4 / (2 * v) : Nat) : Int) := congrArg RtoVars.minrto h.vars
  have hrtime := h.rtime
  have hsa' : 4 * 8 / (2 * v) ≤ 16 := by
    cases v with
    | zero => simp
    | succ v => exact Nat.div_le_of_le_mul (by omega)
  have hrto' : 100 / (2 * v) ≤ 100 := Nat.div_le_self _ _
  have hle : 4 / (2 * v) ≤ 100 / (2 * v) := Nat.div_le_div_right (by decide)
  generalize 4 * 8 / (2 * v) = a at hsa hsa'
  generalize 100 / (2 * v) = b at hrto hrto' hle
  generalize 4 / (2 * v) = m at hmin hle
  constructor <;> omega

/-- **The timeout stays usable.** In every run in which round trips are measured to `S` ticks at most and
the timer is backed off by `2 ^ B` at most, with `(5 * S + 3) * 2 ^ B` in reach of the 16 bits of `rtime`,
the estimator does not go negative, the timeout lies between its minimum and 32767, and `rtime` never
overflows. -/
theorem rto_usable {S B : Nat} (hS : 2 ≤ S) (hSB : (5 * S + 3) * 2 ^ B ≤ 32767) {v : Nat} {c₀ c : Conn}
    (h₀ : RtoInit v c₀.pcb) (h : Reach Conn.call (fun c a => a.within S B c.pcb) c₀ c) :
    0 ≤ c.pcb.sa ∧ 0 ≤ c.pcb.sv ∧ c.pcb.minrto ≤ c.pcb.rto ∧ c.pcb.rto ≤ 32767 ∧ c.pcb.rtime < 32767 := by
  have hSB' : (5 * (S : Int) + 3) * 2 ^ B ≤ 32767 := by exact_mod_cast hSB
  have hpos : (1 : Int) ≤ 2 ^ B := one_le_pow₀ (by decide)
  have hS' : 5 * (S : Int) + 3 ≤ 32767 := by nlinarith
  have hstart : RtoWithin S c₀.pcb := h₀.within (by omega)
  have hc : RtoWithin S c.pcb := by
    refine calls_kept h hstart (fun c a hok => ?_) (fun hp hs => hp.started hs) ?_ ?_
    · cases a <;> first | rfl | exact hok
    · exact fun env cc _ _ hok hI => tcpInput_within env cc hS' (fun ht => Int.ofNat_le.mpr (hok ht)) hI
    · exact fun env env' cc _ hf hok hI => tcpSlowtmr_within env env' cc hf hSB' hok hI
  exact ⟨hc.sa.1, hc.sv.1, hc.low, hc.high, hc.rtime⟩

/-- An established sender as `tcp_pcb_init` starts its timer, with 10 bytes sent at tick 1. -/
def timedConn : Conn :=
  ({ pcb := { tcpPcbInit (rtoConfig 1) with
      state := .established, sndWnd := 1000, cwnd := 1000 } } : Conn)

def timedCalls (ticks : U32) : List Call :=
  [.act (.write {} (List.replicate 10 0) false), .act (.output { tcpTicks := 1 }),
   .act (.input { tcpTicks := ticks } lwipCcAlgo
    { hdr := ⟨0, 11, 5, { ack := true }, 1000⟩, optMem := fun _ => 0, p := [], tos := 0 })]

theorem rto_usable_timed :
    ((timedCalls 51).foldl Conn.call timedConn).pcb.sa = 64 ∧
      ((timedCalls 51).foldl Conn.call timedConn).pcb.rto ≤ 32767 := by
  have hwrite : Reach Conn.call (fun c a => a.within 50 7 c.pcb) timedConn
      (timedConn.call (.act (.write {} (List.replicate 10 0) false))) := .next .start _ rfl
  have hsent := hwrite.next (.act (.output { tcpTicks := 1 })) rfl
  have hacked := hsent.next (.act (.input { tcpTicks := 51 } lwipCcAlgo
    { hdr := ⟨0, 11, 5, { ack := true }, 1000⟩, optMem := fun _ => 0, p := [], tos := 0 }))
    (fun _ => by decide +kernel)
  have hrun : Reach Conn.call (fun c a => a.within 50 7 c.pcb) timedConn
      ((timedCalls 51).foldl Conn.call timedConn) := hacked
  exact ⟨by decide +kernel, (rto_usable (by decide) (by decide) (v := 1) ⟨rfl, rfl⟩ hrun).2.2.2.1⟩

/-- A round trip of 32767 ticks puts the timeout out of the reach of `rtime`; one of 32768 ticks is taken
for a negative one. -/
theorem rto_out_of_reach :
    32767 < ((timedCalls 32768).foldl Conn.call timedConn).pcb.rto ∧
      ((timedCalls 32769).foldl Conn.call timedConn).pcb.sa < 0 := by
  decide +kernel

end LibvmaTlt.Lwip
