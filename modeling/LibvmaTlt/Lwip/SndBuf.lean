import LibvmaTlt.Lwip.Books
import LibvmaTlt.Lwip.QueueSpec

/-!
# The send buffer

A run is watched with what the sequence numbers from `lastack` on stand for: the SYN, bytes that
`tcp_write` has accepted, the FIN. `snd_buf` is credited with the whole difference of two acknowledgement
numbers, so it is `max_snd_buff` less the bytes outstanding only as long as acknowledgements cover
nothing but bytes.
-/

namespace LibvmaTlt.Lwip

/-- What a sequence number of the sender stands for. -/
inductive SeqUse where
  | syn | byte | fin
  deriving DecidableEq

/-- A connection with what its sequence numbers from `lastack` on stand for. -/
structure Account where
  conn : Conn
  uses : List SeqUse

namespace Account

def owed (s : Account) : Nat := s.uses.count .byte

/-- The bytes that a write adds. A dummy has no payload. -/
def accepted (s : Account) : Act → List SeqUse
  | .write env data false =>
    match tcpWrite env s.conn.pcb data false with
    | some (_, .ok) => List.replicate data.length .byte
    | _ => []
  | _ => []

/-- A step: what is acknowledged goes, what is accepted comes, and the FIN when it is queued. -/
def step (s : Account) (a : Act) : Account :=
  if s.conn.fault then s
  else
    let c := s.conn.act a
    ⟨c, s.uses.drop (c.pcb.lastack - s.conn.pcb.lastack).toNat ++ s.accepted a ++
      if c.pcb.flags.fin && !s.conn.pcb.flags.fin then [.fin] else []⟩

end Account

/-! ## Dummies -/

def NoDummy (p : Pcb) : Prop := ∀ s, s ∈ p.unsent ∨ s ∈ p.unacked → s.isDummy = false

instance (p : Pcb) : Decidable (NoDummy p) :=
  decidable_of_iff ((∀ s ∈ p.unsent, s.isDummy = false) ∧ ∀ s ∈ p.unacked, s.isDummy = false)
    ⟨fun h s hs => hs.elim (h.1 s) (h.2 s), fun h => ⟨fun s hs => h s (.inl hs), fun s hs => h s (.inr hs)⟩⟩

/-- The buffer of `q` is that of `p`, and nothing more is acknowledged. -/
structure SameBuf (p q : Pcb) : Prop where
  noDummy : NoDummy q
  sndBuf : q.sndBuf = p.sndBuf
  lastack : q.lastack = p.lastack
  maxSndBuff : q.maxSndBuff = p.maxSndBuff

namespace SameBuf

variable {p q r : Pcb}

theorem of_segs (h : SameBuf p q) (hb : r.sndBuf = q.sndBuf) (hl : r.lastack = q.lastack)
    (hm : r.maxSndBuff = q.maxSndBuff)
    (hs : ∀ s, s ∈ r.unsent ∨ s ∈ r.unacked →
      s.isDummy = false ∨ ∃ t, (t ∈ q.unsent ∨ t ∈ q.unacked) ∧ s.opts = t.opts) : SameBuf p r := by
  refine ⟨fun s hmem => ?_, hb.trans h.sndBuf, hl.trans h.lastack, hm.trans h.maxSndBuff⟩
  rcases hs s hmem with hd | ⟨t, ht, ho⟩
  · exact hd
  · rw [TcpSeg.isDummy, ho]
    exact h.noDummy t ht

theorem of_books (h : SameBuf p q) (hr : r.books = q.books) : SameBuf p r := by
  refine h.of_segs (congrArg Books.sndBuf hr) (congrArg Books.lastack hr) (congrArg Books.maxSndBuff hr)
    fun s hs => .inr ⟨s, ?_, rfl⟩
  rw [show r.unsent = q.unsent from congrArg Books.unsent hr,
    show r.unacked = q.unacked from congrArg Books.unacked hr] at hs
  exact hs

theorem kept (p : Pcb) : Carried (SameBuf p) where
  same := of_books
  dropped := fun {q r} h hr => by
    have hu : r.unsent = [] := congrArg Books.unsent hr
    have ha : r.unacked = [] := congrArg Books.unacked hr
    refine h.of_segs (congrArg Books.sndBuf hr) (congrArg Books.lastack hr)
      (congrArg Books.maxSndBuff hr) fun s hs => ?_
    rw [hu, ha] at hs
    rcases hs with hs | hs <;> cases hs

theorem rexmit (h : SameBuf p q) : SameBuf p (tcpRexmit q) := by
  have hstep := tcpRexmit_snd q
  refine h.of_segs ?_ ?_ ?_ fun s hs => .inr ⟨s, hstep.segs s hs, rfl⟩ <;>
    unfold tcpRexmit <;> split <;> rfl

end SameBuf

/-! ## Sending -/

variable (env : Env) {c : Conn} {a : Act} {p : Pcb}

theorem splitHead_sameBuf {q : Pcb} (force : Bool) (wnd : U32) (n : Nat) (h : SameBuf p q) :
    SameBuf p (splitHead env force wnd n q) := by
  rcases splitHead_unsent env force wnd n q with he | ⟨seg, rest, s, hu, -, -, -, -, hcut, he⟩
  · rw [he]
    exact h
  rw [he]
  obtain ⟨-, -, -, ho1, ho2, -⟩ := splitCut_frame hcut
  have hseg : seg ∈ q.unsent := by rw [hu]; exact List.mem_cons_self
  refine h.of_segs rfl rfl rfl fun t ht => .inr ?_
  rcases ht with ht | ht
  · rcases List.mem_cons.mp ht with rfl | ht
    · exact ⟨seg, .inl hseg, ho1⟩
    · rcases List.mem_cons.mp ht with rfl | ht
      · exact ⟨seg, .inl hseg, ho2⟩
      · exact ⟨t, .inl (by rw [hu]; exact List.mem_cons_of_mem _ ht), rfl⟩
  · exact ⟨t, .inr ht, rfl⟩

theorem forceTransmit_sameBuf (h : SameBuf p p) : SameBuf p (forceTransmit env p).1 := by
  rcases forceTransmit_cases env p with he | ⟨k, -, he⟩ | ⟨seq, target, -, -, ht, -, -, he⟩
  · rw [he]
    exact h
  · rw [he]
    exact h.of_segs rfl rfl rfl fun s hs => .inr ⟨s, hs, rfl⟩
  rw [he]
  obtain ⟨hmem, -, ho, -⟩ := @forceCopy_spec env _ _ _ ht
  refine h.of_segs rfl rfl rfl fun s hs => .inr ?_
  rcases hs with hs | hs
  · rcases List.mem_cons.mp hs with rfl | hs
    · exact ⟨target, .inr hmem, ho⟩
    · exact ⟨s, .inl hs, rfl⟩
  · exact ⟨s, .inr hs, rfl⟩

theorem afterSend_sndBuf {force : Bool} {seg : TcpSeg} {pcb : Pcb} (hd : seg.isDummy = false)
    (h : afterSend force seg pcb = some p) : p.sndBuf = pcb.sndBuf := by
  unfold afterSend at h
  simp only [hd, Bool.false_eq_true, if_false] at h
  split at h
  · obtain ⟨l, a, rfl⟩ := queueUnacked_eq h
    rfl
  · cases h
    rfl

theorem sendHead_sameBuf (force : Bool) (n : Nat) {seg : TcpSeg} {rest : List TcpSeg}
    (h : SameBuf p c.pcb) (hu : c.pcb.unsent = seg :: rest) :
    SameBuf p (sendHead env force n c seg rest).pcb := by
  obtain ⟨ps⟩ := sendHead_pass env force n c seg rest
  have hseg : seg.isDummy = false := h.noDummy seg (.inl (by rw [hu]; exact List.mem_cons_self))
  have hout : ps.out.isDummy = false := by
    rw [TcpSeg.isDummy, ps.out_seg.2.2.2.2.1]
    exact hseg
  obtain ⟨hu', -, ha'⟩ := ps.queues
  obtain ⟨hsnd, -, -⟩ := ps.same
  have hbuf : (sendHead env force n c seg rest).pcb.sndBuf = c.pcb.sndBuf := by
    rw [ps.pcb_eq]
    cases ha : afterSend force ps.out (c.pcb.sending ps.marks rest) with
    | none => rfl
    | some q => exact (afterSend_sndBuf hout ha).trans rfl
  refine h.of_segs hbuf (by rw [hsnd]) (by rw [hsnd]) fun s hs => ?_
  rcases hs with hs | hs
  · rw [hu'] at hs
    exact .inr ⟨s, .inl (by rw [hu]; exact List.mem_cons_of_mem _ hs), rfl⟩
  · rcases ha' s hs with hs | ⟨rfl, -⟩
    · exact .inr ⟨s, .inr hs, rfl⟩
    · exact .inl hout

theorem tcpOutput_sameBuf (hf : c.fault = false) (h : SameBuf c.pcb c.pcb) :
    SameBuf c.pcb (tcpOutput env c).pcb :=
  tcpOutput_kept SameBuf.of_books hf h (forceTransmit_sameBuf env h)
    (fun wnd n _ hq => splitHead_sameBuf env _ wnd n hq) fun n _ _ _ hq hu => sendHead_sameBuf env _ n hq hu

theorem tcpSendFin_sameBuf {q : Pcb} (h : SameBuf p q) : SameBuf p (tcpSendFin env q).1 := by
  have hsegs : ∀ s, s ∈ (tcpSendFin env q).1.unsent ∨ s ∈ (tcpSendFin env q).1.unacked →
      s.isDummy = false ∨ ∃ t, (t ∈ q.unsent ∨ t ∈ q.unacked) ∧ s.opts = t.opts := by
    intro s hs
    rcases mem_tcpSendFin hs with rfl | hs | ⟨l, hl, rfl⟩
    · exact .inl rfl
    · exact .inr ⟨s, hs, rfl⟩
    · exact .inr ⟨l, .inl hl, rfl⟩
  refine h.of_segs ?_ ?_ ?_ hsegs <;>
    rcases tcpSendFin_cases env q with ⟨_, he, -⟩ | he | ⟨_, _, -, he⟩ <;> rw [he] <;> rfl

/-! ## Writing -/

theorem appendAfter_counts (pcb : Pcb) (last : TcpSeg) (queue : List TcpSeg) :
    (pcb.appendAfter last queue).sndBuf = pcb.sndBuf ∧
      (pcb.appendAfter last queue).sndQueuelen = pcb.sndQueuelen := by
  unfold Pcb.appendAfter
  split <;> exact ⟨rfl, rfl⟩

theorem tcpWriteCommit_counts (pcb : Pcb) (len : Nat) (w : NewSegs) (last : Option TcpSeg)
    (touched : Bool) :
    (tcpWriteCommit pcb len w last touched).sndBuf = pcb.sndBuf - u32 len ∧
      (tcpWriteCommit pcb len w last touched).sndQueuelen = w.queuelen := by
  cases last with
  | none => exact ⟨rfl, rfl⟩
  | some l => exact appendAfter_counts _ _ _

theorem tcpWrite_sndBuf {env : Env} {pcb : Pcb} {data : List U8} {isDummy : Bool} {e : Err}
    (h : tcpWrite env pcb data isDummy = some (p, e)) :
    (e ≠ .ok → p.sndBuf = pcb.sndBuf) ∧
      (e = .ok → data.length ≤ pcb.sndBuf.toNat ∧ p.sndBuf = pcb.sndBuf - u32 data.length) := by
  have hroom : e = .ok → data.length ≤ pcb.sndBuf.toNat := by
    rintro rfl
    unfold tcpWrite at h
    simp only at h
    split at h
    · rename_i hne
      exact absurd (congrArg Prod.snd (Option.some.inj h)) hne
    rename_i hok
    by_contra hlt
    have hbuf : (pcb.setSmlAdd data.length isDummy).sndBuf = pcb.sndBuf := rfl
    unfold tcpWriteChecks at hok
    rw [hbuf] at hok
    split at hok
    · exact hok (by simp)
    · rw [if_neg (by omega), if_pos (by omega)] at hok
      exact hok (by simp)
  rcases tcpWrite_cases h with ⟨he, hp⟩ | ⟨rfl, -, w, -, rfl⟩ | ⟨rfl, -, last, t, w, -, rfl⟩
  · refine ⟨fun _ => ?_, fun hok => absurd hok he⟩
    rcases hp with rfl | rfl | ⟨a, rfl⟩ <;> rfl
  · exact ⟨fun hne => absurd rfl hne, fun _ => ⟨hroom rfl, (tcpWriteCommit_counts _ _ w _ _).1⟩⟩
  · exact ⟨fun hne => absurd rfl hne, fun _ => ⟨hroom rfl, (tcpWriteCommit_counts _ _ w _ _).1⟩⟩

/-! ## Acknowledgements -/

/-- The acknowledgement is one of new data in a connection that takes it: it is credited. -/
def Credits (pkt : InPkt) (p : Pcb) : Prop :=
  AckTaken pkt p ∧ AcksNew pkt.hdr.ackno p.lastack p.sndNxt

instance (pkt : InPkt) (p : Pcb) : Decidable (Credits pkt p) := inferInstanceAs (Decidable (_ ∧ _))

/-- What an arriving segment does to the buffer: nothing; it is the answer to the SYN in `SYN_SENT`,
which is not credited; or it is credited. -/
structure Credited (pkt : InPkt) (p q : Pcb) : Prop where
  noDummy : NoDummy q
  maxSndBuff : q.maxSndBuff = p.maxSndBuff
  buf : q.lastack = p.lastack ∧ q.sndBuf = p.sndBuf ∨
    p.state = .synSent ∧ q.lastack = pkt.hdr.ackno ∧ q.sndBuf = p.sndBuf ∨
    Credits pkt p ∧ q.lastack = pkt.hdr.ackno ∧ q.sndBuf = p.sndBuf + (pkt.hdr.ackno - p.lastack)

namespace Credited

variable {pkt : InPkt} {p q r : Pcb}

theorem of_same (h : SameBuf p q) : Credited pkt p q :=
  ⟨h.noDummy, h.maxSndBuff, .inl ⟨h.lastack, h.sndBuf⟩⟩

theorem andThen (h : Credited pkt p q) (h' : SameBuf q r) : Credited pkt p r := by
  refine ⟨h'.noDummy, h'.maxSndBuff.trans h.maxSndBuff, ?_⟩
  rw [h'.lastack, h'.sndBuf]
  exact h.buf

theorem self (h : Credited pkt p q) : SameBuf q q := ⟨h.noDummy, rfl, rfl, rfl⟩

theorem kept (pkt : InPkt) (p : Pcb) : Carried (Credited pkt p) where
  same := fun h hr => h.andThen (h.self.of_books hr)
  dropped := fun {q _} h hr => h.andThen ((SameBuf.kept q).dropped h.self hr)

end Credited

theorem tcpInput_credited (cc : CcAlgo) (pkt : InPkt) (h : NoDummy c.pcb) :
    Credited pkt c.pcb (tcpInput env cc pkt c).conn.pcb := by
  have hself : SameBuf c.pcb c.pcb := ⟨h, rfl, rfl, rfl⟩
  refine tcpInput_kept (Credited.kept pkt c.pcb) ⟨?_, ?_, ?_⟩ (.of_same hself)
  · intro q rseg rest ha
    have hb := ha.books
    have hun : q.unacked = rest := congrArg Books.unacked hb
    have hus : q.unsent = c.pcb.unsent := congrArg Books.unsent hb
    refine ⟨fun s hs => h s ?_, congrArg Books.maxSndBuff hb,
      .inr (.inl ⟨ha.state, congrArg Books.lastack hb, congrArg Books.sndBuf hb⟩)⟩
    rw [hus, hun] at hs
    rw [ha.unacked]
    exact hs.imp id (List.mem_cons_of_mem _)
  · exact fun _ _ hq => .of_same (hself.of_books hq).rexmit
  · intro htaken q sack hq
    have hb := Pcb.heed_books hq
    refine tcpReceiveAck_kept (J := SameBuf c.pcb) (K := Credited pkt c.pcb) (I := Credited pkt c.pcb) cc
      (d := { pkt.inData with sack := sack }) (c := { c with pcb := q })
      ⟨SameBuf.of_books, (Credited.kept pkt c.pcb).same, ?_, .of_same, fun _ _ hp => .of_same hp.rexmit,
        ?_, ?_, ?_, ?_⟩ htaken.2.1
    · intro r hr
      have hr' : SameBuf c.pcb r := hself.of_books (hr.trans hb)
      have hstep := freeSacked_snd { pkt.inData with sack := sack } { c with pcb := r }
      refine hr'.of_segs ?_ ?_ ?_ fun s hs => .inr ⟨s, hstep.segs s hs, rfl⟩ <;>
        unfold freeSacked <;> split <;> rfl
    · intro hnew p hp
      have hlast : q.lastack = c.pcb.lastack := congrArg Books.lastack hb
      have hnxt : q.sndNxt = c.pcb.sndNxt := congrArg Books.sndNxt hb
      have hnew' : AcksNew pkt.hdr.ackno c.pcb.lastack c.pcb.sndNxt := by
        rw [← hlast, ← hnxt]
        exact hnew
      refine ⟨hp.noDummy, hp.maxSndBuff, .inr (.inr ⟨⟨htaken, hnew'⟩, rfl, ?_⟩)⟩
      show p.sndBuf + (pkt.hdr.ackno - p.lastack) = _
      rw [hp.sndBuf, hp.lastack]
    · intro persist c' hp
      have hstep := freeUnacked_snd pkt.hdr.ackno persist c'
      exact hp.andThen (hp.self.of_segs rfl rfl rfl fun s hs => .inr ⟨s, hstep.segs s hs, rfl⟩)
    · intro c' hp
      have hstep := freeUnsent_snd pkt.hdr.ackno c'
      exact hp.andThen (hp.self.of_segs rfl rfl rfl fun s hs => .inr ⟨s, hstep.segs s hs, rfl⟩)
    · intro p hp
      unfold rttEstimate
      split
      · exact hp.andThen (hp.self.of_segs rfl rfl rfl fun s hs => .inr ⟨s, hs, rfl⟩)
      · exact hp

/-! ## The other actions -/

theorem act_sameBuf (hf : c.fault = false) (h : NoDummy c.pcb)
    (hw : ∀ env data isDummy, a ≠ .write env data isDummy) (hi : a.isCall = true) :
    SameBuf c.pcb (c.act a).pcb := by
  have hself : SameBuf c.pcb c.pcb := ⟨h, rfl, rfl, rfl⟩
  have hk := SameBuf.kept c.pcb
  have hrx : SameBuf c.pcb c.pcb.shutRx := hself.of_books rfl
  have hpurged : SameBuf c.pcb c.pcb.purged := hself.of_segs rfl rfl rfl fun s hs => by
    rcases hs with hs | hs <;> cases hs
  cases a with
  | write env data isDummy => exact absurd rfl (hw env data isDummy)
  | output env => exact tcpOutput_sameBuf env hf hself
  | input => cases hi
  | recved len => exact hself.of_books (tcpRecved_books c.pcb len)
  | rexmit => exact hself.rexmit
  | rexmitRto =>
    show SameBuf c.pcb (tcpRexmitRtoRequeue c.pcb)
    unfold tcpRexmitRtoRequeue
    split
    · exact hself
    · refine hself.of_segs rfl rfl rfl fun s hs => .inr ⟨s, ?_, rfl⟩
      rcases hs with hs | hs
      · exact (List.mem_append.mp hs).symm
      · cases hs
  | rexmitFast cc =>
    show SameBuf c.pcb (tcpRexmitFast cc c.pcb)
    unfold tcpRexmitFast
    split
    · exact hself.rexmit.of_books rfl
    · exact hself
  | close env => exact tcpClose_kept hk hself (tcpSendFin_sameBuf env hrx) fun _ => hpurged
  | shutdown env rx tx =>
    exact tcpShutdown_kept hk rx tx hself (tcpSendFin_sameBuf env hself) (tcpSendFin_sameBuf env hrx)
      fun _ => hpurged
  | slowTimers env =>
    show SameBuf c.pcb (slowTimers env c).pcb
    unfold slowTimers
    split
    · split
      · exact (hself.of_books (r := c.pcb.persistNext) rfl).of_books (tcpKeepalive_books ..)
      · exact hself.of_books rfl
    · exact hself.of_segs rfl rfl rfl fun s hs => .inr ⟨s, hs, rfl⟩
  | slowRto cc => exact hself.of_segs rfl rfl rfl fun s hs => .inr ⟨s, hs, rfl⟩
  | slowChecks env exhausted => exact slowChecks_kept hk exhausted hself

/-! ## Conservation -/

namespace Account

/-- Only payload is written and only payload is acknowledged, but for the SYN in `SYN_SENT`. -/
def onlyPayload (s : Account) : Act → Prop
  | .write _ _ isDummy => isDummy = false
  | .input _ _ pkt =>
    let n := (pkt.hdr.ackno - s.conn.pcb.lastack).toNat
    (Credits pkt s.conn.pcb → n ≤ s.uses.length ∧ ∀ u ∈ s.uses.take n, u = .byte) ∧
      (s.conn.pcb.state = .synSent → ∀ u ∈ s.uses.take n, u ≠ .byte)
  | _ => True

/-- A connection being set up: the SYN is queued or out, and the buffer is empty. -/
structure Opening (s : Account) : Prop where
  state : s.conn.pcb.state = .synSent ∨ s.conn.pcb.state = .synRcvd
  uses : s.uses = [.syn]
  buf : s.conn.pcb.sndBuf.toNat = s.conn.pcb.maxSndBuff
  noDummy : NoDummy s.conn.pcb

structure Balanced (s : Account) : Prop where
  noDummy : NoDummy s.conn.pcb
  buf : s.conn.pcb.sndBuf.toNat + s.owed = s.conn.pcb.maxSndBuff
  max : s.conn.pcb.maxSndBuff < 4294967296

end Account

variable {s : Account}

namespace Account

theorem count_drop (l : List SeqUse) (n : Nat) :
    (l.take n).count .byte + (l.drop n).count .byte = l.count .byte := by
  rw [← List.count_append, List.take_append_drop]

theorem owed_step (hf : s.conn.fault = false) (a : Act) :
    (s.step a).owed = (s.uses.drop ((s.conn.act a).pcb.lastack - s.conn.pcb.lastack).toNat).count .byte +
      (s.accepted a).count .byte := by
  have hfin (b : Bool) : List.count SeqUse.byte (if b then [.fin] else []) = 0 := by
    cases b <;> rfl
  unfold step owed
  simp only [hf, Bool.false_eq_true, if_false, List.count_append, hfin, Nat.add_zero]

theorem conn_step (hf : s.conn.fault = false) (a : Act) : (s.step a).conn = s.conn.act a := by
  unfold step
  simp only [hf, Bool.false_eq_true, if_false]

theorem Balanced.same (h : s.Balanced) (hf : s.conn.fault = false) (ha : s.accepted a = [])
    (hs : SameBuf s.conn.pcb (s.conn.act a).pcb) : (s.step a).Balanced := by
  have howed : (s.step a).owed = s.owed := by
    rw [owed_step hf, ha, hs.lastack, BitVec.sub_self]
    rfl
  refine ⟨?_, ?_, ?_⟩ <;> rw [conn_step hf]
  · exact hs.noDummy
  · rw [howed, hs.sndBuf, hs.maxSndBuff]
    exact h.buf
  · rw [hs.maxSndBuff]
    exact h.max

theorem Balanced.input (h : s.Balanced) (hf : s.conn.fault = false) {env : Env} {cc : CcAlgo}
    {pkt : InPkt} (hok : s.onlyPayload (.input env cc pkt)) :
    (s.step (.input env cc pkt)).Balanced := by
  have hc := tcpInput_credited env cc pkt h.noDummy
  have hact : s.conn.act (.input env cc pkt) = (tcpInput env cc pkt s.conn).conn := rfl
  have howed := owed_step hf (Act.input env cc pkt)
  rw [hact] at howed
  have hbal := h.buf
  have hmax := h.max
  have hsplit := count_drop s.uses (pkt.hdr.ackno - s.conn.pcb.lastack).toNat
  rcases hc.buf with ⟨hl, hb⟩ | ⟨hst, hl, hb⟩ | ⟨hcr, hl, hb⟩
  · exact h.same hf rfl ⟨hc.noDummy, hb, hl, hc.maxSndBuff⟩
  · -- the SYN is acknowledged and not credited
    have hnone : (s.uses.take (pkt.hdr.ackno - s.conn.pcb.lastack).toNat).count .byte = 0 :=
      List.count_eq_zero.mpr fun hm => hok.2 hst _ hm rfl
    rw [hl] at howed
    refine ⟨?_, ?_, ?_⟩ <;> rw [conn_step hf, hact]
    · exact hc.noDummy
    · rw [howed, hb, hc.maxSndBuff]
      unfold owed at hbal
      show s.conn.pcb.sndBuf.toNat + (_ + 0) = _
      omega
    · rw [hc.maxSndBuff]
      exact hmax
  · -- bytes are acknowledged and credited one for one
    obtain ⟨hlen, hall⟩ := hok.1 hcr
    have hcount : (s.uses.take (pkt.hdr.ackno - s.conn.pcb.lastack).toNat).count .byte =
        (pkt.hdr.ackno - s.conn.pcb.lastack).toNat := by
      rw [List.count_eq_length.mpr fun u hu => (hall u hu).symm, List.length_take]
      exact Nat.min_eq_left hlen
    rw [hl] at howed
    refine ⟨?_, ?_, ?_⟩ <;> rw [conn_step hf, hact]
    · exact hc.noDummy
    · rw [howed, hb, hc.maxSndBuff]
      unfold owed at hbal
      show (s.conn.pcb.sndBuf + (pkt.hdr.ackno - s.conn.pcb.lastack)).toNat + (_ + 0) = _
      rw [BitVec.toNat_add_of_lt (by omega)]
      omega
    · rw [hc.maxSndBuff]
      exact hmax

theorem Balanced.write (h : s.Balanced) (hf : s.conn.fault = false) (env : Env) (data : List U8) :
    (s.step (.write env data false)).Balanced := by
  have hact : s.conn.act (.write env data false) = s.conn.write env data false := rfl
  have hbal := h.buf
  cases hw : tcpWrite env s.conn.pcb data false with
  | none =>
    have hc : s.conn.write env data false = { s.conn with fault := true } := by
      unfold Conn.write
      rw [hw]
    refine h.same hf ?_ ?_
    · simp only [accepted, hw]
    · rw [hact, hc]
      exact ⟨h.noDummy, rfl, rfl, rfl⟩
  | some r =>
    obtain ⟨p, e⟩ := r
    have hc : s.conn.write env data false = { s.conn with pcb := p } := by
      unfold Conn.write
      rw [hw]
    have hfr := tcpWrite_frame hw
    obtain ⟨hkeep, htake⟩ := tcpWrite_sndBuf hw
    have hlast : p.lastack = s.conn.pcb.lastack := by rw [hfr.snd]
    have hmax : p.maxSndBuff = s.conn.pcb.maxSndBuff := by rw [hfr.snd]
    have hnd : NoDummy p := by
      intro t ht
      rcases tcpWrite_origin hw ht with hd | ⟨t', ht', -, -, ho⟩
      · exact hd.2.2
      · rw [TcpSeg.isDummy, ho]
        exact h.noDummy t' ht'
    by_cases he : e = .ok
    · subst he
      obtain ⟨hroom, hbuf⟩ := htake rfl
      have howed : (s.step (.write env data false)).owed = s.owed + data.length := by
        rw [owed_step hf, hact, hc]
        show (s.uses.drop (p.lastack - s.conn.pcb.lastack).toNat).count .byte + _ = _
        rw [hlast, BitVec.sub_self]
        simp only [accepted, hw]
        simp [owed]
      have hlt := s.conn.pcb.sndBuf.isLt
      refine ⟨?_, ?_, ?_⟩ <;> rw [conn_step hf, hact, hc]
      · exact hnd
      · rw [howed]
        show p.sndBuf.toNat + _ = p.maxSndBuff
        have hu : (u32 data.length).toNat = data.length := by
          rw [u32, BitVec.toNat_ofNat]
          exact Nat.mod_eq_of_lt (by omega)
        rw [hbuf, hmax, BitVec.toNat_sub_of_le (by rw [BitVec.le_def, hu]; exact hroom), hu]
        omega
      · show p.maxSndBuff < _
        rw [hmax]
        exact h.max
    · refine h.same hf ?_ ?_
      · simp only [accepted, hw]
        cases e with
        | ok => exact absurd rfl he
        | mem | conn => rfl
      · rw [hact, hc]
        exact ⟨hnd, hkeep he, hlast, hmax⟩

theorem Balanced.step (h : s.Balanced) (hok : s.onlyPayload a) : (s.step a).Balanced := by
  cases hf : s.conn.fault with
  | true =>
    unfold Account.step
    rw [hf]
    exact h
  | false =>
    cases a with
    | write env data isDummy =>
      cases (show isDummy = false from hok)
      exact h.write hf env data
    | input env cc pkt => exact h.input hf hok
    | output | recved | rexmit | rexmitRto | rexmitFast | close | shutdown | slowTimers | slowRto |
        slowChecks =>
      exact h.same hf rfl (act_sameBuf hf h.noDummy (fun _ _ _ he => by cases he) rfl)

end Account

/-- **Send-buffer conservation.** In every run from the set-up of a connection in which only payload is
written and acknowledged, `snd_buf` is `max_snd_buff` less the payload bytes accepted and not
acknowledged. -/
theorem sndBuf_conserved {s₀ s : Account} (h₀ : s₀.Opening)
    (h : Reach Account.step Account.onlyPayload s₀ s) :
    s.conn.pcb.sndBuf.toNat + s.owed = s.conn.pcb.maxSndBuff ∧
      s.conn.pcb.sndBuf.toNat ≤ s.conn.pcb.maxSndBuff ∧ s.owed ≤ s.conn.pcb.maxSndBuff := by
  have hstart : s₀.Balanced := by
    refine ⟨h₀.noDummy, ?_, ?_⟩
    · rw [h₀.buf, Account.owed, h₀.uses]
      rfl
    · rw [← h₀.buf]
      exact s₀.conn.pcb.sndBuf.isLt
  have hbal := (h.inv (I := Account.Balanced) hstart fun _ _ hI hok => hI.step hok).buf
  exact ⟨hbal, by omega, by omega⟩

def openingAccount (state : TcpState) : Account where
  conn := { pcb := { tcpPcbInit {} with
    state := state
    sndNxt := 2
    sndLbb := 2
    sndWnd := 1000
    unacked := [{ addr := 0, seqno := 1, len := 0, p := [⟨List.replicate 20 0, 20⟩],
                  flags := { syn := true } }]
    lastUnacked := some 0
    sndQueuelen := 1
    nextSeg := 1
    rtime := 0 } }
  uses := [.syn]

def synAcker (flags : TcphFlags) : InPkt where
  hdr := ⟨1000, 2, 5, flags, 1000⟩
  optMem := fun _ => 0
  p := []
  tos := 0

theorem sndBuf_conserved_active :
    let s := ((openingAccount .synSent).step
      (.input {} lwipCcAlgo (synAcker { syn := true, ack := true }))).step (.write {} [1, 2, 3] false)
    s.owed = 3 ∧ s.conn.pcb.sndBuf.toNat + s.owed = s.conn.pcb.maxSndBuff := by
  have hopen : (openingAccount .synSent).Opening := ⟨.inl rfl, rfl, by decide, by decide⟩
  have hacked : Reach Account.step Account.onlyPayload (openingAccount .synSent)
      ((openingAccount .synSent).step
        (.input {} lwipCcAlgo (synAcker { syn := true, ack := true }))) :=
    .next .start _ ⟨fun h => absurd h (by decide +kernel), fun _ => by decide +kernel⟩
  exact ⟨by decide +kernel, (sndBuf_conserved hopen (hacked.next (.write {} [1, 2, 3] false) rfl)).1⟩

/-- The ACK that completes a passive open acknowledges the SYN ACK and is credited with it: the buffer is
a byte larger than its maximum. -/
theorem sndBuf_credits_syn :
    (openingAccount .synRcvd).Opening ∧
      let s := (openingAccount .synRcvd).step (.input {} lwipCcAlgo (synAcker { ack := true }))
      s.conn.fault = false ∧ s.conn.pcb.state = .established ∧ s.owed = 0 ∧
        s.conn.pcb.sndBuf.toNat = s.conn.pcb.maxSndBuff + 1 :=
  ⟨⟨.inr rfl, rfl, by decide, by decide⟩, by decide +kernel⟩

end LibvmaTlt.Lwip
