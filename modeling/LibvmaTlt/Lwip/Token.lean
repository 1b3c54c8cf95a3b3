import LibvmaTlt.Lib.Duplex
import LibvmaTlt.Lwip.StackRel

/-!
# The importance token

TLT keeps one important packet of each direction under way. The right to mark a data packet as important
is a token: the sender holds it as `send_state`, an IMP or IMPF packet carries it, the receiver holds it
as `recv_state`, and an IMPE or IMPEF packet brings it back. Every function of the stack conserves it, for
a connection without a TOS of its own and without a SYN in its queues; the law of conservation of
`Duplex` does the rest. A dummy segment takes the token like any other and never reaches the wire, so the
token is lost unless the dummy finds `send_state` idle.
-/

namespace LibvmaTlt.Lwip

/-! ## Tokens -/

abbrev markOf (tos : U8) : U8 := tos &&& 0xFC

def isImportant (tos : U8) : Bool := markOf tos = tltTosImp || markOf tos = tltTosImpf

def isEcho (tos : U8) : Bool := markOf tos = tltTosImpe || markOf tos = tltTosImpef

def markToken (tos : U8) : Nat := if isImportant tos then 1 else 0

def echoToken (tos : U8) : Nat := if isEcho tos then 1 else 0

def TltState.token : TltState → Nat
  | .idle => 0
  | _ => 1

def tltTokens : Duplex.Tokens Conn Packet where
  held c := c.pcb.tlt.sendState.token
  owed c := c.pcb.tlt.recvState.token
  mark p := markToken p.tos
  echo p := echoToken p.tos

/-- The packet is posted, or has no token to lose. -/
def Packet.Bare (p : Packet) : Prop := p.isDummy = true → markToken p.tos = 0 ∧ echoToken p.tos = 0

def Plain (p : Pcb) : Prop :=
  p.tos = 0 ∧ ∀ s, s ∈ p.unsent ∨ s ∈ p.unacked → s.flags.syn = false

/-- What a step does to the tokens: those that leave the pcb are in the packets it sends. -/
structure Keeps (c c' : Conn) : Prop where
  plain : Plain c'.pcb
  held : c'.pcb.tlt.sendState.token + (c'.sent.map (markToken ·.pkt.tos)).sum =
    c.pcb.tlt.sendState.token + (c.sent.map (markToken ·.pkt.tos)).sum
  owed : c'.pcb.tlt.recvState.token + (c'.sent.map (echoToken ·.pkt.tos)).sum =
    c.pcb.tlt.recvState.token + (c.sent.map (echoToken ·.pkt.tos)).sum
  dummies : ∀ x ∈ c'.sent, x ∈ c.sent ∨ x.pkt.Bare

variable {c c' : Conn}

variable {p pcb : Pcb} {wnd : U32} {rest : List TcpSeg}

namespace Keeps

theorem refl (h : Plain c.pcb) : Keeps c c := ⟨h, rfl, rfl, fun _ => .inl⟩

theorem trans {a b : Conn} (h : Keeps a b) (h' : Keeps b c) : Keeps a c :=
  ⟨h'.plain, h'.held.trans h.held, h'.owed.trans h.owed,
    fun x hx => (h'.dummies x hx).elim (h.dummies x) .inr⟩

theorem quiet (h : Plain c.pcb) (hsent : c'.sent = c.sent)
    (htlt : c'.pcb.tlt.sendState = c.pcb.tlt.sendState ∧ c'.pcb.tlt.recvState = c.pcb.tlt.recvState)
    (htos : c'.pcb.tos = c.pcb.tos)
    (hsegs : ∀ s, s ∈ c'.pcb.unsent ∨ s ∈ c'.pcb.unacked → s.flags.syn = false) : Keeps c c' :=
  ⟨⟨htos.trans h.1, hsegs⟩, by rw [hsent, htlt.1], by rw [hsent, htlt.2], fun x hx => .inl (hsent ▸ hx)⟩

theorem snd (h : Plain c.pcb) (hsent : c'.sent = c.sent) (hs : SndStep c.pcb c'.pcb) : Keeps c c' :=
  quiet h hsent ⟨by rw [hs.tlt], by rw [hs.tlt]⟩ hs.tos fun s hm => h.2 s (hs.segs s hm)

theorem rcv (h : Plain c.pcb) (hsent : c'.sent = c.sent) (hs : RcvStep c.pcb c'.pcb) : Keeps c c' := by
  refine quiet h hsent ⟨?_, ?_⟩ hs.tos ?_
  · rw [hs.out]
  · rw [hs.out]
  · intro s hm
    rw [hs.unsent, hs.unacked] at hm
    exact h.2 s hm

theorem calm (h : Plain c.pcb) (hc : Calm c c') : Keeps c c' :=
  quiet h hc.sent ⟨by rw [hc.tlt], by rw [hc.tlt]⟩ hc.tos (hc.noSyn h.2)

theorem send {x : Sent} (hp : Plain p)
    (hh : p.tlt.sendState.token + markToken x.pkt.tos = c.pcb.tlt.sendState.token)
    (ho : p.tlt.recvState.token + echoToken x.pkt.tos = c.pcb.tlt.recvState.token)
    (hb : x.pkt.Bare) : Keeps c { c with pcb := p, sent := c.sent ++ [x] } := by
  refine ⟨hp, ?_, ?_, fun y hy => ?_⟩
  iterate 2
    · simp only [List.map_append, List.sum_append, List.map_cons, List.map_nil, List.sum_cons,
        List.sum_nil]
      omega
  · rcases List.mem_append.mp hy with hy | hy
    · exact .inl hy
    · rw [List.mem_singleton.mp hy]
      exact .inr hb

theorem idle (h : Keeps c c') {l : List Sent} (hl : c'.sent = c.sent ++ l)
    (hi : c.pcb.tlt.sendState = .idle) : c'.pcb.tlt.sendState = .idle := by
  have hheld := h.held
  rw [hl, hi, List.map_append, List.sum_append] at hheld
  cases hs : c'.pcb.tlt.sendState with
  | idle => rfl
  | pending | pendingForce =>
    rw [hs] at hheld
    simp only [TltState.token] at hheld
    omega

end Keeps

/-! ## Packets -/

theorem echoMark_tokens (st : TltState) {tos : U8} (h : tos = 0 ∨ tos = 1) :
    markToken (tos ||| tltEchoMark st) = 0 ∧ echoToken (tos ||| tltEchoMark st) = st.token := by
  rcases h with rfl | rfl <;> cases st <;> decide

theorem plain_tokens {tos : U8} (h : tos = 0 ∨ tos = 1) : markToken tos = 0 ∧ echoToken tos = 0 := by
  rcases h with rfl | rfl <;> decide

variable (t : TltParam) (env : Env) (force : Bool) (n : Nat) {seg : TcpSeg}

theorem tcpSendEmptyAck_keeps (h : Plain c.pcb) : Keeps c (tcpSendEmptyAck env n c) := by
  unfold tcpSendEmptyAck
  split
  · obtain ⟨hm, he⟩ := echoMark_tokens c.pcb.tlt.recvState (.inl h.1)
    refine Keeps.send ⟨h.1, h.2⟩ ?_ ?_ nofun
    · show _ + markToken (c.pcb.tos ||| tltEchoMark c.pcb.tlt.recvState) = _
      rw [hm]
      rfl
    · show 0 + echoToken (c.pcb.tos ||| tltEchoMark c.pcb.tlt.recvState) = _
      rw [he, Nat.zero_add]
  · exact .refl h

theorem tcpKeepalive_keeps (h : Plain c.pcb) : Keeps c (tcpKeepalive env n c) := by
  obtain ⟨hm, he⟩ := plain_tokens (.inl h.1)
  unfold tcpKeepalive
  split
  · exact Keeps.send ⟨h.1, h.2⟩ (by rw [hm]; rfl) (by rw [he]; rfl) nofun
  · exact .refl h

theorem tcpRst_keeps (seqno ackno : U32) (h : Plain c.pcb) : Keeps c (tcpRst env n seqno ackno c) := by
  obtain ⟨hm, he⟩ := plain_tokens (.inl h.1)
  unfold tcpRst
  split
  · exact Keeps.send h (by rw [hm]; rfl) (by rw [he]; rfl) nofun
  · exact .refl h

theorem dctcpSend_tos (d : DctcpParam) (seg : TcpSeg) :
    (dctcpSend d { seg with tos := 0 }).2.tos = 0 ∨ (dctcpSend d { seg with tos := 0 }).2.tos = 1 := by
  simp only [dctcpSend]
  split
  · exact .inr rfl
  · exact .inl rfl

theorem tltSendPayload_tokens (pcb : Pcb) (h : seg.tos = 0 ∨ seg.tos = 1) :
    (tltSendPayload pcb seg).1.sendState.token + markToken (tltSendPayload pcb seg).2.tos =
        pcb.tlt.sendState.token ∧
      (tltSendPayload pcb seg).1.recvState.token + echoToken (tltSendPayload pcb seg).2.tos =
        pcb.tlt.recvState.token := by
  unfold tltSendPayload
  cases hst : pcb.tlt.sendState with
  | pending | pendingForce => rcases h with h | h <;> simp only [h] <;> exact ⟨by decide, rfl⟩
  | idle => rcases h with h | h <;> simp only [h, hst] <;> exact ⟨by decide, rfl⟩

theorem markSegment_tokens (htos : pcb.tos = 0) (hsyn : seg.flags.syn = false) :
    (markSegment pcb seg).1.sendState.token + markToken (markSegment pcb seg).2.tos =
        pcb.tlt.sendState.token ∧
      (markSegment pcb seg).1.recvState.token + echoToken (markSegment pcb seg).2.tos =
        pcb.tlt.recvState.token := by
  have hsyn' : (dctcpSend pcb.dctcp { seg with tos := 0 }).2.flags.syn = false :=
    (dctcpSendEmpty_flags pcb.dctcp seg.flags).2.trans hsyn
  have ht := dctcpSend_tos pcb.dctcp seg
  unfold markSegment
  rw [htos]
  generalize (dctcpSend pcb.dctcp { seg with tos := 0 }).2 = s at hsyn' ht ⊢
  unfold tltOut
  split
  · exact tltSendPayload_tokens pcb ht
  simp only [hsyn', Bool.false_eq_true, if_false]
  split
  · obtain ⟨hm, he⟩ := echoMark_tokens pcb.tlt.recvState ht
    simp only [tltSendAck, hm, he]
    exact ⟨rfl, Nat.zero_add _⟩
  · obtain ⟨hm, he⟩ := plain_tokens ht
    rw [hm, he]
    exact ⟨rfl, rfl⟩

/-- Payload sent with nothing pending takes no token along. -/
theorem markSegment_bare (htos : pcb.tos = 0) (hsyn : seg.flags.syn = false)
    (hi : pcb.tlt.sendState = .idle) (hlen : seg.len ≠ 0) :
    markToken (markSegment pcb seg).2.tos = 0 ∧ echoToken (markSegment pcb seg).2.tos = 0 := by
  have hrecv : (markSegment pcb seg).1.recvState = pcb.tlt.recvState := by
    unfold markSegment tltOut
    rw [if_pos (show (dctcpSend pcb.dctcp { seg with tos := pcb.tos }).2.len ≠ 0 from hlen)]
    unfold tltSendPayload
    rw [hi]
  obtain ⟨hm, he⟩ := markSegment_tokens htos hsyn
  rw [hi] at hm
  rw [hrecv] at he
  exact ⟨(Nat.add_eq_zero_iff.mp hm).2, by omega⟩

/-! ## `tcp_output` -/

/-- A dummy among the segments has payload within the window, as `check_dummy_send_conditions` assures,
and finds no token to take. -/
def Spares (wnd : U32) (p : Pcb) : Prop :=
  ∀ s ∈ p.unsent ++ p.unacked, s.isDummy = true →
    p.tlt.sendState = .idle ∧ s.len ≠ 0 ∧ fitsWnd p s wnd = true

instance (wnd : U32) (p : Pcb) : Decidable (Spares wnd p) := inferInstanceAs (Decidable (∀ _ ∈ _, _))

theorem Spares.queues {q : Pcb} (h : Spares wnd p)
    (hi : p.tlt.sendState = .idle → q.tlt.sendState = .idle) (hl : q.lastack = p.lastack)
    (hq : ∀ s ∈ q.unsent ++ q.unacked, s.isDummy = true → s ∈ p.unsent ++ p.unacked) : Spares wnd q := by
  intro s hs hd
  obtain ⟨h1, h2, h3⟩ := h s (hq s hs hd) hd
  refine ⟨hi h1, h2, ?_⟩
  unfold fitsWnd at h3 ⊢
  rw [hl]
  exact h3

theorem mem_afterSend {force : Bool} {s : TcpSeg} (h : afterSend force seg pcb = some p)
    (hs : s ∈ p.unsent ∨ s ∈ p.unacked) :
    s = seg ∨ s ∈ pcb.unsent ∨ s ∈ pcb.unacked := by
  obtain ⟨q, hq, hu, -⟩ := afterSend_eq h
  rcases hs with hs | hs
  · rw [hq] at hs
    exact .inr (.inl (hu ▸ hs))
  unfold afterSend at h
  simp only at h
  split at h
  · split at h
    · cases h
      exact .inr (.inr hs)
    · exact (mem_queueUnacked h hs).imp id .inr
  · cases h
    exact .inr (.inr hs)

theorem beforeSend_keeps (h : Plain c.pcb) (hu : c.pcb.unsent = seg :: rest) :
    Keeps c (beforeSend env force n c seg rest).1 := by
  have h1 : Keeps c { c with pcb := c.pcb.takeHead rest (nextSmlSnt force c.pcb seg rest) } := by
    refine .quiet h rfl ⟨rfl, rfl⟩ rfl fun s hs => h.2 s (hs.imp (fun h => ?_) id)
    rw [hu]
    exact List.mem_cons_of_mem _ h
  have h2 : Keeps c (ackBeforeDummy env n seg
      { c with pcb := c.pcb.takeHead rest (nextSmlSnt force c.pcb seg rest) }) := by
    unfold ackBeforeDummy
    split
    · exact h1.trans (tcpSendEmptyAck_keeps env (n + 1) h1.plain)
    · exact h1
  simp only [beforeSend]
  split
  · exact h2
  · exact h2.trans (.quiet h2.plain rfl ⟨rfl, rfl⟩ rfl h2.plain.2)

theorem sendHead_keeps (h : Plain c.pcb) (hu : c.pcb.unsent = seg :: rest) (hd : Spares wnd c.pcb) :
    Keeps c (sendHead env force n c seg rest) := by
  obtain ⟨m, fl, l, hc, hseg, -, hsyn, -⟩ := beforeSend_spec env force n c seg rest
  have h1 := beforeSend_keeps env force n h hu
  have hidle := h1.idle (congrArg Conn.sent hc)
  have hdummy : (beforeSend env force n c seg rest).2.isDummy = true →
      c.pcb.tlt.sendState = .idle ∧ (beforeSend env force n c seg rest).2.len ≠ 0 := by
    rw [hseg]
    intro hs
    obtain ⟨hi, hlen, -⟩ := hd seg (by rw [hu]; exact List.mem_cons_self) hs
    exact ⟨hi, hlen⟩
  have hs1 : (beforeSend env force n c seg rest).2.flags.syn = false := by
    rw [hseg]
    exact hsyn.trans (h.2 seg (.inl (by rw [hu]; exact List.mem_cons_self)))
  simp only [sendHead, tcpOutputSegment]
  generalize beforeSend env force n c seg rest = r at h1 hs1 hidle hdummy ⊢
  obtain ⟨fl', tos, hout, -, hsyn'⟩ := markSegment_seg r.1.pcb r.2
  have hbare : (segmentPacket env r.1.pcb (markSegment r.1.pcb r.2).2).Bare := by
    intro hs
    have hs : (markSegment r.1.pcb r.2).2.isDummy = true := hs
    rw [hout] at hs
    obtain ⟨hi, hlen⟩ := hdummy hs
    exact markSegment_bare h1.plain.1 hs1 (hidle hi) hlen
  have hso : (markSegment r.1.pcb r.2).2.flags.syn = false := by
    rw [hout]
    exact hsyn'.trans hs1
  obtain ⟨hm, he⟩ := markSegment_tokens h1.plain.1 hs1
  have h2 (x : Pcb) : Keeps r.1 { r.1 with
      pcb := r.1.pcb.segmentOut env r.2
      sent := r.1.sent ++ [⟨x, some (markSegment r.1.pcb r.2).2,
        segmentPacket env r.1.pcb (markSegment r.1.pcb r.2).2⟩] } :=
    Keeps.send ⟨h1.plain.1, h1.plain.2⟩ hm he hbare
  cases ha : afterSend force (markSegment r.1.pcb r.2).2 (r.1.pcb.segmentOut env r.2) with
  | none => exact h1.trans ⟨(h2 c.pcb).plain, (h2 c.pcb).held, (h2 c.pcb).owed, (h2 c.pcb).dummies⟩
  | some p =>
    obtain ⟨q, hq, -⟩ := afterSend_eq ha
    have htlt : p.tlt = (r.1.pcb.segmentOut env r.2).tlt := by rw [hq]; rfl
    refine h1.trans ⟨⟨by rw [hq]; exact h1.plain.1, fun s hs => ?_⟩, ?_, ?_, (h2 c.pcb).dummies⟩
    · rcases mem_afterSend ha hs with rfl | hs
      · exact hso
      · exact h1.plain.2 s hs
    · simpa only [htlt] using (h2 c.pcb).held
    · simpa only [htlt] using (h2 c.pcb).owed

theorem sendHead_spares (h : Plain c.pcb) (hu : c.pcb.unsent = seg :: rest) (hd : Spares wnd c.pcb) :
    Spares wnd (sendHead env force n c seg rest).pcb := by
  obtain ⟨hp⟩ := sendHead_pass env force n c seg rest
  have hsent := hp.sent_eq
  rw [List.append_assoc] at hsent
  obtain ⟨hun, -, hua⟩ := hp.queues
  refine hd.queues ((sendHead_keeps env force n h hu hd).idle hsent)
    (congrArg SndVars.lastack hp.same.1) fun s hs hsd => ?_
  rw [hun] at hs
  rw [hu]
  rcases List.mem_append.mp hs with hs | hs
  · exact List.mem_append_left _ (List.mem_cons_of_mem _ hs)
  · rcases hua s hs with hs | ⟨rfl, hno⟩
    · exact List.mem_append_right _ hs
    · rw [TcpSeg.isDummy, hp.out_seg.2.2.2.2.1] at hsd
      cases hsd.symm.trans hno

theorem splitHead_spares (n : Nat) (hd : Spares wnd p) :
    Spares wnd (splitHead env force wnd n p) := by
  rcases splitHead_unsent env force wnd n p with he | ⟨seg, rest, s, hu, -, -, -, hfit, hc, he⟩
  · rw [he]
    exact hd
  rw [he]
  obtain ⟨-, -, -, h1, h2, -⟩ := splitCut_frame hc
  have hseg : seg.isDummy = false := by
    by_contra hs
    have := (hd seg (by rw [hu]; exact List.mem_cons_self) (by simpa using hs)).2.2
    cases this.symm.trans hfit
  refine hd.queues id rfl fun t ht htd => ?_
  rcases List.mem_cons.mp ht with rfl | ht
  · rw [TcpSeg.isDummy, h1] at htd
    cases htd.symm.trans hseg
  rcases List.mem_cons.mp ht with rfl | ht
  · rw [TcpSeg.isDummy, h2] at htd
    cases htd.symm.trans hseg
  · rw [hu]
    exact List.mem_cons_of_mem _ ht

theorem splitHead_keeps (wnd : U32) (n : Nat) (h : Plain c.pcb) :
    Keeps c { c with pcb := splitHead env force wnd n c.pcb } := by
  rcases splitHead_unsent env force wnd n c.pcb with he | ⟨seg, rest, s, hu, -, -, -, -, hc, he⟩
  · rw [he]
    exact .refl h
  rw [he]
  obtain ⟨h1, h2, -⟩ := splitCut_frame hc
  refine .quiet h rfl ⟨rfl, rfl⟩ rfl ?_
  rintro x (hx | hx)
  · have hseg := h.2 seg (.inl (by rw [hu]; exact List.mem_cons_self))
    rcases List.mem_cons.mp hx with rfl | hx
    · rw [h1]; exact hseg
    · rcases List.mem_cons.mp hx with rfl | hx
      · exact h2
      · exact h.2 x (.inl (by rw [hu]; exact List.mem_cons_of_mem _ hx))
  · exact h.2 x (.inr hx)

theorem outputLoop_keeps (wnd : U32) (f n : Nat) (h : Plain c.pcb) (hf : c.fault = false)
    (hd : Spares wnd c.pcb) : Keeps c (outputLoop env force wnd f n c) := by
  refine (outputLoop_inv (fun c' => Keeps c c' ∧ Spares wnd c'.pcb) ?_ ?_ f n c hf ⟨.refl h, hd⟩).1
  · intro n c' hc
    exact ⟨hc.1.trans (splitHead_keeps env force wnd n hc.1.plain), splitHead_spares env force n hc.2⟩
  · intro n c' seg rest hc _ hu _ _
    exact ⟨hc.1.trans (sendHead_keeps env force n hc.1.plain hu hc.2),
      sendHead_spares env force n hc.1.plain hu hc.2⟩

theorem tltUimpqPop_states (maxLen round : U32) :
    (tltUimpqPop t maxLen round).recvState = t.recvState := by
  unfold tltUimpqPop
  simp only
  split <;> rfl

theorem forcePop_keeps (k : Nat) (h : Plain c.pcb) (hw : forceWanted c.pcb = true) :
    Keeps c { c with pcb := c.pcb.forcePop k } := by
  have hst := sendState_of_forceWanted hw
  refine ⟨h, ?_, ?_, fun _ => .inl⟩
  · have : c.pcb.tlt.sendState.token = 1 := by
      cases hs : c.pcb.tlt.sendState with
      | idle => exact absurd hs hst
      | pending | pendingForce => rfl
    rw [this]
    rfl
  · show (tltUimpqPop c.pcb.tlt _ _).recvState.token + _ = _
    rw [tltUimpqPop_states]

theorem forceTransmit_keeps (h : Plain c.pcb) :
    Keeps c { c with pcb := (forceTransmit env c.pcb).1 } := by
  rcases forceTransmit_cases env c.pcb with he | ⟨k, hw, he⟩ | ⟨seq, target, hw, -, -, -, -, he⟩
  · rw [he]
    exact .refl h
  · rw [he]
    exact forcePop_keeps k h hw
  rw [he]
  have h1 := forcePop_keeps (forceTargetLen c.pcb seq target) h hw
  refine h1.trans (.quiet h1.plain rfl ⟨rfl, rfl⟩ rfl ?_)
  rintro s (hs | hs)
  · rcases List.mem_cons.mp hs with rfl | hs
    · rfl
    · exact h.2 s (.inl hs)
  · exact h.2 s (.inr hs)

/-- Data is retransmitted by force only while a token is held, so no dummy is queued then. -/
theorem forceTransmit_spares (hd : Spares wnd p) : Spares wnd (forceTransmit env p).1 := by
  have hno (hw : forceWanted p = true) (s : TcpSeg) (hs : s ∈ p.unsent ++ p.unacked) :
      s.isDummy = false := by
    by_contra hs'
    exact sendState_of_forceWanted hw (hd s hs (by simpa using hs')).1
  rcases forceTransmit_cases env p with he | ⟨k, hw, he⟩ | ⟨seq, target, hw, -, ht, -, -, he⟩ <;> rw [he]
  · exact hd
  · exact fun s hs hsd => absurd (hno hw s hs) (by simp [hsd])
  · intro s hs hsd
    rcases List.mem_cons.mp hs with rfl | hs
    · have htd : target.isDummy = true := hsd
      cases htd.symm.trans (hno hw target (List.mem_append_right _ (List.mem_of_find?_eq_some ht)))
    · cases hsd.symm.trans (hno hw s hs)

theorem tcpOutput_keeps (h : Plain c.pcb) (hf : c.fault = false) (hd : Spares c.pcb.wnd c.pcb) :
    Keeps c (tcpOutput env c) := by
  simp only [tcpOutput]
  split
  · exact tcpSendEmptyAck_keeps env 0 h
  · have h1 := forceTransmit_keeps env h
    have h2 := h1.trans (outputLoop_keeps env (forceTransmit env c.pcb).2 c.pcb.wnd
      (outputFuel (forceTransmit env c.pcb).1.unsent) 0 h1.plain hf (forceTransmit_spares env hd))
    exact h2.trans (.quiet h2.plain rfl ⟨rfl, rfl⟩ rfl h2.plain.2)

/-! ## The other calls -/

theorem keeps_trans {c'' : Conn} (h : Plain c.pcb → Keeps c c') (h' : Plain c'.pcb → Keeps c' c'') :
    Plain c.pcb → Keeps c c'' := fun hp => (h hp).trans (h' (h hp).plain)

theorem keeps_ackRel : AckRel env fun c c' => Plain c.pcb → Keeps c c' where
  trans := keeps_trans
  snd := fun hs hsent _ h => .snd h hsent hs
  ack := fun n _ => tcpSendEmptyAck_keeps env n

theorem keeps_textRel : TextRel env fun c c' => Plain c.pcb → Keeps c c' where
  refl := fun _ => .refl
  trans := keeps_trans
  text := fun hs h => .rcv h rfl hs.toRcvStep
  ack := fun n _ => tcpSendEmptyAck_keeps env n
  fault := fun _ h => ⟨h, rfl, rfl, fun _ => .inl⟩

theorem keeps_passRel : PassRel fun c c' => Plain c.pcb → Keeps c c' where
  trans := keeps_trans
  calm := fun hc h => .calm h hc
  rst := fun env n seqno ackno _ => tcpRst_keeps env n seqno ackno
  probe := fun env n _ => tcpKeepalive_keeps env n

theorem tcpProcess_keeps (cc : CcAlgo) (m : Nat → U8) (d : InData) (h : Plain c.pcb)
    (hs : Synchronized c.pcb) : Keeps c (tcpProcess env cc m d c).1 := by
  rcases tcpProcess_cases env cc m d hs with ⟨-, -, he⟩ | ⟨-, he⟩ | ⟨-, -, he⟩ | ⟨-, -, -, he⟩ |
    ⟨t, sack, -, -, -, he⟩
  · rw [he]
    exact .quiet h rfl ⟨rfl, rfl⟩ rfl h.2
  · rw [he]
    exact .refl h
  · rw [he]
    exact .calm h (ackNow_calm c)
  · rw [he]
    exact ⟨h, rfl, rfl, fun _ => .inl⟩
  · rw [he]
    have h1 : Keeps c { c with pcb := (c.pcb.heard env).setTsRecent t } :=
      .quiet h rfl ⟨rfl, rfl⟩ rfl h.2
    have h2 := h1.trans ((keeps_ackRel env).tcpReceiveAck cc { d with sack := sack } _ h1.plain)
    have h3 := h2.trans ((keeps_textRel env).tcpReceiveData { d with sack := sack } _ h2.plain)
    exact h3.trans (.calm h3.plain (afterReceive_calm _ c.pcb.state _))

/-- The action is a call, and no dummy is output while the token is held. -/
def Act.spares (p : Pcb) (a : Act) : Prop :=
  a.isCall = true ∧ ∀ env, a = .output env → Spares p.wnd p

theorem act_keeps (a : Act) (h : Plain c.pcb) (hf : c.fault = false) (hc : a.spares c.pcb) :
    Keeps c (c.act a) := by
  cases hplain : a.isPlain with
  | true => exact keeps_passRel.act c hplain h
  | false =>
    cases a with
    | output env => exact tcpOutput_keeps env h hf (hc.2 env rfl)
    | input => cases hc.1
    | rexmitFast cc => exact .snd h rfl (tcpRexmitFast_snd cc _)
    | slowRto cc => exact .quiet h rfl ⟨rfl, rfl⟩ rfl h.2
    | _ => cases hplain

/-! ## Two connections -/

structure Arrival where
  env : Env
  cc : CcAlgo
  pkt : InPkt

/-- A step and the packets it posts: `send_lwip_buffer` posts a NOP or nothing for a dummy. -/
def Conn.emit (c : Conn) (a : Act) : Conn × List Packet :=
  let r := { c with sent := [] }.step a
  (r, (r.sent.map Sent.pkt).filter (!·.isDummy))

def endpoint : Machine Conn Packet Act Arrival where
  act c a := c.emit a
  recv c _ x := c.emit (.input x.env x.cc x.pkt)

def Arrival.Ok (c : Conn) (pkt : Packet) (x : Arrival) : Prop :=
  x.pkt.Carries pkt ∧ Synchronized c.pcb ∧ c.fault = false

theorem tltInMark_send (m : U8) :
    (tltInMark t m).sendState =
      if m = tltTosImpe ∨ m = tltTosImpef then .pending else t.sendState := by
  unfold tltInMark
  split_ifs <;> simp_all

theorem tltInMark_recv (m : U8) :
    (tltInMark t m).recvState =
      if m = tltTosImp then .pending else if m = tltTosImpf then .pendingForce else t.recvState := by
  unfold tltInMark
  split_ifs <;> simp_all

theorem marksIn_tokens (pcb : Pcb) (x : InPkt) :
    (pcb.tlt.sendState.token + echoToken x.tos ≤ 1 →
      (pcb.marksIn x).tlt.sendState.token = pcb.tlt.sendState.token + echoToken x.tos) ∧
    (pcb.tlt.recvState.token + markToken x.tos ≤ 1 →
      (pcb.marksIn x).tlt.recvState.token = pcb.tlt.recvState.token + markToken x.tos) := by
  have hst (u : UimpQueue) :
      (if x.hdr.flags.ack = true then { pcb.tlt with uimp := u } else pcb.tlt).sendState =
          pcb.tlt.sendState ∧
        (if x.hdr.flags.ack = true then { pcb.tlt with uimp := u } else pcb.tlt).recvState =
          pcb.tlt.recvState := by
    split <;> exact ⟨rfl, rfl⟩
  simp only [Pcb.marksIn, tltIn, tltInMark_send, tltInMark_recv, hst, echoToken, markToken, isEcho,
    isImportant, Bool.or_eq_true, decide_eq_true_eq]
  constructor
  · intro h
    split_ifs at h ⊢ with he
    · show 1 = _
      omega
    · rfl
  · intro h
    by_cases h1 : markOf x.tos = tltTosImp
    · simp only [h1, true_or, if_true] at h ⊢
      show 1 = _
      omega
    by_cases h2 : markOf x.tos = tltTosImpf
    · simp only [h2, or_true, if_true] at h ⊢
      show 1 = _
      omega
    · simp only [h1, h2, or_self, if_false, Nat.add_zero]

theorem sum_posted {f : Packet → Nat} {l : List Sent}
    (h : ∀ x ∈ l, x.pkt.isDummy = true → f x.pkt = 0) :
    (((l.map Sent.pkt).filter (!·.isDummy)).map f).sum = (l.map (f ·.pkt)).sum := by
  induction l with
  | nil => rfl
  | cons x l ih =>
    have ih := ih fun y hy => h y (List.mem_cons_of_mem _ hy)
    rw [List.map_cons, List.map_cons, List.sum_cons, ← ih]
    cases hx : x.pkt.isDummy with
    | true =>
      rw [List.filter_cons_of_neg (by simp [hx]), h x List.mem_cons_self hx, Nat.zero_add]
    | false => rw [List.filter_cons_of_pos (by simp [hx]), List.map_cons, List.sum_cons]

theorem conserves_of_keeps {marks echoes : Nat} (h : Keeps { c with pcb := p, sent := [] } c')
    (hh : c.pcb.tlt.sendState.token + echoes ≤ 1 →
      p.tlt.sendState.token = c.pcb.tlt.sendState.token + echoes)
    (ho : c.pcb.tlt.recvState.token + marks ≤ 1 →
      p.tlt.recvState.token = c.pcb.tlt.recvState.token + marks) :
    Duplex.Conserves tltTokens (fun c => Plain c.pcb) c marks echoes
      (c', (c'.sent.map Sent.pkt).filter (!·.isDummy)) where
  good := h.plain
  held hle := by
    have := h.held
    simp only [List.map_nil, List.sum_nil, Nat.add_zero, hh hle] at this
    have hposted := sum_posted (f := tltTokens.mark) fun x hx hd =>
      ((h.dummies x hx).resolve_left List.not_mem_nil hd).1
    rw [hposted]
    exact this
  owed hle := by
    have := h.owed
    simp only [List.map_nil, List.sum_nil, Nat.add_zero, ho hle] at this
    have hposted := sum_posted (f := tltTokens.echo) fun x hx hd =>
      ((h.dummies x hx).resolve_left List.not_mem_nil hd).2
    rw [hposted]
    exact this

theorem act_conserves {a : Act} (h : Plain c.pcb) (hc : a.spares c.pcb) :
    Duplex.Conserves tltTokens (fun c => Plain c.pcb) c 0 0 (endpoint.act c a) := by
  have hk : Keeps { c with sent := [] } ({ c with sent := [] }.step a) := by
    unfold Conn.step
    split
    · exact .refl h
    · rename_i hf
      exact act_keeps a h (by simpa using hf) hc
  exact conserves_of_keeps hk (fun _ => rfl) (fun _ => rfl)

theorem recv_conserves {pkt : Packet} {x : Arrival} (h : Plain c.pcb) (hx : x.Ok c pkt) :
    Duplex.Conserves tltTokens (fun c => Plain c.pcb) c (tltTokens.mark pkt) (tltTokens.echo pkt)
      (endpoint.recv c pkt x) := by
  obtain ⟨hc, hs, hf⟩ := hx
  have hin : Keeps { c with pcb := c.pcb.marksIn x.pkt, sent := [] }
      ({ c with sent := [] }.step (.input x.env x.cc x.pkt)) := by
    have hp : Plain (c.pcb.marksIn x.pkt) := h
    have h1 := tcpProcess_keeps x.env x.cc x.pkt.optMem x.pkt.inData
      (c := { c with pcb := c.pcb.marksIn x.pkt, sent := [] }) hp hs
    rw [Conn.step_eq (c := { c with sent := [] }) _ hf]
    simp only [Conn.act, tcpInput, hs.active, if_true]
    split
    · exact h1
    · split
      · exact h1.trans (.calm h1.plain (tcpPcbRemove_calm _))
      · exact h1.trans (keeps_passRel.notify _ _ _ h1.plain)
  have htos : tltTokens.mark pkt = markToken x.pkt.tos ∧ tltTokens.echo pkt = echoToken x.pkt.tos := by
    simp only [tltTokens, markToken, echoToken, isImportant, isEcho, markOf, hc.tos]
    exact ⟨rfl, rfl⟩
  obtain ⟨hh, ho⟩ := marksIn_tokens c.pcb x.pkt
  rw [htos.1, htos.2]
  exact conserves_of_keeps hin hh ho

/-- **Token conservation.** Two connections without a TOS of their own and without a queued SYN, between
which nothing is lost or duplicated, and of which none outputs a dummy while it holds the token: if there
is one token for the direction from left to right, there is one in every state reached, and at most one
important packet is under way. -/
theorem token_conserved {s₀ s : Duplex Conn Packet} (hl : Plain s₀.left.pcb)
    (hr : Plain s₀.right.pcb) (h1 : s₀.count tltTokens = 1)
    (h : Reach (Duplex.step endpoint)
      (Duplex.Admits (fun c a => a.spares c.pcb) fun c pkt x => x.Ok c pkt) s₀ s) :
    s.count tltTokens = 1 ∧ (s.toRight.countP fun p => isImportant p.tos) ≤ 1 := by
  have hone := (Duplex.count_eq_one (fun _ _ => act_conserves) (fun _ _ _ => recv_conserves)
    ⟨hl, hr, h1⟩ h).2.2
  refine ⟨hone, ?_⟩
  have hcount : (s.toRight.countP fun p => isImportant p.tos) = (s.toRight.map tltTokens.mark).sum := by
    induction s.toRight with
    | nil => rfl
    | cons p rest ih =>
      rw [List.countP_cons, List.map_cons, List.sum_cons, ih, Nat.add_comm]
      rfl
  rw [hcount]
  unfold Duplex.count at hone
  omega

def tokenStart : Duplex Conn Packet where
  left := { pcb := { tcpPcbInit {} with
    state := .established
    sndWnd := 1000
    cwnd := 1000
    tlt := { tltInit with sendState := .pending } } }
  right := { pcb := { tcpPcbInit {} with state := .established } }
  toRight := []
  toLeft := []

/-- The left connection writes a byte, and outputs it. -/
def sends (s : Duplex Conn Packet) (isDummy : Bool) : Duplex Conn Packet :=
  (s.step endpoint (.act true (.write {} [1] isDummy))).step endpoint (.act true (.output {}))

/-- A byte is sent with the token, and a dummy after it. -/
theorem token_conserved_sent :
    (sends (sends tokenStart false) true).toRight.map (·.tos) = [0x29] ∧
      (sends (sends tokenStart false) true).count tltTokens = 1 := by
  have hp (p : Pcb) (hu : p.unsent = []) (ha : p.unacked = []) (s : TcpSeg) :
      s ∈ p.unsent ∨ s ∈ p.unacked → s.flags.syn = false := by
    simp [hu, ha]
  have hwrite (d : Bool) {p : Pcb} : Act.spares p (.write {} [1] d) := ⟨rfl, nofun⟩
  have hout {p : Pcb} (h : Spares p.wnd p) : Act.spares p (.output {}) := ⟨rfl, fun _ _ => h⟩
  have hstart : Reach (Duplex.step endpoint) (Duplex.Admits (fun c a => a.spares c.pcb)
      fun c pkt x => x.Ok c pkt) tokenStart tokenStart := .start
  have hdata := (hstart.next (.act true (.write {} [1] false)) (hwrite false)).next
    (.act true (.output {})) (hout (by decide +kernel))
  have hrun := (hdata.next (.act true (.write {} [1] true)) (hwrite true)).next (.act true (.output {}))
    (hout (by decide +kernel))
  exact ⟨by decide +kernel, (token_conserved ⟨rfl, hp _ rfl rfl⟩ ⟨rfl, hp _ rfl rfl⟩ rfl hrun).1⟩

/-- A dummy output while the token is held takes it along, and is not posted. -/
theorem dummy_loses_token :
    Plain tokenStart.left.pcb ∧ Plain tokenStart.right.pcb ∧ tokenStart.count tltTokens = 1 ∧
      (sends tokenStart true).toRight = [] ∧ (sends tokenStart true).count tltTokens = 0 :=
  ⟨⟨rfl, by simp [tokenStart, tcpPcbInit]⟩, ⟨rfl, by simp [tokenStart, tcpPcbInit]⟩, rfl,
    by decide +kernel, by decide +kernel⟩

end LibvmaTlt.Lwip
