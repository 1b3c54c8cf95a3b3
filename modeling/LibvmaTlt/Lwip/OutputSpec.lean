import LibvmaTlt.Lwip.TcpOutput

/-!
# What `tcp_output` does

Sending a packet changes marks, timers and announcements of the pcb and nothing else: `Marks` are
those fields. `sendHead_pass` says everything a pass of the send loop can do, `outputLoop_inv`
is the rule by which an invariant of a pass becomes one of the loop, and `outputLoop_fuel` says that
the loop ends by itself.
-/

namespace LibvmaTlt.Lwip

/-! ## Marks -/

structure Marks extends OutVars where
  ackDelay : Bool
  ackNow : Bool

def Pcb.marks (pcb : Pcb) : Marks := ⟨pcb.toOutVars, pcb.flags.ackDelay, pcb.flags.ackNow⟩

def Pcb.withMarks (pcb : Pcb) (m : Marks) : Pcb :=
  { pcb with
    toOutVars := m.toOutVars
    flags := { pcb.flags with ackDelay := m.ackDelay, ackNow := m.ackNow } }

theorem Pcb.withMarks_marks (pcb : Pcb) : pcb.withMarks pcb.marks = pcb := rfl

theorem tltOut_seg (pcb : Pcb) (seg : TcpSeg) :
    (tltOut pcb seg).2 = { seg with tos := (tltOut pcb seg).2.tos } := by
  unfold tltOut
  split
  · unfold tltSendPayload
    split <;> rfl
  · split
    · rfl
    · split <;> rfl

theorem dctcpSendEmpty_flags (d : DctcpParam) (f : TcphFlags) :
    (dctcpSendEmpty d f).2.fin = f.fin ∧ (dctcpSendEmpty d f).2.syn = f.syn := by
  unfold dctcpSendEmpty
  split <;> exact ⟨rfl, rfl⟩

theorem markSegment_seg (pcb : Pcb) (seg : TcpSeg) :
    ∃ fl tos, (markSegment pcb seg).2 = { seg with flags := fl, tos := tos } ∧
      fl.fin = seg.flags.fin ∧ fl.syn = seg.flags.syn := by
  have h := tltOut_seg pcb (dctcpSend pcb.dctcp { seg with tos := pcb.tos }).2
  exact ⟨(dctcpSendEmpty pcb.dctcp seg.flags).2, _, h, dctcpSendEmpty_flags _ _⟩

theorem tcpSendEmptyAck_spec (env : Env) (n : Nat) (c : Conn) :
    ∃ m l, tcpSendEmptyAck env n c = { c with pcb := c.pcb.withMarks m, sent := c.sent ++ l } ∧
      m.rtime = c.pcb.rtime ∧ ∀ s ∈ l, s.seg = none := by
  unfold tcpSendEmptyAck
  split
  · refine ⟨(emptyAckPcb c.pcb).marks, [⟨c.pcb, none, emptyAckPacket env c.pcb⟩], rfl, rfl, ?_⟩
    intro s hs
    rw [List.mem_singleton.mp hs]
  · exact ⟨c.pcb.marks, [], by simp [Pcb.withMarks_marks], rfl, by simp⟩

/-! ## A pass of the send loop -/

theorem ackBeforeDummy_spec (env : Env) (n : Nat) (seg : TcpSeg) (c : Conn) :
    ∃ m l, ackBeforeDummy env n seg c = { c with pcb := c.pcb.withMarks m, sent := c.sent ++ l } ∧
      m.rtime = c.pcb.rtime ∧ ∀ s ∈ l, s.seg = none := by
  unfold ackBeforeDummy
  split
  · exact tcpSendEmptyAck_spec env (n + 1) c
  · exact ⟨c.pcb.marks, [], by simp [Pcb.withMarks_marks], rfl, by simp⟩

/-- A pcb with other marks whose unsent queue is `rest`. -/
def Pcb.sending (pcb : Pcb) (m : Marks) (rest : List TcpSeg) : Pcb :=
  (pcb.takeHead rest pcb.sndSmlSnt).withMarks m

theorem beforeSend_spec (env : Env) (force : Bool) (n : Nat) (c : Conn) (seg : TcpSeg)
    (rest : List TcpSeg) :
    ∃ m fl l, (beforeSend env force n c seg rest).1 =
        { c with pcb := c.pcb.sending m rest, sent := c.sent ++ l } ∧
      (beforeSend env force n c seg rest).2 = { seg with flags := fl } ∧
      fl.fin = seg.flags.fin ∧ fl.syn = seg.flags.syn ∧ m.rtime = c.pcb.rtime ∧
        ∀ s ∈ l, s.seg = none := by
  obtain ⟨m, l, hc, hrt, hl⟩ := ackBeforeDummy_spec env n seg
    { c with pcb := c.pcb.takeHead rest (nextSmlSnt force c.pcb seg rest) }
  unfold beforeSend
  simp only [hc]
  split
  · exact ⟨m, seg.flags, l, rfl, rfl, rfl, rfl, hrt, hl⟩
  · exact ⟨{ m with ackDelay := false, ackNow := false }, { seg.flags with ack := true }, l, rfl, rfl,
      rfl, rfl, hrt, hl⟩

structure Pass (force : Bool) (c : Conn) (seg : TcpSeg) (rest : List TcpSeg) (c' : Conn) where
  marks : Marks
  out : TcpSeg
  acks : List Sent
  pkt : Packet
  out_eq : ∃ fl tos, out = { seg with flags := fl, tos := tos } ∧ fl.fin = seg.flags.fin ∧
    fl.syn = seg.flags.syn
  rtime_eq : marks.rtime = if seg.isDummy ∨ c.pcb.rtime ≠ -1 then c.pcb.rtime else 0
  acks_seg : ∀ s ∈ acks, s.seg = none
  sent_eq : c'.sent = c.sent ++ acks ++ [⟨c.pcb, some out, pkt⟩]
  freed_eq : c'.freed = if notKept force out then c.freed ++ [out] else c.freed
  fault_eq : c'.fault = (c.fault || (afterSend force out (c.pcb.sending marks rest)).isNone)
  pcb_eq : c'.pcb = (afterSend force out (c.pcb.sending marks rest)).getD (c.pcb.sending marks rest)

theorem sendHead_pass (env : Env) (force : Bool) (n : Nat) (c : Conn) (seg : TcpSeg)
    (rest : List TcpSeg) : Nonempty (Pass force c seg rest (sendHead env force n c seg rest)) := by
  obtain ⟨m, fl, l, hc, hseg, hfin, hsyn, hrt, hl⟩ := beforeSend_spec env force n c seg rest
  obtain ⟨fl', tos, hout, hfin', hsyn'⟩ := markSegment_seg (c.pcb.sending m rest)
    { seg with flags := fl }
  have hm : c.pcb.sending ((c.pcb.sending m rest).segmentOut env { seg with flags := fl }).marks rest =
      (c.pcb.sending m rest).segmentOut env { seg with flags := fl } := rfl
  refine ⟨⟨((c.pcb.sending m rest).segmentOut env { seg with flags := fl }).marks,
    (markSegment (c.pcb.sending m rest) { seg with flags := fl }).2, l,
    segmentPacket env (c.pcb.sending m rest)
      (markSegment (c.pcb.sending m rest) { seg with flags := fl }).2,
    ⟨fl', tos, hout, hfin'.trans hfin, hsyn'.trans hsyn⟩, ?_, hl, ?_, ?_, ?_, ?_⟩⟩
  · show (if seg.isDummy ∨ m.rtime ≠ -1 then m.rtime else 0) = _
    rw [hrt]
  all_goals
    simp only [sendHead, hc, hseg, tcpOutputSegment, hm]
    cases h : afterSend force (markSegment (c.pcb.sending m rest) { seg with flags := fl }).2
      ((c.pcb.sending m rest).segmentOut env { seg with flags := fl })
  all_goals simp

variable {seg s : TcpSeg} {force : Bool} {env : Env} {rest : List TcpSeg} {wnd lts : U32} {n : Nat}

variable {c c' : Conn}

theorem Pass.out_seg (h : Pass force c seg rest c') :
    h.out.addr = seg.addr ∧ h.out.seqno = seg.seqno ∧ h.out.len = seg.len ∧ h.out.p = seg.p ∧
      h.out.opts = seg.opts ∧ h.out.tcplen = seg.tcplen := by
  obtain ⟨fl, tos, ho, hf, hs⟩ := h.out_eq
  rw [ho]
  refine ⟨rfl, rfl, rfl, rfl, rfl, ?_⟩
  simp only [TcpSeg.tcplen, hf, hs]

variable {pcb p : Pcb}

theorem queueUnacked_eq (h : queueUnacked pcb seg = some p) : ∃ l a, p = pcb.setUnacked l a := by
  unfold queueUnacked at h
  split at h
  · exact ⟨_, _, (Option.some.inj h).symm⟩
  split at h
  · cases h
  split at h
  · cases h
  · split at h
    · exact ⟨_, _, (Option.some.inj h).symm⟩
    · exact ⟨_, _, (Option.some.inj h).symm⟩

def Pcb.withQueues (pcb : Pcb) (q : SndQueues) : Pcb := { pcb with toSndQueues := q }

theorem afterSend_eq (h : afterSend force seg pcb = some p) :
    ∃ q, p = pcb.withQueues q ∧ q.unsent = pcb.unsent ∧ q.lastUnsent = pcb.lastUnsent ∧
      q.unsentOversize = pcb.unsentOversize ∧ q.nextSeg = pcb.nextSeg := by
  unfold afterSend at h
  simp only at h
  split at h
  · split at h
    · exact ⟨((pcb.bumpSndNxt seg).dropDummy seg).toSndQueues, (Option.some.inj h).symm, rfl, rfl, rfl,
        rfl⟩
    · obtain ⟨l, a, rfl⟩ := queueUnacked_eq h
      exact ⟨((pcb.bumpSndNxt seg).setUnacked l a).toSndQueues, rfl, rfl, rfl, rfl, rfl⟩
  · exact ⟨(pcb.bumpSndNxt seg).toSndQueues, (Option.some.inj h).symm, rfl, rfl, rfl, rfl⟩

theorem Pass.pcb_frame (h : Pass force c seg rest c') (hf : c'.fault = false) :
    ∃ q, c'.pcb = (c.pcb.withMarks h.marks).withQueues q ∧ q.unsent = rest ∧
      q.lastUnsent = c.pcb.lastUnsent ∧ q.unsentOversize = c.pcb.unsentOversize ∧
      q.nextSeg = c.pcb.nextSeg ∧
      afterSend force h.out (c.pcb.sending h.marks rest) = some c'.pcb := by
  have hs := h.fault_eq
  rw [hf] at hs
  cases ha : afterSend force h.out (c.pcb.sending h.marks rest) with
  | none => simp [ha] at hs
  | some p =>
    obtain ⟨q, hq, hr, hlu, ho, hn⟩ := afterSend_eq ha
    have hp : c'.pcb = p := by rw [h.pcb_eq, ha, Option.getD_some]
    exact ⟨q, hp.trans hq, hr, hlu, ho, hn, by rw [hp]⟩

theorem mem_insertSorted {l : List TcpSeg} : s ∈ insertSorted seg l ↔ s = seg ∨ s ∈ l := by
  induction l with
  | nil => simp [insertSorted]
  | cons t rest ih =>
    simp only [insertSorted]
    split
    · simp only [List.mem_cons, ih]
      tauto
    · simp only [List.mem_cons]

theorem mem_upTo {a : Nat} {l : List TcpSeg} (h : s ∈ upTo a l) : s ∈ l := by
  induction l with
  | nil => exact h
  | cons t rest ih =>
    simp only [upTo] at h
    split at h
    · rw [List.mem_singleton.mp h]
      exact List.mem_cons_self
    · rcases List.mem_cons.mp h with rfl | h
      · exact List.mem_cons_self
      · exact List.mem_cons_of_mem _ (ih h)

theorem mem_queueUnacked (h : queueUnacked pcb seg = some p) (hs : s ∈ p.unacked) :
    s = seg ∨ s ∈ pcb.unacked := by
  unfold queueUnacked at h
  split at h
  · cases h
    exact .inl (List.mem_singleton.mp hs)
  split at h
  · cases h
  split at h
  · cases h
  split at h
  · cases h
    exact mem_insertSorted.mp hs
  · cases h
    rcases List.mem_append.mp hs with hs | hs
    · exact .inr (mem_upTo hs)
    · exact .inl (List.mem_singleton.mp hs)

theorem Pass.queues (h : Pass force c seg rest c') :
    c'.pcb.unsent = rest ∧ c'.pcb.state = c.pcb.state ∧
      ∀ t ∈ c'.pcb.unacked, t ∈ c.pcb.unacked ∨ (t = h.out ∧ seg.isDummy = false) := by
  rw [h.pcb_eq]
  cases ha : afterSend force h.out (c.pcb.sending h.marks rest) with
  | none => exact ⟨rfl, rfl, fun t ht => .inl ht⟩
  | some p =>
    obtain ⟨q, rfl, hq, -⟩ := afterSend_eq ha
    refine ⟨hq, rfl, fun t ht => ?_⟩
    unfold afterSend at ha
    simp only at ha
    split at ha
    · split at ha
      · rw [← Option.some.inj ha] at ht
        exact .inl ht
      rename_i hd
      rcases mem_queueUnacked ha ht with ht | ht
      · refine .inr ⟨ht, ?_⟩
        rw [TcpSeg.isDummy, ← h.out_seg.2.2.2.2.1]
        simpa using hd
      · exact .inl ht
    · rw [← Option.some.inj ha] at ht
      exact .inl ht

theorem insertSorted_ne_nil (seg : TcpSeg) (l : List TcpSeg) : insertSorted seg l ≠ [] := by
  cases l with
  | nil => simp [insertSorted]
  | cons t rest =>
    simp only [insertSorted]
    split <;> simp

theorem queueUnacked_ne_nil (pcb : Pcb) (seg : TcpSeg) :
    ((queueUnacked pcb seg).getD pcb).unacked ≠ [] := by
  unfold queueUnacked
  by_cases hu : pcb.unacked = []
  · simp [hu, Pcb.setUnacked]
  rw [if_neg hu]
  split
  · exact hu
  split
  · exact hu
  · split
    · exact insertSorted_ne_nil seg pcb.unacked
    · simp [Pcb.setUnacked]

theorem afterSend_unacked :
    (pcb.unacked ≠ [] → ((afterSend force seg pcb).getD pcb).unacked ≠ []) ∧
      (force = false → seg.isDummy = false → 0 < seg.tcplen →
        ((afterSend force seg pcb).getD pcb).unacked ≠ []) ∧
      (seg.isDummy = true → ((afterSend force seg pcb).getD pcb).unacked = pcb.unacked ∧
        (afterSend force seg pcb).isNone = false) := by
  have hq : ((queueUnacked (pcb.bumpSndNxt seg) seg).getD pcb).unacked ≠ [] := by
    have h := queueUnacked_ne_nil (pcb.bumpSndNxt seg) seg
    cases hc : queueUnacked (pcb.bumpSndNxt seg) seg with
    | none | some => rw [hc] at h; exact h
  unfold afterSend
  simp only
  refine ⟨fun hu => ?_, fun hf hd ht => ?_, fun hd => ?_⟩
  · split
    · split
      · exact hu
      · exact hq
    · exact hu
  · rw [if_pos ⟨by simp [hf], ht⟩, if_neg (by simp [hd])]
    exact hq
  · simp only [hd, if_true]
    split <;> exact ⟨rfl, rfl⟩

theorem Pass.same (h : Pass force c seg rest c') :
    c'.pcb.toSndVars = c.pcb.toSndVars ∧ c'.pcb.toRcvVars = c.pcb.toRcvVars ∧
      c'.pcb.flags.timestamp = c.pcb.flags.timestamp := by
  rw [h.pcb_eq]
  cases ha : afterSend force h.out (c.pcb.sending h.marks rest) with
  | none => exact ⟨rfl, rfl, rfl⟩
  | some p =>
    obtain ⟨q, rfl, -⟩ := afterSend_eq ha
    exact ⟨rfl, rfl, rfl⟩

/-! ## The loop -/

/-- **Invariants of the send loop.** What the split and a pass keep, the loop keeps. -/
theorem outputLoop_inv (I : Conn → Prop)
    (hsplit : ∀ n c, I c → I { c with pcb := splitHead env force wnd n c.pcb })
    (hsend : ∀ n c seg rest, I c → c.fault = false → c.pcb.unsent = seg :: rest →
      (fitsWnd c.pcb seg wnd || force) = true → (!force && nagleStop c.pcb seg) = false →
      I (sendHead env force n c seg rest)) :
    ∀ f n c, c.fault = false → I c → I (outputLoop env force wnd f n c) := by
  intro f
  induction f with
  | zero => intro n c _ hc; exact hc
  | succ f ih =>
    intro n c hf hc
    have h1 := hsplit n c hc
    simp only [outputLoop]
    split
    · exact h1
    rename_i seg rest hu
    split
    · rename_i hfit
      split
      · exact h1
      rename_i hn
      have h2 := hsend n _ seg rest h1 hf hu hfit (by simpa using hn)
      split
      · exact h2
      · rename_i hnf
        exact ih _ _ (by simpa using hnf) h2
    · exact h1

theorem outputLoop_sent {f : Nat} (hf : c.fault = false) :
    ∃ l, (outputLoop env force wnd f n c).sent = c.sent ++ l := by
  refine outputLoop_inv (fun c' => ∃ l, c'.sent = c.sent ++ l) ?_ ?_ f n c hf ⟨[], by simp⟩
  · intro n c' h
    exact h
  · rintro n c' seg rest ⟨l, hl⟩ - - - -
    obtain ⟨ps⟩ := sendHead_pass env force n c' seg rest
    exact ⟨l ++ ps.acks ++ [⟨c'.pcb, some ps.out, ps.pkt⟩], by rw [ps.sent_eq, hl]; simp⟩

theorem splitHead_force (env : Env) (wnd : U32) (n : Nat) (pcb : Pcb) :
    splitHead env true wnd n pcb = pcb := by
  unfold splitHead
  split <;> simp

/-! ## The loop ends -/

def segFuel (s : TcpSeg) : Nat := pbufLen s.p + (tcpHlen + 1) * s.p.length + 1

theorem outputFuel_nil : outputFuel [] = 1 := rfl

theorem outputFuel_cons (s : TcpSeg) (l : List TcpSeg) :
    outputFuel (s :: l) = segFuel s + outputFuel l := by
  simp only [outputFuel, segFuel, List.map_cons, List.sum_cons]
  omega

theorem pbufLen_pushHeader_le (p : List Pbuf) : pbufLen (pushHeader p) ≤ pbufLen p + tcpHlen := by
  cases p with
  | nil => simp [pushHeader]
  | cons q rest =>
    simp only [pushHeader, pbufLen_cons, Pbuf.len, List.length_append, List.length_replicate]
    omega

theorem length_pushHeader (p : List Pbuf) : (pushHeader p).length = p.length := by
  cases p <;> rfl

theorem splitWalk_spec {hdr : Nat} {l : List Pbuf} :
    ∀ {k h : Nat} {front : List Pbuf} {h' : Nat} {front' back : List Pbuf},
      splitWalk env n hdr lts k h front l = some (h', front', back) →
      ∃ mid, front' = front ++ mid ∧ l = mid ++ back ∧ back ≠ [] ∧ h' = h + pbufLen mid := by
  induction l with
  | nil =>
    intro k h front h' front' back hw
    simp [splitWalk] at hw
  | cons q rest ih =>
    intro k h front h' front' back hw
    simp only [splitWalk] at hw
    split at hw
    · split at hw
      · cases hw
      · obtain ⟨mid, hf, hr, hb, hh⟩ := ih hw
        refine ⟨q :: mid, by simp [hf], by simp [hr], hb, ?_⟩
        rw [hh, pbufLen_cons]
        omega
    · cases hw
      exact ⟨[], by simp, rfl, by simp, by simp⟩

theorem splitWalk_le {hdr : Nat} {l : List Pbuf} :
    ∀ {k h : Nat} {front : List Pbuf} {h' : Nat} {front' back : List Pbuf},
      splitWalk env n hdr lts k h front l = some (h', front', back) → hdr ≤ h →
      h + pbufLen l < 4294967296 → h - hdr ≤ lts.toNat → h' - hdr ≤ lts.toNat := by
  induction l with
  | nil =>
    intro k h front h' front' back hw
    cases hw
  | cons q rest ih =>
    intro k h front h' front' back hw hle hlt hh
    rw [pbufLen_cons] at hlt
    rw [splitWalk] at hw
    split at hw
    · rename_i hfit
      split at hw
      · cases hw
      · refine ih hw (by omega) (by omega) ?_
        rw [BitVec.le_def, BitVec.toNat_sub, u32, u32, BitVec.toNat_ofNat, BitVec.toNat_ofNat] at hfit
        omega
    · cases hw
      exact hh

theorem add_le_wnd {off : U32} {len : Nat} (h : off < wnd) (hle : len ≤ (wnd - off).toNat) :
    off + u32 len ≤ wnd := by
  have h' : off.toNat < wnd.toNat := h
  have hw := wnd.isLt
  have hsub : (wnd - off).toNat = wnd.toNat - off.toNat := by
    rw [BitVec.toNat_sub]
    omega
  rw [BitVec.le_def, BitVec.toNat_add, u32, BitVec.toNat_ofNat]
  omega

theorem splitCut_fuel {s : SplitSegs} (hl : 0 < lts.toNat) (h : splitCut env n pcb seg lts = some s) :
    segFuel s.newseg < segFuel seg := by
  unfold splitCut at h
  simp only at h
  split at h
  · cases h
  rename_i p0 rest hp
  split at h
  · rename_i hbig
    split at h
    · cases h
    rw [← Option.some.inj h]
    simp only [segFuel, tcpCreateSegment, pushHeader, hp, pbufLen_cons, List.length_cons,
      Pbuf.len, List.length_append, List.length_replicate, List.length_take, length_readMem,
      u16] at hbig ⊢
    omega
  · split at h
    · cases h
    split at h
    · cases h
    rename_i headlen front back hw
    split at h
    · cases h
    obtain ⟨mid, hf, hr, -, -⟩ := splitWalk_spec hw
    rw [← Option.some.inj h]
    have h1 := pbufLen_pushHeader_le back
    simp only [segFuel, tcpCreateSegment, length_pushHeader, hp, hr, pbufLen_cons,
      pbufLen_append, List.length_cons, List.length_append, tcpHlen] at h1 ⊢
    omega

theorem splitCut_frame {s : SplitSegs} (h : splitCut env n pcb seg lts = some s) :
    s.seg.flags = seg.flags ∧ s.newseg.flags.syn = false ∧ s.newseg.flags.fin = false ∧
      s.seg.opts = seg.opts ∧ s.newseg.opts = seg.opts ∧ s.seg.seqno = seg.seqno := by
  unfold splitCut at h
  simp only at h
  split at h
  · cases h
  split at h
  · split at h
    · cases h
    · cases h
      exact ⟨rfl, rfl, rfl, rfl, rfl, rfl⟩
  · split at h
    · cases h
    split at h
    · cases h
    · split at h
      · cases h
      · cases h
        exact ⟨rfl, rfl, rfl, rfl, rfl, rfl⟩

theorem splitHead_unsent (env : Env) (force : Bool) (wnd : U32) (n : Nat) (pcb : Pcb) :
    splitHead env force wnd n pcb = pcb ∨
      ∃ seg rest s, pcb.unsent = seg :: rest ∧ pcb.unacked = [] ∧ force = false ∧
        (seg.seqno - pcb.lastack) < wnd ∧ fitsWnd pcb seg wnd = false ∧
        splitCut env n pcb seg (wnd - (seg.seqno - pcb.lastack)) = some s ∧
        splitHead env force wnd n pcb = pcb.splitInto seg rest s := by
  unfold splitHead
  split
  · exact .inl rfl
  rename_i seg rest hu
  split
  · rename_i hc
    unfold tcpSplitSegment
    simp only [hu]
    split
    · exact .inl rfl
    rename_i hno
    split
    · exact .inl rfl
    rename_i s hs
    refine .inr ⟨seg, rest, s, rfl, hc.2.1, by simpa using hc.1, ?_, by simpa using hc.2.2.2, hs,
      rfl⟩
    simp only [not_or, ge_iff_le, BitVec.not_le] at hno
    exact hno.2.1
  · exact .inl rfl

theorem splitHead_fuel (h : (splitHead env force wnd n pcb).unsent = seg :: rest) :
    outputFuel rest < outputFuel pcb.unsent := by
  rcases splitHead_unsent env force wnd n pcb with he | ⟨s0, r0, s, hu, -, -, hlt, -, hs, he⟩
  · rw [he] at h
    rw [h, outputFuel_cons]
    simp only [segFuel]
    omega
  · rw [he] at h
    cases h
    have hpos : 0 < (wnd - (s0.seqno - pcb.lastack)).toNat := by
      bv_omega
    have := splitCut_fuel hpos hs
    rw [hu, outputFuel_cons, outputFuel_cons]
    omega

/-- **The send loop ends.** More passes than `outputFuel` change nothing. -/
theorem outputLoop_fuel :
    ∀ {f g n : Nat} {c : Conn}, outputFuel c.pcb.unsent ≤ f → outputFuel c.pcb.unsent ≤ g →
      outputLoop env force wnd f n c = outputLoop env force wnd g n c := by
  intro f
  induction f with
  | zero =>
    intro g n c hf _
    simp [outputFuel] at hf
  | succ f ih =>
    intro g n c hf hg
    cases g with
    | zero => simp [outputFuel] at hg
    | succ g =>
      simp only [outputLoop]
      split
      · rfl
      rename_i seg rest hu
      have hlt := splitHead_fuel hu
      obtain ⟨ps⟩ := sendHead_pass env force n
        { c with pcb := splitHead env force wnd n c.pcb } seg rest
      split
      · split
        · rfl
        split
        · rfl
        rename_i hfault
        obtain ⟨q, hq, hr, -⟩ := ps.pcb_frame (by simpa using hfault)
        have hle : (sendHead env force n { c with pcb := splitHead env force wnd n c.pcb } seg
            rest).pcb.unsent = rest := by
          rw [hq]; exact hr
        apply ih
        · rw [hle]; omega
        · rw [hle]; omega
      · rfl

/-- Ten bytes wait for a window of four. -/
def waitingTen : Conn where
  pcb := { tcpPcbInit {} with
    state := .established
    unsent := [{ addr := 0, seqno := 1, len := 10, p := [⟨List.replicate 30 0, 30⟩] }]
    lastUnsent := some 0
    nextSeg := 1 }

/-- The head is split, and its first four bytes are sent. -/
theorem outputLoop_fuel_split :
    (outputLoop {} false 4 53 0 waitingTen).pcb.unacked.map (·.len) = [4] ∧
      (outputLoop {} false 4 53 0 waitingTen).pcb.unsent.map (·.len) = [6] ∧
      outputLoop {} false 4 53 0 waitingTen = outputLoop {} false 4 100 0 waitingTen :=
  ⟨by decide +kernel, by decide +kernel, outputLoop_fuel (by decide) (by decide)⟩

/-! ## The forced block -/

/-- What the forced block does: nothing, take a range out of the queue of unimportant data, or also put
a copy in front of `unsent`. -/
theorem forceTransmit_cases (env : Env) (pcb : Pcb) :
    forceTransmit env pcb = (pcb, false) ∨
    (∃ k, forceWanted pcb = true ∧ forceTransmit env pcb = (pcb.forcePop k, false)) ∨
    ∃ seq target, forceWanted pcb = true ∧ forceSeq pcb = some seq ∧
      forceTarget pcb seq = some target ∧ env.pbufOk 0 = true ∧ env.segOk 0 = true ∧
      forceTransmit env pcb = ((pcb.forcePop (forceTargetLen pcb seq target)).pushUnsent
        (forceCopy env pcb seq target), true) := by
  unfold forceTransmit
  split
  · exact .inl rfl
  rename_i hw
  split
  · exact .inl rfl
  rename_i seq hs
  split
  · exact .inl rfl
  rename_i target ht
  simp only
  simp only [Bool.not_eq_eq_eq_not, Bool.not_true, Bool.not_eq_false] at hw
  split
  · exact .inr (.inl ⟨_, hw, rfl⟩)
  · rename_i ha
    simp only [Bool.not_eq_eq_eq_not, Bool.not_true, not_or, Bool.not_eq_false] at ha
    exact .inr (.inr ⟨seq, target, hw, hs, ht, ha.1, ha.2, rfl⟩)

theorem noData_of_forceWanted (h : forceWanted pcb = true) : noData pcb = true := by
  unfold forceWanted at h
  simp only [Bool.and_eq_true] at h
  exact h.1.2

theorem sendState_of_forceWanted (h : forceWanted pcb = true) : pcb.tlt.sendState ≠ .idle := by
  unfold forceWanted at h
  simp only [Bool.and_eq_true, decide_eq_true_eq] at h
  exact h.2

end LibvmaTlt.Lwip
