import LibvmaTlt.Lwip.Books

/-!
# No silent stall

While a segment is unacknowledged the retransmission timer runs (`Timed`), so data can only be left
without a timer when nothing is in flight. `outputArms` says when a call of `tcp_output` avoids that.
-/

namespace LibvmaTlt.Lwip

/-! ## The retransmission timer -/

/-- The retransmission timer runs while something is unacknowledged. -/
def Timed (q : SndCore) : Prop := -1 ≤ q.rtime ∧ (q.unacked ≠ [] → 0 ≤ q.rtime)

namespace Timed

variable {q : SndCore}

theorem dropSacked (h : Timed q) (sack : List TcpSackBlock) : Timed (q.dropSacked sack) := by
  refine ⟨h.1, fun hne => h.2 fun hnil => hne ?_⟩
  simp [SndCore.dropSacked, hnil]

theorem rexmit (h : Timed q) : Timed q.rexmit := by
  unfold SndCore.rexmit
  split
  · exact h
  · rename_i seg rest hu
    exact ⟨h.1, fun _ => h.2 (by rw [hu]; exact List.cons_ne_nil _ _)⟩

theorem ackTo (q : SndCore) (ackno : U32) : Timed (q.ackTo ackno) := by
  unfold SndCore.ackTo
  by_cases hl : q.unacked.dropWhile (fun s => TcpSeqLeq s.seqEnd ackno) = []
  · simp [Timed, hl]
  · simp [Timed, hl]

theorem purged (q : SndCore) : Timed q.purged := ⟨Int.le_refl _, fun h => absurd rfl h⟩

theorem of_unacked {q' : SndCore} (h : Timed q) (ht : q'.rtime = q.rtime)
    (hu : q.unacked = [] → q'.unacked = []) : Timed q' := by
  refine ⟨ht ▸ h.1, fun hne => ?_⟩
  rw [ht]
  exact h.2 fun hnil => hne (hu hnil)

end Timed

variable {c : Conn} {seg : TcpSeg} {rest : List TcpSeg} {wnd : U32} {n : Nat}

theorem input_timed (env : Env) (cc : CcAlgo) (pkt : InPkt) (hs : Synchronized c.pcb)
    (h : Timed c.pcb.sndCore) : Timed (tcpInput env cc pkt c).conn.pcb.sndCore := by
  rcases (tcpInput_core env cc pkt hs).core with he | ⟨⟨a, he⟩, -⟩ | ⟨p, sack, rex, -, -, he⟩
  · rw [he]; exact h
  · rw [he]; exact Timed.purged c.pcb.sndCore
  · rw [he]
    exact ackCore_inv (fun q hq => hq.dropSacked _) (fun q hq => hq.rexmit)
      (fun q _ => .ackTo q _) (fun q _ => Timed.ackTo q _) (fun q hq => hq.of_unacked rfl id) h rex

/-! ## A pass of the send loop -/

theorem sendHead_pcb (env : Env) (force : Bool) (n : Nat) (c : Conn) (seg : TcpSeg)
    (rest : List TcpSeg) :
    ∃ (m : Marks) (out : TcpSeg),
      (sendHead env force n c seg rest).pcb =
          (afterSend force out (c.pcb.sending m rest)).getD (c.pcb.sending m rest) ∧
        (sendHead env force n c seg rest).fault =
          (c.fault || (afterSend force out (c.pcb.sending m rest)).isNone) ∧
        out.isDummy = seg.isDummy ∧ out.tcplen = seg.tcplen ∧
        m.rtime = if seg.isDummy ∨ c.pcb.rtime ≠ -1 then c.pcb.rtime else 0 := by
  obtain ⟨ps⟩ := sendHead_pass env force n c seg rest
  obtain ⟨-, -, -, -, hopts, htcp⟩ := ps.out_seg
  exact ⟨ps.marks, ps.out, ps.pcb_eq, ps.fault_eq, congrArg SegOpts.dummy hopts, htcp, ps.rtime_eq⟩

theorem sendHead_timer (env : Env) (force : Bool) (n : Nat) (c : Conn) (seg : TcpSeg)
    (rest : List TcpSeg) :
    (sendHead env force n c seg rest).pcb.rtime =
        (if seg.isDummy ∨ c.pcb.rtime ≠ -1 then c.pcb.rtime else 0) ∧
      (sendHead env force n c seg rest).pcb.toTimerVars = c.pcb.toTimerVars := by
  obtain ⟨m, out, hp, -, -, -, hrt⟩ := sendHead_pcb env force n c seg rest
  rw [hp, ← hrt]
  cases ha : afterSend force out (c.pcb.sending m rest) with
  | none => exact ⟨rfl, rfl⟩
  | some p =>
    obtain ⟨q, rfl, -⟩ := afterSend_eq ha
    exact ⟨rfl, rfl⟩

theorem sendHead_timed (env : Env) (force : Bool) (n : Nat) (seg : TcpSeg) (rest : List TcpSeg)
    (h : Timed c.pcb.sndCore) :
    Timed (sendHead env force n c seg rest).pcb.sndCore := by
  obtain ⟨hrt, -⟩ := sendHead_timer env force n c seg rest
  have hlow : -1 ≤ c.pcb.rtime := h.1
  by_cases hd : seg.isDummy = true
  · obtain ⟨m, out, hp, -, hdo, -, -⟩ := sendHead_pcb env force n c seg rest
    refine h.of_unacked (hrt.trans (if_pos (.inl hd))) fun hu => ?_
    show (sendHead env force n c seg rest).pcb.unacked = []
    rw [hp, (afterSend_unacked.2.2 (hdo.trans hd)).1]
    exact hu
  · have hpos : 0 ≤ (sendHead env force n c seg rest).pcb.rtime := by
      rw [hrt]
      split
      · rename_i hne
        have := hne.resolve_left hd
        omega
      · exact Int.le_refl 0
    exact ⟨show -1 ≤ (sendHead env force n c seg rest).pcb.rtime by omega, fun _ => hpos⟩

/-! ## The loop -/

def InFlight (c : Conn) : Prop := c.pcb.unacked ≠ [] ∧ 0 ≤ c.pcb.rtime

theorem sendHead_inFlight (env : Env) (force : Bool) (n : Nat) (seg : TcpSeg) (rest : List TcpSeg)
    (h : InFlight c) : InFlight (sendHead env force n c seg rest) := by
  have ht := sendHead_timed env force n seg rest ⟨Int.le_trans (by decide) h.2, fun _ => h.2⟩
  obtain ⟨m, out, hp, -⟩ := sendHead_pcb env force n c seg rest
  have hu : (sendHead env force n c seg rest).pcb.unacked ≠ [] := by
    rw [hp]
    exact afterSend_unacked.1 h.1
  exact ⟨hu, ht.2 hu⟩

variable {pcb p : Pcb}

theorem splitHead_inFlight (env : Env) (force : Bool) (wnd : U32) (n : Nat) (h : pcb.unacked ≠ []) :
    splitHead env force wnd n pcb = pcb := by
  rcases splitHead_unsent env force wnd n pcb with he | ⟨seg, rest, s, -, hu, -⟩
  · exact he
  · exact absurd hu h

theorem outputLoop_inFlight (env : Env) (force : Bool) (wnd : U32) (f n : Nat) (h : InFlight c)
    (hf : c.fault = false) : InFlight (outputLoop env force wnd f n c) := by
  refine outputLoop_inv InFlight ?_ ?_ f n c hf h
  · intro n c h
    rw [splitHead_inFlight env force wnd n h.1]
    exact h
  · exact fun n c seg rest h _ _ _ _ => sendHead_inFlight env force n seg rest h

/-- `tcp_split_segment` can cut the segment at the end of the window: its first byte is in the window,
the driver is done with its pbuf, and there is data behind the header to cut. -/
def cuttable (env : Env) (n : Nat) (pcb : Pcb) (wnd : U32) (seg : TcpSeg) : Bool :=
  let hdr := tcpHlen + lwipTcpOptLength pcb pcb.dataOpts
  let lentosend := wnd - (seg.seqno - pcb.lastack)
  seg.seqno - pcb.lastack < wnd && !env.refBusy n 0 && pbufLen seg.p < 65536 &&
    match seg.p with
    | [] => false
    | p0 :: rest =>
      hdr < p0.len && (hdr + lentosend.toNat < p0.len ||
        (splitWalk env n hdr lentosend 0 p0.len [p0] rest).isSome)

def Env.AllocOk (env : Env) : Prop := (∀ n, env.pbufOk n = true) ∧ ∀ n, env.segOk n = true

variable {env : Env}

theorem splitCut_of_cuttable (ha : env.AllocOk) (h : cuttable env n pcb wnd seg = true) :
    ∃ s, splitCut env n pcb seg (wnd - (seg.seqno - pcb.lastack)) = some s ∧
      fitsWnd pcb s.seg wnd = true ∧ 0 < s.seg.len := by
  unfold cuttable at h
  simp only [Bool.and_eq_true, decide_eq_true_eq, Bool.not_eq_true'] at h
  obtain ⟨⟨⟨hoff, -⟩, hlen⟩, hcut⟩ := h
  have hpos : 0 < (wnd - (seg.seqno - pcb.lastack)).toNat := by bv_omega
  -- what is left to show: the new length is positive and within what may be sent
  suffices hs : ∃ s, splitCut env n pcb seg (wnd - (seg.seqno - pcb.lastack)) = some s ∧
      0 < s.seg.len ∧ s.seg.len ≤ (wnd - (seg.seqno - pcb.lastack)).toNat by
    obtain ⟨s, hs, h0, hle⟩ := hs
    refine ⟨s, hs, ?_, h0⟩
    unfold fitsWnd
    rw [(splitCut_frame hs).2.2.2.2.2]
    exact decide_eq_true (add_le_wnd hoff hle)
  generalize wnd - (seg.seqno - pcb.lastack) = lts at hpos hcut ⊢
  cases hp : seg.p with
  | nil => simp [hp] at hcut
  | cons p0 rest =>
    simp only [hp, Bool.and_eq_true, decide_eq_true_eq, Bool.or_eq_true] at hcut
    rw [hp, pbufLen_cons] at hlen
    obtain ⟨hhdr, hcut⟩ := hcut
    unfold splitCut
    simp only [hp]
    by_cases hin : p0.len > tcpHlen + lwipTcpOptLength pcb pcb.dataOpts + lts.toNat
    · rw [if_pos hin, if_neg (by simp [ha.1, ha.2])]
      refine ⟨_, rfl, ?_, ?_⟩
      · simp only [u16]
        omega
      · simp only [u16]
        omega
    · rw [if_neg hin]
      have hwalk := hcut.resolve_left hin
      rw [if_neg (by rintro rfl; simp [splitWalk] at hwalk)]
      obtain ⟨⟨h', front, back⟩, hw⟩ := Option.isSome_iff_exists.mp hwalk
      obtain ⟨mid, -, hmid, -, hh⟩ := splitWalk_spec hw
      have hle := splitWalk_le hw (by omega) (by omega) (by omega)
      have hsum : pbufLen mid ≤ pbufLen rest := by
        rw [hmid, pbufLen_append]
        exact Nat.le_add_right _ _
      rw [hw]
      simp only [ha.2, Bool.not_true, Bool.false_eq_true, if_false]
      refine ⟨_, rfl, ?_, ?_⟩
      · simp only [u16]
        omega
      · simp only [u16]
        omega

/-- The loop comes to a segment with data that it can send, in whole or in part; the dummies before it
fit the window. -/
def reaches (env : Env) (pcb : Pcb) (wnd : U32) : Nat → List TcpSeg → Bool
  | _, [] => false
  | n, s :: rest =>
    if s.isDummy then fitsWnd pcb s wnd && reaches env pcb wnd (n + 1) rest
    else 0 < s.len && (fitsWnd pcb s wnd || cuttable env n pcb wnd s)

theorem reaches_congr {p' : Pcb} (hl : p'.lastack = p.lastack)
    (ho : p'.flags.timestamp = p.flags.timestamp) (hr : p'.toRcvVars = p.toRcvVars) (wnd : U32)
    (l : List TcpSeg) : ∀ n, reaches env p' wnd n l = reaches env p wnd n l := by
  have hfits (s : TcpSeg) : fitsWnd p' s wnd = fitsWnd p s wnd := by
    unfold fitsWnd
    rw [hl]
  have hopt : lwipTcpOptLength p' p'.dataOpts = lwipTcpOptLength p p.dataOpts := by
    unfold lwipTcpOptLength Pcb.dataOpts
    rw [ho, hr]
  have hcut (n : Nat) (s : TcpSeg) : cuttable env n p' wnd s = cuttable env n p wnd s := by
    unfold cuttable
    rw [hl, hopt]
  induction l with
  | nil => exact fun n => rfl
  | cons s rest ih =>
    intro n
    simp only [reaches, hfits, hcut, ih]

theorem nagleStop_of_nil (h : pcb.unacked = []) (seg : TcpSeg) : nagleStop pcb seg = false := by
  simp [nagleStop, nagleHolds, tcpDoOutputNagle, h]

theorem sendHead_real (env : Env) (n : Nat) (rest : List TcpSeg) (h : Timed c.pcb.sndCore)
    (hd : seg.isDummy = false) (hlen : 0 < seg.len) :
    InFlight (sendHead env false n c seg rest) := by
  obtain ⟨m, out, hp, -, hdo, hto, -⟩ := sendHead_pcb env false n c seg rest
  have hu : (sendHead env false n c seg rest).pcb.unacked ≠ [] := by
    rw [hp]
    refine afterSend_unacked.2.1 rfl (hdo.trans hd) ?_
    rw [hto]
    exact Nat.lt_of_lt_of_le hlen (Nat.le_add_right _ _)
  exact ⟨hu, (sendHead_timed env false n seg rest h).2 hu⟩

theorem sendHead_dummy (env : Env) (n : Nat) (rest : List TcpSeg) (hd : seg.isDummy = true) :
    (sendHead env false n c seg rest).fault = c.fault ∧
      (sendHead env false n c seg rest).pcb.unsent = rest ∧
      (sendHead env false n c seg rest).pcb.unacked = c.pcb.unacked ∧
      (sendHead env false n c seg rest).pcb.lastack = c.pcb.lastack ∧
      (sendHead env false n c seg rest).pcb.flags.timestamp = c.pcb.flags.timestamp ∧
      (sendHead env false n c seg rest).pcb.toRcvVars = c.pcb.toRcvVars := by
  obtain ⟨m, out, hp, hfault, hdo, -, -⟩ := sendHead_pcb env false n c seg rest
  obtain ⟨hu, hsome⟩ := (@afterSend_unacked out false (c.pcb.sending m rest)).2.2 (hdo.trans hd)
  rw [hfault, hsome, Bool.or_false, hp, hu]
  cases ha : afterSend false out (c.pcb.sending m rest) with
  | none => rw [ha] at hsome; cases hsome
  | some p =>
    obtain ⟨q, rfl, hq, -⟩ := afterSend_eq ha
    exact ⟨rfl, hq, rfl, rfl, rfl, rfl⟩

theorem splitHead_of_cuttable {s : SplitSegs} (hu : pcb.unsent = seg :: rest) (hna : pcb.unacked = [])
    (hfit : fitsWnd pcb seg wnd = false) (hcut : cuttable env n pcb wnd seg = true)
    (hs : splitCut env n pcb seg (wnd - (seg.seqno - pcb.lastack)) = some s) :
    splitHead env false wnd n pcb = pcb.splitInto seg rest s := by
  unfold cuttable at hcut
  simp only [Bool.and_eq_true, decide_eq_true_eq, Bool.not_eq_true'] at hcut
  obtain ⟨⟨⟨hoff, hbusy⟩, -⟩, hp⟩ := hcut
  have hw : wnd ≠ 0 := by
    rintro rfl
    exact absurd hoff (by bv_omega)
  have hne : seg.p ≠ [] := by
    intro he
    simp [he] at hp
  have hge : ¬(seg.seqno - pcb.lastack ≥ wnd) := by bv_omega
  unfold splitHead tcpSplitSegment
  simp only [hu, hna, hfit, hs]
  rw [if_pos ⟨by decide, trivial, hw, by decide⟩, if_neg (by simp [hne, hge, hbusy])]

theorem outputLoop_send {force : Bool} {f : Nat} (hp : splitHead env force wnd n c.pcb = p)
    (hu : p.unsent = seg :: rest) (hfit : fitsWnd p seg wnd = true) (hn : nagleStop p seg = false) :
    outputLoop env force wnd (f + 1) n c =
      if (sendHead env force n { c with pcb := p } seg rest).fault then
        sendHead env force n { c with pcb := p } seg rest
      else outputLoop env force wnd f (n + 1) (sendHead env force n { c with pcb := p } seg rest) := by
  rw [outputLoop]
  simp only [hp, hu, hfit, hn, Bool.true_or, if_true, Bool.and_false, Bool.false_eq_true, if_false]

theorem outputLoop_reaches (ha : env.AllocOk) {l : List TcpSeg} :
    ∀ {f n : Nat} {c : Conn}, c.pcb.unsent = l → c.pcb.unacked = [] → Timed c.pcb.sndCore →
      c.fault = false → l.length < f → reaches env c.pcb wnd n l = true →
      InFlight (outputLoop env false wnd f n c) := by
  induction l with
  | nil =>
    intro f n c _ _ _ _ _ hr
    cases hr
  | cons seg rest ih =>
    intro f n c hu hna ht hf hfuel hr
    obtain ⟨f, rfl⟩ : ∃ g, f = g + 1 := ⟨f - 1, by simp at hfuel; omega⟩
    rw [reaches] at hr
    have hcont (g k : Nat) {c' : Conn} (h : InFlight c') :
        InFlight (if c'.fault then c' else outputLoop env false wnd g k c') := by
      split
      · exact h
      · rename_i hnf
        exact outputLoop_inFlight env false wnd g k h (by simpa using hnf)
    have hkeep (hfit : fitsWnd c.pcb seg wnd = true) : splitHead env false wnd n c.pcb = c.pcb := by
      rcases splitHead_unsent env false wnd n c.pcb with he | ⟨s0, r0, s, hu0, -, -, -, hno, -, -⟩
      · exact he
      · rw [hu] at hu0
        cases hu0
        rw [hfit] at hno
        cases hno
    by_cases hd : seg.isDummy = true
    · -- a dummy that fits goes out and is dropped
      rw [if_pos hd, Bool.and_eq_true] at hr
      rw [outputLoop_send (hkeep hr.1) hu hr.1 (nagleStop_of_nil hna seg)]
      obtain ⟨hf', hu', hna', hl', ho', hr'⟩ := sendHead_dummy (c := c) env n rest hd
      rw [if_neg (by rw [hf', hf]; exact Bool.false_ne_true)]
      refine ih hu' (hna'.trans hna) (sendHead_timed env false n seg rest ht) (hf'.trans hf)
        (by simp at hfuel; omega) ?_
      rw [reaches_congr hl' ho' hr']
      exact hr.2
    · have hd' : seg.isDummy = false := by simpa using hd
      rw [if_neg hd, Bool.and_eq_true, decide_eq_true_eq] at hr
      obtain ⟨hlen, hr⟩ := hr
      by_cases hfit : fitsWnd c.pcb seg wnd = true
      · rw [outputLoop_send (hkeep hfit) hu hfit (nagleStop_of_nil hna seg)]
        exact hcont f (n + 1) (sendHead_real env n rest ht hd' hlen)
      -- a head that does not fit is cut, and its first part goes out
      have hcut := (Bool.or_eq_true _ _ ▸ hr).resolve_left hfit
      obtain ⟨s, hs, hsfit, hslen⟩ := splitCut_of_cuttable ha hcut
      have hsplit := splitHead_of_cuttable hu hna (by simpa using hfit) hcut hs
      have hds : s.seg.isDummy = false := by
        rw [TcpSeg.isDummy, (splitCut_frame hs).2.2.2.1]
        exact hd'
      rw [outputLoop_send (p := c.pcb.splitInto seg rest s) hsplit rfl hsfit
        (@nagleStop_of_nil (c.pcb.splitInto seg rest s) hna s.seg)]
      exact hcont f (n + 1) (sendHead_real env n (s.newseg :: rest) ht hds hslen)

/-! ## `tcp_output` -/

def carriesData (s : TcpSeg) : Bool := !s.isDummy && 0 < s.len

def Pcb.dataQueued (pcb : Pcb) : Bool := pcb.unacked.any carriesData || pcb.unsent.any carriesData

/-- If data is queued, a timer that will act on it is armed: the retransmission timer, the persist
timer, or the acknowledgement that Nagle waits for. -/
def Armed (pcb : Pcb) : Prop :=
  pcb.dataQueued = true →
    (pcb.unacked ≠ [] ∧ 0 ≤ pcb.rtime) ∨ 0 < pcb.persistBackoff ∨
    ∃ seg rest, pcb.unsent = seg :: rest ∧ fitsWnd pcb seg pcb.wnd = true ∧ pcb.unacked ≠ [] ∧
      nagleStop pcb seg = true

/-- A call of `tcp_output` leaves a timer armed in these states: something is in flight, the persist
timer runs, no data is queued, or data can be sent. Nothing is cut while an ACK is pending. -/
def outputArms (env : Env) (pcb : Pcb) : Bool :=
  !pcb.unacked.isEmpty || 0 < pcb.persistBackoff || !pcb.dataQueued ||
    (!(pcb.flags.ackNow && noData pcb) && reaches env pcb pcb.wnd 0 pcb.unsent)

theorem forceTransmit_inFlight (env : Env) (pcb : Pcb) :
    (forceTransmit env pcb).1.unacked = pcb.unacked ∧ (forceTransmit env pcb).1.rtime = pcb.rtime ∧
      (pcb.unacked = [] → forceTransmit env pcb = (pcb, false)) := by
  have hno (h : pcb.unacked = []) : forceWanted pcb = false := by simp [forceWanted, h]
  rcases forceTransmit_cases env pcb with he | ⟨k, hw, he⟩ | ⟨seq, target, hw, -, -, -, -, he⟩
  · rw [he]
    exact ⟨rfl, rfl, fun _ => rfl⟩
  · rw [he]
    exact ⟨rfl, rfl, fun h => nomatch hw.symm.trans (hno h)⟩
  · rw [he]
    exact ⟨rfl, rfl, fun h => nomatch hw.symm.trans (hno h)⟩

/-- Without data in the queues a call leaves none, unless something was in flight. -/
structure NoData (c : Conn) : Prop where
  timed : Timed c.pcb.sndCore
  unsent : c.pcb.unacked = [] → ∀ s ∈ c.pcb.unsent, carriesData s = false

theorem splitHead_noData (env : Env) (force : Bool) (wnd : U32) (n : Nat) (h : NoData c) :
    NoData { c with pcb := splitHead env force wnd n c.pcb } := by
  rcases splitHead_unsent env force wnd n c.pcb with he | ⟨seg, rest, s, hu, hna, -, hoff, hno, hs, he⟩
  · rw [he]
    exact h
  rw [he]
  refine ⟨h.timed, fun _ t ht => ?_⟩
  have hall := h.unsent hna
  rw [hu] at hall
  have hseg := hall seg List.mem_cons_self
  -- a segment of no length fits wherever it could be cut
  have hd : seg.isDummy = true := by
    by_contra hd
    simp only [carriesData, Bool.and_eq_false_iff, Bool.not_eq_false', decide_eq_false_iff_not] at hseg
    have hlen : seg.len = 0 := by have := hseg.resolve_left hd; omega
    have : seg.seqno - c.pcb.lastack + u32 seg.len ≤ wnd := add_le_wnd hoff (by omega)
    simp [fitsWnd, this] at hno
  obtain ⟨-, -, -, h1, h2, -⟩ := splitCut_frame hs
  rcases List.mem_cons.mp ht with rfl | ht
  · simp [carriesData, TcpSeg.isDummy, h1, show seg.opts.dummy = true from hd]
  · rcases List.mem_cons.mp ht with rfl | ht
    · simp [carriesData, TcpSeg.isDummy, h2, show seg.opts.dummy = true from hd]
    · exact hall t (List.mem_cons_of_mem _ ht)

theorem sendHead_noData (env : Env) (force : Bool) (n : Nat) (hu : c.pcb.unsent = seg :: rest)
    (h : NoData c) :
    NoData (sendHead env force n c seg rest) := by
  refine ⟨sendHead_timed env force n seg rest h.timed, fun hna t ht => ?_⟩
  obtain ⟨m, out, hp, -⟩ := sendHead_pcb env force n c seg rest
  rw [hp] at hna ht
  have hna' : c.pcb.unacked = [] := by
    by_contra hne
    exact (@afterSend_unacked out force (c.pcb.sending m rest)).1 hne hna
  have hrest : ((afterSend force out (c.pcb.sending m rest)).getD (c.pcb.sending m rest)).unsent = rest := by
    cases ha : afterSend force out (c.pcb.sending m rest) with
    | none => rfl
    | some p =>
      obtain ⟨q, rfl, hq, -⟩ := afterSend_eq ha
      exact hq
  rw [hrest] at ht
  exact h.unsent hna' t (by rw [hu]; exact List.mem_cons_of_mem _ ht)

theorem outputLoop_persist (env : Env) (force : Bool) (wnd : U32) (f n : Nat) (hf : c.fault = false) :
    (outputLoop env force wnd f n c).pcb.toTimerVars = c.pcb.toTimerVars := by
  refine outputLoop_inv (fun c' => c'.pcb.toTimerVars = c.pcb.toTimerVars) ?_ ?_ f n c hf rfl
  · intro n c' h
    rcases splitHead_unsent env force wnd n c'.pcb with he | ⟨seg, rest, s, -, -, -, -, -, -, he⟩
    · rw [he]; exact h
    · rw [he]; exact h
  · exact fun n c' seg rest h _ _ _ _ => (sendHead_timer env force n c' seg rest).2.trans h

theorem Armed.of_inFlight (h : InFlight c) : Armed c.pcb := fun _ => .inl h

theorem NoData.armed (h : NoData c) : Armed c.pcb := by
  intro hd
  by_cases hna : c.pcb.unacked = []
  · have hall := h.unsent hna
    simp only [Pcb.dataQueued, hna, List.any_nil, Bool.false_or, List.any_eq_true] at hd
    obtain ⟨s, hs, hc⟩ := hd
    rw [hall s hs] at hc
    cases hc
  · exact .inl ⟨hna, h.timed.2 hna⟩

theorem tcpSendEmptyAck_persist (env : Env) (n : Nat) (c : Conn) :
    (tcpSendEmptyAck env n c).pcb.toTimerVars = c.pcb.toTimerVars := by
  unfold tcpSendEmptyAck
  split <;> rfl

theorem length_lt_outputFuel (l : List TcpSeg) : l.length < outputFuel l := by
  induction l with
  | nil => decide
  | cons s rest ih =>
    rw [outputFuel_cons, List.length_cons]
    simp only [segFuel]
    omega

theorem tcpOutput_armed (ha : env.AllocOk) (hf : c.fault = false) (ht : Timed c.pcb.sndCore)
    (h : outputArms env c.pcb = true) : Armed (tcpOutput env c).pcb := by
  simp only [outputArms, Bool.or_eq_true, Bool.not_eq_true', List.isEmpty_eq_false_iff,
    decide_eq_true_eq, Bool.and_eq_true] at h
  obtain ⟨hfu, hfr, hfn⟩ := forceTransmit_inFlight env c.pcb
  by_cases hack : (c.pcb.flags.ackNow && noData c.pcb) = true
  · -- an empty ACK goes out and the queues stay as they are
    have hs := tcpSendEmptyAck_silent env 0 c
    have hu : (tcpSendEmptyAck env 0 c).pcb.unacked = c.pcb.unacked := congrArg SndCore.unacked hs.core
    have hn : (tcpSendEmptyAck env 0 c).pcb.unsent = c.pcb.unsent := congrArg SndCore.unsent hs.core
    have hr : (tcpSendEmptyAck env 0 c).pcb.rtime = c.pcb.rtime := congrArg SndCore.rtime hs.core
    rw [tcpOutput, if_pos hack]
    rcases h with ((h | h) | h) | ⟨h, -⟩
    · exact Armed.of_inFlight ⟨hu ▸ h, hr ▸ ht.2 h⟩
    · intro _
      refine .inr (.inl ?_)
      rw [tcpSendEmptyAck_persist]
      exact h
    · intro hd
      rw [Pcb.dataQueued, hu, hn] at hd
      exact nomatch h.symm.trans hd
    · rw [hack] at h
      cases h
  · rw [tcpOutput, if_neg hack]
    simp only
    have hdone {c' : Conn} (h : InFlight c') : Armed c'.pcb.outputDone :=
      Armed.of_inFlight (c := { c' with pcb := c'.pcb.outputDone }) h
    by_cases hne : c.pcb.unacked = []
    · rw [hfn hne]
      rcases h with ((h | h) | h) | ⟨-, h⟩
      · exact absurd hne h
      · intro _
        refine .inr (.inl ?_)
        show 0 < (outputLoop _ _ _ _ _ _).pcb.toTimerVars.persistBackoff
        rw [outputLoop_persist env false c.pcb.wnd (outputFuel c.pcb.unsent) 0 (c := { c with pcb := c.pcb }) hf]
        exact h
      · have hstart : NoData c := by
          refine ⟨ht, fun _ s hs => ?_⟩
          simp only [Pcb.dataQueued, Bool.or_eq_false_iff, List.any_eq_false] at h
          simpa using h.2 s hs
        have hend : NoData (outputLoop env false c.pcb.wnd (outputFuel c.pcb.unsent) 0 c) :=
          outputLoop_inv NoData (fun n c' h => splitHead_noData env false c.pcb.wnd n h)
            (fun n c' seg rest h _ hu _ _ => sendHead_noData env false n hu h) _ 0 c hf hstart
        exact NoData.armed (c := { c with
          pcb := (outputLoop env false c.pcb.wnd (outputFuel c.pcb.unsent) 0 c).pcb.outputDone })
          ⟨hend.timed, hend.unsent⟩
      · exact hdone (outputLoop_reaches ha (c := { c with pcb := c.pcb }) rfl hne ht hf (length_lt_outputFuel _) h)
    · exact hdone (outputLoop_inFlight env _ _ _ 0 (c := { c with pcb := (forceTransmit env c.pcb).1 })
        ⟨by rw [hfu]; exact hne, by rw [hfr]; exact ht.2 hne⟩ hf)

/-- The head of `unsent` is as `tcp_write` makes segments: not a dummy, with data in its first pbuf. -/
def HeadOk (pcb : Pcb) : Prop :=
  ∃ seg rest p0 ps, pcb.unsent = seg :: rest ∧ carriesData seg = true ∧ seg.p = p0 :: ps ∧
    tcpHlen + lwipTcpOptLength pcb pcb.dataOpts < p0.len ∧ pbufLen seg.p < 65536

theorem splitHead_of_not_cuttable {p0 : Pbuf} {ps : List Pbuf} (hu : pcb.unsent = seg :: rest)
    (hp : seg.p = p0 :: ps) (hhdr : tcpHlen + lwipTcpOptLength pcb pcb.dataOpts < p0.len)
    (hlen : pbufLen seg.p < 65536) (hcut : cuttable env n pcb wnd seg = false) :
    splitHead env false wnd n pcb = pcb := by
  by_cases hbusy : env.refBusy n 0 = true
  · unfold splitHead tcpSplitSegment
    simp [hu, hbusy]
  rcases splitHead_unsent env false wnd n pcb with he | ⟨s0, r0, s, hu0, -, -, hoff, -, hs, -⟩
  · exact he
  rw [hu] at hu0
  cases hu0
  exfalso
  rw [hp] at hlen
  unfold cuttable at hcut
  simp only [hoff, decide_true, hbusy, hlen, Bool.not_false, Bool.true_and, hp, hhdr,
    Bool.or_eq_false_iff, decide_eq_false_iff_not] at hcut
  unfold splitCut at hs
  simp only [hp] at hs
  rw [if_neg hcut.1] at hs
  split at hs
  · cases hs
  split at hs
  · cases hs
  · rename_i hw
    rw [hw] at hcut
    cases hcut.2

theorem tcpOutput_stalls (hok : HeadOk c.pcb) (h : outputArms env c.pcb = false) :
    ¬Armed (tcpOutput env c).pcb := by
  obtain ⟨seg, rest, p0, ps, hu, hdata, hp, hhdr, hlen⟩ := hok
  simp only [outputArms, Bool.or_eq_false_iff, Bool.not_eq_false', List.isEmpty_iff,
    decide_eq_false_iff_not, Nat.not_lt, Nat.le_zero] at h
  obtain ⟨⟨⟨hna, hpers⟩, -⟩, hblocked⟩ := h
  -- the queues and the persist timer stay as they are, and data is queued
  suffices hs : (tcpOutput env c).pcb.unacked = [] ∧ (tcpOutput env c).pcb.unsent = seg :: rest ∧
      (tcpOutput env c).pcb.persistBackoff = 0 by
    obtain ⟨h1, h2, h3⟩ := hs
    intro harmed
    rcases harmed (by simp [Pcb.dataQueued, h1, h2, hdata]) with h | h | ⟨_, _, -, -, h, -⟩
    · exact h.1 h1
    · omega
    · exact h h1
  by_cases hack : (c.pcb.flags.ackNow && noData c.pcb) = true
  · have hs := (tcpSendEmptyAck_silent env 0 c).core
    rw [tcpOutput, if_pos hack]
    refine ⟨(congrArg SndCore.unacked hs).trans hna, (congrArg SndCore.unsent hs).trans hu, ?_⟩
    rw [tcpSendEmptyAck_persist]
    exact hpers
  · have hr : reaches env c.pcb c.pcb.wnd 0 c.pcb.unsent = false := by
      simpa [hack] using hblocked
    have hdummy : seg.isDummy = false ∧ 0 < seg.len := by simpa [carriesData] using hdata
    rw [hu, reaches, if_neg (by rw [hdummy.1]; exact Bool.false_ne_true)] at hr
    simp only [hdummy.2, decide_true, Bool.true_and, Bool.or_eq_false_iff] at hr
    have hkeep := splitHead_of_not_cuttable hu hp hhdr hlen hr.2
    rw [tcpOutput, if_neg hack, (forceTransmit_inFlight env c.pcb).2.2 hna]
    obtain ⟨f, hf⟩ : ∃ f, outputFuel c.pcb.unsent = f + 1 :=
      ⟨outputFuel c.pcb.unsent - 1, by have := length_lt_outputFuel c.pcb.unsent; omega⟩
    have hloop : outputLoop env false c.pcb.wnd (outputFuel c.pcb.unsent) 0 c = c := by
      rw [hf, outputLoop]
      simp only [hkeep, hu, hr.1, Bool.or_false, Bool.false_eq_true, if_false]
    simp only [hloop]
    exact ⟨hna, hu, hpers⟩

/-! ## Runs -/

theorem tcpWrite_unacked {data : List U8} {isDummy : Bool} {e : Err}
    (h : tcpWrite env pcb data isDummy = some (p, e)) (hna : pcb.unacked = []) : p.unacked = [] := by
  rcases tcpWrite_cases h with ⟨-, rfl | rfl | ⟨a, rfl⟩⟩ | ⟨-, -, w, -, rfl⟩ |
    ⟨-, -, last, t, w, ⟨hl, -, -⟩, rfl⟩
  · exact hna
  · exact hna
  · exact hna
  · exact hna
  · have hmem : last ∈ pcb.unsent := by
      rcases lastUnsentSeg_mem hl with hm | hm
      · exact hm
      · rw [show (pcb.setSmlAdd data.length isDummy).unacked = [] from hna] at hm
        cases hm
    unfold tcpWriteCommit
    simp only
    rw [appendAfter_unsent]
    · exact hna
    · refine ⟨last, hmem, ?_⟩
      split <;> exact (extend_frame last data t).1.symm

theorem write_timed (env : Env) (data : List U8) (isDummy : Bool) (h : Timed c.pcb.sndCore) :
    Timed (c.write env data isDummy).pcb.sndCore := by
  unfold Conn.write
  cases hw : tcpWrite env c.pcb data isDummy with
  | none => exact h
  | some r =>
    refine h.of_unacked ?_ (@tcpWrite_unacked c.pcb r.1 env data isDummy r.2 hw)
    show r.1.toOutVars.rtime = _
    rw [(@tcpWrite_frame data c.pcb r.1 env isDummy r.2 hw).out]
    rfl

theorem tcpSendFin_timed (env : Env) (h : Timed pcb.sndCore) :
    Timed (tcpSendFin env pcb).1.sndCore := by
  rcases tcpSendFin_cases env pcb with ⟨_, he, -⟩ | he | ⟨_, _, -, he⟩ <;> rw [he] <;> exact h

theorem timed_carried : Carried fun p => Timed p.sndCore where
  same := fun {p q} h hb => by
    have hu : q.unacked = p.unacked := congrArg Books.unacked hb
    exact h.of_unacked (congrArg Books.rtime hb) fun he => hu.trans he
  dropped := fun {p q} _ hb => by
    have hu : q.unacked = [] := congrArg Books.unacked hb
    have hr : q.rtime = -1 := congrArg Books.rtime hb
    exact ⟨hr.ge, fun hne => absurd hu hne⟩

theorem tcpOutput_timed (env : Env) (hf : c.fault = false) (h : Timed c.pcb.sndCore) :
    Timed (tcpOutput env c).pcb.sndCore := by
  obtain ⟨hfu, hfr, -⟩ := forceTransmit_inFlight env c.pcb
  refine tcpOutput_kept timed_carried.same hf h (h.of_unacked hfr fun hu => hfu.trans hu) ?_ ?_
  · intro wnd n p ht
    rcases splitHead_unsent env (forceTransmit env c.pcb).2 wnd n p with
      he | ⟨seg, rest, s, -, -, -, -, -, -, he⟩ <;> rw [he] <;> exact ht
  · exact fun n c' seg rest ht _ => sendHead_timed env _ n seg rest ht

theorem slowTimers_timed (env : Env) (ht : c.pcb.rtime < 32767) (h : Timed c.pcb.sndCore) :
    Timed (slowTimers env c).pcb.sndCore := by
  unfold slowTimers
  split
  · split
    · rw [(tcpKeepalive_silent env 0 _).core]
      exact h
    · exact h
  · show Timed c.pcb.rtimeTick.sndCore
    have hlow : -1 ≤ c.pcb.rtime := h.1
    have hrun : c.pcb.unacked ≠ [] → 0 ≤ c.pcb.rtime := h.2
    unfold Timed Pcb.rtimeTick Pcb.sndCore rtimeNext
    simp only
    split
    · rw [if_neg (by omega)]
      exact ⟨by omega, fun _ => by omega⟩
    · exact ⟨hlow, hrun⟩

/-- A tick of the slow timer finds room in the 16 bits of `rtime`. -/
def Act.fitsRtime (pcb : Pcb) : Act → Prop
  | .slowTimers _ => pcb.rtime < 32767
  | _ => True

/-- **One step.** In `ESTABLISHED` every action keeps the timer running while something is in flight. -/
theorem act_timed (a : Act) (hf : c.fault = false) (hst : c.pcb.state = .established)
    (ht : a.fitsRtime c.pcb) (h : Timed c.pcb.sndCore) : Timed (c.act a).pcb.sndCore := by
  cases a with
  | write env data isDummy => exact write_timed env data isDummy h
  | output env => exact tcpOutput_timed env hf h
  | input env cc pkt =>
    refine input_timed env cc pkt ?_ h
    unfold Synchronized
    rw [hst]
    decide
  | recved len => exact timed_carried.same h (tcpRecved_books c.pcb len)
  | rexmit =>
    show Timed (tcpRexmit c.pcb).sndCore
    rw [tcpRexmit_core]
    exact h.rexmit
  | rexmitRto =>
    show Timed (tcpRexmitRtoRequeue c.pcb).sndCore
    unfold tcpRexmitRtoRequeue
    split
    · exact h
    · exact ⟨h.1, fun hne => absurd rfl hne⟩
  | rexmitFast cc =>
    obtain ⟨rex, he⟩ := tcpRexmitFast_core cc c.pcb
    show Timed (tcpRexmitFast cc c.pcb).sndCore
    rw [he]
    cases rex with
    | true => exact h.rexmit
    | false => exact h
  | close env =>
    exact tcpClose_kept timed_carried h (tcpSendFin_timed env h) fun _ => Timed.purged c.pcb.sndCore
  | shutdown env rx tx =>
    exact tcpShutdown_kept timed_carried rx tx h (tcpSendFin_timed env h) (tcpSendFin_timed env h)
      fun _ => Timed.purged c.pcb.sndCore
  | slowTimers env => exact slowTimers_timed env ht h
  | slowRto cc => exact ⟨show (-1 : Int) ≤ 0 by decide, fun _ => Int.le_refl 0⟩
  | slowChecks env exhausted => exact slowChecks_kept timed_carried exhausted h

/-- **Whole runs.** While the connection is `ESTABLISHED` and `rtime` does not overflow, the timer runs
whenever something is in flight. -/
theorem established_timed {c₀ : Conn} (h₀ : Timed c₀.pcb.sndCore)
    (h : Reach Conn.step (fun c a => c.pcb.state = .established ∧ a.fitsRtime c.pcb) c₀ c) :
    Timed c.pcb.sndCore := by
  refine h.inv (I := fun c => Timed c.pcb.sndCore) h₀ fun c a ht hok => ?_
  cases hf : c.fault with
  | true =>
    rw [Conn.step_fault a hf]
    exact ht
  | false =>
    rw [Conn.step_eq a hf]
    exact act_timed a hf hok.1 hok.2 ht

/-- **No silent stall, and when there is one.** Wherever a run of an established connection in which
`rtime` does not overflow has got to, a call of `tcp_output` whose allocations succeed leaves a timer
armed if `outputArms` holds before it. With a segment of `tcp_write` at the head of `unsent` it leaves
one armed only then. -/
theorem tcpOutput_arms {env : Env} (ha : env.AllocOk) {c₀ c : Conn} (h₀ : Timed c₀.pcb.sndCore)
    (h : Reach Conn.step (fun c a => c.pcb.state = .established ∧ a.fitsRtime c.pcb) c₀ c)
    (hf : c.fault = false) :
    (outputArms env c.pcb = true → Armed (tcpOutput env c).pcb) ∧
      (HeadOk c.pcb → Armed (tcpOutput env c).pcb → outputArms env c.pcb = true) := by
  refine ⟨tcpOutput_armed ha hf (established_timed h₀ h), fun hok harmed => ?_⟩
  by_contra hno
  exact tcpOutput_stalls hok (Bool.eq_false_iff.mpr hno) harmed

/-! ## A run that stalls -/

/-- A sender without Nagle whose peer has announced a window of 1000 bytes. -/
def stallStart : Conn where
  pcb := { tcpPcbInit {} with
    state := .established
    flags := { nodelay := true }
    sndWnd := 1000
    cwnd := 1000 }

def stallSent : Conn :=
  stallStart.run [.write {} (List.replicate 10 0) false, .output {},
    .write {} (List.replicate 10 1) false, .output {}]

def stallAcked : Conn :=
  l3LevelTcpInput {} {} lwipCcAlgo
    { hdr := ⟨0, 11, 5, { ack := true }, 0⟩, optMem := fun _ => 0, p := [], tos := 0 } stallSent

theorem tcpOutput_arms_stallStart : Armed (tcpOutput {}
    (stallStart.step (.write {} (List.replicate 10 0) false))).pcb := by
  have h := @tcpOutput_arms {} ⟨fun _ => rfl, fun _ => rfl⟩ stallStart _ ⟨by decide, by decide⟩
    (.next .start (.write {} (List.replicate 10 0) false) ⟨rfl, by trivial⟩) (by decide +kernel)
  exact h.1 (by decide +kernel)

/-- The retransmission timer runs for the second segment, and no persist timer. When it fires, the
segment moves to `unsent`, where the closed window holds it: nothing is left that would act on it. -/
theorem stall_after_timeout :
    stallAcked.pcb.state = .established ∧ stallAcked.fault = false ∧
      stallAcked.pcb.unacked.map (·.seqno) = [11] ∧ stallAcked.pcb.unsent = [] ∧
      rtoFires stallAcked.pcb = true ∧
      (tcpSlowtmr {} {} lwipCcAlgo stallAcked).pcb.state = .established ∧
      (tcpSlowtmr {} {} lwipCcAlgo stallAcked).pcb.unsent.map (fun s => (s.seqno, s.len)) = [(11, 10)] ∧
      ¬Armed (tcpSlowtmr {} {} lwipCcAlgo stallAcked).pcb := by
  refine ⟨by decide +kernel, by decide +kernel, by decide +kernel, by decide +kernel,
    by decide +kernel, by decide +kernel, by decide +kernel, fun h => ?_⟩
  have hna : (tcpSlowtmr {} {} lwipCcAlgo stallAcked).pcb.unacked = [] := by decide +kernel
  rcases h (by decide +kernel) with h | h | ⟨_, _, -, -, h, -⟩
  · exact h.1 hna
  · exact absurd h (by decide +kernel)
  · exact h hna

end LibvmaTlt.Lwip
