import LibvmaTlt.Lwip.DctcpCalls

/-!
# The echo of congestion marks

Every CE-marked segment that arrives is to be answered by one packet with ECE. `dctcp.ce` counts the
answers that are due. `TCPH_UNSET_FLAG` does not take ECE and CWR out of a header that is sent again, so
a retransmission can answer a mark for which no answer is due. The count is an `int`, and wraps.
-/

namespace LibvmaTlt.Lwip

/-! ## What is counted -/

def countRun (f : Conn → Act → Nat) : Conn → List Act → Nat
  | _, [] => 0
  | c, a :: l => f c a + countRun f (c.step a) l

theorem countRun_snoc (f : Conn → Act → Nat) (c : Conn) (l : List Act) (a : Act) :
    countRun f c (l ++ [a]) = countRun f c l + f (c.run l) a := by
  induction l generalizing c with
  | nil => exact Nat.add_comm _ _
  | cons b l ih =>
    rw [List.cons_append, countRun, countRun, ih, Nat.add_assoc]
    rfl

def Conn.ceArrives (c : Conn) : Act → Nat
  | .input _ _ pkt =>
    if c.fault = false ∧ (pcbInActiveState c.pcb = true ∨ c.pcb.state = .timeWait) ∧ pkt.tos &&& 3 = 3
    then 1 else 0
  | _ => 0

/-- A CE-marked segment arrives in `TIME_WAIT`, where `dctcp_recv` is not called. -/
def Conn.ceMisses (c : Conn) : Act → Nat
  | .input _ _ pkt => if c.fault = false ∧ c.pcb.state = .timeWait ∧ pkt.tos &&& 3 = 3 then 1 else 0
  | _ => 0

def ceReceived : Conn → List Act → Nat := countRun Conn.ceArrives

/-- Those of them that come to a pcb in `TIME_WAIT`. -/
def ceMissed : Conn → List Act → Nat := countRun Conn.ceMisses

def TcphFlags.echoes (f : TcphFlags) : Bool := !f.syn && f.ece

def eceSent (l : List Sent) : Nat := (l.map Sent.flags).countP TcphFlags.echoes

variable {l : List DctcpCall} {d : DctcpParam}

namespace DctcpCall

def ceSeen : DctcpCall → Nat
  | recv _ ecn _ => if ecn &&& 3 = 3 then 1 else 0
  | _ => 0

/-- A CE-marked segment finds `dctcp.ce` at the largest `int`. -/
def wraps (d : DctcpParam) : DctcpCall → Nat
  | recv _ ecn _ => if ecn &&& 3 = 3 ∧ d.ce = 2147483647 then 1 else 0
  | _ => 0

def ceWrapped : DctcpParam → List DctcpCall → Nat
  | _, [] => 0
  | d, x :: l => wraps d x + ceWrapped (next d x) l

/-- `P` holds of every call with `dctcp` as it is just before it. -/
def Along (P : DctcpParam → DctcpCall → Prop) : DctcpParam → List DctcpCall → Prop
  | _, [] => True
  | d, x :: l => P d x ∧ Along P (next d x) l

/-- A packet that leaves carries ECE only if an answer is due, and CWR only if one is pending. -/
def FlagsDue (d : DctcpParam) : DctcpCall → Prop
  | send f => f.syn = false → ((dctcpSendEmpty d f).2.ece = true → 0 < d.ce) ∧
      ((dctcpSendEmpty d f).2.cwr = true → d.pendingCwr = true)
  | _ => True

/-- The header that leaves has kept no ECE or CWR from an earlier transmission that is not due now. -/
def NotStale (d : DctcpParam) : DctcpCall → Prop
  | send f => f.syn = false → (f.ece = true → 0 < d.ce) ∧ (f.cwr = true → d.pendingCwr = true)
  | _ => True

theorem Along.mono {P Q : DctcpParam → DctcpCall → Prop} (h : ∀ d x, P d x → Q d x) (hl : Along P d l) :
    Along Q d l := by
  induction l generalizing d with
  | nil => trivial
  | cons x l ih => exact ⟨h d x hl.1, ih hl.2⟩

theorem flagsDue_iff (d : DctcpParam) (x : DctcpCall) : FlagsDue d x ↔ NotStale d x := by
  cases x with
  | send f =>
    refine forall_congr' fun hs => ?_
    simp only [dctcpSendEmpty, hs, Bool.false_eq_true, if_false, Bool.or_eq_true, decide_eq_true_eq]
    tauto
  | _ => exact Iff.rfl

/-- A mark is counted up, or takes the count from the largest `int` to the smallest. -/
theorem cInt_succ {n : Int} (h : n ≤ 2147483647) (h' : -2147483648 ≤ n) :
    -2147483648 ≤ cInt (n + 1) ∧
      cInt (n + 1) + 4294967296 * (if n = 2147483647 then 1 else 0) = n + 1 := by
  split
  · rename_i hn
    subst hn
    decide
  · rw [cInt_of_lt (by omega) (by omega)]
    omega

/-- `dctcp.ce` is an `int`. -/
def InRange (d : DctcpParam) : Prop := d.ce ≤ 2147483647 ∧ -2147483648 ≤ d.ce

theorem NotStale.balance {x : DctcpCall} (h : NotStale d x) (hr : InRange d) :
    InRange (x.next d) ∧ ((x.packet d).toList.countP TcphFlags.echoes : Int) + (x.next d).ce +
      4294967296 * x.wraps d = d.ce + x.ceSeen := by
  obtain ⟨hhi, hlo⟩ := hr
  cases x with
  | recv pcb ecn hdr =>
    simp only [InRange, packet, next, dctcpRecv_eq, ceSeen, wraps, Option.toList_none, List.countP_nil]
    by_cases hm : ecn &&& 3 = 3
    · obtain ⟨h1, h2⟩ := cInt_succ hhi hlo
      simp only [hm, if_true, true_and]
      split at h2 <;> simp_all <;> omega
    · simp only [hm, if_false, false_and]
      omega
  | reduce =>
    simp only [InRange, packet, next, ceSeen, wraps]
    split <;> simp [hhi, hlo]
  | rto => simp [InRange, packet, next, ceSeen, wraps, hhi, hlo]
  | pass rst => simp [InRange, packet, next, ceSeen, wraps, TcphFlags.echoes, hhi, hlo]
  | send f =>
    cases hs : f.syn with
    | true =>
      simp [InRange, packet, next, ceSeen, wraps, dctcpSendEmpty, hs, TcphFlags.echoes, hhi, hlo]
    | false =>
      have hfresh := (h hs).1
      by_cases hce : 0 < d.ce
      · simp [InRange, packet, next, ceSeen, wraps, dctcpSendEmpty, hs, TcphFlags.echoes, hce]
        omega
      · have hno : f.ece = false := by simpa using fun he => hce (hfresh he)
        simp [InRange, packet, next, ceSeen, wraps, dctcpSendEmpty, hs, TcphFlags.echoes, hce, hno, hhi,
          hlo]

theorem Along.balance (h : Along NotStale d l) (hr : InRange d) :
    ((packets d l).countP TcphFlags.echoes : Int) + (after d l).ce + 4294967296 * ceWrapped d l =
      d.ce + (l.map ceSeen).sum := by
  induction l generalizing d with
  | nil => simp [packets, after, ceWrapped]
  | cons x l ih =>
    obtain ⟨hr', h1⟩ := h.1.balance hr
    have h2 := ih h.2 hr'
    rw [packets, List.countP_append, List.map_cons, List.sum_cons, ceWrapped, Int.natCast_add,
      Int.natCast_add, Int.natCast_add]
    show _ + (after (next d x) l).ce + _ = _
    omega

theorem IsReply.ceSeen {x : DctcpCall} (h : x.IsReply) : x.ceSeen = 0 := by
  cases x <;> first | rfl | cases h

theorem sum_ceSeen (h : ∀ x ∈ l, x.IsReply) : (l.map ceSeen).sum = 0 := by
  induction l with
  | nil => rfl
  | cons x l ih =>
    rw [List.map_cons, List.sum_cons, (h x List.mem_cons_self).ceSeen,
      ih fun y hy => h y (List.mem_cons_of_mem _ hy)]

end DctcpCall

/-! ## Runs -/

theorem StepCalls.ceSeen {c : Conn} {a : Act} (h : StepCalls c a l) :
    (l.map DctcpCall.ceSeen).sum + c.ceMisses a = c.ceArrives a := by
  have hm := h.makes
  cases hf : c.fault with
  | true =>
    rw [hf, if_pos rfl] at hm
    cases a <;> simp [hm, Conn.ceMisses, Conn.ceArrives, hf]
  | false =>
    rw [hf, if_neg Bool.false_ne_true] at hm
    have pass (hp : ∀ x ∈ l, x.IsPass) : (l.map DctcpCall.ceSeen).sum = 0 :=
      DctcpCall.sum_ceSeen fun x hx => (hp x hx).isReply
    cases a with
    | input env cc pkt =>
      rw [Act.Makes] at hm
      by_cases ha : pcbInActiveState c.pcb = true
      · rw [if_pos ha] at hm
        obtain ⟨l', rfl, hl⟩ := hm
        have htw : c.pcb.state ≠ .timeWait := by
          intro htw
          rw [pcbInActiveState, htw] at ha
          cases ha
        have hecn : pkt.tos &&& 3 &&& 3 = pkt.tos &&& 3 := by rw [BitVec.and_assoc, BitVec.and_self]
        rw [List.map_cons, List.sum_cons, DctcpCall.sum_ceSeen hl, DctcpCall.ceSeen, hecn]
        simp [Conn.ceMisses, Conn.ceArrives, hf, ha, htw]
      · rw [if_neg ha] at hm
        rw [pass hm]
        simp [Conn.ceMisses, Conn.ceArrives, ha]
    | output env =>
      rw [DctcpCall.sum_ceSeen fun x hx => (hm x hx).isReply]
      rfl
    | slowRto cc => rw [show l = [.rto] from hm]; rfl
    | _ => rw [pass hm]; rfl

theorem RunCalls.ceSeen {c₀ : Conn} {acts : List Act} (h : RunCalls c₀ acts l) :
    (l.map DctcpCall.ceSeen).sum + ceMissed c₀ acts = ceReceived c₀ acts := by
  induction h with
  | start => rfl
  | step _ a hs ih =>
    have hstep := hs.ceSeen
    rw [ceMissed, ceReceived] at ih ⊢
    rw [List.map_append, List.sum_append, countRun_snoc, countRun_snoc]
    omega

/-- The packets with ECE answer the CE-marked segments: all of those received but the ones an answer is
still due for; and each of them left while one was due. -/
structure EchoExact (c₀ : Conn) (acts : List Act) (l : List DctcpCall) : Prop where
  accounted : (eceSent (c₀.run acts).sent : Int) = ceReceived c₀ acts - (c₀.run acts).pcb.dctcp.ce
  due : DctcpCall.Along DctcpCall.FlagsDue c₀.pcb.dctcp l

/-- **The echo is exact in just the runs in which no header leaves with a flag of an earlier
transmission that is not due, and no CE-marked segment comes in `TIME_WAIT` or to a full count.** -/
theorem echoExact_iff {c₀ : Conn} {acts : List Act} {l : List DctcpCall} (hce : c₀.pcb.dctcp.ce = 0)
    (hs : c₀.sent = []) (h : RunCalls c₀ acts l) :
    EchoExact c₀ acts l ↔
      DctcpCall.Along DctcpCall.NotStale c₀.pcb.dctcp l ∧ ceMissed c₀ acts = 0 ∧
        DctcpCall.ceWrapped c₀.pcb.dctcp l = 0 := by
  have hbalance : DctcpCall.Along DctcpCall.NotStale c₀.pcb.dctcp l →
      (eceSent (c₀.run acts).sent : Int) + (c₀.run acts).pcb.dctcp.ce + ceMissed c₀ acts +
        4294967296 * DctcpCall.ceWrapped c₀.pcb.dctcp l = ceReceived c₀ acts := by
    intro hfresh
    have hb := hfresh.balance (by simp [DctcpCall.InRange, hce])
    have hseen := h.ceSeen
    have hsent : (c₀.run acts).sent.map Sent.flags = DctcpCall.packets c₀.pcb.dctcp l := by
      rw [h.calls.sent, hs]
      rfl
    rw [eceSent, hsent, h.calls.dctcp]
    omega
  constructor
  · intro he
    have hfresh := he.due.mono fun d x => (DctcpCall.flagsDue_iff d x).mp
    have := hbalance hfresh
    have := he.accounted
    exact ⟨hfresh, by omega, by omega⟩
  · rintro ⟨hfresh, hmiss, hwrap⟩
    have := hbalance hfresh
    exact ⟨by omega, hfresh.mono fun d x => (DctcpCall.flagsDue_iff d x).mpr⟩

/-! ## A mark and its answer -/

def echoStart : Conn where
  pcb := { tcpPcbInit {} with
    state := .established, sndWnd := 1000, sndWndMax := 1000, cwnd := 1000, sndWl2 := 1 }

def markedByte : InPkt :=
  { hdr := ⟨0, 1, 5, { ack := true }, 1000⟩, optMem := fun _ => 0, p := [⟨[7], 1⟩], tos := 3 }

/-- The mark is answered by the ACK of the byte. -/
theorem echoExact_once :
    EchoExact echoStart [.input {} lwipCcAlgo markedByte, .output {}]
      [.recv echoStart.pcb 3 markedByte.hdr, .send { ack := true }] := by
  have hrecv : StepCalls echoStart (.input {} lwipCcAlgo markedByte)
      [.recv echoStart.pcb 3 markedByte.hdr] :=
    ⟨⟨by decide +kernel, by decide +kernel⟩, ⟨[], rfl, by simp⟩⟩
  have hsend : StepCalls (echoStart.run [.input {} lwipCcAlgo markedByte]) (.output {})
      [.send { ack := true }] :=
    ⟨⟨by decide +kernel, by decide +kernel⟩, by
      rw [if_neg (by decide +kernel)]
      intro x hx
      rw [List.mem_singleton.mp hx]
      trivial⟩
  refine (echoExact_iff rfl rfl (.step (.step .start _ hrecv) _ hsend)).mpr
    ⟨⟨trivial, ?_, trivial⟩, ?_, ?_⟩
  · exact fun _ => ⟨fun h => absurd h (by decide), fun h => absurd h (by decide)⟩
  · decide +kernel
  · decide +kernel

/-- A marked byte arrives, a byte is sent and its retransmission timeout passes. -/
def sentTwice : List Act :=
  [.input {} lwipCcAlgo markedByte, .write {} [1] false, .output {}, .rexmitRto, .output {}]

/-- A segment sent with ECE and retransmitted answers the one mark twice. -/
theorem echo_twice :
    (∃ l, RunCalls echoStart sentTwice l) ∧ ∀ l, ¬ EchoExact echoStart sentTwice l :=
  ⟨exists_runCalls _ _, fun _ h => absurd h.accounted (by decide +kernel)⟩

end LibvmaTlt.Lwip
