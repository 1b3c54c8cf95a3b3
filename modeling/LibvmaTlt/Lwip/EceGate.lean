import LibvmaTlt.Lib.WindowGate
import LibvmaTlt.Lwip.DctcpBytes

/-!
# One ECN reduction per window

`next_ece` and `pending_ece` are a gate on the sequence numbers: a segment with ECE asks at `snd_nxt`
for a window of `cwnd` bytes, and `dctcp_reduce_cwnd` serves what was let through. The gate compares as
`WindowGate` does, by plain unsigned numbers.
-/

namespace LibvmaTlt.Lwip

def Pcb.eceGate (pcb : Pcb) : Gate 32 := ⟨pcb.dctcp.nextEce, pcb.dctcp.pendingEce⟩

def Pcb.gateAsk (pcb : Pcb) (hdr : TcpHdr) : List (GateEvent 32) :=
  if hdr.flags.ece && !hdr.flags.syn then [.ask pcb.sndNxt pcb.cwnd (schedules pcb hdr)] else []

def gateServe (pending pending' : Bool) : List (GateEvent 32) :=
  if pending && !pending' then [.serve] else []

/-- What a step does at the gate: a segment comes by `dctcp_recv`, and `dctcp_reduce_cwnd` may reduce
the window. -/
def Conn.gateEvents (c : Conn) (a : Act) : List (GateEvent 32) :=
  match a with
  | .input _ _ pkt =>
    if !c.fault && pcbInActiveState c.pcb then
      c.pcb.gateAsk pkt.hdr ++
        gateServe (c.pcb.marksIn pkt).dctcp.pendingEce (c.step a).pcb.dctcp.pendingEce
    else []
  | _ => []

def Conn.gateRun (c : Conn) : List Act → List (GateEvent 32)
  | [] => []
  | a :: acts => c.gateEvents a ++ (c.step a).gateRun acts

/-! ## The calls at the gate -/

namespace DctcpCall

def IsAside : DctcpCall → Prop
  | recv .. | reduce => False
  | _ => True

theorem IsPass.isAside {x : DctcpCall} (h : x.IsPass) : x.IsAside := by
  cases x <;> trivial

theorem IsSend.isAside {x : DctcpCall} (h : x.IsSend) : x.IsAside := by
  cases x <;> trivial

theorem dctcpSendEmpty_gate (d : DctcpParam) (f : TcphFlags) :
    (dctcpSendEmpty d f).1.nextEce = d.nextEce ∧ (dctcpSendEmpty d f).1.pendingEce = d.pendingEce := by
  unfold dctcpSendEmpty
  split <;> exact ⟨rfl, rfl⟩

theorem IsAside.next {x : DctcpCall} (h : x.IsAside) (d : DctcpParam) :
    (x.next d).nextEce = d.nextEce ∧ (x.next d).pendingEce = d.pendingEce := by
  cases x with
  | recv | reduce => cases h
  | rto => exact ⟨rfl, rfl⟩
  | send f => exact dctcpSendEmpty_gate d f
  | pass rst => exact ⟨rfl, rfl⟩

theorem after_aside {l : List DctcpCall} (hl : ∀ x ∈ l, x.IsAside) (d : DctcpParam) :
    (after d l).nextEce = d.nextEce ∧ (after d l).pendingEce = d.pendingEce := by
  induction l generalizing d with
  | nil => exact ⟨rfl, rfl⟩
  | cons x l ih =>
    obtain ⟨hn, hp⟩ := ih (fun y hy => hl y (List.mem_cons_of_mem _ hy)) (x.next d)
    obtain ⟨hn', hp'⟩ := (hl x List.mem_cons_self).next d
    exact ⟨hn.trans hn', hp.trans hp'⟩

theorem after_reply {l : List DctcpCall} (hl : ∀ x ∈ l, x.IsReply) (d : DctcpParam) :
    (after d l).nextEce = d.nextEce ∧ ((after d l).pendingEce = true → d.pendingEce = true) := by
  induction l generalizing d with
  | nil => exact ⟨rfl, id⟩
  | cons x l ih =>
    obtain ⟨hn, hp⟩ := ih (fun y hy => hl y (List.mem_cons_of_mem _ hy)) (x.next d)
    have hx : (x.next d).nextEce = d.nextEce ∧
        ((x.next d).pendingEce = true → d.pendingEce = true) := by
      cases x with
      | recv | rto => exact (hl _ List.mem_cons_self).elim
      | reduce =>
        simp only [next]
        split
        · exact ⟨rfl, fun h => by cases h⟩
        · exact ⟨rfl, id⟩
      | send f =>
        obtain ⟨hn', hp'⟩ := dctcpSendEmpty_gate d f
        exact ⟨hn', fun h => hp' ▸ h⟩
      | pass rst => exact ⟨rfl, id⟩
    exact ⟨hn.trans hx.1, fun h => hx.2 (hp h)⟩

end DctcpCall

/-! ## Steps and runs -/

theorem gateAsk_spec (pcb : Pcb) (pkt : InPkt) :
    pcb.eceGate.Accepts (pcb.gateAsk pkt.hdr) ∧
      (pcb.marksIn pkt).eceGate = pcb.eceGate.after (pcb.gateAsk pkt.hdr) := by
  have hrecv : (pcb.marksIn pkt).dctcp = _ := dctcpRecv_eq pcb (pkt.tos &&& 3) pkt.hdr
  have hgate : (pcb.marksIn pkt).eceGate =
      if schedules pcb pkt.hdr then ⟨pcb.sndNxt + pcb.cwnd, true⟩ else pcb.eceGate := by
    have hnext := congrArg DctcpParam.nextEce hrecv
    have hpend := congrArg DctcpParam.pendingEce hrecv
    unfold Pcb.eceGate
    by_cases hs : schedules pcb pkt.hdr
    · rw [hnext, hpend, if_pos hs, if_pos hs, if_pos hs]
    · rw [hnext, hpend, if_neg hs, if_neg hs, if_neg hs]
  rw [hgate]
  unfold Pcb.gateAsk
  by_cases hask : (pkt.hdr.flags.ece && !pkt.hdr.flags.syn) = true
  · have hiff : schedules pcb pkt.hdr ↔ pcb.dctcp.nextEce ≤ pcb.sndNxt := by
      have : pkt.hdr.flags.ece = true ∧ pkt.hdr.flags.syn = false := by simpa using hask
      exact ⟨fun h => h.2.2, fun h => ⟨this.1, this.2, h⟩⟩
    rw [if_pos hask]
    refine ⟨⟨decide_eq_true_iff.trans hiff, trivial⟩, ?_⟩
    by_cases hs : schedules pcb pkt.hdr
    · rw [if_pos hs, decide_eq_true hs]
      rfl
    · rw [if_neg hs, decide_eq_false hs]
      rfl
  · have hs : ¬ schedules pcb pkt.hdr := fun h => hask (by simp [h.1, h.2.1])
    rw [if_neg hask, if_neg hs]
    exact ⟨trivial, rfl⟩

theorem gateServe_spec {g g' : Gate 32} (hn : g'.next = g.next)
    (hp : g'.pending = true → g.pending = true) :
    g.Accepts (gateServe g.pending g'.pending) ∧ g' = g.after (gateServe g.pending g'.pending) := by
  obtain ⟨n, p⟩ := g
  obtain ⟨n', p'⟩ := g'
  obtain rfl : n' = n := hn
  cases p with
  | false =>
    cases p' with
    | false => exact ⟨trivial, rfl⟩
    | true => exact absurd (hp rfl) Bool.false_ne_true
  | true =>
    cases p' with
    | false => exact ⟨⟨rfl, trivial⟩, rfl⟩
    | true => exact ⟨trivial, rfl⟩

theorem gateEvents_spec (c : Conn) (a : Act) :
    c.pcb.eceGate.Accepts (c.gateEvents a) ∧
      (c.step a).pcb.eceGate = c.pcb.eceGate.after (c.gateEvents a) := by
  obtain ⟨l, hcalls, hmakes⟩ := exists_stepCalls c a
  -- a step that makes no call at the gate
  have aside (hl : ∀ x ∈ l, x.IsAside) (hev : c.gateEvents a = []) :
      c.pcb.eceGate.Accepts (c.gateEvents a) ∧
        (c.step a).pcb.eceGate = c.pcb.eceGate.after (c.gateEvents a) := by
    obtain ⟨hn, hp⟩ := DctcpCall.after_aside hl c.pcb.dctcp
    rw [hev]
    refine ⟨trivial, ?_⟩
    show (⟨(c.step a).pcb.dctcp.nextEce, (c.step a).pcb.dctcp.pendingEce⟩ : Gate 32) = c.pcb.eceGate
    rw [hcalls.dctcp, hn, hp]
    rfl
  cases hf : c.fault with
  | true =>
    rw [hf] at hmakes
    obtain rfl : l = [] := hmakes
    refine aside (by simp) ?_
    cases a <;> simp [Conn.gateEvents, hf]
  | false =>
    rw [hf] at hmakes
    cases a with
    | output env => exact aside (fun x hx => (hmakes x hx).isAside) rfl
    | slowRto cc =>
      obtain rfl : l = [.rto] := hmakes
      exact aside (by simp [DctcpCall.IsAside]) rfl
    | input env cc pkt =>
      by_cases ha : pcbInActiveState c.pcb = true
      · have hm : ∃ l', l = .recv c.pcb (pkt.tos &&& 3) pkt.hdr :: l' ∧ ∀ x ∈ l', x.IsReply := by
          simpa [Act.Makes, ha] using hmakes
        obtain ⟨l', rfl, hl'⟩ := hm
        have hev : c.gateEvents (.input env cc pkt) = c.pcb.gateAsk pkt.hdr ++
            gateServe (c.pcb.marksIn pkt).dctcp.pendingEce
              (c.step (.input env cc pkt)).pcb.dctcp.pendingEce := by
          simp [Conn.gateEvents, hf, ha]
        obtain ⟨hask, hgate⟩ := gateAsk_spec c.pcb pkt
        obtain ⟨hn, hp⟩ := DctcpCall.after_reply hl' (c.pcb.marksIn pkt).dctcp
        have hd : (c.step (.input env cc pkt)).pcb.dctcp =
            DctcpCall.after (c.pcb.marksIn pkt).dctcp l' := hcalls.dctcp
        rw [← hd] at hn hp
        obtain ⟨hserve, hgate'⟩ := @gateServe_spec (c.pcb.marksIn pkt).eceGate
          (c.step (.input env cc pkt)).pcb.eceGate hn hp
        rw [hev]
        refine ⟨Gate.accepts_append.mpr ⟨hask, ?_⟩, ?_⟩
        · rw [← hgate]
          exact hserve
        · rw [Gate.after_append, ← hgate]
          exact hgate'
      · refine aside (fun x hx => ?_) (by simp [Conn.gateEvents, ha])
        have hm : ∀ x ∈ l, x.IsPass := by simpa [Act.Makes, ha] using hmakes
        exact (hm x hx).isAside
    | _ => exact aside (fun x hx => (hmakes x hx).isAside) rfl

theorem gateRun_accepts (c : Conn) (acts : List Act) : c.pcb.eceGate.Accepts (c.gateRun acts) := by
  induction acts generalizing c with
  | nil => trivial
  | cons a acts ih =>
    obtain ⟨hacc, hgate⟩ := gateEvents_spec c a
    refine Gate.accepts_append.mpr ⟨hacc, ?_⟩
    rw [← hgate]
    exact ih (c.step a)

/-- **One reduction is carried out per window in just the runs in which `next_ece` and `snd_nxt` wrap
around together.** -/
theorem oneReduction_iff {c₀ : Conn} (hp : c₀.pcb.dctcp.pendingEce = false) (acts : List Act) :
    OncePerWindow (c₀.gateRun acts) ↔ WrapsTogether (c₀.gateRun acts) :=
  Gate.oncePerWindow_iff (gateRun_accepts c₀ acts) hp

/-- A connection that is about to send at sequence number `seq`. -/
def gateStart (seq : U32) : Conn where
  pcb := { tcpPcbInit {} with
    state := .established, sndWnd := 1000, sndWndMax := 1000, cwnd := 1000, dctcp := dctcpInit seq,
    lastack := seq, sndNxt := seq, sndLbb := seq, sndWl2 := seq }

def markedTwice (seq : U32) : List Act :=
  [.write {} [1, 2] false, .output {}, bareAck (seq + 1) true, bareAck (seq + 2) true]

/-- The second mark comes within the window of the first and reduces nothing. -/
theorem oneReduction_low : OncePerWindow ((gateStart 1).gateRun (markedTwice 1)) := by
  refine (oneReduction_iff rfl _).mpr ?_
  have hev : (gateStart 1).gateRun (markedTwice 1) =
      [.ask 3 1000 true, .serve, .ask 3 968 false] := by decide +kernel
  rw [hev]
  refine ⟨fun u m v r s h => ?_, fun u pos width opened v r h hu hle => ?_⟩
  · have hcount := congrArg (List.count .serve) h
    simp only [List.count_append, List.count_cons_self] at hcount
    have : List.count .serve [GateEvent.ask (3 : U32) 1000 true, .serve, .ask 3 968 false] = 1 := rfl
    omega
  · rcases u with _ | ⟨e, _ | ⟨e', _ | ⟨e'', u⟩⟩⟩
    · cases hu
    · simp at h
    · obtain ⟨rfl, rfl, h3⟩ : e = .ask 3 1000 true ∧ e' = .serve ∧
          [GateEvent.ask 3 968 false] = .ask pos width opened :: v := by simpa [eq_comm] using h
      obtain ⟨⟨rfl, -⟩, -⟩ : (pos = 3 ∧ width = 968 ∧ opened = false) ∧ v = [] := by
        simpa [eq_comm] using h3
      obtain rfl : (3, 1000) = r := Option.some.inj hu
      exact BitVec.le_refl _
    · simp at h

/-- A hundred bytes below the wrap-around it reduces the window again. -/
theorem oneReduction_wrap : ¬ OncePerWindow ((gateStart (-100)).gateRun (markedTwice (-100))) := by
  have hev : (gateStart (-100)).gateRun (markedTwice (-100)) =
      [.ask (-98) 1000 true, .serve, .ask (-98) 968 true, .serve] := by decide +kernel
  rw [hev]
  intro h
  exact absurd (h.apart [.ask (-98) 1000 true] [.ask (-98) 968 true] [] (-98, 1000) (-98, 968) rfl
    (by simp) rfl rfl) (by decide)

end LibvmaTlt.Lwip
