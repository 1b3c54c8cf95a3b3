import LibvmaTlt.Lwip.OutputSpec

/-!
# The send window and the forced retransmission

The send loop checks the window and the Nagle test for every segment, but skips both checks while
`force_transmit` is set, and the flag stays set for the rest of the call. A call that queues a copy
for forced retransmission in front of other data therefore sends that data whatever the window says.
-/

namespace LibvmaTlt.Lwip

/-- The forced-retransmission block of a call of `tcp_output` queues a copy. -/
def queuesCopy (env : Env) (pcb : Pcb) : Bool :=
  !pcb.flags.ackNow && forceWanted pcb && env.pbufOk 0 && env.segOk 0 &&
    match forceSeq pcb with
    | none => false
    | some seq => (forceTarget pcb seq).isSome

/-- The segments among what was passed to `ip_output`, each with the pcb it was decided on. -/
def segsOf (l : List Sent) : List (Pcb × TcpSeg) := l.filterMap fun s => s.seg.map (Prod.mk s.pcb)

def segsSent (env : Env) (pcb : Pcb) : List (Pcb × TcpSeg) :=
  segsOf (tcpOutput env { pcb := pcb }).sent

/-- The segments a call of `tcp_output` sends besides the copy it made, which goes out first
(`segsSent_copy`). -/
def otherSegs (env : Env) (pcb : Pcb) : List (Pcb × TcpSeg) :=
  if queuesCopy env pcb then (segsSent env pcb).drop 1 else segsSent env pcb

/-- The segment fits the window and Nagle does not hold it back. -/
def Respects (x : Pcb × TcpSeg) : Prop :=
  fitsWnd x.1 x.2 x.1.wnd = true ∧ nagleStop x.1 x.2 = false

instance (x : Pcb × TcpSeg) : Decidable (Respects x) := inferInstanceAs (Decidable (_ ∧ _))

/-! ## The forced block -/

theorem forceTransmit_snd (env : Env) (pcb : Pcb)
    (hn : (pcb.flags.ackNow && noData pcb) = false) :
    (forceTransmit env pcb).2 = queuesCopy env pcb := by
  unfold forceTransmit queuesCopy
  cases hw : forceWanted pcb
  · simp
  rw [noData_of_forceWanted hw, Bool.and_true] at hn
  rw [hn]
  cases hs : forceSeq pcb with
  | none => simp
  | some seq =>
    cases ht : forceTarget pcb seq with
    | none => simp [ht]
    | some target => cases hp : env.pbufOk 0 <;> cases hg : env.segOk 0 <;> simp [ht]

theorem forceTransmit_wnd (env : Env) (pcb : Pcb) : (forceTransmit env pcb).1.wnd = pcb.wnd := by
  rcases forceTransmit_cases env pcb with h | ⟨k, -, h⟩ | ⟨_, _, _, _, _, _, _, h⟩ <;> rw [h]
  all_goals rfl

/-! ## Passes -/

theorem segsOf_append (a b : List Sent) : segsOf (a ++ b) = segsOf a ++ segsOf b := by
  simp [segsOf]

theorem segsOf_acks {l : List Sent} (h : ∀ s ∈ l, s.seg = none) : segsOf l = [] := by
  rw [segsOf, List.filterMap_eq_nil_iff]
  intro s hs
  rw [h s hs]
  rfl

variable {c : Conn} {seg : TcpSeg} {rest : List TcpSeg} {env : Env}

theorem Pass.segsOf {force : Bool} {c' : Conn}
    (h : Pass force c seg rest c') : segsOf c'.sent = segsOf c.sent ++ [(c.pcb, h.out)] := by
  rw [h.sent_eq, segsOf_append, segsOf_append, segsOf_acks h.acks_seg, List.append_nil]
  rfl

theorem Pass.checks {force : Bool} {c' : Conn}
    (h : Pass force c seg rest c') (pcb : Pcb) (wnd : U32) :
    fitsWnd pcb h.out wnd = fitsWnd pcb seg wnd ∧ nagleStop pcb h.out = nagleStop pcb seg := by
  obtain ⟨fl, tos, ho, -, -⟩ := h.out_eq
  rw [ho]
  exact ⟨rfl, rfl⟩

theorem splitHead_wnd (env : Env) (force : Bool) (wnd : U32) (n : Nat) (pcb : Pcb) :
    (splitHead env force wnd n pcb).wnd = pcb.wnd := by
  rcases splitHead_unsent env force wnd n pcb with h | ⟨_, _, _, _, _, _, _, _, _, h⟩
  · rw [h]
  · rw [h]; rfl

theorem outputLoop_respects {f n : Nat} (hf : c.fault = false) (hs : c.sent = []) :
    ∀ x ∈ segsOf (outputLoop env false c.pcb.wnd f n c).sent, Respects x := by
  have key : ∀ f n c', c'.fault = false → (c'.fault = false → c'.pcb.wnd = c.pcb.wnd) ∧
      (∀ x ∈ segsOf c'.sent, Respects x) →
      ((outputLoop env false c.pcb.wnd f n c').fault = false →
        (outputLoop env false c.pcb.wnd f n c').pcb.wnd = c.pcb.wnd) ∧
      ∀ x ∈ segsOf (outputLoop env false c.pcb.wnd f n c').sent, Respects x := by
    apply outputLoop_inv
    · intro n c1 ⟨hw, hx⟩
      exact ⟨fun h => (splitHead_wnd ..).trans (hw h), hx⟩
    · intro n c1 seg rest ⟨hw, hx⟩ hf1 _ hfit hn
      obtain ⟨ps⟩ := sendHead_pass env false n c1 seg rest
      refine ⟨fun h => ?_, ?_⟩
      · obtain ⟨q, hq, -⟩ := ps.pcb_frame h
        rw [hq]
        exact hw hf1
      · intro x hmem
        rw [ps.segsOf, List.mem_append, List.mem_singleton] at hmem
        rcases hmem with hmem | rfl
        · exact hx x hmem
        · obtain ⟨h1, h2⟩ := ps.checks c1.pcb c1.pcb.wnd
          refine ⟨?_, ?_⟩
          · rw [h1, hw hf1]; simpa using hfit
          · rw [h2]; simpa using hn
  exact (key f n c hf ⟨fun _ => rfl, by simp [hs, segsOf]⟩).2

theorem outputLoop_force_cons {wnd : U32} {f n : Nat} (hf : c.fault = false)
    (hu : c.pcb.unsent = seg :: rest) :
    (sendHead env true n c seg rest).fault = false ∧
      outputLoop env true wnd (f + 1) n c =
        outputLoop env true wnd f (n + 1) (sendHead env true n c seg rest) := by
  obtain ⟨ps⟩ := sendHead_pass env true n c seg rest
  have hfault : (sendHead env true n c seg rest).fault = false := by
    rw [ps.fault_eq, hf]
    simp [afterSend]
  refine ⟨hfault, ?_⟩
  simp only [outputLoop, splitHead_force, hu, Bool.or_true, if_true, Bool.not_true, Bool.false_and,
    Bool.false_eq_true, if_false, hfault]

/-! ## The whole call -/

theorem tcpOutput_copy {pcb : Pcb} (h : queuesCopy env pcb = true) :
    noData pcb = true ∧ ∃ k copy, copy.addr = pcb.nextSeg ∧
      segsSent env pcb = segsOf (outputLoop env true pcb.wnd (outputFuel (copy :: pcb.unsent)) 0
        { pcb := (pcb.forcePop k).pushUnsent copy }).sent := by
  have hn : pcb.flags.ackNow = false := by
    simp only [queuesCopy, Bool.and_eq_true, Bool.not_eq_true'] at h
    exact h.1.1.1.1
  have hsnd := forceTransmit_snd env pcb (by rw [hn, Bool.false_and])
  rw [h] at hsnd
  rcases forceTransmit_cases env pcb with he | ⟨k, -, he⟩ | ⟨seq, target, hw, -, -, -, -, heq⟩
  · rw [he] at hsnd
    cases hsnd
  · rw [he] at hsnd
    cases hsnd
  · refine ⟨noData_of_forceWanted hw, forceTargetLen pcb seq target, forceCopy env pcb seq target, rfl,
      ?_⟩
    simp only [segsSent, tcpOutput, hn, Bool.false_and, Bool.false_eq_true, if_false, heq]
    rfl

theorem segsSent_copy {pcb : Pcb} (h : queuesCopy env pcb = true) :
    ∃ c f, segsSent env pcb = segsOf (outputLoop env true pcb.wnd (f + outputFuel pcb.unsent) 1 c).sent ∧
      c.fault = false ∧ c.pcb.unsent = pcb.unsent ∧ c.pcb.lastack = pcb.lastack ∧
      c.pcb.wnd = pcb.wnd ∧ ∃ x, segsOf c.sent = [x] ∧ x.2.addr = pcb.nextSeg := by
  obtain ⟨-, k, copy, haddr, hs⟩ := tcpOutput_copy h
  have hfuel : outputFuel (copy :: pcb.unsent) =
      pbufLen copy.p + (tcpHlen + 1) * copy.p.length + outputFuel pcb.unsent + 1 := by
    rw [outputFuel_cons, segFuel]; omega
  rw [hfuel] at hs
  obtain ⟨hf1, heq⟩ := @outputLoop_force_cons { pcb := (pcb.forcePop k).pushUnsent copy } copy pcb.unsent
    env pcb.wnd (pbufLen copy.p + (tcpHlen + 1) * copy.p.length + outputFuel pcb.unsent) 0 rfl rfl
  obtain ⟨ps⟩ := sendHead_pass env true 0 { pcb := (pcb.forcePop k).pushUnsent copy } copy pcb.unsent
  obtain ⟨q, hq, hr, -⟩ := ps.pcb_frame hf1
  rw [heq] at hs
  refine ⟨sendHead env true 0 { pcb := (pcb.forcePop k).pushUnsent copy } copy pcb.unsent, _, hs, hf1,
    ?_, ?_, ?_, ((pcb.forcePop k).pushUnsent copy, ps.out), ?_, ?_⟩
  · rw [hq]; exact hr
  · rw [hq]; rfl
  · rw [hq]; rfl
  · exact ps.segsOf
  · exact ps.out_seg.1.trans haddr

/-- **Send-window respect.** Every segment of a call other than the copy respects the window and the
Nagle test exactly if the call does not make a copy in front of unsent data. -/
theorem otherSegs_respect_iff (env : Env) (pcb : Pcb) :
    (∀ x ∈ otherSegs env pcb, Respects x) ↔ ¬(queuesCopy env pcb = true ∧ pcb.unsent ≠ []) := by
  by_cases hq : queuesCopy env pcb = true
  · obtain ⟨c, f, hs, hf, hu, hla, hw, x, hx, -⟩ := segsSent_copy hq
    simp only [otherSegs, hq, if_true, true_and, ne_eq, not_not]
    cases hl : pcb.unsent with
    | nil =>
      -- nothing behind the copy: the loop stops at once
      have hstop : outputLoop env true pcb.wnd (f + outputFuel []) 1 c = c := by
        simp only [outputFuel_nil, outputLoop, splitHead_force, hu, hl]
      rw [hs, hl, hstop, hx]
      simp
    | cons s t =>
      -- the head did not fit, or no copy would have been made, and goes out all the same
      simp only [reduceCtorEq, iff_false, not_forall]
      have hnf : fitsWnd pcb s pcb.wnd = false := by
        have := (tcpOutput_copy hq).1
        simpa [noData, hl] using this
      have hfuel : f + outputFuel (s :: t) = (f + (segFuel s - 1) + outputFuel t) + 1 := by
        rw [outputFuel_cons, segFuel]; omega
      obtain ⟨hf1, heq⟩ := @outputLoop_force_cons c s t env pcb.wnd (f + (segFuel s - 1) + outputFuel t)
        1 hf (hu.trans hl)
      obtain ⟨ps⟩ := sendHead_pass env true 1 c s t
      obtain ⟨l, hl'⟩ := @outputLoop_sent true env pcb.wnd 2 _ (f + (segFuel s - 1) + outputFuel t) hf1
      refine ⟨(c.pcb, ps.out), ?_, ?_⟩
      · rw [hs, hl, hfuel, heq, hl', segsOf_append, ps.segsOf, hx]
        simp
      · intro hr
        have hfit := hr.1
        rw [(ps.checks c.pcb c.pcb.wnd).1, hw] at hfit
        unfold fitsWnd at hfit hnf
        rw [hla, hnf] at hfit
        cases hfit
  · refine iff_of_true ?_ fun h => hq h.1
    intro x hx
    rw [otherSegs, if_neg hq] at hx
    simp only [segsSent, tcpOutput] at hx
    split at hx
    · -- only an empty ACK
      obtain ⟨m, l, he, -, hl⟩ := tcpSendEmptyAck_spec env 0 { pcb := pcb }
      rw [he] at hx
      simp [segsOf_acks hl] at hx
    · rename_i hn
      have hsnd := forceTransmit_snd env pcb (by simpa using hn)
      rw [hsnd, Bool.eq_false_of_not_eq_true hq, ← forceTransmit_wnd env pcb] at hx
      exact outputLoop_respects (c := { pcb := (forceTransmit env pcb).1 }) rfl rfl x hx

/-- A pcb with a full window, an importance token and unsent data behind unacknowledged data. -/
def fullWindow : Pcb :=
  { tcpPcbInit {} with
    state := .established
    cwnd := 10
    sndWnd := 1000
    sndNxt := 11
    sndLbb := 21
    unacked := [{ addr := 0, seqno := 1, len := 10, p := [⟨List.replicate 30 0, 30⟩] }]
    lastUnacked := some 0
    unsent := [{ addr := 1, seqno := 11, len := 10, p := [⟨List.replicate 30 0, 30⟩] }]
    lastUnsent := some 1
    nextSeg := 2
    tlt := { tltInit with
      sendState := .pending
      uimp := (UimpQueue.empty.set 0 ⟨0, 10, 0, none⟩).grow } }

/-- The forced retransmission of the first segment takes the second one along, which ends 20 bytes past
`lastack` with a window of 10. -/
theorem fullWindow_overrun :
    (otherSegs {} fullWindow).map (fun x => (x.2.seqno, x.2.len, x.1.lastack, x.1.wnd)) =
        [(11, 10, 1, 10)] ∧
      ¬ ∀ x ∈ otherSegs {} fullWindow, Respects x := by
  decide +kernel

end LibvmaTlt.Lwip
