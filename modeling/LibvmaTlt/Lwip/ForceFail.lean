import LibvmaTlt.Lib.Ledger
import LibvmaTlt.Lwip.ForceTarget
import LibvmaTlt.Lwip.UimpPop

/-!
# Forced retransmission without memory

The forced block of `tcp_output` takes the range out of the queue of unimportant data and turns the
token into a forced one before it allocates the pbuf and the segment of the copy. If one of the two
allocations fails, nothing puts this back: the range is neither recorded any longer nor sent.
-/

namespace LibvmaTlt.Lwip

/-- `tcp_output` without its forced block. -/
def outputUnforced (env : Env) (c : Conn) : Conn :=
  let c := outputLoop env false c.pcb.wnd (outputFuel c.pcb.unsent) 0 c
  { c with pcb := c.pcb.outputDone }

/-- The pbufs that the forced block allocates and gives back: `tcp_create_segment` frees the pbuf it was
given when there is no segment for it. -/
def forcePbufs (env : Env) : Ledger Nat :=
  if !env.pbufOk 0 then {}
  else if !env.segOk 0 then (Ledger.get {} 0).free [0]
  else Ledger.get {} 0

/-- `tcp_output` gets to the allocations of the forced block, for a copy of `t` from `q` on, and one of
them fails. -/
structure ForceFails (env : Env) (pcb : Pcb) (q : U32) (t : TcpSeg) : Prop where
  noAck : pcb.flags.ackNow = false
  wanted : forceWanted pcb = true
  seq : forceSeq pcb = some q
  target : forceTarget pcb q = some t
  fails : env.pbufOk 0 = false ∨ env.segOk 0 = false

/-- The forced block leaves no trace: token and record are as without it, and what it allocated is given
back once. -/
structure ForceAtomic (env : Env) (c : Conn) : Prop where
  sendState : (tcpOutput env c).pcb.tlt.sendState = (outputUnforced env c).pcb.tlt.sendState
  record : SameRecord (tcpOutput env c).pcb.tlt.uimp (outputUnforced env c).pcb.tlt.uimp
  released : (forcePbufs env).Settled

section Fails

variable {env : Env} {c : Conn} {q : U32} {t : TcpSeg}

theorem outputLoop_stuck {wnd : U32} {f n : Nat} (hu : c.pcb.unacked ≠ [])
    (hfit : ∀ s rest, c.pcb.unsent = s :: rest → fitsWnd c.pcb s wnd = false) :
    outputLoop env false wnd f n c = c := by
  cases f with
  | zero => rfl
  | succ f =>
    have hsplit : splitHead env false wnd n c.pcb = c.pcb := by
      unfold splitHead
      split
      · rfl
      · rw [if_neg fun h => hu h.2.1]
    simp only [outputLoop, hsplit]
    split
    · rfl
    · rename_i s rest hs
      rw [hfit s rest hs]
      rfl

theorem unacked_of_forceWanted {pcb : Pcb} (h : forceWanted pcb = true) : pcb.unacked ≠ [] := by
  intro hu
  simp [forceWanted, hu] at h

theorem not_fitsWnd_of_noData {pcb : Pcb} (h : noData pcb = true) (s : TcpSeg) (rest : List TcpSeg)
    (hs : pcb.unsent = s :: rest) : fitsWnd pcb s pcb.wnd = false := by
  simpa [noData, hs] using h

theorem ForceFails.unforced (h : ForceFails env c.pcb q t) :
    (outputUnforced env c).pcb.tlt = c.pcb.tlt := by
  unfold outputUnforced
  rw [outputLoop_stuck (unacked_of_forceWanted h.wanted)
    (not_fitsWnd_of_noData (noData_of_forceWanted h.wanted))]
  rfl

theorem ForceFails.forced (h : ForceFails env c.pcb q t) :
    (tcpOutput env c).pcb.tlt = (c.pcb.forcePop (forceTargetLen c.pcb q t)).tlt := by
  have hforce : forceTransmit env c.pcb = (c.pcb.forcePop (forceTargetLen c.pcb q t), false) := by
    unfold forceTransmit
    rw [h.wanted, h.seq]
    simp only [h.target, Bool.not_true, Bool.false_eq_true, if_false]
    rw [if_pos]
    exact h.fails.imp (by simp [·]) (by simp [·])
  unfold tcpOutput
  rw [h.noAck, Bool.false_and, if_neg Bool.false_ne_true, hforce]
  have hu := unacked_of_forceWanted h.wanted
  have hfit := not_fitsWnd_of_noData (noData_of_forceWanted h.wanted)
  have hstuck := @outputLoop_stuck env { c with pcb := c.pcb.forcePop (forceTargetLen c.pcb q t) }
    c.pcb.wnd (outputFuel c.pcb.unsent) 0 hu hfit
  exact congrArg (·.pcb.outputDone.tlt) hstuck

theorem forcePbufs_settled (h : env.pbufOk 0 = false ∨ env.segOk 0 = false) :
    (forcePbufs env).Settled := by
  have hgot : (Ledger.get {} 0).Holds ([0] ++ []) := Ledger.holds_empty.get List.not_mem_nil
  unfold forcePbufs
  rcases h with h | h
  · simpa [h] using Ledger.holds_empty.settled
  · cases env.pbufOk 0
    · exact Ledger.holds_empty.settled
    · simpa [h] using hgot.free.settled

theorem u32_forceTargetLen_eq_zero {pcb : Pcb} : u32 (forceTargetLen pcb q t) = 0 ↔ t.dataEnd = q := by
  have hle : 1 ≤ forceLen pcb ∧ forceLen pcb ≤ 1460 := by
    unfold forceLen
    split <;> omega
  have hzero : (t.dataEnd - q).toNat = 0 ↔ t.dataEnd = q := by
    rw [← sub_eq_zero (a := t.dataEnd), ← BitVec.toNat_inj]
    rfl
  rw [← hzero, ← BitVec.toNat_inj, u32, BitVec.toNat_ofNat, forceTargetLen]
  show min (forceLen pcb) (t.dataEnd - q).toNat % 2 ^ 32 = 0 ↔ _
  rw [Nat.mod_eq_of_lt (by omega)]
  omega

/-- **When a failed forced block leaves no trace:** the token was a forced one already, and the pop
takes nothing out of the record. On a queue of disjoint blocks the latter means that the segment found
ends at the head block or that the pop does not look at the head block. -/
theorem forceAtomic_iff (h : ForceFails env c.pcb q t) :
    (ForceAtomic env c ↔ c.pcb.tlt.sendState = .pendingForce ∧
      SameRecord (c.pcb.tlt.forcePop (u32 (forceTargetLen c.pcb q t))).uimp c.pcb.tlt.uimp) ∧
    (WellLinked c.pcb.tlt.uimp →
      (ForceAtomic env c ↔ c.pcb.tlt.sendState = .pendingForce ∧
        (t.dataEnd = q ∨ ¬ LooksAt (c.pcb.tlt.curRound - 2) (c.pcb.tlt.uimp.slot 0).round))) := by
  have hall : ForceAtomic env c ↔ c.pcb.tlt.sendState = .pendingForce ∧
      SameRecord (c.pcb.tlt.forcePop (u32 (forceTargetLen c.pcb q t))).uimp c.pcb.tlt.uimp := by
    constructor
    · rintro ⟨hs, hr, -⟩
      rw [h.forced, h.unforced] at hs hr
      exact ⟨hs.symm, hr⟩
    · rintro ⟨hs, hr⟩
      refine ⟨?_, ?_, forcePbufs_settled h.fails⟩ <;> rw [h.forced, h.unforced]
      · exact hs.symm
      · exact hr
  refine ⟨hall, fun hw => ?_⟩
  have h0 : (c.pcb.tlt.uimp.slot 0).len ≠ 0 := by
    intro h0
    have hseq := h.seq
    simp [forceSeq, tltUimpqPeek, h0] at hseq
  rw [hall, sameRecord_iff hw h0, u32_forceTargetLen_eq_zero]

end Fails

def noPbuf : Env := { pbufOk := fun _ => false }

def noSeg : Env := { segOk := fun _ => false }

def Conn.withToken (c : Conn) (s : TltState) (round : U32) : Conn :=
  { c with pcb := { c.pcb with tlt := { c.pcb.tlt with sendState := s, curRound := round } } }

/-- The block failed before, and the segment in front of the head block is taken for the target. -/
theorem forceAtomic_again :
    ForceAtomic noPbuf ((tokenHeld 11 [(1, 10), (11, 5)]).withToken .pendingForce 2) :=
  ((@forceAtomic_iff noPbuf ((tokenHeld 11 [(1, 10), (11, 5)]).withToken .pendingForce 2) 11
    { addr := 0, seqno := 1, len := 10, p := [⟨[], 0⟩] }
    ⟨rfl, by decide, by decide, by decide, .inl rfl⟩).2 (oneBlock_wellLinked 0 2)).mpr
    ⟨rfl, .inl (by decide)⟩

/-- Without a segment the token that came with an echo stays a forced one, though nothing is sent, and
the byte that was to be retransmitted is not recorded any longer. -/
theorem forceAtomic_fails :
    ForceFails noSeg ((tokenHeld 11 [(11, 5)]).withToken .pending 2).pcb 11
        { addr := 0, seqno := 11, len := 5, p := [⟨[], 0⟩] } ∧
      ¬ ForceAtomic noSeg ((tokenHeld 11 [(11, 5)]).withToken .pending 2) ∧
      (tcpOutput noSeg ((tokenHeld 11 [(11, 5)]).withToken .pending 2)).sent = [] ∧
      ((tcpOutput noSeg ((tokenHeld 11 [(11, 5)]).withToken .pending 2)).pcb.tlt.uimp.slot 0).seq =
        11 := by
  refine ⟨⟨rfl, by decide, by decide, by decide, .inr rfl⟩, fun h => ?_, by decide, by decide⟩
  exact absurd h.sendState (by decide)

end LibvmaTlt.Lwip
