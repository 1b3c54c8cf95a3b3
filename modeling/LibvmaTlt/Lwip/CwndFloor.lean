import LibvmaTlt.Lwip.DctcpAlpha
import LibvmaTlt.Lwip.DctcpBytes

/-!
# The floor of the congestion window

Under the default algorithm every change of `cwnd` but one leaves at least a byte of window: growth
never shrinks it, the signals of loss set it from `mss`, the end of fast recovery sets it to `ssthresh`.
The one exception is `dctcp_reduce_cwnd`, which takes up to half of the window and has no floor: a
window of one byte becomes none.
-/

namespace LibvmaTlt.Lwip

/-! ## The computations -/

theorem toNat_u32_mss {mss : Nat} (h : mss < 65536) : (u32 mss).toNat = mss :=
  Nat.mod_eq_of_lt (by omega)

theorem lwipAckReceived_le (p : Pcb) (type : CcAck) :
    p.cwnd ≤ (lwipAckReceived p type).1 ∧ (lwipAckReceived p type).2 = p.ssthresh := by
  have hgrow : ∀ n : U32, p.cwnd ≤ if n > p.cwnd then n else p.cwnd := by
    intro n
    split
    · rename_i h
      exact BitVec.le_of_lt h
    · exact BitVec.le_refl _
  unfold lwipAckReceived
  cases type with
  | ack =>
    simp only
    split
    · exact ⟨hgrow _, rfl⟩
    · exact ⟨hgrow _, rfl⟩
  | dupack => exact ⟨hgrow _, rfl⟩
  | other => exact ⟨BitVec.le_refl _, rfl⟩

theorem toNat_mul_mss {k mss : Nat} (hk : k ≤ 3) (h : mss < 65536) :
    (BitVec.ofNat 32 k * u32 mss).toNat = k * mss := by
  have hkm : k * mss ≤ 3 * 65535 := Nat.mul_le_mul hk (by omega)
  have hk32 : k % 2 ^ 32 = k := Nat.mod_eq_of_lt (by omega)
  rw [BitVec.toNat_mul, toNat_u32_mss h, BitVec.toNat_ofNat, hk32]
  exact Nat.mod_eq_of_lt (by omega)

theorem threshold_bounds (w : U32) {mss : Nat} (h : mss < 65536) :
    2 * mss ≤ (if w / 2 < 2 * u32 mss then 2 * u32 mss else w / 2).toNat ∧
      (if w / 2 < 2 * u32 mss then 2 * u32 mss else w / 2).toNat < 2 ^ 31 := by
  have h2 : (2 * u32 mss).toNat = 2 * mss := toNat_mul_mss (by decide : 2 ≤ 3) h
  have hw := w.isLt
  have hhalf : (w / 2).toNat = w.toNat / 2 := BitVec.toNat_udiv
  split
  · omega
  · rename_i hge
    have := BitVec.le_def.mp (BitVec.not_lt.mp hge)
    omega

theorem lwipCongSignal_bounds {p : Pcb} (hm : 1 ≤ p.mss) (hm16 : p.mss < 65536) (type : CcSignal) :
    1 ≤ (lwipCongSignal p type).1 ∧ 2 ≤ (lwipCongSignal p type).2 := by
  have h3 : (3 * u32 p.mss).toNat = 3 * p.mss := toNat_mul_mss (Nat.le_refl 3) hm16
  have hhalf : (if p.cwnd > p.sndWnd then p.sndWnd / 2 else p.cwnd / 2) =
      (if p.cwnd > p.sndWnd then p.sndWnd else p.cwnd) / 2 := by
    split <;> rfl
  unfold lwipCongSignal
  rw [hhalf]
  obtain ⟨hlo, hhi⟩ := threshold_bounds (if p.cwnd > p.sndWnd then p.sndWnd else p.cwnd) hm16
  simp only
  generalize (if (if p.cwnd > p.sndWnd then p.sndWnd else p.cwnd) / 2 < 2 * u32 p.mss then 2 * u32 p.mss
    else (if p.cwnd > p.sndWnd then p.sndWnd else p.cwnd) / 2) = t at hlo hhi ⊢
  have ht : 2 ≤ t := BitVec.le_def.mpr (Nat.le_trans (by simp; omega) hlo)
  cases type with
  | ndupack =>
    refine ⟨BitVec.le_def.mpr ?_, ht⟩
    rw [BitVec.toNat_add, h3, Nat.mod_eq_of_lt (by omega)]
    show 1 ≤ _
    omega
  | rto =>
    refine ⟨BitVec.le_def.mpr ?_, ht⟩
    rw [toNat_u32_mss hm16]
    exact hm

theorem reduced_pos_iff {cwnd alpha : U32} (hc : 1 ≤ cwnd) (ha : alpha ≤ 65536) :
    1 ≤ u32 (cwnd.toNat * (65536 - alpha / 2).toNat / 65536) ↔ ¬ (cwnd = 1 ∧ 2 ≤ alpha) := by
  have ha' : alpha.toNat ≤ 65536 := ha
  have hc' : 1 ≤ cwnd.toNat := hc
  have hcw := cwnd.isLt
  have hhalf : (alpha / 2).toNat = alpha.toNat / 2 := BitVec.toNat_udiv
  have hsub : alpha / 2 ≤ 65536 := by
    rw [BitVec.le_def, hhalf]
    show _ ≤ 65536
    omega
  have hf : (65536 - alpha / 2).toNat = 65536 - alpha.toNat / 2 := by
    rw [BitVec.toNat_sub_of_le hsub, hhalf]
    rfl
  have hone : cwnd = 1 ↔ cwnd.toNat = 1 := by
    constructor
    · rintro rfl
      rfl
    · exact fun h => BitVec.eq_of_toNat_eq h
  have htwo : 2 ≤ alpha ↔ 2 ≤ alpha.toNat := Iff.rfl
  rw [hf, hone, htwo]
  have hle : cwnd.toNat * (65536 - alpha.toNat / 2) / 65536 ≤ cwnd.toNat :=
    Nat.div_le_of_le_mul (by rw [Nat.mul_comm]; exact Nat.mul_le_mul_right _ (by omega))
  have hnat : (u32 (cwnd.toNat * (65536 - alpha.toNat / 2) / 65536)).toNat =
      cwnd.toNat * (65536 - alpha.toNat / 2) / 65536 := Nat.mod_eq_of_lt (by omega)
  have hpos : 1 ≤ u32 (cwnd.toNat * (65536 - alpha.toNat / 2) / 65536) ↔
      65536 ≤ cwnd.toNat * (65536 - alpha.toNat / 2) := by
    rw [BitVec.le_def, hnat]
    show 1 ≤ _ ↔ _
    omega
  rw [hpos]
  rcases Nat.lt_or_ge cwnd.toNat 2 with hlt | hge
  · have h1 : cwnd.toNat = 1 := by omega
    rw [h1]
    omega
  · have hprod : 2 * 32768 ≤ cwnd.toNat * (65536 - alpha.toNat / 2) :=
      Nat.mul_le_mul hge (by omega)
    omega

theorem dctcpAlpha_le (d : DctcpParam) : dctcpAlpha d ≤ 65536 := by
  rw [dctcpAlpha_eq]
  split
  · exact BitVec.le_refl _
  · rename_i h
    exact BitVec.not_lt.mp h

/-! ## What the stack keeps -/

/-- There is a window, and the values that the next one is computed from leave one. -/
structure CwndInv (v : CcVars) : Prop where
  cwnd : 1 ≤ v.cwnd
  mss : 1 ≤ v.mss
  mss16 : v.mss < 65536
  recovery : v.infr = true → 2 ≤ v.ssthresh
  alpha : v.dctcp.alpha ≤ 65536

namespace CwndInv

variable {p : Pcb}

theorem grow (h : CwndInv p.cc) (type : CcAck) :
    CwndInv (p.setCwnd (lwipCcAlgo.ackReceived p type)).cc := by
  obtain ⟨hle, hth⟩ := lwipAckReceived_le p type
  refine ⟨BitVec.le_trans h.cwnd hle, h.mss, h.mss16, fun hi => ?_, h.alpha⟩
  show 2 ≤ (lwipAckReceived p type).2
  rw [hth]
  exact h.recovery hi

theorem loss (h : CwndInv p.cc) (type : CcSignal) {v : CcVars}
    (hv : v = { p.cc with cwnd := (lwipCongSignal p type).1, ssthresh := (lwipCongSignal p type).2,
                          infr := v.infr }) : CwndInv v := by
  obtain ⟨hc, hth⟩ := lwipCongSignal_bounds h.mss h.mss16 type
  rw [hv]
  exact ⟨hc, h.mss, h.mss16, fun _ => hth, h.alpha⟩

theorem rexmitFast (h : CwndInv p.cc) : CwndInv (tcpRexmitFast lwipCcAlgo p).cc := by
  have hrex : (tcpRexmit p).cc = p.cc := (tcpRexmit_calm { pcb := p }).toStill.cc
  unfold tcpRexmitFast
  split
  · rw [← hrex] at h
    exact h.loss .ndupack rfl
  · exact h

theorem rto (h : CwndInv p.cc) : CwndInv (slowRto lwipCcAlgo p).cc :=
  loss (p := p.backoffRto) h .rto rfl

theorem dup (h : CwndInv p.cc) : CwndInv (dupAckReact lwipCcAlgo p).cc := by
  unfold dupAckReact
  split
  · exact h.grow .dupack
  · split
    · exact h.rexmitFast.grow .other
    · exact h

theorem leave (h : CwndInv p.cc) : CwndInv (leaveRecovery lwipCcAlgo p).cc ∧
    ((leaveRecovery lwipCcAlgo p).cwnd = 1 ↔ p.flags.infr = false ∧ p.cwnd = 1) := by
  unfold leaveRecovery
  split
  · rename_i hi
    have hth : 2 ≤ p.ssthresh := h.recovery hi
    refine ⟨⟨BitVec.le_trans (by decide) hth, h.mss, h.mss16, fun hf => (by cases hf), h.alpha⟩, ?_⟩
    refine iff_of_false ?_ fun hf => ?_
    · show p.ssthresh ≠ 1
      rintro he
      rw [he] at hth
      exact absurd hth (by decide)
    · rw [hf.1] at hi
      cases hi
  · rename_i hi
    exact ⟨h, by simp [hi]⟩

theorem ackNewCwnd_iff (h : CwndInv p.cc) (hs : TcpState.num .established ≤ p.state.num) :
    (1 ≤ (ackNewCwnd lwipCcAlgo p).cwnd ↔
        ¬ (p.cwnd = 1 ∧ p.dctcp.pendingEce = true ∧ 2 ≤ p.dctcp.alpha)) ∧
      (1 ≤ (ackNewCwnd lwipCcAlgo p).cwnd → CwndInv (ackNewCwnd lwipCcAlgo p).cc) := by
  unfold ackNewCwnd
  rw [if_pos hs]
  by_cases hp : p.dctcp.pendingEce = true
  · obtain ⟨w, d, hr, hw, hd⟩ : ∃ w d, dctcpReduceCwnd p = ({ p with cwnd := w, dctcp := d }, true) ∧
        (1 ≤ w ↔ ¬ (p.cwnd = 1 ∧ 2 ≤ p.dctcp.alpha)) ∧ d.alpha = p.dctcp.alpha :=
      ⟨_, _, if_pos hp, reduced_pos_iff h.cwnd h.alpha, rfl⟩
    simp only [hr, if_true, hp, true_and]
    exact ⟨hw, fun hc => ⟨hc, h.mss, h.mss16, h.recovery, hd.symm ▸ h.alpha⟩⟩
  · have hr : dctcpReduceCwnd p = (p, false) := if_neg hp
    have hgrow := h.grow .ack
    simp only [hr, Bool.false_eq_true, if_false]
    exact ⟨iff_of_true hgrow.cwnd fun hb => hp hb.2.1, fun _ => hgrow⟩

theorem ackNewData_iff (h : CwndInv p.cc) (hs : TcpState.num .established ≤ p.state.num) (d : InData) :
    (1 ≤ (ackNewData lwipCcAlgo d p).cwnd ↔
        ¬ (p.flags.infr = false ∧ p.cwnd = 1 ∧ p.dctcp.pendingEce = true ∧ 2 ≤ p.dctcp.alpha)) ∧
      (1 ≤ (ackNewData lwipCcAlgo d p).cwnd → CwndInv (ackNewData lwipCcAlgo d p).cc) := by
  obtain ⟨hleave, hone⟩ := h.leave
  have hkeep : (leaveRecovery lwipCcAlgo p).state = p.state ∧
      (leaveRecovery lwipCcAlgo p).dctcp = p.dctcp := by
    unfold leaveRecovery
    split <;> exact ⟨rfl, rfl⟩
  unfold ackNewData
  generalize leaveRecovery lwipCcAlgo p = q at hleave hone hkeep ⊢
  have hvars : CwndInv (q.ackVars d.hdr.ackno).cc :=
    ⟨hleave.cwnd, hleave.mss, hleave.mss16, hleave.recovery, hleave.alpha⟩
  obtain ⟨hiff, hinv⟩ := hvars.ackNewCwnd_iff (show _ ≤ q.state.num by rw [hkeep.1]; exact hs)
  refine ⟨hiff.trans (not_congr ?_), hinv⟩
  show q.cwnd = 1 ∧ q.dctcp.pendingEce = true ∧ 2 ≤ q.dctcp.alpha ↔ _
  rw [hone, hkeep.2, and_assoc]

end CwndInv

/-! ## Steps and runs -/

/-- `Alpha` as `dctcp_recv` leaves it. -/
def Pcb.alphaWith (pcb : Pcb) (hdr : TcpHdr) : U32 :=
  if endsWindow pcb hdr then dctcpAlpha (pcb.atWindowEnd hdr) else pcb.dctcp.alpha

/-- The step is not an ACK of new data, with a reduction pending and `Alpha` at two or more, that finds
a window of one byte outside fast recovery. -/
def KeepsCwnd (c : Conn) : Act → Prop
  | .input env _ pkt =>
    ¬ (takesAck env pkt c.pcb ∧ AcksNew pkt.hdr.ackno c.pcb.lastack c.pcb.sndNxt ∧
      c.pcb.flags.infr = false ∧ c.pcb.cwnd = 1 ∧
      (c.pcb.dctcp.pendingEce = true ∨ schedules c.pcb pkt.hdr) ∧ 2 ≤ c.pcb.alphaWith pkt.hdr)
  | _ => True

def Act.UsesLwip : Act → Prop
  | .input _ cc _ => cc = lwipCcAlgo
  | .rexmitFast cc => cc = lwipCcAlgo
  | .slowRto cc => cc = lwipCcAlgo
  | _ => True

/-- There is a window, and `lwip_ack_received` at the next ACK of new data does not divide by zero. -/
structure CwndOk (pcb : Pcb) : Prop where
  window : 1 ≤ pcb.cwnd
  divisor : 1 ≤ (leaveRecovery lwipCcAlgo pcb).cwnd

theorem CwndInv.ok {p : Pcb} (h : CwndInv p.cc) : CwndOk p := ⟨h.cwnd, h.leave.1.cwnd⟩

theorem marksIn_reduction (p : Pcb) (pkt : InPkt) :
    ((p.marksIn pkt).dctcp.pendingEce = true ↔ p.dctcp.pendingEce = true ∨ schedules p pkt.hdr) ∧
      (p.marksIn pkt).dctcp.alpha = p.alphaWith pkt.hdr := by
  have hrecv : (p.marksIn pkt).dctcp = _ := dctcpRecv_eq p (pkt.tos &&& 3) pkt.hdr
  rw [hrecv]
  refine ⟨?_, rfl⟩
  by_cases hs : schedules p pkt.hdr <;> simp [hs]

theorem CwndInv.marksIn {p : Pcb} (h : CwndInv p.cc) (pkt : InPkt) : CwndInv (p.marksIn pkt).cc := by
  refine ⟨h.cwnd, h.mss, h.mss16, h.recovery, ?_⟩
  show (p.marksIn pkt).dctcp.alpha ≤ 65536
  rw [(marksIn_reduction p pkt).2, Pcb.alphaWith]
  split
  · exact dctcpAlpha_le _
  · exact h.alpha

theorem CwndInv.ack_iff {p : Pcb} {d : InData} {v : CcVars} (h : CwndInv p.cc)
    (hs : TcpState.num .established ≤ p.state.num) (hv : AckCc lwipCcAlgo d p v) :
    (1 ≤ v.cwnd ↔ ¬ (AcksNew d.hdr.ackno p.lastack p.sndNxt ∧ p.flags.infr = false ∧ p.cwnd = 1 ∧
        p.dctcp.pendingEce = true ∧ 2 ≤ p.dctcp.alpha)) ∧ (1 ≤ v.cwnd → CwndInv v) := by
  cases hv with
  | none hn => exact ⟨iff_of_true h.cwnd fun hb => hn hb.1, fun _ => h⟩
  | dup q hq hn =>
    rw [← hq] at h
    exact ⟨iff_of_true h.dup.cwnd fun hb => hn hb.1, fun _ => h.dup⟩
  | new q hq hst hn =>
    have hi : q.flags.infr = p.flags.infr := congrArg (fun v : CcVars => v.infr) hq
    have hc : q.cwnd = p.cwnd := congrArg (fun v : CcVars => v.cwnd) hq
    have he : q.dctcp.pendingEce = p.dctcp.pendingEce :=
      congrArg (fun v : CcVars => v.dctcp.pendingEce) hq
    have ha : q.dctcp.alpha = p.dctcp.alpha := congrArg (fun v : CcVars => v.dctcp.alpha) hq
    rw [← hq] at h
    rw [← hst] at hs
    obtain ⟨hiff, hinv⟩ := h.ackNewData_iff hs d
    rw [hi, hc, he, ha] at hiff
    refine ⟨hiff.trans (not_congr ?_), hinv⟩
    simp only [hn, true_and]

theorem CwndInv.step_iff {c : Conn} (h : CwndInv c.pcb.cc) (hl : c.Live) {a : Act} (ha : a.UsesLwip) :
    (1 ≤ (c.step a).pcb.cwnd ↔ KeepsCwnd c a) ∧
      (1 ≤ (c.step a).pcb.cwnd → CwndInv (c.step a).pcb.cc) := by
  have hkept : CwndInv (c.step a).pcb.cc → KeepsCwnd c a →
      (1 ≤ (c.step a).pcb.cwnd ↔ KeepsCwnd c a) ∧
        (1 ≤ (c.step a).pcb.cwnd → CwndInv (c.step a).pcb.cc) :=
    fun hi hk => ⟨iff_of_true hi.cwnd hk, fun _ => hi⟩
  rw [Conn.step_eq a hl.1] at hkept ⊢
  cases a with
  | input env cc pkt =>
    obtain rfl : cc = lwipCcAlgo := ha
    obtain ⟨hpend, halpha⟩ := marksIn_reduction c.pcb pkt
    rcases tcpInput_cc env lwipCcAlgo pkt hl.2 with ⟨ht, hcc⟩ | ⟨ht, hcc⟩
    · obtain ⟨hiff, hinv⟩ := (h.marksIn pkt).ack_iff hl.2.1 hcc
      rw [hpend, halpha] at hiff
      refine ⟨hiff.trans (not_congr ?_), hinv⟩
      exact (and_iff_right ht).symm
    · refine hkept ?_ fun hb => ht hb.1
      show CwndInv (tcpInput env lwipCcAlgo pkt c).conn.pcb.cc
      rw [hcc]
      exact h.marksIn pkt
  | rexmitFast cc =>
    obtain rfl : cc = lwipCcAlgo := ha
    exact hkept h.rexmitFast trivial
  | slowRto cc =>
    obtain rfl : cc = lwipCcAlgo := ha
    exact hkept h.rto trivial
  | write | output | recved | rexmit | rexmitRto | close | shutdown | slowTimers | slowChecks =>
    exact hkept (by rw [act_cc hl.1 rfl]; exact h) trivial

/-- **The window stays open in every run whose steps all meet the condition, and the first step that
does not meet it closes it.** -/
theorem cwndOk_iff {c₀ c : Conn} (hm : 1 ≤ c₀.pcb.mss) (hm16 : c₀.pcb.mss < 65536)
    (hcwnd : u32 c₀.pcb.mss ≤ c₀.pcb.cwnd) (hinfr : c₀.pcb.flags.infr = false)
    (halpha : c₀.pcb.dctcp.alpha ≤ 65536)
    (h : Reach Conn.step (fun c a => c.Live ∧ a.UsesLwip ∧ KeepsCwnd c a) c₀ c) :
    CwndOk c.pcb ∧ ∀ a, c.Live → a.UsesLwip → (CwndOk (c.step a).pcb ↔ KeepsCwnd c a) := by
  have hstart : CwndInv c₀.pcb.cc := by
    refine ⟨BitVec.le_trans (BitVec.le_def.mpr ?_) hcwnd, hm, hm16, fun hi => ?_, halpha⟩
    · rw [toNat_u32_mss hm16]
      exact hm
    · exact nomatch hinfr.symm.trans hi
  have hinv : CwndInv c.pcb.cc := by
    refine h.inv (I := fun c => CwndInv c.pcb.cc) hstart fun s a hs ha => ?_
    obtain ⟨hiff, hkeep⟩ := hs.step_iff ha.1 ha.2.1
    exact hkeep (hiff.mpr ha.2.2)
  refine ⟨hinv.ok, fun a hl ha => ?_⟩
  obtain ⟨hiff, hkeep⟩ := hinv.step_iff hl ha
  exact ⟨fun hok => hiff.mp hok.window, fun hk => (hkeep (hiff.mpr hk)).ok⟩

def byteSegments : Conn where
  pcb := { tcpPcbInit {} with
    state := .established, mss := 1, sndWnd := 1000, sndWndMax := 1000, cwnd := 1, sndWl2 := 1,
    dctcp := dctcpInit 1 }

def byteSent : Conn := (byteSegments.step (.write {} [1] false)).step (.output {})

theorem byteSent_reach :
    Reach Conn.step (fun c a => c.Live ∧ a.UsesLwip ∧ KeepsCwnd c a) byteSegments byteSent :=
  .next (.next .start _ ⟨by decide +kernel, trivial, trivial⟩) _ ⟨by decide +kernel, trivial, trivial⟩

/-- Acknowledged without ECE, it makes the window grow. -/
theorem cwndOk_byte : CwndOk (byteSent.step (bareAck 2 false)).pcb ∧
    (byteSent.step (bareAck 2 false)).pcb.cwnd = 2 := by
  have hreach : Reach Conn.step (fun c a => c.Live ∧ a.UsesLwip ∧ KeepsCwnd c a) byteSegments
      (byteSent.step (bareAck 2 false)) :=
    .next byteSent_reach _ ⟨by decide +kernel, rfl, fun hb => absurd hb.2.2.2.2.1 (by decide +kernel)⟩
  exact ⟨(cwndOk_iff (by decide) (by decide) (by decide) rfl (by decide) hreach).1, by decide +kernel⟩

/-- Acknowledged with ECE, it takes the window away. -/
theorem cwnd_gone :
    Reach Conn.step (fun c a => c.Live ∧ a.UsesLwip) byteSegments (byteSent.step (bareAck 2 true)) ∧
      (byteSent.step (bareAck 2 true)).pcb.cwnd = 0 :=
  ⟨.next (byteSent_reach.mono fun _ _ h => ⟨h.1, h.2.1⟩) _ ⟨by decide +kernel, rfl⟩, by decide +kernel⟩

/-! ## The size of a reduction -/

theorem DctcpCall.after_alpha_le {d : DctcpParam} (h : d.alpha ≤ 65536) (l : List DctcpCall) :
    (after d l).alpha ≤ 65536 := by
  induction l generalizing d with
  | nil => exact h
  | cons x l ih =>
    refine ih ?_
    cases x with
    | recv pcb ecn hdr =>
      rw [next, dctcpRecv_eq]
      simp only
      split
      · exact dctcpAlpha_le _
      · exact h
    | reduce =>
      simp only [next]
      split <;> exact h
    | send f =>
      simp only [next, dctcpSendEmpty]
      split <;> exact h
    | rto | pass => exact h

/-- **A reduction takes at most half of the window**, at any point of a run. -/
theorem reduction_halves {c : Conn} (h : c.pcb.dctcp.alpha ≤ 65536) (acts : List Act) :
    (c.run acts).pcb.cwnd.toNat ≤ 2 * (dctcpReduceCwnd (c.run acts).pcb).1.cwnd.toNat + 1 ∧
      (dctcpReduceCwnd (c.run acts).pcb).1.cwnd ≤ (c.run acts).pcb.cwnd := by
  obtain ⟨l, hl⟩ := exists_runCalls c acts
  have ha := DctcpCall.after_alpha_le h l
  rw [← hl.calls.dctcp] at ha
  generalize (c.run acts).pcb = p at ha ⊢
  have ha' : p.dctcp.alpha.toNat ≤ 65536 := ha
  have hf : (65536 - p.dctcp.alpha / 2).toNat = 65536 - p.dctcp.alpha.toNat / 2 := by
    have hhalf : (p.dctcp.alpha / 2).toNat = p.dctcp.alpha.toNat / 2 := BitVec.toNat_udiv
    rw [BitVec.toNat_sub_of_le (BitVec.le_def.mpr (by rw [hhalf]; show _ ≤ 65536; omega)), hhalf]
    rfl
  have hcw := p.cwnd.isLt
  simp only [dctcpReduceCwnd, hf, BitVec.le_def]
  split
  · simp only [u32, BitVec.toNat_ofNat]
    have h1 : p.cwnd.toNat * 32768 ≤ p.cwnd.toNat * (65536 - p.dctcp.alpha.toNat / 2) :=
      Nat.mul_le_mul_left _ (by omega)
    have h2 : p.cwnd.toNat * (65536 - p.dctcp.alpha.toNat / 2) ≤ p.cwnd.toNat * 65536 :=
      Nat.mul_le_mul_left _ (by omega)
    omega
  · dsimp only
    omega

/-- With everything marked so far, a byte is sent, and an ACK with ECE comes that acknowledges nothing: the
reduction is pending. -/
def eceRun : Conn :=
  Conn.run { byteSegments with
    pcb := { byteSegments.pcb with cwnd := 1001, dctcp := { dctcpInit 1 with alpha := 65536 } } }
    [.write {} [1] false, .output {}, bareAck 1 true]

theorem reduction_halves_pending : eceRun.pcb.dctcp.pendingEce = true ∧
    (eceRun.pcb.cwnd, (dctcpReduceCwnd eceRun.pcb).1.cwnd) = (503, 251) ∧
    eceRun.pcb.cwnd.toNat ≤ 2 * (dctcpReduceCwnd eceRun.pcb).1.cwnd.toNat + 1 :=
  ⟨by decide +kernel, by decide +kernel, (reduction_halves (by decide) _).1⟩

end LibvmaTlt.Lwip
