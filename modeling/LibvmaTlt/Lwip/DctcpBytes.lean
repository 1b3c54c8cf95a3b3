import LibvmaTlt.Lwip.CcVars

/-!
# The byte counters of DCTCP

`BytesAcked` and `BytesMarked` stand for the advance of `lastack` since `Alpha` was last updated, and
for the part of it that came with ECE. `dctcp_recv` counts a segment before `tcp_receive` has looked at
it, by an unsigned difference, so the counters follow `lastack` on the segments that `tcp_receive` then
accepts and on no others: `bytesRight_iff` has the condition, segment by segment.
-/

namespace LibvmaTlt.Lwip

def Conn.advance (c : Conn) (a : Act) : Nat := ((c.step a).pcb.lastack - c.pcb.lastack).toNat

/-- A run, with the advance of `lastack` due to the segments since the last update of `Alpha`, and the
part of it due to segments with ECE. -/
structure ByteRun where
  conn : Conn
  acked : Nat := 0
  marked : Nat := 0

/-- A step of a run. The segment with which `Alpha` is updated belongs to the window that it ends. -/
def ByteRun.step (r : ByteRun) (a : Act) : ByteRun :=
  match a with
  | .input _ _ pkt =>
    if endsWindow r.conn.pcb pkt.hdr then { conn := r.conn.step a }
    else
      { conn := r.conn.step a
        acked := r.acked + r.conn.advance a
        marked := r.marked + if pkt.hdr.flags.ece then r.conn.advance a else 0 }
  | _ => { r with conn := r.conn.step a }

structure BytesRight (r : ByteRun) : Prop where
  acked : r.conn.pcb.dctcp.bytesAcked.toNat = r.acked
  marked : r.conn.pcb.dctcp.bytesMarked.toNat = r.marked
  le : r.conn.pcb.dctcp.bytesMarked ≤ r.conn.pcb.dctcp.bytesAcked

/-- A segment that counts as an acknowledgement and does not end the window repeats `lastack`, or is
taken and acknowledges new data, and `BytesAcked` has room for it. -/
def CountsRight (c : Conn) : Act → Prop
  | .input env _ pkt => pkt.hdr.acks = true → endsWindow c.pcb pkt.hdr ∨ pkt.hdr.ackno = c.pcb.lastack ∨
      takesAck env pkt c.pcb ∧ AcksNew pkt.hdr.ackno c.pcb.lastack c.pcb.sndNxt ∧
        c.pcb.dctcp.bytesAcked.toNat + (pkt.hdr.ackno - c.pcb.lastack).toNat < 2 ^ 32
  | _ => True

/-! ## One step -/

variable {c : Conn} {r : ByteRun}

theorem input_bytes (env : Env) (cc : CcAlgo) (pkt : InPkt) (hl : c.Live) :
    (c.step (.input env cc pkt)).pcb.dctcp.bytesAcked =
        (if endsWindow c.pcb pkt.hdr then 0 else (c.pcb.counted pkt.hdr).1) ∧
      (c.step (.input env cc pkt)).pcb.dctcp.bytesMarked =
        if endsWindow c.pcb pkt.hdr then 0 else (c.pcb.counted pkt.hdr).2 := by
  have hrecv : (c.pcb.marksIn pkt).dctcp = _ := dctcpRecv_eq c.pcb (pkt.tos &&& 3) pkt.hdr
  obtain ⟨e, he⟩ := tcpInput_bare env cc pkt hl.2
  rw [hrecv] at he
  rw [Conn.step_eq _ hl.1]
  exact ⟨congrArg DctcpParam.bytesAcked he, congrArg DctcpParam.bytesMarked he⟩

theorem input_advance (env : Env) (cc : CcAlgo) (pkt : InPkt) (hl : c.Live) :
    c.advance (.input env cc pkt) =
      if takesAck env pkt c.pcb ∧ AcksNew pkt.hdr.ackno c.pcb.lastack c.pcb.sndNxt then
        (pkt.hdr.ackno - c.pcb.lastack).toNat
      else 0 := by
  rw [Conn.advance, Conn.step_eq _ hl.1]
  show ((tcpInput env cc pkt c).conn.pcb.lastack - c.pcb.lastack).toNat = _
  rw [tcpInput_lastack env cc pkt hl.2]
  split
  · rfl
  · rw [BitVec.sub_self]
    rfl

theorem BytesRight.count_iff (h : BytesRight r) {n : U32} {ece : Bool} {k : Nat}
    (hacked : c.pcb.dctcp.bytesAcked = r.conn.pcb.dctcp.bytesAcked + n)
    (hmarked : c.pcb.dctcp.bytesMarked =
      if ece then r.conn.pcb.dctcp.bytesMarked + n else r.conn.pcb.dctcp.bytesMarked) :
    BytesRight { conn := c, acked := r.acked + k, marked := r.marked + if ece then k else 0 } ↔
      k = n.toNat ∧ r.conn.pcb.dctcp.bytesAcked.toNat + k < 2 ^ 32 := by
  have ha := h.acked
  have hm := h.marked
  have hle := BitVec.le_def.mp h.le
  have hb := r.conn.pcb.dctcp.bytesAcked.isLt
  have hn := n.isLt
  have hsum : c.pcb.dctcp.bytesAcked.toNat = (r.acked + n.toNat) % 2 ^ 32 := by
    rw [hacked, BitVec.toNat_add, ha]
  have hsum' : c.pcb.dctcp.bytesMarked.toNat =
      if ece then (r.marked + n.toNat) % 2 ^ 32 else r.marked := by
    rw [hmarked, ← hm]
    split
    · exact BitVec.toNat_add ..
    · rfl
  constructor
  · intro hr
    have := hr.acked
    simp only at this
    omega
  · rintro ⟨rfl, hroom⟩
    have hacked' : c.pcb.dctcp.bytesAcked.toNat = r.acked + n.toNat := by omega
    have hmarked' : c.pcb.dctcp.bytesMarked.toNat = r.marked + if ece then n.toNat else 0 := by
      rw [hsum']
      split <;> omega
    refine ⟨hacked', hmarked', BitVec.le_def.mpr ?_⟩
    rw [hacked', hmarked']
    split <;> omega

theorem BytesRight.input_iff (h : BytesRight r) (hl : r.conn.Live) (env : Env)
    (cc : CcAlgo) (pkt : InPkt) :
    BytesRight (r.step (.input env cc pkt)) ↔ CountsRight r.conn (.input env cc pkt) := by
  obtain ⟨hacked, hmarked⟩ := input_bytes env cc pkt hl
  have hadv := input_advance env cc pkt hl
  by_cases hend : endsWindow r.conn.pcb pkt.hdr
  · have hrun : r.step (.input env cc pkt) = { conn := r.conn.step (.input env cc pkt) } := if_pos hend
    rw [if_pos hend] at hacked hmarked
    refine ⟨fun _ _ => .inl hend, fun _ => ?_⟩
    rw [hrun]
    exact ⟨by rw [hacked]; rfl, by rw [hmarked]; rfl, by rw [hacked, hmarked]; exact BitVec.le_refl _⟩
  · have hrun : r.step (.input env cc pkt) =
        { conn := r.conn.step (.input env cc pkt)
          acked := r.acked + r.conn.advance (.input env cc pkt)
          marked := r.marked + if pkt.hdr.flags.ece then r.conn.advance (.input env cc pkt) else 0 } :=
      if_neg hend
    rw [if_neg hend] at hacked hmarked
    rw [hrun]
    by_cases hacks : pkt.hdr.acks = true
    · have hc : r.conn.pcb.counted pkt.hdr = _ := if_pos hacks
      rw [hc] at hacked hmarked
      rw [h.count_iff hacked hmarked, hadv]
      constructor
      · rintro ⟨hmove, hroom⟩ -
        split at hmove
        · rename_i hnew
          rw [if_pos hnew] at hroom
          exact .inr (.inr ⟨hnew.1, hnew.2, hroom⟩)
        · exact .inr (.inl (sub_eq_zero.mp (BitVec.eq_of_toNat_eq hmove.symm)))
      · intro hok
        rcases hok hacks with hend' | heq | ⟨ht, hnew, hroom⟩
        · exact absurd hend' hend
        · simp only [heq, BitVec.sub_self, BitVec.toNat_zero, ite_self]
          exact ⟨trivial, r.conn.pcb.dctcp.bytesAcked.isLt⟩
        · rw [if_pos ⟨ht, hnew⟩]
          exact ⟨rfl, hroom⟩
    · have hc : r.conn.pcb.counted pkt.hdr =
          (r.conn.pcb.dctcp.bytesAcked, r.conn.pcb.dctcp.bytesMarked) := if_neg hacks
      rw [if_neg fun ht => hacks ht.1.2.1] at hadv
      rw [hc] at hacked hmarked
      refine ⟨fun _ ha => absurd ha hacks, fun _ => ?_⟩
      exact ⟨by rw [hacked, hadv]; exact h.acked, by rw [hmarked, hadv, ite_self]; exact h.marked,
        by rw [hacked, hmarked]; exact h.le⟩

theorem BytesRight.call (h : BytesRight r) {a : Act} (ha : a.isCall = true) :
    BytesRight (r.step a) := by
  have hrun : r.step a = { r with conn := r.conn.step a } := by
    cases a <;> first | rfl | cases ha
  rw [hrun]
  cases hf : r.conn.fault with
  | true =>
    rw [Conn.step_fault a hf]
    exact h
  | false =>
    obtain ⟨hb, -⟩ := act_call_bare hf ha
    have hacked := congrArg DctcpParam.bytesAcked hb
    have hmarked := congrArg DctcpParam.bytesMarked hb
    simp only [DctcpParam.bare] at hacked hmarked
    rw [Conn.step_eq a hf]
    refine ⟨?_, ?_, ?_⟩
    · rw [hacked]
      exact h.acked
    · rw [hmarked]
      exact h.marked
    · rw [hacked, hmarked]
      exact h.le

/-! ## Runs -/

theorem BytesRight.step_iff (h : BytesRight r) (hl : r.conn.Live) (a : Act) :
    BytesRight (r.step a) ↔ CountsRight r.conn a := by
  cases a with
  | input env cc pkt => exact h.input_iff hl env cc pkt
  | _ => exact iff_of_true (h.call rfl) trivial

/-- **The counters are what they stand for in every run whose segments all meet the condition, and the
first segment that does not meet it puts them wrong.** -/
theorem bytesRight_iff {c₀ : Conn} (ha : c₀.pcb.dctcp.bytesAcked = 0)
    (hm : c₀.pcb.dctcp.bytesMarked = 0)
    {r : ByteRun}
    (h : Reach ByteRun.step (fun r a => r.conn.Live ∧ CountsRight r.conn a) { conn := c₀ } r) :
    BytesRight r ∧ ∀ a, r.conn.Live → (BytesRight (r.step a) ↔ CountsRight r.conn a) := by
  have hr : BytesRight r := by
    refine h.inv ⟨?_, ?_, ?_⟩ fun s a hs ha => (hs.step_iff ha.1 a).mpr ha.2
    · rw [ha]
      rfl
    · rw [hm]
      rfl
    · rw [ha, hm]
      exact BitVec.le_refl _
  exact ⟨hr, fun a hl => hr.step_iff hl a⟩

def byteStart : ByteRun where
  conn :=
    { pcb := { tcpPcbInit {} with
        state := .established, sndWnd := 1000, sndWndMax := 1000, cwnd := 1000, sndWl2 := 1,
        dctcp := dctcpInit 1 } }

def bareAck (ackno : U32) (ece : Bool) : Act :=
  .input {} lwipCcAlgo
    { hdr := ⟨0, ackno, 5, { ack := true, ece := ece }, 1000⟩, optMem := fun _ => 0, p := [], tos := 0 }

/-- Three bytes are sent; the ACK of the first ends a window, that of the second comes with ECE. -/
def byteRun : ByteRun :=
  (((byteStart.step (.write {} [1, 2, 3] false)).step (.output {})).step (bareAck 2 false)).step
    (bareAck 3 true)

theorem byteRun_reach :
    Reach ByteRun.step (fun r a => r.conn.Live ∧ CountsRight r.conn a) byteStart byteRun :=
  .next (.next (.next (.next .start _ ⟨by decide +kernel, trivial⟩) _ ⟨by decide +kernel, trivial⟩) _
    ⟨by decide +kernel, fun _ => .inl (by decide +kernel)⟩) _
    ⟨by decide +kernel, fun _ => .inr (.inr (by decide +kernel))⟩

/-- The second byte is counted in both. -/
theorem bytesRight_ece : BytesRight byteRun ∧ byteRun.acked = 1 ∧ byteRun.marked = 1 :=
  ⟨(bytesRight_iff rfl rfl byteRun_reach).1, by decide +kernel, by decide +kernel⟩

/-- The ACK of the first byte, repeated late, takes the second byte out of `BytesAcked` again, but not
out of `BytesMarked`. -/
theorem bytes_late :
    Reach ByteRun.step (fun r _ => r.conn.Live) byteStart (byteRun.step (bareAck 2 false)) ∧
      (byteRun.step (bareAck 2 false)).acked = 1 ∧
      (byteRun.step (bareAck 2 false)).conn.pcb.dctcp.bytesAcked = 0 ∧
      (byteRun.step (bareAck 2 false)).conn.pcb.dctcp.bytesMarked = 1 :=
  ⟨.next (byteRun_reach.mono fun _ _ h => h.1) _ (by decide +kernel), by decide +kernel,
    by decide +kernel, by decide +kernel⟩

end LibvmaTlt.Lwip
