import LibvmaTlt.Lwip.QueueSpec

/-!
# Forced retransmission: the target

With a token, nothing that fits the window and data outstanding, `tcp_output` retransmits from the head
block of the queue of unimportant data. It looks for the segment on `unacked` that holds the first byte
of the block by plain comparison of sequence numbers, the end of a segment included. So a segment that
reaches the end of the number space is passed over, and a segment that ends where the target starts is
taken in its place, with nothing of it left to send.
-/

namespace LibvmaTlt.Lwip

open Serial

/-! ## Segments in order -/

/-- The sequence number belongs to the segment's data. -/
def TcpSeg.Holds (s : TcpSeg) (q : U32) : Prop := (q - s.seqno).toNat < s.len

instance TcpSeg.decidableHolds (s : TcpSeg) (q : U32) : Decidable (s.Holds q) :=
  inferInstanceAs (Decidable (_ < _))

/-- The segments follow each other without overlap, at most once around the number space. -/
structure InOrder (base : U32) (l : List TcpSeg) : Prop where
  /-- `len` is a `u16_t`. -/
  short : ∀ s ∈ l, s.len < 2 ^ 16
  once : ∀ s ∈ l, (s.seqno - base).toNat + s.len ≤ 2 ^ 32
  sorted : l.Pairwise fun s t => (s.seqno - base).toNat + s.len ≤ (t.seqno - base).toNat

section Order

variable {base q : U32} {pre post : List TcpSeg} {s t : TcpSeg}

theorem TcpSeg.Holds.offset (h : s.Holds q) (honce : (s.seqno - base).toNat + s.len ≤ 2 ^ 32) :
    (q - base).toNat = (s.seqno - base).toNat + (q - s.seqno).toNat := by
  apply offset_add
  unfold TcpSeg.Holds at h
  omega

theorem InOrder.not_holds (h : InOrder base (pre ++ t :: post)) (ht : t.Holds q) (hs : s ∈ pre) :
    ¬ s.Holds q := by
  intro hq
  have h1 := hq.offset (h.once s (by simp [hs]))
  have h2 := ht.offset (h.once t (by simp))
  have hlt := (List.pairwise_append.mp h.sorted).2.2 s hs t (by simp)
  unfold TcpSeg.Holds at hq
  omega

theorem forceTest_iff (hlen : s.len < 2 ^ 16) :
    (s.seqno ≤ q ∧ q ≤ s.dataEnd) ↔
      s.seqno.toNat + s.len < 2 ^ 32 ∧ s.seqno ≤ q ∧ (q - s.seqno).toNat ≤ s.len := by
  have hs := s.seqno.isLt
  have hend : s.dataEnd.toNat = (s.seqno.toNat + s.len) % 2 ^ 32 := by
    rw [TcpSeg.dataEnd, BitVec.toNat_add, u32, BitVec.toNat_ofNat, Nat.add_mod_mod]
  constructor
  · rintro ⟨h1, h2⟩
    have hsub := BitVec.toNat_sub_of_le h1
    rw [BitVec.le_def] at h1 h2
    refine ⟨?_, BitVec.le_def.mpr h1, ?_⟩ <;> omega
  · rintro ⟨hroom, h1, h2⟩
    have hsub := BitVec.toNat_sub_of_le h1
    rw [Nat.mod_eq_of_lt hroom] at hend
    refine ⟨h1, ?_⟩
    rw [BitVec.le_def] at h1 ⊢
    omega

theorem TcpSeg.Holds.forceTest_iff (h : s.Holds q) (hlen : s.len < 2 ^ 16) :
    (s.seqno ≤ q ∧ q ≤ s.dataEnd) ↔ s.seqno.toNat + s.len < 2 ^ 32 := by
  rw [Lwip.forceTest_iff hlen]
  unfold TcpSeg.Holds at h
  refine ⟨fun hx => hx.1, fun hroom => ⟨hroom, ?_, h.le⟩⟩
  have hs := s.seqno.isLt
  have hq := q.isLt
  rw [BitVec.le_def]
  rw [BitVec.toNat_sub] at h
  omega

theorem forceTest_iff_of_not_holds (h : ¬ s.Holds q) (hlen : s.len < 2 ^ 16) :
    (s.seqno ≤ q ∧ q ≤ s.dataEnd) ↔ s.seqno ≤ q ∧ s.dataEnd = q := by
  constructor
  · rintro ⟨h1, h2⟩
    obtain ⟨-, -, hle⟩ := (Lwip.forceTest_iff hlen).mp ⟨h1, h2⟩
    refine ⟨h1, ?_⟩
    have hk : (q - s.seqno).toNat = s.len := Nat.le_antisymm hle (Nat.not_lt.mp h)
    rw [TcpSeg.dataEnd, ← hk, u32, BitVec.ofNat_toNat, BitVec.setWidth_eq, BitVec.add_comm,
      BitVec.sub_add_cancel]
  · rintro ⟨h1, rfl⟩
    exact ⟨h1, BitVec.le_refl _⟩

end Order

/-! ## The search -/

/-- The search takes the segment `t` that holds `q`, with the segments `pre` in front of it: `t` ends
inside the number space, and no segment in front ends at `q`. -/
def FindsTarget (q : U32) (pre : List TcpSeg) (t : TcpSeg) : Prop :=
  t.seqno.toNat + t.len < 2 ^ 32 ∧ ∀ s ∈ pre, ¬ (s.seqno ≤ q ∧ s.dataEnd = q)

instance (q : U32) (pre : List TcpSeg) (t : TcpSeg) : Decidable (FindsTarget q pre t) :=
  inferInstanceAs (Decidable (_ ∧ _))

theorem forceTarget_iff {pcb : Pcb} {base q : U32} {pre post : List TcpSeg} {t : TcpSeg}
    (hu : pcb.unacked = pre ++ t :: post) (h : InOrder base pcb.unacked) (ht : t.Holds q) :
    forceTarget pcb q = some t ↔ FindsTarget q pre t := by
  rw [hu] at h
  have htest : (t.seqno ≤ q && q ≤ t.dataEnd) = true ↔ t.seqno.toNat + t.len < 2 ^ 32 := by
    rw [Bool.and_eq_true, decide_eq_true_eq, decide_eq_true_eq]
    exact ht.forceTest_iff (h.short t (by simp))
  have hpre : ∀ s ∈ pre, (s.seqno ≤ q && q ≤ s.dataEnd) = true ↔ s.seqno ≤ q ∧ s.dataEnd = q := by
    intro s hs
    rw [Bool.and_eq_true, decide_eq_true_eq, decide_eq_true_eq]
    exact forceTest_iff_of_not_holds (h.not_holds ht hs) (h.short s (by simp [hs]))
  unfold forceTarget FindsTarget
  rw [hu, List.find?_append]
  constructor
  · intro hf
    cases hp : pre.find? (fun s => s.seqno ≤ q && q ≤ s.dataEnd) with
    | some s =>
      -- the search stops in front of `t`, at a segment that is not `t`
      rw [hp, Option.some_or] at hf
      cases hf
      exact absurd ht (h.not_holds ht (List.mem_of_find?_eq_some hp))
    | none =>
      rw [hp, Option.none_or] at hf
      have hpass := List.find?_some hf
      refine ⟨htest.mp hpass, fun s hs hq => ?_⟩
      exact List.find?_eq_none.mp hp s hs ((hpre s hs).mpr hq)
  · rintro ⟨hroom, hno⟩
    have hp : pre.find? (fun s => s.seqno ≤ q && q ≤ s.dataEnd) = none := by
      rw [List.find?_eq_none]
      exact fun s hs hq => hno s hs ((hpre s hs).mp hq)
    rw [hp, Option.none_or]
    simp only [List.find?_cons, htest.mpr hroom]

/-! ## What is sent -/

/-- The forced block is entered and gets its buffers. -/
structure Forced (env : Env) (pcb : Pcb) : Prop where
  noAck : pcb.flags.ackNow = false
  wanted : forceWanted pcb = true
  pbuf : env.pbufOk 0 = true
  seg : env.segOk 0 = true

/-- The first packet of a segment that `tcp_output` sends. -/
def firstSent (env : Env) (c : Conn) : Option Sent :=
  ((tcpOutput env c).sent.drop c.sent.length).find? (·.seg.isSome)

/-- The bytes of the head block are retransmitted from the segment `t`: at least one, one if nothing
was lost, and otherwise at most a full segment of what `t` has left. -/
structure Retransmits (env : Env) (c : Conn) (q : U32) (t : TcpSeg) : Prop where
  target : forceTarget c.pcb q = some t
  sends : ∃ x s, firstSent env c = some x ∧ x.seg = some s ∧ s.seqno = q ∧ 1 ≤ s.len ∧
    (tltIsLost c.pcb.tlt false = false → s.len ≤ 1) ∧
    (tltIsLost c.pcb.tlt false = true → s.len ≤ min 1460 (t.dataEnd - q).toNat)

section Sends

variable {env : Env} {c : Conn} {q : U32} {t : TcpSeg}

theorem forceCopy_len (env : Env) (pcb : Pcb) (q : U32) (t : TcpSeg) :
    (forceCopy env pcb q t).len = forceTargetLen pcb q t := by
  have hle : forceTargetLen pcb q t ≤ 1460 := by
    refine (Nat.min_le_left _ _).trans ?_
    unfold forceLen
    split <;> omega
  show u16 (forceTargetLen pcb q t + lwipTcpOptLength pcb pcb.dataOpts + 65536 -
    lwipTcpOptLength pcb pcb.dataOpts) = _
  rw [u16]
  omega

def TcpSeg.remarked (seg : TcpSeg) (fl : TcphFlags) (tos : U8) : TcpSeg :=
  { seg with flags := fl, tos := tos }

theorem sendHead_sent (env : Env) (force : Bool) (n : Nat) (c : Conn) (seg : TcpSeg)
    (rest : List TcpSeg) :
    ∃ acks now fl tos, (sendHead env force n c seg rest).sent = c.sent ++ acks ++
        [⟨c.pcb, some (seg.remarked fl tos), segmentPacket env now (seg.remarked fl tos)⟩] ∧
      ∀ a ∈ acks, a.seg = none := by
  obtain ⟨m, fl, acks, hc, hseg, -, -, -, hacks⟩ := beforeSend_spec env force n c seg rest
  obtain ⟨fl', tos, hout, -, -⟩ := markSegment_seg (c.pcb.sending m rest) { seg with flags := fl }
  refine ⟨acks, c.pcb.sending m rest, fl', tos, ?_, hacks⟩
  simp only [sendHead, hc, hseg, tcpOutputSegment, hout]
  split <;> rfl

theorem outputLoop_force {wnd : U32} {f n : Nat} {seg : TcpSeg} {rest : List TcpSeg}
    (hu : c.pcb.unsent = seg :: rest) :
    ∃ acks now fl tos l, (outputLoop env true wnd (f + 1) n c).sent = c.sent ++ (acks ++
        ⟨c.pcb, some (seg.remarked fl tos), segmentPacket env now (seg.remarked fl tos)⟩ :: l) ∧
      ∀ a ∈ acks, a.seg = none := by
  obtain ⟨acks, now, fl, tos, hsent, hacks⟩ := sendHead_sent env true n c seg rest
  simp only [outputLoop, splitHead_force, hu, Bool.or_true, Bool.not_true, Bool.false_and,
    Bool.false_eq_true, if_true, if_false]
  by_cases hfault : (sendHead env true n c seg rest).fault = true
  · rw [if_pos hfault, hsent, List.append_assoc]
    exact ⟨acks, now, fl, tos, [], rfl, hacks⟩
  rw [if_neg hfault]
  obtain ⟨l, hl⟩ := @outputLoop_sent true env wnd (n + 1) (sendHead env true n c seg rest) f
    (by simpa using hfault)
  rw [hl, hsent, List.append_assoc, List.append_assoc]
  exact ⟨acks, now, fl, tos, l, rfl, hacks⟩

theorem Forced.firstSent (h : Forced env c.pcb) (hq : forceSeq c.pcb = some q)
    (ht : forceTarget c.pcb q = some t) :
    ∃ x now fl tos, firstSent env c = some x ∧
      x.seg = some ((forceCopy env c.pcb q t).remarked fl tos) ∧
      x.pkt = segmentPacket env now ((forceCopy env c.pcb q t).remarked fl tos) := by
  have hforce : forceTransmit env c.pcb = ((c.pcb.forcePop (forceTargetLen c.pcb q t)).pushUnsent
      (forceCopy env c.pcb q t), true) := by
    unfold forceTransmit
    rw [h.wanted, hq]
    simp only [ht, h.pbuf, h.seg, Bool.not_true, Bool.false_eq_true, or_self, if_false]
  have hout : (tcpOutput env c).sent = (outputLoop env true c.pcb.wnd
      (outputFuel (forceTransmit env c.pcb).1.unsent) 0
      { c with pcb := (forceTransmit env c.pcb).1 }).sent := by
    unfold tcpOutput
    rw [h.noAck, Bool.false_and, if_neg Bool.false_ne_true, hforce]
  rw [hforce] at hout
  obtain ⟨acks, now, fl, tos, l, hsent, hacks⟩ := @outputLoop_force env
    { c with pcb := (c.pcb.forcePop (forceTargetLen c.pcb q t)).pushUnsent (forceCopy env c.pcb q t) }
    c.pcb.wnd _ 0 (forceCopy env c.pcb q t) c.pcb.unsent rfl
  have hnone : acks.find? (·.seg.isSome) = none := by
    rw [List.find?_eq_none]
    intro a ha
    simp [hacks a ha]
  unfold Lwip.firstSent
  rw [hout, outputFuel, hsent, List.drop_left, List.find?_append, hnone, Option.none_or]
  exact ⟨_, now, fl, tos, rfl, rfl, rfl⟩

theorem TcpSeg.Holds.left (h : t.Holds q) (hlen : t.len < 2 ^ 16) :
    (t.dataEnd - q).toNat = t.len - (q - t.seqno).toNat := by
  have hself : (t.dataEnd - t.seqno).toNat = t.len := by
    rw [TcpSeg.dataEnd, BitVec.add_comm, BitVec.add_sub_cancel, u32, BitVec.toNat_ofNat,
      Nat.mod_eq_of_lt (by omega)]
  have hle : (q - t.seqno).toNat ≤ (t.dataEnd - t.seqno).toNat := by
    rw [hself]
    exact h.le
  rw [toNat_sub_offset hle, hself]

theorem forceSeq_eq {pcb : Pcb} (h : (pcb.tlt.uimp.slot 0).len ≠ 0) :
    forceSeq pcb = some ((pcb.tlt.uimp.slot 0).seq + pcb.iss) := by
  have hpos : u32 (forceLen pcb) ≠ 0 := by
    unfold forceLen
    split <;> decide
  unfold forceSeq tltUimpqPeek
  simp only [if_pos h]
  rw [if_pos]
  split
  · exact hpos
  · exact h

end Sends

/-- **The forced path retransmits from the segment that holds the first byte of the head block, one byte
or more, just if that segment ends inside the number space and none in front of it ends at that
byte.** -/
theorem retransmits_iff {env : Env} {c : Conn} {base : U32} {pre post : List TcpSeg} {t : TcpSeg}
    (hforced : Forced env c.pcb) (hhead : (c.pcb.tlt.uimp.slot 0).len ≠ 0)
    (hu : c.pcb.unacked = pre ++ t :: post) (hsorted : InOrder base c.pcb.unacked)
    (ht : t.Holds ((c.pcb.tlt.uimp.slot 0).seq + c.pcb.iss)) :
    Retransmits env c ((c.pcb.tlt.uimp.slot 0).seq + c.pcb.iss) t ↔
      FindsTarget ((c.pcb.tlt.uimp.slot 0).seq + c.pcb.iss) pre t := by
  rw [← forceTarget_iff hu hsorted ht]
  refine ⟨Retransmits.target, fun htarget => ⟨htarget, ?_⟩⟩
  obtain ⟨x, now, fl, tos, hx, hseg, -⟩ := hforced.firstSent (forceSeq_eq hhead) htarget
  have hleft := ht.left (hsorted.short t (by simp [hu]))
  have hlen := forceCopy_len env c.pcb ((c.pcb.tlt.uimp.slot 0).seq + c.pcb.iss) t
  unfold TcpSeg.Holds at ht
  refine ⟨x, _, hx, hseg, rfl, ?_, fun hlost => ?_, fun hlost => ?_⟩
  all_goals rw [TcpSeg.remarked, hlen, forceTargetLen, forceLen]
  · split <;> omega
  · rw [hlost]
    exact Nat.min_le_left _ _
  · rw [hlost]
    exact le_rfl

/-- A connection with a token and these segments outstanding, each given by its start and its length,
that has recorded four bytes from `q` on as unimportant. -/
def tokenHeld (q : U32) (l : List (U32 × Nat)) : Conn where
  pcb := { tcpPcbInit {} with
    state := .established
    iss := 1
    unacked := l.map fun s => { addr := 0, seqno := s.1, len := s.2, p := [⟨[], 0⟩] }
    tlt := { tltInit with
      sendState := .pending
      uimp := .set ⟨fun _ => .zero, 1⟩ 0 ⟨q - 1, 4, 0, none⟩ } }

/-- The second of two segments, with a gap in front of it. -/
theorem retransmits_gap :
    Retransmits {} (tokenHeld 21 [(1, 10), (21, 5)]) 21
      { addr := 0, seqno := 21, len := 5, p := [⟨[], 0⟩] } := by
  refine (@retransmits_iff {} (tokenHeld 21 [(1, 10), (21, 5)]) 1
    [{ addr := 0, seqno := 1, len := 10, p := [⟨[], 0⟩] }] []
    { addr := 0, seqno := 21, len := 5, p := [⟨[], 0⟩] } ⟨rfl, by decide, rfl, rfl⟩ (by decide) rfl
    ⟨by decide, by decide, by decide⟩ (by decide)).mpr ?_
  decide

/-- Without the gap the first segment is taken for the target, and nothing of it is left to send. And a
segment that runs over the end of the number space is not found. -/
theorem retransmits_fails :
    (Forced {} (tokenHeld 11 [(1, 10), (11, 5)]).pcb ∧
      InOrder 1 (tokenHeld 11 [(1, 10), (11, 5)]).pcb.unacked ∧
      ¬ Retransmits {} (tokenHeld 11 [(1, 10), (11, 5)]) 11
        { addr := 0, seqno := 11, len := 5, p := [⟨[], 0⟩] }) ∧
    (Forced {} (tokenHeld 0xFFFFFFFB [(0xFFFFFFFA, 10)]).pcb ∧
      InOrder 0xFFFFFFFA (tokenHeld 0xFFFFFFFB [(0xFFFFFFFA, 10)]).pcb.unacked ∧
      ¬ Retransmits {} (tokenHeld 0xFFFFFFFB [(0xFFFFFFFA, 10)]) 0xFFFFFFFB
        { addr := 0, seqno := 0xFFFFFFFA, len := 10, p := [⟨[], 0⟩] }) := by
  refine ⟨⟨⟨rfl, by decide, rfl, rfl⟩, ⟨by decide, by decide, by decide⟩, fun h => ?_⟩,
    ⟨⟨rfl, by decide, rfl, rfl⟩, ⟨by decide, by decide, by decide⟩, fun h => ?_⟩⟩
  · exact absurd h.target (by decide)
  · exact absurd h.target (by decide)

end LibvmaTlt.Lwip
