import LibvmaTlt.Lwip.RecvSpec

/-!
# What the SACK blocks report

`rcv_sack_block` is a copy of the out-of-sequence queue that is rebuilt when a segment is queued and
trimmed when `rcv_nxt` moves. `sack_honest`: as long as the queue is not dropped while blocks are
reported, every number in a reported block is held or was taken, whenever a packet is sent.
`purged_reported` is the run in which the slow timer drops the queue and leaves the blocks.
-/

namespace LibvmaTlt.Lwip

open Reassembly (Piece Ordered Covers)

def InBlock (b : TcpSackBlock) (q : U32) : Prop := (q - b.blockLe).toNat < (b.blockRe - b.blockLe).toNat

instance (b : TcpSackBlock) (q : U32) : Decidable (InBlock b q) := inferInstanceAs (Decidable (_ < _))

/-- The byte is in a segment of `ooseq`, or it was taken in order. -/
def HeldOrTaken (pcb : Pcb) (q : U32) : Prop :=
  (∃ s ∈ pcb.ooseq, (q - s.seqno).toNat < (pbufBytes s.p).length) ∨ TcpSeqLt q pcb.rcvNxt

instance (pcb : Pcb) (q : U32) : Decidable (HeldOrTaken pcb q) := inferInstanceAs (Decidable (_ ∨ _))

/-- The blocks of the SACK option built from this pcb hold only bytes the receiver has. -/
def Honest (pcb : Pcb) : Prop :=
  ∀ b ∈ sackReported pcb, ∀ q, InBlock b q → HeldOrTaken pcb q

/-! ## Blocks at positions -/

/-- The block lies ahead of `off`, and the pieces hold all of it. -/
structure BlockAt (base : U32) (off : Nat) (l : List (Piece U8)) (b : TcpSackBlock) (le re : Nat) :
    Prop where
  blockLe : b.blockLe = seqAt base le
  blockRe : b.blockRe = seqAt base re
  ahead : off ≤ le
  ordered : le ≤ re
  near : re < off + 2 ^ 31
  held : ∀ x, le ≤ x → x < re → Covers l x

/-- The receiver at position `off` with the pieces `l` reports blocks of what it holds. -/
structure ReportsAt (base : U32) (off : Nat) (l : List (Piece U8)) (pcb : Pcb) : Prop where
  rcv : RcvAt base off l pcb
  blocks : ∀ b ∈ pcb.rcvSackBlock, ∃ le re, BlockAt base off l b le re
  none : pcb.sackPermitted = false → pcb.rcvSackBlock = []

variable (env : Env) {p : Piece U8} {b : TcpSackBlock}

section Blocks

variable {base : U32} {off : Nat} {l : List (Piece U8)} {pcb : Pcb}

theorem held_of_covers {segs : List TcpSeg} {x : Nat} (hl : List.Forall₂ (SegAt base) l segs)
    (hc : Covers l x) : ∃ s ∈ segs, (seqAt base x - s.seqno).toNat < (pbufBytes s.p).length := by
  obtain ⟨q, hq, h1, h2⟩ := hc
  induction hl with
  | nil => cases hq
  | @cons p s rest rsegs hs hrest ih =>
    rcases List.mem_cons.mp hq with rfl | hq
    · refine ⟨s, List.mem_cons_self, ?_⟩
      have hsmall := hs.small
      unfold Piece.stop at h2
      rw [hs.seqno, hs.bytes, seqAt_sub_toNat h1 (by omega)]
      omega
    · obtain ⟨t, ht, hlt⟩ := ih hq
      exact ⟨t, List.mem_cons_of_mem _ ht, hlt⟩

theorem ReportsAt.honest {p' : Pcb} (h : ReportsAt base off l pcb) (hc : p'.rcvCore = pcb.rcvCore) :
    Honest p' := by
  have hoos : p'.ooseq = pcb.ooseq := congrArg RcvCore.ooseq hc
  have hblk : p'.rcvSackBlock = pcb.rcvSackBlock := congrArg RcvCore.rcvSackBlock hc
  intro b hb q hq
  have hmem : b ∈ pcb.rcvSackBlock := by
    rw [← hblk]
    exact List.mem_of_mem_take hb
  obtain ⟨le, re, hat⟩ := h.blocks b hmem
  have h1 := hat.ordered
  have h2 := hat.near
  have h3 := hat.ahead
  -- the number is `k` behind the start of the block
  have hq' : q = seqAt base (le + (q - b.blockLe).toNat) := by
    rw [← seqAt_add, ← hat.blockLe, add_u32_sub]
  have hk : (q - b.blockLe).toNat < re - le := by
    unfold InBlock at hq
    rwa [hat.blockRe, hat.blockLe, seqAt_sub_toNat h1 (by omega), ← hat.blockLe] at hq
  left
  rw [hoos]
  generalize (q - b.blockLe).toNat = k at hq' hk
  rw [hq']
  exact held_of_covers h.rcv.ooseq (hat.held (le + k) (by omega) (by omega))

theorem ReportsAt.of_core {p' : Pcb} (h : ReportsAt base off l pcb) (hc : p'.rcvCore = pcb.rcvCore) :
    ReportsAt base off l p' := by
  have hblk : p'.rcvSackBlock = pcb.rcvSackBlock := congrArg RcvCore.rcvSackBlock hc
  have hperm : p'.sackPermitted = pcb.sackPermitted := congrArg RcvCore.sackPermitted hc
  exact ⟨h.rcv.of_core hc, by rw [hblk]; exact h.blocks, by rw [hblk, hperm]; exact h.none⟩

theorem mem_sackRebuild {segs : List TcpSeg} (h : b ∈ sackRebuild segs) :
    ∃ s ∈ segs, b = ⟨s.seqno, s.dataEnd⟩ := by
  induction segs with
  | nil => cases h
  | cons s rest ih =>
    cases rest with
    | nil =>
      rw [sackRebuild, List.mem_singleton] at h
      exact ⟨s, List.mem_cons_self, h⟩
    | cons t rest =>
      have hrest (h : b ∈ sackRebuild (t :: rest)) : ∃ s' ∈ s :: t :: rest, b = ⟨s'.seqno, s'.dataEnd⟩ := by
        obtain ⟨u, hu, hb⟩ := ih h
        exact ⟨u, List.mem_cons_of_mem _ hu, hb⟩
      rw [sackRebuild] at h
      split at h
      · rcases List.mem_cons.mp h with h | h
        · exact ⟨s, List.mem_cons_self, h⟩
        · exact hrest h
      · exact hrest h

theorem RcvAt.rebuild (h : RcvAt base off l pcb) :
    ReportsAt base off l (pcb.setSackBlocks (newSackBlocks pcb)) := by
  refine ⟨h.setSackBlocks, fun b hb => ?_, fun hp => if_neg fun h => Bool.false_ne_true (hp.symm.trans h)⟩
  change b ∈ newSackBlocks pcb at hb
  unfold newSackBlocks at hb
  split at hb
  · obtain ⟨s, hs, rfl⟩ := mem_sackRebuild hb
    obtain ⟨q, hq, hqs⟩ := forall₂_mem h.ooseq hs
    have hn := h.near q hq
    refine ⟨q.pos, q.stop, hqs.seqno, hqs.dataEnd, hn.1, Nat.le_add_right _ _, ?_, ?_⟩
    · have := hn.2
      omega
    · exact fun x h1 h2 => ⟨q, hq, h1, h2⟩
  · cases hb

end Blocks

/-! ## Text -/

section Text

variable {base : U32} {off : Nat} {l : List (Piece U8)} {pcb : Pcb}

theorem sackTrim_at {l' : List (Piece U8)} {off' le re : Nat} {b' : TcpSackBlock}
    (h : BlockAt base off l b le re) (hoff : off ≤ off') (hoff' : off' < off + 2 ^ 31)
    (hl : ∀ x, off' ≤ x → Covers l x → Covers l' x) (hb : sackTrim (seqAt base off') b = some b') :
    ∃ le' re', BlockAt base off' l' b' le' re' := by
  obtain ⟨hle, hre, h1, h2, h3, h4⟩ := h
  have hdone : TcpSeqLeq b.blockRe (seqAt base off') ↔ re ≤ off' := by
    rw [hre]
    exact seqAt_le (by omega) (by omega)
  have hstart : TcpSeqLeq b.blockLe (seqAt base off') ↔ le ≤ off' := by
    rw [hle]
    exact seqAt_le (by omega) (by omega)
  unfold sackTrim at hb
  split at hb
  · cases hb
  split at hb
  · cases hb
  rename_i hopen
  rw [hdone] at hopen
  split at hb
  · cases hb
    refine ⟨off', re, rfl, hre, le_rfl, by omega, by omega, fun x hx1 hx2 => ?_⟩
    rename_i hcut
    have := hstart.mp hcut.1
    exact hl x hx1 (h4 x (by omega) hx2)
  · rename_i hcut
    cases hb
    have hgt : ¬le ≤ off' := by
      intro hlo
      apply hcut
      refine ⟨hstart.mpr hlo, ?_⟩
      rw [hre]
      exact (seqAt_lt (by omega) (by omega)).mpr (by omega)
    refine ⟨le, re, hle, hre, by omega, h2, by omega, fun x hx1 hx2 => ?_⟩
    exact hl x (by omega) (h4 x hx1 hx2)

theorem sackTrim_done {rcvNxt : U32} (h : TcpSeqLeq b.blockRe rcvNxt) : sackTrim rcvNxt b = none := by
  unfold sackTrim
  rw [if_pos h]
  split <;> rfl

theorem RcvAt.cleanup {off' : Nat} {l' : List (Piece U8)} (h : RcvAt base off' l' pcb)
    (hnone : pcb.sackPermitted = false → pcb.rcvSackBlock = [])
    (hb : ∀ b ∈ pcb.rcvSackBlock, ∀ b', sackTrim (seqAt base off') b = some b' →
      ∃ le re, BlockAt base off' l' b' le re) :
    ReportsAt base off' l' (tcpAckNow (Lwip.sackCleanup pcb)) := by
  refine ⟨h.sackCleanup, ?_, ?_⟩ <;> unfold Lwip.sackCleanup
  · split
    · intro b' hb'
      obtain ⟨b, hmem, htrim⟩ := List.mem_filterMap.mp hb'
      rw [h.rcvNxt] at htrim
      exact hb b hmem b' htrim
    · rename_i hperm
      intro b hmem
      change b ∈ pcb.rcvSackBlock at hmem
      rw [hnone (by simpa using hperm)] at hmem
      cases hmem
  · split
    · rename_i hperm
      intro hno
      exact nomatch hno.symm.trans hperm
    · exact hnone

theorem ReportsAt.drained {H : Prop} {q : Pcb × InData} (h : ReportsAt base off l pcb)
    (hpos : p.pos = off) (hp : Near off p)
    (hq : Drained (SegAt base) base off (Reassembly.insertAt p l) H pcb [] false q)
    (hfin : p.last = true → ∀ b ∈ pcb.rcvSackBlock, TcpSeqLeq b.blockRe (seqAt base (p.stop + 1))) :
    ∃ off' l', off ≤ off' ∧ ReportsAt base off' l' (tcpAckNow (sackCleanup q.1)) := by
  have hat := h.rcv.drained hpos hp hq
  have hnear : ∀ r ∈ Reassembly.insertAt p l, r.stop + 1 < off + 2 ^ 31 := fun r hr =>
    (hp.insertAt h.rcv.ordered h.rcv.near r hr).2
  have hlt := @Reassembly.advance_le _ off _ _ (show off < off + 2 ^ 31 by omega) hnear
  refine ⟨_, _, Reassembly.le_advance off _, hat.cleanup ?_ ?_⟩
  · rw [hq.permitted, hq.blocks]
    exact h.none
  · rw [hq.blocks]
    intro b hb b' htrim
    by_cases hlast : p.last = true
    · -- an in-order FIN drops the queue; what was reported ends before it
      exfalso
      have hins : Reassembly.insertAt p l = [p] := if_pos hlast
      have hadv : Reassembly.advance off (Reassembly.popReady off (Reassembly.insertAt p l)).1 =
          p.stop + 1 := by
        rw [hins, Reassembly.popReady, if_pos hpos]
        simp only [Reassembly.popReady, Reassembly.advance_cons, Reassembly.advance_nil, Piece.seqLen,
          Piece.stop, hlast, if_true]
        omega
      rw [hadv, sackTrim_done (hfin hlast b hb)] at htrim
      cases htrim
    · obtain ⟨le, re, hblk⟩ := h.blocks b hb
      refine sackTrim_at hblk (Reassembly.le_advance off _) hlt ?_ htrim
      intro x hx hcov
      have hpl : ∀ r ∈ l, p.pos ≤ r.pos := fun r hr => by
        have := h.rcv.ordered.le_pos r hr
        omega
      have hins := Reassembly.covers_insertAt h.rcv.ordered (by simpa using hlast) hpl (.inr hcov)
      rcases @Reassembly.covers_popReady _ off _ _ hins with hlow | hleft
      · omega
      · exact hleft

end Text

/-! ## Runs -/

/-- The connection takes segments, and the application has not shut down reading. -/
def Open (pcb : Pcb) : Prop :=
  pcb.state = .established ∧ pcb.flags.rxclosed = false ∨ pcb.state = .closeWait

instance (pcb : Pcb) : Decidable (Open pcb) := inferInstanceAs (Decidable (_ ∨ _))

/-- Any segments arrive, the slow timer runs and the application calls what it likes, but it does not
close. -/
def Receives (c : Conn) (a : Act) : Prop :=
  Open c.pcb ∧
    match a with
    | .input _ _ pkt => pkt.Whole
    | .close _ | .shutdown _ _ _ => False
    | _ => True

def FinOk (pcb : Pcb) (d : InData) : Prop :=
  needsTrim pcb.rcvNxt d ∨ pcb.rcvNxt = d.seqno → d.inseg.flags.fin = true →
    ∀ b ∈ pcb.rcvSackBlock, TcpSeqLeq b.blockRe (d.seqno + u32 d.tcplen)

/-- The same, but nothing that is reported is dropped: no FIN in sequence, and no timer, throws away a
queue that is reported. Segments lie within half the number space of `rcv_nxt`. -/
def Keeping (c : Conn) (a : Act) : Prop :=
  Receives c a ∧
    match a with
    | .input _ _ pkt =>
      (-2 ^ 31 < (pkt.hdr.seqno - c.pcb.rcvNxt).toInt ∧
        (pkt.hdr.seqno - c.pcb.rcvNxt).toInt + pbufLen pkt.p + 1 < 2 ^ 31) ∧
      TailOk c.pcb pkt.inData ∧ FinOk c.pcb pkt.inData
    | .slowChecks env _ => ooseqExpired env c.pcb = true → c.pcb.rcvSackBlock = []
    | _ => True

/-- Every packet sent was honest, and the receiver's blocks are what it holds. -/
structure Reporting (base : U32) (c : Conn) : Prop where
  sent : ∀ s ∈ c.sent, s.pkt.hdr.flags.rst = false → Honest s.pcb
  here : c.pcb.state ≠ .closed → ∃ off l, 2 ^ 31 ≤ off ∧ ReportsAt base off l c.pcb

section Run

variable {base : U32} {c c' : Conn}

theorem Reporting.of_quiet {c₁ c₂ : Conn} {off : Nat} {l : List (Piece U8)}
    (hold : ∀ s ∈ c₁.sent, s.pkt.hdr.flags.rst = false → Honest s.pcb) (hoff : 2 ^ 31 ≤ off)
    (hrep : ReportsAt base off l c₁.pcb) (hq : Quiet c₁ c₂) (hcore : c'.pcb.rcvCore = c₂.pcb.rcvCore)
    (hsent : c'.sent = c₂.sent) : Reporting base c' := by
  refine ⟨fun s hs hr => ?_, fun _ => ⟨off, l, hoff, hrep.of_core (hcore.trans hq.core)⟩⟩
  rw [hsent] at hs
  rcases hq.sent s hs with hs | hs
  · exact hold s hs hr
  · exact hrep.honest hs

theorem Reporting.quiet (h : Reporting base c) (hst : c.pcb.state ≠ .closed) (hq : Quiet c c') :
    Reporting base c' := by
  obtain ⟨off, l, hoff, hrep⟩ := h.here hst
  exact .of_quiet h.sent hoff hrep hq rfl rfl

theorem Open.state (h : Open c.pcb) : c.pcb.state = .established ∨ c.pcb.state = .closeWait :=
  h.imp And.left id

theorem Open.ne_closed (h : Open c.pcb) : c.pcb.state ≠ .closed := by
  intro hc
  rcases h.state with h | h <;> rw [hc] at h <;> cases h

theorem tcpPcbPurge_sent (c : Conn) : (tcpPcbPurge c).sent = c.sent := by
  unfold tcpPcbPurge
  split <;> rfl

theorem tcpInput_ctrl (cc : CcAlgo) (pkt : InPkt) (hopen : Open c.pcb)
    (h : pkt.hdr.flags.rst = true ∨ pkt.hdr.flags.syn = true) :
    Quiet c (tcpInput env cc pkt c).conn ∨
      (tcpInput env cc pkt c).conn.pcb.state = .closed ∧ (tcpInput env cc pkt c).conn.sent = c.sent := by
  have hsync : Synchronized ({ c with pcb := c.pcb.marksIn pkt } : Conn).pcb := by
    show TcpState.num .established ≤ c.pcb.state.num ∧ c.pcb.state.num < TcpState.num .timeWait
    rcases hopen.state with hst | hst <;> rw [hst] <;> decide
  have hact : pcbInActiveState c.pcb = true := hsync.active
  have hq0 : Quiet c { c with pcb := c.pcb.marksIn pkt } := .setPcb c _ rfl rfl
  unfold tcpInput
  rw [if_pos hact]
  rcases tcpProcess_cases env cc pkt.optMem pkt.inData hsync with
    ⟨-, -, heq⟩ | ⟨-, heq⟩ | ⟨-, -, heq⟩ | ⟨hr, hs, -⟩ | ⟨t, sack, hr, hs, -⟩
  · rw [heq]
    simp only
    split
    · exact .inl (.of_core rfl rfl rfl)
    · right
      rw [if_pos (.inl trivial)]
      exact ⟨rfl, tcpPcbPurge_sent _⟩
  · rw [heq]
    simp only
    split
    · exact .inl hq0
    · exact .inl hq0
  · rw [heq]
    simp only
    split
    · exact .inl (.of_core rfl rfl rfl)
    · exact .inl (.of_core rfl rfl rfl)
  · rcases h with h | h
    · exact nomatch hr.symm.trans h
    · exact nomatch hs.symm.trans h
  · rcases h with h | h
    · exact nomatch hr.symm.trans h
    · exact nomatch hs.symm.trans h

theorem fitWnd_frontDrop_last {off w : Nat} (h1 : p.pos ≤ off) (h2 : off < p.pos + p.seqLen)
    (h : (fitWnd w (frontDrop off p)).last = true) :
    p.last = true ∧ (fitWnd w (frontDrop off p)).stop = p.stop := by
  unfold fitWnd at h ⊢
  split
  · rename_i hw
    rw [if_pos hw] at h
    cases h
  rename_i hw
  rw [if_neg hw] at h
  refine ⟨h, ?_⟩
  have hst := stop_le_seqLen p
  unfold frontDrop Piece.stop at *
  simp only [List.length_drop]
  omega

theorem FinOk.of_core {p p' : Pcb} {d : InData} {sack : List TcpSackBlock} (h : FinOk p d)
    (hc : p'.rcvCore = p.rcvCore) : FinOk p' { d with sack := sack } := by
  have h1 : p'.rcvNxt = p.rcvNxt := congrArg RcvCore.rcvNxt hc
  have h2 : p'.rcvSackBlock = p.rcvSackBlock := congrArg RcvCore.rcvSackBlock hc
  unfold FinOk at *
  rw [h1, h2]
  exact h

theorem FinOk.end_at {pcb : Pcb} {d : InData} {off w : Nat} (h : FinOk pcb d)
    (hnxt : pcb.rcvNxt = seqAt base off) (hin : InAt base p d) (h1 : p.pos ≤ off)
    (h2 : off < p.pos + p.seqLen) (hf1 : off < p.pos + 2 ^ 31) (hf2 : p.stop + 1 < off + 2 ^ 31)
    (hlast : (fitWnd w (frontDrop off p)).last = true) :
    ∀ b ∈ pcb.rcvSackBlock,
      TcpSeqLeq b.blockRe (seqAt base ((fitWnd w (frontDrop off p)).stop + 1)) := by
  obtain ⟨hpl, hps⟩ := fitWnd_frontDrop_last h1 h2 hlast
  have hseq : d.seqno = seqAt base p.pos := hin.seqno.trans hin.span.seqno
  have hnext : needsTrim pcb.rcvNxt d ∨ pcb.rcvNxt = d.seqno := by
    rw [hnxt]
    rcases Nat.eq_or_lt_of_le h1 with heq | hlt
    · right
      rw [hseq, heq]
    · left
      exact (needsTrim_iff hin (by have := hin.tcplen; omega) hf1 hf2).mpr ⟨hlt, h2⟩
  have hend : d.seqno + u32 d.tcplen = seqAt base (p.stop + 1) := by
    have hlen : p.pos + p.seqLen = p.stop + 1 := by
      simp only [Piece.seqLen, Piece.stop, hpl, if_true]
      omega
    rw [hin.tcplen, hseq, seqAt_add, hlen]
  intro b hb
  have hle := h hnext (hin.span.fin.trans hpl) b hb
  rw [hend] at hle
  rw [hps]
  exact hle

theorem Reporting.text (h : Reporting base c) (env : Env) (cc : CcAlgo) {pkt : InPkt}
    (hok : Keeping c (.input env cc pkt)) (hrst : pkt.hdr.flags.rst = false)
    (hsyn : pkt.hdr.flags.syn = false) : Reporting base (tcpInput env cc pkt c).conn := by
  obtain ⟨⟨hopen, hwhole⟩, ⟨hd1, hd2⟩, htail, hfin⟩ := hok
  have hrx : c.pcb.state = .established → c.pcb.flags.rxclosed = false := by
    intro he
    rcases hopen with ⟨-, hx⟩ | hcw
    · exact hx
    · rw [he] at hcw
      cases hcw
  rcases tcpInput_text env cc pkt hopen.state hrx hrst hsyn with
    ⟨hq, -⟩ | ⟨c1, sack, hq, hw, hfault, hcore, hsent, -⟩
  · exact h.quiet hopen.ne_closed hq
  obtain ⟨off, l, hoff, hrep⟩ := h.here hopen.ne_closed
  have hrep1 : ReportsAt base off l c1.pcb := hrep.of_core hq.core
  have hold : ∀ s ∈ c1.sent, s.pkt.hdr.flags.rst = false → Honest s.pcb := by
    intro s hs hr
    rcases hq.sent s hs with hs | hs
    · exact h.sent s hs hr
    · exact hrep.honest hs
  obtain ⟨o, hseq, ho⟩ := @exists_seqAt off base hoff pkt.hdr.seqno
  rw [← hrep.rcv.rcvNxt] at ho
  obtain ⟨hin, hholds⟩ := hwhole.inAt hseq hsyn sack
  have hstop : (⟨o, pbufBytes pkt.p, pkt.hdr.flags.fin⟩ : Piece U8).stop = o + pbufLen pkt.p := by
    rw [Piece.stop, length_pbufBytes]
  rcases tcpReceiveData_refines env hrep1.rcv hin (show off < o + 2 ^ 31 by omega)
    (by rw [hstop]; omega) with ⟨hq2, -⟩ | ⟨h1, h2, q, heq, hdr⟩ | ⟨hpos, -, heq⟩
  · exact .of_quiet hold hoff hrep1 hq2 hcore hsent
  · rw [heq] at hcore hsent
    have hnear := (Near.frontDrop h1 (by rw [hstop]; omega)).fitWnd c1.pcb.rcvWnd.toNat
    obtain ⟨off', l', hle, hrep'⟩ := hrep1.drained (fitWnd_pos _ _) hnear hdr
      ((hfin.of_core hq.core).end_at hrep1.rcv.rcvNxt hin h1 h2 (show off < o + 2 ^ 31 by omega)
        (by rw [hstop]; omega))
    exact ⟨by rw [hsent]; exact hold, fun _ => ⟨off', l', by omega, hrep'.of_core hcore⟩⟩
  · rw [heq] at hcore hsent
    rcases receiveOos_quiet env { pkt.inData with sack := sack } c1 with hq2 | hq2
    · exact .of_quiet hold hoff hrep1 hq2 hcore hsent
    · obtain ⟨l', -, hat'⟩ := oosInsert_refines env hrep1.rcv hin hholds hpos (by rw [hstop]; omega)
        (htail.of_core hq.core hw)
      refine .of_quiet ?_ hoff hat'.rebuild hq2 hcore hsent
      exact hold

theorem slowOoseq_sent (c : Conn) : (slowOoseq env c).sent = c.sent := by
  unfold slowOoseq
  split <;> rfl

theorem slowFinish_cases (remove reset : Bool) (c : Conn) :
    Quiet c (slowFinish env remove reset c).1 ∨
      (slowFinish env remove reset c).1.pcb.state = .closed ∧
        ∀ s ∈ (slowFinish env remove reset c).1.sent, s ∈ c.sent ∨ s.pkt.hdr.flags.rst = true := by
  unfold slowFinish
  split
  · right
    refine ⟨rfl, fun s hs => ?_⟩
    simp only at hs
    split at hs
    · unfold tcpRst at hs
      split at hs
      · rcases List.mem_append.mp hs with hs | hs
        · rw [tcpPcbPurge_sent] at hs
          exact .inl hs
        · rw [List.mem_singleton.mp hs]
          exact .inr rfl
      · rw [tcpPcbPurge_sent] at hs
        exact .inl hs
    · rw [tcpPcbPurge_sent] at hs
      exact .inl hs
  · left
    split <;> exact .of_core rfl rfl rfl

theorem slowKeepalive_expired (c : Conn) :
    ooseqExpired env (slowKeepalive env c).pcb = ooseqExpired env c.pcb := by
  unfold slowKeepalive
  split
  · simp only
    unfold tcpKeepalive
    split <;> rfl
  · rfl

theorem Reporting.slowChecks (h : Reporting base c) (env : Env) (exhausted : Bool)
    (hst : c.pcb.state ≠ .closed)
    (hok : ooseqExpired env c.pcb = true → c.pcb.rcvSackBlock = []) :
    Reporting base (Lwip.slowChecks env exhausted c).1 := by
  obtain ⟨off, l, hoff, hrep⟩ := h.here hst
  have hq := slowKeepalive_quiet env c
  have hrep1 := hrep.of_core hq.core
  have h2 : Reporting base (slowOoseq env (slowKeepalive env c)) ∧
      ∃ off l, 2 ^ 31 ≤ off ∧ ReportsAt base off l (slowOoseq env (slowKeepalive env c)).pcb := by
    have h1 : Reporting base (slowKeepalive env c) := .of_quiet h.sent hoff hrep hq rfl rfl
    have hdrop : ∃ l', ReportsAt base off l' (slowOoseq env (slowKeepalive env c)).pcb := by
      unfold slowOoseq
      split
      · rename_i hexp
        rw [slowKeepalive_expired] at hexp
        have hnil : (slowKeepalive env c).pcb.rcvSackBlock = [] :=
          (congrArg RcvCore.rcvSackBlock hq.core).trans (hok hexp)
        refine ⟨[], ⟨hrep1.rcv.rcvNxt, .nil, by simp, trivial⟩, fun b hb => ?_, fun _ => hnil⟩
        change b ∈ (slowKeepalive env c).pcb.rcvSackBlock at hb
        rw [hnil] at hb
        cases hb
      · exact ⟨l, hrep1⟩
    obtain ⟨l', hrep'⟩ := hdrop
    exact ⟨⟨by rw [slowOoseq_sent]; exact h1.sent, fun _ => ⟨off, l', hoff, hrep'⟩⟩, off, l', hoff, hrep'⟩
  obtain ⟨h2, off', l', hoff', hrep'⟩ := h2
  unfold Lwip.slowChecks
  simp only
  rcases slowFinish_cases env _ _ (slowOoseq env (slowKeepalive env c)) with hq' | ⟨hclosed, hsent⟩
  · exact .of_quiet h2.sent hoff' hrep' hq' rfl rfl
  · refine ⟨fun s hs hr => ?_, fun hne => absurd hclosed hne⟩
    rcases hsent s hs with hs | hrst
    · exact h2.sent s hs hr
    · exact nomatch hr.symm.trans hrst

theorem Reporting.step {a : Act} (h : Reporting base c) (ha : Keeping c a) :
    Reporting base (c.step a) := by
  by_cases hf : c.fault = true
  · rw [Conn.step_fault a hf]
    exact h
  have hf : c.fault = false := by simpa using hf
  have hopen : Open c.pcb := ha.1.1
  rw [Conn.step_eq a hf]
  cases a with
  | input env cc pkt =>
    by_cases hctrl : pkt.hdr.flags.rst = true ∨ pkt.hdr.flags.syn = true
    · rcases tcpInput_ctrl env cc pkt hopen hctrl with hq | ⟨hclosed, hsent⟩
      · exact h.quiet hopen.ne_closed hq
      · exact ⟨fun s hs => h.sent s (by rw [← hsent]; exact hs), fun hne => absurd hclosed hne⟩
    · simp only [not_or, Bool.not_eq_true] at hctrl
      exact h.text env cc ha hctrl.1 hctrl.2
  | slowChecks env exhausted => exact h.slowChecks env exhausted hopen.ne_closed ha.2
  | close | shutdown => exact absurd ha.1.2 id
  | _ => exact h.quiet hopen.ne_closed (act_quiet hf rfl)

end Run

/-- **SACK reports are honest.** In every run in which nothing that is reported is dropped, every number in
every block reported by a packet is, when the packet is sent, held in `ooseq` or below `rcv_nxt`. -/
theorem sack_honest {c₀ c : Conn} (hoos : c₀.pcb.ooseq = []) (hblk : c₀.pcb.rcvSackBlock = [])
    (hsent : c₀.sent = []) (h : Reach Conn.step Keeping c₀ c) :
    ∀ s ∈ c.sent, s.pkt.hdr.flags.rst = false → Honest s.pcb := by
  have hinv : Reporting (c₀.pcb.rcvNxt - u32 (2 ^ 31)) c := by
    refine h.inv (I := Reporting (c₀.pcb.rcvNxt - u32 (2 ^ 31))) ?_ fun c a hc ha => hc.step ha
    refine ⟨by rw [hsent]; simp, fun _ => ⟨2 ^ 31, [], le_rfl, ⟨?_, ?_, by simp, trivial⟩, ?_, fun _ => hblk⟩⟩
    · exact (BitVec.sub_add_cancel _ _).symm
    · rw [hoos]
      exact .nil
    · rw [hblk]
      simp
  exact hinv.sent

/-! ## A queue that is dropped -/

def sackStart : Conn where
  pcb := { tcpPcbInit {} with
    state := .established
    rcvNxt := 1000
    sackPermitted := true }

def sackPkt (seqno : U32) (n : Nat) : InPkt where
  hdr := ⟨seqno, 1, 5, { ack := true }, 1000⟩
  optMem _ := 0
  p := [⟨List.replicate n 0, n⟩]
  tos := 0

theorem sackPkt_whole (seqno : U32) {n : Nat} (h : n < 65535) : (sackPkt seqno n).Whole :=
  ⟨⟨by simp [Pbuf.len], trivial⟩, by simpa [sackPkt, Pbuf.len] using h⟩

def sackArrive (seqno : U32) (n : Nat) : Act := .input {} lwipCcAlgo (sackPkt seqno n)

def sackQueued : Conn := sackStart.step (sackArrive 1010 10)

theorem sack_honest_queued :
    sackQueued.sent.map (fun s => sackReported s.pcb) = [[⟨1010, 1020⟩]] ∧
      ∀ s ∈ sackQueued.sent, s.pkt.hdr.flags.rst = false → Honest s.pcb := by
  have hreach : Reach Conn.step Keeping sackStart sackQueued := by
    refine .next .start _ ⟨⟨.inl ⟨rfl, rfl⟩, sackPkt_whole _ (by decide)⟩, ?_, ?_, ?_⟩
    · decide +kernel
    · decide +kernel
    · exact fun _ h => absurd h (by decide)
  exact ⟨by decide +kernel, sack_honest rfl rfl rfl hreach⟩

/-- Then the slow timer finds the queue too old, and an old segment arrives again. -/
def sackPurged : Conn :=
  (sackQueued.step (.slowChecks { tcpTicks := 1000 } false)).step (sackArrive 997 3)

/-- **The blocks outlive the queue.** The slow timer frees the queue and leaves `rcv_sack_block`: the next
ACK reports ten bytes the receiver has thrown away. -/
theorem purged_reported :
    Reach Conn.step Receives sackStart sackPurged ∧
      ∃ s ∈ sackPurged.sent, s.pkt = emptyAckPacket {} s.pcb ∧
        ∃ b ∈ sackReported s.pcb, InBlock b 1015 ∧ ¬HeldOrTaken s.pcb 1015 := by
  refine ⟨?_, by decide +kernel⟩
  unfold sackPurged sackQueued
  refine .next (.next (.next .start _ ?_) _ ?_) _ ?_
  · exact ⟨.inl ⟨rfl, rfl⟩, sackPkt_whole _ (by decide)⟩
  · exact ⟨by decide +kernel, trivial⟩
  · exact ⟨by decide +kernel, sackPkt_whole _ (by decide)⟩

end LibvmaTlt.Lwip
