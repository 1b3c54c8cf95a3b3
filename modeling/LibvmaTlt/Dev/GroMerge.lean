import LibvmaTlt.Dev.Gro
import LibvmaTlt.Lwip.ParseOpt

/-!
# What receive offload merges

The packets of a batch leave in their order, each in exactly one of the aggregates. An aggregate is
what its packets are together as long as they have one header shape and its length fits the IP header:
`add_packet` compares neither the data offset nor the presence of a timestamp with those of the first
packet, and adds up the length in 16 bits.
-/

namespace LibvmaTlt.Dev

open Lwip

/-! ## Aggregates -/

namespace RxPkt

/-- The 12 bytes of options that `timestamp_check` looks for. -/
def hasTimestamp (p : RxPkt) : Bool := p.hdr.hdrlen = 8 && beWord p.opts 0 = 0x0101080A

def SameShape (p q : RxPkt) : Prop :=
  p.hdr.hdrlen = q.hdr.hdrlen ∧ p.hasTimestamp = q.hasTimestamp

instance (p q : RxPkt) : Decidable (p.SameShape q) := inferInstanceAs (Decidable (_ ∧ _))

end RxPkt

def payloadLen (l : List RxPkt) : Nat := (l.map RxPkt.szPayload).sum

namespace GroDesc

def bufs (d : GroDesc) : List RxPkt := d.first :: d.more

def flushedTotLen (d : GroDesc) : Nat := if 1 < d.bufCount then d.ipTotLen else d.first.totLen

def wholeLen (d : GroDesc) : Nat :=
  4 * d.first.ihl + 4 * d.first.hdr.hdrlen + payloadLen d.bufs

/-- What is dispatched is the packets of the aggregate together. -/
structure Sound (d : GroDesc) : Prop where
  totLen_le : d.flushedTotLen ≤ 65535
  totLen_eq : d.flushedTotLen = d.wholeLen
  shape : ∀ p ∈ d.bufs, p.SameShape d.first
  inOrder : ∀ a p b, d.bufs = a ++ p :: b → p.hdr.seqno = d.flushed.hdr.seqno + u32 (payloadLen a)
  payload : pbufBytes d.flushed.p = d.bufs.flatMap RxPkt.payload
  last : ∀ p, d.bufs.getLast? = some p →
    d.flushed.hdr.ackno = p.hdr.ackno ∧ d.flushed.hdr.wnd = p.hdr.wnd ∧
      (p.hasTimestamp = true → beWord d.flushed.optMem 8 = beWord p.opts 8)

/-- The condition on an aggregate: one shape, and a length that the IP header can hold. -/
def Matches (d : GroDesc) : Prop := (∀ p ∈ d.more, p.SameShape d.first) ∧ d.wholeLen ≤ 65535

def Fits (d : GroDesc) (p : RxPkt) : Prop := p.SameShape d.first ∧ d.ipTotLen + p.szPayload ≤ 65535

structure Built (d : GroDesc) : Prop where
  count : d.bufCount = d.more.length + 1
  ipTotLen : d.ipTotLen = u16 d.wholeLen
  inOrder : ∀ a p b, d.bufs = a ++ p :: b → p.hdr.seqno = d.first.hdr.seqno + u32 (payloadLen a)
  nextSeq : d.nextSeq = d.first.hdr.seqno + u32 (payloadLen d.bufs)
  tsPresent : d.tsPresent = decide (d.first.hdr.hdrlen = 8)
  last : ∀ p, d.bufs.getLast? = some p →
    d.ack = p.hdr.ackno ∧ d.wnd = p.hdr.wnd ∧ (d.tsPresent = true → d.tsecr = beWord p.opts 8)

end GroDesc

/-! ## Building -/

@[simp] theorem payloadLen_nil : payloadLen [] = 0 := rfl

variable (d : GroDesc) (p : RxPkt) {l : List (Bool × RxPkt)}

@[simp] theorem payloadLen_cons (l : List RxPkt) :
    payloadLen (p :: l) = p.szPayload + payloadLen l := by
  simp [payloadLen]

@[simp] theorem payloadLen_append (l l' : List RxPkt) :
    payloadLen (l ++ l') = payloadLen l + payloadLen l' := by
  simp [payloadLen]

theorem bufs_addPacket : (addPacket d p).bufs = d.bufs ++ [p] := rfl

theorem wholeLen_addPacket : (addPacket d p).wholeLen = d.wholeLen + p.szPayload := by
  simp only [GroDesc.wholeLen, bufs_addPacket, payloadLen_append, payloadLen_cons, payloadLen_nil]
  simp only [addPacket]
  omega

theorem initGroDesc_built : (initGroDesc p).Built where
  count := rfl
  ipTotLen := by
    have hlen := p.len_lt
    have hw : (initGroDesc p).wholeLen = p.totLen := by
      simp [GroDesc.wholeLen, GroDesc.bufs, initGroDesc, RxPkt.totLen, RxPkt.szPayload]
    rw [hw]
    exact (Nat.mod_eq_of_lt hlen).symm
  inOrder := by
    intro a q b h
    obtain ⟨rfl, rfl, rfl⟩ : a = [] ∧ q = p ∧ b = [] := by
      cases a with
      | nil => simpa [GroDesc.bufs, initGroDesc, eq_comm] using h
      | cons x a => simp [GroDesc.bufs, initGroDesc] at h
    simp [initGroDesc]
  nextSeq := by simp [initGroDesc, GroDesc.bufs]
  tsPresent := rfl
  last := by
    intro q hq
    obtain rfl : p = q := by simpa [GroDesc.bufs, initGroDesc] using hq
    refine ⟨rfl, rfl, fun hts => ?_⟩
    have h8 : p.hdr.hdrlen = 8 := by simpa [initGroDesc] using hts
    simp [initGroDesc, h8]

theorem addPacket_built {d : GroDesc} {p : RxPkt} (hd : d.Built) (hc : d.continues p = true) :
    (addPacket d p).Built where
  count := by simp [addPacket, hd.count]
  ipTotLen := by
    rw [wholeLen_addPacket]
    simp only [addPacket, hd.ipTotLen, u16, Nat.mod_add_mod]
  inOrder := by
    intro a q b h
    have hseq : p.hdr.seqno = d.nextSeq := by
      simp only [GroDesc.continues, Bool.and_eq_true, decide_eq_true_eq] at hc
      exact hc.1.2
    rw [bufs_addPacket] at h
    rcases List.eq_nil_or_concat b with rfl | ⟨b', x, rfl⟩
    · obtain ⟨ha, rfl⟩ : d.bufs = a ∧ p = q := by simpa using List.append_inj' h rfl
      rw [hseq, hd.nextSeq, ha]
      rfl
    · rw [List.concat_eq_append, ← List.cons_append, ← List.append_assoc] at h
      exact hd.inOrder a q b' (List.append_inj_left' h rfl)
  nextSeq := by
    have hsum : u32 (payloadLen (addPacket d p).bufs) = u32 (payloadLen d.bufs) + u32 p.szPayload := by
      rw [bufs_addPacket, payloadLen_append, payloadLen_cons, payloadLen_nil, Nat.add_zero, u32,
        BitVec.ofNat_add]
    rw [hsum, ← BitVec.add_assoc]
    exact congrArg (· + u32 p.szPayload) hd.nextSeq
  tsPresent := hd.tsPresent
  last := by
    intro q hq
    obtain rfl : p = q := by simpa [bufs_addPacket] using hq
    exact ⟨rfl, rfl, fun hts => if_pos hts⟩

/-! ## Soundness of one aggregate -/

namespace GroDesc

variable {d : GroDesc} {p : RxPkt}

theorem Built.bufs_of_single (hd : d.Built) (h : ¬1 < d.bufCount) : d.bufs = [d.first] := by
  have hm : d.more = [] := List.eq_nil_of_length_eq_zero (by have := hd.count; omega)
  rw [bufs, hm]

theorem flushed_seqno (d : GroDesc) : d.flushed.hdr.seqno = d.first.hdr.seqno := by
  unfold flushed
  split <;> rfl

theorem pbufBytes_pbufs (l : List RxPkt) :
    pbufBytes (l.map RxPkt.pbuf) = l.flatMap RxPkt.payload := by
  induction l with
  | nil => rfl
  | cons p rest ih => rw [List.map_cons, pbufBytes_cons, ih, List.flatMap_cons]; rfl

theorem pbufTotLen_merged (d : GroDesc) :
    pbufTotLen (retotal (d.bufs.map RxPkt.pbuf)) = payloadLen d.bufs := by
  have hlen : ∀ l : List RxPkt, pbufLen (l.map RxPkt.pbuf) = payloadLen l := by
    intro l
    induction l with
    | nil => rfl
    | cons p rest ih => rw [List.map_cons, pbufLen_cons, ih, payloadLen_cons]; rfl
  rw [bufs, List.map_cons, retotal, pbufTotLen_cons, hlen, payloadLen_cons]
  rfl

theorem pbufBytes_merged (hip : d.ipTotLen = d.wholeLen) :
    pbufBytes d.merged.p = d.bufs.flatMap RxPkt.payload := by
  have hroom : d.ipTotLen - 4 * d.first.ihl - 4 * d.first.hdr.hdrlen = payloadLen d.bufs := by
    rw [hip, wholeLen]
    omega
  have hp : d.merged.p = retotal (d.bufs.map RxPkt.pbuf) := by
    show pbufRealloc _ (retotal (d.bufs.map RxPkt.pbuf)) = _
    rw [hroom, pbufRealloc, if_pos (pbufTotLen_merged d).le]
  rw [hp, pbufBytes_retotal, pbufBytes_pbufs]

theorem beWord_merged (h : d.tsPresent = true) : beWord d.merged.optMem 8 = d.tsecr := by
  refine beWord_of_holdsAt fun i hi => ?_
  rw [length_be32] at hi
  have hin : d.tsPresent = true ∧ 8 ≤ 8 + i ∧ 8 + i < 12 := ⟨h, by omega, by omega⟩
  show (if d.tsPresent = true ∧ 8 ≤ 8 + i ∧ 8 + i < 12 then (be32 d.tsecr).getD (8 + i - 8) 0
    else d.first.opts (8 + i)) = _
  rw [if_pos hin, Nat.add_sub_cancel_left, List.getD_eq_getElem?_getD,
    List.getElem?_eq_getElem (by rw [length_be32]; exact hi), Option.getD_some]

theorem Built.sound_single (hd : d.Built) (h : ¬1 < d.bufCount) : d.Sound := by
  have hb := hd.bufs_of_single h
  have hf : d.flushed = d.first.single := if_neg h
  have hw : d.wholeLen = d.first.totLen := by
    rw [wholeLen, hb, payloadLen_cons, payloadLen_nil]
    rfl
  have ht : d.flushedTotLen = d.first.totLen := if_neg h
  refine ⟨?_, ht.trans hw.symm, ?_, ?_, ?_, ?_⟩
  · rw [ht]
    exact Nat.le_of_lt_succ d.first.len_lt
  · rw [hb]
    simp [RxPkt.SameShape]
  · intro a p b hab
    rw [flushed_seqno]
    exact hd.inOrder a p b hab
  · rw [hf, hb]
    simp [RxPkt.single, RxPkt.pbuf]
  · intro p hp
    obtain rfl : d.first = p := by simpa [hb] using hp
    rw [hf]
    exact ⟨rfl, rfl, fun _ => rfl⟩

theorem Built.sound_merged (hd : d.Built) (h : 1 < d.bufCount) (hm : d.Matches) : d.Sound := by
  obtain ⟨hshape, hlen⟩ := hm
  have hf : d.flushed = d.merged := if_pos h
  have ht : d.flushedTotLen = d.ipTotLen := if_pos h
  have hip : d.ipTotLen = d.wholeLen := by
    rw [hd.ipTotLen]
    exact Nat.mod_eq_of_lt (Nat.lt_succ_of_le hlen)
  have hall : ∀ p ∈ d.bufs, p.SameShape d.first := by
    intro p hp
    rcases List.mem_cons.mp hp with rfl | hp
    · exact ⟨rfl, rfl⟩
    · exact hshape p hp
  refine ⟨?_, ht.trans hip, hall, ?_, ?_, ?_⟩
  · rw [ht, hip]
    exact hlen
  · intro a p b hab
    rw [flushed_seqno]
    exact hd.inOrder a p b hab
  · rw [hf, pbufBytes_merged hip]
  · intro p hp
    obtain ⟨hack, hwnd, hts⟩ := hd.last p hp
    rw [hf]
    refine ⟨hack, hwnd, fun hstamp => ?_⟩
    have h8 : p.hdr.hdrlen = 8 := by
      simp only [RxPkt.hasTimestamp, Bool.and_eq_true, decide_eq_true_eq] at hstamp
      exact hstamp.1
    have hpresent : d.tsPresent = true := by
      rw [hd.tsPresent, ← (hall p (List.mem_of_getLast? hp)).1, h8]
      rfl
    rw [beWord_merged hpresent, hts hpresent]

theorem Built.sound_iff (hd : d.Built) : d.Sound ↔ d.Matches := by
  constructor
  · intro hs
    exact ⟨fun p hp => hs.shape p (List.mem_cons_of_mem _ hp), hs.totLen_eq ▸ hs.totLen_le⟩
  · intro hm
    by_cases h : 1 < d.bufCount
    · exact hd.sound_merged h hm
    · exact hd.sound_single h

theorem matches_init (p : RxPkt) : (initGroDesc p).Matches :=
  (initGroDesc_built p).sound_iff.mp ((initGroDesc_built p).sound_single (Nat.lt_irrefl 1))

theorem matches_addPacket_iff (hd : d.Built) :
    (addPacket d p).Matches ↔ d.Matches ∧ d.Fits p := by
  have hmore : (∀ q ∈ (addPacket d p).more, q.SameShape d.first) ↔
      (∀ q ∈ d.more, q.SameShape d.first) ∧ p.SameShape d.first := by
    simp [addPacket, or_imp, forall_and]
  have hip : d.wholeLen ≤ 65535 → d.ipTotLen = d.wholeLen := fun h =>
    hd.ipTotLen.trans (Nat.mod_eq_of_lt (Nat.lt_succ_of_le h))
  unfold Matches Fits
  rw [wholeLen_addPacket, show (addPacket d p).first = d.first from rfl, hmore]
  constructor
  · rintro ⟨⟨hs, hp⟩, hlen⟩
    have hw := hip (by omega)
    exact ⟨⟨hs, by omega⟩, hp, by omega⟩
  · rintro ⟨⟨hs, hw⟩, hp, hlen⟩
    rw [hip hw] at hlen
    exact ⟨⟨hs, hp⟩, hlen⟩

end GroDesc

/-! ## Batches -/

def GroCfg.full (cfg : GroCfg) (d : GroDesc) : Prop :=
  cfg.bufMax ≤ d.bufCount ∨ cfg.byteMax ≤ d.ipTotLen

instance (cfg : GroCfg) (d : GroDesc) : Decidable (cfg.full d) := inferInstanceAs (Decidable (_ ∨ _))

/-- The aggregates that one call dispatches; a packet that goes by itself is an aggregate of one. -/
def dispatchedDescs (cfg : GroCfg) (g : Gro) (streamMax : Bool) (p : RxPkt) : List GroDesc :=
  match g.desc with
  | none =>
    if !g.reserved && streamMax then [initGroDesc p]
    else if !tcpIpCheck p then [initGroDesc p]
    else if cfg.full (initGroDesc p) then [initGroDesc p] else []
  | some d =>
    if d.continues p then if cfg.full (addPacket d p) then [addPacket d p] else []
    else [d, initGroDesc p]

/-- The aggregates of a batch, in the order in which the socket gets them. -/
def groDelivered (cfg : GroCfg) : Gro → List (Bool × RxPkt) → List GroDesc
  | g, [] => g.desc.toList
  | g, (m, p) :: rest =>
    dispatchedDescs cfg g m p ++ groDelivered cfg (rxDispatchPacket cfg g m p).1 rest

theorem settle_eq (cfg : GroCfg) (g : Gro) (d : GroDesc) :
    settle cfg g d = if cfg.full d then ({ g with desc := none }, [d.flushed])
      else ({ g with desc := some d }, []) := rfl

inductive GroStep (cfg : GroCfg) (g : Gro) (m : Bool) (p : RxPkt) : Prop where
  | pass (h : g.desc = none) (hn : (rxDispatchPacket cfg g m p).1.desc = none)
      (ho : dispatchedDescs cfg g m p = [initGroDesc p])
  | hold (h : g.desc = none) (hn : (rxDispatchPacket cfg g m p).1.desc = some (initGroDesc p))
      (ho : dispatchedDescs cfg g m p = [])
  | append (d : GroDesc) (h : g.desc = some d) (hc : d.continues p = true)
      (hn : (rxDispatchPacket cfg g m p).1.desc.toList ++ dispatchedDescs cfg g m p =
        [addPacket d p])
  | flush (d : GroDesc) (h : g.desc = some d) (hc : d.continues p = false)
      (hn : (rxDispatchPacket cfg g m p).1.desc = none)
      (ho : dispatchedDescs cfg g m p = [d, initGroDesc p])

theorem groStep (cfg : GroCfg) (g : Gro) (m : Bool) (p : RxPkt) : GroStep cfg g m p := by
  cases hg : g.desc with
  | none =>
    by_cases hmax : (!g.reserved && m) = true
    · refine .pass hg ?_ ?_ <;> simp [rxDispatchPacket, dispatchedDescs, hg, hmax]
    by_cases hchk : (!tcpIpCheck p) = true
    · refine .pass hg ?_ ?_ <;> simp [rxDispatchPacket, dispatchedDescs, hg, hmax, hchk]
    by_cases hfull : cfg.full (initGroDesc p)
    · refine .pass hg ?_ ?_ <;>
        simp [rxDispatchPacket, dispatchedDescs, hg, hmax, hchk, settle_eq, hfull]
    · refine .hold hg ?_ ?_ <;>
        simp [rxDispatchPacket, dispatchedDescs, hg, hmax, hchk, settle_eq, hfull]
  | some d =>
    by_cases hc : d.continues p = true
    · refine .append d hg hc ?_
      by_cases hfull : cfg.full (addPacket d p) <;>
        simp [rxDispatchPacket, dispatchedDescs, hg, hc, settle_eq, hfull]
    · refine .flush d hg (by simpa using hc) ?_ ?_ <;>
        simp [rxDispatchPacket, dispatchedDescs, hg, hc]

theorem rxDispatchPacket_dispatched (cfg : GroCfg) (g : Gro) (m : Bool) (p : RxPkt) :
    (rxDispatchPacket cfg g m p).2 = (dispatchedDescs cfg g m p).map GroDesc.flushed := by
  unfold rxDispatchPacket dispatchedDescs
  simp only [settle_eq]
  cases g.desc with
  | none =>
    simp only
    split
    · rfl
    · split
      · rfl
      · split <;> rfl
  | some d =>
    simp only
    split
    · split <;> rfl
    · rfl

theorem groBatch_eq (cfg : GroCfg) :
    ∀ {g : Gro}, groBatch cfg g l = (groDelivered cfg g l).map GroDesc.flushed := by
  induction l with
  | nil =>
    intro g
    cases hd : g.desc <;> simp [groBatch, groDelivered, hd]
  | cons x rest ih =>
    intro g
    obtain ⟨m, p⟩ := x
    rw [groBatch, groDelivered, List.map_append, rxDispatchPacket_dispatched, ih]

theorem groDelivered_bufs (cfg : GroCfg) :
    ∀ {g : Gro}, (groDelivered cfg g l).flatMap GroDesc.bufs =
      g.desc.toList.flatMap GroDesc.bufs ++ l.map Prod.snd := by
  induction l with
  | nil =>
    intro g
    simp [groDelivered]
  | cons x rest ih =>
    intro g
    obtain ⟨m, p⟩ := x
    have hinit : (initGroDesc p).bufs = [p] := rfl
    rw [groDelivered, List.flatMap_append, ih, List.map_cons]
    rcases groStep cfg g m p with ⟨h, hn, ho⟩ | ⟨h, hn, ho⟩ | ⟨d, h, hc, hn⟩ | ⟨d, h, hc, hn, ho⟩
    · simp [h, hn, ho, hinit]
    · simp [h, hn, ho, hinit]
    · rcases List.append_eq_singleton_iff.mp hn with ⟨h1, h2⟩ | ⟨h1, h2⟩
      · simp [h, h1, h2, bufs_addPacket]
      · simp [h, h1, h2, bufs_addPacket]
    · simp [h, hn, ho, hinit]

def mergesFit (cfg : GroCfg) : Gro → List (Bool × RxPkt) → Prop
  | _, [] => True
  | g, (m, p) :: rest =>
    (∀ d ∈ g.desc, d.continues p = true → d.Fits p) ∧
      mergesFit cfg (rxDispatchPacket cfg g m p).1 rest

theorem groDelivered_built (cfg : GroCfg) :
    ∀ {g : Gro}, (∀ d ∈ g.desc, d.Built) → ∀ d ∈ groDelivered cfg g l, d.Built := by
  induction l with
  | nil =>
    intro g hg
    simpa [groDelivered] using hg
  | cons x rest ih =>
    intro g hg
    obtain ⟨m, p⟩ := x
    have hb := initGroDesc_built p
    rw [groDelivered, List.forall_mem_append]
    rcases groStep cfg g m p with ⟨-, hn, ho⟩ | ⟨-, hn, ho⟩ | ⟨d, h, hc, hn⟩ | ⟨d, h, -, hn, ho⟩
    · exact ⟨by simpa [ho] using hb, ih (by simp [hn])⟩
    · exact ⟨by simp [ho], ih (by simpa [hn] using hb)⟩
    · have hbd := addPacket_built (hg d h) hc
      have hall : ∀ e ∈ (rxDispatchPacket cfg g m p).1.desc.toList ++ dispatchedDescs cfg g m p,
          e.Built := by
        rw [hn]
        simpa using hbd
      rw [List.forall_mem_append] at hall
      exact ⟨hall.2, ih (by simpa using hall.1)⟩
    · exact ⟨by simpa [ho] using ⟨hg d h, hb⟩, ih (by simp [hn])⟩

theorem groDelivered_matches_iff (cfg : GroCfg) :
    ∀ {g : Gro}, (∀ d ∈ g.desc, d.Built) →
      ((∀ d ∈ groDelivered cfg g l, d.Matches) ↔ (∀ d ∈ g.desc, d.Matches) ∧ mergesFit cfg g l) := by
  induction l with
  | nil =>
    intro g hg
    simp [groDelivered, mergesFit]
  | cons x rest ih =>
    intro g hg
    obtain ⟨m, p⟩ := x
    have hb := initGroDesc_built p
    have hm := GroDesc.matches_init p
    rw [groDelivered, mergesFit, List.forall_mem_append]
    rcases groStep cfg g m p with ⟨h, hn, ho⟩ | ⟨h, hn, ho⟩ | ⟨d, h, hc, hn⟩ | ⟨d, h, hc, hn, ho⟩
    · rw [ih (by simp [hn])]
      simp [h, hn, ho, hm]
    · rw [ih (by simpa [hn] using hb)]
      simp [h, hn, ho, hm]
    · have hd := hg d h
      have hiff := GroDesc.matches_addPacket_iff (p := p) hd
      rcases List.append_eq_singleton_iff.mp hn with ⟨h1, h2⟩ | ⟨h1, h2⟩
      · have h1' : (rxDispatchPacket cfg g m p).1.desc = none := by simpa using h1
        rw [ih (by simp [h1'])]
        simp [h, h1', h2, hiff, hc, and_assoc]
      · have h1' : (rxDispatchPacket cfg g m p).1.desc = some (addPacket d p) := by
          simpa [Option.toList_eq_singleton_iff] using h1
        rw [ih (by simpa [h1'] using addPacket_built hd hc)]
        simp [h, h1', h2, hiff, hc, and_assoc]
    · rw [ih (by simp [hn])]
      simp [h, hn, ho, hm, hc]

/-! ## The packets held back -/

/-- What the packets of a batch tell of those held back: the last one, how many there are, and their
length together with the header of the first. -/
structure HeldBack where
  last : RxPkt
  count : Nat
  len : Nat

/-- They are held on to below the limits on buffers and bytes. -/
def HeldBack.within (cfg : GroCfg) (h : HeldBack) : Option HeldBack :=
  if cfg.bufMax ≤ h.count ∨ cfg.byteMax ≤ h.len then none else some h

/-- The packet may go behind `q`: it is one for aggregation, starts where `q` ends and has the options
that `timestamp_check` asks for. -/
def RxPkt.follows (p q : RxPkt) : Bool :=
  tcpIpCheck p && p.hdr.seqno = q.hdr.seqno + u32 q.szPayload && timestampCheck p

def HeldBack.next (cfg : GroCfg) (reserved streamMax : Bool) (p : RxPkt) : Option HeldBack → Option HeldBack
  | none => if (!reserved && streamMax) || !tcpIpCheck p then none else within cfg ⟨p, 1, p.totLen⟩
  | some h => if p.follows h.last then within cfg ⟨p, h.count + 1, h.len + p.szPayload⟩ else none

/-- Every packet of the batch that follows those held back stands to them as `P` says. -/
def EachFollower (cfg : GroCfg) (P : HeldBack → RxPkt → Prop) :
    Bool → Option HeldBack → List (Bool × RxPkt) → Prop
  | _, _, [] => True
  | reserved, h, (m, p) :: rest =>
    (∀ b ∈ h, p.follows b.last = true → P b p) ∧
      EachFollower cfg P (reserved || h.isNone && !m && tcpIpCheck p) (HeldBack.next cfg reserved m p h) rest

/-- `b` is what the packets of the aggregate tell. -/
structure GroDesc.Tells (d : GroDesc) (b : HeldBack) : Prop where
  built : d.Built
  fits : d.Matches
  last : d.bufs.getLast? = some b.last
  count : b.count = d.bufCount
  len : b.len = d.wholeLen

section Held

variable {cfg : GroCfg} {d : GroDesc} {b : HeldBack} {p : RxPkt}

theorem tells_init (p : RxPkt) : (initGroDesc p).Tells ⟨p, 1, p.totLen⟩ where
  built := initGroDesc_built p
  fits := GroDesc.matches_init p
  last := rfl
  count := rfl
  len := by simp [GroDesc.wholeLen, GroDesc.bufs, initGroDesc, RxPkt.totLen, RxPkt.szPayload]

namespace GroDesc.Tells

theorem continues_eq (h : d.Tells b) : d.continues p = p.follows b.last := by
  obtain ⟨a, ha⟩ : ∃ a, d.bufs = a ++ [b.last] := List.getLast?_eq_some_iff.mp h.last
  have hnext : d.nextSeq = b.last.hdr.seqno + u32 b.last.szPayload := by
    rw [h.built.nextSeq, h.built.inOrder a b.last [] ha, ha, payloadLen_append, payloadLen_cons,
      payloadLen_nil, Nat.add_zero, u32, BitVec.ofNat_add, ← BitVec.add_assoc]
  rw [GroDesc.continues, RxPkt.follows, hnext]

theorem fits_iff (h : d.Tells b) :
    d.Fits p ↔ p.SameShape b.last ∧ b.len + p.szPayload ≤ 65535 := by
  have hlast : b.last.SameShape d.first := by
    rcases List.mem_cons.mp (List.mem_of_getLast? h.last) with hb | hb
    · rw [hb]
      exact ⟨rfl, rfl⟩
    · exact h.fits.1 _ hb
  have hip : d.ipTotLen = d.wholeLen :=
    h.built.ipTotLen.trans (Nat.mod_eq_of_lt (Nat.lt_succ_of_le h.fits.2))
  rw [GroDesc.Fits, hip, h.len, RxPkt.SameShape, RxPkt.SameShape, hlast.1, hlast.2]

theorem add (h : d.Tells b) (hc : d.continues p = true) (hf : d.Fits p) :
    (addPacket d p).Tells ⟨p, b.count + 1, b.len + p.szPayload⟩ where
  built := addPacket_built h.built hc
  fits := (matches_addPacket_iff h.built).mpr ⟨h.fits, hf⟩
  last := by simp [bufs_addPacket]
  count := congrArg (· + 1) h.count
  len := by rw [wholeLen_addPacket, h.len]

/-- An aggregate is flushed just if its packets reach one of the limits. -/
theorem within (h : d.Tells b) (g : Gro) :
    Option.Rel GroDesc.Tells (settle cfg g d).1.desc (HeldBack.within cfg b) := by
  have hip : d.ipTotLen = b.len := by
    rw [h.len]
    exact h.built.ipTotLen.trans (Nat.mod_eq_of_lt (Nat.lt_succ_of_le h.fits.2))
  rw [settle, HeldBack.within, hip, h.count]
  split
  · exact .none
  · exact .some h

end GroDesc.Tells

theorem settle_reserved (g : Gro) (d : GroDesc) : (settle cfg g d).1.reserved = g.reserved := by
  unfold settle
  split <;> rfl

theorem rxDispatchPacket_told {g : Gro} {h : Option HeldBack} (m : Bool)
    (hg : Option.Rel GroDesc.Tells g.desc h) (hfit : ∀ d ∈ g.desc, d.continues p = true → d.Fits p) :
    (rxDispatchPacket cfg g m p).1.reserved = (g.reserved || h.isNone && !m && tcpIpCheck p) ∧
      Option.Rel GroDesc.Tells (rxDispatchPacket cfg g m p).1.desc (HeldBack.next cfg g.reserved m p h) := by
  obtain ⟨desc, reserved⟩ := g
  unfold rxDispatchPacket
  cases hg with
  | none =>
    cases reserved <;> cases m <;> cases hchk : tcpIpCheck p <;>
      simp [HeldBack.next, hchk, settle_reserved, (tells_init p).within]
  | @some d b hb =>
    simp only [HeldBack.next, ← hb.continues_eq]
    split
    · rename_i hc
      exact ⟨by simp [settle_reserved], (hb.add hc (hfit d rfl hc)).within _⟩
    · exact ⟨by simp, .none⟩

theorem mergesFit_iff : ∀ {g : Gro} {h : Option HeldBack}, Option.Rel GroDesc.Tells g.desc h →
    (mergesFit cfg g l ↔
      EachFollower cfg (fun b p => p.SameShape b.last ∧ b.len + p.szPayload ≤ 65535) g.reserved h l) := by
  induction l with
  | nil => exact fun _ => Iff.rfl
  | cons x rest ih =>
    obtain ⟨m, p⟩ := x
    intro g h hg
    have hfit : (∀ d ∈ g.desc, d.continues p = true → d.Fits p) ↔
        ∀ b ∈ h, p.follows b.last = true → p.SameShape b.last ∧ b.len + p.szPayload ≤ 65535 := by
      generalize g.desc = desc at hg
      cases hg with
      | none => simp
      | some hb => simp [hb.continues_eq, hb.fits_iff]
    rw [mergesFit, EachFollower, hfit]
    refine and_congr_right fun hall => ?_
    obtain ⟨hres, hnext⟩ := rxDispatchPacket_told m hg (hfit.mpr hall)
    rw [ih hnext, hres]

/-- No packet longer than the MTU brings an aggregate below the limit over the end of 16 bits. -/
theorem eachFollower_mtu (hmtu : cfg.mtu ≤ 0xFFFF) : ∀ {reserved : Bool} {h : Option HeldBack},
    (∀ x ∈ l, x.2.totLen ≤ cfg.mtu.toNat) → (∀ b ∈ h, b.len < cfg.byteMax) →
    (EachFollower cfg (fun b p => p.SameShape b.last ∧ b.len + p.szPayload ≤ 65535) reserved h l ↔
      EachFollower cfg (fun b p => p.SameShape b.last) reserved h l) := by
  have hbyte : cfg.byteMax + cfg.mtu.toNat = 65535 := by
    have h1 := BitVec.toNat_sub_of_le hmtu
    have h2 := BitVec.le_def.mp hmtu
    rw [GroCfg.byteMax, h1]
    exact Nat.sub_add_cancel h2
  have hwithin : ∀ b : HeldBack, ∀ b' ∈ HeldBack.within cfg b, b'.len < cfg.byteMax := by
    intro b b' hb
    unfold HeldBack.within at hb
    split at hb
    · cases hb
    · cases hb
      omega
  induction l with
  | nil => exact fun _ _ => Iff.rfl
  | cons x rest ih =>
    obtain ⟨m, p⟩ := x
    intro reserved h hl hh
    have hnext : ∀ b ∈ HeldBack.next cfg reserved m p h, b.len < cfg.byteMax := by
      intro b hb
      unfold HeldBack.next at hb
      split at hb <;> split at hb
      · cases hb
      · exact hwithin _ b hb
      · exact hwithin _ b hb
      · cases hb
    have hp : p.szPayload ≤ cfg.mtu.toNat :=
      (Nat.le_add_left _ _).trans (hl (m, p) List.mem_cons_self)
    rw [EachFollower, EachFollower, ih (fun x hx => hl x (List.mem_cons_of_mem _ hx)) hnext]
    refine and_congr_left fun _ => forall₂_congr fun b hb => imp_congr_right fun _ => ?_
    have := hh b hb
    exact ⟨And.left, fun hs => ⟨hs, by omega⟩⟩

end Held

/-- What the socket gets of a batch are its packets, in order and each in one aggregate, and every
aggregate is what its packets are together. -/
structure GroSound (cfg : GroCfg) (l : List (Bool × RxPkt)) : Prop where
  batch : groBatch cfg {} l = (groDelivered cfg {} l).map GroDesc.flushed
  bufs : (groDelivered cfg {} l).flatMap GroDesc.bufs = l.map Prod.snd
  sound : ∀ d ∈ groDelivered cfg {} l, d.Sound

/-- **GRO merges soundly** just if every packet that follows the ones held back has the shape of the last
of them and does not bring their length over the end of 16 bits. Of packets that are no longer than the
MTU none does. -/
theorem groDelivered_sound_iff (cfg : GroCfg) (l : List (Bool × RxPkt)) :
    (GroSound cfg l ↔
      EachFollower cfg (fun b p => p.SameShape b.last ∧ b.len + p.szPayload ≤ 65535) false none l) ∧
    (cfg.mtu ≤ 0xFFFF → (∀ x ∈ l, x.2.totLen ≤ cfg.mtu.toNat) →
      (GroSound cfg l ↔ EachFollower cfg (fun b p => p.SameShape b.last) false none l)) := by
  have hb := groDelivered_built cfg (l := l) (g := {}) (by simp)
  have hm := groDelivered_matches_iff cfg (l := l) (g := {}) (by simp)
  have hall : GroSound cfg l ↔
      EachFollower cfg (fun b p => p.SameShape b.last ∧ b.len + p.szPayload ≤ 65535) false none l := by
    have hsound : (∀ d ∈ groDelivered cfg {} l, d.Sound) ↔ ∀ d ∈ groDelivered cfg {} l, d.Matches :=
      forall₂_congr fun d hd => (hb d hd).sound_iff
    have hfit : mergesFit cfg {} l ↔ _ := mergesFit_iff (h := none) .none
    rw [← hfit]
    constructor
    · intro h
      exact (hm.mp (hsound.mp h.sound)).2
    · intro h
      refine ⟨groBatch_eq cfg, ?_, hsound.mpr (hm.mpr ⟨by simp, h⟩)⟩
      simpa using groDelivered_bufs cfg (l := l) (g := {})
  refine ⟨hall, fun hmtu hl => ?_⟩
  rw [hall, eachFollower_mtu hmtu hl (by simp)]

/-- A segment whose twelve bytes of options are a SACK block, and the plain segment behind it. -/
def sackThenPlain : List (Bool × RxPkt) :=
  [(false, ⟨0, 5, ⟨100, 1, 8, { ack := true }, 10⟩,
      fun i => [1, 1, 5, 10, 0, 0, 0, 200, 0, 0, 0, 210, 7].getD i 0, [7], by decide⟩),
    (false, ⟨0, 5, ⟨101, 1, 5, { ack := true }, 10⟩,
      fun i => [1, 2, 3, 4, 5, 6, 7, 8, 9, 10, 11, 12].getD i 0,
      [1, 2, 3, 4, 5, 6, 7, 8, 9, 10, 11, 12], by decide⟩)]

/-- The two are merged, and payload of the second is written over the end of the SACK block. -/
theorem sackThenPlain_overwritten :
    (groDelivered {} {} sackThenPlain).map (fun d => d.bufs.map (·.hdr.hdrlen)) = [[8, 5]] ∧
      sackThenPlain.map (fun x => beWord x.2.single.optMem 8) = [210, 0x090A0B0C] ∧
      (groBatch {} {} sackThenPlain).map (fun x => beWord x.optMem 8) = [0x090A0B0C] ∧
      ¬∀ d ∈ groDelivered {} {} sackThenPlain, d.Sound := by
  have hlens : (groDelivered {} {} sackThenPlain).map (fun d => d.bufs.map (·.hdr.hdrlen)) = [[8, 5]] := by
    decide +kernel
  refine ⟨hlens, by decide +kernel, by decide +kernel, fun h => ?_⟩
  obtain ⟨d, hd, hbufs⟩ := List.mem_map.mp (hlens ▸ List.mem_singleton_self [8, 5])
  obtain ⟨p, hp, h5⟩ := List.mem_map.mp (hbufs ▸ (by decide : 5 ∈ [8, 5]))
  have h8 : d.first.hdr.hdrlen = 8 := by
    have := congrArg List.head? hbufs
    simpa [GroDesc.bufs] using this
  have := ((h d hd).shape p hp).1
  omega

end LibvmaTlt.Dev
