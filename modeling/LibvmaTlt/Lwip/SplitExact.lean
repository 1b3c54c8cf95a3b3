import LibvmaTlt.Lwip.ForceCopy
import LibvmaTlt.Lwip.WriteExact

/-!
# What `tcp_split_segment` does to the data

A split cuts inside the first pbuf, whose end it copies into a new one, or between two pbufs. It counts
the options of the moment everywhere, copies from `dataptr`, which points at the option room and not at
the data, and leaves no option room in front of a chain that it cuts off. `SplitRight` says what a split
should leave, `SplitFits` for which of the segments that `tcp_write` builds it does.
-/

namespace LibvmaTlt.Lwip

/-- The two segments of a split hold the data of `seg`, at its place; each is as long as what it holds,
the first ends within the window, and `snd_queuelen` counts the pbufs. -/
structure SplitRight (pcb p : Pcb) (seg : TcpSeg) (rest : List TcpSeg) (wnd : U32) (a b : TcpSeg) :
    Prop where
  unsent : p.unsent = a :: b :: rest
  payload : a.payload ++ b.payload = seg.payload
  seqno : a.seqno = seg.seqno ∧ b.seqno = seg.seqno + u32 a.len
  window : (seg.seqno - pcb.lastack).toNat + a.len ≤ wnd.toNat
  sound : a.Sound ∧ b.Sound
  queuelen : p.sndQueuelen + seg.p.length = pcb.sndQueuelen + (a.p.length + b.p.length)

/-- From `i` on each byte is the one `d` places before it. -/
def Repeats (l : List U8) (d i : Nat) : Prop := ∀ k < l.length, i ≤ k → l[k - d]? = l[k]?

instance (l : List U8) (d i : Nat) : Decidable (Repeats l d i) :=
  inferInstanceAs (Decidable (∀ k < l.length, _ → _))

/-- The segment was made with as many option bytes as there are now, and without any, unless the cut
lies in the first pbuf and the bytes there happen to repeat. -/
def SplitFits (pcb : Pcb) (seg : TcpSeg) (lentosend : U32) : Prop :=
  seg.optBytes = lwipTcpOptLength pcb pcb.dataOpts ∧
    (seg.optBytes = 0 ∨
      tcpHlen + seg.optBytes + lentosend.toNat < seg.firstPbuf.length ∧
        Repeats seg.firstPbuf seg.optBytes (tcpHlen + seg.optBytes + lentosend.toNat))

instance (pcb : Pcb) (seg : TcpSeg) (lentosend : U32) : Decidable (SplitFits pcb seg lentosend) :=
  inferInstanceAs (Decidable (_ ∧ _))

/-! ## A cut inside the first pbuf -/

theorem take_drop_eq_iff_repeats {l : List U8} {a d : Nat} (h : a + d ≤ l.length) :
    (l.drop a).take (l.length - (a + d)) = l.drop (a + d) ↔ Repeats l d (a + d) := by
  constructor
  · intro he k hk hak
    have hget := congrArg (fun m => m[k - (a + d)]?) he
    simp only [List.getElem?_take, List.getElem?_drop] at hget
    rw [if_pos (by omega)] at hget
    rw [show k - d = a + (k - (a + d)) by omega, hget]
    congr 1
    omega
  · intro hr
    apply List.ext_getElem?
    intro i
    rw [List.getElem?_take, List.getElem?_drop, List.getElem?_drop]
    by_cases hi : i < l.length - (a + d)
    · rw [if_pos hi, ← hr (a + d + i) (by omega) (by omega)]
      congr 1
      omega
    · rw [if_neg hi, List.getElem?_eq_none (by omega)]

theorem drop_take_append_iff {l x m : List U8} {i j : Nat} (hij : i ≤ j) (hj : j ≤ l.length) :
    (l.take j).drop i ++ (x ++ m) = (l ++ m).drop i ↔ x = l.drop j := by
  have hl : l.drop i = (l.take j).drop i ++ l.drop j := by
    conv_lhs => rw [← List.take_append_drop j l]
    rw [List.drop_append_of_le_length (by rw [List.length_take, Nat.min_eq_left hj]; exact hij)]
  rw [List.drop_append_of_le_length (hij.trans hj), hl, List.append_assoc, List.append_cancel_left_eq,
    List.append_cancel_right_eq]

section Cut

variable {env : Env} {n : Nat} {pcb p : Pcb} {seg : TcpSeg} {tail : List TcpSeg} {lts wnd : U32}
  {s : SplitSegs} {p0 : Pbuf} {rest : List Pbuf}

theorem TcpSeg.firstPbuf_of_cons (hp : seg.p = p0 :: rest) : seg.firstPbuf = p0.payload := by
  rw [TcpSeg.firstPbuf, hp]
  rfl

theorem TcpSeg.Built.bytes_eq (hb : seg.Built) (hp : seg.p = p0 :: rest) :
    p0.len + pbufLen rest = tcpHlen + seg.optBytes + seg.len := by
  have h := hb.sound.bytes
  rw [hb.sound.hdr_eq, hp, length_pbufBytes, pbufLen_cons] at h
  exact h

structure CutInside (pcb : Pcb) (seg : TcpSeg) (lts : U32) (p0 : Pbuf) (rest : List Pbuf)
    (s : SplitSegs) : Prop where
  seqno : s.seg.seqno = seg.seqno ∧ s.newseg.seqno = seg.seqno + lts
  hdrlen : s.seg.hdrlen = seg.hdrlen
  frontBytes : pbufBytes s.seg.p =
    p0.payload.take (tcpHlen + lwipTcpOptLength pcb pcb.dataOpts + lts.toNat)
  frontLen : s.seg.len = lts.toNat
  backMade : Made (lwipTcpOptLength pcb pcb.dataOpts) (lwipTcpOptLength pcb pcb.dataOpts)
    ((p0.payload.drop (tcpHlen + lts.toNat)).take
        (p0.len - (tcpHlen + lts.toNat + lwipTcpOptLength pcb pcb.dataOpts)) ++ pbufBytes rest) s.newseg
  backLen : s.newseg.len = u16 (tcpHlen + seg.optBytes + seg.len - lts.toNat - tcpHlen + 65536 -
    lwipTcpOptLength pcb pcb.dataOpts)
  chains : s.seg.p.length = 1 ∧ s.newseg.p.length = 1 + rest.length
  grows : s.grows = true

theorem splitCut_inside (h : splitCut env n pcb seg lts = some s) (hb : seg.Built)
    (hp : seg.p = p0 :: rest)
    (hin : tcpHlen + lwipTcpOptLength pcb pcb.dataOpts + lts.toNat < p0.len) :
    CutInside pcb seg lts p0 rest s := by
  have htotal := hb.bytes_eq hp
  have hroom := hb.room
  have htot : pbufTotLen seg.p = tcpHlen + seg.optBytes + seg.len := by
    rw [hb.chain.totLen.totLen, hp, pbufLen_cons, htotal]
  have hp0 : p0.payload.length = p0.len := rfl
  unfold splitCut at h
  simp only [hp] at h
  rw [if_pos hin] at h
  split at h
  · cases h
  generalize hO : lwipTcpOptLength pcb pcb.dataOpts = o at *
  generalize hk : p0.len - (tcpHlen + o) - lts.toNat = k at h
  have hread : readMem env (p0.payload.drop tcpHlen) lts.toNat k =
      (p0.payload.drop (tcpHlen + lts.toNat)).take (p0.len - (tcpHlen + lts.toNat + o)) := by
    rw [readMem_inside (by rw [List.length_drop]; omega), List.drop_drop]
    congr 1
    omega
  have hmade := @cutTail_made env pcb pcb.dataOpts (p0.payload.drop tcpHlen) rest lts.toNat k
    (by rw [hO]; simp only [tcpHlen] at *; omega) (pbufTotLen seg.p - lts.toNat - tcpHlen)
    { psh := true } (seg.seqno + lts)
  have hcut : p0.len - k = tcpHlen + o + lts.toNat := by omega
  rw [hO, hread] at hmade
  rw [← hp, hcut, hread] at h
  cases h
  refine ⟨⟨rfl, rfl⟩, rfl, ?_, ?_, ?_, ?_, ⟨rfl, ?_⟩, rfl⟩
  · rw [hO]
    exact List.append_nil _
  · show u16 (tcpHlen + o + lts.toNat - (tcpHlen + o)) = lts.toNat
    rw [u16]
    simp only [tcpHlen] at *
    omega
  · rw [hO]
    exact ⟨hmade.hdrlen, hmade.body⟩
  · show u16 (pbufTotLen seg.p - lts.toNat - tcpHlen + 65536 - lwipTcpOptLength pcb pcb.dataOpts) = _
    rw [htot, hO]
  · exact Nat.add_comm rest.length 1

theorem window_le_iff {off : U32} (hoff : off < wnd) {k : Nat} :
    off.toNat + k ≤ wnd.toNat ↔ k ≤ (wnd - off).toNat := by
  have h : off.toNat < wnd.toNat := hoff
  have hw := wnd.isLt
  rw [BitVec.toNat_sub]
  omega

theorem CutInside.right_iff (h : CutInside pcb seg (wnd - (seg.seqno - pcb.lastack)) p0 rest s)
    (hb : seg.Built) (hp : seg.p = p0 :: rest) (hoff : seg.seqno - pcb.lastack < wnd)
    (hin : tcpHlen + lwipTcpOptLength pcb pcb.dataOpts + (wnd - (seg.seqno - pcb.lastack)).toNat <
      p0.len)
    (hu : p.unsent = s.seg :: s.newseg :: tail)
    (hq : p.sndQueuelen = if s.grows then pcb.sndQueuelen + 1 else pcb.sndQueuelen) :
    SplitRight pcb p seg tail wnd s.seg s.newseg ↔
      SplitFits pcb seg (wnd - (seg.seqno - pcb.lastack)) := by
  have htotal := hb.bytes_eq hp
  have hroom := hb.room
  have hhdr := hb.sound.hdr_eq
  have hopt := (lwipTcpOptLength_mod pcb pcb.dataOpts).1
  have hp0 : p0.payload.length = p0.len := rfl
  have hlen : (pbufBytes s.seg.p).length = tcpHlen + lwipTcpOptLength pcb pcb.dataOpts +
      (wnd - (seg.seqno - pcb.lastack)).toNat := by
    rw [h.frontBytes, List.length_take, hp0, Nat.min_eq_left hin.le]
  have hback := h.backMade.payload_eq hopt
  unfold SplitFits
  rw [TcpSeg.firstPbuf_of_cons hp]
  generalize hL : wnd - (seg.seqno - pcb.lastack) = lts at *
  generalize hO : lwipTcpOptLength pcb pcb.dataOpts = o at *
  -- the parts carry the data just if the copy is what stands behind the cut
  have hdata (ho : seg.optBytes = o) : s.seg.payload ++ s.newseg.payload = seg.payload ↔
      Repeats p0.payload o (tcpHlen + o + lts.toNat) := by
    have hj : tcpHlen + o + lts.toNat = tcpHlen + lts.toNat + o := by omega
    rw [hback, TcpSeg.payload, TcpSeg.payload, h.frontBytes, hO, h.hdrlen, hp, pbufBytes_cons,
      drop_take_append_iff (by omega) (by omega), hj, ← hp0]
    exact @take_drop_eq_iff_repeats p0.payload (tcpHlen + lts.toNat) o (by omega)
  constructor
  · intro hr
    have ho : seg.optBytes = o := by
      have := hr.sound.1.bytes
      rw [hlen, h.hdrlen, h.frontLen, hhdr] at this
      omega
    rw [ho]
    exact ⟨rfl, .inr ⟨hin, (hdata ho).mp hr.payload⟩⟩
  · rintro ⟨ho, hrep⟩
    have hrep' : Repeats p0.payload o (tcpHlen + o + lts.toNat) := by
      rw [ho] at hrep
      rcases hrep with h0 | ⟨-, hrep⟩
      · rw [h0]
        exact fun k _ _ => rfl
      · exact hrep
    have hlens : s.newseg.len = seg.len - lts.toNat := by
      rw [h.backLen, u16]
      omega
    refine ⟨hu, (hdata ho).mpr hrep', ?_, ?_, ⟨⟨?_, ?_, ?_⟩, ?_⟩, ?_⟩
    · rw [h.frontLen, u32, BitVec.ofNat_toNat, BitVec.setWidth_eq]
      exact h.seqno
    · rw [window_le_iff hoff, hL, h.frontLen]
    · rw [h.hdrlen]
      exact hb.sound.hdrlen
    · rw [hlen, h.hdrlen, h.frontLen, hhdr, ho]
    · rw [h.frontLen]
      omega
    · refine h.backMade.sound (hO.symm ▸ hopt) ?_ (by omega)
      rw [hlens, List.length_append, List.length_take, List.length_drop, length_pbufBytes, hp0]
      omega
    · rw [hq, h.grows, if_pos rfl, h.chains.1, h.chains.2, hp, List.length_cons]
      omega

/-! ## A cut between two pbufs -/

theorem length_retotal (p : List Pbuf) : (retotal p).length = p.length := by
  induction p with
  | nil => rfl
  | cons q rest ih => rw [retotal, List.length_cons, List.length_cons, ih]

theorem Made.payload_noRoom {optlen : Nat} {bs : List U8} {s : TcpSeg} (h : Made optlen 0 bs s)
    (hopt : optlen % 4 = 0) : s.payload = bs.drop optlen := by
  obtain ⟨hh, hdr, r, h1, h2, hb⟩ := h
  obtain rfl := List.length_eq_zero_iff.mp h2
  have hl : 4 * s.hdrlen = hdr.length + optlen := by
    rw [hh, h1, tcpHlen]
    omega
  rw [TcpSeg.payload, hb, List.nil_append, hl, List.drop_append]
  simp

structure CutBetween (pcb : Pcb) (seg : TcpSeg) (lts : U32) (front back : List Pbuf) (s : SplitSegs) :
    Prop where
  chain : seg.p = front ++ back
  back_ne : back ≠ []
  seqno : s.seg.seqno = seg.seqno ∧ s.newseg.seqno = seg.seqno +
    (u32 (pbufLen front) - u32 (tcpHlen + lwipTcpOptLength pcb pcb.dataOpts))
  hdrlen : s.seg.hdrlen = seg.hdrlen
  frontBytes : pbufBytes s.seg.p = pbufBytes front
  frontLen : s.seg.len =
    u16 (pbufLen front + 65536 - (tcpHlen + lwipTcpOptLength pcb pcb.dataOpts))
  backMade : Made (lwipTcpOptLength pcb pcb.dataOpts) 0 (pbufBytes back) s.newseg
  backLen : s.newseg.len = u16 (pbufTotLen back + 65536 - lwipTcpOptLength pcb pcb.dataOpts)
  chains : s.seg.p.length = front.length ∧ s.newseg.p.length = back.length
  grows : s.grows = false
  within : lwipTcpOptLength pcb pcb.dataOpts = 0 → pbufLen front - tcpHlen ≤ lts.toNat

theorem splitCut_between (h : splitCut env n pcb seg lts = some s) (hb : seg.Built)
    (hp : seg.p = p0 :: rest)
    (hin : ¬tcpHlen + lwipTcpOptLength pcb pcb.dataOpts + lts.toNat < p0.len) :
    ∃ front back, CutBetween pcb seg lts front back s ∧ p0.len ≤ pbufLen front := by
  have htotal := hb.bytes_eq hp
  have hroom := hb.room
  have hhdr := hb.sound.hdr_eq
  have hhdr15 := hb.hdrlen
  have hfirst : 4 * seg.hdrlen < p0.len := by
    have := hb.first
    rwa [TcpSeg.firstPbuf_of_cons hp] at this
  unfold splitCut at h
  simp only [hp] at h
  rw [if_neg hin] at h
  split at h
  · cases h
  split at h
  · cases h
  rename_i headlen front back hw
  split at h
  · cases h
  obtain ⟨mid, hfront, hrest, hback, hhead⟩ := splitWalk_spec hw
  have hfr : front = p0 :: mid := hfront
  have hlen : pbufLen front = headlen := by rw [hfr, pbufLen_cons, hhead]
  have hmade := @tcpCreateSegment_made (pbufBytes back) back [] hback rfl pcb {}
    (seg.seqno + (u32 headlen - u32 (tcpHlen + lwipTcpOptLength pcb pcb.dataOpts))) pcb.dataOpts
  cases h
  refine ⟨front, back, ⟨?_, hback, ⟨rfl, ?_⟩, rfl, pbufBytes_retotal front, ?_,
    ⟨hmade.hdrlen, hmade.body⟩, rfl, ⟨length_retotal front, length_pushHeader back⟩, rfl, ?_⟩, ?_⟩
  · rw [hp, hrest, hfr]
    rfl
  · rw [hlen]
    rfl
  · rw [hlen]
  · intro ho
    have hle := splitWalk_le hw (by omega) (by omega) (by omega)
    rw [ho] at hle
    omega
  · rw [hfr, pbufLen_cons]
    exact Nat.le_add_right ..

theorem CutBetween.back_pos {front back : List Pbuf} (h : CutBetween pcb seg lts front back s)
    (hb : seg.Built) (hfront : 0 < pbufLen front) : 0 < pbufLen back := by
  obtain ⟨q, back, rfl⟩ := List.exists_cons_of_ne_nil h.back_ne
  cases front with
  | nil => exact absurd hfront (lt_irrefl 0)
  | cons f front =>
    have hq : 0 < q.len := by
      refine hb.chain.chained q ?_
      rw [h.chain]
      simp
    rw [pbufLen_cons]
    exact Nat.add_pos_left hq _

theorem CutBetween.right_iff {front back : List Pbuf}
    (h : CutBetween pcb seg (wnd - (seg.seqno - pcb.lastack)) front back s)
    (hb : seg.Built) (hp : seg.p = p0 :: rest) (hoff : seg.seqno - pcb.lastack < wnd)
    (hin : ¬tcpHlen + lwipTcpOptLength pcb pcb.dataOpts + (wnd - (seg.seqno - pcb.lastack)).toNat <
      p0.len) (hfirst : p0.len ≤ pbufLen front)
    (hu : p.unsent = s.seg :: s.newseg :: tail)
    (hq : p.sndQueuelen = if s.grows then pcb.sndQueuelen + 1 else pcb.sndQueuelen) :
    SplitRight pcb p seg tail wnd s.seg s.newseg ↔
      SplitFits pcb seg (wnd - (seg.seqno - pcb.lastack)) := by
  have hroom := hb.room
  have hhdr := hb.sound.hdr_eq
  have hhdr15 := hb.hdrlen
  obtain ⟨hopt, hopt40⟩ := lwipTcpOptLength_mod pcb pcb.dataOpts
  have hp0 : 4 * seg.hdrlen < p0.len := by
    have := hb.first
    rwa [TcpSeg.firstPbuf_of_cons hp] at this
  have htotal : pbufLen front + pbufLen back = tcpHlen + seg.optBytes + seg.len := by
    rw [← pbufLen_append, ← h.chain, ← hb.sound.hdr_eq, ← hb.sound.bytes, length_pbufBytes]
  have hpos : 0 < pbufLen back := h.back_pos hb (by omega)
  have hback := h.backMade.payload_noRoom hopt
  unfold SplitFits
  rw [TcpSeg.firstPbuf_of_cons hp]
  have hdata : s.seg.payload ++ s.newseg.payload = seg.payload ↔
      lwipTcpOptLength pcb pcb.dataOpts = 0 := by
    rw [hback, TcpSeg.payload, TcpSeg.payload, h.frontBytes, h.hdrlen, h.chain, pbufBytes_append,
      List.drop_append_of_le_length (by rw [length_pbufBytes]; omega), List.append_cancel_left_eq]
    refine ⟨fun he => ?_, fun ho => by rw [ho, List.drop_zero]⟩
    have := congrArg List.length he
    rw [List.length_drop, length_pbufBytes] at this
    omega
  constructor
  · intro hr
    have ho := hdata.mp hr.payload
    have := hr.sound.1.bytes
    rw [h.frontBytes, length_pbufBytes, h.hdrlen, h.frontLen, hhdr, ho, u16] at this
    have hR : seg.optBytes = 0 := by omega
    exact ⟨hR.trans ho.symm, .inl hR⟩
  · rintro ⟨ho, hrep⟩
    have hR : seg.optBytes = 0 := hrep.resolve_right fun hcut => hin (ho ▸ hcut.1)
    rw [hR] at ho
    have hwithin := h.within ho.symm
    have hlen : s.seg.len = pbufLen front - tcpHlen := by
      rw [h.frontLen, ← ho, u16]
      omega
    have htot : pbufTotLen back = pbufLen back :=
      (Consistent.of_append (h.chain ▸ hb.chain.totLen)).totLen
    refine ⟨hu, hdata.mpr ho.symm, ?_, ?_, ⟨⟨?_, ?_, ?_⟩, ?_⟩, ?_⟩
    · have hseq := h.seqno
      rw [← ho, Nat.add_zero, u32_sub (by omega), ← hlen] at hseq
      exact hseq
    · rw [window_le_iff hoff, hlen]
      exact hwithin
    · rw [h.hdrlen]
      exact hb.sound.hdrlen
    · rw [h.frontBytes, length_pbufBytes, h.hdrlen, hhdr, hlen, hR]
      omega
    · omega
    · have hmade := h.backMade
      have hblen := h.backLen
      rw [← ho] at hmade
      rw [← ho, htot, u16] at hblen
      exact hmade.sound rfl (by rw [length_pbufBytes]; omega) (by omega)
    · rw [hq, h.grows, h.chains.1, h.chains.2, h.chain, List.length_append]
      simp

end Cut

/-! ## Splits -/

theorem tcpSplitSegment_cut {env : Env} {n : Nat} {pcb : Pcb} {seg : TcpSeg} {rest : List TcpSeg}
    {wnd : U32} (hu : pcb.unsent = seg :: rest)
    (hsplit : (tcpSplitSegment env n pcb wnd).unsent ≠ pcb.unsent) :
    seg.seqno - pcb.lastack < wnd ∧
      ∃ s, splitCut env n pcb seg (wnd - (seg.seqno - pcb.lastack)) = some s ∧
        tcpSplitSegment env n pcb wnd = pcb.splitInto seg rest s := by
  unfold tcpSplitSegment at hsplit ⊢
  simp only [hu] at hsplit ⊢
  split at hsplit
  · exact absurd hu hsplit
  rename_i hgo
  rw [if_neg hgo]
  have hoff : seg.seqno - pcb.lastack < wnd := by
    by_contra hge
    exact hgo (.inr (.inl (BitVec.not_lt.mp hge)))
  split at hsplit
  · exact absurd hu hsplit
  · rename_i s hs
    exact ⟨hoff, s, hs, rfl⟩

/-- **A split of a segment that `tcp_write` built keeps the stream** just if `SplitFits`. -/
theorem tcpSplitSegment_right_iff {env : Env} {n : Nat} {pcb : Pcb} {seg : TcpSeg} {rest : List TcpSeg}
    {wnd : U32} (hu : pcb.unsent = seg :: rest) (hb : seg.Built)
    (hsplit : (tcpSplitSegment env n pcb wnd).unsent ≠ pcb.unsent) :
    (∃ a b, SplitRight pcb (tcpSplitSegment env n pcb wnd) seg rest wnd a b) ↔
      SplitFits pcb seg (wnd - (seg.seqno - pcb.lastack)) := by
  obtain ⟨hoff, s, hs, hp⟩ := tcpSplitSegment_cut hu hsplit
  rw [hp]
  have hpair : (∃ a b, SplitRight pcb (pcb.splitInto seg rest s) seg rest wnd a b) ↔
      SplitRight pcb (pcb.splitInto seg rest s) seg rest wnd s.seg s.newseg := by
    refine ⟨fun ⟨a, b, h⟩ => ?_, fun h => ⟨_, _, h⟩⟩
    obtain ⟨ha, hrest⟩ := List.cons.inj h.unsent
    obtain ⟨hb', -⟩ := List.cons.inj hrest
    rw [ha, hb']
    exact h
  rw [hpair]
  obtain ⟨p0, prest, hp0⟩ := List.exists_cons_of_ne_nil hb.sound.p_ne_nil
  by_cases hin : tcpHlen + lwipTcpOptLength pcb pcb.dataOpts +
      (wnd - (seg.seqno - pcb.lastack)).toNat < p0.len
  · exact (splitCut_inside hs hb hp0 hin).right_iff hb hp0 hoff hin rfl rfl
  · obtain ⟨front, back, hcut, hfirst⟩ := splitCut_between hs hb hp0 hin
    exact hcut.right_iff hb hp0 hoff hin hfirst rfl rfl

def twentyPcb (ts : Bool) : Pcb :=
  ((tcpWrite {} { tcpPcbInit {} with
      state := .established, sndWndMax := 10000, flags := { timestamp := ts } }
    ((List.range 20).map fun i => BitVec.ofNat 8 (i + 100)) false).map Prod.fst).getD (tcpPcbInit {})

def twentySeg (ts : Bool) : TcpSeg := (twentyPcb ts).unsent.headD ⟨0, 0, 0, [], {}, {}, 5, 0⟩

theorem twentyPcb_unsent (ts : Bool) :
    (twentyPcb ts).unsent = [twentySeg ts] ∧ (twentySeg ts).Built := by
  cases ts <;> exact ⟨by decide +kernel, by decide +kernel⟩

/-- Without options the twenty bytes are cut after five. -/
theorem tcpSplitSegment_right_five :
    ∃ a b, SplitRight (twentyPcb false) (tcpSplitSegment {} 0 (twentyPcb false) 5) (twentySeg false) []
      5 a b :=
  (tcpSplitSegment_right_iff (twentyPcb_unsent false).1 (twentyPcb_unsent false).2
    (by decide +kernel)).mpr (by decide +kernel)

/-- With timestamps the copy starts twelve bytes too early: the second part has seven bytes of the
option room and the first eight bytes again, and the last twelve bytes are lost. -/
theorem tcpSplitSegment_shifted :
    (twentyPcb true).unsent = [twentySeg true] ∧ (twentySeg true).Built ∧
      (tcpSplitSegment {} 0 (twentyPcb true) 5).unsent.map TcpSeg.payload =
        [[100, 101, 102, 103, 104],
          [0, 0, 0, 0, 0, 0, 0, 100, 101, 102, 103, 104, 105, 106, 107]] ∧
      ¬∃ a b, SplitRight (twentyPcb true) (tcpSplitSegment {} 0 (twentyPcb true) 5) (twentySeg true) []
        5 a b := by
  have hmap : (tcpSplitSegment {} 0 (twentyPcb true) 5).unsent.map TcpSeg.payload =
      [[100, 101, 102, 103, 104], [0, 0, 0, 0, 0, 0, 0, 100, 101, 102, 103, 104, 105, 106, 107]] := by
    decide +kernel
  refine ⟨(twentyPcb_unsent true).1, (twentyPcb_unsent true).2, hmap, ?_⟩
  rintro ⟨a, b, h⟩
  rw [h.unsent, List.map_cons, List.map_cons, List.map_nil] at hmap
  obtain ⟨ha, hrest⟩ := List.cons.inj hmap
  obtain ⟨hb, -⟩ := List.cons.inj hrest
  have hpay := h.payload
  rw [ha, hb] at hpay
  exact absurd hpay (by decide +kernel)

end LibvmaTlt.Lwip
