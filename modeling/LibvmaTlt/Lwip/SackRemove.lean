import LibvmaTlt.Lib.Cover
import LibvmaTlt.Lwip.SndSpec

/-!
# The removal of SACKed segments

The SACK loop of `tcp_receive` scans the blocks in the order received, moving the left bound of the
segment to the end of every block that starts at or before it. As long as the edges lie in one half of
the number space the scan is the scan of `Lib.Cover` on offsets, which gives both directions: what it
takes for covered is covered, payload octets only, and a segment inside one of several disjoint blocks
is recognised or not depending on the order of the blocks.
-/

namespace LibvmaTlt.Lwip

open Serial Cover

/-- The sequence number `x` lies in the block; a reversed block holds nothing. -/
def TcpSackBlock.Holds (b : TcpSackBlock) (x : U32) : Prop :=
  (x - b.blockLe).toNat < (b.blockRe - b.blockLe).toNat ∧
    2 * (b.blockRe - b.blockLe).toNat < 2 ^ 32

instance (b : TcpSackBlock) (x : U32) : Decidable (b.Holds x) := inferInstanceAs (Decidable (_ ∧ _))

def Sacks (sack : List TcpSackBlock) (x : U32) : Prop := ∃ b ∈ sack, b.Holds x

instance (sack : List TcpSackBlock) (x : U32) : Decidable (Sacks sack x) :=
  inferInstanceAs (Decidable (∃ b ∈ sack, b.Holds x))

/-! ## The scan on offsets -/

def TcpSackBlock.offs (base : U32) (b : TcpSackBlock) : Nat × Nat :=
  ((b.blockLe - base).toNat, (b.blockRe - base).toNat)

/-- The edges of the blocks lie in the half of the number space behind `base`. -/
def EdgesInHalf (base : U32) (sack : List TcpSackBlock) : Prop :=
  ∀ b ∈ sack, 2 * (b.blockLe - base).toNat < 2 ^ 32 ∧ 2 * (b.blockRe - base).toNat < 2 ^ 32

/-- The payload of the segment lies in the half of the number space behind `base`. -/
def TcpSeg.InHalf (base : U32) (s : TcpSeg) : Prop := 2 * ((s.seqno - base).toNat + s.len) < 2 ^ 32

instance (base : U32) (s : TcpSeg) : Decidable (s.InHalf base) := inferInstanceAs (Decidable (_ < _))

section Offsets

variable {base le re : U32} {sack : List TcpSackBlock} {s : TcpSeg}

theorem sackTest_eq_reaches (hle : 2 * (le - base).toNat < 2 ^ 32)
    (hre : 2 * (re - base).toNat < 2 ^ 32) (h : EdgesInHalf base sack) :
    sackTest re le sack = reaches (re - base).toNat (le - base).toNat (sack.map (·.offs base)) := by
  induction sack generalizing le with
  | nil => rfl
  | cons b sack ih =>
    obtain ⟨hbl, hbr⟩ := h b List.mem_cons_self
    have hrest : EdgesInHalf base sack := fun c hc => h c (List.mem_cons_of_mem b hc)
    have h1 : TcpSeqLeq b.blockLe le ↔ (b.offs base).1 ≤ (le - base).toNat := le_iff_offset hbl hle
    have h2 : TcpSeqLeq re b.blockRe ↔ (re - base).toNat ≤ (b.offs base).2 := le_iff_offset hre hbr
    simp only [sackTest, List.map_cons, reaches, h1, h2]
    by_cases hb : (b.offs base).1 ≤ (le - base).toNat
    · rw [if_pos hb, if_pos hb, ih hbr hrest]
      rfl
    · rw [if_neg hb, if_neg hb, ih hle hrest]

theorem TcpSeg.InHalf.dataEnd (h : s.InHalf base) :
    (s.dataEnd - base).toNat = (s.seqno - base).toNat + s.len :=
  toNat_add_offset (by unfold TcpSeg.InHalf at h; omega)

theorem sacked_eq_reaches (hs : s.InHalf base) (h : EdgesInHalf base sack) :
    sacked sack s =
      reaches ((s.seqno - base).toNat + s.len) (s.seqno - base).toNat (sack.map (·.offs base)) := by
  have hend := hs.dataEnd
  unfold TcpSeg.InHalf at hs
  rw [sacked, sackTest_eq_reaches (by omega) (by omega) h, hend]

theorem holds_of_offs {b : TcpSackBlock} {x : U32} (hre : 2 * (b.blockRe - base).toNat < 2 ^ 32)
    (h1 : (b.offs base).1 ≤ (x - base).toNat) (h2 : (x - base).toNat < (b.offs base).2) :
    b.Holds x := by
  unfold TcpSackBlock.offs at h1 h2
  have hx := toNat_sub_offset h1
  have hlen := toNat_sub_offset (h1.trans h2.le)
  refine ⟨?_, ?_⟩ <;> omega

/-- **The payload of a segment that the scan takes for covered lies in the blocks**, if the blocks and
the segment lie in one half of the number space: in any order, overlapping, empty or reversed. -/
theorem sacks_of_sacked (hs : s.InHalf base) (h : EdgesInHalf base sack) (ht : sacked sack s = true)
    {k : Nat} (hk : k < s.len) : Sacks sack (s.seqno + u32 k) := by
  rw [sacked_eq_reaches hs h] at ht
  unfold TcpSeg.InHalf at hs
  have hoff : (s.seqno + u32 k - base).toNat = (s.seqno - base).toNat + k :=
    toNat_add_offset (by omega)
  obtain ⟨o, ho, h1, h2⟩ :=
    reaches_covers ht (Nat.le_add_right _ k) (Nat.add_lt_add_left hk _)
  obtain ⟨b, hb, rfl⟩ := List.mem_map.mp ho
  refine ⟨b, hb, ?_⟩
  apply holds_of_offs (h b hb).2
  · rw [hoff]
    exact h1
  · rw [hoff]
    exact h2

end Offsets

/-! ## Soundness -/

/-- What the SACK loop frees lies in the blocks: the payload octets and the octet of a SYN or FIN. -/
def FreesSacked (d : InData) (c : Conn) : Prop :=
  ∀ s ∈ (freeSacked d { c with freed := [] }).freed, ∀ k < s.tcplen, Sacks d.sack (s.seqno + u32 k)

/-- The segment takes a sequence number for a SYN or FIN. -/
def TcpSeg.flagged (s : TcpSeg) : Bool := s.flags.fin || s.flags.syn

/-- The segment and all blocks lie in one half of the number space. -/
def OneHalf (sack : List TcpSackBlock) (s : TcpSeg) : Prop :=
  ∃ base : U32, s.InHalf base ∧ EdgesInHalf base sack

variable {d : InData} {c : Conn}

theorem mem_freeSacked_freed {s : TcpSeg} : s ∈ (freeSacked d { c with freed := [] }).freed ↔
      c.pcb.sackPermitted = true ∧ s ∈ c.pcb.unacked ∧ sacked d.sack s = true := by
  unfold freeSacked
  split
  · next h =>
    simp only at h
    simp [h]
  · next h =>
    simp only at h
    simp [h]

/-- **When what the SACK loop frees was SACKed.** The octet of a SYN or FIN is never looked at, so it
must lie in a block by itself; payload octets are right unless the edges are spread over more than half
the number space. -/
theorem freesSacked_iff (d : InData) (c : Conn) :
    FreesSacked d c ↔ (c.pcb.sackPermitted = true → ∀ s ∈ c.pcb.unacked, sacked d.sack s = true →
      (s.flagged = true → Sacks d.sack s.dataEnd) ∧
        (¬ OneHalf d.sack s → ∀ k < s.len, Sacks d.sack (s.seqno + u32 k))) := by
  constructor
  · intro h hp s hs ht
    have hfree := h s (mem_freeSacked_freed.mpr ⟨hp, hs, ht⟩)
    refine ⟨fun hf => hfree s.len ?_, fun _ k hk => hfree k ?_⟩
    · unfold TcpSeg.flagged at hf
      simp [TcpSeg.tcplen, hf]
    · unfold TcpSeg.tcplen
      omega
  · intro h s hs k hk
    obtain ⟨hp, hm, ht⟩ := mem_freeSacked_freed.mp hs
    obtain ⟨hflag, hfar⟩ := h hp s hm ht
    by_cases hlt : k < s.len
    · by_cases hh : OneHalf d.sack s
      · obtain ⟨base, hs', hb⟩ := hh
        exact sacks_of_sacked hs' hb ht hlt
      · exact hfar hh k hlt
    · -- the one sequence number behind the payload
      have hf : s.flagged = true := by
        unfold TcpSeg.tcplen at hk
        split at hk
        · next h => exact h
        · omega
      obtain rfl : k = s.len := by
        unfold TcpSeg.tcplen at hk
        split at hk <;> omega
      exact hflag hf

def finTail : TcpSeg := { addr := 0, seqno := 100, len := 10, p := [], flags := { fin := true } }

/-- A block that ends with the payload frees the FIN as well. -/
theorem freesSacked_fin_unsacked :
    ¬ FreesSacked ⟨⟨1, 100, 5, { ack := true }, 100⟩, 1, 0, finTail, [], false, false, false,
        [⟨100, 110⟩]⟩
      { pcb := { tcpPcbInit {} with sackPermitted := true, unacked := [finTail] } } := by
  intro h
  have hfin := h finTail (by decide) 10 (by decide)
  exact absurd hfin (by decide)

/-! ## Completeness -/

def TcpSackBlock.Spans (b : TcpSackBlock) (s : TcpSeg) : Prop :=
  (s.seqno - b.blockLe).toNat + s.len ≤ (b.blockRe - b.blockLe).toNat

instance (b : TcpSackBlock) (s : TcpSeg) : Decidable (b.Spans s) := inferInstanceAs (Decidable (_ ≤ _))

/-- Non-empty, pairwise disjoint blocks in a window of less than half the number space from `base`. -/
structure SackWindow (base : U32) (sack : List TcpSackBlock) : Prop where
  proper : ∀ b ∈ sack, (b.blockLe - base).toNat < (b.blockRe - base).toNat
  window : ∀ b ∈ sack, 2 * (b.blockRe - base).toNat < 2 ^ 32
  disjoint : sack.Pairwise fun b c => Apart (b.offs base) (c.offs base)

/-- The blocks of `pre` that lie below `b`, and `b`. -/
def uptoBlock (pre : List TcpSackBlock) (b : TcpSackBlock) : List TcpSackBlock :=
  pre.filter (fun x => TcpSeqLeq x.blockRe b.blockLe) ++ [b]

section Window

variable {base : U32} {sack pre post : List TcpSackBlock} {b : TcpSackBlock} {s : TcpSeg}

theorem SackWindow.edges (h : SackWindow base sack) : EdgesInHalf base sack := by
  intro b hb
  have := h.proper b hb
  have := h.window b hb
  exact ⟨by omega, by omega⟩

theorem SackWindow.spans (h : SackWindow base sack) (hb : b ∈ sack) (hs : b.Spans s) :
    s.InHalf base ∧ (b.offs base).1 ≤ (s.seqno - base).toNat ∧
      (s.seqno - base).toNat + s.len ≤ (b.offs base).2 := by
  have hw := h.window b hb
  have hprop := h.proper b hb
  have hlen := toNat_sub_offset hprop.le
  unfold TcpSackBlock.Spans at hs
  have hoff := @offset_add 32 b.blockLe s.seqno base (by omega)
  unfold TcpSeg.InHalf TcpSackBlock.offs
  refine ⟨?_, ?_, ?_⟩ <;> omega

/-- **A segment inside a block is recognised** just when the blocks listed before that block which lie
below it follow on each other and end where it starts. -/
theorem SackWindow.sacked_iff (h : SackWindow base (pre ++ b :: post)) (hs : b.Spans s)
    (hlen : 0 < s.len) :
    sacked (pre ++ b :: post) s = true ↔
      List.IsChain (fun x y => x.blockRe = y.blockLe) (uptoBlock pre b) := by
  have hb : b ∈ pre ++ b :: post := by simp
  have hpre : ∀ x ∈ pre, x ∈ pre ++ b :: post := fun x hx => List.mem_append_left _ hx
  obtain ⟨hhalf, hle, hre⟩ := h.spans hb hs
  have hedges := h.edges
  have hbelow : (pre.map (·.offs base)).filter (·.2 ≤ (b.offs base).1) ++ [b.offs base] =
      (uptoBlock pre b).map (·.offs base) := by
    rw [uptoBlock, List.map_append, List.filter_map]
    congr 2
    apply List.filter_congr
    intro x hx
    exact decide_eq_decide.mpr (le_iff_offset (hedges x (hpre x hx)).2 (hedges b hb).1).symm
  have hdis : ((pre ++ b :: post).map (·.offs base)).Pairwise Apart :=
    List.pairwise_map.mpr h.disjoint
  have hproper : ∀ o ∈ pre.map (·.offs base), o.1 < o.2 := by
    intro o ho
    obtain ⟨x, hx, rfl⟩ := List.mem_map.mp ho
    exact h.proper x (hpre x hx)
  rw [sacked_eq_reaches hhalf hedges]
  rw [List.map_append, List.map_cons] at hdis ⊢
  rw [reaches_iff_isChain hproper (h.proper b hb) hdis hle (by omega) hre, hbelow, List.isChain_map]
  have hadj : ∀ x y : TcpSackBlock, Adjacent (x.offs base) (y.offs base) ↔ x.blockRe = y.blockLe :=
    fun x y => BitVec.toNat_inj.trans sub_left_inj
  simp only [hadj]

end Window

/-- The SACK loop removes every data segment inside a block, and leaves the others in order with
`last_unacked` at their end. -/
structure SackComplete (d : InData) (c : Conn) : Prop where
  removed : ∀ s ∈ c.pcb.unacked, 0 < s.len → (∃ b ∈ d.sack, b.Spans s) →
    s ∉ (freeSacked d c).pcb.unacked
  order : (freeSacked d c).pcb.unacked.Sublist c.pcb.unacked
  last : ∀ l ∈ (freeSacked d c).pcb.unacked.getLast?, (freeSacked d c).pcb.lastUnacked = some l.addr

/-- The blocks listed before a block that holds a data segment, and lying below it, follow on each
other and end where it starts. -/
def BlocksInOrder (sack : List TcpSackBlock) (unacked : List TcpSeg) : Prop :=
  ∀ pre b post, sack = pre ++ b :: post → (∃ s ∈ unacked, 0 < s.len ∧ b.Spans s) →
    List.IsChain (fun x y => x.blockRe = y.blockLe) (uptoBlock pre b)

/-- The scan does not take the last segment for covered, or takes all of them. -/
def TailKept (sack : List TcpSackBlock) (unacked : List TcpSeg) : Prop :=
  ∀ l ∈ unacked.getLast?, sacked sack l = true → ∀ s ∈ unacked, sacked sack s = true

/-- `last_unacked` points to the last segment of `unacked`. -/
def LastUnacked (pcb : Pcb) : Prop := ∀ l ∈ pcb.unacked.getLast?, pcb.lastUnacked = some l.addr

theorem freeSacked_unacked (hp : c.pcb.sackPermitted = true) :
    (freeSacked d c).pcb.unacked = c.pcb.unacked.filter fun s => !sacked d.sack s := by
  rw [freeSacked, if_pos hp]

theorem freeSacked_lastUnacked (d : InData) (c : Conn) :
    (freeSacked d c).pcb.lastUnacked = c.pcb.lastUnacked := by
  unfold freeSacked
  split <;> rfl

theorem getLast?_filter_addr {l : List TcpSeg} {p : TcpSeg → Bool}
    (hnd : (l.map TcpSeg.addr).Nodup) {t : TcpSeg} (ht : l.getLast? = some t) :
    (∀ u ∈ (l.filter p).getLast?, u.addr = t.addr) ↔ (p t = false → ∀ s ∈ l, p s = false) := by
  obtain ⟨init, rfl⟩ := List.getLast?_eq_some_iff.mp ht
  rw [List.filter_append]
  cases hpt : p t with
  | true =>
    rw [List.filter_cons_of_pos hpt, List.filter_nil]
    exact iff_of_true (by simp) (by simp)
  | false =>
    rw [List.filter_cons_of_neg (by simp [hpt]), List.filter_nil, List.append_nil]
    constructor
    · intro h _ s hs
      cases hps : p s with
      | false => rfl
      | true =>
        -- some segment is left, so the last one left would share the address of `t`
        exfalso
        have hne : init.filter p ≠ [] := by
          rcases List.mem_append.mp hs with hs | hs
          · exact List.ne_nil_of_mem (List.mem_filter.mpr ⟨hs, hps⟩)
          · rw [List.mem_singleton.mp hs, hpt] at hps
            cases hps
        obtain ⟨u, hu⟩ : ∃ u, (init.filter p).getLast? = some u :=
          ⟨_, List.getLast?_eq_some_getLast hne⟩
        have hmem : u ∈ init := (List.mem_filter.mp (List.mem_of_getLast? hu)).1
        rw [List.map_append, List.nodup_append] at hnd
        exact hnd.2.2 u.addr (List.mem_map_of_mem hmem) t.addr (by simp) (h u hu)
    · intro h u hu
      obtain ⟨hm, hpu⟩ := List.mem_filter.mp (List.mem_of_getLast? hu)
      rw [h rfl u (List.mem_append_left _ hm)] at hpu
      cases hpu

/-- **When the SACK loop is complete.** -/
theorem sackComplete_iff {base : U32} {d : InData} {c : Conn} (hp : c.pcb.sackPermitted = true)
    (hw : SackWindow base d.sack) (haddr : (c.pcb.unacked.map TcpSeg.addr).Nodup)
    (hlast : LastUnacked c.pcb) :
    SackComplete d c ↔ BlocksInOrder d.sack c.pcb.unacked ∧ TailKept d.sack c.pcb.unacked := by
  have hun := @freeSacked_unacked d c hp
  have hleft : ∀ s ∈ c.pcb.unacked,
      s ∉ (freeSacked d c).pcb.unacked ↔ sacked d.sack s = true := by
    intro s hs
    rw [hun]
    simp [hs]
  have htail : LastUnacked (freeSacked d c).pcb ↔ TailKept d.sack c.pcb.unacked := by
    unfold LastUnacked TailKept
    rw [hun, freeSacked_lastUnacked]
    cases ht : c.pcb.unacked.getLast? with
    | none =>
      rw [List.getLast?_eq_none_iff] at ht
      simp [ht]
    | some t =>
      have hiff := @getLast?_filter_addr _ (fun s => !sacked d.sack s) haddr t ht
      rw [hlast t ht]
      constructor
      · intro h l hl hsl s hs
        obtain rfl : t = l := Option.some.inj hl
        have := hiff.mp (fun u hu => (Option.some.inj (h u hu)).symm) (by simp [hsl]) s hs
        simpa using this
      · intro h u hu
        have hall : (!sacked d.sack t) = false → ∀ s ∈ c.pcb.unacked, (!sacked d.sack s) = false := by
          intro hst s hs
          simp [h t rfl (by simpa using hst) s hs]
        rw [hiff.mpr hall u hu]
  constructor
  · intro h
    refine ⟨?_, htail.mp h.last⟩
    rintro pre b post heq ⟨s, hs, hlen, hspan⟩
    have hrem := (hleft s hs).mp (h.removed s hs hlen ⟨b, by simp [heq], hspan⟩)
    rw [heq] at hw hrem
    exact (hw.sacked_iff hspan hlen).mp hrem
  · rintro ⟨hord, hkept⟩
    refine ⟨?_, ?_, htail.mpr hkept⟩
    · rintro s hs hlen ⟨b, hb, hspan⟩
      obtain ⟨pre, post, heq⟩ := List.append_of_mem hb
      have hchain := hord pre b post heq ⟨s, hs, hlen, hspan⟩
      rw [hleft s hs]
      rw [heq] at hw ⊢
      exact (hw.sacked_iff hspan hlen).mpr hchain
    · rw [hun]
      exact List.filter_sublist

def twoSegs : Conn where
  pcb := { tcpPcbInit {} with
    sackPermitted := true
    unacked :=
      [{ addr := 0, seqno := 100, len := 10, p := [] }, { addr := 1, seqno := 110, len := 10, p := [] }]
    lastUnacked := some 1 }

def ackWith (sack : List TcpSackBlock) : InData where
  hdr := ⟨1, 100, 5, { ack := true }, 100⟩
  seqno := 1
  tcplen := 0
  inseg := { addr := 0, seqno := 1, len := 0, p := [] }
  sack := sack

/-- The first of two segments is SACKed. -/
theorem sackComplete_first : SackComplete (ackWith [⟨100, 110⟩]) twoSegs := by
  have hlast : LastUnacked twoSegs.pcb := by
    intro l hl
    obtain rfl := Option.some.inj hl
    rfl
  refine (@sackComplete_iff 100 _ _ rfl ⟨by decide, by decide, by simp [ackWith]⟩ (by decide)
    hlast).mpr ⟨?_, ?_⟩
  · intro pre b post heq _
    obtain ⟨rfl, rfl, rfl⟩ : pre = [] ∧ b = ⟨100, 110⟩ ∧ post = [] := by
      cases pre with
      | nil => simpa [ackWith, eq_comm] using heq
      | cons x pre => simp [ackWith] at heq
    exact List.isChain_singleton _
  · intro l hl hs
    obtain rfl := Option.some.inj hl
    exact absurd hs (by decide)

/-- A block listed before that lies further down hides the block that holds the segment; and when the
last segment goes, `last_unacked` goes on pointing to it. -/
theorem sackComplete_fails :
    ¬ SackComplete (ackWith [⟨50, 60⟩, ⟨100, 110⟩]) twoSegs ∧
      ¬ SackComplete (ackWith [⟨110, 120⟩]) twoSegs := by
  constructor
  · intro h
    have := h.removed { addr := 0, seqno := 100, len := 10, p := [] } (by decide) (by decide)
      (by decide)
    exact this (by decide)
  · intro h
    have := h.last { addr := 0, seqno := 100, len := 10, p := [] } (by decide)
    exact absurd this (by decide)

/-- The moves that follow the SACK loop take segments from the front of `unacked` only, and leave its
tail pointer. -/
def FrontTaken (q q' : SndCore) : Prop :=
  q'.unacked <:+ q.unacked ∧ q'.lastUnacked = q.lastUnacked

theorem frontTaken_ackTo (q : SndCore) (ackno : U32) : FrontTaken q (q.ackTo ackno) :=
  ⟨List.dropWhile_suffix _, rfl⟩

theorem frontTaken_rexmit (q : SndCore) (ackno : U32) : FrontTaken q (q.rexmit.ackTo ackno) := by
  unfold SndCore.rexmit
  split
  · exact frontTaken_ackTo q ackno
  · next seg rest h =>
    refine ⟨(List.dropWhile_suffix _).trans ?_, rfl⟩
    rw [h]
    exact List.suffix_cons seg rest

theorem tcpReceive_frontTaken (env : Env) (cc : CcAlgo) (c : Conn) (hack : d.hdr.flags.ack = true) :
    FrontTaken (freeSacked d c).pcb.sndCore (tcpReceive env cc d c).1.pcb.sndCore := by
  obtain ⟨⟨rex, hr⟩, -⟩ := tcpReceiveAck_core env cc c hack
  have hdata := (tcpReceiveData_silent env d (tcpReceiveAck env cc d c)).core
  rw [tcpReceive, hdata, hr, (freeSacked_core d c).1]
  unfold Pcb.ackCore
  generalize (if c.pcb.sackPermitted = true then _ else _) = q
  -- the removal from `unsent` at the end touches neither of the two
  show FrontTaken q (if _ then _ else if _ then _ else _)
  split
  · cases rex with
    | true => exact frontTaken_rexmit q _
    | false => exact frontTaken_ackTo q _
  · split
    · exact frontTaken_ackTo q _
    · exact ⟨List.suffix_refl _, rfl⟩

/-- What the SACK loop achieves stands when `tcp_receive` returns. -/
theorem SackComplete.tcpReceive (h : SackComplete d c) (env : Env) (cc : CcAlgo)
    (hack : d.hdr.flags.ack = true) {pcb : Pcb} (hpcb : (tcpReceive env cc d c).1.pcb = pcb) :
    (∀ s ∈ c.pcb.unacked, 0 < s.len → (∃ b ∈ d.sack, b.Spans s) → s ∉ pcb.unacked) ∧
      pcb.unacked.Sublist c.pcb.unacked ∧ LastUnacked pcb := by
  have hfront := tcpReceive_frontTaken env cc c hack
  rw [hpcb] at hfront
  obtain ⟨hsuf, hlast⟩ := hfront
  refine ⟨fun s hs hlen hb hm => h.removed s hs hlen hb (hsuf.subset hm),
    hsuf.sublist.trans h.order, fun l hl => hlast.trans (h.last l ?_)⟩
  obtain ⟨front, heq⟩ := hsuf
  show (freeSacked d c).pcb.sndCore.unacked.getLast? = some l
  rw [← heq, List.getLast?_append, show pcb.sndCore.unacked.getLast? = some l from hl]
  rfl

end LibvmaTlt.Lwip
