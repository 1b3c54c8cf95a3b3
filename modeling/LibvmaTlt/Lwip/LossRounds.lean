import LibvmaTlt.Lwip.Token
import LibvmaTlt.Lwip.UimpAck
import LibvmaTlt.Lwip.UimpMap

/-!
# Loss by rounds

`tlt_is_lost` takes data for lost that was recorded more than two rounds ago, a round being the time between
two echoes. It compares the recorded rounds with `cur_round - 2`, which is a very large number as long as
`cur_round` is 0 or 1: until the second echo everything that is recorded counts as lost. And `tcp_output`
retransmits the head of the queue, which need not be the block that was found lost.
-/

namespace LibvmaTlt.Lwip

open UimpQueue Stretch

/-! ## The history of a connection -/

/-- A pcb with what has happened to it: the number of echoes received, and for each byte, counted from
`iss`, how many there had been when it was last sent unimportant. -/
structure TltRun where
  pcb : Pcb
  echoes : Nat
  last : U32 → Option Nat

namespace TltRun

def sent (r : TltRun) (seg : TcpSeg) (x : U32) : Option Nat :=
  if (x - (seg.seqno - r.pcb.iss)).toNat < seg.len then some r.echoes else r.last x

def step (r : TltRun) (a : TltAct) : TltRun where
  pcb := tltStep r.pcb a
  echoes :=
    match a with
    | .receive _ tos => r.echoes + echoToken tos
    | _ => r.echoes
  last :=
    match a with
    | .send seg => if Records r.pcb seg then r.sent seg else r.last
    | _ => r.last

/-- The byte is recorded, and was last sent unimportant more than two rounds ago. -/
def Old (r : TltRun) (x : U32) : Prop :=
  (∃ t, Recorded r.pcb.tlt.uimp x t) ∧ ∃ k, r.last x = some k ∧ k + 2 < r.echoes

end TltRun

/-- `tlt_is_lost` finds just the data that is old, and the forced path sends more than one byte of such data
only. -/
structure LossExact (r : TltRun) : Prop where
  lost : tltIsLost r.pcb.tlt false = true ↔ ∃ x, r.Old x
  forced : 1 < forceLen r.pcb → r.Old (r.pcb.tlt.uimp.slot 0).seq

/-! ## Steps that keep the record right -/

def UimpQueue.stretches (q : UimpQueue) : List (Stretch U32) :=
  q.blocks.map fun b => ⟨b.seq.toNat, b.seq.toNat + b.len.toNat, b.round⟩

/-- The step leaves every recorded byte with the round it was last sent in: what is sent and what is
acknowledged lies in the first half of the number space, and `tlt_segment_add` handles the blocks it
meets. -/
def Clean (pcb : Pcb) : TltAct → Prop
  | .send seg =>
    Records pcb seg →
      (seg.seqno - pcb.iss).toNat + seg.len < 2 ^ 31 ∧
        Handled 0 pcb.tlt.curRound [] pcb.tlt.uimp.stretches (seg.seqno - pcb.iss).toNat
          ((seg.seqno - pcb.iss).toNat + seg.len)
  | .receive hdr _ => hdr.flags.ack = true → (hdr.ackno - pcb.iss).toNat < 2 ^ 31
  | .pop _ => True

def Admitted (r : TltRun) (a : TltAct) : Prop := a.Typed ∧ Fits r.pcb a ∧ Clean r.pcb a

/-- Every position has the round of the echoes that had come when it was last sent. -/
def Dated (r : TltRun) (P : List (Stretch U32)) : Prop :=
  ∀ x t, Gives P x t → ∃ k, r.last (u32 x) = some k ∧ t = u32 k ∧ k ≤ r.echoes

structure Dating (r : TltRun) : Prop where
  rep : TltRep r.pcb.tlt.uimp
  round : r.pcb.tlt.curRound = u32 r.echoes
  queue : ∃ L, Queue 0 r.pcb.tlt.uimp L ∧ Tidy (2 ^ 31) (L.map Prod.snd) ∧ Dated r (L.map Prod.snd)

section Queue

variable {base : U32} {q : UimpQueue} {t : TltParam} {L pre suf : List (Nat × Stretch U32)}

theorem seqAt_zero_toNat (x : U32) : seqAt 0 x.toNat = x := by
  unfold seqAt u32
  rw [zero_add, BitVec.ofNat_toNat, BitVec.setWidth_eq]

theorem Queue.stretches_eq (h : Queue 0 q L) : q.stretches = L.map Prod.snd := by
  unfold UimpQueue.stretches
  rw [(Queue.toBlocks h).blocks_eq, List.map_map, List.map_map]
  refine List.map_congr_left fun n hn => ?_
  obtain ⟨h1, h2⟩ := (slotAt_iff.mp (h.block n hn)).2
  have hlo : (seqAt 0 n.2.lo).toNat = n.2.lo := by
    rw [seqAt, zero_add, u32_toNat (by omega)]
  simp only [Function.comp_apply, blockOf, hlo, u32_toNat (show n.2.hi - n.2.lo < 2 ^ 32 by omega)]
  rw [Nat.add_sub_cancel' h1.le]

theorem Queue.lostLoop {bound : U32} {f : Nat} (h : Queue base q (pre ++ suf)) (hf : suf.length < f) :
    tltLostLoop q bound f (cells suf).head? = suf.any fun n => decide (n.2.tag < bound) := by
  induction suf generalizing pre f with
  | nil => cases f <;> rfl
  | cons n suf ih =>
    obtain ⟨c, b⟩ := n
    obtain ⟨f, rfl⟩ : ∃ g, f = g + 1 := ⟨f - 1, by omega⟩
    have happ := List.append_cons pre (c, b) suf
    have hrest := ih (happ ▸ h) (f := f) (by simp only [List.length_cons] at hf; omega)
    rw [cells_cons, List.head?_cons, tltLostLoop, h.next_eq, hrest, h.block_mid.round]
    rfl

theorem Queue.isLost_iff (h : Queue base t.uimp L) :
    tltIsLost t false = true ↔ ∃ b ∈ L.map Prod.snd, b.tag < t.curRound - 2 := by
  unfold tltIsLost
  cases L with
  | nil =>
    have h0 : (t.uimp.slot 0).len = 0 := h.free 0 (by simp)
    simp [h0]
  | cons n L =>
    obtain ⟨c, b⟩ := n
    obtain rfl := h.head_eq
    have h0 := h.block_head.len_ne_zero
    have hf : ((0, b) :: L).length < t.uimp.len + 1 := by rw [h.len]; omega
    have hloop := @Queue.lostLoop base t.uimp [] ((0, b) :: L) (t.curRound - 2) _ h hf
    rw [cells_cons, List.head?_cons] at hloop
    have htest : decide ((t.uimp.slot 0).len ≠ 0) = true := decide_eq_true h0
    rw [hloop, htest, Bool.true_and, Bool.false_and, Bool.or_false, List.any_eq_true]
    constructor
    · rintro ⟨n, hn, hlt⟩
      exact ⟨n.2, List.mem_map_of_mem hn, of_decide_eq_true hlt⟩
    · rintro ⟨b, hb, hlt⟩
      obtain ⟨n, hn, rfl⟩ := List.mem_map.mp hb
      exact ⟨n, hn, decide_eq_true hlt⟩

end Queue

/-! ## Steps -/

section Steps

variable {r : TltRun}

theorem tltOut_curRound (pcb : Pcb) (seg : TcpSeg) : (tltOut pcb seg).1.curRound = pcb.tlt.curRound := by
  unfold tltOut tltSendPayload tltSendSyn tltSendAck
  split
  · split <;> rfl
  · split_ifs <;> rfl

theorem tltIn_curRound (pcb : Pcb) (hdr : TcpHdr) (tos : U8) :
    (tltIn pcb hdr tos).curRound = pcb.tlt.curRound + u32 (echoToken tos) := by
  have hmark : ∀ t, (tltInMark t (markOf tos)).curRound = t.curRound + u32 (echoToken tos) := by
    intro t
    unfold tltInMark echoToken isEcho
    by_cases h1 : markOf tos = tltTosImpe
    · simp [h1, u32]
    by_cases h2 : markOf tos = tltTosImpef
    · simp [h2, u32]
    · simp only [h1, h2, if_false, decide_false, Bool.or_self, Bool.false_eq_true]
      have hz : u32 0 = 0 := rfl
      rw [hz, add_zero]
      split_ifs <;> rfl
  unfold tltIn
  rw [hmark]
  split_ifs <;> rfl

theorem forcePop_curRound (t : TltParam) (maxLen : U32) : (t.forcePop maxLen).curRound = t.curRound := by
  unfold TltParam.forcePop tltUimpqPop
  dsimp only
  split_ifs <;> rfl

theorem mem_segment_iff {s n x : Nat} {y : U32} (hy : y.toNat = s) (hs : s + n < 2 ^ 31) (hx : x < 2 ^ 31) :
    (u32 x - y).toNat < n ↔ s ≤ x ∧ x < s + n := by
  rw [BitVec.toNat_sub, u32_toNat (by omega), hy]
  omega

theorem Dating.send {seg : TcpSeg} (h : Dating r) (hrec : Records r.pcb seg) (hclean : Clean r.pcb (.send seg)) :
    ∃ L, Queue 0 (tltStep r.pcb (.send seg)).tlt.uimp L ∧ Tidy (2 ^ 31) (L.map Prod.snd) ∧
      Dated (r.step (.send seg)) (L.map Prod.snd) := by
  obtain ⟨hin, hhandled⟩ := hclean hrec
  obtain ⟨L, hQ, ht, hd⟩ := h.queue
  have huimp : (tltStep r.pcb (.send seg)).tlt.uimp = _ := (tltOut_uimp r.pcb seg).trans (if_pos hrec)
  have hlast : (r.step (.send seg)).last = r.sent seg := if_pos hrec
  have hpos : 0 < seg.len := Nat.pos_of_ne_zero hrec.1
  rw [hQ.stretches_eq] at hhandled
  rw [huimp]
  generalize hy : seg.seqno - r.pcb.iss = y at *
  obtain ⟨L', hL', hQ'⟩ := @Queue.add 0 r.pcb.tlt.curRound _ L y.toNat (y.toNat + seg.len) hQ h.rep
    (by omega) hin
  obtain ⟨ht', hup⟩ := hhandled.updates ht (by omega) (show y.toNat + seg.len ≤ 2 ^ 31 by omega)
  rw [← hL'] at ht' hup
  rw [seqAt_zero_toNat, Nat.add_sub_cancel_left] at hQ'
  refine ⟨L', hQ', ht', fun x t hx => ?_⟩
  have hxlt : x < 2 ^ 31 := by
    obtain ⟨b, hb, hxb, -⟩ := hx
    have := ht'.below b hb
    unfold Has at hxb
    omega
  rw [hup x t] at hx
  rw [hlast]
  unfold TltRun.sent
  rw [hy]
  simp only [mem_segment_iff rfl hin hxlt]
  split_ifs at hx ⊢ with hmem
  · exact ⟨r.echoes, rfl, hx.trans h.round, le_rfl⟩
  · exact hd x t hx

theorem Tidy.dropFront {p : Stretch U32} {P : List (Stretch U32)} {e top : Nat} (h : Tidy top (p :: P))
    (h1 : p.lo ≤ e) (h2 : e ≤ p.hi) : Tidy top (dropFront p P e) := by
  obtain ⟨⟨hp, htop, hap⟩, hP⟩ := Tidy.cons_iff.mp h
  unfold Lwip.dropFront
  split
  · exact hP
  refine Tidy.cons_iff.mpr ⟨⟨?_, htop, fun b hb => ?_⟩, hP⟩
  · simp only
    omega
  · have := hap b hb
    unfold Apart at this ⊢
    simp only
    omega

theorem Dated.mono {r' : TltRun} {P P' : List (Stretch U32)} (h : Dated r P) (hlast : r'.last = r.last)
    (hle : r.echoes ≤ r'.echoes) (hP : ∀ x t, Gives P' x t → Gives P x t) : Dated r' P' := by
  intro x t hx
  obtain ⟨k, hk, ht, hke⟩ := h x t (hP x t hx)
  exact ⟨k, by rw [hlast, hk], ht, hke.trans hle⟩

theorem Dating.receive {hdr : TcpHdr} {tos : U8} (h : Dating r) (hclean : Clean r.pcb (.receive hdr tos)) :
    ∃ L, Queue 0 (tltStep r.pcb (.receive hdr tos)).tlt.uimp L ∧ Tidy (2 ^ 31) (L.map Prod.snd) ∧
      Dated (r.step (.receive hdr tos)) (L.map Prod.snd) := by
  obtain ⟨L, hQ, ht, hd⟩ := h.queue
  have huimp : (tltStep r.pcb (.receive hdr tos)).tlt.uimp = _ := tltIn_uimp r.pcb hdr tos
  have hle : r.echoes ≤ (r.step (.receive hdr tos)).echoes := Nat.le_add_right _ _
  rw [huimp]
  by_cases hack : hdr.flags.ack = true
  · rw [if_pos hack]
    obtain ⟨L', hQ', hL'⟩ := hQ.acked h.rep ht (hclean hack)
    have hk : u32 (hdr.ackno - r.pcb.iss).toNat = hdr.ackno - r.pcb.iss := by
      rw [u32, BitVec.ofNat_toNat, BitVec.setWidth_eq]
    rw [hk] at hQ'
    refine ⟨L', hQ', hL' ▸ ht.above _, hd.mono rfl hle fun x t hx => ?_⟩
    rw [hL', gives_above] at hx
    exact hx.2
  · rw [if_neg hack]
    exact ⟨L, hQ, ht, hd.mono rfl hle fun _ _ hx => hx⟩

theorem Dating.pop {maxLen : U32} (h : Dating r) :
    ∃ L, Queue 0 (tltStep r.pcb (.pop maxLen)).tlt.uimp L ∧ Tidy (2 ^ 31) (L.map Prod.snd) ∧
      Dated (r.step (.pop maxLen)) (L.map Prod.snd) := by
  obtain ⟨L, hQ, ht, hd⟩ := h.queue
  have hstay : (tltStep r.pcb (.pop maxLen)).tlt.uimp = r.pcb.tlt.uimp →
      ∃ L, Queue 0 (tltStep r.pcb (.pop maxLen)).tlt.uimp L ∧ Tidy (2 ^ 31) (L.map Prod.snd) ∧
        Dated (r.step (.pop maxLen)) (L.map Prod.snd) := by
    intro heq
    rw [heq]
    exact ⟨L, hQ, ht, hd.mono rfl le_rfl fun _ _ hx => hx⟩
  by_cases h0 : (r.pcb.tlt.uimp.slot 0).len = 0
  · refine hstay ((forcePop_uimp r.pcb.tlt maxLen).trans ?_)
    rw [tltSegmentRemoveRound, if_neg (not_not.mpr h0)]
  obtain ⟨p, post, rfl⟩ := hQ.cons_of_head h0
  obtain ⟨e, h1, -, h2, hpeek⟩ := hQ.peek maxLen
  have hpop := hQ.forcePop ht hpeek h1 h2
  split_ifs at hpop
  · obtain ⟨L', hQ', hL'⟩ := hpop
    refine ⟨L', hQ', ?_, hd.mono rfl le_rfl fun x t hx => ?_⟩
    · rw [hL']
      exact Tidy.dropFront ht h1 h2
    · rw [hL', gives_dropFront] at hx
      refine gives_cons.mpr (hx.imp_left fun hx => ⟨⟨?_, hx.2.1⟩, hx.2.2⟩)
      exact h1.trans hx.1
  · exact hstay hpop

theorem Dating.step {a : TltAct} (h : Dating r) (ha : Admitted r a) : Dating (r.step a) := by
  obtain ⟨htyped, hfits, hclean⟩ := ha
  have hrep : TltRep (r.step a).pcb.tlt.uimp := ((keepsRep_iff h.rep htyped).mpr hfits).rep
  cases a with
  | send seg =>
    refine ⟨hrep, (tltOut_curRound r.pcb seg).trans h.round, ?_⟩
    by_cases hrec : Records r.pcb seg
    · exact h.send hrec hclean
    · obtain ⟨L, hQ, ht, hd⟩ := h.queue
      have huimp : (r.step (.send seg)).pcb.tlt.uimp = _ := (tltOut_uimp r.pcb seg).trans (if_neg hrec)
      rw [huimp]
      exact ⟨L, hQ, ht, hd.mono (if_neg hrec) le_rfl fun _ _ hx => hx⟩
  | receive hdr tos =>
    refine ⟨hrep, (tltIn_curRound r.pcb hdr tos).trans ?_, h.receive hclean⟩
    rw [h.round, u32_add]
    rfl
  | pop maxLen => exact ⟨hrep, (forcePop_curRound r.pcb.tlt maxLen).trans h.round, h.pop⟩

end Steps

/-! ## What `tlt_is_lost` finds -/

section Lost

variable {r : TltRun} {L : List (Nat × Stretch U32)}

theorem old_iff (h : Queue 0 r.pcb.tlt.uimp L) (hd : Dated r (L.map Prod.snd))
    (he : r.echoes < 2 ^ 31) (x : U32) :
    r.Old x ↔ ∃ t, Gives (L.map Prod.snd) x.toNat t ∧ t.toNat + 2 < r.echoes := by
  have hrec : ∀ t, Recorded r.pcb.tlt.uimp x t ↔ Gives (L.map Prod.snd) x.toNat t := by
    intro t
    rw [h.recorded_iff, sub_zero]
  have hback : u32 x.toNat = x := by rw [u32, BitVec.ofNat_toNat, BitVec.setWidth_eq]
  constructor
  · rintro ⟨⟨t, ht⟩, k, hk, hold⟩
    rw [hrec] at ht
    obtain ⟨k', hk', rfl, hle⟩ := hd _ _ ht
    rw [hback, hk] at hk'
    obtain rfl := Option.some.inj hk'
    refine ⟨_, ht, ?_⟩
    rw [u32_toNat (by omega)]
    exact hold
  · rintro ⟨t, ht, hold⟩
    obtain ⟨k, hk, rfl, hle⟩ := hd _ _ ht
    rw [hback] at hk
    rw [u32_toNat (by omega)] at hold
    exact ⟨⟨_, (hrec _).mpr ht⟩, k, hk, hold⟩

theorem lt_round_iff {t : U32} {n : Nat} (h2 : 2 ≤ n) (hn : n < 2 ^ 31) :
    t < u32 n - 2 ↔ t.toNat + 2 < n := by
  have hsub : u32 n - 2 = u32 (n - 2) := u32_sub h2
  rw [hsub, BitVec.lt_def, u32_toNat (by omega)]
  omega

theorem lt_round_of_early {k n : Nat} (hk : k ≤ n) (hn : n < 2) : u32 k < u32 n - 2 := by
  interval_cases n <;> interval_cases k <;> decide

/-- **In every run that keeps the record right, `tlt_is_lost` and the forced path are exact just if nothing
is recorded, or two echoes have come and the head of the queue is old if any data is.** -/
theorem lossExact_iff {r₀ r : TltRun} (h0 : r₀.pcb.tlt = tltInit) (he0 : r₀.echoes = 0)
    (h : Reach TltRun.step Admitted r₀ r) (he : r.echoes < 2 ^ 31) :
    LossExact r ↔ (r.pcb.tlt.uimp.slot 0).len = 0 ∨
      2 ≤ r.echoes ∧ ((∃ x, r.Old x) → r.Old (r.pcb.tlt.uimp.slot 0).seq) := by
  have hdating : Dating r := by
    refine h.inv ⟨?_, ?_, [], ?_, Tidy.nil, ?_⟩ fun s a hs ha => hs.step ha
    · rw [h0]
      exact tltRep_init
    · rw [h0, he0]
      rfl
    · rw [h0]
      exact ⟨by simp, by simp, rfl, by simp, fun _ _ => rfl⟩
    · exact fun x t hx => absurd hx gives_nil
  obtain ⟨L, hQ, ht, hd⟩ := hdating.queue
  have hold := old_iff hQ hd he
  have hlost := hQ.isLost_iff
  rw [hdating.round] at hlost
  -- a block has a position, and a position a block
  have hgives : ∀ t, (∃ b ∈ L.map Prod.snd, b.tag = t) ↔ ∃ x : U32, Gives (L.map Prod.snd) x.toNat t := by
    intro t
    constructor
    · rintro ⟨b, hb, rfl⟩
      have hin := ht.proper b hb
      have htop := ht.below b hb
      refine ⟨u32 b.lo, b, hb, ?_, rfl⟩
      rw [u32_toNat (by omega)]
      exact ⟨le_rfl, hin⟩
    · rintro ⟨x, b, hb, -, htag⟩
      exact ⟨b, hb, htag⟩
  have hforce : 1 < forceLen r.pcb ↔ tltIsLost r.pcb.tlt false = true := by
    unfold forceLen
    split_ifs with hl
    · exact iff_of_true (by decide) hl
    · exact iff_of_false (by decide) hl
  by_cases hempty : (r.pcb.tlt.uimp.slot 0).len = 0
  · -- nothing is recorded
    have hnil : L = [] := by
      by_contra hne
      obtain ⟨⟨c, b⟩, post, rfl⟩ := List.exists_cons_of_ne_nil hne
      obtain rfl := hQ.head_eq
      exact hQ.block_head.len_ne_zero hempty
    subst hnil
    refine iff_of_true ⟨?_, ?_⟩ (.inl hempty)
    · rw [hlost]
      simp [hold]
    · rw [hforce, hlost]
      simp
  · obtain ⟨p, post, rfl⟩ := hQ.cons_of_head hempty
    by_cases h2 : 2 ≤ r.echoes
    · have hiff : tltIsLost r.pcb.tlt false = true ↔ ∃ x, r.Old x := by
        rw [hlost]
        constructor
        · rintro ⟨b, hb, hlt⟩
          rw [lt_round_iff h2 he] at hlt
          obtain ⟨x, hx⟩ := (hgives b.tag).mp ⟨b, hb, rfl⟩
          exact ⟨x, (hold x).mpr ⟨_, hx, hlt⟩⟩
        · rintro ⟨x, hx⟩
          obtain ⟨t, hgx, hlt⟩ := (hold x).mp hx
          obtain ⟨b, hb, rfl⟩ := (hgives t).mpr ⟨x, hgx⟩
          exact ⟨b, hb, (lt_round_iff h2 he).mpr hlt⟩
      constructor
      · intro hx
        exact .inr ⟨h2, fun hex => hx.forced (hforce.mpr (hiff.mpr hex))⟩
      · rintro (hz | ⟨-, hhead⟩)
        · exact absurd hz hempty
        · exact ⟨hiff, fun hf => hhead (hiff.mp (hforce.mp hf))⟩
    · -- everything recorded counts as lost, and nothing is old
      refine iff_of_false (fun hx => ?_) (by tauto)
      obtain ⟨x, hx1⟩ := (hgives p.tag).mp ⟨p, by simp, rfl⟩
      obtain ⟨k, -, hk, hle⟩ := hd _ _ hx1
      have hyes : tltIsLost r.pcb.tlt false = true := by
        rw [hlost]
        refine ⟨p, by simp, ?_⟩
        rw [hk]
        exact lt_round_of_early hle (by omega)
      obtain ⟨y, -, j, -, hj⟩ := hx.lost.mp hyes
      omega

end Lost

def lossStart : TltRun := ⟨tcpPcbInit {}, 0, fun _ => none⟩

def echoIn : TltAct := .receive ⟨0, 0, 5, {}, 0⟩ tltTosImpe

theorem lossStart_sent : Reach TltRun.step Admitted lossStart (lossStart.step (sendDot 0)) :=
  .next .start (sendDot 0) ⟨sendDot_typed 0, by decide +kernel, fun _ => ⟨by decide +kernel, trivial⟩⟩

theorem echoIn_admitted (r : TltRun) : Admitted r echoIn := by
  refine ⟨trivial, ?_, ?_⟩
  · intro hack
    cases hack
  · intro hack
    cases hack

/-- A byte is sent and three echoes come: the byte is old, and found to be lost. -/
theorem lossExact_threeEchoes :
    let r := (((lossStart.step (sendDot 0)).step echoIn).step echoIn).step echoIn
    tltIsLost r.pcb.tlt false = true ∧ LossExact r := by
  intro r
  have hr : Reach TltRun.step Admitted lossStart r :=
    .next (.next (.next lossStart_sent echoIn (echoIn_admitted _)) echoIn (echoIn_admitted _)) echoIn
      (echoIn_admitted _)
  have hold : r.Old (r.pcb.tlt.uimp.slot 0).seq :=
    ⟨⟨0, 0, .head (by decide +kernel), by decide +kernel, by decide +kernel⟩, 0, by decide +kernel,
      by decide +kernel⟩
  exact ⟨by decide +kernel,
    (lossExact_iff rfl rfl hr (by decide +kernel)).mpr (.inr ⟨by decide +kernel, fun _ => hold⟩)⟩

/-- Two bytes are sent, three echoes come, the token is sent with another byte, and the first byte is sent
once more. -/
def lossRun : List TltAct :=
  [sendDot 0, sendDot 1, echoIn, echoIn, echoIn, sendDot 2, sendDot 0]

/-- A byte that has just been sent counts as lost, and a full segment is retransmitted for it. Later, the
byte sent last is retransmitted with a full segment because another one is old. -/
theorem lossExact_fails :
    (Reach TltRun.step Admitted lossStart (lossStart.step (sendDot 0)) ∧
      ¬ LossExact (lossStart.step (sendDot 0))) ∧
    ¬ LossExact (lossRun.foldl TltRun.step lossStart) := by
  refine ⟨⟨lossStart_sent, fun h => ?_⟩, fun h => ?_⟩
  · obtain ⟨x, -, k, -, hk⟩ := h.lost.mp (by decide +kernel)
    exact absurd hk (Nat.not_lt_zero _)
  · obtain ⟨-, k, hk, hold⟩ := h.forced (by decide +kernel)
    have hlast : (lossRun.foldl TltRun.step lossStart).last
        ((lossRun.foldl TltRun.step lossStart).pcb.tlt.uimp.slot 0).seq = some 3 := by decide +kernel
    have hthree : (lossRun.foldl TltRun.step lossStart).echoes = 3 := by decide +kernel
    rw [hlast] at hk
    obtain rfl := Option.some.inj hk
    omega

end LibvmaTlt.Lwip
