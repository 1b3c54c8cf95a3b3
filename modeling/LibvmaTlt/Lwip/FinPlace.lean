import LibvmaTlt.Lwip.QueueSpec
import LibvmaTlt.Lwip.SndSpec

/-!
# Where the FIN stands

The FIN of a connection belongs behind the last byte that `tcp_write` accepted. A run is watched with
that position (`Sender.endSeq`). `finOrderly` says for each action when it keeps the FIN there; a split of
the segment with the FIN does not, since the flag stays on the first half (`fin_inside_data`).
-/

namespace LibvmaTlt.Lwip

open Serial

/-! ## The position of the FIN -/

/-- A connection with the sequence number after the last byte that `tcp_write` accepted. -/
structure Sender where
  conn : Conn
  endSeq : U32

def Sender.start (c : Conn) : Sender := ⟨c, c.pcb.sndLbb⟩

/-- The position after an action: a write that is accepted moves it. -/
def Sender.acceptedEnd (s : Sender) : Act → U32
  | .write env data false =>
    match tcpWrite env s.conn.pcb data false with
    | some (p, .ok) => p.sndLbb
    | _ => s.endSeq
  | _ => s.endSeq

def Sender.step (s : Sender) (a : Act) : Sender :=
  if s.conn.fault then s else ⟨s.conn.act a, s.acceptedEnd a⟩

/-- The segments handed to `ip_output`, in order. -/
def Conn.sentSegs (c : Conn) : List TcpSeg := c.sent.filterMap Sent.seg

/-- If `f` carries the FIN, all payload of `s` comes before it. -/
def FinLast (f s : TcpSeg) : Prop :=
  f.flags.fin = true → ∀ k < s.len, TcpSeqLt (s.seqno + u32 k) f.dataEnd

/-- A FIN stands behind the last accepted byte, and no payload at or after it follows, in the queues or
on the wire. -/
structure FinPlaced (s : Sender) : Prop where
  queued : ∀ t, t ∈ s.conn.pcb.unsent ∨ t ∈ s.conn.pcb.unacked → t.flags.fin = true →
    t.dataEnd = s.endSeq
  sent : ∀ t ∈ s.conn.sentSegs, t.flags.fin = true → t.dataEnd = s.endSeq
  unsentOrder : s.conn.pcb.unsent.Pairwise FinLast
  unackedOrder : s.conn.pcb.unacked.Pairwise FinLast
  sentOrder : s.conn.sentSegs.Pairwise FinLast

/-! ## The invariant -/

/-- What holds of a connection whose accepted data ends at `e`. Dummy segments are queued only before
the FIN is. -/
structure FinInv (e : U32) (c : Conn) : Prop where
  real : ∀ t, t ∈ c.pcb.unsent ∨ t ∈ c.pcb.unacked → t.isDummy = false →
    Below e t ∧ (t.flags.fin = true → t.dataEnd = e)
  unackedReal : ∀ t ∈ c.pcb.unacked, t.isDummy = false
  phase : ((∀ t, t ∈ c.pcb.unsent ∨ t ∈ c.pcb.unacked → t.flags.fin = false) ∧
      ∀ t ∈ c.sentSegs, t.flags.fin = false) ∨
    (¬Writable c.pcb.state ∧ ∀ t ∈ c.pcb.unsent, t.isDummy = false)
  sent : ∀ t ∈ c.sentSegs, t.flags.fin = true → t.dataEnd = e
  order : c.sentSegs.Pairwise fun f t => f.flags.fin = true → Below e t

variable {e wnd : U32} {env : Env} {p pcb : Pcb} {data : List U8} {seg t : TcpSeg}

namespace FinInv

variable {e : U32} {c c' : Conn}

theorem of_fin (h : FinInv e c) {f : TcpSeg}
    (hf : (f ∈ c.pcb.unsent ∨ f ∈ c.pcb.unacked) ∨ f ∈ c.sentSegs) (hfin : f.flags.fin = true)
    (ht : t ∈ c.pcb.unsent ∨ t ∈ c.pcb.unacked) : Below e t ∧ (t.flags.fin = true → t.dataEnd = e) := by
  rcases h.phase with ⟨hq, hs⟩ | ⟨-, hd⟩
  · rcases hf with hf | hf
    · exact nomatch hfin.symm.trans (hq f hf)
    · exact nomatch hfin.symm.trans (hs f hf)
  · exact h.real t ht (ht.elim (hd t) (h.unackedReal t))

theorem finLast {f : TcpSeg} (h : Below e t) (hf : f.flags.fin = true → f.dataEnd = e) :
    FinLast f t := by
  intro hfin k hk
  rw [hf hfin]
  exact h.lt hk

theorem placed (h : FinInv e c) : FinPlaced ⟨c, e⟩ where
  queued t ht hfin := (h.of_fin (.inl ht) hfin ht).2 hfin
  sent := h.sent
  unsentOrder := by
    refine List.pairwise_of_forall_mem_list fun f hf t ht hfin => ?_
    have hb := (h.of_fin (.inl (.inl hf)) hfin (.inl ht)).1
    exact finLast hb (h.of_fin (.inl (.inl hf)) hfin (.inl hf)).2 hfin
  unackedOrder := by
    refine List.pairwise_of_forall_mem_list fun f hf t ht hfin => ?_
    have hb := (h.of_fin (.inl (.inr hf)) hfin (.inr ht)).1
    exact finLast hb (h.of_fin (.inl (.inr hf)) hfin (.inr hf)).2 hfin
  sentOrder := by
    refine h.order.imp_of_mem fun {f t} hf _ hb hfin => ?_
    exact finLast (hb hfin) (h.sent f hf) hfin

end FinInv

/-! ## Steps that queue and send nothing -/

structure Fewer (c c' : Conn) : Prop where
  unsent : ∀ t ∈ c'.pcb.unsent, t ∈ c.pcb.unsent ∨ t ∈ c.pcb.unacked
  unacked : ∀ t ∈ c'.pcb.unacked, t ∈ c.pcb.unacked
  sent : c'.sentSegs = c.sentSegs
  writable : Writable c'.pcb.state → Writable c.pcb.state

variable {c c' : Conn}

theorem FinInv.fewer (h : FinInv e c) (hf : Fewer c c') : FinInv e c' := by
  have hmem (t : TcpSeg) (ht : t ∈ c'.pcb.unsent ∨ t ∈ c'.pcb.unacked) :
      t ∈ c.pcb.unsent ∨ t ∈ c.pcb.unacked := ht.elim (hf.unsent t) fun h => .inr (hf.unacked t h)
  refine ⟨fun t ht => h.real t (hmem t ht), fun t ht => h.unackedReal t (hf.unacked t ht), ?_, ?_, ?_⟩
  · rcases h.phase with ⟨hq, hs⟩ | ⟨hw, hd⟩
    · exact .inl ⟨fun t ht => hq t (hmem t ht), fun t ht => hs t (hf.sent ▸ ht)⟩
    · exact .inr ⟨fun h => hw (hf.writable h), fun t ht => (hf.unsent t ht).elim (hd t) (h.unackedReal t)⟩
  · rw [hf.sent]
    exact h.sent
  · rw [hf.sent]
    exact h.order

theorem sentSegs_append {l : List Sent} (h : c'.sent = c.sent ++ l) (hl : ∀ s ∈ l, s.seg = none) :
    c'.sentSegs = c.sentSegs := by
  have hnil : l.filterMap Sent.seg = [] := List.filterMap_eq_nil_iff.mpr hl
  rw [Conn.sentSegs, h, List.filterMap_append, hnil, List.append_nil]
  rfl

def From (pcb : Pcb) (q : SndCore) : Prop :=
  (∀ t ∈ q.unsent, t ∈ pcb.unsent ∨ t ∈ pcb.unacked) ∧ ∀ t ∈ q.unacked, t ∈ pcb.unacked

namespace From

variable {pcb : Pcb} {q : SndCore}

theorem refl (pcb : Pcb) : From pcb pcb.sndCore := ⟨fun _ ht => .inl ht, fun _ ht => ht⟩

theorem rexmit (h : From pcb q) : From pcb q.rexmit := by
  unfold SndCore.rexmit
  split
  · exact h
  rename_i seg rest hu
  have hrest (t : TcpSeg) (ht : t ∈ seg :: rest) : t ∈ pcb.unacked := h.2 t (by rw [hu]; exact ht)
  refine ⟨fun t ht => ?_, fun t ht => hrest t (List.mem_cons_of_mem _ ht)⟩
  rcases mem_insertSorted.mp ht with rfl | ht
  · exact .inr (hrest t List.mem_cons_self)
  · exact h.1 t ht

theorem requeue (h : From pcb q) : From pcb q.requeue := by
  unfold SndCore.requeue
  split
  · exact h
  · refine ⟨fun t ht => ?_, fun t ht => absurd ht List.not_mem_nil⟩
    exact (List.mem_append.mp ht).elim (fun h' => .inr (h.2 t h')) (h.1 t)

theorem purged : From pcb q.purged :=
  ⟨fun _ ht => absurd ht List.not_mem_nil, fun _ ht => absurd ht List.not_mem_nil⟩

theorem ackCore (pcb : Pcb) (d : InData) (rex : Bool) : From pcb (pcb.ackCore d rex) := by
  refine ackCore_inv (I := From pcb) ?_ (fun q h => h.rexmit) ?_ ?_ ?_ (.refl pcb) rex
  · exact fun q h => ⟨h.1, fun t ht => h.2 t (List.mem_filter.mp ht).1⟩
  · exact fun q h => ⟨h.1, fun t ht => h.2 t (List.dropWhile_subset _ ht)⟩
  · exact fun q h => ⟨h.1, fun t ht => h.2 t (List.dropWhile_subset _ ht)⟩
  · exact fun q h => ⟨fun t ht => h.1 t (List.dropWhile_subset _ ht), h.2⟩

theorem fewer (h : From c.pcb c'.pcb.sndCore) (hs : c'.sentSegs = c.sentSegs)
    (hw : Writable c'.pcb.state → Writable c.pcb.state) : Fewer c c' := ⟨h.1, h.2, hs, hw⟩

end From

theorem InputCore.fewer {pkt : InPkt} (h : InputCore env pkt c c') : Fewer c c' := by
  obtain ⟨l, hl, hn⟩ := h.sent
  refine From.fewer ?_ (sentSegs_append hl hn) h.writable
  rcases h.core with he | ⟨⟨a, he⟩, -⟩ | ⟨p, sack, rex, -, -, he⟩
  · rw [he]
    exact .refl _
  · rw [he]
    exact From.purged (q := c.pcb.sndCore)
  · rw [he]
    exact .ackCore _ _ _

theorem Upkeep.fewer (h : Upkeep c c') : Fewer c c' := by
  obtain ⟨l, hl, hn⟩ := h.sent
  obtain ⟨q, hq, hcase⟩ := h.core
  have hfrom : From c.pcb q := by
    rcases hcase with rfl | rfl | rfl | ⟨rfl, -⟩
    · exact .refl _
    · exact (From.refl _).rexmit
    · exact (From.refl _).requeue
    · exact .purged
  refine From.fewer ?_ (sentSegs_append hl hn) fun hw => ?_
  · rw [hq]
    exact hfrom
  · rcases h.state with hs | hs
    · exact hs ▸ hw
    · exact absurd hw hs.not_writable

/-! ## `tcp_write` -/

/-- A write of stream data that keeps the queue in order: `snd_lbb` counts no dummy data, the last unsent
segment is real and ends at `snd_lbb`, and what is queued stays within half the number space. -/
structure WriteOk (s : Sender) (len : Nat) : Prop where
  lbb : s.conn.pcb.sndLbb = s.endSeq
  room : WriteRoom s.conn.pcb len false
  small : 2 * len < 4294967296
  tail : ∀ last ∈ s.conn.pcb.unsent.getLast?, last.isDummy = false ∧
    last.dataEnd = s.conn.pcb.sndLbb ∧ 2 * (last.len + len) < 4294967296
  near : ∀ t ∈ s.conn.pcb.unsent ++ s.conn.pcb.unacked, Below (s.conn.pcb.sndLbb + u32 len) t

/-- A write of dummy data goes behind nothing or behind dummy data. -/
structure DummyOk (pcb : Pcb) (len : Nat) : Prop where
  room : WriteRoom pcb len true
  tail : ∀ last ∈ pcb.unsent.getLast?, last.isDummy = true

theorem Wrote.mem {o : SegOpts} {len : Nat} (h : Wrote pcb o len p) (ht : t ∈ p.unsent) :
    t ∈ pcb.unsent ∨
      (∃ last k, pcb.unsent.getLast? = some last ∧ Extends last t k ∧ k ≤ len) ∨
      ∃ l k, t ∈ l ∧ k ≤ len ∧ NewData pcb o (pcb.sndLbb + u32 k) (len - k) l := by
  rcases h.unsent with ⟨-, hnew, -⟩ | ⟨last, last', k, l, hlast, hext, hk, hu, hnew, -⟩
  · refine .inr (.inr ⟨p.unsent, 0, ht, Nat.zero_le _, ?_⟩)
    rw [BitVec.add_zero, Nat.sub_zero]
    exact hnew
  rw [hu] at ht
  rcases List.mem_append.mp ht with ht | ht
  · rcases mem_replaceSeg ht with rfl | ht
    · exact .inr (.inl ⟨last, k, hlast, hext, hk⟩)
    · exact .inl ht
  · exact .inr (.inr ⟨l, k, ht, hk, hnew⟩)

theorem writable_of_tcpWrite {isDummy : Bool} (h : tcpWrite env pcb data isDummy = some (p, .ok))
    (hs : Synchronized pcb) : Writable pcb.state := by
  by_contra hw
  have hst : pcb.state ≠ .established ∧ pcb.state ≠ .closeWait := by
    unfold Writable at hw
    tauto
  have hsyn : pcb.state ≠ .synSent ∧ pcb.state ≠ .synRcvd := by
    unfold Synchronized at hs
    constructor <;> intro he <;> rw [he] at hs <;> simp [TcpState.num] at hs
  have hchk : tcpWriteChecks (pcb.setSmlAdd data.length isDummy) data.length =
      (pcb.setSmlAdd data.length isDummy, .conn) := if_pos ⟨hst.1, hst.2, hsyn.1, hsyn.2⟩
  unfold tcpWrite at h
  simp only [hchk] at h
  cases h

namespace FinInv

variable {e : U32} {c : Conn}

theorem finless (h : FinInv e c) (hw : Writable c.pcb.state) :
    (∀ t, t ∈ c.pcb.unsent ∨ t ∈ c.pcb.unacked → t.flags.fin = false) ∧
      ∀ t ∈ c.sentSegs, t.flags.fin = false :=
  h.phase.resolve_right fun hc => hc.1 hw

theorem of_finless {e' : U32} (h : FinInv e c) (hw : Writable c.pcb.state)
    (hun : c'.pcb.unacked = c.pcb.unacked) (hsent : c'.sent = c.sent)
    (hreal : ∀ t, t ∈ c'.pcb.unsent ∨ t ∈ c'.pcb.unacked → t.isDummy = false → Below e' t)
    (hfin : ∀ t ∈ c'.pcb.unsent, t.flags.fin = false) : FinInv e' c' := by
  obtain ⟨hq, hs⟩ := h.finless hw
  have hsegs : c'.sentSegs = c.sentSegs := by rw [Conn.sentSegs, hsent]; rfl
  have hno (t : TcpSeg) (ht : t ∈ c'.pcb.unsent ∨ t ∈ c'.pcb.unacked) : t.flags.fin = false :=
    ht.elim (hfin t) fun ht => hq t (.inr (hun ▸ ht))
  refine ⟨fun t ht hd => ⟨hreal t ht hd, fun hf => nomatch hf.symm.trans (hno t ht)⟩,
    fun t ht => h.unackedReal t (hun ▸ ht), .inl ⟨hno, fun t ht => hs t (hsegs ▸ ht)⟩, ?_, ?_⟩
  · rw [hsegs]
    exact fun t ht hf => nomatch hf.symm.trans (hs t ht)
  · rw [hsegs]
    exact h.order.imp_of_mem fun {f t} hf _ _ hfin => nomatch hfin.symm.trans (hs f hf)

theorem wrote_finless (h : FinInv e c) (hw : Writable c.pcb.state) {o : SegOpts} {len : Nat}
    (hp : Wrote c.pcb o len p) : ∀ t ∈ p.unsent, t.flags.fin = false := by
  intro t ht
  have hq := (h.finless hw).1
  rcases hp.mem ht with ht | ⟨last, k, hl, hext, -⟩ | ⟨l, k, ht, -, hnew⟩
  · exact hq t (.inl ht)
  · rw [hext.fin]
    exact hq last (.inl (List.mem_of_getLast? hl))
  · exact (hnew.plain t ht).1

end FinInv

variable {s : Sender}

theorem write_fin (h : FinInv s.endSeq s.conn) (hs : Synchronized s.conn.pcb)
    (hok : WriteOk s data.length) (hp : tcpWrite env s.conn.pcb data false = some (p, .ok)) :
    FinInv p.sndLbb { s.conn with pcb := p } := by
  have hw := writable_of_tcpWrite hp hs
  have hwrote := tcpWrite_wrote hp hok.room
  refine h.of_finless hw hwrote.unacked rfl (fun t ht hd => ?_) (h.wrote_finless hw hwrote)
  rw [hwrote.sndLbb]
  rcases ht with ht | ht
  · rcases hwrote.mem ht with ht | ⟨last, k, hl, hext, hk⟩ | ⟨l, k, ht, hk, hnew⟩
    · exact hok.near t (List.mem_append_left _ ht)
    · obtain ⟨-, hend, hsmall⟩ := hok.tail last hl
      have he : s.conn.pcb.sndLbb + u32 data.length = last.seqno + u32 (last.len + data.length) := by
        rw [← hend, TcpSeg.dataEnd, BitVec.add_assoc, ← BitVec.ofNat_add]
      rw [he, Below, hext.seqno, hext.len]
      exact (Before.self _ hsmall).take (by omega)
    · have he : s.conn.pcb.sndLbb + u32 data.length =
          s.conn.pcb.sndLbb + u32 k + u32 (data.length - k) := by
        rw [BitVec.add_assoc, ← BitVec.ofNat_add, Nat.add_sub_cancel' hk]
      have hsmall := hok.small
      rw [he]
      exact hnew.tiles.below (by omega) t ht
  · exact hok.near t (List.mem_append_right _ (hwrote.unacked ▸ ht))

theorem write_dummy_fin (h : FinInv e c) (hs : Synchronized c.pcb) (hok : DummyOk c.pcb data.length)
    (hp : tcpWrite env c.pcb data true = some (p, .ok)) : FinInv e { c with pcb := p } := by
  have hw := writable_of_tcpWrite hp hs
  have hwrote := tcpWrite_wrote hp hok.room
  refine h.of_finless hw hwrote.unacked rfl (fun t ht hd => ?_) (h.wrote_finless hw hwrote)
  rcases ht with ht | ht
  · rcases hwrote.mem ht with ht | ⟨last, k, hl, hext, -⟩ | ⟨l, k, ht, -, hnew⟩
    · exact (h.real t (.inl ht) hd).1
    · rw [TcpSeg.isDummy, hext.opts] at hd
      cases hd.symm.trans (hok.tail last hl)
    · rw [TcpSeg.isDummy, (hnew.plain t ht).2.2] at hd
      cases hd
  · exact (h.real t (.inr (hwrote.unacked ▸ ht)) hd).1

/-! ## Closing -/

/-- A close that puts the FIN in its place: no dummy data is queued or counted, and the last unsent
segment ends at `snd_lbb`. -/
structure CloseOk (s : Sender) : Prop where
  lbb : s.conn.pcb.sndLbb = s.endSeq
  real : ∀ t ∈ s.conn.pcb.unsent, t.isDummy = false
  tail : ∀ last ∈ s.conn.pcb.unsent.getLast?, last.dataEnd = s.conn.pcb.sndLbb

theorem closeFin_fin (env : Env) {next : TcpState} (h : FinInv s.endSeq s.conn)
    (hw : Writable s.conn.pcb.state) (hok : CloseOk s) (hnext : ¬Writable next) :
    FinInv s.endSeq (closeFin env next s.conn).1 := by
  obtain ⟨hq, hs⟩ := h.finless hw
  -- every segment but the one with the FIN was there before
  have key {p : Pcb} (hun : p.unacked = s.conn.pcb.unacked)
      (hmem : ∀ t ∈ p.unsent, t ∈ s.conn.pcb.unsent ∨
        (t.isDummy = false ∧ Below s.endSeq t ∧ t.dataEnd = s.endSeq)) :
      FinInv s.endSeq { s.conn with pcb := p.setState next } := by
    have hplaced (t : TcpSeg) (ht : t ∈ p.unsent ∨ t ∈ p.unacked) (hd : t.isDummy = false) :
        Below s.endSeq t ∧ (t.flags.fin = true → t.dataEnd = s.endSeq) := by
      rcases ht with ht | ht
      · rcases hmem t ht with ht | ⟨-, hb, he⟩
        · exact h.real t (.inl ht) hd
        · exact ⟨hb, fun _ => he⟩
      · exact h.real t (.inr (hun ▸ ht)) hd
    exact ⟨hplaced, fun t ht => h.unackedReal t (hun ▸ ht),
      .inr ⟨hnext, fun t ht => (hmem t ht).elim (hok.real t) fun h => h.1⟩, h.sent, h.order⟩
  unfold closeFin
  simp only
  rcases tcpSendFin_cases env s.conn.pcb with ⟨q, he, hne⟩ | he | ⟨init, l, hinit, he⟩
  · rw [he, if_neg hne]
    exact h.fewer ⟨fun t ht => .inl ht, fun t ht => ht, rfl, id⟩
  · rw [he, if_pos rfl]
    refine key (p := (s.conn.pcb.queueFin (finSegment env s.conn.pcb)).setFin) rfl fun t ht => ?_
    rcases List.mem_append.mp ht with ht | ht
    · exact .inl ht
    rw [List.mem_singleton.mp ht]
    have hlen : (finSegment env s.conn.pcb).len = 0 := by
      show u16 (lwipTcpOptLength s.conn.pcb s.conn.pcb.dataOpts + 65536 -
        lwipTcpOptLength s.conn.pcb s.conn.pcb.dataOpts) = 0
      rw [Nat.add_sub_cancel_left]
      rfl
    have hseq : (finSegment env s.conn.pcb).seqno = s.endSeq := hok.lbb
    refine .inr ⟨rfl, ?_, ?_⟩
    · rw [Below, hlen, hseq]
      simp [Before]
    · rw [TcpSeg.dataEnd, hlen, hseq, BitVec.add_zero]
  · rw [he, if_pos rfl]
    refine key (p := (s.conn.pcb.setUnsent (init ++ [l.setFin])).setFin) rfl fun t ht => ?_
    have hl : l ∈ s.conn.pcb.unsent := by rw [hinit]; simp
    rcases List.mem_append.mp ht with ht | ht
    · exact .inl (by rw [hinit]; exact List.mem_append_left _ ht)
    rw [List.mem_singleton.mp ht]
    refine .inr ⟨hok.real l hl, (h.real l (.inl hl) (hok.real l hl)).1, ?_⟩
    show l.dataEnd = s.endSeq
    rw [← hok.lbb]
    exact hok.tail l (by rw [hinit]; simp)

theorem tcpCloseShutdown_fin (env : Env) (rst : Bool) (h : FinInv s.endSeq s.conn)
    (hs : Synchronized s.conn.pcb) (hok : Writable s.conn.pcb.state → CloseOk s) :
    FinInv s.endSeq (tcpCloseShutdown env rst s.conn).1 := by
  unfold tcpCloseShutdown
  split
  · -- a reset is sent instead, and the queues are dropped
    rename_i hst
    have hr := tcpRst_silent env 0 s.conn.pcb.sndNxt s.conn.pcb.rcvNxt s.conn
    have hrs : (tcpRst env 0 s.conn.pcb.sndNxt s.conn.pcb.rcvNxt s.conn).pcb = s.conn.pcb := by
      unfold tcpRst
      split <;> rfl
    obtain ⟨l, hl, hn⟩ := hr.sent
    generalize tcpRst env 0 s.conn.pcb.sndNxt s.conn.pcb.rcvNxt s.conn = c1 at hrs hl ⊢
    refine h.fewer (From.fewer ?_ (sentSegs_append (l := l) ?_ hn) fun _ => hst.2.1)
    · have hfrom : From s.conn.pcb (tcpPcbPurge c1).pcb.sndCore := by
        rcases tcpPcbPurge_core c1 with he | he
        · rw [he, hrs]
          exact .refl _
        · rw [he]
          exact .purged
      split
      · exact hfrom
      · exact hfrom
    · rw [← hl]
      exact (tcpPcbPurge_same c1).1
  · unfold Synchronized at hs
    cases hst : s.conn.pcb.state with
    | established => exact closeFin_fin env h (.inl hst) (hok (.inl hst)) (by decide)
    | closeWait => exact closeFin_fin env h (.inr hst) (hok (.inr hst)) (by decide)
    | listen | synSent | synRcvd => rw [hst] at hs; simp [TcpState.num] at hs
    | closed | finWait1 | finWait2 | closing | lastAck | timeWait => exact h

/-! ## `tcp_output` -/

/-- The segment that the loop may split: nothing before it comes to `unacked`. -/
def splitCandidate (l : List TcpSeg) : Option TcpSeg := l.find? fun t => !t.isDummy && 0 < t.tcplen

/-- The loop does not split the segment with the FIN, and what it splits it splits at the right place. -/
def SplitOk (pcb : Pcb) (wnd : U32) : Prop :=
  pcb.unacked ≠ [] ∨ ∀ t ∈ splitCandidate pcb.unsent,
    fitsWnd pcb t wnd = true ∨ wnd ≤ t.seqno - pcb.lastack ∨ (t.flags.fin = false ∧ Splittable pcb t)

instance (pcb : Pcb) (wnd : U32) : Decidable (SplitOk pcb wnd) := inferInstanceAs (Decidable (_ ∨ _))

theorem splitCandidate_cons (t : TcpSeg) (l : List TcpSeg) :
    splitCandidate (t :: l) = if t.isDummy = false ∧ 0 < t.tcplen then some t else splitCandidate l := by
  unfold splitCandidate
  rw [List.find?_cons]
  by_cases h : t.isDummy = false ∧ 0 < t.tcplen
  · rw [if_pos h, h.1, decide_eq_true h.2]
    rfl
  rw [if_neg h]
  have hno : (!t.isDummy && decide (0 < t.tcplen)) = false := by
    simp only [not_and, Nat.not_lt] at h
    cases hd : t.isDummy with
    | true => rfl
    | false => simp [h hd]
  rw [hno]

theorem SplitOk.congr {p' : Pcb} (hs : p'.toSndVars = p.toSndVars) (hr : p'.toRcvVars = p.toRcvVars)
    (ht : p'.flags.timestamp = p.flags.timestamp) (hu : p.unacked ≠ [] → p'.unacked ≠ [])
    (hc : p'.unacked ≠ [] ∨ splitCandidate p'.unsent = splitCandidate p.unsent) (h : SplitOk p wnd) :
    SplitOk p' wnd := by
  rcases hc with hc | hc
  · exact .inl hc
  rcases h with h | h
  · exact .inl (hu h)
  refine .inr fun t hm => ?_
  have hopt : lwipTcpOptLength p' p'.dataOpts = lwipTcpOptLength p p.dataOpts := by
    unfold lwipTcpOptLength Pcb.dataOpts
    rw [ht, hr]
  have hfits : fitsWnd p' t wnd = fitsWnd p t wnd := by
    unfold fitsWnd
    rw [hs]
  have hsplit : Splittable p' t ↔ Splittable p t := by
    unfold Splittable
    rw [hopt]
  rw [hfits, hsplit, hs]
  exact h t (hc ▸ hm)

theorem FinInv.queue (h : FinInv e c) (hna : p.unacked = c.pcb.unacked) (hst : p.state = c.pcb.state)
    (hmem : ∀ t ∈ p.unsent, t ∈ c.pcb.unsent ∨ (t.flags.fin = false ∧ (t.isDummy = false → Below e t) ∧
      ((∀ u ∈ c.pcb.unsent, u.isDummy = false) → t.isDummy = false))) :
    FinInv e { c with pcb := p } := by
  refine ⟨fun t ht hd => ?_, fun t ht => h.unackedReal t (hna ▸ ht), ?_, h.sent, h.order⟩
  · rcases ht with ht | ht
    · rcases hmem t ht with ht | ⟨hf, hb, -⟩
      · exact h.real t (.inl ht) hd
      · exact ⟨hb hd, fun hfin => nomatch hfin.symm.trans hf⟩
    · exact h.real t (.inr (hna ▸ ht)) hd
  · rcases h.phase with ⟨hq, hs⟩ | ⟨hw, hreal⟩
    · refine .inl ⟨fun t ht => ?_, hs⟩
      rcases ht with ht | ht
      · exact (hmem t ht).elim (fun ht => hq t (.inl ht)) fun hnew => hnew.1
      · exact hq t (.inr (hna ▸ ht))
    · exact .inr ⟨hst ▸ hw, fun t ht => (hmem t ht).elim (hreal t) fun hnew => hnew.2.2 hreal⟩

theorem FinInv.split {a b : TcpSeg} {rest : List TcpSeg} (h : FinInv e c)
    (hu : c.pcb.unsent = seg :: rest) (hp : p.unsent = a :: b :: rest) (hna : p.unacked = c.pcb.unacked)
    (hst : p.state = c.pcb.state) (hd : a.isDummy = seg.isDummy ∧ b.isDummy = seg.isDummy)
    (hf : a.flags.fin = false ∧ b.flags.fin = false) (hb : seg.isDummy = false → Below e a ∧ Below e b)
    : FinInv e { c with pcb := p } := by
  refine h.queue hna hst fun t ht => ?_
  rw [hp] at ht
  rw [hu]
  rcases List.mem_cons.mp ht with rfl | ht
  · exact .inr ⟨hf.1, fun hr => (hb (hd.1 ▸ hr)).1, fun hreal => hd.1.trans (hreal seg List.mem_cons_self)⟩
  · rcases List.mem_cons.mp ht with rfl | ht
    · exact .inr ⟨hf.2, fun hr => (hb (hd.2 ▸ hr)).2, fun hreal => hd.2.trans (hreal seg List.mem_cons_self)⟩
    · exact .inl (List.mem_cons_of_mem _ ht)

theorem lts_lt_len (hoff : seg.seqno - pcb.lastack < wnd) (hfit : fitsWnd pcb seg wnd = false) :
    0 < (wnd - (seg.seqno - pcb.lastack)).toNat ∧ (wnd - (seg.seqno - pcb.lastack)).toNat < seg.len := by
  unfold fitsWnd at hfit
  rw [decide_eq_false_iff_not] at hfit
  constructor
  · bv_omega
  · by_contra hle
    exact hfit (add_le_wnd hoff (Nat.not_lt.mp hle))

theorem splitHead_fin {force : Bool} (n : Nat) (h : FinInv e c)
    (hok : force = false → SplitOk c.pcb wnd) :
    FinInv e { c with pcb := splitHead env force wnd n c.pcb } ∧
      (force = false → SplitOk (splitHead env force wnd n c.pcb) wnd) := by
  rcases splitHead_unsent env force wnd n c.pcb with he | ⟨seg, rest, s, hu, hna, hforce, hoff, hfit, hs, he⟩
  · rw [he]
    exact ⟨h, hok⟩
  rw [he]
  have hseg : seg ∈ c.pcb.unsent := by rw [hu]; exact List.mem_cons_self
  obtain ⟨hfa, -, hfb, hoa, hob, -⟩ := splitCut_frame hs
  obtain ⟨hlts, hlen⟩ := lts_lt_len hoff hfit
  have hdum : s.seg.isDummy = seg.isDummy ∧ s.newseg.isDummy = seg.isDummy :=
    ⟨congrArg SegOpts.dummy hoa, congrArg SegOpts.dummy hob⟩
  cases hd : seg.isDummy with
  | true =>
    -- dummies are split before the FIN is queued
    have hnofin : seg.flags.fin = false := by
      rcases h.phase with ⟨hq, -⟩ | ⟨-, hreal⟩
      · exact hq seg (.inl hseg)
      · exact nomatch hd.symm.trans (hreal seg hseg)
    refine ⟨h.split hu rfl rfl rfl hdum ⟨by rw [hfa, hnofin], hfb⟩ (fun hr => ?_), fun hf => ?_⟩
    · exact nomatch hd.symm.trans hr
    · refine SplitOk.congr (p := c.pcb) rfl rfl rfl id (.inr ?_) (hok hf)
      show splitCandidate (s.seg :: s.newseg :: rest) = splitCandidate c.pcb.unsent
      rw [hu, splitCandidate_cons, splitCandidate_cons, splitCandidate_cons, hdum.1, hdum.2, hd]
      simp
  | false =>
    have hcand : splitCandidate c.pcb.unsent = some seg := by
      have hpos : 0 < seg.tcplen := by
        unfold TcpSeg.tcplen
        omega
      rw [hu, splitCandidate_cons, if_pos ⟨hd, hpos⟩]
    rcases hok hforce with hne | hall
    · exact absurd hna hne
    rcases hall seg hcand with hfits | hwnd | ⟨hnofin, hsplit⟩
    · exact nomatch hfits.symm.trans hfit
    · exact absurd hoff (BitVec.not_lt.mpr hwnd)
    have hh := splitCut_halves hs hsplit hlts hlen
    obtain ⟨hseqa, hseqb⟩ := hh.seqno
    obtain ⟨hpos, hsum, hle⟩ := hh.len
    have hbelow := (h.real seg (.inl hseg) hd).1
    refine ⟨h.split hu rfl rfl rfl hdum ⟨by rw [hfa, hnofin], hfb⟩ fun _ => ⟨?_, ?_⟩,
      fun _ => .inr fun t ht => .inl ?_⟩
    · rw [Below, hseqa]
      exact hbelow.take (by omega)
    · rw [Below, hseqb]
      exact (hbelow.drop (k := s.seg.len) (by omega)).take (by omega)
    · -- the first half is what the loop looks at next, and it fits
      have hc : splitCandidate (c.pcb.splitInto seg rest s).unsent = some s.seg := by
        show splitCandidate (s.seg :: s.newseg :: rest) = some s.seg
        have hpos' : 0 < s.seg.tcplen := by
          unfold TcpSeg.tcplen
          omega
        rw [splitCandidate_cons, if_pos ⟨hdum.1.trans hd, hpos'⟩]
      obtain rfl : s.seg = t := Option.some.inj (hc.symm.trans ht)
      unfold fitsWnd
      rw [hseqa]
      exact decide_eq_true (add_le_wnd hoff hle)

theorem sendHead_fin {force : Bool} (n : Nat) {rest : List TcpSeg} (hu : c.pcb.unsent = seg :: rest)
    (h : FinInv e c) (hok : force = false → SplitOk c.pcb wnd) :
    FinInv e (sendHead env force n c seg rest) ∧
      (force = false → SplitOk (sendHead env force n c seg rest).pcb wnd) := by
  obtain ⟨pass⟩ := sendHead_pass env force n c seg rest
  generalize sendHead env force n c seg rest = c' at pass ⊢
  obtain ⟨hunsent, hstate, hunacked⟩ := pass.queues
  obtain ⟨hsnd, hrcv, htime⟩ := pass.same
  obtain ⟨-, hseq, hlen, -, hopts, htcp⟩ := pass.out_seg
  have hfin : pass.out.flags.fin = seg.flags.fin := by
    obtain ⟨fl, tos, ho, hf, -⟩ := pass.out_eq
    rw [ho]
    exact hf
  have hseg : seg ∈ c.pcb.unsent := by rw [hu]; exact List.mem_cons_self
  have hrest {t : TcpSeg} (ht : t ∈ c'.pcb.unsent) : t ∈ c.pcb.unsent := by
    rw [hu]
    exact List.mem_cons_of_mem _ (hunsent ▸ ht)
  have hsegs : c'.sentSegs = c.sentSegs ++ [pass.out] := by
    have hnil : pass.acks.filterMap Sent.seg = [] := List.filterMap_eq_nil_iff.mpr pass.acks_seg
    rw [Conn.sentSegs, pass.sent_eq, List.filterMap_append, List.filterMap_append, hnil, List.append_nil]
    rfl
  -- the segment as it went out is in the place of the segment
  have hout (hb : Below e seg ∧ (seg.flags.fin = true → seg.dataEnd = e)) :
      Below e pass.out ∧ (pass.out.flags.fin = true → pass.out.dataEnd = e) := by
    rw [Below, TcpSeg.dataEnd, hseq, hlen, hfin]
    exact hb
  constructor
  · refine ⟨fun t ht hd => ?_, fun t ht => ?_, ?_, ?_, ?_⟩
    · rcases ht with ht | ht
      · exact h.real t (.inl (hrest ht)) hd
      · rcases hunacked t ht with ht | ⟨rfl, hd'⟩
        · exact h.real t (.inr ht) hd
        · exact hout (h.real seg (.inl hseg) hd')
    · rcases hunacked t ht with ht | ⟨rfl, hd'⟩
      · exact h.unackedReal t ht
      · rw [TcpSeg.isDummy, hopts]
        exact hd'
    · rcases h.phase with ⟨hq, hs⟩ | ⟨hw, hreal⟩
      · have hof : pass.out.flags.fin = false := hfin.trans (hq seg (.inl hseg))
        refine .inl ⟨fun t ht => ?_, fun t ht => ?_⟩
        · rcases ht with ht | ht
          · exact hq t (.inl (hrest ht))
          · rcases hunacked t ht with ht | ⟨rfl, -⟩
            · exact hq t (.inr ht)
            · exact hof
        · rw [hsegs] at ht
          rcases List.mem_append.mp ht with ht | ht
          · exact hs t ht
          · rw [List.mem_singleton.mp ht]
            exact hof
      · exact .inr ⟨by rw [hstate]; exact hw, fun t ht => hreal t (hrest ht)⟩
    · intro t ht hft
      rw [hsegs] at ht
      rcases List.mem_append.mp ht with ht | ht
      · exact h.sent t ht hft
      · rw [List.mem_singleton.mp ht] at hft ⊢
        exact (hout (h.of_fin (.inl (.inl hseg)) (hfin ▸ hft) (.inl hseg))).2 hft
    · rw [hsegs, List.pairwise_append]
      refine ⟨h.order, List.pairwise_singleton _ _, fun f hf t ht hff => ?_⟩
      rw [List.mem_singleton.mp ht]
      exact (hout (h.of_fin (.inr hf) hff (.inl hseg))).1
  · intro hf
    have hafter := @afterSend_unacked pass.out force (c.pcb.sending pass.marks rest)
    rw [← pass.pcb_eq] at hafter
    refine (hok hf).congr hsnd hrcv htime hafter.1 ?_
    by_cases hc : seg.isDummy = false ∧ 0 < seg.tcplen
    · refine .inl (hafter.2.1 hf ?_ (htcp ▸ hc.2))
      rw [TcpSeg.isDummy, hopts]
      exact hc.1
    · refine .inr ?_
      rw [hunsent, hu, splitCandidate_cons, if_neg hc]

theorem forceTransmit_fin (env : Env) (h : FinInv e c) :
    FinInv e { c with pcb := (forceTransmit env c.pcb).1 } := by
  rcases forceTransmit_cases env c.pcb with he | ⟨k, -, he⟩ | ⟨seq, target, -, -, ht, -, -, he⟩
  · rw [he]
    exact h
  · rw [he]
    exact h.fewer ⟨fun t ht => .inl ht, fun t ht => ht, rfl, id⟩
  rw [he]
  obtain ⟨hmem, hfl, hopts, -⟩ := @forceCopy_spec env c.pcb seq target ht
  have hreal : (forceCopy env c.pcb seq target).isDummy = false := by
    rw [TcpSeg.isDummy, hopts]
    exact h.unackedReal target hmem
  have hbelow := @forceCopy_below env c.pcb seq e target ht
    (h.real target (.inr hmem) (h.unackedReal target hmem)).1
  refine h.queue rfl rfl fun t ht => ?_
  rcases List.mem_cons.mp ht with rfl | ht
  · exact .inr ⟨by rw [hfl], fun _ => hbelow, fun _ => hreal⟩
  · exact .inl ht

theorem tcpOutput_fin (env : Env) (hf : c.fault = false) (h : FinInv e c)
    (hok : SplitOk c.pcb c.pcb.wnd) : FinInv e (tcpOutput env c) := by
  rw [tcpOutput]
  split
  · have hs := tcpSendEmptyAck_silent env 0 c
    obtain ⟨l, hl, hn⟩ := hs.sent
    refine h.fewer (From.fewer ?_ (sentSegs_append hl hn) fun hw => ?_)
    · rw [hs.core]
      exact .refl _
    · rw [(tcpSendEmptyAck_ackStep env 0 c).state] at hw
      exact hw
  · -- the loop keeps the invariant and that no FIN is split
    have hforce : (forceTransmit env c.pcb).2 = false → SplitOk (forceTransmit env c.pcb).1 c.pcb.wnd := by
      rcases forceTransmit_cases env c.pcb with he | ⟨k, -, he⟩ | ⟨seq, target, -, -, -, -, -, he⟩
      · rw [he]
        exact fun _ => hok
      · rw [he]
        exact fun _ => hok
      · rw [he]
        exact fun hfalse => Bool.noConfusion hfalse
    have hloop := @outputLoop_inv (forceTransmit env c.pcb).2 env c.pcb.wnd
      (fun c' => FinInv e c' ∧ ((forceTransmit env c.pcb).2 = false → SplitOk c'.pcb c.pcb.wnd))
      (fun n c' hi => splitHead_fin n hi.1 hi.2)
      (fun n c' seg rest hi _ hu _ _ => sendHead_fin n hu hi.1 hi.2)
      (outputFuel (forceTransmit env c.pcb).1.unsent) 0 { c with pcb := (forceTransmit env c.pcb).1 } hf
      ⟨forceTransmit_fin env h, hforce⟩
    exact hloop.1.fewer ⟨fun t ht => .inl ht, fun t ht => ht, rfl, id⟩

/-! ## Runs -/

def finOrderly (s : Sender) : Act → Prop
  | .write _ data false => Writable s.conn.pcb.state → WriteOk s data.length
  | .write _ data true => Writable s.conn.pcb.state → DummyOk s.conn.pcb data.length
  | .output _ => SplitOk s.conn.pcb s.conn.pcb.wnd
  | .close _ => Writable s.conn.pcb.state → CloseOk s
  | .shutdown _ _ shutTx => shutTx = true → Writable s.conn.pcb.state → CloseOk s
  | _ => True

theorem act_fin {a : Act} (hf : s.conn.fault = false) (hs : Synchronized s.conn.pcb)
    (hok : finOrderly s a) (h : FinInv s.endSeq s.conn) : FinInv (s.acceptedEnd a) (s.conn.act a) := by
  have hupkeep (a : Act) (ha : a.isUpkeep = true) : FinInv s.endSeq (s.conn.act a) :=
    h.fewer (act_upkeep s.conn ha).fewer
  cases a with
  | write env data isDummy =>
    show FinInv (s.acceptedEnd (.write env data isDummy)) (s.conn.write env data isDummy)
    unfold Conn.write
    cases hw : tcpWrite env s.conn.pcb data isDummy with
    | none =>
      have he : s.acceptedEnd (.write env data isDummy) = s.endSeq := by
        cases isDummy with
        | true => rfl
        | false => simp only [Sender.acceptedEnd, hw]
      rw [he]
      exact h.fewer ⟨fun t ht => .inl ht, fun t ht => ht, rfl, id⟩
    | some r =>
      obtain ⟨p, err⟩ := r
      by_cases herr : err = .ok
      · subst herr
        have hopen := writable_of_tcpWrite hw hs
        cases isDummy with
        | true => exact write_dummy_fin h hs (hok hopen) hw
        | false =>
          simp only [Sender.acceptedEnd, hw]
          exact write_fin h hs (hok hopen) hw
      · have he : s.acceptedEnd (.write env data isDummy) = s.endSeq := by
          cases isDummy with
          | true => rfl
          | false =>
            simp only [Sender.acceptedEnd, hw]
            split
            · rename_i heq
              exact absurd (congrArg Prod.snd (Option.some.inj heq)) herr
            · rfl
        rw [he]
        obtain ⟨hu, hua⟩ := (tcpWrite_accepts hw).2 herr
        have hst := (tcpWrite_frame hw).state
        exact h.fewer ⟨fun t ht => .inl (hu ▸ ht), fun t ht => hua ▸ ht, rfl, fun h => hst ▸ h⟩
  | output env => exact tcpOutput_fin env hf h hok
  | input env cc pkt => exact h.fewer (tcpInput_core env cc pkt hs).fewer
  | close env =>
    exact @tcpCloseShutdown_fin ⟨{ s.conn with pcb := s.conn.pcb.shutRx }, s.endSeq⟩ env true
      (h.fewer ⟨fun t ht => .inl ht, fun t ht => ht, rfl, id⟩) hs
      fun hw => ⟨(hok hw).lbb, (hok hw).real, (hok hw).tail⟩
  | shutdown env shutRx shutTx =>
    show FinInv s.endSeq (tcpShutdown env shutRx shutTx s.conn).1
    have h1 : FinInv s.endSeq (if shutRx then { s.conn with pcb := s.conn.pcb.shutRx } else s.conn) := by
      split
      · exact h.fewer ⟨fun t ht => .inl ht, fun t ht => ht, rfl, id⟩
      · exact h
    have hs1 : Synchronized (if shutRx then { s.conn with pcb := s.conn.pcb.shutRx } else s.conn).pcb := by
      split <;> exact hs
    have hok1 (htx : shutTx = true)
        (hw : Writable (if shutRx then { s.conn with pcb := s.conn.pcb.shutRx } else s.conn).pcb.state) :
        CloseOk ⟨if shutRx then { s.conn with pcb := s.conn.pcb.shutRx } else s.conn, s.endSeq⟩ := by
      split at hw
      · rename_i hrx
        rw [if_pos hrx]
        exact ⟨(hok htx hw).lbb, (hok htx hw).real, (hok htx hw).tail⟩
      · rename_i hrx
        rw [if_neg hrx]
        exact hok htx hw
    simp only [tcpShutdown]
    generalize (if shutRx = true then { s.conn with pcb := s.conn.pcb.shutRx } else s.conn) = c1
      at h1 hs1 hok1 ⊢
    split
    · rename_i hboth
      exact @tcpCloseShutdown_fin ⟨c1, s.endSeq⟩ env true h1 hs1
        (hok1 (by simpa using (Bool.and_eq_true _ _ ▸ hboth).2))
    split
    · rename_i htx
      split
      · exact @tcpCloseShutdown_fin ⟨c1, s.endSeq⟩ env false h1 hs1 (hok1 htx)
      · exact h1
    · exact h1
  | recved | rexmit | rexmitRto | rexmitFast | slowTimers | slowRto | slowChecks => exact hupkeep _ rfl

def Conn.Fresh (c : Conn) : Prop := c.pcb.unsent = [] ∧ c.pcb.unacked = [] ∧ c.sent = []

theorem Conn.Fresh.fin (h : c.Fresh) (e : U32) : FinInv e c := by
  obtain ⟨h1, h2, h3⟩ := h
  have hsegs : c.sentSegs = [] := by rw [Conn.sentSegs, h3]; rfl
  refine ⟨?_, ?_, .inl ⟨?_, ?_⟩, ?_, ?_⟩ <;> simp [h1, h2, hsegs]

/-- **Whole runs.** In every run of orderly actions the FIN stands behind the last accepted byte and
nothing follows it. -/
theorem fin_placed {c₀ : Conn} {s : Sender} (h₀ : c₀.Fresh)
    (h : Reach Sender.step (fun s a => Synchronized s.conn.pcb ∧ finOrderly s a) (.start c₀) s) :
    FinPlaced s := by
  refine FinInv.placed (h.inv (I := fun s => FinInv s.endSeq s.conn) (h₀.fin _) fun s a hi hok => ?_)
  unfold Sender.step
  cases hf : s.conn.fault with
  | true => exact hi
  | false => exact act_fin hf hok.1 hok.2 hi

def finStart (wnd : U32) : Conn where
  pcb := { tcpPcbInit {} with
    state := .established
    sndWnd := wnd
    sndWndMax := 1000
    cwnd := 1000 }

/-- Ten bytes are written, and the connection is closed before they are sent. -/
def finClosed (wnd : U32) : Sender :=
  ((Sender.start (finStart wnd)).step (.write {} (List.replicate 10 0) false)).step (.close {})

theorem fin_placed_finClosed : FinPlaced ((finClosed 1000).step (.output {})) := by
  unfold finClosed
  refine @fin_placed (finStart 1000) _ ⟨rfl, rfl, rfl⟩
    (.next (.next (.next .start _ ⟨by decide, fun _ => ?_⟩) _ ⟨by decide +kernel, fun _ => ?_⟩) _
      ⟨by decide +kernel, by show SplitOk _ _; decide +kernel⟩)
  · exact ⟨rfl, ⟨by decide, by decide⟩, by decide, by decide, by decide⟩
  · exact ⟨by decide +kernel, by decide +kernel, by decide +kernel⟩

/-- With a window of four bytes the segment is split, and the FIN goes out in the middle of the data: on
`[1, 5)`, while `[5, 11)` is still to be sent. -/
theorem fin_inside_data :
    (finClosed 4).endSeq = 11 ∧
      (((finClosed 4).step (.output {})).conn.sentSegs.map fun t => (t.seqno, t.len, t.flags.fin)) =
        [(1, 4, true)] ∧
      (((finClosed 4).step (.output {})).conn.pcb.unsent.map fun t => (t.seqno, t.len, t.flags.fin)) =
        [(5, 6, false)] ∧
      ¬FinPlaced ((finClosed 4).step (.output {})) := by
  have hsent : (((finClosed 4).step (.output {})).conn.sentSegs.map
      fun t => (t.seqno, t.len, t.flags.fin)) = [(1, 4, true)] := by decide +kernel
  have hend : ((finClosed 4).step (.output {})).endSeq = 11 := by decide +kernel
  refine ⟨by decide +kernel, hsent, by decide +kernel, fun h => ?_⟩
  have hsegs := h.sent
  rw [hend] at hsegs
  generalize ((finClosed 4).step (.output {})).conn.sentSegs = l at hsent hsegs
  obtain ⟨t, rfl, ht⟩ := List.map_eq_singleton_iff.mp hsent
  obtain ⟨hseq, hlen, hfin⟩ : t.seqno = 1 ∧ t.len = 4 ∧ t.flags.fin = true := by simpa using ht
  have hdata := hsegs t List.mem_cons_self hfin
  rw [TcpSeg.dataEnd, hseq, hlen] at hdata
  exact absurd hdata (by decide)

end LibvmaTlt.Lwip
