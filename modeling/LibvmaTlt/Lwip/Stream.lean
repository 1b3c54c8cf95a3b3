import LibvmaTlt.Lwip.RecvSpec

/-!
# The stream the application receives

Segments whose payloads are slices of one byte stream arrive in any order, cut and repeated in any way.
`received_stream`: what the receive callback was given is a prefix of the stream, and `rcv_nxt` stands
right behind it, in every run in which no segment is half the number space away from `rcv_nxt`, no front
trim moves a payload pointer by more than an `s16_t` holds, and the cut of a segment at the tail of the
out-of-sequence queue does not make it longer. `wrappedTail_overrun` is a run with a segment of the
last kind.
-/

namespace LibvmaTlt.Lwip

open Reassembly (Piece Ordered slice)

/-! ## Handing data out -/

theorem splitFront_suffix (tot : Nat) (front p : List Pbuf) : (splitFront tot front p).2 <:+ p := by
  induction p generalizing tot front with
  | nil => exact List.suffix_refl _
  | cons q rest ih =>
    rw [splitFront]
    split
    · exact (ih _ _).trans (List.suffix_cons q rest)
    · exact List.suffix_refl _

theorem pbufSplit64k_suffix {q : Pbuf} {rest : List Pbuf} (h : q.len ≤ 0xffff) :
    (pbufSplit64k (q :: rest)).2 <:+ rest := by
  unfold pbufSplit64k
  split
  · exact List.nil_suffix
  · rw [splitFront, if_pos (by omega)]
    exact splitFront_suffix _ _ _

theorem deliver_bytes {f : Nat} {p : List Pbuf} (h : ∀ b ∈ p, b.len ≤ 0xffff) (hf : p.length ≤ f) :
    (deliver f p).flatMap pbufBytes = pbufBytes p := by
  induction f generalizing p with
  | zero =>
    obtain rfl : p = [] := List.length_eq_zero_iff.mp (by omega)
    rfl
  | succ f ih =>
    cases p with
    | nil => rfl
    | cons q rest =>
      have hsuf := @pbufSplit64k_suffix q rest (h q List.mem_cons_self)
      have hlen := hsuf.length_le
      rw [List.length_cons] at hf
      rw [deliver, if_neg (List.cons_ne_nil _ _), List.flatMap_cons,
        ih (fun b hb => h b (List.mem_cons_of_mem _ (hsuf.subset hb))) (by omega)]
      exact pbufBytes_pbufSplit64k _

/-! ## Runs -/

structure Rx where
  conn : Conn
  got : List U8

def Conn.handed (c : Conn) : Act → List U8
  | .input env cc pkt => if c.fault then [] else (tcpInput env cc pkt c).data.flatMap pbufBytes
  | _ => []

def Rx.step (x : Rx) (a : Act) : Rx := ⟨x.conn.step a, x.got ++ x.conn.handed a⟩

/-- The packet carries the stream from position `o` on; `s₀` is the sequence number of position 0. -/
structure CarriesSlice (s₀ : U32) (stream : Nat → U8) (o : Nat) (pkt : InPkt) : Prop
    extends pkt.Whole where
  seqno : pkt.hdr.seqno = seqAt s₀ o
  bytes : pbufBytes pkt.p = slice stream o (pbufLen pkt.p)
  syn : pkt.hdr.flags.syn = false
  fin : pkt.hdr.flags.fin = false
  rst : pkt.hdr.flags.rst = false

/-- Packets of the stream arrive in `ESTABLISHED`; between them the application calls what it likes but
does not close. -/
def Rx.Fed (s₀ : U32) (stream : Nat → U8) (x : Rx) : Act → Prop
  | .input _ _ pkt => x.conn.pcb.state = .established ∧ x.conn.pcb.flags.rxclosed = false ∧
      ∃ o, CarriesSlice s₀ stream o pkt
  | a => a.isQuiet = true

/-- The same, with packets from which the receiver can tell their place in the stream, and which it can
trim at the front and at the tail. -/
def Rx.Orderly (s₀ : U32) (stream : Nat → U8) (x : Rx) : Act → Prop
  | .input _ _ pkt => x.conn.pcb.state = .established ∧ x.conn.pcb.flags.rxclosed = false ∧
      TailOk x.conn.pcb pkt.inData ∧
      (needsTrim x.conn.pcb.rcvNxt pkt.inData →
        TrimOk (x.conn.pcb.rcvNxt - pkt.hdr.seqno).toNat pkt.p) ∧
      ∃ o, CarriesSlice s₀ stream o pkt ∧ x.got.length < o + 2 ^ 31 ∧
        o + pbufLen pkt.p + 1 < x.got.length + 2 ^ 31
  | a => a.isQuiet = true

/-- What was received is a prefix of the stream, the receiver stands behind it, and what it holds are
slices of the stream. -/
structure Rx.Inv (s₀ : U32) (stream : Nat → U8) (l : List (Piece U8)) (x : Rx) : Prop where
  got : x.got = slice stream 0 x.got.length
  at_ : RcvAt s₀ x.got.length l x.conn.pcb
  pieces : ∀ q ∈ l, q.IsSlice stream ∧ q.last = false

variable {pkt : InPkt} {p q : Piece U8}

section Step

variable {s₀ : U32} {stream : Nat → U8} {l : List (Piece U8)} {x : Rx}

theorem Rx.Inv.quiet {c : Conn} (h : x.Inv s₀ stream l) (hq : Quiet x.conn c) :
    Rx.Inv s₀ stream l ⟨c, x.got⟩ :=
  ⟨h.got, h.at_.of_core hq.core, h.pieces⟩

theorem CarriesSlice.inAt {o : Nat} (h : CarriesSlice s₀ stream o pkt) (sack : List TcpSackBlock) :
    InAt s₀ ⟨o, pbufBytes pkt.p, false⟩ { pkt.inData with sack := sack } ∧
      Holds ⟨o, pbufBytes pkt.p, false⟩ pkt.inData.inseg := by
  rw [← h.fin]
  exact h.toWhole.inAt h.seqno h.syn sack

/-- Pieces of the stream stay so when they are cut, and none of them ends it. -/
def OfStream (stream : Nat → U8) (q : Piece U8) : Prop := q.IsSlice stream ∧ q.last = false

theorem OfStream.cut (n : Nat) (h : OfStream stream q) : OfStream stream (q.cut n) :=
  ⟨h.1.cut n, h.2⟩

theorem OfStream.fitWnd (w : Nat) (h : OfStream stream q) : OfStream stream (fitWnd w q) := by
  unfold Lwip.fitWnd
  split
  · exact ⟨h.1.cut w, rfl⟩
  · exact h

theorem OfStream.frontDrop {off : Nat} (hle : q.pos ≤ off) (h : OfStream stream q) :
    OfStream stream (frontDrop off q) := by
  refine ⟨?_, h.2⟩
  show q.data.drop (off - q.pos) = slice stream off (q.data.drop (off - q.pos)).length
  have hdata : q.data = slice stream q.pos q.data.length := h.1
  rw [List.length_drop, hdata, Reassembly.drop_slice, Reassembly.slice_length, Nat.add_sub_cancel' hle]

theorem OfStream.insertAt {lo : Nat} (ho : Ordered lo l) (hp : OfStream stream p)
    (hl : ∀ q ∈ l, OfStream stream q) : ∀ q ∈ Reassembly.insertAt p l, OfStream stream q :=
  Reassembly.forall_insertAt (fun _ n => OfStream.cut n) ho hp
    (fun r hr h => nomatch (hl r hr).2.symm.trans h) hl

theorem OfStream.queued {lo : Nat} {l' : List (Piece U8)} (ho : Ordered lo l)
    (hp : OfStream stream p) (hl : ∀ q ∈ l, OfStream stream q) (h : Queued p l l') :
    ∀ q ∈ l', OfStream stream q := by
  rcases h with rfl | ⟨rfl, -⟩ | ⟨tail, htail, rfl⟩
  · exact hl
  · simpa using hp
  refine Reassembly.forall_place (fun _ n => OfStream.cut n) ho
    (fun _ => ⟨hp, fun r hr h => nomatch (hl r hr).2.symm.trans h⟩)
    (fun _ => ?_) hl
  rcases htail with rfl | ⟨n, rfl⟩
  · exact hp
  · exact ⟨hp.1.cut n, rfl⟩

theorem CarriesSlice.ofStream {o : Nat} (h : CarriesSlice s₀ stream o pkt) :
    OfStream stream ⟨o, pbufBytes pkt.p, false⟩ := by
  refine ⟨?_, rfl⟩
  rw [Piece.IsSlice, length_pbufBytes]
  exact h.bytes

theorem Rx.Inv.inseq {pcb : Pcb} {q : Pcb × InData} {H : Prop} {c : Conn}
    {data : List U8} (h : x.Inv s₀ stream l) (hp : OfStream stream p) (hpos : p.pos = x.got.length)
    (hnear : Near x.got.length p) (hat : RcvAt s₀ x.got.length l pcb)
    (hdr : Drained (SegAt s₀) s₀ x.got.length (Reassembly.insertAt p l) H pcb [] false q)
    (hdata : data =
      (Reassembly.popReady x.got.length (Reassembly.insertAt p l)).1.flatMap Piece.data)
    (hc : c.pcb.rcvCore = (tcpAckNow (sackCleanup q.1)).rcvCore) :
    ∃ l', Rx.Inv s₀ stream l' ⟨c, x.got ++ data⟩ := by
  have hof := OfStream.insertAt hat.ordered hp h.pieces
  have hat' := hat.drained hpos hnear hdr
  generalize Reassembly.insertAt p l = m at *
  have hgot := @Reassembly.popReady_slice _ stream x.got.length m (fun r hr => (hof r hr).1)
    fun r hr => (hof r hr).2
  rw [← h.got, ← hdata] at hgot
  have hlen : (x.got ++ data).length =
      Reassembly.advance x.got.length (Reassembly.popReady x.got.length m).1 := by
    rw [hgot, Reassembly.slice_length]
  refine ⟨(Reassembly.popReady x.got.length m).2, ?_, ?_, ?_⟩
  · show x.got ++ data = slice stream 0 (x.got ++ data).length
    rw [hlen]
    exact hgot
  · show RcvAt s₀ (x.got ++ data).length _ c.pcb
    rw [hlen]
    exact hat'.sackCleanup.of_core hc
  · intro r hr
    apply hof r
    rw [← Reassembly.popReady_append x.got.length m]
    exact List.mem_append_right _ hr

theorem Rx.Inv.input (h : x.Inv s₀ stream l) (env : Env) (cc : CcAlgo)
    (hok : x.Orderly s₀ stream (.input env cc pkt)) (hf : x.conn.fault = false) :
    ∃ l', Rx.Inv s₀ stream l'
      ⟨(tcpInput env cc pkt x.conn).conn,
        x.got ++ (tcpInput env cc pkt x.conn).data.flatMap pbufBytes⟩ := by
  obtain ⟨hst, hrx, htail, htrim, o, hcar, hf1, hf2⟩ := hok
  rcases tcpInput_text env cc pkt (.inl hst) (fun _ => hrx) hcar.rst hcar.syn with
    ⟨hq, hd⟩ | ⟨c1, sack, hq, hw, hfault, hcore, -, hdata⟩
  · refine ⟨l, ?_⟩
    rw [hd, List.flatMap_nil, List.append_nil]
    exact h.quiet hq
  obtain ⟨hin, hholds⟩ := hcar.inAt sack
  have hat : RcvAt s₀ x.got.length l c1.pcb := h.at_.of_core hq.core
  have hstop : (⟨o, pbufBytes pkt.p, false⟩ : Piece U8).stop = o + pbufLen pkt.p := by
    rw [Piece.stop, length_pbufBytes]
  rcases tcpReceiveData_refines env hat hin hf1 (by rw [hstop]; exact hf2) with
    ⟨hq2, hnil, -⟩ | ⟨h1, h2, q, heq, hdr⟩ | ⟨hpos, -, heq⟩
  · refine ⟨l, ?_⟩
    have hnone : (tcpInput env cc pkt x.conn).data = [] := by
      rcases hdata with ⟨-, hd⟩ | hd
      · exact hd
      · rw [hd, hnil]
        rfl
    rw [hnone, List.flatMap_nil, List.append_nil]
    exact ⟨h.got, hat.of_core (hcore.trans hq2.core), h.pieces⟩
  · rw [heq] at hcore hdata
    -- what is ready goes out
    have hH : Holds ⟨o, pbufBytes pkt.p, false⟩ pkt.inData.inseg ∧ TrimOk (x.got.length - o) pkt.p := by
      refine ⟨hholds, ?_⟩
      rcases Nat.eq_or_lt_of_le h1 with heqo | hlt
      · rw [← heqo, Nat.sub_self]
        cases pkt.p with
        | nil => trivial
        | cons b rest => simp [TrimOk]
      · have hneed := (needsTrim_iff hin (by have := hin.tcplen; omega) hf1 (by rw [hstop]; exact hf2)).mpr
          ⟨hlt, h2⟩
        rw [← h.at_.rcvNxt] at hneed
        have := htrim hneed
        rw [h.at_.rcvNxt, hcar.seqno,
          seqAt_sub_toNat h1 (show x.got.length < o + 2 ^ 32 by omega)] at this
        exact this
    have hbytes : (tcpInput env cc pkt x.conn).data.flatMap pbufBytes =
        (Reassembly.popReady x.got.length (Reassembly.insertAt (fitWnd c1.pcb.rcvWnd.toNat
          (frontDrop x.got.length ⟨o, pbufBytes pkt.p, false⟩)) l)).1.flatMap Piece.data := by
      rcases hdata with ⟨hbad, -⟩ | hd
      · rw [hfault, hf] at hbad
        cases hbad
      · rw [hd, deliver_bytes (hdr.chunks hH (by simp)) le_rfl, hdr.bytes hH]
        rfl
    refine h.inseq ?_ (fitWnd_pos _ _) ((Near.frontDrop h1 (by rw [hstop]; exact hf2)).fitWnd _) hat hdr
      hbytes hcore
    exact ((hcar.ofStream).frontDrop h1).fitWnd _
  · have hnone : (tcpInput env cc pkt x.conn).data = [] := by
      rcases hdata with ⟨-, hd⟩ | hd
      · exact hd
      · rw [hd, heq]
        rfl
    rw [heq] at hcore
    rw [hnone, List.flatMap_nil, List.append_nil]
    rcases receiveOos_quiet env { pkt.inData with sack := sack } c1 with hsame | hnew
    · exact ⟨l, h.got, hat.of_core (hcore.trans hsame.core), h.pieces⟩
    · obtain ⟨l', hl', hat'⟩ := oosInsert_refines env hat hin hholds hpos (by rw [hstop]; exact hf2)
        (htail.of_core hq.core hw)
      refine ⟨l', h.got, hat'.setSackBlocks.of_core (hcore.trans hnew.core), ?_⟩
      exact OfStream.queued hat.ordered hcar.ofStream h.pieces hl'

theorem Rx.Inv.step {a : Act} (h : x.Inv s₀ stream l) (ha : x.Orderly s₀ stream a) :
    ∃ l', Rx.Inv s₀ stream l' (x.step a) := by
  by_cases hf : x.conn.fault = true
  · -- nothing happens once something went wrong
    have hnone : x.conn.handed a = [] := by
      unfold Conn.handed
      split
      · exact if_pos hf
      · rfl
    refine ⟨l, ?_⟩
    unfold Rx.step
    rw [Conn.step_fault a hf, hnone, List.append_nil]
    exact h
  · have hf : x.conn.fault = false := by simpa using hf
    have hquiet (hq : a.isQuiet = true) (hn : x.conn.handed a = []) :
        ∃ l', Rx.Inv s₀ stream l' (x.step a) := by
      refine ⟨l, ?_⟩
      unfold Rx.step
      rw [Conn.step_eq a hf, hn, List.append_nil]
      exact h.quiet (act_quiet hf hq)
    cases a with
    | input env cc pkt =>
      obtain ⟨l', hl'⟩ := h.input env cc ha hf
      refine ⟨l', ?_⟩
      unfold Rx.step Conn.handed
      rw [Conn.step_eq _ hf, hf]
      exact hl'
    | _ => exact hquiet ha rfl

end Step

/-- **The application receives the stream.** In every run with orderly segments, what the receive callback
was given is a prefix of the stream, and `rcv_nxt` stands right behind it. -/
theorem received_stream {s₀ : U32} {stream : Nat → U8} {x₀ x : Rx} (hnxt : x₀.conn.pcb.rcvNxt = s₀)
    (hoos : x₀.conn.pcb.ooseq = []) (hgot : x₀.got = [])
    (h : Reach Rx.step (Rx.Orderly s₀ stream) x₀ x) :
    x.got = slice stream 0 x.got.length ∧ x.conn.pcb.rcvNxt = s₀ + u32 x.got.length := by
  have hinv : ∃ l, x.Inv s₀ stream l := by
    refine h.inv (I := fun x => ∃ l, x.Inv s₀ stream l) ?_ ?_
    · refine ⟨[], ?_, ⟨?_, ?_, by simp, trivial⟩, by simp⟩
      · rw [hgot]
        rfl
      · rw [hgot, hnxt]
        exact (BitVec.add_zero s₀).symm
      · rw [hoos]
        exact .nil
    · rintro x a ⟨l, hx⟩ ha
      exact hx.step ha
  obtain ⟨l, hx⟩ := hinv
  exact ⟨hx.got, hx.at_.rcvNxt⟩

/-! ## Two runs across the wrap -/

def segment (s₀ : U32) (stream : Nat → U8) (o n : Nat) : InPkt where
  hdr := ⟨seqAt s₀ o, 1, 5, { ack := true }, 1000⟩
  optMem _ := 0
  p := [⟨slice stream o n, n⟩]
  tos := 0

theorem segment_carries (s₀ : U32) (stream : Nat → U8) (o : Nat) {n : Nat} (h : n < 65535) :
    CarriesSlice s₀ stream o (segment s₀ stream o n) where
  seqno := rfl
  bytes := by simp [segment, Pbuf.len]
  chain := ⟨by simp [Pbuf.len], trivial⟩
  small := by simpa [segment, Pbuf.len] using h
  syn := rfl
  fin := rfl
  rst := rfl

def counting (i : Nat) : U8 := BitVec.ofNat 8 i

/-- A receiver with a window of 512 bytes that reaches across the end of the number space. -/
def wrapStart : Rx where
  conn := { pcb := { tcpPcbInit {} with
    state := .established
    rcvNxt := 0xFFFFFF9C
    rcvWnd := 512
    rcvWndMax := 512 } }
  got := []

def arrive (o n : Nat) : Act := .input {} lwipCcAlgo (segment 0xFFFFFF9C counting o n)

def wrapOrderly : Rx := (wrapStart.step (arrive 10 10)).step (arrive 0 10)

theorem received_stream_wrapOrderly :
    wrapOrderly.got = slice counting 0 20 ∧
      (wrapOrderly.got = slice counting 0 wrapOrderly.got.length ∧
        wrapOrderly.conn.pcb.rcvNxt = 0xFFFFFF9C + u32 wrapOrderly.got.length) := by
  have hstep (x : Rx) (o : Nat) (h1 : x.conn.pcb.state = .established)
      (h2 : x.conn.pcb.flags.rxclosed = false)
      (h3 : TailOk x.conn.pcb (segment 0xFFFFFF9C counting o 10).inData)
      (h4 : ¬needsTrim x.conn.pcb.rcvNxt (segment 0xFFFFFF9C counting o 10).inData)
      (h5 : x.got = []) (h6 : o < 100) : x.Orderly 0xFFFFFF9C counting (arrive o 10) := by
    refine ⟨h1, h2, h3, fun h => absurd h h4, o, segment_carries _ _ o (by decide), ?_, ?_⟩
    · rw [h5]
      simp only [List.length_nil]
      omega
    · rw [h5]
      show o + 10 + 1 < 0 + 2 ^ 31
      omega
  have hreach : Reach Rx.step (Rx.Orderly 0xFFFFFF9C counting) wrapStart wrapOrderly := by
    unfold wrapOrderly
    refine .next (.next .start _ ?_) _ ?_
    · exact hstep _ 10 rfl rfl (by decide +kernel) (by decide +kernel) rfl (by decide)
    · exact hstep _ 0 (by decide +kernel) (by decide +kernel) (by decide +kernel) (by decide +kernel)
        (by decide +kernel) (by decide)
  exact ⟨by decide +kernel, received_stream rfl rfl rfl hreach⟩

def wrapOverrun : Rx := ((wrapStart.step (arrive 10 10)).step (arrive 20 10)).step (arrive 0 10)

/-- **The tail cut overruns.** The third segment is appended at the tail, and its end, taken as a plain
number, lies above the wrapped right edge of the window: it is cut to the 492 bytes up to that edge
although it has ten. `rcv_nxt` then runs 482 bytes ahead of what was received. -/
theorem wrappedTail_overrun :
    Reach Rx.step (Rx.Fed 0xFFFFFF9C counting) wrapStart wrapOverrun ∧
      wrapOverrun.got = slice counting 0 30 ∧
      wrapOverrun.conn.pcb.rcvNxt - 0xFFFFFF9C = 512 := by
  refine ⟨?_, by decide +kernel, by decide +kernel⟩
  unfold wrapOverrun
  refine .next (.next (.next .start _ ?_) _ ?_) _ ?_
  · exact ⟨rfl, rfl, 10, segment_carries _ _ 10 (by decide)⟩
  · exact ⟨by decide +kernel, by decide +kernel, 20, segment_carries _ _ 20 (by decide)⟩
  · exact ⟨by decide +kernel, by decide +kernel, 0, segment_carries _ _ 0 (by decide)⟩

end LibvmaTlt.Lwip
