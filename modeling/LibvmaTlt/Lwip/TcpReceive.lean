import LibvmaTlt.Lwip.TcpOutput

/-!
# Receiving a segment (`tcp_receive`, `tcp_oos_insert_segment`)

`tcpReceiveAck` is the acknowledgement half of `tcp_receive`: window update, removal of SACKed
segments, the three clauses and RTT estimation. `tcpReceiveData` is the half that takes the text:
trimming, in-sequence delivery and the queue of out-of-sequence segments.
-/

namespace LibvmaTlt.Lwip

/-- `tcp_in_data`. `hdr` is the header as it arrived; `inseg` carries the header flags that
processing changes. -/
structure InData where
  hdr : TcpHdr
  seqno : U32
  tcplen : Nat
  inseg : TcpSeg
  recvData : List Pbuf := []
  gotFin : Bool := false
  reset : Bool := false
  closed : Bool := false
  sack : List TcpSackBlock := []

/-! ## Acknowledgements -/

def sndWndScale (pcb : Pcb) (wnd : Nat) : U32 := u32 wnd <<< pcb.sndScale

def windowUpdate (pcb : Pcb) (d : InData) : Pcb × Bool :=
  let w := sndWndScale pcb d.hdr.wnd
  if TcpSeqLt pcb.sndWl1 d.seqno ∨ (pcb.sndWl1 = d.seqno ∧ TcpSeqLt pcb.sndWl2 d.hdr.ackno) ∨
      (pcb.sndWl2 = d.hdr.ackno ∧ w > pcb.sndWnd) then
    ({ pcb with
        sndWnd := w
        sndWndMax := if pcb.sndWndMax < w then w else pcb.sndWndMax
        sndWl1 := d.seqno
        sndWl2 := d.hdr.ackno
        persistBackoff := if w = 0 then pcb.persistBackoff else 0 },
      w = 0 && pcb.persistBackoff = 0)
  else (pcb, false)

/-- The test for a segment `[le, re)` against the SACK blocks: a block that starts at or before `le`
moves `le` to its end. -/
def sackTest (re : U32) : U32 → List TcpSackBlock → Bool
  | _, [] => false
  | le, b :: bs =>
    if TcpSeqLeq b.blockLe le ∧ TcpSeqLeq re b.blockRe then true
    else sackTest re (if TcpSeqLeq b.blockLe le then b.blockRe else le) bs

/-- A segment of `unacked` is freed because of the SACK blocks. -/
def sacked (sack : List TcpSackBlock) (s : TcpSeg) : Bool := sackTest s.dataEnd s.seqno sack

/-- The queue length once the segments `gone` are freed. -/
def queuelenLess (pcb : Pcb) (gone : List TcpSeg) : Nat :=
  pcb.sndQueuelen - (gone.map fun s => pbufClen s.p).sum

def freeSacked (d : InData) (c : Conn) : Conn :=
  if c.pcb.sackPermitted then
    let gone := c.pcb.unacked.filter (sacked d.sack)
    { c with
      pcb := { c.pcb with
        unacked := c.pcb.unacked.filter fun s => !sacked d.sack s
        sndQueuelen := queuelenLess c.pcb gone }
      freed := c.freed ++ gone }
  else c

def ackedLessFin (acked : U32) (gone : List TcpSeg) : U32 :=
  gone.foldl (fun a s => if a ≠ 0 ∧ s.flags.fin then a - 1 else a) acked

/-- The loop that frees acknowledged segments at the head of `unacked`, and the timers after it. -/
def freeUnacked (ackno : U32) (persist : Bool) (c : Conn) : Conn :=
  let gone := c.pcb.unacked.takeWhile fun s => TcpSeqLeq s.seqEnd ackno
  let left := c.pcb.unacked.dropWhile fun s => TcpSeqLeq s.seqEnd ackno
  { c with
    pcb := { c.pcb with
      unacked := left
      acked := ackedLessFin c.pcb.acked gone
      sndQueuelen := queuelenLess c.pcb gone
      persistCnt := if left = [] ∧ persist then 0 else c.pcb.persistCnt
      persistBackoff := if left = [] ∧ persist then 1 else c.pcb.persistBackoff
      rtime := if left = [] then -1 else 0 }
    freed := c.freed ++ gone }

/-- The loop that frees acknowledged segments at the head of `unsent`. -/
def freeUnsent (ackno : U32) (c : Conn) : Conn :=
  let gone := c.pcb.unsent.takeWhile fun s => TcpSeqBetween ackno s.seqEnd c.pcb.sndNxt
  let left := c.pcb.unsent.dropWhile fun s => TcpSeqBetween ackno s.seqEnd c.pcb.sndNxt
  { c with
    pcb := { c.pcb with
      unsent := left
      unsentOversize := if gone ≠ [] ∧ left = [] then 0 else c.pcb.unsentOversize
      acked := ackedLessFin c.pcb.acked gone
      sndQueuelen := queuelenLess c.pcb gone }
    freed := c.freed ++ gone }

/-- `dupacks` counted up, in a `u8_t` that does not wrap. -/
def nextDupacks (pcb : Pcb) : Nat :=
  if pcb.dupacks < (pcb.dupacks + 1) % 256 then pcb.dupacks + 1 else pcb.dupacks

def Pcb.setDupacks (pcb : Pcb) (n : Nat) : Pcb := { pcb with dupacks := n }

def dupAckReact (cc : CcAlgo) (pcb : Pcb) : Pcb :=
  if pcb.dupacks > lwipTcpDupAckThresh then pcb.setCwnd (cc.ackReceived pcb .dupack)
  else if pcb.dupacks = lwipTcpDupAckThresh then
    let pcb := tcpRexmitFast cc pcb
    pcb.setCwnd (cc.ackReceived pcb .other)
  else pcb

/-- The duplicate-ACK clauses; `edge` is the right edge of the send window before the update. -/
def dupAck (cc : CcAlgo) (edge : U32) (d : InData) (pcb : Pcb) : Pcb :=
  if d.tcplen = 0 ∧ pcb.sndWl2 + pcb.sndWnd = edge ∧ 0 ≤ pcb.rtime ∧ pcb.lastack = d.hdr.ackno then
    dupAckReact cc (pcb.setDupacks (nextDupacks pcb))
  else pcb.setDupacks 0

def baseRto (pcb : Pcb) : Int := max (pcb.sa / 8 + pcb.sv) pcb.minrto

def leaveRecovery (cc : CcAlgo) (pcb : Pcb) : Pcb :=
  if pcb.flags.infr then (pcb.setCwnd (cc.postRecovery pcb)).setInfr false else pcb

def Pcb.ackVars (pcb : Pcb) (ackno : U32) : Pcb :=
  { pcb with
    nrtx := 0
    rto := baseRto pcb
    acked := ackno - pcb.lastack
    sndBuf := pcb.sndBuf + (ackno - pcb.lastack)
    dupacks := 0
    lastack := ackno
    polltmr := 0 }

def ackNewCwnd (cc : CcAlgo) (pcb : Pcb) : Pcb :=
  if TcpState.num .established ≤ pcb.state.num then
    let r := dctcpReduceCwnd pcb
    if r.2 then r.1 else r.1.setCwnd (cc.ackReceived r.1 .ack)
  else pcb

def ackNewData (cc : CcAlgo) (d : InData) (pcb : Pcb) : Pcb :=
  ackNewCwnd cc ((leaveRecovery cc pcb).ackVars d.hdr.ackno)

/-- RTT estimation; the sample is cut to an `s16_t`. -/
def rttEstimate (env : Env) (ackno : U32) (pcb : Pcb) : Pcb :=
  if pcb.rttest ≠ 0 ∧ TcpSeqLt pcb.rtseq ackno then
    let m := ((env.tcpTicks - pcb.rttest).setWidth 16).toInt - pcb.sa / 8
    let sa := pcb.sa + m
    let sv := pcb.sv + (|m| - pcb.sv / 4)
    { pcb with sa := sa, sv := sv, rto := max (sa / 8 + sv) pcb.minrto, rttest := 0 }
  else pcb

def Pcb.clearAcked (pcb : Pcb) : Pcb := { pcb with acked := 0 }

def ackClause (env : Env) (cc : CcAlgo) (edge : U32) (persist : Bool) (d : InData) (c : Conn) : Conn :=
  if TcpSeqLeq d.hdr.ackno c.pcb.lastack then
    freeUnacked d.hdr.ackno persist { c with pcb := dupAck cc edge d c.pcb.clearAcked }
  else if TcpSeqBetween d.hdr.ackno (c.pcb.lastack + 1) c.pcb.sndNxt then
    freeUnacked d.hdr.ackno persist { c with pcb := ackNewData cc d c.pcb }
  else tcpSendEmptyAck env 0 { c with pcb := c.pcb.clearAcked }

/-- The acknowledgement half of `tcp_receive`. -/
def tcpReceiveAck (env : Env) (cc : CcAlgo) (d : InData) (c : Conn) : Conn :=
  if d.hdr.flags.ack then
    let edge := c.pcb.sndWnd + c.pcb.sndWl2
    let w := windowUpdate c.pcb d
    let c := freeSacked d { c with pcb := w.1 }
    let c := freeUnsent d.hdr.ackno (ackClause env cc edge w.2 d c)
    { c with pcb := rttEstimate env d.hdr.ackno c.pcb }
  else c

/-! ## Text -/

/-- The smallest move of the right edge worth announcing: `MIN(rcv_wnd_max / 2, mss)`. -/
def annThreshold (pcb : Pcb) : U32 :=
  if pcb.rcvWndMax / 2 < u32 pcb.mss then pcb.rcvWndMax / 2 else u32 pcb.mss

def rcvAnn (pcb : Pcb) : U32 × U32 :=
  let edge := pcb.rcvNxt + pcb.rcvWnd
  if TcpSeqGeq edge (pcb.rcvAnnRightEdge + annThreshold pcb) then
    (pcb.rcvWnd, edge - pcb.rcvAnnRightEdge)
  else if TcpSeqGt pcb.rcvNxt pcb.rcvAnnRightEdge then (0, 0)
  else (pcb.rcvAnnRightEdge - pcb.rcvNxt, 0)

/-- `tcp_update_rcv_ann_wnd`: the pcb and the inflation of the window. -/
def tcpUpdateRcvAnnWnd (pcb : Pcb) : Pcb × U32 :=
  ({ pcb with rcvAnnWnd := (rcvAnn pcb).1 }, (rcvAnn pcb).2)

def tcpAckNow (pcb : Pcb) : Pcb := { pcb with flags := { pcb.flags with ackNow := true } }

def TcpSeg.cut (s : TcpSeg) (len : Nat) : TcpSeg := { s with len := len, p := pbufRealloc len s.p }

def trimFirstEdge (rcvNxt : U32) (d : InData) : InData :=
  let off := rcvNxt - d.seqno
  { d with
    seqno := rcvNxt
    inseg := { d.inseg with
      seqno := rcvNxt
      len := u16 (d.inseg.len + 65536 - u16 off.toNat)
      p := trimFront off d.inseg.p } }

/-- The first edge lies before `rcv_nxt` and the segment reaches beyond it. -/
def needsTrim (rcvNxt : U32) (d : InData) : Prop :=
  TcpSeqBetween rcvNxt (d.seqno + 1) (d.seqno + u32 d.tcplen - 1)

instance (rcvNxt : U32) (d : InData) : Decidable (needsTrim rcvNxt d) :=
  inferInstanceAs (Decidable (TcpSeqBetween _ _ _))

def trimToWnd (rcvWnd : U32) (s : TcpSeg) : TcpSeg :=
  if u32 (u16 s.tcplen) > rcvWnd then
    let s := { s with flags := { s.flags with fin := false } }
    s.cut (u16 (rcvWnd.toNat + if s.flags.syn then 65535 else 0))
  else s

/-- Drop the out-of-sequence segments the in-sequence segment covers; it takes over a FIN. -/
def dropCovered : TcpSeg → List TcpSeg → TcpSeg × List TcpSeg
  | s, [] => (s, [])
  | s, next :: rest =>
    if TcpSeqGeq (s.seqno + u32 (u16 s.tcplen)) next.dataEnd then
      dropCovered (if next.flags.fin ∧ !s.flags.syn then s.setFin else s) rest
    else (s, next :: rest)

def trimToNext (s : TcpSeg) : List TcpSeg → TcpSeg
  | [] => s
  | next :: _ =>
    if TcpSeqGt (s.seqno + u32 (u16 s.tcplen)) next.seqno then
      s.cut (u16 (u16 (next.seqno - s.seqno).toNat + if s.flags.syn then 65535 else 0))
    else s

def adjustOoseq (s : TcpSeg) (ooseq : List TcpSeg) : TcpSeg × List TcpSeg :=
  if ooseq = [] then (s, [])
  else if s.flags.fin then (s, [])
  else
    let r := dropCovered s ooseq
    (trimToNext r.1 r.2, r.2)

def advance (pcb : Pcb) (n : Nat) : Pcb :=
  (tcpUpdateRcvAnnWnd { pcb with
    rcvNxt := pcb.rcvNxt + u32 n
    rcvWnd := pcb.rcvWnd - u32 n }).1

def chainData (recvData p : List Pbuf) : List Pbuf :=
  if pbufTotLen p > 0 then if recvData = [] then p else pbufCat recvData p else recvData

/-- The loop that dequeues the out-of-sequence segments that have become in-sequence. -/
def dequeueLoop : List TcpSeg → Pcb → InData → Pcb × InData
  | [], pcb, d => ({ pcb with ooseq := [] }, d)
  | cseg :: rest, pcb, d =>
    if cseg.seqno = pcb.rcvNxt then
      let pcb := advance pcb cseg.tcplen
      dequeueLoop rest
        (if cseg.flags.fin ∧ pcb.state = .established then { pcb with state := .closeWait } else pcb)
        { d with
          recvData := chainData d.recvData cseg.p
          gotFin := d.gotFin || cseg.flags.fin }
    else ({ pcb with ooseq := cseg :: rest }, d)

def sackTrim (rcvNxt : U32) (b : TcpSackBlock) : Option TcpSackBlock :=
  if TcpSeqLeq b.blockRe b.blockLe then none
  else if TcpSeqLeq b.blockRe rcvNxt then none
  else if TcpSeqLeq b.blockLe rcvNxt ∧ TcpSeqLt rcvNxt b.blockRe then some ⟨rcvNxt, b.blockRe⟩
  else some b

def sackCleanup (pcb : Pcb) : Pcb :=
  if pcb.sackPermitted then
    { pcb with rcvSackBlock := pcb.rcvSackBlock.filterMap (sackTrim pcb.rcvNxt) }
  else pcb

def receiveInseq (pcb : Pcb) (d : InData) : Pcb × InData :=
  let r := adjustOoseq (trimToWnd pcb.rcvWnd d.inseg) pcb.ooseq
  let inseg := r.1
  let pcb := advance pcb (u16 inseg.tcplen)
  let d := { d with
    inseg := inseg
    tcplen := u16 inseg.tcplen
    recvData := if pbufTotLen inseg.p > 0 then inseg.p else []
    gotFin := inseg.flags.fin }
  let q := dequeueLoop r.2 pcb d
  (tcpAckNow (sackCleanup q.1), q.2)

/-! ## Out-of-sequence segments -/

/-- The loop of `tcp_oos_insert_segment` over the segments the new one covers. -/
def swallow : TcpSeg → List TcpSeg → TcpSeg × List TcpSeg
  | s, [] => (s, [])
  | s, next :: rest =>
    if TcpSeqGeq s.dataEnd next.dataEnd then
      swallow (if next.flags.fin then s.setFin else s) rest
    else (s, next :: rest)

/-- A segment cut where another starts, if it reaches beyond that point. -/
def cutAt (s : TcpSeg) (seqno : U32) : TcpSeg :=
  if TcpSeqGt s.dataEnd seqno then s.cut (u16 (seqno - s.seqno).toNat) else s

/-- `tcp_oos_insert_segment`: `cseg` in front of `next`. -/
def tcpOosInsertSegment (cseg : TcpSeg) (next : List TcpSeg) : List TcpSeg :=
  if cseg.flags.fin then [cseg]
  else
    let r := swallow cseg next
    match r.2 with
    | [] => [r.1]
    | n :: rest => cutAt r.1 n.seqno :: n :: rest

/-- The segment appended at the tail, cut to the receive window `edge`. The comparison is a plain
one, not by the sign of the difference. -/
def cutTail (edge : U32) (tcplen : Nat) (s : TcpSeg) : TcpSeg :=
  if u32 tcplen + s.seqno > edge then
    { s with flags := { s.flags with fin := false } }.cut (u16 (edge - s.seqno).toNat)
  else s

/-- The walk along the out-of-sequence queue that places `cseg`. `prev` is the segment walked over
last, the result starts with it. -/
def oosWalk (edge : U32) (tcplen : Nat) (cseg : TcpSeg) : Option TcpSeg → List TcpSeg → List TcpSeg
  | prev, [] => prev.toList
  | prev, next :: rest =>
    if cseg.seqno = next.seqno then
      prev.toList ++ if cseg.len > next.len then tcpOosInsertSegment cseg (next :: rest)
        else next :: rest
    else if prev = none ∧ TcpSeqLt cseg.seqno next.seqno then tcpOosInsertSegment cseg (next :: rest)
    else if ∃ p ∈ prev, TcpSeqBetween cseg.seqno (p.seqno + 1) (next.seqno - 1) then
      (prev.map fun p => cutAt p cseg.seqno).toList ++ tcpOosInsertSegment cseg (next :: rest)
    else if rest = [] ∧ TcpSeqGt cseg.seqno next.seqno then
      prev.toList ++ if next.flags.fin then [next]
        else [cutAt next cseg.seqno, cutTail edge tcplen cseg]
    else prev.toList ++ oosWalk edge tcplen cseg (some next) rest

/-- The out-of-sequence queue with `inseg` placed in it. The walk places nothing when the copy of the
segment cannot be allocated. -/
def oosInsert (env : Env) (d : InData) (pcb : Pcb) : Pcb :=
  if env.segOk 0 then
    let cseg := { d.inseg with addr := pcb.nextSeg }
    { pcb with
      nextSeg := pcb.nextSeg + 1
      ooseq := if pcb.ooseq = [] then [cseg]
        else oosWalk (pcb.rcvNxt + pcb.rcvWnd) d.tcplen cseg none pcb.ooseq }
  else pcb

/-- The rebuilt SACK blocks: for each run of contiguous segments its last segment. -/
def sackRebuild : List TcpSeg → List TcpSackBlock
  | [] => []
  | [s] => [⟨s.seqno, s.dataEnd⟩]
  | s :: t :: rest =>
    if TcpSeqLt s.dataEnd t.seqno then ⟨s.seqno, s.dataEnd⟩ :: sackRebuild (t :: rest)
    else sackRebuild (t :: rest)

def newSackBlocks (pcb : Pcb) : List TcpSackBlock :=
  if pcb.sackPermitted then sackRebuild pcb.ooseq else []

def Pcb.setSackBlocks (pcb : Pcb) (l : List TcpSackBlock) : Pcb := { pcb with rcvSackBlock := l }

/-- The segment is in the window and not the next in sequence. More runs than `rcv_sack_block` has
room for are written past its end. -/
def receiveOos (env : Env) (d : InData) (c : Conn) : Conn :=
  let pcb := oosInsert env d c.pcb
  if lwipTcpSackBlockLen < (newSackBlocks pcb).length then { c with fault := true }
  else tcpSendEmptyAck env 1 { c with pcb := pcb.setSackBlocks (newSackBlocks pcb) }

/-- The half of `tcp_receive` that takes the text. -/
def tcpReceiveData (env : Env) (d : InData) (c : Conn) : Conn × InData :=
  if 0 < d.tcplen ∧ c.pcb.state.num < TcpState.num .closeWait then
    let late := !decide (needsTrim c.pcb.rcvNxt d) && decide (TcpSeqLt d.seqno c.pcb.rcvNxt)
    let d := if needsTrim c.pcb.rcvNxt d then trimFirstEdge c.pcb.rcvNxt d else d
    let c := if late then { c with pcb := tcpAckNow c.pcb } else c
    if TcpSeqBetween d.seqno c.pcb.rcvNxt (c.pcb.rcvNxt + c.pcb.rcvWnd - 1) then
      if c.pcb.rcvNxt = d.seqno then
        let r := receiveInseq c.pcb d
        ({ c with pcb := r.1 }, r.2)
      else (receiveOos env d c, d)
    else (tcpSendEmptyAck env 1 c, d)
  else (c, d)

def tcpReceive (env : Env) (cc : CcAlgo) (d : InData) (c : Conn) : Conn × InData :=
  tcpReceiveData env d (tcpReceiveAck env cc d c)

end LibvmaTlt.Lwip
