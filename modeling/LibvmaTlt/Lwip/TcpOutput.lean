import LibvmaTlt.Lwip.TcpWrite

/-!
# Sending what is queued (`tcp_output`, `tcp_split_segment`, `tcp_rexmit*`)

`tcp_output` first looks for data to retransmit by force, which TLT does when an importance token is
held and nothing fits the window, and then runs the send loop. `outputLoop` is that loop; the sticky
`force_transmit` flag is its parameter.
-/

namespace LibvmaTlt.Lwip

/-! ## `tcp_split_segment` -/

/-- The walk of `tcp_split_segment` along a chain: the bytes in front, the pbufs in front and the
pbufs behind the cut. `none` where the source returns without splitting. -/
def splitWalk (env : Env) (n : Nat) (hdr : Nat) (lentosend : U32) :
    Nat → Nat → List Pbuf → List Pbuf → Option (Nat × List Pbuf × List Pbuf)
  | _, _, _, [] => none
  | k, headlen, front, q :: rest =>
    if u32 (headlen + q.len) - u32 hdr ≤ lentosend then
      if env.refBusy n (k + 1) then none
      else splitWalk env n hdr lentosend (k + 1) (headlen + q.len) (front ++ [q]) rest
    else some (headlen, front, q :: rest)

/-- `tot_len` of every pbuf of a chain from the lengths behind it. -/
def retotal : List Pbuf → List Pbuf
  | [] => []
  | p :: rest => { p with totLen := p.len + pbufLen rest } :: retotal rest

theorem pbufBytes_retotal (p : List Pbuf) : pbufBytes (retotal p) = pbufBytes p := by
  induction p with
  | nil => rfl
  | cons q rest ih => rw [retotal, pbufBytes_cons, pbufBytes_cons, ih]

/-- The two segments a split leaves, with the tail room of the second. -/
structure SplitSegs where
  pcb : Pcb
  seg : TcpSeg
  newseg : TcpSeg
  oversize : Nat
  grows : Bool

/-- The cut of `tcp_split_segment`: inside the first pbuf, or between two pbufs of the chain. -/
def splitCut (env : Env) (n : Nat) (pcb : Pcb) (seg : TcpSeg) (lentosend : U32) :
    Option SplitSegs :=
  let optlen := lwipTcpOptLength pcb pcb.dataOpts
  let hdr := tcpHlen + optlen
  match seg.p with
  | [] => none
  | p0 :: rest =>
    if p0.len > hdr + lentosend.toNat then
      let lentoqueue := p0.len - hdr - lentosend.toNat
      let length := u16 (lentoqueue + optlen)
      if !env.pbufOk (n + 1) ∨ !env.segOk (n + 1) then none
      else
        let p : Pbuf :=
          ⟨(readMem env [] 0 optlen ++
              readMem env (p0.payload.drop tcpHlen) lentosend.toNat lentoqueue).take length,
            pbufTotLen seg.p - lentosend.toNat - tcpHlen⟩
        let r := tcpCreateSegment pcb (p :: rest) { psh := true } (seg.seqno + lentosend)
          pcb.dataOpts
        let len0 := p0.len - lentoqueue
        some ⟨r.1, { seg with p := [⟨p0.payload.take len0, len0⟩], len := u16 (len0 - hdr) },
          { r.2 with opts := seg.opts },
          tcpPbufPrealloc pcb length pcb.mssLocal false false, true⟩
    else if rest = [] then none
    else
      match splitWalk env n hdr lentosend 0 p0.len [p0] rest with
      | none => none
      | some (headlen, front, back) =>
        if !env.segOk (n + 1) then none
        else
          let r := tcpCreateSegment pcb back {} (seg.seqno + (u32 headlen - u32 hdr)) pcb.dataOpts
          some ⟨r.1, { seg with p := retotal front, len := u16 (headlen + 65536 - hdr) },
            { r.2 with opts := seg.opts }, 0, false⟩

/-- The head `seg` of the unsent queue replaced by the two segments of a split. -/
def Pcb.splitInto (pcb : Pcb) (seg : TcpSeg) (rest : List TcpSeg) (s : SplitSegs) : Pcb :=
  { pcb with
    nextSeg := s.pcb.nextSeg
    unsent := s.seg :: s.newseg :: rest
    sndQueuelen := if s.grows then pcb.sndQueuelen + 1 else pcb.sndQueuelen
    lastUnsent := if pcb.lastUnsent = some seg.addr then some s.newseg.addr else pcb.lastUnsent
    unsentOversize :=
      if pcb.lastUnsent = some seg.addr ∧ s.grows then s.oversize else pcb.unsentOversize }

/-- `tcp_split_segment` on the head of the unsent queue. -/
def tcpSplitSegment (env : Env) (n : Nat) (pcb : Pcb) (wnd : U32) : Pcb :=
  match pcb.unsent with
  | [] => pcb
  | seg :: rest =>
    if seg.p = [] ∨ seg.seqno - pcb.lastack ≥ wnd ∨ env.refBusy n 0 then pcb
    else
      match splitCut env n pcb seg (wnd - (seg.seqno - pcb.lastack)) with
      | none => pcb
      | some s => pcb.splitInto seg rest s

/-! ## `tcp_output_segment` -/

/-- The options written into a data segment. Nothing is written for SACK blocks, though the header
length counts them. -/
def segOptions (env : Env) (pcb : Pcb) (seg : TcpSeg) : List U8 :=
  (if seg.opts.mss then be32 (0x02040000 ||| u32 pcb.advtsdMss) else []) ++
  (if seg.opts.wndscale then be32 (0x01030300 ||| u32 env.rcvWndScale) else []) ++
  (if seg.opts.ts then tcpBuildTimestampOption env pcb else []) ++
  (if seg.opts.sackPerm then tcpBuildSackPermOption else [])

/-- The segment with the marks `tcp_output_segment` gives it, and the new `tlt`. -/
def markSegment (pcb : Pcb) (seg : TcpSeg) : TltParam × TcpSeg :=
  tltOut pcb (dctcpSend pcb.dctcp { seg with tos := pcb.tos }).2

def segmentPacket (env : Env) (pcb : Pcb) (seg : TcpSeg) : Packet :=
  let body := overlay (segOptions env pcb seg) ((pbufBytes seg.p).drop tcpHlen)
  let optbytes := seg.hdrlen * 4 - tcpHlen
  { hdr :=
      ⟨seg.seqno, pcb.rcvNxt, seg.hdrlen, seg.flags,
        tcpwndMin16 (if seg.opts.wndscale then pcb.rcvAnnWnd else pcb.rcvAnnWnd >>> pcb.rcvScale)⟩
    opts := body.take optbytes
    data := body.drop optbytes
    tos := seg.tos
    isRexmit := seg.seqno < pcb.sndNxt
    isDummy := seg.isDummy }

/-- The pcb once the segment is out: what was announced to the peer and, but for a dummy, the
retransmission timer and the segment timed for the RTT. -/
def Pcb.segmentOut (pcb : Pcb) (env : Env) (seg : TcpSeg) : Pcb :=
  { pcb with
    dctcp := (dctcpSend pcb.dctcp seg).1
    tlt := (markSegment pcb seg).1
    rcvAnnRightEdge := if seg.isDummy then pcb.rcvAnnRightEdge else pcb.rcvNxt + pcb.rcvAnnWnd
    tsLastacksent := if seg.isDummy then pcb.tsLastacksent else pcb.rcvNxt
    rtime := if seg.isDummy ∨ pcb.rtime ≠ -1 then pcb.rtime else 0
    rttest := if seg.isDummy ∨ pcb.rttest ≠ 0 then pcb.rttest else env.tcpTicks
    rtseq := if seg.isDummy ∨ pcb.rttest ≠ 0 then pcb.rtseq else seg.seqno }

/-- `tcp_output_segment`: the pcb, the segment and the packet. -/
def tcpOutputSegment (env : Env) (pcb : Pcb) (seg : TcpSeg) : Pcb × TcpSeg × Packet :=
  (pcb.segmentOut env seg, (markSegment pcb seg).2, segmentPacket env pcb (markSegment pcb seg).2)

/-! ## The send loop -/

/-- `seg->seqno - pcb->lastack + seg->len <= wnd`. -/
def fitsWnd (pcb : Pcb) (seg : TcpSeg) (wnd : U32) : Bool :=
  seg.seqno - pcb.lastack + u32 seg.len ≤ wnd

def tcpDoOutputNagle (pcb : Pcb) : Bool :=
  pcb.unacked = [] || pcb.flags.nodelay || pcb.flags.infr ||
  (match pcb.unsent with
    | [] => false
    | s :: rest => rest ≠ [] || pcb.mss ≤ s.len) ||
  pcb.sndBuf = 0 || pcb.maxTcpSndQueuelen ≤ pcb.sndQueuelen

def nagleHolds (pcb : Pcb) (seg : TcpSeg) : Bool :=
  !tcpDoOutputNagle pcb && !seg.isDummy && !(pcb.flags.naglememerr || pcb.flags.fin)

def nagleStop (pcb : Pcb) (seg : TcpSeg) : Bool :=
  nagleHolds pcb seg && u32 ((pcb.unacked.head?.map TcpSeg.len).getD 0) < pcb.sndSmlSnt

def insertSorted (seg : TcpSeg) : List TcpSeg → List TcpSeg
  | [] => [seg]
  | s :: rest => if TcpSeqLt s.seqno seg.seqno then s :: insertSorted seg rest else seg :: s :: rest

def upTo (a : Nat) : List TcpSeg → List TcpSeg
  | [] => []
  | s :: rest => if s.addr = a then [s] else s :: upTo a rest

def Pcb.setUnacked (pcb : Pcb) (l : List TcpSeg) (last : Option Nat) : Pcb :=
  { pcb with unacked := l, lastUnacked := last }

/-- A sent segment goes on the unacknowledged list; `none` when `last_unacked` is no longer on it, where
the code writes through a stale pointer. -/
def queueUnacked (pcb : Pcb) (seg : TcpSeg) : Option Pcb :=
  if pcb.unacked = [] then some (pcb.setUnacked [seg] (some seg.addr))
  else
    match pcb.lastUnacked with
    | none => none
    | some a =>
      match pcb.unacked.find? (·.addr = a) with
      | none => none
      | some useg =>
        if TcpSeqLt seg.seqno useg.seqno then
          some (pcb.setUnacked (insertSorted seg pcb.unacked) pcb.lastUnacked)
        else some (pcb.setUnacked (upTo a pcb.unacked ++ [seg]) (some seg.addr))

/-- `snd_sml_snt` after the Nagle block has let the segment through. -/
def nextSmlSnt (force : Bool) (pcb : Pcb) (seg : TcpSeg) (rest : List TcpSeg) : U32 :=
  if !force && nagleHolds pcb seg &&
      u32 ((rest.head?.map TcpSeg.len).getD 0 + seg.len) ≤ pcb.sndSmlAdd
  then pcb.sndSmlAdd else pcb.sndSmlSnt

def ackBeforeDummy (env : Env) (n : Nat) (seg : TcpSeg) (c : Conn) : Conn :=
  if seg.isDummy && (c.pcb.flags.ackDelay || c.pcb.flags.ackNow) then tcpSendEmptyAck env (n + 1) c
  else c

def Pcb.takeHead (pcb : Pcb) (rest : List TcpSeg) (smlSnt : U32) : Pcb :=
  { pcb with unsent := rest, sndSmlSnt := smlSnt }

def Pcb.clearAck (pcb : Pcb) : Pcb :=
  { pcb with flags := { pcb.flags with ackDelay := false, ackNow := false } }

def TcpSeg.setAck (seg : TcpSeg) : TcpSeg := { seg with flags := { seg.flags with ack := true } }

/-- The part of the loop body before `tcp_output_segment`: the head leaves the queue and the segment
acknowledges. -/
def beforeSend (env : Env) (force : Bool) (n : Nat) (c : Conn) (seg : TcpSeg) (rest : List TcpSeg) :
    Conn × TcpSeg :=
  let c := ackBeforeDummy env n seg
    { c with pcb := c.pcb.takeHead rest (nextSmlSnt force c.pcb seg rest) }
  if c.pcb.state = .synSent then (c, seg) else ({ c with pcb := c.pcb.clearAck }, seg.setAck)

/-- `snd_nxt` moves to the end of a segment that is not a dummy. -/
def Pcb.bumpSndNxt (pcb : Pcb) (seg : TcpSeg) : Pcb :=
  { pcb with
    sndNxt := if TcpSeqLt pcb.sndNxt seg.seqEnd ∧ !seg.isDummy then seg.seqEnd else pcb.sndNxt }

/-- A dummy segment gives back the sequence space and the buffer it took. -/
def Pcb.dropDummy (pcb : Pcb) (seg : TcpSeg) : Pcb :=
  { pcb with
    sndLbb := pcb.sndLbb - u32 seg.len
    sndBuf := pcb.sndBuf + u32 seg.len
    sndQueuelen := pcb.sndQueuelen - pbufClen seg.p }

/-- The part of the loop body after `tcp_output_segment`: the segment goes to `unacked` unless it is
forced, empty or a dummy. `none` as for `queueUnacked`. -/
def afterSend (force : Bool) (seg : TcpSeg) (pcb : Pcb) : Option Pcb :=
  let pcb := pcb.bumpSndNxt seg
  if !force ∧ 0 < seg.tcplen then
    if seg.isDummy then some (pcb.dropDummy seg) else queueUnacked pcb seg
  else some pcb

def notKept (force : Bool) (seg : TcpSeg) : Bool := force || seg.tcplen = 0 || seg.isDummy

/-- The part of the loop body that sends the head `seg` of the unsent queue. -/
def sendHead (env : Env) (force : Bool) (n : Nat) (c : Conn) (seg : TcpSeg) (rest : List TcpSeg) :
    Conn :=
  let r := beforeSend env force n c seg rest
  let o := tcpOutputSegment env r.1.pcb r.2
  let out : Conn := { r.1 with
    pcb := o.1
    sent := r.1.sent ++ [⟨c.pcb, some o.2.1, o.2.2⟩]
    freed := if notKept force o.2.1 then r.1.freed ++ [o.2.1] else r.1.freed }
  match afterSend force o.2.1 o.1 with
  | none => { out with fault := true }
  | some pcb => { out with pcb := pcb }

/-- The split of the loop: only a head that does not fit, with nothing unacknowledged. -/
def splitHead (env : Env) (force : Bool) (wnd : U32) (n : Nat) (pcb : Pcb) : Pcb :=
  match pcb.unsent with
  | [] => pcb
  | seg :: _ =>
    if !force ∧ pcb.unacked = [] ∧ wnd ≠ 0 ∧ !fitsWnd pcb seg wnd then tcpSplitSegment env n pcb wnd
    else pcb

def outputLoop (env : Env) (force : Bool) (wnd : U32) : Nat → Nat → Conn → Conn
  | 0, _, c => c
  | f + 1, n, c =>
    let c := { c with pcb := splitHead env force wnd n c.pcb }
    match c.pcb.unsent with
    | [] => c
    | seg :: rest =>
      if fitsWnd c.pcb seg wnd || force then
        if !force && nagleStop c.pcb seg then c
        else
          let c := sendHead env force n c seg rest
          if c.fault then c else outputLoop env force wnd f (n + 1) c
      else c

/-- Passes that are enough for the loop: each sends a segment, and a split cuts bytes or pbufs off
the head. -/
def outputFuel (l : List TcpSeg) : Nat :=
  (l.map fun s => pbufLen s.p + (tcpHlen + 1) * s.p.length + 1).sum + 1

/-! ## Forced retransmission -/

/-- No data can be sent: there is none, or the head does not fit the window. -/
def noData (pcb : Pcb) : Bool :=
  match pcb.unsent with
  | [] => true
  | s :: _ => !fitsWnd pcb s pcb.wnd

def forceWanted (pcb : Pcb) : Bool :=
  (match pcb.unacked with
    | [] => false
    | u :: _ => u.len ≠ 0 && !u.flags.syn) &&
  noData pcb && pcb.tlt.sendState ≠ .idle

/-- `target_len` before the target is known: a full segment if a block was lost, else one byte. -/
def forceLen (pcb : Pcb) : Nat := if tltIsLost pcb.tlt false then 1460 else 1

def forceSeq (pcb : Pcb) : Option U32 :=
  let r := tltUimpqPeek pcb.tlt (u32 (forceLen pcb))
  if r.2 ≠ 0 then some (r.1 + pcb.iss) else none

/-- The unacknowledged segment that holds it, by unsigned comparison. -/
def forceTarget (pcb : Pcb) (seq : U32) : Option TcpSeg :=
  pcb.unacked.find? fun s => s.seqno ≤ seq && seq ≤ s.dataEnd

def forceTargetLen (pcb : Pcb) (seq : U32) (target : TcpSeg) : Nat :=
  min (forceLen pcb) (target.dataEnd - seq).toNat

/-- The range leaves the queue of unimportant data and the token is to be sent with force. -/
def Pcb.forcePop (pcb : Pcb) (targetLen : Nat) : Pcb :=
  { pcb with tlt := { tltUimpqPop pcb.tlt (u32 targetLen) (pcb.tlt.curRound - 2) with
      sendState := .pendingForce } }

/-- The pbuf of the copy: the bytes of the first pbuf of the target from `seq` on. -/
def forcePbuf (env : Env) (pcb : Pcb) (seq : U32) (target : TcpSeg) (targetLen : Nat) : Pbuf :=
  let optlen := lwipTcpOptLength pcb pcb.dataOpts
  let src := (target.p.head?.map Pbuf.payload).getD []
  ⟨readMem env [] 0 optlen ++ readMem env (src.drop tcpHlen) (seq - target.seqno).toNat targetLen,
    targetLen + optlen⟩

def forceCopy (env : Env) (pcb : Pcb) (seq : U32) (target : TcpSeg) : TcpSeg :=
  { (tcpCreateSegment pcb [forcePbuf env pcb seq target (forceTargetLen pcb seq target)] {} seq
      pcb.dataOpts).2 with opts := target.opts }

def Pcb.pushUnsent (pcb : Pcb) (seg : TcpSeg) : Pcb :=
  { pcb with unsent := seg :: pcb.unsent, nextSeg := pcb.nextSeg + 1 }

/-- The forced-retransmission block of `tcp_output`: the pcb, and whether it queued a copy at the
head of `unsent`. -/
def forceTransmit (env : Env) (pcb : Pcb) : Pcb × Bool :=
  if !forceWanted pcb then (pcb, false)
  else
    match forceSeq pcb with
    | none => (pcb, false)
    | some seq =>
      match forceTarget pcb seq with
      | none => (pcb, false)
      | some target =>
        let popped := pcb.forcePop (forceTargetLen pcb seq target)
        if !env.pbufOk 0 ∨ !env.segOk 0 then (popped, false)
        else (popped.pushUnsent (forceCopy env pcb seq target), true)

/-! ## `tcp_output` -/

def Pcb.outputDone (pcb : Pcb) : Pcb :=
  { pcb with
    unsentOversize := if pcb.unsent = [] then 0 else pcb.unsentOversize
    flags := { pcb.flags with naglememerr := false } }

/-- `tcp_output`, called outside input processing. -/
def tcpOutput (env : Env) (c : Conn) : Conn :=
  if c.pcb.flags.ackNow && noData c.pcb then tcpSendEmptyAck env 0 c
  else
    let r := forceTransmit env c.pcb
    let c := outputLoop env r.2 c.pcb.wnd (outputFuel r.1.unsent) 0 { c with pcb := r.1 }
    { c with pcb := c.pcb.outputDone }

/-! ## Retransmission -/

/-- `tcp_rexmit_rto` up to its call of `tcp_output`. -/
def tcpRexmitRtoRequeue (pcb : Pcb) : Pcb :=
  if pcb.unacked = [] then pcb
  else { pcb with
    unsent := pcb.unacked ++ pcb.unsent
    unacked := []
    nrtx := (pcb.nrtx + 1) % 256
    rttest := 0 }

def tcpRexmitRto (env : Env) (c : Conn) : Conn :=
  if c.pcb.unacked = [] then c
  else tcpOutput env { c with pcb := tcpRexmitRtoRequeue c.pcb }

def tcpRexmit (pcb : Pcb) : Pcb :=
  match pcb.unacked with
  | [] => pcb
  | seg :: rest =>
    let unsent := insertSorted seg pcb.unsent
    { pcb with
      unacked := rest
      unsent := unsent
      unsentOversize :=
        if (unsent.getLast?.map TcpSeg.addr) = some seg.addr then 0 else pcb.unsentOversize
      nrtx := (pcb.nrtx + 1) % 256
      rttest := 0 }

def Pcb.setInfr (pcb : Pcb) (b : Bool) : Pcb := { pcb with flags := { pcb.flags with infr := b } }

def tcpRexmitFast (cc : CcAlgo) (pcb : Pcb) : Pcb :=
  if pcb.unacked ≠ [] ∧ !pcb.flags.infr then
    let pcb := tcpRexmit pcb
    (pcb.setCwnd (cc.congSignal pcb .ndupack)).setInfr true
  else pcb

end LibvmaTlt.Lwip
