import LibvmaTlt.Lwip.TcpReceive

/-!
# Input processing (`L3_level_tcp_input`, `tcp_process`, `tcp_parseopt`)

`tcpInput` is `L3_level_tcp_input` for a connection, up to the call of `tcp_output` at its end.
`tcp_output` does nothing while a segment of its pcb is being processed, so nothing is sent before
that but ACKs and resets. The receive callback of the library takes all data it is given.
-/

namespace LibvmaTlt.Lwip

/-- A packet with its IP header taken off. `optMem` is the memory behind the fixed TCP header, of which
the header length covers a part; `p` is the payload. -/
structure InPkt where
  hdr : TcpHdr
  optMem : Nat → U8
  p : List Pbuf
  tos : U8

/-- The locals of `L3_level_tcp_input` for a packet. -/
def InPkt.inData (pkt : InPkt) : InData where
  hdr := pkt.hdr
  seqno := pkt.hdr.seqno
  tcplen := u16 (pbufTotLen pkt.p + if pkt.hdr.flags.fin || pkt.hdr.flags.syn then 1 else 0)
  inseg :=
    { addr := 0, seqno := pkt.hdr.seqno, len := u16 (pbufTotLen pkt.p), p := pkt.p,
      flags := pkt.hdr.flags, hdrlen := pkt.hdr.hdrlen, tos := pkt.tos }

/-! ## Options -/

/-- The word at offset `c`, in network byte order. -/
def beWord (m : Nat → U8) (c : Nat) : U32 := m c ++ m (c + 1) ++ m (c + 2) ++ m (c + 3)

/-- `k` SACK blocks from offset `c` on. -/
def sackBlocksAt (m : Nat → U8) : Nat → Nat → List TcpSackBlock
  | 0, _ => []
  | k + 1, c => ⟨beWord m c, beWord m (c + 4)⟩ :: sackBlocksAt m k (c + 8)

def updatePcbByMss (pcb : Pcb) (sndMss : Nat) : Pcb :=
  { pcb with
    mss := sndMss
    maxTcpSndQueuelen := 16 * pcb.maxSndBuff / sndMss
    maxUnsentLen := u16 (16 * pcb.maxSndBuff / sndMss)
    tcpOversizeVal := sndMss }

def parseMss (d : InData) (mss : Nat) (pcb : Pcb) : Pcb :=
  if d.hdr.flags.syn then
    updatePcbByMss pcb (if mss > pcb.advtsdMss ∨ mss = 0 then pcb.advtsdMss else mss)
  else pcb

def parseWndScale (env : Env) (d : InData) (shift : Nat) (pcb : Pcb) : Pcb :=
  if env.enableWndScale ∧ d.hdr.flags.syn ∧ !pcb.flags.wndScale then
    { pcb with
      sndScale := min shift 14
      rcvScale := env.rcvWndScale
      flags := { pcb.flags with wndScale := true } }
  else pcb

def parseTs (d : InData) (tsval : U32) (pcb : Pcb) : Pcb :=
  if d.hdr.flags.syn then
    if pcb.enableTsOpt then
      { pcb with tsRecent := tsval, flags := { pcb.flags with timestamp := true } }
    else pcb
  else if TcpSeqBetween pcb.tsLastacksent d.seqno (d.seqno + u32 d.tcplen) then
    { pcb with tsRecent := tsval }
  else pcb

/-- The loop of `tcp_parseopt` from offset `c` on. `none` when it does not end, and when it writes
past the four entries of `sack_block`. -/
def parseoptLoop (env : Env) (m : Nat → U8) (maxC : Nat) (d : InData) :
    Nat → Nat → Pcb → List TcpSackBlock → Option (Pcb × List TcpSackBlock)
  | 0, c, pcb, sack => if c < maxC then none else some (pcb, sack)
  | f + 1, c, pcb, sack =>
    if c < maxC then
      let len := (m (c + 1)).toNat
      match (m c).toNat with
      | 0 => some (pcb, sack)
      | 1 => parseoptLoop env m maxC d f (c + 1) pcb sack
      | 2 =>
        if len ≠ 4 ∨ c + 4 > maxC then some (pcb, sack)
        else parseoptLoop env m maxC d f (c + 4)
          (parseMss d ((m (c + 2)).toNat * 256 + (m (c + 3)).toNat) pcb) sack
      | 3 =>
        if len ≠ 3 ∨ c + 3 > maxC then some (pcb, sack)
        else parseoptLoop env m maxC d f (c + 3) (parseWndScale env d (m (c + 2)).toNat pcb) sack
      | 4 =>
        parseoptLoop env m maxC d f (c + 2)
          (if d.hdr.flags.syn then { pcb with sackPermitted := true } else pcb) sack
      | 5 =>
        if len ≥ 10 then
          if 4 < (len - 2) / 8 then none
          else parseoptLoop env m maxC d f (c + 2 + 8 * ((len - 2) / 8)) pcb
            (sackBlocksAt m ((len - 2) / 8) (c + 2))
        else parseoptLoop env m maxC d f (c + len) pcb sack
      | 8 =>
        if len ≠ 10 ∨ c + 10 > maxC then some (pcb, sack)
        else parseoptLoop env m maxC d f (c + 10) (parseTs d (beWord m (c + 2)) pcb) sack
      | _ =>
        if len = 0 then some (pcb, sack) else parseoptLoop env m maxC d f (c + len) pcb sack
    else some (pcb, sack)

/-- `tcp_parseopt`. An option that does not move the offset repeats for ever, every other one moves
it, so as many passes as there are option bytes are enough. -/
def tcpParseopt (env : Env) (m : Nat → U8) (pcb : Pcb) (d : InData) :
    Option (Pcb × List TcpSackBlock) :=
  parseoptLoop env m ((d.hdr.hdrlen - 5) * 4) d ((d.hdr.hdrlen - 5) * 4) 0 pcb []

/-! ## Dropping a pcb -/

def Pcb.purged (pcb : Pcb) : Pcb :=
  { pcb with ooseq := [], rtime := -1, unsent := [], unacked := [], unsentOversize := 0 }

def tcpPcbPurge (c : Conn) : Conn :=
  if c.pcb.state = .closed ∨ c.pcb.state = .timeWait ∨ c.pcb.state = .listen then c
  else
    { c with
      pcb := c.pcb.purged
      freed := c.freed ++ c.pcb.ooseq ++ c.pcb.unsent ++ c.pcb.unacked }

/-- The pcb closed; a delayed ACK is turned into one to be sent at once. -/
def Pcb.removed (pcb : Pcb) : Pcb :=
  { pcb with
    state := .closed
    flags := { pcb.flags with
      ackNow := pcb.flags.ackNow || (pcb.flags.ackDelay && pcb.state ≠ .timeWait) } }

/-- `tcp_pcb_remove`, called during input processing: the delayed ACK is not sent. -/
def tcpPcbRemove (c : Conn) : Conn :=
  let c := tcpPcbPurge c
  { c with pcb := c.pcb.removed }

/-- `tcp_abort`, called during input processing. -/
def tcpAbort (env : Env) (n : Nat) (c : Conn) : Conn :=
  let r := tcpPcbRemove c
  if c.pcb.state = .timeWait ∨ c.pcb.state = .closed then r
  else tcpRst env n c.pcb.sndNxt c.pcb.rcvNxt r

/-! ## The state machine -/

def rstReply (env : Env) (d : InData) (c : Conn) : Conn :=
  tcpRst env 0 d.hdr.ackno (d.seqno + u32 d.tcplen) c

def synSentAck (env : Env) (cc : CcAlgo) (d : InData) (c : Conn) : Conn :=
  match c.pcb.unacked with
  | [] => { c with fault := true }
  | rseg :: rest =>
    let w := sndWndScale c.pcb d.hdr.wnd
    let pcb := updatePcbByMss { c.pcb with
      rcvNxt := d.seqno + 1
      rcvAnnRightEdge := d.seqno + 1
      lastack := d.hdr.ackno
      sndWnd := w
      sndWndMax := w
      sndWl1 := d.seqno - 1
      state := .established } (env.effSendMss c.pcb.mss)
    let pcb := { pcb with ssthresh := u32 (pcb.mss * 10) }
    let pcb := pcb.setCwnd (cc.connInit pcb)
    { c with
      pcb := tcpAckNow { pcb with
        sndQueuelen := pcb.sndQueuelen - 1
        unacked := rest
        rtime := if rest = [] then -1 else 0
        nrtx := if rest = [] then pcb.nrtx else 0
        rttest := 0 }
      freed := c.freed ++ [rseg] }

/-- `SYN_SENT`. With nothing unacknowledged the code reads through a null pointer. -/
def processSynSent (env : Env) (cc : CcAlgo) (d : InData) (c : Conn) : Conn :=
  if d.hdr.flags.ack ∧ d.hdr.flags.syn ∧ c.pcb.unacked = [] then { c with fault := true }
  else if d.hdr.flags.ack ∧ d.hdr.flags.syn ∧
      c.pcb.unacked.head?.map (·.seqno + 1) = some d.hdr.ackno then synSentAck env cc d c
  else if d.hdr.flags.ack then rstReply env d c
  else c

/-- `SYN_RCVD`. The accept callback takes the connection. -/
def processSynRcvd (env : Env) (cc : CcAlgo) (d : InData) (c : Conn) : Conn × InData :=
  if d.hdr.flags.ack then
    if TcpSeqBetween d.hdr.ackno (c.pcb.lastack + 1) c.pcb.sndNxt then
      let r := tcpReceive env cc d { c with pcb := { c.pcb with state := .established } }
      let pcb := { r.1.pcb with
        acked := if r.1.pcb.acked ≠ 0 then r.1.pcb.acked - 1 else 0
        cwnd := c.pcb.cwnd }
      let pcb := pcb.setCwnd (cc.connInit pcb)
      ({ r.1 with pcb := if r.2.gotFin then { tcpAckNow pcb with state := .closeWait } else pcb },
        r.2)
    else (rstReply env d c, d)
  else if d.hdr.flags.syn ∧ d.seqno = c.pcb.rcvNxt - 1 then ({ c with pcb := tcpRexmit c.pcb }, d)
  else (c, d)

def acksAll (d : InData) (pcb : Pcb) : Bool := d.hdr.flags.ack && d.hdr.ackno = pcb.sndNxt

def Pcb.setState (pcb : Pcb) (s : TcpState) : Pcb := { pcb with state := s }

/-- `tcp_pcb_purge` and the move to `TIME_WAIT`. -/
def toTimeWait (c : Conn) : Conn :=
  let c := tcpPcbPurge c
  { c with pcb := c.pcb.setState .timeWait }

/-- What follows `tcp_receive` in each state. -/
def afterReceive (state : TcpState) (d : InData) (c : Conn) : Conn × InData :=
  match state with
  | .established | .closeWait =>
    (if d.gotFin then { c with pcb := (tcpAckNow c.pcb).setState .closeWait } else c, d)
  | .finWait1 =>
    (if d.gotFin then
      if acksAll d c.pcb then toTimeWait { c with pcb := tcpAckNow c.pcb }
      else { c with pcb := (tcpAckNow c.pcb).setState .closing }
    else if acksAll d c.pcb then { c with pcb := c.pcb.setState .finWait2 }
    else c, d)
  | .finWait2 => (if d.gotFin then toTimeWait { c with pcb := tcpAckNow c.pcb } else c, d)
  | .closing => (if acksAll d c.pcb then toTimeWait c else c, d)
  | .lastAck => (c, if acksAll d c.pcb then { d with closed := true } else d)
  | _ => (c, d)

/-- The part of `tcp_process` after the options are read. -/
def processState (env : Env) (cc : CcAlgo) (d : InData) (c : Conn) : Conn × InData :=
  match c.pcb.state with
  | .synSent => (processSynSent env cc d c, d)
  | .synRcvd => processSynRcvd env cc d c
  | .closed | .listen | .timeWait => (c, d)
  | s =>
    let r := tcpReceive env cc d c
    afterReceive s r.2 r.1

def rstAcceptable (d : InData) (pcb : Pcb) : Bool :=
  if pcb.state = .synSent then d.hdr.ackno = pcb.sndNxt
  else TcpSeqBetween d.seqno pcb.rcvNxt (pcb.rcvNxt + pcb.rcvWnd)

/-- The inactivity timer and the count of unanswered probes once a segment has arrived. -/
def Pcb.heard (pcb : Pcb) (env : Env) : Pcb :=
  { pcb with
    tmr := if pcb.flags.rxclosed then pcb.tmr else env.tcpTicks
    keepCntSent := 0 }

def Pcb.clearDelay (pcb : Pcb) : Pcb := { pcb with flags := { pcb.flags with ackDelay := false } }

def tcpProcess (env : Env) (cc : CcAlgo) (m : Nat → U8) (d : InData) (c : Conn) : Conn × InData :=
  if d.hdr.flags.rst then
    if rstAcceptable d c.pcb then ({ c with pcb := c.pcb.clearDelay }, { d with reset := true })
    else (c, d)
  else if d.hdr.flags.syn ∧ c.pcb.state ≠ .synSent ∧ c.pcb.state ≠ .synRcvd then
    ({ c with pcb := tcpAckNow c.pcb }, d)
  else
    match tcpParseopt env m (c.pcb.heard env) d with
    | none => ({ c with fault := true }, d)
    | some r => processState env cc { d with sack := r.2 } { c with pcb := r.1 }

/-! ## `L3_level_tcp_input` -/

def deliver : Nat → List Pbuf → List (List Pbuf)
  | 0, _ => []
  | f + 1, p =>
    if p = [] then []
    else (pbufSplit64k p).1 :: deliver f (pbufSplit64k p).2

/-- What an input leaves: the connection, the data handed to the receive callback, and whether
`tcp_output` is called. -/
structure Input where
  conn : Conn
  data : List (List Pbuf) := []
  output : Bool := false

def Pcb.finTaken (pcb : Pcb) : Pcb :=
  { pcb with
    rcvWnd := if pcb.rcvWnd ≠ pcb.rcvWndMax then pcb.rcvWnd + 1 else pcb.rcvWnd
    flags := { pcb.flags with rxclosed := true } }

/-- What follows `tcp_process`: data and FIN go to the application. For a FIN the receive callback
shuts down the receiving side. -/
def notify (env : Env) (d : InData) (c : Conn) : Input :=
  if d.recvData ≠ [] ∧ c.pcb.flags.rxclosed then ⟨tcpAbort env 2 c, [], false⟩
  else
    ⟨{ c with pcb := if d.gotFin then c.pcb.finTaken else c.pcb },
      deliver d.recvData.length d.recvData, true⟩

/-- `tcp_timewait_input`, up to its call of `tcp_output`. -/
def tcpTimewaitInput (env : Env) (d : InData) (c : Conn) : Input :=
  if d.hdr.flags.rst then ⟨c, [], false⟩
  else if d.hdr.flags.syn ∧
      TcpSeqBetween d.seqno c.pcb.rcvNxt (c.pcb.rcvNxt + c.pcb.rcvWnd) then
    ⟨rstReply env d c, [], false⟩
  else
    let c := if !d.hdr.flags.syn && d.hdr.flags.fin then
      { c with pcb := { c.pcb with tmr := env.tcpTicks } } else c
    if 0 < d.tcplen then ⟨{ c with pcb := tcpAckNow c.pcb }, [], true⟩ else ⟨c, [], false⟩

def pcbInActiveState (pcb : Pcb) : Bool :=
  TcpState.num .listen < pcb.state.num && pcb.state.num < TcpState.num .timeWait

/-- TLT and DCTCP look at the packet first. -/
def Pcb.marksIn (pcb : Pcb) (pkt : InPkt) : Pcb :=
  { pcb with
    tlt := tltIn pcb pkt.hdr pkt.tos
    dctcp := dctcpRecv pcb (pkt.tos &&& 3) pkt.hdr }

/-- `L3_level_tcp_input` for a packet of this connection, up to the call of `tcp_output`. -/
def tcpInput (env : Env) (cc : CcAlgo) (pkt : InPkt) (c : Conn) : Input :=
  if pcbInActiveState c.pcb then
    let r := tcpProcess env cc pkt.optMem pkt.inData { c with pcb := c.pcb.marksIn pkt }
    if r.1.fault then ⟨r.1, [], false⟩
    else if r.2.reset ∨ r.2.closed then ⟨tcpPcbRemove r.1, [], false⟩
    else notify env r.2 r.1
  else if c.pcb.state = .timeWait then tcpTimewaitInput env pkt.inData c
  else ⟨c, [], false⟩

/-- `L3_level_tcp_input`; `env'` serves the call of `tcp_output`. -/
def l3LevelTcpInput (env env' : Env) (cc : CcAlgo) (pkt : InPkt) (c : Conn) : Conn :=
  let r := tcpInput env cc pkt c
  if r.output ∧ !r.conn.fault then tcpOutput env' r.conn else r.conn

end LibvmaTlt.Lwip
