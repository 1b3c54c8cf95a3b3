import LibvmaTlt.Lwip.Pbuf
import LibvmaTlt.Lwip.Tlt
import LibvmaTlt.Lwip.Congestion

/-!
# Building and sending segments (`tcp_out.c`)

A call works on a `Conn`: the pcb together with what the call did outside it, the packets it passed
to `ip_output` and the segments it freed. What the surrounding library decides comes in as an
`Env`: the clock, whether an allocation succeeds, whether a buffer is still referenced by the ring,
and the stale contents of a fresh buffer. Each place of a call that asks has its own answer.

A tail pointer whose segment has been freed is read by the code all the same; the model stops there
with `fault`.
-/

namespace LibvmaTlt.Lwip

/-! ## Packets and the world outside the pcb -/

/-- A packet passed to `ip_output`. `opts` is what the header length covers after the fixed header,
`data` is the rest. -/
structure Packet where
  hdr : TcpHdr
  opts : List U8
  data : List U8
  tos : U8
  isRexmit : Bool := false
  isDummy : Bool := false
  deriving DecidableEq

/-- A call of `ip_output`: the pcb when the packet was decided on, the segment it came from, if
any, and the packet. -/
structure Sent where
  pcb : Pcb
  seg : Option TcpSeg
  pkt : Packet

/-- A pcb and what was done outside it, oldest first. -/
structure Conn where
  pcb : Pcb
  sent : List Sent := []
  freed : List TcpSeg := []
  fault : Bool := false

/-- Answers of the surrounding library. The first index counts the places of the call that ask. -/
structure Env where
  sysNow : U32 := 0
  tcpTicks : U32 := 0
  slowTmrInterval : Nat := 1
  rcvWndScale : Nat := 0
  enableWndScale : Bool := false
  effSendMss : Nat → Nat := fun m => m
  pbufOk : Nat → Bool := fun _ => true
  segOk : Nat → Bool := fun _ => true
  refBusy : Nat → Nat → Bool := fun _ _ => false
  stale : Nat → U8 := fun _ => 0

/-- Bytes `off, off + 1, …` of a buffer, `n` of them; past its end the memory is stale. -/
def readMem (env : Env) (buf : List U8) (off n : Nat) : List U8 :=
  (List.range n).map fun i => buf.getD (off + i) (env.stale (off + i))

@[simp] theorem length_readMem (env : Env) (buf : List U8) (off n : Nat) :
    (readMem env buf off n).length = n := by
  simp [readMem]

/-- The values `tcp_pcb_init` takes from the library's configuration. -/
structure Config where
  mss : Nat := 536
  minrto : Int := 1
  rto : Int := 1
  sa : Int := 0
  tsOpt : Bool := false
  ticks : U32 := 0

/-- `tcp_pcb_init`. The initial sequence number is always 1. -/
def tcpPcbInit (cfg : Config) : Pcb where
  state := .closed
  flags := {}
  tos := 0
  rcvNxt := 0
  rcvWnd := 0xFFFF
  rcvWndMax := 0xFFFF
  rcvAnnWnd := 0xFFFF
  rcvAnnRightEdge := 0
  tmr := cfg.ticks
  rtime := -1
  mss := cfg.mss
  advtsdMss := cfg.mss
  rttest := 0
  rtseq := 0
  sa := cfg.sa
  sv := 0
  rto := cfg.rto
  minrto := cfg.minrto
  nrtx := 0
  lastack := 1
  dupacks := 0
  cwnd := 1
  ssthresh := 0
  sndNxt := 1
  sndWnd := 0
  sndWndMax := 0
  sndWl1 := 0
  sndWl2 := 1
  sndLbb := 1
  acked := 0
  sndBuf := 1000000
  maxSndBuff := 1000000
  sndSmlSnt := 0
  sndSmlAdd := 0
  iss := 1
  sndQueuelen := 0
  maxTcpSndQueuelen := 16 * 1000000 / cfg.mss
  unsentOversize := 0
  tcpOversizeVal := cfg.mss
  maxUnsentLen := u16 (16 * 1000000 / cfg.mss)
  unsent := []
  lastUnsent := none
  unacked := []
  lastUnacked := none
  ooseq := []
  enableTsOpt := cfg.tsOpt
  tsLastacksent := 0
  tsRecent := 0
  sackPermitted := false
  rcvSackBlock := []
  soKeepalive := false
  keepIdle := 7200000
  keepCntSent := 0
  polltmr := 0
  pollinterval := 0
  persistCnt := 0
  persistBackoff := 0
  sndScale := 0
  rcvScale := 0
  tlt := tltInit
  dctcp := dctcpInit 1
  nextSeg := 0

def Pcb.wnd (pcb : Pcb) : U32 := if pcb.sndWnd < pcb.cwnd then pcb.sndWnd else pcb.cwnd

def tcpwndMin16 (x : U32) : Nat := min x.toNat 0xFFFF

/-- The segment size used when queueing and splitting: half of the largest window ever announced,
at most the MSS, and room for the timestamp option. -/
def Pcb.mssLocal (pcb : Pcb) : Nat :=
  let m := min pcb.mss (pcb.sndWndMax.toNat / 2)
  let m := if m ≠ 0 then m else pcb.mss
  if pcb.flags.timestamp then max m (lwipTcpOptLenTs + 1) else m

def Pcb.dataOpts (pcb : Pcb) : SegOpts := { ts := pcb.flags.timestamp }

/-! ## Options -/

def be32 (w : U32) : List U8 :=
  [(w >>> 24).setWidth 8, (w >>> 16).setWidth 8, (w >>> 8).setWidth 8, w.setWidth 8]

def tcpBuildTimestampOption (env : Env) (pcb : Pcb) : List U8 :=
  be32 0x0101080A ++ be32 env.sysNow ++ be32 pcb.tsRecent

def tcpBuildSackPermOption : List U8 := be32 0x04020101

/-- The number of blocks `tcp_build_sack_option` reports. -/
def sackElements (pcb : Pcb) : Nat :=
  let optlen := lwipTcpOptLengthLegacy { ts := pcb.flags.timestamp }
  if optlen ≤ 28 ∧ pcb.rcvSackBlock.length ≠ 0 then min ((36 - optlen) / 8) pcb.rcvSackBlock.length
  else 0

/-- The blocks `tcp_build_sack_option` reports. -/
def sackReported (pcb : Pcb) : List TcpSackBlock := pcb.rcvSackBlock.take (sackElements pcb)

def tcpBuildSackOption (pcb : Pcb) : List U8 :=
  let n := sackElements pcb
  if n = 0 then []
  else be32 (0x01010500 ||| u32 (n * 8 + 2)) ++
    (sackReported pcb).flatMap fun b => be32 b.blockLe ++ be32 b.blockRe

/-- Options written over the start of a packet body; what does not fit is not sent. -/
def overlay (built body : List U8) : List U8 := built.take body.length ++ body.drop built.length

/-! ## Empty ACKs and probes -/

/-- `tcp_output_alloc_header`: the header of a packet without data. -/
def tcpOutputAllocHeader (pcb : Pcb) (optlen : Nat) (seqno : U32) (flags : TcphFlags) : TcpHdr :=
  ⟨seqno, pcb.rcvNxt, 5 + optlen / 4, flags, tcpwndMin16 (pcb.rcvAnnWnd >>> pcb.rcvScale)⟩

/-- The option length of an empty ACK. With SACK permitted the timestamp option is not counted. -/
def emptyAckOptlen (pcb : Pcb) : Nat :=
  if pcb.sackPermitted then lwipTcpOptLength pcb {}
  else if pcb.flags.timestamp then lwipTcpOptLength pcb { ts := true }
  else 0

def emptyAckPacket (env : Env) (pcb : Pcb) : Packet where
  hdr := tcpOutputAllocHeader pcb (emptyAckOptlen pcb) pcb.sndNxt
    (dctcpSendEmpty pcb.dctcp { ack := true }).2
  opts :=
    overlay
      ((if pcb.flags.timestamp then tcpBuildTimestampOption env pcb else []) ++
        if pcb.sackPermitted then tcpBuildSackOption pcb else [])
      (readMem env [] 0 (emptyAckOptlen pcb))
  data := []
  tos := (tltOutEmptyAck pcb).2

def emptyAckPcb (pcb : Pcb) : Pcb :=
  { pcb with
    flags := { pcb.flags with ackDelay := false, ackNow := false }
    rcvAnnRightEdge := pcb.rcvNxt + pcb.rcvAnnWnd
    tsLastacksent := pcb.rcvNxt
    dctcp := (dctcpSendEmpty pcb.dctcp { ack := true }).1
    tlt := (tltOutEmptyAck pcb).1 }

/-- `tcp_send_empty_ack`; `n` is the place of the call. -/
def tcpSendEmptyAck (env : Env) (n : Nat) (c : Conn) : Conn :=
  if env.pbufOk n then
    { c with
      pcb := emptyAckPcb c.pcb
      sent := c.sent ++ [⟨c.pcb, none, emptyAckPacket env c.pcb⟩] }
  else c

def tcpKeepalive (env : Env) (n : Nat) (c : Conn) : Conn :=
  if env.pbufOk n then
    { c with
      pcb := { c.pcb with rcvAnnRightEdge := c.pcb.rcvNxt + c.pcb.rcvAnnWnd }
      sent := c.sent ++ [⟨c.pcb, none,
        ⟨tcpOutputAllocHeader c.pcb 0 (c.pcb.sndNxt - 1) { ack := true }, [], [], c.pcb.tos, false,
          false⟩⟩] }
  else c

def tcpRst (env : Env) (n : Nat) (seqno ackno : U32) (c : Conn) : Conn :=
  if env.pbufOk n then
    { c with sent := c.sent ++ [⟨c.pcb, none,
        ⟨⟨seqno, ackno, 5, { rst := true, ack := true }, 0xFFFF⟩, [], [], c.pcb.tos, false, false⟩⟩] }
  else c

/-! ## Creating segments -/

/-- `pbuf_header(p, TCP_HLEN)` on the first pbuf of a chain. -/
def pushHeader : List Pbuf → List Pbuf
  | [] => []
  | p :: rest =>
    { payload := List.replicate tcpHlen 0 ++ p.payload, totLen := p.totLen + tcpHlen } :: rest

/-- `tcp_create_segment`, once the segment is allocated. -/
def tcpCreateSegment (pcb : Pcb) (p : List Pbuf) (flags : TcphFlags) (seqno : U32)
    (optflags : SegOpts) : Pcb × TcpSeg :=
  let optlen := lwipTcpOptLength pcb optflags
  ({ pcb with nextSeg := pcb.nextSeg + 1 },
    { addr := pcb.nextSeg, seqno := seqno, len := u16 (pbufTotLen p + 65536 - optlen),
      p := pushHeader p, opts := optflags, flags := flags, hdrlen := 5 + optlen / 4 })

def memAlignSize (n : Nat) : Nat := (n + 3) / 4 * 4

/-- The extra tail room `tcp_pbuf_prealloc` leaves behind `length` bytes. -/
def tcpPbufPrealloc (pcb : Pcb) (length maxLength : Nat) (more firstSeg : Bool) : Nat :=
  if length < maxLength ∧ (more ∨ (!pcb.flags.nodelay ∧
      (!firstSeg ∨ pcb.unsent ≠ [] ∨ pcb.unacked ≠ []))) then
    min maxLength (memAlignSize (length + pcb.tcpOversizeVal)) - length
  else 0

end LibvmaTlt.Lwip
