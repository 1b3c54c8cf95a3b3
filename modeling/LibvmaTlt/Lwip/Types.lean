import LibvmaTlt.Lib.CInt
import LibvmaTlt.Lib.Serial

/-!
# The data of the TCP stack

The protocol control block, its segments and pbufs, as `tcp.h`, `tcp_impl.h`, `pbuf.h`, `tlt.h`
and `dctcp.h` declare them, in the build this repository ships: `LWIP_TSO = 0`,
`LWIP_TCP_TLT = 1`, `LWIP_DCTCP = 1`, `LWIP_TCP_SACK = 1`, `LWIP_TCP_TIMESTAMPS = 1`,
`TCP_OVERSIZE` and `TCP_QUEUE_OOSEQ` on, and `LWIP_ASSERT` compiled out.

A `u32_t` that takes part in sequence arithmetic is a `BitVec 32`; `u8_t` and `u16_t` fields are
natural numbers, cut to their width where the code stores them. Queues are lists. A pointer into a
queue is the number of the segment it points at: `last_unsent` and `last_unacked` can outlive the
segment, and the model keeps that.
-/

namespace LibvmaTlt.Lwip

open Serial

abbrev U8 := BitVec 8
abbrev U32 := BitVec 32

def u16 (n : Nat) : Nat := n % 65536

/-- A value converted to a `u32_t`. -/
abbrev u32 (n : Nat) : U32 := BitVec.ofNat 32 n

theorem u32_sub {a b : Nat} (h : b ≤ a) : u32 a - u32 b = u32 (a - b) := by
  have hab : u32 a = u32 (a - b) + u32 b := by rw [← BitVec.ofNat_add, Nat.sub_add_cancel h]
  rw [hab, BitVec.add_sub_cancel]

/-! ## Sequence comparisons (`TCP_SEQ_*`) -/

abbrev TcpSeqLt (a b : U32) : Prop := Lt a b
abbrev TcpSeqLeq (a b : U32) : Prop := Le a b
abbrev TcpSeqGt (a b : U32) : Prop := Gt a b
abbrev TcpSeqGeq (a b : U32) : Prop := Ge a b
abbrev TcpSeqBetween (a b c : U32) : Prop := Between a b c

/-! ## Constants -/

/-- Length of the TCP header, excluding options. -/
abbrev tcpHlen : Nat := 20
abbrev tcpOoseqTimeout : Nat := 6
abbrev tcpMaxrtx : Nat := 12
abbrev tcpSynmaxrtx : Nat := 6
abbrev lwipTcpDupAckThresh : Nat := 1
abbrev lwipTcpOptLenTs : Nat := 10
abbrev lwipTcpSackBlockLen : Nat := 16
abbrev tcpSndqueuelenOverflow : Nat := 0xffffff - 3
abbrev maxUimpQueueElem : Nat := 256

/-! ## Headers, pbufs and segments -/

inductive TcpState where
  | closed | listen | synSent | synRcvd | established | finWait1 | finWait2 | closeWait
  | closing | lastAck | timeWait
  deriving DecidableEq

def TcpState.num : TcpState → Nat
  | .closed => 0
  | .listen => 1
  | .synSent => 2
  | .synRcvd => 3
  | .established => 4
  | .finWait1 => 5
  | .finWait2 => 6
  | .closeWait => 7
  | .closing => 8
  | .lastAck => 9
  | .timeWait => 10

structure TcphFlags where
  fin : Bool := false
  syn : Bool := false
  rst : Bool := false
  psh : Bool := false
  ack : Bool := false
  urg : Bool := false
  ece : Bool := false
  cwr : Bool := false
  deriving DecidableEq

/-- The fields of `struct tcp_hdr` the stack reads; `hdrlen` counts 32-bit words. -/
structure TcpHdr where
  seqno : U32
  ackno : U32
  hdrlen : Nat
  flags : TcphFlags
  wnd : Nat
  deriving DecidableEq

/-- A pbuf: the bytes from its payload pointer on, `len` of them, and its `tot_len`. -/
structure Pbuf where
  payload : List U8
  totLen : Nat
  deriving DecidableEq

def Pbuf.len (p : Pbuf) : Nat := p.payload.length

def pbufBytes (p : List Pbuf) : List U8 := p.flatMap Pbuf.payload

def pbufLen (p : List Pbuf) : Nat := (p.map Pbuf.len).sum

/-- `pbuf_clen`: the number of pbufs in a chain, counted in a `u8_t`. -/
def pbufClen (p : List Pbuf) : Nat := p.length % 256

def pbufTotLen (p : List Pbuf) : Nat := (p.head?.map Pbuf.totLen).getD 0

/-- The option flags of `seg->flags` (`TF_SEG_OPTS_*`). -/
structure SegOpts where
  mss : Bool := false
  ts : Bool := false
  wndscale : Bool := false
  dummy : Bool := false
  sackPerm : Bool := false
  deriving DecidableEq

/-- `struct tcp_seg`; `addr` stands for its address. On the send side the first pbuf starts with the TCP
header and `dataptr` points `tcpHlen` bytes into it; on the receive side the chain holds the payload
only. `seqno` is also the number in the segment's header. -/
structure TcpSeg where
  addr : Nat
  seqno : U32
  len : Nat
  p : List Pbuf
  opts : SegOpts := {}
  flags : TcphFlags := {}
  hdrlen : Nat := 5
  tos : U8 := 0
  deriving DecidableEq

def TcpSeg.tcplen (s : TcpSeg) : Nat := s.len + if s.flags.fin || s.flags.syn then 1 else 0

/-- `LWIP_IS_DUMMY_SEGMENT(seg)`. -/
abbrev TcpSeg.isDummy (s : TcpSeg) : Bool := s.opts.dummy

abbrev TcpSeg.dataEnd (s : TcpSeg) : U32 := s.seqno + u32 s.len

abbrev TcpSeg.seqEnd (s : TcpSeg) : U32 := s.seqno + u32 s.tcplen

structure TcpSackBlock where
  blockLe : U32
  blockRe : U32
  deriving DecidableEq

/-! ## TLT and DCTCP state -/

inductive TltState where
  | idle | pending | pendingForce
  deriving DecidableEq

/-- `struct tlt_transmit_segment`; `next` is the index of the slot it points at. -/
structure TltTransmitSegment where
  seq : U32
  len : U32
  round : U32
  next : Option Nat
  deriving DecidableEq

def TltTransmitSegment.zero : TltTransmitSegment := ⟨0, 0, 0, none⟩

/-- `uimp_queue` with `uimp_queue_len`. Slots are addressed by index from the array's start; an
index of `maxUimpQueueElem` or more is memory after the array. -/
structure UimpQueue where
  slot : Nat → TltTransmitSegment
  len : Nat

structure TltParam where
  recvState : TltState
  sendState : TltState
  uimp : UimpQueue
  curRound : U32
  dirtyMap : U8

structure DctcpParam where
  enabled : Bool
  ce : Int
  pendingEce : Bool
  pendingCwr : Bool
  nextEce : U32
  windowEnd : U32
  bytesAcked : U32
  bytesMarked : U32
  alpha : U32
  deriving DecidableEq

/-! ## The protocol control block -/

structure PcbFlags where
  ackDelay : Bool := false
  ackNow : Bool := false
  infr : Bool := false
  timestamp : Bool := false
  rxclosed : Bool := false
  fin : Bool := false
  nodelay : Bool := false
  naglememerr : Bool := false
  wndScale : Bool := false
  deriving DecidableEq

/-- The fields of the pcb that sending a packet changes: what was announced, the timers of the
retransmission in progress, and the marks. -/
structure OutVars where
  rcvAnnRightEdge : U32
  tsLastacksent : U32
  rtime : Int
  rttest : U32
  rtseq : U32
  sndSmlSnt : U32
  tlt : TltParam
  dctcp : DctcpParam

structure RcvVars where
  rcvNxt : U32
  rcvWnd : U32
  rcvWndMax : U32
  rcvAnnWnd : U32
  rcvScale : Nat
  ooseq : List TcpSeg
  sackPermitted : Bool
  /-- The first `rcv_sack_block_cnt` entries of `rcv_sack_block`. -/
  rcvSackBlock : List TcpSackBlock
  enableTsOpt : Bool
  tsRecent : U32

/-- The sender's queues. `nextSeg` numbers the segments handed out by the allocator. -/
structure SndQueues where
  unsent : List TcpSeg
  lastUnsent : Option Nat
  unacked : List TcpSeg
  lastUnacked : Option Nat
  unsentOversize : Nat
  sndQueuelen : Nat
  sndNxt : U32
  sndLbb : U32
  sndBuf : U32
  nextSeg : Nat

structure SndVars where
  iss : U32
  lastack : U32
  sndWnd : U32
  sndWndMax : U32
  sndWl1 : U32
  sndWl2 : U32
  sndScale : Nat
  acked : U32
  sndSmlAdd : U32
  mss : Nat
  advtsdMss : Nat
  maxSndBuff : Nat
  maxTcpSndQueuelen : Nat
  maxUnsentLen : Nat
  tcpOversizeVal : Nat
  dupacks : Nat
  cwnd : U32
  ssthresh : U32

structure TimerVars where
  tmr : U32
  sa : Int
  sv : Int
  rto : Int
  minrto : Int
  nrtx : Nat
  soKeepalive : Bool
  keepIdle : U32
  keepCntSent : Nat
  polltmr : Nat
  pollinterval : Nat
  persistCnt : Nat
  persistBackoff : Nat

/-- `struct tcp_pcb`, the fields the modelled functions use, grouped by what changes them. -/
structure Pcb extends OutVars, RcvVars, SndQueues, SndVars, TimerVars where
  state : TcpState
  flags : PcbFlags
  tos : U8

/-! ## Option lengths -/

def lwipTcpOptLengthLegacy (o : SegOpts) : Nat :=
  (if o.mss then 4 else 0) + (if o.wndscale then 1 + 3 else 0) + (if o.ts then 12 else 0) +
    if o.sackPerm then 4 else 0

def lwipTcpOptLength (pcb : Pcb) (o : SegOpts) : Nat :=
  if !o.sackPerm && pcb.sackPermitted && pcb.rcvSackBlock.length ≠ 0 &&
      lwipTcpOptLengthLegacy o ≤ 28 then
    min 40 (lwipTcpOptLengthLegacy o + pcb.rcvSackBlock.length * 8 + 4)
  else lwipTcpOptLengthLegacy o

theorem lwipTcpOptLength_le (pcb : Pcb) (o : SegOpts) : lwipTcpOptLength pcb o ≤ 40 := by
  have h : lwipTcpOptLengthLegacy o ≤ 24 := by
    unfold lwipTcpOptLengthLegacy
    split <;> split <;> split <;> split <;> omega
  unfold lwipTcpOptLength
  split <;> omega

end LibvmaTlt.Lwip
