import LibvmaTlt.Lwip.TcpIn

/-!
# Receive offload in front of the stack (`rfs_uc_tcp_gro`)

Within a poll batch the ring holds back a packet with payload and appends to it the packets that follow
it in sequence. What the stack gets is one packet with the first one's TOS byte and the last one's
acknowledgement and window.
-/

namespace LibvmaTlt.Dev

open Lwip

/-! ## Packets -/

/-- A TCP packet as the ring hands it on: `opts` is the memory behind the fixed TCP header. -/
structure RxPkt where
  tos : U8
  ihl : Nat
  hdr : TcpHdr
  opts : Nat → U8
  payload : List U8
  len_lt : 4 * ihl + 4 * hdr.hdrlen + payload.length < 65536

namespace RxPkt

def totLen (p : RxPkt) : Nat := 4 * p.ihl + 4 * p.hdr.hdrlen + p.payload.length

def szPayload (p : RxPkt) : Nat := p.payload.length

def pbuf (p : RxPkt) : Pbuf := ⟨p.payload, p.payload.length⟩

def single (p : RxPkt) : InPkt := ⟨p.hdr, p.opts, [p.pbuf], p.tos⟩

end RxPkt

/-! ## The aggregate -/

/-- `gro_mem_buf_desc_t`: the packets from `p_first` to `p_last` and the fields kept with them. -/
structure GroDesc where
  first : RxPkt
  more : List RxPkt
  bufCount : Nat
  nextSeq : U32
  ack : U32
  tsPresent : Bool
  tsecr : U32
  ipTotLen : Nat
  wnd : Nat

def initGroDesc (p : RxPkt) : GroDesc where
  first := p
  more := []
  bufCount := 1
  nextSeq := p.hdr.seqno + u32 p.szPayload
  ack := p.hdr.ackno
  tsPresent := p.hdr.hdrlen = 8
  tsecr := if p.hdr.hdrlen = 8 then beWord p.opts 8 else 0
  ipTotLen := p.totLen
  wnd := p.hdr.wnd

def addPacket (d : GroDesc) (p : RxPkt) : GroDesc :=
  { d with
    more := d.more ++ [p]
    bufCount := d.bufCount + 1
    ipTotLen := u16 (d.ipTotLen + p.szPayload)
    nextSeq := d.nextSeq + u32 p.szPayload
    wnd := p.hdr.wnd
    ack := p.hdr.ackno
    tsecr := if d.tsPresent then beWord p.opts 8 else d.tsecr }

def tcpIpCheck (p : RxPkt) : Bool :=
  p.payload ≠ [] && p.ihl = 5 &&
  !(p.hdr.flags.urg || !p.hdr.flags.ack || p.hdr.flags.rst || p.hdr.flags.syn || p.hdr.flags.fin) &&
  (p.hdr.hdrlen = 5 || p.hdr.hdrlen = 8)

def timestampCheck (p : RxPkt) : Bool :=
  p.hdr.hdrlen ≠ 8 || (beWord p.opts 0 = 0x0101080A && beWord p.opts 8 ≠ 0)

/-- The packet an aggregate of more than one becomes. The chain is trimmed to the length in the IP
header. -/
def GroDesc.merged (d : GroDesc) : InPkt where
  hdr := { d.first.hdr with ackno := d.ack, wnd := d.wnd }
  optMem i := if d.tsPresent ∧ 8 ≤ i ∧ i < 12 then (be32 d.tsecr).getD (i - 8) 0 else d.first.opts i
  p := pbufRealloc (d.ipTotLen - 4 * d.first.ihl - 4 * d.first.hdr.hdrlen)
    (retotal ((d.first :: d.more).map RxPkt.pbuf))
  tos := d.first.tos

def GroDesc.flushed (d : GroDesc) : InPkt := if 1 < d.bufCount then d.merged else d.first.single

/-! ## Dispatch -/

/-- `m_n_buf_max` and the MTU of the ring. -/
structure GroCfg where
  bufMax : Nat := 32
  mtu : U32 := 1500

/-- `m_n_byte_max`: a packet that fits the MTU fits behind a shorter aggregate. -/
def GroCfg.byteMax (cfg : GroCfg) : Nat := ((0xFFFF : U32) - cfg.mtu).toNat

/-- The state of a flow: the aggregate, if it is active, and `m_b_reserved`. -/
structure Gro where
  desc : Option GroDesc := none
  reserved : Bool := false

def settle (cfg : GroCfg) (g : Gro) (d : GroDesc) : Gro × List InPkt :=
  if cfg.bufMax ≤ d.bufCount ∨ cfg.byteMax ≤ d.ipTotLen then ({ g with desc := none }, [d.flushed])
  else ({ g with desc := some d }, [])

/-- The packet continues the aggregate. Each of the three checks that fails has the same outcome. -/
def GroDesc.continues (d : GroDesc) (p : RxPkt) : Bool :=
  tcpIpCheck p && p.hdr.seqno = d.nextSeq && timestampCheck p

/-- `rx_dispatch_packet`: the state and what is dispatched to the socket. `streamMax` says that the
other flows have used up the streams. -/
def rxDispatchPacket (cfg : GroCfg) (g : Gro) (streamMax : Bool) (p : RxPkt) : Gro × List InPkt :=
  match g.desc with
  | none =>
    if !g.reserved && streamMax then (g, [p.single])
    else if !tcpIpCheck p then (g, [p.single])
    else settle cfg { g with reserved := true } (initGroDesc p)
  | some d =>
    if d.continues p then settle cfg g (addPacket d p)
    else ({ g with desc := none }, [d.flushed, p.single])

def groBatch (cfg : GroCfg) : Gro → List (Bool × RxPkt) → List InPkt
  | g, [] => (g.desc.map GroDesc.flushed).toList
  | g, (m, p) :: rest =>
    (rxDispatchPacket cfg g m p).2 ++ groBatch cfg (rxDispatchPacket cfg g m p).1 rest

end LibvmaTlt.Dev
