import LibvmaTlt.Lwip.Types

/-!
# Congestion control: DCTCP and the default algorithm (`dctcp.c`, `cc_lwip.c`)

`pcb->cc_algo` is a table of functions; `CcAlgo` is that table, restricted to the two fields an
algorithm may change. The stack's functions take it as a parameter, and `lwipCcAlgo` is the table
of the default algorithm.
-/

namespace LibvmaTlt.Lwip

/-! ## DCTCP -/

/-- `dctcp_init` for a pcb with this `lastack`. -/
def dctcpInit (lastack : U32) : DctcpParam :=
  { enabled := true, ce := 0, pendingEce := false, pendingCwr := false, nextEce := 0,
    windowEnd := lastack, bytesAcked := 0, bytesMarked := 0, alpha := 1 }

/-- `dctcp_send_empty`, on the flags of the outgoing header. `TCPH_UNSET_FLAG` ors the header with
part of itself, so `ECE` and `CWR` stay as they are. -/
def dctcpSendEmpty (d : DctcpParam) (f : TcphFlags) : DctcpParam × TcphFlags :=
  if f.syn then ({ d with enabled := true }, { f with cwr := f.cwr || !f.ack, ece := true })
  else
    ({ d with pendingCwr := false, ce := if d.ce > 0 then d.ce - 1 else d.ce },
      { f with cwr := f.cwr || d.pendingCwr, ece := f.ece || d.ce > 0 })

def dctcpSend (d : DctcpParam) (seg : TcpSeg) : DctcpParam × TcpSeg :=
  let r := dctcpSendEmpty d seg.flags
  let tos := seg.tos &&& 0xFC
  (r.1, { seg with
    flags := r.2
    tos := if !r.2.syn && seg.len ≠ 0 then tos ||| 1 else tos })

/-- The `Alpha` estimate at the end of an observation window. -/
def dctcpAlpha (d : DctcpParam) : U32 :=
  let scaledM := (65536 * d.bytesMarked) / d.bytesAcked
  let alpha := if d.alpha >>> 4 = 0 then 0 else d.alpha
  let alpha := alpha + ((scaledM >>> 4) - (alpha >>> 4))
  if alpha > 65536 then 65536 else alpha

/-- `dctcp_recv`; `ecn` is the TOS byte. -/
def dctcpRecv (pcb : Pcb) (ecn : U8) (hdr : TcpHdr) : DctcpParam :=
  let d := pcb.dctcp
  let d := if ecn &&& 3 = 3 then { d with ce := cInt (d.ce + 1) } else d
  let d :=
    if hdr.flags.ack && !hdr.flags.syn then
      let bytesAcked := hdr.ackno - pcb.lastack
      let d := { d with
        bytesAcked := d.bytesAcked + bytesAcked
        bytesMarked := if hdr.flags.ece then d.bytesMarked + bytesAcked else d.bytesMarked }
      if TcpSeqLeq hdr.ackno d.windowEnd then d
      else if d.bytesAcked > 0 then
        { d with alpha := dctcpAlpha d, windowEnd := pcb.sndNxt, bytesAcked := 0, bytesMarked := 0 }
      else d
    else d
  if hdr.flags.ece && !hdr.flags.syn && pcb.sndNxt ≥ d.nextEce then
    { d with pendingEce := true, nextEce := pcb.sndNxt + pcb.cwnd }
  else d

/-- `dctcp_reduce_cwnd`: the new pcb and whether it reduced the window. -/
def dctcpReduceCwnd (pcb : Pcb) : Pcb × Bool :=
  if pcb.dctcp.pendingEce then
    let cwnd := pcb.cwnd.toNat * (65536 - pcb.dctcp.alpha / 2).toNat / 65536
    ({ pcb with
        cwnd := u32 cwnd
        dctcp := { pcb.dctcp with pendingEce := false, pendingCwr := true } }, true)
  else (pcb, false)

/-! ## Congestion control algorithms -/

/-- The acknowledgement kinds passed to `ack_received`. -/
inductive CcAck where
  | ack | dupack | other
  deriving DecidableEq

/-- The signals passed to `cong_signal`. -/
inductive CcSignal where
  | rto | ndupack
  deriving DecidableEq

/-- `struct cc_algo`: each function yields the new `cwnd` and `ssthresh`. -/
structure CcAlgo where
  ackReceived : Pcb → CcAck → U32 × U32
  congSignal : Pcb → CcSignal → U32 × U32
  connInit : Pcb → U32 × U32
  postRecovery : Pcb → U32 × U32

def Pcb.setCwnd (pcb : Pcb) (r : U32 × U32) : Pcb := { pcb with cwnd := r.1, ssthresh := r.2 }

def lwipAckReceived (pcb : Pcb) : CcAck → U32 × U32
  | .dupack =>
    (if pcb.cwnd + u32 pcb.mss > pcb.cwnd then pcb.cwnd + u32 pcb.mss else pcb.cwnd, pcb.ssthresh)
  | .ack =>
    if pcb.cwnd < pcb.ssthresh then
      (if pcb.cwnd + u32 pcb.mss > pcb.cwnd then pcb.cwnd + u32 pcb.mss else pcb.cwnd,
        pcb.ssthresh)
    else
      let newCwnd := pcb.cwnd + (u32 pcb.mss * u32 pcb.mss) / pcb.cwnd
      (if newCwnd > pcb.cwnd then newCwnd else pcb.cwnd, pcb.ssthresh)
  | .other => (pcb.cwnd, pcb.ssthresh)

def lwipCongSignal (pcb : Pcb) (type : CcSignal) : U32 × U32 :=
  let half := if pcb.cwnd > pcb.sndWnd then pcb.sndWnd / 2 else pcb.cwnd / 2
  let ssthresh := if half < 2 * u32 pcb.mss then 2 * u32 pcb.mss else half
  match type with
  | .ndupack => (ssthresh + 3 * u32 pcb.mss, ssthresh)
  | .rto => (u32 pcb.mss, ssthresh)

def lwipCcAlgo : CcAlgo where
  ackReceived := lwipAckReceived
  congSignal := lwipCongSignal
  connInit pcb := (if pcb.cwnd = 1 then u32 pcb.mss * 10 else u32 pcb.mss, pcb.ssthresh)
  postRecovery pcb := (pcb.ssthresh, pcb.ssthresh)

end LibvmaTlt.Lwip
