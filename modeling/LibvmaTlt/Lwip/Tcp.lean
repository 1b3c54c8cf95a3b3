import LibvmaTlt.Lwip.TcpIn

/-!
# Window updates, closing and the slow timer (`tcp.c`)

Functions that end in a call of `tcp_output` are split before it, so that what the call does can be
looked at on its own.
-/

namespace LibvmaTlt.Lwip

/-! ## `tcp_recved` -/

/-- `rcv_wnd` once the application has taken `len` bytes. -/
def recvedWnd (pcb : Pcb) (len : U32) : U32 :=
  let w := pcb.rcvWnd + len
  if w > pcb.rcvWndMax then pcb.rcvWndMax
  else if w = 0 ∧ (pcb.state = .closeWait ∨ pcb.state = .lastAck) then pcb.rcvWndMax
  else w

def Pcb.setRcvWnd (pcb : Pcb) (w : U32) : Pcb := { pcb with rcvWnd := w }

/-- `tcp_recved` up to its call of `tcp_output`, and whether it makes it. -/
def tcpRecved (pcb : Pcb) (len : U32) : Pcb × Bool :=
  let r := tcpUpdateRcvAnnWnd (pcb.setRcvWnd (recvedWnd pcb len))
  if r.2 ≥ pcb.rcvWndMax / 4 then (tcpAckNow r.1, true) else (r.1, false)

/-! ## Closing -/

/-- The FIN is queued and the state moves, if there is memory for it. -/
def closeFin (env : Env) (next : TcpState) (c : Conn) : Conn × Err × Bool :=
  let r := tcpSendFin env c.pcb
  if r.2 = .ok then ({ c with pcb := r.1.setState next }, .ok, true)
  else ({ c with pcb := r.1 }, r.2, false)

/-- `tcp_close_shutdown` up to its call of `tcp_output`, and whether it makes it. -/
def tcpCloseShutdown (env : Env) (rstOnUnackedData : Bool) (c : Conn) : Conn × Err × Bool :=
  if rstOnUnackedData ∧ (c.pcb.state = .established ∨ c.pcb.state = .closeWait) ∧
      c.pcb.rcvWnd ≠ c.pcb.rcvWndMax then
    let r := tcpPcbPurge (tcpRst env 0 c.pcb.sndNxt c.pcb.rcvNxt c)
    ({ r with pcb := if c.pcb.state = .established then r.pcb.setState .timeWait else r.pcb }, .ok,
      false)
  else
    match c.pcb.state with
    | .listen | .synSent => (tcpPcbRemove c, .ok, false)
    | .synRcvd | .established => closeFin env .finWait1 c
    | .closeWait => closeFin env .lastAck c
    | _ => (c, .ok, false)

def Pcb.shutRx (pcb : Pcb) : Pcb := { pcb with flags := { pcb.flags with rxclosed := true } }

/-- `tcp_close` up to its call of `tcp_output`, on a connection. -/
def tcpClose (env : Env) (c : Conn) : Conn × Err × Bool :=
  tcpCloseShutdown env true { c with pcb := c.pcb.shutRx }

/-- `tcp_shutdown` up to its call of `tcp_output`, on a connection. -/
def tcpShutdown (env : Env) (shutRx shutTx : Bool) (c : Conn) : Conn × Err × Bool :=
  let c := if shutRx then { c with pcb := c.pcb.shutRx } else c
  if shutRx && shutTx then tcpCloseShutdown env true c
  else if shutTx then
    if c.pcb.state = .synRcvd ∨ c.pcb.state = .established ∨ c.pcb.state = .closeWait then
      tcpCloseShutdown env false c
    else (c, .conn, false)
  else (c, .ok, false)

/-! ## The slow timer -/

/-- `tcp_backoff`, an array of 13 entries. -/
def tcpBackoff (n : Nat) : Option Nat := ([1, 2, 3, 4, 5, 6, 7, 7, 7, 7, 7, 7, 7] : List Nat)[n]?

def tcpPersistBackoff (n : Nat) : Nat := ([3, 6, 12, 24, 48, 96, 120] : List Nat).getD n 0

/-- `rtime` a tick later: an `s16_t` that counts up while it is not negative, and wraps. -/
def rtimeNext (rtime : Int) : Int :=
  if 0 ≤ rtime then if rtime = 32767 then -32768 else rtime + 1 else rtime

def rtoFires (pcb : Pcb) : Bool := pcb.unacked ≠ [] && pcb.rto ≤ rtimeNext pcb.rtime

def Pcb.persistNext (pcb : Pcb) : Pcb :=
  { pcb with
    persistCnt := 0
    persistBackoff := if pcb.persistBackoff < 7 then pcb.persistBackoff + 1 else pcb.persistBackoff }

def Pcb.persistTick (pcb : Pcb) : Pcb := { pcb with persistCnt := pcb.persistCnt + 1 }

def Pcb.rtimeTick (pcb : Pcb) : Pcb := { pcb with rtime := rtimeNext pcb.rtime }

/-- The timers that run between retransmissions: the persist timer with its probe, or `rtime`. -/
def slowTimers (env : Env) (c : Conn) : Conn :=
  if 0 < c.pcb.persistBackoff then
    if tcpPersistBackoff (c.pcb.persistBackoff - 1) ≤ c.pcb.persistCnt + 1 then
      tcpKeepalive env 0 { c with pcb := c.pcb.persistNext }
    else { c with pcb := c.pcb.persistTick }
  else { c with pcb := c.pcb.rtimeTick }

def Pcb.backoffRto (pcb : Pcb) : Pcb :=
  { pcb with
    rto := if pcb.state = TcpState.synSent then pcb.rto
      else max ((pcb.sa / 8 + pcb.sv) * 2 ^ (tcpBackoff pcb.nrtx).getD 0) pcb.minrto
    rtime := 0 }

/-- The backoff of the timeout reads `tcp_backoff` behind its end. -/
def Pcb.backoffOverrun (pcb : Pcb) : Bool :=
  pcb.state ≠ .synSent && (tcpBackoff pcb.nrtx).isNone

def Pcb.setPendingCwr (pcb : Pcb) : Pcb :=
  { pcb with dctcp := { pcb.dctcp with pendingCwr := true } }

/-- What a retransmission timeout changes before `tcp_rexmit_rto` is called. -/
def slowRto (cc : CcAlgo) (pcb : Pcb) : Pcb :=
  let pcb := pcb.backoffRto
  (pcb.setCwnd (cc.congSignal pcb .rto)).setPendingCwr

/-- A retransmission timeout; a read of `tcp_backoff` behind its end is a fault. -/
def Conn.slowRto (c : Conn) (cc : CcAlgo) : Conn :=
  { c with pcb := Lwip.slowRto cc c.pcb, fault := c.fault || c.pcb.backoffOverrun }

def retriesExhausted (pcb : Pcb) : Bool :=
  (pcb.state = .synSent && pcb.nrtx = tcpSynmaxrtx) || pcb.nrtx = tcpMaxrtx

/-- The first part of `tcp_slowtmr`: retransmission and the persist timer. -/
def slowRetransmit (env : Env) (cc : CcAlgo) (c : Conn) : Conn :=
  if retriesExhausted c.pcb then c
  else
    let fires := c.pcb.persistBackoff = 0 ∧ rtoFires c.pcb
    let c := slowTimers env c
    if fires then
      let c := c.slowRto cc
      if c.fault then c else tcpRexmitRto env c
    else c

def silentFor (env : Env) (pcb : Pcb) (ms : Nat) : Bool :=
  env.tcpTicks - pcb.tmr > u32 (ms / env.slowTmrInterval)

def keepaliveOn (pcb : Pcb) : Bool :=
  pcb.soKeepalive && (pcb.state = .established || pcb.state = .closeWait)

def keepaliveExpired (env : Env) (pcb : Pcb) : Bool :=
  keepaliveOn pcb && silentFor env pcb (pcb.keepIdle.toNat + 9 * 75000)

def Pcb.probeSent (pcb : Pcb) : Pcb := { pcb with keepCntSent := pcb.keepCntSent + 1 }

def slowKeepalive (env : Env) (c : Conn) : Conn :=
  if keepaliveOn c.pcb ∧ !keepaliveExpired env c.pcb ∧
      silentFor env c.pcb (c.pcb.keepIdle.toNat + c.pcb.keepCntSent * 75000) then
    let c := tcpKeepalive env 1 c
    { c with pcb := c.pcb.probeSent }
  else c

/-- Out-of-sequence data of a connection silent for six times the timeout is dropped. -/
def ooseqExpired (env : Env) (pcb : Pcb) : Bool :=
  pcb.ooseq ≠ [] && env.tcpTicks - pcb.tmr ≥ BitVec.ofInt 32 (pcb.rto * tcpOoseqTimeout)

def Pcb.dropOoseq (pcb : Pcb) : Pcb := { pcb with ooseq := [] }

/-- The drop of out-of-sequence data. The SACK blocks stay as they are. -/
def slowOoseq (env : Env) (c : Conn) : Conn :=
  if ooseqExpired env c.pcb then
    { c with pcb := c.pcb.dropOoseq, freed := c.freed ++ c.pcb.ooseq }
  else c

/-- The connection has stayed too long in its state. -/
def stateExpired (env : Env) (pcb : Pcb) : Bool :=
  match pcb.state with
  | .finWait2 => pcb.flags.rxclosed && silentFor env pcb 20000
  | .synRcvd => silentFor env pcb 20000
  | .lastAck => silentFor env pcb (2 * 60000)
  | _ => false

def Pcb.setPolltmr (pcb : Pcb) (n : Nat) : Pcb := { pcb with polltmr := n }

/-- The end of `tcp_slowtmr`: the pcb is removed, or polled. -/
def slowFinish (env : Env) (remove reset : Bool) (c : Conn) : Conn × Bool :=
  if remove then
    let c := tcpPcbPurge c
    let c := if reset then tcpRst env 2 c.pcb.sndNxt c.pcb.rcvNxt c else c
    ({ c with pcb := c.pcb.setState .closed }, false)
  else if c.pcb.pollinterval ≤ (c.pcb.polltmr + 1) % 256 then
    ({ c with pcb := c.pcb.setPolltmr 0 }, true)
  else ({ c with pcb := c.pcb.setPolltmr ((c.pcb.polltmr + 1) % 256) }, false)

/-- The part of `tcp_slowtmr` after retransmission, up to the call of `tcp_output`; `exhausted` says
that the retransmissions are used up. -/
def slowChecks (env : Env) (exhausted : Bool) (c : Conn) : Conn × Bool :=
  let reset := keepaliveExpired env c.pcb
  let remove := exhausted || reset || stateExpired env c.pcb
  slowFinish env remove reset (slowOoseq env (slowKeepalive env c))

/-- `tcp_slowtmr`; `env'` serves its last call of `tcp_output`. -/
def tcpSlowtmr (env env' : Env) (cc : CcAlgo) (c : Conn) : Conn :=
  if pcbInActiveState c.pcb then
    let r := slowRetransmit env cc c
    if r.fault then r
    else
      let s := slowChecks env (retriesExhausted c.pcb) r
      if s.2 then tcpOutput env' s.1 else s.1
  else if c.pcb.state = .timeWait ∧ silentFor env c.pcb (2 * 60000) then
    { c with pcb := c.pcb.setState .closed }
  else c

end LibvmaTlt.Lwip
