import LibvmaTlt.Lwip.TcpOut

/-!
# Queueing data (`tcp_write`, `tcp_enqueue_flags`, `tcp_send_fin`)

`tcp_write` runs in three phases: it fills the tail room of the last unsent segment, chains one more
pbuf to it, and creates new segments for the rest. Nothing is committed before all three succeed.
-/

namespace LibvmaTlt.Lwip

/-- The `err_t` values of the modelled functions. -/
inductive Err where
  | ok | mem | conn
  deriving DecidableEq

/-! ## The tail of the unsent queue -/

/-- The segment that `tcp_write` takes for the last unsent one. `last_unsent` is trusted when its
`next` is NULL, wherever that segment is now; `none` when it was freed. -/
def Pcb.lastUnsentSeg (pcb : Pcb) : Option TcpSeg :=
  match pcb.lastUnsent with
  | none => pcb.unsent.getLast?
  | some a =>
    if pcb.unsent.any (·.addr = a) then pcb.unsent.getLast?
    else if pcb.unacked.any (·.addr = a) then
      match pcb.unacked.getLast? with
      | some s => if s.addr = a then some s else pcb.unsent.getLast?
      | none => none
    else none

def replaceSeg (s : TcpSeg) (l : List TcpSeg) : List TcpSeg :=
  l.map fun t => if t.addr = s.addr then s else t

def Pcb.setUnsent (pcb : Pcb) (l : List TcpSeg) : Pcb := { pcb with unsent := l }

/-- `last_unsent->next = queue`, for a last segment of `unsent` or of `unacked`. -/
def Pcb.appendAfter (pcb : Pcb) (last : TcpSeg) (queue : List TcpSeg) : Pcb :=
  if pcb.unsent.any (·.addr = last.addr) then
    pcb.setUnsent (replaceSeg last pcb.unsent ++ queue)
  else { pcb with unacked := replaceSeg last pcb.unacked ++ queue }

/-! ## `tcp_write` -/

def Pcb.memErr (pcb : Pcb) : Pcb := { pcb with flags := { pcb.flags with naglememerr := true } }

def Pcb.setLastUnsent (pcb : Pcb) (a : Option Nat) : Pcb := { pcb with lastUnsent := a }

def tcpWriteChecks (pcb : Pcb) (len : Nat) : Pcb × Err :=
  if pcb.state ≠ .established ∧ pcb.state ≠ .closeWait ∧ pcb.state ≠ .synSent ∧
      pcb.state ≠ .synRcvd then (pcb, .conn)
  else if len = 0 then (pcb, .ok)
  else if len > pcb.sndBuf.toNat then (pcb.memErr, .mem)
  else if pcb.sndQueuelen ≥ pcb.maxUnsentLen ∨ pcb.sndQueuelen > tcpSndqueuelenOverflow then
    (pcb.memErr, .mem)
  else (pcb, .ok)

/-- What phases 1 and 2 decide: how far they got, the tail room left, the queue length, the bytes
copied into the tail room and the bytes in a chained pbuf. -/
structure TailWrite where
  pos : Nat
  oversize : Nat
  queuelen : Nat
  used : Nat
  concat : Nat

/-- Phases 1 and 2 on the segment `last`; `none` when the pbuf of phase 2 cannot be allocated. -/
def tcpWriteTail (env : Env) (pcb : Pcb) (last : TcpSeg) (len : Nat) : Option TailWrite :=
  let space := u16 (pcb.mssLocal + 2 * 65536 - (last.len + lwipTcpOptLength pcb last.opts))
  let used := min pcb.unsentOversize len
  let space := u16 (space + 65536 - used)
  if used < len ∧ 0 < space ∧ 0 < last.len then
    let seglen := min space (len - used)
    if env.pbufOk 0 then
      some ⟨used + seglen, tcpPbufPrealloc pcb seglen space true true, pcb.sndQueuelen + 1, used,
        seglen⟩
    else none
  else some ⟨used, pcb.unsentOversize - used, pcb.sndQueuelen, used, 0⟩

def TcpSeg.extend (s : TcpSeg) (data : List U8) (t : TailWrite) : TcpSeg :=
  let s1 := if t.used = 0 then s else
    { s with p := fillTail (data.take t.used) s.p, len := u16 (s.len + t.used) }
  if t.concat = 0 then s1 else
    { s1 with
      p := pbufCat s1.p [⟨(data.drop t.used).take t.concat, t.concat⟩]
      len := u16 (s1.len + t.concat) }

structure NewSegs where
  pcb : Pcb
  queue : List TcpSeg
  queuelen : Nat
  oversize : Nat

/-- Phase 3: new segments for the data from `pos` on; `none` is `memerr`. Every pass lengthens the
queue, so it ends when the queue limit is hit, if not before. -/
def tcpWriteLoop (env : Env) (optflags : SegOpts) (data : List U8) :
    Nat → Nat → Nat → NewSegs → Option NewSegs
  | 0, _, _, _ => none
  | f + 1, n, pos, w =>
    if pos < data.length then
      let optlen := lwipTcpOptLength w.pcb optflags
      let maxLen := u16 (w.pcb.mssLocal + 65536 - optlen)
      let seglen := min (data.length - pos) maxLen
      let length := u16 (seglen + optlen)
      let p : Pbuf :=
        ⟨(readMem env [] 0 optlen ++ (data.drop pos).take seglen).take length, length⟩
      let queuelen := w.queuelen + 1
      if !env.pbufOk (n + 1) ∨ queuelen > w.pcb.maxUnsentLen ∨
          queuelen > tcpSndqueuelenOverflow ∨ !env.segOk n then none
      else
        let r := tcpCreateSegment w.pcb [p] {} (w.pcb.sndLbb + u32 pos) optflags
        tcpWriteLoop env optflags data f (n + 1) (pos + seglen)
          ⟨r.1, w.queue ++ [r.2], queuelen,
            tcpPbufPrealloc w.pcb length maxLen true w.queue.isEmpty⟩
    else some w

/-- The variables of the pcb once `len` bytes are queued. -/
def Pcb.wrote (pcb : Pcb) (len : Nat) (w : NewSegs) (lastUnsent : Option Nat) : Pcb :=
  { pcb with
    nextSeg := w.pcb.nextSeg
    unsentOversize := w.oversize
    lastUnsent := lastUnsent
    sndLbb := pcb.sndLbb + u32 len
    sndBuf := pcb.sndBuf - u32 len
    sndQueuelen := w.queuelen }

def TcpSeg.setPsh (s : TcpSeg) : TcpSeg := { s with flags := { s.flags with psh := true } }

def pshLast (queue : List TcpSeg) : List TcpSeg :=
  queue.dropLast ++ (queue.getLast?.map TcpSeg.setPsh).toList

/-- The commit of `tcp_write`: `last` is the old tail with phases 1 and 2 applied, `touched` says
whether they took it up. The last segment touched becomes `last_unsent` and gets PSH. -/
def tcpWriteCommit (pcb : Pcb) (len : Nat) (w : NewSegs) (last : Option TcpSeg) (touched : Bool) :
    Pcb :=
  let seg := w.queue.getLast?.or (if touched then last else none)
  let pcb := pcb.wrote len w (seg.map TcpSeg.addr)
  match last with
  | none => pcb.setUnsent (pshLast w.queue)
  | some l => pcb.appendAfter (if touched ∧ w.queue = [] then l.setPsh else l) (pshLast w.queue)

/-- `snd_sml_add` is set for a write of less than a segment. -/
def Pcb.setSmlAdd (pcb : Pcb) (len : Nat) (isDummy : Bool) : Pcb :=
  { pcb with
    sndSmlAdd :=
      if len < pcb.mss ∧ !isDummy then
        u32 ((pcb.unacked.head?.map TcpSeg.len).getD 0) + (pcb.sndNxt - pcb.lastack)
      else pcb.sndSmlAdd }

/-- `tcp_write` once the checks are passed. -/
def tcpWriteQueue (env : Env) (pcb : Pcb) (data : List U8) (optflags : SegOpts) :
    Option (Pcb × Err) :=
  let len := data.length
  if pcb.unsent = [] then
    match tcpWriteLoop env optflags data (pcb.maxUnsentLen + 2) 0 0
        ⟨pcb, [], pcb.sndQueuelen, 0⟩ with
    | none => some (pcb.memErr.setLastUnsent none, .mem)
    | some w => some (tcpWriteCommit pcb len w none false, .ok)
  else
    match pcb.lastUnsentSeg with
    | none => none
    | some last =>
      match tcpWriteTail env pcb last len with
      | none => some (pcb.memErr.setLastUnsent (some last.addr), .mem)
      | some t =>
        match tcpWriteLoop env optflags data (pcb.maxUnsentLen + 2) 0 t.pos
            ⟨pcb, [], t.queuelen, t.oversize⟩ with
        | none => some (pcb.memErr.setLastUnsent (some last.addr), .mem)
        | some w =>
          some (tcpWriteCommit pcb len w (some (last.extend data t))
            (0 < pcb.unsentOversize || t.concat ≠ 0), .ok)

/-- `tcp_write`; `none` when it reads through a dangling `last_unsent`. -/
def tcpWrite (env : Env) (pcb : Pcb) (data : List U8) (isDummy : Bool) : Option (Pcb × Err) :=
  let r := tcpWriteChecks (pcb.setSmlAdd data.length isDummy) data.length
  if r.2 ≠ .ok then some r
  else tcpWriteQueue env r.1 data { r.1.dataOpts with dummy := isDummy }

/-! ## `tcp_enqueue_flags` and `tcp_send_fin` -/

def finSegment (env : Env) (pcb : Pcb) : TcpSeg :=
  let optlen := lwipTcpOptLength pcb pcb.dataOpts
  (tcpCreateSegment pcb [⟨readMem env [] 0 optlen, optlen⟩] { fin := true } pcb.sndLbb
    pcb.dataOpts).2

def Pcb.setFin (pcb : Pcb) : Pcb := { pcb with flags := { pcb.flags with fin := true } }

def Pcb.queueFin (pcb : Pcb) (seg : TcpSeg) : Pcb :=
  { pcb with
    nextSeg := pcb.nextSeg + 1
    unsent := pcb.unsent ++ [seg]
    unsentOversize := 0
    sndLbb := pcb.sndLbb + 1
    sndQueuelen := pcb.sndQueuelen + 1 }

/-- `tcp_enqueue_flags(pcb, TCP_FIN)`. -/
def tcpEnqueueFin (env : Env) (pcb : Pcb) : Pcb × Err :=
  if !env.pbufOk 0 ∨ !env.segOk 0 then (pcb.memErr, .mem)
  else ((pcb.queueFin (finSegment env pcb)).setFin, .ok)

def TcpSeg.setFin (s : TcpSeg) : TcpSeg := { s with flags := { s.flags with fin := true } }

/-- `tcp_send_fin`: the FIN rides on the last unsent segment if that carries no SYN, FIN or RST. -/
def tcpSendFin (env : Env) (pcb : Pcb) : Pcb × Err :=
  match pcb.unsent.getLast? with
  | some l =>
    if l.flags.syn || l.flags.fin || l.flags.rst then tcpEnqueueFin env pcb
    else ((pcb.setUnsent (pcb.unsent.dropLast ++ [l.setFin])).setFin, .ok)
  | none => tcpEnqueueFin env pcb

end LibvmaTlt.Lwip
