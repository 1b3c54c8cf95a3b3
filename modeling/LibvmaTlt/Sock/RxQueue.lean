import Mathlib.Data.List.Basic
import Mathlib.Tactic.Common
import LibvmaTlt.Lib.CInt
import LibvmaTlt.Lib.Reach
import LibvmaTlt.Lwip.Types

/-!
# The ready list of a TCP socket

`rx_lwip_cb` queues what lwIP delivers, a chain of buffers at a time; `dequeue_packet` takes bytes from
the front of the list, by copying them, by looking at them only (`MSG_PEEK`), or by handing out the
buffers themselves (`MSG_VMA_ZCOPY`). A copying read may stop in the middle of a buffer
(`m_rx_pkt_ready_offset`), and a zero-copy read in the middle of a chain.
-/

namespace LibvmaTlt.Sock

open Lwip (U8)

/-! ## Buffers -/

/-- The part of `mem_buf_desc_t` that reading uses: `frag` is the data that `rx.frag` points to, `len`
and `totLen` belong to the pbuf inside. -/
structure MemBuf where
  id : Nat
  frag : List U8
  szPayload : Nat
  len : Nat
  totLen : Nat
  deriving DecidableEq

/-- A descriptor with the chain of those behind it (`p_next_desc`). -/
structure Desc where
  first : MemBuf
  rest : List MemBuf
  deriving DecidableEq

def Desc.bufs (d : Desc) : List MemBuf := d.first :: d.rest

def chainBytes (l : List MemBuf) : List U8 := l.flatMap MemBuf.frag

def Desc.bytes (d : Desc) : List U8 := chainBytes d.bufs

def listBytes (l : List Desc) : List U8 := l.flatMap Desc.bytes

structure RxQueue where
  list : List Desc
  count : Int
  offset : Nat
  byteCount : Nat
  deriving DecidableEq

def RxQueue.empty : RxQueue := ⟨[], 0, 0, 0⟩

def RxQueue.bytes (q : RxQueue) : List U8 := (listBytes q.list).drop q.offset

def RxQueue.deliver (q : RxQueue) (d : Desc) : RxQueue :=
  { q with
    list := q.list ++ [⟨{ d.first with szPayload := d.first.totLen }, d.rest⟩]
    count := q.count + 1
    byteCount := cSize (q.byteCount + d.first.totLen) }

/-! ## Copying -/

/-- What is left of a chain behind its first buffer: the next one becomes a descriptor of its own. -/
def splitNext (prev : MemBuf) : List MemBuf → List Desc
  | [] => []
  | next :: rest =>
    let remaining := cUint32 (prev.totLen - prev.len)
    [⟨{ next with szPayload := remaining, totLen := remaining }, rest⟩]

def RxQueue.getNextDesc (q : RxQueue) (p : Desc) : RxQueue × Option Desc :=
  let rest := splitNext p.first p.rest
  let q := { q with list := rest ++ q.list.tail, count := q.count - 1 + rest.length }
  (q, if q.count ≠ 0 then q.list.head? else none)

/-- `get_next_desc_peek`, with `rx_pkt_ready_list_idx`. -/
def RxQueue.getNextDescPeek (q : RxQueue) (p : Desc) (idx : Nat) : Option Desc × Nat :=
  match p.rest with
  | next :: rest => (some ⟨next, rest⟩, idx)
  | [] => if idx < q.count then (q.list[idx]?, idx + 1) else (none, idx)

/-- The variables of the copying loops: `left` is the rest of the current buffer (`iov_base`,
`bytes_left`), `data` what was copied so far. -/
structure ReadState where
  q : RxQueue
  pdesc : Option Desc
  idx : Nat
  left : List U8
  total : Int
  data : List U8
  deriving DecidableEq

def ReadState.nextDesc (isPeek : Bool) (p : Desc) (st : ReadState) : ReadState :=
  if isPeek then
    let r := st.q.getNextDescPeek p st.idx
    { st with
      q := { st.q with offset := 0 }, pdesc := r.1, idx := r.2
      left := r.1.elim [] (·.first.frag) }
  else
    let r := st.q.getNextDesc p
    { st with q := { r.1 with offset := 0 }, pdesc := r.2, left := r.2.elim [] (·.first.frag) }

/-- How much one turn copies; `nbytes` and `pos` have 32 bits, `iov_len` has 64. -/
def nbytes (iovLen pos bytesLeft : Nat) : Nat :=
  let n := cUint32 (iovLen - pos)
  if n > bytesLeft then bytesLeft else n

def ReadState.copy (n : Nat) (st : ReadState) : ReadState :=
  { st with
    q := { st.q with offset := st.q.offset + n }
    left := st.left.drop n
    total := cInt (st.total + n)
    data := st.data ++ st.left.take n }

def ReadState.turn (isPeek : Bool) (n : Nat) (p : Desc) (st : ReadState) : ReadState :=
  let st := st.copy n
  if st.left = [] then st.nextDesc isPeek p else st

/-- The inner loop, over one `iovec`; `none` means that it has not ended within `fuel` turns. -/
def copyIov (isPeek : Bool) : (fuel iovLen pos : Nat) → ReadState → Option ReadState
  | 0, _, _, _ => none
  | fuel + 1, iovLen, pos, st =>
    match st.pdesc with
    | none => some st
    | some p =>
      if pos < iovLen then
        let n := nbytes iovLen pos st.left.length
        copyIov isPeek fuel iovLen (cUint32 (pos + n)) (st.turn isPeek n p)
      else some st

def copyIovs (isPeek : Bool) (fuel : Nat) : List Nat → ReadState → Option ReadState
  | [], st => some st
  | iovLen :: iov, st =>
    if st.pdesc = none then some st
    else (copyIov isPeek fuel iovLen 0 st).bind (copyIovs isPeek fuel iov)

/-! ## Zero copy -/

/-- A packet handed out: the buffer it is named by, with the `rx.sz_payload` found there when it is
freed, and its fragments. -/
structure Packet where
  id : Nat
  szPayload : Nat
  iov : List (List U8)
  deriving DecidableEq

def Packet.bytes (p : Packet) : List U8 := p.iov.flatten

/-- `sizeof(vma_packets_t)`, `sizeof(vma_packet_t)` and `sizeof(iovec)`. -/
abbrev sizeofPackets : Nat := 8
abbrev sizeofPacket : Nat := 16
abbrev sizeofIovec : Nat := 16

/-- The loop over a chain: the buffers handed out, the rest of the chain and the room that is left.
`tot` is the `tot_len` that the buffer in front gets from the one before it. -/
def zcopyChain : (len : Int) → (tot : Nat) → List MemBuf → List MemBuf × List MemBuf × Int
  | len, _, [] => ([], [], len)
  | len, tot, b :: bs =>
    let b := { b with totLen := tot }
    if len ≥ 0 then
      let r := zcopyChain (len - sizeofIovec) (cUint32 (tot - b.len)) bs
      (b :: r.1, r.2)
    else ([], b :: bs, len)

def zcopyList : (len count : Int) → List Desc → List Packet × List Desc × Int
  | _, count, [] => ([], [], count)
  | len, count, d :: ds =>
    if len ≥ 0 ∧ count ≠ 0 then
      let r := zcopyChain len d.first.totLen d.bufs
      let pkt : Packet := ⟨d.first.id, d.first.szPayload, r.1.map MemBuf.frag⟩
      match r.2.1 with
      | b :: bs => ([pkt], ⟨b, bs⟩ :: ds, count)
      | [] =>
        let r' := zcopyList (r.2.2 - sizeofPacket) (count - 1) ds
        (pkt :: r'.1, r'.2)
    else ([], d :: ds, count)

def advanceFront (offset : Nat) : List Desc → List Desc
  | [] => []
  | d :: ds => { d with first := { d.first with frag := d.first.frag.drop offset } } :: ds

/-- `zero_copy_rx`; `none` is −1 with `ENOBUFS`. -/
def RxQueue.zeroCopyRx (q : RxQueue) (iovLen : Nat) : Option (RxQueue × Int × List Packet) :=
  let len := cInt (iovLen - sizeofPackets - sizeofPacket - sizeofIovec)
  if len < 0 then none
  else
    let r := zcopyList len q.count (advanceFront q.offset q.list)
    some ({ q with list := r.2.1, count := r.2.2 },
      cInt ((r.1.map fun p => p.bytes.length).sum : Nat), r.1)

/-! ## `dequeue_packet` -/

structure RxFlags where
  peek : Bool := false
  zcopy : Bool := false
  deriving DecidableEq

/-- What a call returns, the bytes it copied and the packets it handed out. -/
structure RxResult where
  ret : Int
  data : List U8 := []
  packets : List Packet := []
  deriving DecidableEq

/-- The end of `dequeue_packet`: a peek puts the offset back, through an `int`. -/
def RxQueue.finish (q : RxQueue) (isPeek : Bool) (offset : Nat) (total : Int) : RxQueue :=
  if isPeek then { q with offset := cSize (cInt offset) }
  else { q with byteCount := cSize (q.byteCount - total) }

def RxQueue.readStart (q : RxQueue) (pdesc : Desc) : ReadState :=
  ⟨q, some pdesc, 1, pdesc.first.frag.drop q.offset, 0, []⟩

/-- `dequeue_packet`, for the lengths of the `iovec`s; `none` if it does not return within `fuel` turns
of the inner loop, or if there is no descriptor. -/
def RxQueue.dequeuePacket (q : RxQueue) (fuel : Nat) (iov : List Nat) (flags : RxFlags) :
    Option (RxQueue × RxResult) :=
  match q.list.head? with
  | none => none
  | some pdesc =>
    if flags.zcopy then
      match q.zeroCopyRx (iov.headD 0) with
      | none => some (q, { ret := -1 })
      | some (q', total, packets) =>
        some (({ q' with offset := 0 } : RxQueue).finish flags.peek q.offset total,
          { ret := total, packets := packets })
    else
      (copyIovs flags.peek fuel iov (q.readStart pdesc)).map fun st =>
        (st.q.finish flags.peek q.offset st.total, { ret := st.total, data := st.data })

end LibvmaTlt.Sock
