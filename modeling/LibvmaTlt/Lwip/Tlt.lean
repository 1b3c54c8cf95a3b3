import LibvmaTlt.Lwip.Types

/-!
# TLT: importance marks and the queue of unimportant data (`tlt.c`)

The queue is an array of slots linked through `next`, headed by slot 0; a slot with `len = 0` is
free. The loops of the source follow the links, so each takes a fuel that covers every chain of
`uimp_queue_len` nodes together with the nodes the loop itself links in.
-/

namespace LibvmaTlt.Lwip

/-! ## Marks -/

abbrev tltTosImp : U8 := 0x28
abbrev tltTosImpe : U8 := 0x30
abbrev tltTosImpf : U8 := 0x48
abbrev tltTosImpef : U8 := 0x50
abbrev tltTosImpc : U8 := 0x68
abbrev tltTosUimp : U8 := 0x20

/-! ## Slots -/

namespace UimpQueue

def empty : UimpQueue := ⟨fun _ => .zero, 0⟩

def set (q : UimpQueue) (i : Nat) (s : TltTransmitSegment) : UimpQueue :=
  { q with slot := Function.update q.slot i s }

def setNext (q : UimpQueue) (i : Nat) (n : Option Nat) : UimpQueue :=
  q.set i { q.slot i with next := n }

def grow (q : UimpQueue) : UimpQueue := { q with len := q.len + 1 }

def shrink (q : UimpQueue) : UimpQueue := { q with len := q.len - 1 }

/-- The scan for a free slot: from `i` on, stop at a free slot or at `bound`. -/
def freeFrom (q : UimpQueue) (bound : Nat) : Nat → Nat → Nat
  | 0, i => i
  | f + 1, i => if i < bound ∧ (q.slot i).len ≠ 0 then freeFrom q bound f (i + 1) else i

/-- "find next available block", continuing at `i`. -/
def nextAvailable (q : UimpQueue) (i : Nat) : Nat := q.freeFrom q.len (q.len - i) i

end UimpQueue

open UimpQueue

/-! ## `tlt_segment_rearrange_last_block` -/

/-- The last node of the chain from `i`, with its predecessor. -/
def lastNode (q : UimpQueue) : Nat → Option Nat → Nat → Option Nat × Nat
  | 0, prev, i => (prev, i)
  | f + 1, prev, i =>
    match (q.slot i).next with
    | none => (prev, i)
    | some n => lastNode q f (some i) n

/-- The loop that merges the last block into one of its round that it touches. -/
def rearrangeLoop (q : UimpQueue) (last : Nat) : Nat → Option Nat → UimpQueue × Bool
  | 0, _ => (q, false)
  | _, none => (q, false)
  | f + 1, some cur =>
    let c := q.slot cur
    let l := q.slot last
    if c.round ≠ l.round then rearrangeLoop q last f c.next
    else if l.seq + l.len = c.seq then
      (q.set cur { c with len := l.len + c.len, seq := l.seq }, true)
    else if c.seq + c.len = l.seq then
      (q.set cur { c with len := c.len + l.len }, true)
    else rearrangeLoop q last f c.next

def tltSegmentRearrangeLastBlock : Nat → UimpQueue → UimpQueue
  | 0, q => q
  | f + 1, q =>
    match (q.slot 0).next with
    | none => q
    | some _ =>
      match lastNode q (q.len + 1) none 0 with
      | (none, _) => q
      | (some prevLast, last) =>
        match rearrangeLoop q last (q.len + 1) (some 0) with
        | (q, false) => q
        | (q, true) =>
          tltSegmentRearrangeLastBlock f (((q.set last .zero).setNext prevLast none).shrink)

/-! ## `tlt_segment_merge` -/

def mergeLoop : Nat → UimpQueue → Nat → Option Nat → UimpQueue
  | 0, q, _, _ => q
  | _, q, _, none => q
  | f + 1, q, pps, some ps =>
    let a := q.slot pps
    let b := q.slot ps
    if a.len + a.seq = b.seq ∧ a.round = b.round then
      let q := ((q.set pps { a with len := a.len + b.len, next := b.next }).set ps
        { b with seq := 0, len := 0, next := none }).shrink
      mergeLoop f q pps (q.slot pps).next
    else if a.seq = b.seq ∧ a.len = b.len then
      let q := ((q.set pps { a with
        next := b.next, round := if a.round ≥ b.round then a.round else b.round }).set ps
        .zero).shrink
      mergeLoop f q pps (q.slot pps).next
    else mergeLoop f q ps b.next

def tltSegmentMerge (q : UimpQueue) : UimpQueue :=
  if (q.slot 0).len ≠ 0 ∧ (q.slot 0).next ≠ none then mergeLoop (q.len + 1) q 0 (q.slot 0).next
  else q

/-! ## `tlt_segment_add` -/

/-- The locals of `tlt_segment_add`: the queue, the free slot `i` and what is left to add. -/
structure TltAdd where
  q : UimpQueue
  i : Nat
  seq : U32
  len : U32

/-- Link slot `i` with contents `s` behind `ps` and look for the next free slot. -/
def TltAdd.link (a : TltAdd) (ps : Nat) (s : TltTransmitSegment) : TltAdd :=
  let q := (a.q.set a.i { s with next := (a.q.slot ps).next }).setNext ps (some a.i) |>.grow
  { a with q := q, i := q.nextAvailable a.i }

/-- One pass of the loop that removes duplicates; the flag says whether it breaks. -/
def tltAddStep (a : TltAdd) (round : U32) (ps : Nat) : TltAdd × Bool :=
  let p := a.q.slot ps
  let pEnd := p.seq + p.len
  let sEnd := a.seq + a.len
  if TcpSeqLeq p.seq a.seq ∧ TcpSeqLeq sEnd pEnd then
    -- the target is included in the existing block
    if p.round = round then ({ a with len := 0 }, true)
    else
      let aLen := a.seq - p.seq
      let cLen := pEnd - sEnd
      if aLen ≠ 0 then
        if cLen ≠ 0 then
          -- three pieces; the third is written with the second's range
          let a1 := a.link ps ⟨a.seq, a.len, round, none⟩
          (a1.link a.i ⟨a.seq, a.len, p.round, none⟩, false)
        else (a.link ps ⟨a.seq, a.len, round, none⟩, false)
      else if cLen ≠ 0 then (a.link ps ⟨sEnd, cLen, p.round, none⟩, false)
      else ({ a with q := a.q.set ps { p with round := round } }, false)
  else if TcpSeqLeq a.seq p.seq ∧ TcpSeqLeq pEnd sEnd then
    -- the existing block is included in the target
    let a1 :=
      if p.seq > a.seq then
        { a with q := a.q.set ps { p with round := round } }.link ps
          ⟨a.seq, p.seq - a.seq, round, none⟩
      else a
    ({ a1 with len := sEnd - pEnd, seq := pEnd }, sEnd - pEnd = 0)
  else if TcpSeqLeq a.seq p.seq ∧ TcpSeqLeq sEnd p.seq then (a, false)
  else if TcpSeqLeq pEnd a.seq ∧ TcpSeqLeq pEnd sEnd then (a, false)
  else if TcpSeqLeq a.seq p.seq ∧ TcpSeqLeq sEnd pEnd then
    -- overlap on the left
    if p.round ≠ round then
      let a1 := { a with q := a.q.set ps { p with len := sEnd - p.seq, round := round } }.link ps
        ⟨sEnd, pEnd - sEnd, p.round, none⟩
      ({ a1 with len := p.seq - a.seq }, false)
    else ({ a with len := p.seq - a.seq }, false)
  else if TcpSeqLeq p.seq a.seq ∧ TcpSeqLeq pEnd sEnd then
    -- overlap on the right: once the block is cut, its end is where the target starts
    if p.round ≠ round then
      let a1 := { a with q := a.q.set ps { p with len := a.seq - p.seq } }.link ps
        ⟨a.seq, pEnd - a.seq, round, none⟩
      (a1, false)
    else ({ a with len := sEnd - pEnd, seq := pEnd }, false)
  else (a, false)

def tltAddLoop (round : U32) : Nat → TltAdd → Option Nat → TltAdd
  | 0, a, _ => a
  | _, a, none => a
  | f + 1, a, some ps =>
    let r := tltAddStep a round ps
    if r.2 then r.1 else tltAddLoop round f r.1 (r.1.q.slot ps).next

/-- The loop that finds the place for what is left: before the first later block, else at the
end. -/
def tltInsertLoop (i : Nat) (seq len round : U32) : Nat → UimpQueue → Nat → Option Nat → UimpQueue
  | f + 1, q, pps, some ps =>
    if TcpSeqLeq (seq + len) (q.slot ps).seq then
      ((q.setNext pps (some i)).set i ⟨seq, len, round, some ps⟩).grow
    else tltInsertLoop i seq len round f q ps (q.slot ps).next
  | _, q, pps, _ => ((q.setNext pps (some i)).set i ⟨seq, len, round, none⟩).grow

def tltSegmentAdd (q : UimpQueue) (seq len round : U32) : UimpQueue :=
  let i := q.freeFrom (min q.len maxUimpQueueElem) q.len 0
  let q1 :=
    if i = 0 then (q.set 0 ⟨seq, len, round, none⟩).grow
    else
      let a := tltAddLoop round (3 * q.len + 3) ⟨q, i, seq, len⟩ (some 0)
      if a.len = 0 then a.q
      else tltInsertLoop a.i a.seq a.len round (a.q.len + 1) a.q 0 (a.q.slot 0).next
  let q2 := tltSegmentMerge q1
  tltSegmentRearrangeLastBlock (q2.len + 1) q2

/-! ## `tlt_segment_remove_round` -/

/-- Take the node `ps` out of the chain. The head stays where it is: its successor is moved into
it. -/
def tltUnlink (q : UimpQueue) (pps : Option Nat) (ps : Nat) : UimpQueue :=
  match pps with
  | some pp =>
    ((q.setNext pp (q.slot ps).next).set ps { q.slot ps with len := 0, seq := 0, next := none }).shrink
  | none =>
    match (q.slot ps).next with
    | some n =>
      let nx := q.slot n
      ((q.set ps ⟨nx.seq, nx.len, nx.round, nx.next⟩).set n
        { nx with len := 0, seq := 0, next := none }).shrink
    | none => (q.set ps .zero).shrink

/-- The target `[seq, seq + len)` is included in the block `ps`. -/
def tltRemoveInside (q : UimpQueue) (seq len : U32) (pps : Option Nat) (ps : Nat) : UimpQueue :=
  let p := q.slot ps
  if p.seq = seq ∧ seq + len = p.seq + p.len then tltUnlink q pps ps
  else if p.seq = seq then q.set ps { p with len := p.len - len, seq := seq + len }
  else if p.seq + p.len = seq + len then q.set ps { p with len := seq - p.seq }
  else
    let i := q.nextAvailable 0
    -- the new slot keeps whatever round it had
    let q1 := q.set i { q.slot i with
      seq := seq + len, len := p.len + p.seq - (seq + len), next := p.next }
    (q1.set ps { q1.slot ps with len := seq - p.seq, next := some i }).grow

/-- The loop of `tlt_segment_remove_round`; `preserve` is `preserve_loc`. -/
def tltRemoveLoop (seq len round : U32) : Nat → UimpQueue → Option Nat → Option Nat → Bool →
    UimpQueue
  | 0, q, _, _, _ => q
  | _, q, _, none, _ => q
  | f + 1, q, pps, some ps, preserve =>
    let p := q.slot ps
    let pEnd := p.seq + p.len
    let sEnd := seq + len
    if preserve ∧ p.len = 0 then q
    else if round ≠ 0xFFFFFFFF ∧ round > p.round then
      tltRemoveLoop seq len round f q (some ps) p.next false
    else if TcpSeqLeq p.seq seq ∧ TcpSeqLeq sEnd pEnd then tltRemoveInside q seq len pps ps
    else if TcpSeqLeq seq p.seq ∧ TcpSeqLeq pEnd sEnd then
      -- the existing block is included in the target
      let q1 := tltUnlink q pps ps
      match pps with
      | none => tltRemoveLoop seq len round f q1 none (some 0) true
      | some pp => tltRemoveLoop seq len round f q1 (some pp) (q1.slot pp).next false
    else if TcpSeqLeq seq p.seq ∧ TcpSeqLeq sEnd p.seq then
      tltRemoveLoop seq len round f q (some ps) p.next false
    else if TcpSeqLeq pEnd seq ∧ TcpSeqLeq pEnd sEnd then
      tltRemoveLoop seq len round f q (some ps) p.next false
    else if TcpSeqLeq seq p.seq ∧ TcpSeqLeq sEnd pEnd then
      -- overlap on the left
      tltRemoveLoop seq len round f (q.set ps { p with len := pEnd - sEnd, seq := sEnd }) (some ps)
        p.next false
    else if TcpSeqLeq p.seq seq ∧ TcpSeqLeq pEnd sEnd then
      -- overlap on the right
      tltRemoveLoop seq len round f (q.set ps { p with len := seq - p.seq }) (some ps) p.next false
    else tltRemoveLoop seq len round f q (some ps) p.next false

def tltSegmentRemoveRound (q : UimpQueue) (seq len round : U32) : UimpQueue :=
  if (q.slot 0).len ≠ 0 then tltRemoveLoop seq len round (2 * q.len + 2) q none (some 0) false
  else q

def tltSegmentRemove (q : UimpQueue) (seq len : U32) : UimpQueue :=
  tltSegmentRemoveRound q seq len 0xFFFFFFFF

/-! ## The queue of a pcb -/

def tltInit : TltParam := ⟨.idle, .idle, .empty, 0, 0⟩

/-- `tlt_uimpq_peek`: the head block, at most `maxLen` of it. -/
def tltUimpqPeek (t : TltParam) (maxLen : U32) : U32 × U32 :=
  let h := t.uimp.slot 0
  if h.len ≠ 0 then (h.seq, if h.len > maxLen then maxLen else h.len) else (0, 0)

/-- `tlt_uimpq_pop`, on a non-empty queue: what `tlt_uimpq_peek` shows, taken out of the blocks of
`round` and later. -/
def tltUimpqPop (t : TltParam) (maxLen round : U32) : TltParam :=
  let h := t.uimp.slot 0
  if h.len ≠ 0 then
    let r := tltUimpqPeek t maxLen
    { t with uimp := tltSegmentRemoveRound t.uimp r.1 r.2 round }
  else t

def tltLostLoop (q : UimpQueue) (bound : U32) : Nat → Option Nat → Bool
  | f + 1, some ps => (q.slot ps).round < bound || tltLostLoop q bound f (q.slot ps).next
  | _, _ => false

def tltIsLost (t : TltParam) (checkDirty : Bool) : Bool :=
  ((t.uimp.slot 0).len ≠ 0 && tltLostLoop t.uimp (t.curRound - 2) (t.uimp.len + 1) (some 0)) ||
    (checkDirty && (t.dirtyMap &&& 4) = 0)

/-! ## Marking

The functions of the source take the pcb; of it they change `tlt` alone, which is what they return
here. -/

def tltSendSyn (t : TltParam) (seg : TcpSeg) : TltParam × TcpSeg :=
  ({ t with sendState := .pending }, { seg with tos := seg.tos ||| tltTosImp })

def tltEchoMark : TltState → U8
  | .pending => tltTosImpe
  | .pendingForce => tltTosImpef
  | .idle => tltTosImpc

def tltSendAck (t : TltParam) (seg : TcpSeg) : TltParam × TcpSeg :=
  ({ t with recvState := .idle }, { seg with tos := seg.tos ||| tltEchoMark t.recvState })

def tltSendPayload (pcb : Pcb) (seg : TcpSeg) : TltParam × TcpSeg :=
  match pcb.tlt.sendState with
  | .pending => ({ pcb.tlt with sendState := .idle }, { seg with tos := seg.tos ||| tltTosImp })
  | .pendingForce => ({ pcb.tlt with sendState := .idle }, { seg with tos := seg.tos ||| tltTosImpf })
  | .idle =>
    ({ pcb.tlt with
        uimp := tltSegmentAdd pcb.tlt.uimp (seg.seqno - pcb.iss) (u32 seg.len) pcb.tlt.curRound
        dirtyMap := pcb.tlt.dirtyMap ||| 1 },
      { seg with tos := seg.tos ||| tltTosUimp })

def tltOut (pcb : Pcb) (seg : TcpSeg) : TltParam × TcpSeg :=
  if seg.len ≠ 0 then tltSendPayload pcb seg
  else if seg.flags.syn then tltSendSyn pcb.tlt seg
  else if seg.flags.ack then tltSendAck pcb.tlt seg
  else (pcb.tlt, seg)

/-- `tlt_out_empty_ack`: the new state and the TOS of the ACK. -/
def tltOutEmptyAck (pcb : Pcb) : TltParam × U8 :=
  ({ pcb.tlt with recvState := .idle }, pcb.tos ||| tltEchoMark pcb.tlt.recvState)

/-- The marks of `tlt_in`, once the two ECN bits are masked out. -/
def tltInMark (t : TltParam) (tos : U8) : TltParam :=
  if tos = tltTosImp then { t with recvState := .pending }
  else if tos = tltTosImpe then
    { t with sendState := .pending, curRound := t.curRound + 1, dirtyMap := t.dirtyMap <<< 1 }
  else if tos = tltTosImpf then { t with recvState := .pendingForce }
  else if tos = tltTosImpef then
    { t with sendState := .pending, curRound := t.curRound + 1, dirtyMap := t.dirtyMap <<< 1 }
  else t

def tltIn (pcb : Pcb) (hdr : TcpHdr) (tos : U8) : TltParam :=
  let t := pcb.tlt
  let t := if hdr.flags.ack then
      { t with uimp := tltSegmentRemove t.uimp 0 (hdr.ackno - pcb.iss) }
    else t
  tltInMark t (tos &&& 0xFC)

end LibvmaTlt.Lwip
