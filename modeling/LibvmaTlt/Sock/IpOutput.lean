import LibvmaTlt.Lwip.Pbuf
import LibvmaTlt.Lwip.Tlt

/-!
# From lwIP to the ring: the TOS byte of a packet

`sockinfo_tcp::ip_output` describes the packet to the destination entry by an array of `iovec`s, or,
for a single pbuf, by a `tcp_iovec`, a longer record with the TOS byte at its end. The destination
entry reads the array as `tcp_iovec`s whatever it is. With more than one pbuf the byte it takes for the
TOS is a byte of the second `iovec`, the lowest byte of its length. A packet for a destination that is
not resolved is queued in the neighbour entry with a header built beforehand, and the TOS byte stored
beside it is not looked at again.
-/

namespace LibvmaTlt.Sock

open Lwip

/-! ## Records in memory -/

def le64 (n : Nat) : List U8 := (List.range 8).map fun i => BitVec.ofNat 8 (n / 256 ^ i)

structure IoVec where
  iovBase : Nat
  iovLen : Nat

def IoVec.mem (v : IoVec) : List U8 := le64 v.iovBase ++ le64 v.iovLen

structure TcpIovec where
  iovec : IoVec
  pDesc : Nat
  pTos : U8

def TcpIovec.mem (v : TcpIovec) : List U8 := v.iovec.mem ++ le64 v.pDesc ++ [v.pTos]

def iovecsMem (l : List IoVec) : List U8 := l.flatMap IoVec.mem

def pTosAt (mem : List U8) : U8 := mem.getD 24 0

@[simp] theorem length_le64 (n : Nat) : (le64 n).length = 8 := by simp [le64]

@[simp] theorem IoVec.length_mem (v : IoVec) : v.mem.length = 16 := by simp [IoVec.mem]

theorem le64_head (n : Nat) : (le64 n).getD 0 0 = BitVec.ofNat 8 n := by
  simp [le64]

theorem pTosAt_tcpIovec (v : TcpIovec) : pTosAt v.mem = v.pTos := by
  have h : (v.iovec.mem ++ le64 v.pDesc).length = 24 := by simp
  unfold pTosAt TcpIovec.mem
  rw [List.getD_append_right _ _ _ _ (by omega), h]
  rfl

theorem pTosAt_iovecs (a b : IoVec) (l : List IoVec) :
    pTosAt (iovecsMem (a :: b :: l)) = BitVec.ofNat 8 b.iovLen := by
  have h1 : (a.mem ++ le64 b.iovBase).length = 24 := by simp
  have hm : iovecsMem (a :: b :: l) =
      (a.mem ++ le64 b.iovBase) ++ (le64 b.iovLen ++ iovecsMem l) := by
    simp [iovecsMem, IoVec.mem]
  unfold pTosAt
  rw [hm, List.getD_append_right _ _ _ _ (by omega), h1,
    List.getD_append _ _ _ _ (by simp), ← le64_head]

/-! ## The destination entry -/

/-- A packet posted to the ring: the TOS byte of its IP header and what follows the header. -/
structure Posted where
  tos : U8
  data : List U8
  deriving DecidableEq

/-- `neigh_send_data`: `headerTos` is the TOS byte in the copied header, `mTos` the field beside it. -/
structure NeighSendData where
  headerTos : U8
  mTos : U8
  data : List U8

/-- What the surroundings decide: the addresses of the pbufs and their payloads, and the state of the
destination entry and the ring. `laterOk` says whether the neighbour entry can send the packet when it
gets to it. -/
structure Dst where
  payloadAddr : Nat → Nat := fun _ => 0
  pbufAddr : Nat := 0
  /-- `m_tos`, which the socket option `IP_TOS` sets. -/
  mTos : U8 := 0
  isValid : Bool := true
  validAfterPrepare : Bool := true
  isOffloaded : Bool := true
  ownsDesc : Bool := true
  bufferOk : Bool := true
  hasNeigh : Bool := true
  laterOk : Bool := true

inductive Handed where
  | ring (pkt : Posted)
  | neigh (d : NeighSendData)
  | dropped

/-- `dst_entry_tcp::fast_send`: the lwIP buffer is sent, or a copy of it if it is a chain, is
retransmitted or belongs to another ring. -/
def fastSend (dst : Dst) (mem : List U8) (szIov : Nat) (data : List U8) (isRexmit : Bool) : Handed :=
  let noCopy := szIov = 1 && !isRexmit && dst.ownsDesc
  if noCopy || dst.bufferOk then .ring ⟨pTosAt mem, data⟩ else .dropped

def passBuffToNeigh (dst : Dst) (mem data : List U8) : Handed :=
  if dst.hasNeigh then .neigh ⟨dst.mTos, pTosAt mem, data⟩ else .dropped

def slowSend (dst : Dst) (mem : List U8) (szIov : Nat) (data : List U8) (isRexmit : Bool) : Handed :=
  if dst.isOffloaded then
    if dst.validAfterPrepare then fastSend dst mem szIov data isRexmit
    else passBuffToNeigh dst mem data
  else .dropped

def slowSendNeigh (dst : Dst) (mem data : List U8) : Handed :=
  if dst.isOffloaded then passBuffToNeigh dst mem data else .dropped

def postSendTcp (dst : Dst) (d : NeighSendData) : Option Posted :=
  if dst.laterOk then some ⟨d.headerTos, d.data⟩ else none

/-! ## `sockinfo_tcp` -/

/-- The array `ip_output` fills: a `tcp_iovec` for one pbuf, else `iovec`s. A chain of more than 64
pbufs is dropped. -/
def buildIovec (dst : Dst) (p : List Pbuf) (tos : U8) : Option (List U8) :=
  match p with
  | [] => none
  | [q] => some (TcpIovec.mem ⟨⟨dst.payloadAddr 0, q.len⟩, dst.pbufAddr, tos⟩)
  | _ =>
    if p.length ≤ 64 then
      some (iovecsMem (p.mapIdx fun i q => ⟨dst.payloadAddr i, q.len⟩))
    else none

def ipOutput (dst : Dst) (p : List Pbuf) (isRexmit : Bool) (tos : U8) : Handed :=
  match buildIovec dst p tos with
  | none => .dropped
  | some mem =>
    if dst.isValid then fastSend dst mem p.length (pbufBytes p) isRexmit
    else slowSend dst mem p.length (pbufBytes p) isRexmit

def ipOutputSynAck (dst : Dst) (p : List Pbuf) (tos : U8) : Handed :=
  match buildIovec dst p tos with
  | none => .dropped
  | some mem => slowSendNeigh dst mem (pbufBytes p)

def finallyPosted (dst : Dst) : Handed → Option Posted
  | .ring pkt => some pkt
  | .neigh d => postSendTcp dst d
  | .dropped => none

/-- The packet posted for a pbuf chain that lwIP hands over. -/
def wirePacket (dst : Dst) (synAck : Bool) (p : List Pbuf) (isRexmit : Bool) (tos : U8) :
    Option Posted :=
  finallyPosted dst (if synAck then ipOutputSynAck dst p tos else ipOutput dst p isRexmit tos)

def byNeigh (dst : Dst) (synAck : Bool) : Bool := synAck || (!dst.isValid && !dst.validAfterPrepare)

/-! ## The mark on the wire -/

variable {mem : List U8}

variable {dst : Dst}

theorem buildIovec_tos {p : List Pbuf} {tos : U8} (h : buildIovec dst p tos = some mem) :
    (p.length = 1 ∧ pTosAt mem = tos) ∨
      ∃ q, p[1]? = some q ∧ p.length ≠ 1 ∧ pTosAt mem = BitVec.ofNat 8 q.len := by
  match p, h with
  | [q], h =>
    refine .inl ⟨rfl, ?_⟩
    rw [← Option.some.inj h, pTosAt_tcpIovec]
  | a :: b :: rest, h =>
    refine .inr ⟨b, rfl, by simp, ?_⟩
    simp only [buildIovec] at h
    split at h
    · rw [← Option.some.inj h, List.mapIdx_cons, List.mapIdx_cons, pTosAt_iovecs]
    · cases h

variable {pkt : Posted}

theorem finallyPosted_fastSend {n : Nat} {data : List U8} {r : Bool}
    (h : finallyPosted dst (fastSend dst mem n data r) = some pkt) :
    pkt.tos = pTosAt mem := by
  simp only [fastSend] at h
  split at h
  · rw [← Option.some.inj h]
  · cases h

theorem finallyPosted_neigh {data : List U8}
    (h : finallyPosted dst (passBuffToNeigh dst mem data) = some pkt) : pkt.tos = dst.mTos := by
  simp only [passBuffToNeigh] at h
  split at h
  · simp only [finallyPosted, postSendTcp] at h
    split at h
    · rw [← Option.some.inj h]
    · cases h
  · cases h

theorem wirePacket_tos {synAck r : Bool} {p : List Pbuf} {tos : U8}
    (h : wirePacket dst synAck p r tos = some pkt) :
    ∃ mem, buildIovec dst p tos = some mem ∧
      pkt.tos = if byNeigh dst synAck then dst.mTos else pTosAt mem := by
  unfold wirePacket ipOutputSynAck ipOutput at h
  cases hb : buildIovec dst p tos with
  | none =>
    rw [hb] at h
    cases synAck <;> cases h
  | some mem =>
    refine ⟨mem, rfl, ?_⟩
    rw [hb] at h
    unfold byNeigh
    cases synAck with
    | true =>
      simp only [slowSendNeigh, if_true] at h
      split at h
      · rw [finallyPosted_neigh h]; rfl
      · cases h
    | false =>
      simp only [Bool.false_eq_true, if_false] at h
      cases hv : dst.isValid with
      | true =>
        simp only [hv, if_true] at h
        rw [finallyPosted_fastSend h]; rfl
      | false =>
        simp only [hv, Bool.false_eq_true, if_false, slowSend] at h
        split at h
        · cases hp : dst.validAfterPrepare with
          | true =>
            simp only [hp, if_true] at h
            rw [finallyPosted_fastSend h]; rfl
          | false =>
            simp only [hp, Bool.false_eq_true, if_false] at h
            rw [finallyPosted_neigh h]; rfl
        · cases h

/-- **Marks on the wire.** The packet posted to the ring carries the TOS byte lwIP gave it exactly if
it is sent by `fast_send` and is a single pbuf, or by chance: the second pbuf's length ends in that byte,
or the packet goes through the neighbour entry and the destination entry has that TOS itself. -/
theorem wirePacket_mark_iff {dst : Dst} {synAck isRexmit : Bool} {p : List Pbuf} {tos : U8}
    {pkt : Posted} (h : wirePacket dst synAck p isRexmit tos = some pkt) :
    pkt.tos = tos ↔
      if byNeigh dst synAck then dst.mTos = tos
      else p.length = 1 ∨ ∃ q, p[1]? = some q ∧ BitVec.ofNat 8 q.len = tos := by
  obtain ⟨mem, hb, ht⟩ := wirePacket_tos h
  rw [ht]
  split
  · exact Iff.rfl
  rcases buildIovec_tos hb with ⟨h1, hm⟩ | ⟨q, hq, hne, hm⟩
  · simp [h1, hm]
  rw [hm]
  constructor
  · intro he
    exact .inr ⟨q, hq, he⟩
  · rintro (h1 | ⟨q', hq', he⟩)
    · exact absurd h1 hne
    · rw [hq] at hq'
      cases hq'
      exact he

/-- A single pbuf to a resolved destination arrives with its mark. -/
theorem wirePacket_mark_single :
    ∃ pkt, wirePacket {} false [⟨[1, 2], 2⟩] false tltTosImp = some pkt ∧ pkt.tos = tltTosImp :=
  have h : wirePacket {} false [⟨[1, 2], 2⟩] false tltTosImp = some ⟨tltTosImp, [1, 2]⟩ := by decide
  ⟨_, h, (wirePacket_mark_iff h).mpr (.inl rfl)⟩

/-- An IMP packet of two pbufs, the second of 5 bytes, leaves with TOS 5; a SYN ACK marked IMP leaves
with the TOS of the destination entry. -/
theorem wirePacket_mark_lost :
    wirePacket {} false [⟨[1, 2], 7⟩, ⟨[3, 4, 5, 6, 7], 5⟩] false tltTosImp =
        some ⟨5, [1, 2, 3, 4, 5, 6, 7]⟩ ∧
      wirePacket {} true [⟨[1, 2], 2⟩] false tltTosImp = some ⟨0, [1, 2]⟩ := by
  decide

end LibvmaTlt.Sock
