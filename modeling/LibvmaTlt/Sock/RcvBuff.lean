import LibvmaTlt.Lwip.Tcp
import LibvmaTlt.Sock.StreamRead

/-!
# Receive-buffer accounting

lwIP takes text into the receive window; the socket gives the window back (`tcp_recved`) when the data
comes in, as long as the receive buffer has room, and otherwise when the application has read or freed
it. `m_rcvbuff_current` counts the bytes the application has not returned yet, and
`m_rcvbuff_non_tcp_recved` those of them that are not given back to the window.
-/

namespace LibvmaTlt.Sock

open Lwip (U32 Pcb u32 tcpRecved recvedWnd)

/-! ## The socket -/

def tcpWndScaled (pcb : Pcb) : Nat := 0xFFFF * 2 ^ pcb.rcvScale

/-- The part of `sockinfo_tcp` that takes part in the accounting. `lent` are the packets handed out to
the application; `delivered` and `returned` count the bytes it got and those it returned. -/
structure RcvSock where
  pcb : Pcb
  rcvWndMaxDesired : U32
  rcvbuffMax : Int
  rcvbuffCurrent : Int
  rcvbuffNonTcpRecved : Int
  isConnected : Bool
  q : RxQueue
  lent : List Packet
  delivered : Nat
  returned : Nat

/-- What the application's receive callback answers. -/
inductive RecvRetval where
  | drop
  | recv
  | hold
  deriving DecidableEq

def Desc.packet (d : Desc) : Packet := ⟨d.first.id, d.first.totLen, d.bufs.map MemBuf.frag⟩

def RcvSock.accept (s : RcvSock) (d : Desc) : RecvRetval → RcvSock
  | .drop => s
  | .recv => { s with q := s.q.deliver d, delivered := s.delivered + d.first.totLen }
  | .hold => { s with lent := d.packet :: s.lent, delivered := s.delivered + d.first.totLen }

def setRcvWndMax (pcb : Pcb) (w : U32) : Pcb := { pcb with rcvWndMax := w }

def RcvSock.bytesToTcpRecved (s : RcvSock) (totLen : Nat) (retval : RecvRetval) : Nat :=
  if retval = .drop then totLen
  else min (max 0 (cInt (s.rcvbuffMax - s.rcvbuffCurrent - s.rcvWndMaxDesired.toNat))).toNat totLen

/-- The rest of it: the window shrinks to what is wanted, or is given back later. -/
def RcvSock.keepBack (s : RcvSock) (remaining : Nat) : RcvSock :=
  if remaining > 0 then
    let bytesToShrink :=
      if s.pcb.rcvWndMax > s.rcvWndMaxDesired then
        min (s.pcb.rcvWndMax - s.rcvWndMaxDesired).toNat remaining
      else 0
    { s with
      pcb := setRcvWndMax s.pcb (s.pcb.rcvWndMax - u32 bytesToShrink)
      rcvbuffNonTcpRecved := cInt (s.rcvbuffNonTcpRecved + (remaining - bytesToShrink : Nat)) }
  else s

def RcvSock.account (s : RcvSock) (totLen : Nat) (retval : RecvRetval) : RcvSock :=
  let bytes := s.bytesToTcpRecved totLen retval
  let s :=
    if retval = .drop then s else { s with rcvbuffCurrent := cInt (s.rcvbuffCurrent + totLen) }
  let s := if bytes > 0 then { s with pcb := (tcpRecved s.pcb (u32 bytes)).1 } else s
  s.keepBack (totLen - bytes)

/-- `rx_lwip_cb`: the callback, if there is one, is asked only while the ready list is empty. -/
def RcvSock.rxLwipCb (s : RcvSock) (d : Desc) (callback : Option RecvRetval) : RcvSock :=
  let retval := if s.q.count ≠ 0 then .recv else callback.getD .recv
  (s.accept d retval).account d.first.totLen retval

/-- The callbacks for the text of one segment, in chunks of 64k. -/
def RcvSock.callbacks (s : RcvSock) : List (Desc × Option RecvRetval) → RcvSock
  | [] => s
  | c :: cs => (s.rxLwipCb c.1 c.2).callbacks cs

def textLen (chunks : List (Desc × Option RecvRetval)) : Nat :=
  (chunks.map fun c => c.1.first.totLen).sum

def RcvSock.receive (s : RcvSock) (chunks : List (Desc × Option RecvRetval)) : RcvSock :=
  RcvSock.callbacks { s with pcb := Lwip.advance s.pcb (textLen chunks) } chunks

def RcvSock.leave (s : RcvSock) (n : Int) : RcvSock :=
  let s := { s with rcvbuffCurrent := cInt (s.rcvbuffCurrent - n) }
  if s.rcvbuffNonTcpRecved > 0 then
    let bytes := min s.rcvbuffNonTcpRecved n
    { s with
      pcb := (tcpRecved s.pcb (BitVec.ofInt 32 bytes)).1
      rcvbuffNonTcpRecved := cInt (s.rcvbuffNonTcpRecved - bytes) }
  else s

/-- `sockinfo_tcp::rx` once data is ready; a call that does not return is left where it was. -/
def RcvSock.rx (s : RcvSock) (fuel : Nat) (iov : List Nat) (flags : RxFlags) : RcvSock :=
  match s.q.dequeuePacket fuel iov flags with
  | none => s
  | some (q, r) =>
    let s := { s with q := q, lent := r.packets ++ s.lent }
    if flags.peek || flags.zcopy then s
    else { s.leave r.ret with returned := s.returned + r.data.length }

/-- The loop of `free_packets`, which stops at a packet of another ring (`false`): what is freed. -/
def freed : List (Packet × Bool) → List Packet
  | [] => []
  | p :: ps => if p.2 then p.1 :: freed ps else []

def RcvSock.freePackets (s : RcvSock) (pkts : List (Packet × Bool)) : RcvSock :=
  let total := cInt (((freed pkts).map Packet.szPayload).sum : Nat)
  let s := { s with
    lent := s.lent.diff (freed pkts)
    returned := s.returned + ((freed pkts).map fun p => p.bytes.length).sum }
  if total > 0 then s.leave total else s

/-- `fit_rcv_wnd`; `rcv_ann_wnd` moves with `rcv_wnd`. -/
def RcvSock.fitRcvWnd (s : RcvSock) (forceFit : Bool) : RcvSock :=
  let desired : U32 := BitVec.ofInt 32 (min (tcpWndScaled s.pcb) s.rcvbuffMax)
  let s := { s with rcvWndMaxDesired := desired }
  let diff := desired - s.pcb.rcvWndMax
  if forceFit then
    let move (w : U32) : U32 := BitVec.ofInt 32 (max 0 (cInt (w.toInt + diff.toInt)))
    let pcb := { s.pcb with
      rcvWndMax := desired, rcvWnd := move s.pcb.rcvWnd, rcvAnnWnd := move s.pcb.rcvAnnWnd }
    { s with
      pcb := pcb
      rcvbuffNonTcpRecved := if pcb.rcvWnd = 0 then desired.toInt else s.rcvbuffNonTcpRecved }
  else if desired > s.pcb.rcvWndMax then
    { s with pcb := { s.pcb with
        rcvWndMax := desired, rcvWnd := s.pcb.rcvWnd + diff, rcvAnnWnd := s.pcb.rcvAnnWnd + diff } }
  else s

/-- `setsockopt(SO_RCVBUF)`, with the limit `net.core.rmem_max`. -/
def RcvSock.setRcvbuf (s : RcvSock) (optval rmemMax : Int) : RcvSock :=
  let val := min optval rmemMax
  RcvSock.fitRcvWnd { s with rcvbuffMax := max (2 * s.pcb.mss : Nat) (cInt (2 * val)) }
    (!s.isConnected)

/-! ## Runs -/

inductive RcvEvent where
  | receive (chunks : List (Desc × Option RecvRetval))
  | rx (fuel : Nat) (iov : List Nat) (flags : RxFlags)
  | freePackets (pkts : List (Packet × Bool))
  | setRcvbuf (optval rmemMax : Int)

def RcvSock.step (s : RcvSock) : RcvEvent → RcvSock
  | .receive chunks => s.receive chunks
  | .rx fuel iov flags => s.rx fuel iov flags
  | .freePackets pkts => s.freePackets pkts
  | .setRcvbuf optval rmemMax => s.setRcvbuf optval rmemMax

def lentBytes (l : List Packet) : Nat := (l.map fun p => p.bytes.length).sum

def Desc.Measured (d : Desc) : Prop :=
  d.first.totLen = d.bytes.length ∧ ∀ b ∈ d.bufs, b.len = b.frag.length

instance (d : Desc) : Decidable d.Measured := inferInstanceAs (Decidable (_ ∧ _))

/-- Text comes within the window, in chains with data in every buffer; reads come only while data is
ready, as in `RxRun.admits`; and what is freed is held. -/
def RcvSock.admits (s : RcvSock) : RcvEvent → Bool
  | .receive chunks =>
    (∀ c ∈ chunks, c.1.Full ∧ c.1.Measured) && textLen chunks ≤ s.pcb.rcvWnd.toNat
  | .rx fuel _ flags => s.q.list ≠ [] && s.q.bytes.length < fuel && !(flags.peek && flags.zcopy)
  | .freePackets pkts => (freed pkts).Subperm s.lent
  | .setRcvbuf optval rmemMax =>
    -2147483648 ≤ optval && optval < 2147483648 && -2147483648 ≤ rmemMax && rmemMax < 2147483648

/-- There is room for all the fragments of a chain, and so on as long as there is room at all. -/
def chainsFit : (len : Int) → List Desc → Bool
  | _, [] => true
  | len, d :: ds =>
    len < 0 || (d.rest.length * sizeofIovec ≤ len &&
      chainsFit (len - (d.rest.length + 1) * sizeofIovec - sizeofPacket) ds)

def passiveClose (pcb : Pcb) : Bool := pcb.state = .closeWait || pcb.state = .lastAck

/-- The events that keep the accounts. The counter is an `int`. A read returns, and does not ask for
nothing while the window of a connection closed by the peer is shut. A zero-copy read starts at a whole
buffer and takes whole chains. -/
def RcvSock.orderly (s : RcvSock) : RcvEvent → Bool
  | .receive chunks => s.rcvbuffCurrent + textLen chunks < 2147483648
  | .rx _ iov flags =>
    if flags.zcopy then
      s.q.offset = 0 &&
        chainsFit (cInt (iov.headD 0 - sizeofPackets - sizeofPacket - sizeofIovec)) s.q.list
    else
      iovsFit s.q.bytes.length iov &&
        (flags.peek || iov.sum ≠ 0 || !(passiveClose s.pcb && s.pcb.rcvWnd = 0))
  | .freePackets _ | .setRcvbuf _ _ => true

/-- The accounts are right: the window and what is kept back from it make up the whole window, and the
counter is what the application has not returned. -/
structure RcvSock.Accounted (s : RcvSock) : Prop where
  wnd : s.pcb.rcvWnd.toNat + s.rcvbuffNonTcpRecved = s.pcb.rcvWndMax.toNat
  current : s.rcvbuffCurrent = s.delivered - s.returned
  nonneg : 0 ≤ s.rcvbuffNonTcpRecved
  le : s.rcvbuffNonTcpRecved ≤ s.rcvbuffCurrent

structure RcvSock.Fresh (s : RcvSock) : Prop where
  wnd : s.pcb.rcvWnd = s.pcb.rcvWndMax
  max : s.pcb.rcvWndMax.toNat ≤ tcpWndScaled s.pcb
  scale : s.pcb.rcvScale ≤ 14
  mss : s.pcb.mss < 65536
  desired : s.rcvWndMaxDesired.toNat ≤ tcpWndScaled s.pcb
  buff : 0 ≤ s.rcvbuffMax ∧ s.rcvbuffMax < 2147483648
  current : s.rcvbuffCurrent = 0
  nonTcpRecved : s.rcvbuffNonTcpRecved = 0
  q : s.q = .empty
  lent : s.lent = []
  delivered : s.delivered = 0
  returned : s.returned = 0

/-! ## Buffers keep their sizes -/

/-- `rx.sz_payload` and `tot_len` of a descriptor are the length of its chain. -/
structure Desc.Sized (d : Desc) : Prop where
  payload : d.first.szPayload = d.bytes.length
  tot : d.first.totLen = d.bytes.length
  len : ∀ b ∈ d.bufs, b.len = b.frag.length
  small : d.bytes.length < 4294967296

theorem Desc.bytes_length (d : Desc) :
    d.bytes.length = d.first.frag.length + (chainBytes d.rest).length := by
  simp [Desc.bytes, Desc.bufs]

theorem sized_splitNext {p : Desc} (hp : p.Sized) : ∀ d ∈ splitNext p.first p.rest, d.Sized := by
  intro d hd
  cases hr : p.rest with
  | nil => simp [splitNext, hr] at hd
  | cons b rest =>
    have hbytes := p.bytes_length
    rw [hr, chainBytes_cons, List.length_append] at hbytes
    have hlen : p.first.len = p.first.frag.length := hp.len p.first (by simp [Desc.bufs])
    have hsmall := hp.small
    have hrem : cUint32 (p.first.totLen - p.first.len) =
        b.frag.length + (chainBytes rest).length := by
      unfold cUint32
      rw [hp.tot, hlen]
      omega
    simp only [splitNext, hr, List.mem_singleton] at hd
    subst hd
    refine ⟨?_, ?_, ?_, ?_⟩
    · rw [Desc.bytes_length]
      exact hrem
    · rw [Desc.bytes_length]
      exact hrem
    · intro c hc
      rcases List.mem_cons.mp hc with rfl | hc
      · exact hp.len b (by simp [Desc.bufs, hr])
      · exact hp.len c (by simp [Desc.bufs, hr, hc])
    · rw [Desc.bytes_length]
      show b.frag.length + (chainBytes rest).length < _
      omega

def ReadState.Sized (st : ReadState) : Prop :=
  (∀ d ∈ st.q.list, d.Sized) ∧ ∀ d ∈ st.pdesc, d.Sized

theorem ReadState.Sized.turn {st : ReadState} (h : st.Sized) (n : Nat) {p : Desc}
    (hp : st.pdesc = some p) : (st.turn false n p).Sized := by
  unfold ReadState.turn
  simp only
  split
  · have hlist : ∀ d ∈ splitNext p.first p.rest ++ st.q.list.tail, d.Sized := by
      intro d hd
      rcases List.mem_append.mp hd with hd | hd
      · exact sized_splitNext (h.2 p hp) d hd
      · exact h.1 d (List.mem_of_mem_tail hd)
    refine ⟨hlist, ?_⟩
    intro d hd
    simp only [ReadState.nextDesc, Bool.false_eq_true, if_false, RxQueue.getNextDesc,
      Option.mem_def] at hd
    split at hd
    · exact hlist d (List.mem_of_head? hd)
    · cases hd
  · exact h

variable {q : RxQueue} {iov : List Nat} {fuel totLen b : Nat}

theorem sized_of_copy {q' : RxQueue} {r : RxResult} (hs : ∀ d ∈ q.list, d.Sized)
    (h : q.dequeuePacket fuel iov ⟨false, false⟩ = some (q', r)) :
    ∀ d ∈ q'.list, d.Sized := by
  cases hd : q.list.head? with
  | none => simp [RxQueue.dequeuePacket, hd] at h
  | some d =>
    rw [dequeuePacket_eq hd, Option.map_eq_some_iff] at h
    obtain ⟨st, hrun, heq⟩ := h
    have h0 : (q.readStart d).Sized := by
      refine ⟨hs, ?_⟩
      rintro d' ⟨⟩
      exact hs d (List.mem_of_head? hd)
    have hst : st.Sized := copyIovs_inv (I := ReadState.Sized) (fun s n p hp h => h.turn n hp) h0 hrun
    obtain ⟨rfl, -⟩ := Prod.mk.inj heq
    exact hst.1

theorem zcopyChain_whole (len : Int) (tot : Nat) (b : MemBuf) (bs : List MemBuf)
    (h : bs.length * sizeofIovec ≤ len) :
    (zcopyChain len tot (b :: bs)).1.map MemBuf.frag = (b :: bs).map MemBuf.frag ∧
      (zcopyChain len tot (b :: bs)).2.1 = [] ∧
      (zcopyChain len tot (b :: bs)).2.2 = len - (bs.length + 1) * sizeofIovec := by
  induction bs generalizing len tot b with
  | nil =>
    simp only [List.length_nil] at h
    unfold zcopyChain
    simp only
    rw [if_pos (by omega)]
    simp [zcopyChain]
  | cons c cs ih =>
    simp only [List.length_cons, sizeofIovec] at h
    obtain ⟨h1, h2, h3⟩ := ih (len - sizeofIovec) (cUint32 (tot - b.len)) c
      (by simp only [sizeofIovec]; omega)
    unfold zcopyChain
    simp only
    rw [if_pos (by omega)]
    refine ⟨?_, h2, ?_⟩
    · rw [List.map_cons, h1]
      rfl
    · rw [h3]
      simp only [sizeofIovec, List.length_cons]
      omega

theorem sized_of_zcopyList {len count : Int} {l : List Desc} (hs : ∀ d ∈ l, d.Sized)
    (hfit : chainsFit len l = true) :
    (∀ p ∈ (zcopyList len count l).1, p.szPayload = p.bytes.length) ∧
      ∀ d ∈ (zcopyList len count l).2.1, d.Sized := by
  induction l generalizing len count with
  | nil => simp [zcopyList]
  | cons d ds ih =>
    unfold zcopyList
    split
    · rename_i hc
      unfold chainsFit at hfit
      simp only [Bool.or_eq_true, Bool.and_eq_true, decide_eq_true_eq] at hfit
      obtain ⟨hroom, hfit'⟩ := hfit.resolve_left (by omega)
      obtain ⟨hfrag, hrest, hlen⟩ := zcopyChain_whole len d.first.totLen d.first d.rest hroom
      simp only [Desc.bufs]
      rw [hrest, hlen]
      obtain ⟨h1, h2⟩ := @ih _ (count - 1) (fun d' hd' => hs d' (List.mem_cons_of_mem _ hd')) hfit'
      refine ⟨?_, h2⟩
      intro p hp
      rcases List.mem_cons.mp hp with rfl | hp
      · rw [(hs d List.mem_cons_self).payload]
        simp only [Packet.bytes, hfrag, Desc.bytes, chainBytes, Desc.bufs, List.flatMap_def]
      · exact h1 p hp
    · exact ⟨by simp, hs⟩

theorem advanceFront_zero (l : List Desc) : advanceFront 0 l = l := by
  cases l <;> simp [advanceFront]

theorem sized_of_zcopy {q' : RxQueue} {r : RxResult} (hs : ∀ d ∈ q.list, d.Sized) (hoff : q.offset = 0)
    (hfit : chainsFit (cInt (iov.headD 0 - sizeofPackets - sizeofPacket - sizeofIovec)) q.list = true)
    (h : q.dequeuePacket fuel iov ⟨false, true⟩ = some (q', r)) :
    r.data = [] ∧ (∀ p ∈ r.packets, p.szPayload = p.bytes.length) ∧ ∀ d ∈ q'.list, d.Sized := by
  unfold RxQueue.dequeuePacket at h
  split at h
  · cases h
  simp only [if_true] at h
  split at h
  · simp only [Option.some.injEq, Prod.mk.injEq] at h
    obtain ⟨rfl, rfl⟩ := h
    exact ⟨rfl, by simp, hs⟩
  rename_i q₁ total packets hz
  simp only [Option.some.injEq, Prod.mk.injEq] at h
  obtain ⟨rfl, rfl⟩ := h
  unfold RxQueue.zeroCopyRx at hz
  generalize cInt (iov.headD 0 - sizeofPackets - sizeofPacket - sizeofIovec) = len at hz hfit
  simp only [hoff, advanceFront_zero] at hz
  split at hz
  · cases hz
  · simp only [Option.some.injEq, Prod.mk.injEq] at hz
    obtain ⟨rfl, rfl, rfl⟩ := hz
    obtain ⟨h1, h2⟩ := @sized_of_zcopyList len q.count q.list hs hfit
    exact ⟨rfl, h1, h2⟩

/-! ## The accounts -/

/-- The invariant, with `pending` bytes that lwIP has taken out of the window and not handed on yet. -/
structure RcvSock.Inv (pending : Nat) (s : RcvSock) : Prop where
  wf : s.q.Wf
  sized : ∀ d ∈ s.q.list, d.Sized
  lent : ∀ p ∈ s.lent, p.szPayload = p.bytes.length
  scale : s.pcb.rcvScale ≤ 14
  mss : s.pcb.mss < 65536
  wndMax : s.pcb.rcvWndMax.toNat ≤ 1073725440
  desired : s.rcvWndMaxDesired.toNat ≤ 1073725440
  buff : 0 ≤ s.rcvbuffMax ∧ s.rcvbuffMax < 2147483648
  wnd : s.pcb.rcvWnd.toNat + s.rcvbuffNonTcpRecved + pending = s.pcb.rcvWndMax.toNat
  nonneg : 0 ≤ s.rcvbuffNonTcpRecved
  le : s.rcvbuffNonTcpRecved ≤ s.rcvbuffCurrent
  current : s.rcvbuffCurrent = s.q.bytes.length + lentBytes s.lent
  balance : s.rcvbuffCurrent = s.delivered - s.returned
  small : s.rcvbuffCurrent < 2147483648

section Steps

variable {s : RcvSock} {pending : Nat}

theorem tcpWndScaled_le {pcb : Pcb} (h : pcb.rcvScale ≤ 14) : tcpWndScaled pcb ≤ 1073725440 :=
  calc 0xFFFF * 2 ^ pcb.rcvScale ≤ 0xFFFF * 2 ^ 14 :=
        Nat.mul_le_mul_left _ (Nat.pow_le_pow_right (by decide) h)
    _ = 1073725440 := rfl

theorem tcpRecved_frame (pcb : Pcb) (len : U32) :
    (tcpRecved pcb len).1.rcvWnd = recvedWnd pcb len ∧
      (tcpRecved pcb len).1.rcvWndMax = pcb.rcvWndMax ∧
      (tcpRecved pcb len).1.rcvScale = pcb.rcvScale ∧ (tcpRecved pcb len).1.mss = pcb.mss := by
  unfold tcpRecved
  simp only
  split <;> exact ⟨rfl, rfl, rfl, rfl⟩

theorem recvedWnd_toNat {pcb : Pcb} (h : pcb.rcvWnd.toNat + b ≤ pcb.rcvWndMax.toNat)
    (hz : 0 < b ∨ (passiveClose pcb && decide (pcb.rcvWnd = 0)) = false) :
    (recvedWnd pcb (u32 b)).toNat = pcb.rcvWnd.toNat + b := by
  have hmax := pcb.rcvWndMax.isLt
  have hadd : (pcb.rcvWnd + u32 b).toNat = pcb.rcvWnd.toNat + b := by
    rw [BitVec.toNat_add, BitVec.toNat_ofNat]
    omega
  unfold recvedWnd
  simp only
  rw [if_neg]
  · split
    · rename_i hc
      exfalso
      have h0 : (pcb.rcvWnd + u32 b).toNat = 0 := by rw [hc.1]; rfl
      rcases hz with hb | hz
      · omega
      · have hw : pcb.rcvWnd = 0 := BitVec.eq_of_toNat_eq (show pcb.rcvWnd.toNat = 0 by omega)
        rcases hc.2 with hst | hst <;> simp [passiveClose, hw, hst] at hz
    · exact hadd
  · rw [gt_iff_lt, BitVec.lt_def, hadd]
    omega

theorem RcvSock.Inv.leave (h : s.Inv 0) {n : Nat} {lent : List Packet} {returned : Nat}
    (hn : (n : Int) ≤ s.rcvbuffCurrent) (hq : q.Wf) (hsized : ∀ d ∈ q.list, d.Sized)
    (hlent : ∀ p ∈ lent, p.szPayload = p.bytes.length)
    (hsum : q.bytes.length + lentBytes lent + n = s.q.bytes.length + lentBytes s.lent)
    (hret : returned = s.returned + n)
    (hz : 0 < n ∨ (passiveClose s.pcb && decide (s.pcb.rcvWnd = 0)) = false) :
    RcvSock.Inv 0 { RcvSock.leave { s with q := q, lent := lent } n with returned := returned } := by
  have hcur := h.current
  have hbal := h.balance
  have hsmall := h.small
  have hle := h.le
  have h0 := h.nonneg
  have hcast : cInt (s.rcvbuffCurrent - n) = s.rcvbuffCurrent - n := by
    rw [cInt_of_lt] <;> omega
  unfold RcvSock.leave
  simp only [hcast]
  split
  · rename_i hpos
    obtain ⟨b, hb⟩ : ∃ b : Nat, min s.rcvbuffNonTcpRecved (n : Int) = b :=
      Int.eq_ofNat_of_zero_le (by omega)
    have hwnd := h.wnd
    obtain ⟨hw, hmax, hscale, hmss⟩ := tcpRecved_frame s.pcb (u32 b)
    have hw' := @recvedWnd_toNat b s.pcb (by omega) (by
      rcases hz with hz | hz
      · left
        omega
      · exact .inr hz)
    have hsub : cInt (s.rcvbuffNonTcpRecved - b) = s.rcvbuffNonTcpRecved - b := by
      rw [cInt_of_lt] <;> omega
    simp only [hb, BitVec.ofInt_natCast, hsub]
    refine
      { h with wf := hq, sized := hsized, lent := hlent, scale := hscale ▸ h.scale,
               mss := hmss ▸ h.mss, wndMax := ?_,
               wnd := ?_, nonneg := ?_, le := ?_, current := ?_, balance := ?_, small := ?_ }
    · simp only [hmax]
      exact h.wndMax
    · simp only [hw, hmax, hw']
      omega
    all_goals
      dsimp only
      omega
  · refine
      { h with wf := hq, sized := hsized, lent := hlent, le := ?_, current := ?_, balance := ?_,
               small := ?_ }
    all_goals
      dsimp only
      omega

theorem lentBytes_append (l l' : List Packet) : lentBytes (l ++ l') = lentBytes l + lentBytes l' := by
  simp [lentBytes]

theorem RxQueue.Wf.bytes_pos (hq : q.Wf) (hne : q.list ≠ []) : 0 < q.bytes.length := by
  cases hl : q.list with
  | nil => exact absurd hl hne
  | cons d ds =>
    have hlt := hq.front d (by simp [hl])
    rw [RxQueue.bytes_of_cons hl hlt.le, List.length_append, List.length_drop]
    omega

theorem RcvSock.Inv.rx (h : s.Inv 0) {flags : RxFlags} (ha : s.admits (.rx fuel iov flags) = true)
    (ho : s.orderly (.rx fuel iov flags) = true) :
    (s.rx fuel iov flags).Inv 0 := by
  obtain ⟨peek, zcopy⟩ := flags
  simp only [RcvSock.admits, Bool.and_eq_true, decide_eq_true_eq] at ha
  obtain ⟨⟨hne, hfuel⟩, hflags⟩ := ha
  have hcur := h.current
  have hsmall := h.small
  have hlen : s.q.bytes.length < 2147483648 := by omega
  unfold RcvSock.rx
  cases zcopy with
  | true =>
    have hpeek : peek = false := by simpa using hflags
    subst hpeek
    simp only [RcvSock.orderly, if_true, Bool.and_eq_true, decide_eq_true_eq] at ho
    obtain ⟨q', r, hr, hwf, hbytes, -⟩ := @dequeuePacket_zcopy s.q fuel iov h.wf hne hlen
    obtain ⟨hdata, hpkts, hsized⟩ := sized_of_zcopy h.sized ho.1 ho.2 hr
    simp only [hr, Bool.or_true, if_true]
    have hsum : lentBytes r.packets + q'.bytes.length = s.q.bytes.length := by
      rw [hbytes, RxResult.bytes, hdata, List.nil_append, List.length_append, List.length_flatMap]
      rfl
    refine { h with wf := hwf, sized := hsized, lent := ?_, current := ?_ }
    · intro p hp
      rcases List.mem_append.mp hp with hp | hp
      · exact hpkts p hp
      · exact h.lent p hp
    · show s.rcvbuffCurrent = q'.bytes.length + lentBytes (r.packets ++ s.lent)
      rw [lentBytes_append]
      omega
  | false =>
    simp only [RcvSock.orderly, Bool.false_eq_true, if_false, Bool.and_eq_true] at ho
    obtain ⟨hfit, hzero⟩ := ho
    have hmin : min iov.sum s.q.bytes.length < 2147483648 := by omega
    cases peek with
    | true =>
      simp only [dequeuePacket_peek h.wf hne hfit hmin hfuel, Bool.true_or, if_true]
      exact { h with }
    | false =>
      obtain ⟨q', hr, hwf, hbytes⟩ := dequeuePacket_copy h.wf hne hfit hmin hfuel
      simp only [hr, Bool.or_false, Bool.false_eq_true, if_false, List.nil_append]
      have hq' : q'.bytes.length = s.q.bytes.length - iov.sum := by rw [hbytes, List.length_drop]
      have htake : (s.q.bytes.take iov.sum).length = min iov.sum s.q.bytes.length :=
        List.length_take
      refine h.leave (by omega) hwf (sized_of_copy h.sized hr) h.lent (by omega) rfl ?_
      have hpos := h.wf.bytes_pos hne
      by_cases hsum : iov.sum = 0
      · right
        simpa only [Bool.false_or, hsum, ne_eq, not_true_eq_false, decide_false,
          Bool.not_eq_true'] using hzero
      · left
        omega

theorem leave_returned (s : RcvSock) (n : Int) (k : Nat) :
    RcvSock.leave { s with returned := k } n = { s.leave n with returned := k } := by
  unfold RcvSock.leave
  simp only
  split <;> rfl

theorem RcvSock.Inv.freePackets (h : s.Inv 0) {pkts : List (Packet × Bool)}
    (ha : (freed pkts).Subperm s.lent) : (s.freePackets pkts).Inv 0 := by
  have hperm : (freed pkts ++ s.lent.diff (freed pkts)).Perm s.lent :=
    List.subperm_append_diff_self_of_count_le (List.subperm_ext_iff.mp ha)
  have hlent : ∀ p ∈ s.lent.diff (freed pkts), p.szPayload = p.bytes.length := fun p hp =>
    h.lent p (hperm.subset (List.mem_append_right _ hp))
  have hpayload : ((freed pkts).map Packet.szPayload).sum = lentBytes (freed pkts) := by
    unfold lentBytes
    congr 1
    exact List.map_congr_left fun p hp => h.lent p (hperm.subset (List.mem_append_left _ hp))
  have hsum : lentBytes (freed pkts) + lentBytes (s.lent.diff (freed pkts)) = lentBytes s.lent := by
    rw [← lentBytes_append]
    exact (hperm.map _).sum_eq
  have hcur := h.current
  have hsmall := h.small
  have hcast : cInt (lentBytes (freed pkts) : Nat) = lentBytes (freed pkts) := by
    rw [cInt_of_lt] <;> omega
  unfold RcvSock.freePackets
  simp only [hpayload, hcast]
  rw [show ((freed pkts).map fun p => p.bytes.length).sum = lentBytes (freed pkts) from rfl]
  split
  · rename_i hpos
    rw [leave_returned { s with lent := s.lent.diff (freed pkts) }]
    exact h.leave (by omega) h.wf h.sized hlent (by omega) rfl (.inl (by omega))
  refine { h with lent := hlent, current := ?_, balance := ?_ }
  · dsimp only
    omega
  · have := h.balance
    dsimp only
    omega

/-! ### The window -/

theorem toNat_ofInt_of_lt {m : Int} (h0 : 0 ≤ m) (h : m < 4294967296) :
    ((BitVec.ofInt 32 m).toNat : Int) = m := by
  rw [BitVec.toNat_ofInt]
  omega

theorem toInt_sub_wnd {a b : U32} (ha : a.toNat ≤ 1073725440) (hb : b.toNat ≤ 1073725440) :
    (a - b).toInt = a.toNat - b.toNat := by
  rw [BitVec.toInt_sub, BitVec.toInt_eq_toNat_of_lt (by omega), BitVec.toInt_eq_toNat_of_lt (by omega)]
  exact cInt_of_lt (by omega) (by omega)

theorem RcvSock.Inv.fitRcvWnd (h : s.Inv 0) (forceFit : Bool) : (s.fitRcvWnd forceFit).Inv 0 := by
  have hscaled := tcpWndScaled_le h.scale
  obtain ⟨hb0, hb1⟩ := h.buff
  have hmax := h.wndMax
  have hwnd := h.wnd
  have h0 := h.nonneg
  have hle := h.le
  have hdes := @toNat_ofInt_of_lt (min (tcpWndScaled s.pcb) s.rcvbuffMax) (by omega) (by omega)
  unfold RcvSock.fitRcvWnd
  simp only
  generalize BitVec.ofInt 32 (min (tcpWndScaled s.pcb : Int) s.rcvbuffMax) = desired at hdes ⊢
  have hdes' : desired.toNat ≤ 1073725440 := by omega
  have hdiff := toInt_sub_wnd hdes' hmax
  split
  · -- the window is cut or extended at once
    have hw : s.pcb.rcvWnd.toInt = s.pcb.rcvWnd.toNat := BitVec.toInt_eq_toNat_of_lt (by omega)
    have hd : desired.toInt = desired.toNat := BitVec.toInt_eq_toNat_of_lt (by omega)
    have hsum : cInt (s.pcb.rcvWnd.toInt + (desired - s.pcb.rcvWndMax).toInt) =
        s.pcb.rcvWnd.toNat + (desired.toNat - s.pcb.rcvWndMax.toNat) := by
      rw [hw, hdiff, cInt_of_lt] <;> omega
    rw [hsum]
    have hmove := @toNat_ofInt_of_lt
      (max 0 (s.pcb.rcvWnd.toNat + (desired.toNat - s.pcb.rcvWndMax.toNat)))
      (by omega) (by omega)
    generalize BitVec.ofInt 32 (max 0 (s.pcb.rcvWnd.toNat +
      ((desired.toNat : Int) - s.pcb.rcvWndMax.toNat))) = w at hmove ⊢
    have hzero : w = 0 ↔ w.toNat = 0 := by
      rw [← BitVec.toNat_inj]
      rfl
    rw [max_def] at hmove
    refine { h with wndMax := hdes', desired := hdes', wnd := ?_, nonneg := ?_, le := ?_ }
    all_goals
      simp only [hzero]
      split at hmove <;> split <;> omega
  · split
    · rename_i hgt
      rw [gt_iff_lt, BitVec.lt_def] at hgt
      have hadd : (s.pcb.rcvWnd + (desired - s.pcb.rcvWndMax)).toNat =
          s.pcb.rcvWnd.toNat + (desired.toNat - s.pcb.rcvWndMax.toNat) := by
        rw [BitVec.toNat_add, BitVec.toNat_sub_of_le (by rw [BitVec.le_def]; omega)]
        omega
      refine { h with wndMax := hdes', desired := hdes', wnd := ?_ }
      dsimp only
      rw [hadd]
      omega
    · exact { h with desired := hdes' }

theorem RcvSock.Inv.setRcvbuf (h : s.Inv 0) (optval rmemMax : Int) :
    (s.setRcvbuf optval rmemMax).Inv 0 := by
  have hmss := h.mss
  have hlt := cInt_lt (2 * min optval rmemMax)
  have h' : RcvSock.Inv 0
      { s with rcvbuffMax := max (2 * s.pcb.mss : Nat) (cInt (2 * min optval rmemMax)) } := by
    refine { h with buff := ?_ }
    dsimp only
    omega
  exact h'.fitRcvWnd _

/-! ### Deliveries -/

theorem RcvSock.Inv.keepBack {remaining : Nat} (h : s.Inv (remaining + pending))
    (hle : s.rcvbuffNonTcpRecved + remaining ≤ s.rcvbuffCurrent) :
    (s.keepBack remaining).Inv pending := by
  have hmax := h.wndMax
  have hwnd := h.wnd
  have h0 := h.nonneg
  have hsmall := h.small
  unfold RcvSock.keepBack
  split
  · -- how much the window shrinks
    have hshrink : ∃ k : Nat, (if s.pcb.rcvWndMax > s.rcvWndMaxDesired then
        min (s.pcb.rcvWndMax - s.rcvWndMaxDesired).toNat remaining else 0) = k ∧ k ≤ remaining ∧
        k ≤ s.pcb.rcvWndMax.toNat := by
      refine ⟨_, rfl, ?_⟩
      split
      · rename_i hgt
        rw [gt_iff_lt, BitVec.lt_def] at hgt
        rw [BitVec.toNat_sub_of_le (by rw [BitVec.le_def]; omega)]
        omega
      · omega
    obtain ⟨k, hk, hkr, hkm⟩ := hshrink
    simp only [hk]
    have hsub : (s.pcb.rcvWndMax - u32 k).toNat = s.pcb.rcvWndMax.toNat - k := by
      have hu : (u32 k).toNat = k := by
        rw [BitVec.toNat_ofNat]
        omega
      rw [BitVec.toNat_sub_of_le (by rw [BitVec.le_def]; omega), hu]
    have hcast : cInt (s.rcvbuffNonTcpRecved + (remaining - k : Nat)) =
        s.rcvbuffNonTcpRecved + (remaining - k : Nat) := by
      rw [cInt_of_lt] <;> omega
    rw [hcast]
    refine { h with wndMax := ?_, wnd := ?_, nonneg := ?_, le := ?_ }
    · show (s.pcb.rcvWndMax - u32 k).toNat ≤ _
      omega
    · show (s.pcb.rcvWnd.toNat : Int) + (s.rcvbuffNonTcpRecved + (remaining - k : Nat)) + pending =
        (s.pcb.rcvWndMax - u32 k).toNat
      omega
    all_goals
      dsimp only
      omega
  · rename_i hzero
    obtain rfl : remaining = 0 := by omega
    rwa [Nat.zero_add] at h

theorem RcvSock.Inv.recved (h : s.Inv (b + pending)) (hb : 0 < b) :
    RcvSock.Inv pending { s with pcb := (tcpRecved s.pcb (u32 b)).1 } := by
  have hwnd := h.wnd
  have h0 := h.nonneg
  have hsmall := h.small
  obtain ⟨hw, hmax, hscale, hmss⟩ := tcpRecved_frame s.pcb (u32 b)
  have hw' := @recvedWnd_toNat b s.pcb (by omega) (.inl hb)
  refine { h with scale := hscale ▸ h.scale, mss := hmss ▸ h.mss, wndMax := ?_, wnd := ?_ }
  · simp only [hmax]
    exact h.wndMax
  · simp only [hw, hmax, hw']
    omega

theorem RcvSock.Inv.settle (h : s.Inv (totLen + pending)) (hb : b ≤ totLen)
    (hle : s.rcvbuffNonTcpRecved + (totLen - b : Nat) ≤ s.rcvbuffCurrent) :
    RcvSock.Inv pending (RcvSock.keepBack
      (if b > 0 then { s with pcb := (tcpRecved s.pcb (u32 b)).1 } else s) (totLen - b)) := by
  have hsplit : totLen + pending = b + (totLen - b + pending) := by omega
  rw [hsplit] at h
  split
  · rename_i hpos
    exact (h.recved hpos).keepBack hle
  · rename_i hzero
    obtain rfl : b = 0 := by omega
    rw [Nat.zero_add] at h
    exact h.keepBack hle

theorem RcvSock.Inv.account {retval : RecvRetval} {lent : List Packet} (h : s.Inv (totLen + pending))
    (hr : retval ≠ .drop) (hsmall : s.rcvbuffCurrent + totLen < 2147483648) (hq : q.Wf)
    (hsized : ∀ d ∈ q.list, d.Sized) (hlent : ∀ p ∈ lent, p.szPayload = p.bytes.length)
    (hsum : q.bytes.length + lentBytes lent = s.q.bytes.length + lentBytes s.lent + totLen) :
    RcvSock.Inv pending (RcvSock.account
      { s with q := q, lent := lent, delivered := s.delivered + totLen } totLen retval) := by
  have hcur := h.current
  have hbal := h.balance
  have hle := h.le
  have hcast : cInt (s.rcvbuffCurrent + totLen) = s.rcvbuffCurrent + totLen := by
    have := h.nonneg
    rw [cInt_of_lt] <;> omega
  unfold RcvSock.account
  simp only [if_neg hr, hcast]
  generalize hb : RcvSock.bytesToTcpRecved _ totLen retval = b
  have hbl : b ≤ totLen := by
    rw [← hb, RcvSock.bytesToTcpRecved, if_neg hr]
    exact Nat.min_le_right _ _
  have hgot : RcvSock.Inv (totLen + pending) { s with
      q := q, lent := lent, delivered := s.delivered + totLen
      rcvbuffCurrent := s.rcvbuffCurrent + totLen } := by
    refine { h with wf := hq, sized := hsized, lent := hlent, le := ?_, current := ?_, balance := ?_,
                    small := hsmall }
    all_goals
      dsimp only
      omega
  refine hgot.settle hbl ?_
  dsimp only
  omega

theorem RcvSock.Inv.account_drop (h : s.Inv (totLen + pending)) :
    (s.account totLen .drop).Inv pending := by
  have hle := h.le
  have hall := h.settle (Nat.le_refl totLen) (by omega)
  exact hall

theorem keepBack_current (s : RcvSock) (n : Nat) :
    (s.keepBack n).rcvbuffCurrent = s.rcvbuffCurrent := by
  unfold RcvSock.keepBack
  split <;> rfl

theorem sized_deliver {d : Desc} (hs : ∀ d ∈ q.list, d.Sized) (hd : d.Measured)
    (hsmall : d.bytes.length < 4294967296) : ∀ d' ∈ (q.deliver d).list, d'.Sized := by
  intro d' hd'
  rcases List.mem_append.mp hd' with hd' | hd'
  · exact hs d' hd'
  rw [List.mem_singleton] at hd'
  subst hd'
  refine ⟨hd.1, hd.1, ?_, hsmall⟩
  intro b hb
  rcases List.mem_cons.mp hb with rfl | hb
  · exact hd.2 d.first (by simp [Desc.bufs])
  · exact hd.2 b (by simp [Desc.bufs, hb])

theorem bytes_packet (d : Desc) : d.packet.bytes = d.bytes := by
  simp [Desc.packet, Packet.bytes, Desc.bytes, chainBytes, List.flatMap_def]

theorem RcvSock.Inv.rxLwipCb {d : Desc} (h : s.Inv (d.first.totLen + pending)) (hf : d.Full)
    (hd : d.Measured) (hsmall : s.rcvbuffCurrent + d.first.totLen < 2147483648)
    (callback : Option RecvRetval) :
    (s.rxLwipCb d callback).Inv pending ∧
      (s.rxLwipCb d callback).rcvbuffCurrent ≤ s.rcvbuffCurrent + d.first.totLen := by
  have hcur := h.current
  have h0 := h.nonneg
  have hle := h.le
  have htot : d.first.totLen = d.bytes.length := hd.1
  have hcast : cInt (s.rcvbuffCurrent + d.first.totLen) = s.rcvbuffCurrent + d.first.totLen := by
    rw [cInt_of_lt] <;> omega
  unfold RcvSock.rxLwipCb
  simp only
  generalize (if s.q.count ≠ 0 then RecvRetval.recv else callback.getD .recv) = retval
  refine ⟨?_, ?_⟩
  · cases retval with
    | drop => exact h.account_drop
    | recv =>
      refine h.account (by simp) hsmall (h.wf.deliver hf htot (by omega))
        (sized_deliver h.sized hd (by omega)) h.lent ?_
      rw [bytes_deliver h.wf, List.length_append]
      omega
    | hold =>
      refine h.account (by simp) hsmall h.wf h.sized ?_ ?_
      · intro p hp
        rcases List.mem_cons.mp hp with rfl | hp
        · rw [bytes_packet]
          exact htot
        · exact h.lent p hp
      · show _ + lentBytes ([d.packet] ++ s.lent) = _
        rw [lentBytes_append, show lentBytes [d.packet] = d.packet.bytes.length by simp [lentBytes],
          bytes_packet]
        omega
  · unfold RcvSock.account
    simp only [keepBack_current]
    cases retval with
    | drop =>
      simp only [if_true]
      split <;> (simp only [RcvSock.accept]; omega)
    | recv | hold =>
      simp only [RcvSock.accept, reduceCtorEq, if_false]
      split <;> (simp only [hcast]; omega)

theorem RcvSock.Inv.callbacks {chunks : List (Desc × Option RecvRetval)}
    (h : s.Inv (textLen chunks + pending)) (hc : ∀ c ∈ chunks, c.1.Full ∧ c.1.Measured)
    (hsmall : s.rcvbuffCurrent + textLen chunks < 2147483648) :
    (s.callbacks chunks).Inv pending := by
  induction chunks generalizing s with
  | nil => rwa [textLen, List.map_nil, List.sum_nil, Nat.zero_add] at h
  | cons c cs ih =>
    obtain ⟨hf, hd⟩ := hc c List.mem_cons_self
    have htext : textLen (c :: cs) = c.1.first.totLen + textLen cs := by simp [textLen]
    rw [htext] at h hsmall
    rw [Nat.add_assoc] at h
    obtain ⟨h', hle⟩ := h.rxLwipCb hf hd (by omega) c.2
    exact ih h' (fun c' hc' => hc c' (List.mem_cons_of_mem _ hc')) (by omega)

theorem RcvSock.Inv.receive {chunks : List (Desc × Option RecvRetval)} (h : s.Inv 0)
    (hc : ∀ c ∈ chunks, c.1.Full ∧ c.1.Measured) (hwnd : textLen chunks ≤ s.pcb.rcvWnd.toNat)
    (hsmall : s.rcvbuffCurrent + textLen chunks < 2147483648) : (s.receive chunks).Inv 0 := by
  have hsub : (s.pcb.rcvWnd - u32 (textLen chunks)).toNat =
      s.pcb.rcvWnd.toNat - textLen chunks := by
    have := s.pcb.rcvWnd.isLt
    have hu : (u32 (textLen chunks)).toNat = textLen chunks := by
      rw [BitVec.toNat_ofNat]
      omega
    rw [BitVec.toNat_sub_of_le (by rw [BitVec.le_def]; omega), hu]
  have htaken : RcvSock.Inv (textLen chunks + 0)
      { s with pcb := Lwip.advance s.pcb (textLen chunks) } := by
    refine { h with wnd := ?_ }
    have := h.wnd
    show ((s.pcb.rcvWnd - u32 (textLen chunks)).toNat : Int) + s.rcvbuffNonTcpRecved +
      (textLen chunks + 0 : Nat) = s.pcb.rcvWndMax.toNat
    rw [hsub]
    omega
  exact htaken.callbacks hc hsmall

theorem RcvSock.Inv.step (h : s.Inv 0) {e : RcvEvent} (ha : s.admits e = true)
    (ho : s.orderly e = true) : (s.step e).Inv 0 := by
  cases e with
  | receive chunks =>
    simp only [RcvSock.admits, Bool.and_eq_true, decide_eq_true_eq] at ha
    simp only [RcvSock.orderly, decide_eq_true_eq] at ho
    exact h.receive ha.1 ha.2 ho
  | rx fuel iov flags => exact h.rx ha ho
  | freePackets pkts =>
    simp only [RcvSock.admits, decide_eq_true_eq] at ha
    rw [RcvSock.step]
    exact h.freePackets ha
  | setRcvbuf optval rmemMax => exact h.setRcvbuf optval rmemMax

end Steps

theorem RcvSock.Fresh.inv {s : RcvSock} (h : s.Fresh) : s.Inv 0 where
  wf := h.q ▸ RxRun.Inv.start.wf
  sized := by simp [h.q, RxQueue.empty]
  lent := by simp [h.lent]
  scale := h.scale
  mss := h.mss
  wndMax := h.max.trans (tcpWndScaled_le h.scale)
  desired := h.desired.trans (tcpWndScaled_le h.scale)
  buff := h.buff
  wnd := by simp [h.wnd, h.nonTcpRecved]
  nonneg := by simp [h.nonTcpRecved]
  le := by simp [h.nonTcpRecved, h.current]
  current := by simp [h.current, h.q, h.lent, RxQueue.empty, RxQueue.bytes, lentBytes]
  balance := by simp [h.current, h.delivered, h.returned]
  small := by simp [h.current]

/-- In every run of deliveries, reads, freed packets and new buffer sizes whose events are all orderly,
the accounts are right between events; once everything is returned the whole window is open. -/
theorem rcvbuff_accounted {s₀ s : RcvSock} (h0 : s₀.Fresh)
    (hr : Reach RcvSock.step (fun s e => s.admits e = true ∧ s.orderly e = true) s₀ s) :
    s.Accounted ∧ (s.delivered = s.returned → s.pcb.rcvWnd = s.pcb.rcvWndMax) := by
  have h : s.Inv 0 := hr.inv (I := RcvSock.Inv 0) h0.inv fun _ _ h he => h.step he.1 he.2
  have hwnd := h.wnd
  have h0 := h.nonneg
  have hle := h.le
  have hbal := h.balance
  refine ⟨⟨by omega, hbal, h0, hle⟩, ?_⟩
  intro hall
  apply BitVec.eq_of_toNat_eq
  omega

/-! ## Payload counted twice -/

/-- A connected socket with a receive buffer of 6 bytes and a window of 5. -/
def sampleSock : RcvSock where
  pcb := { Lwip.tcpPcbInit {} with state := .established, rcvWnd := 5, rcvWndMax := 5 }
  rcvWndMaxDesired := 5
  rcvbuffMax := 6
  rcvbuffCurrent := 0
  rcvbuffNonTcpRecved := 0
  isConnected := true
  q := .empty
  lent := []
  delivered := 0
  returned := 0

theorem sampleSock_fresh : sampleSock.Fresh := by
  constructor <;> decide +kernel

/-- Five bytes come in, all of them are handed out and freed. -/
def wholeRun : RcvSock :=
  ((sampleSock.step (.receive [(sampleDesc, none)])).step (.rx 9 [100] ⟨false, true⟩)).step
    (.freePackets [(⟨0, 5, [[1, 2, 3], [4, 5]]⟩, true)])

theorem rcvbuff_accounted_whole :
    wholeRun.delivered = 5 ∧ wholeRun.returned = 5 ∧ wholeRun.rcvbuffCurrent = 0 ∧
      wholeRun.pcb.rcvWnd = wholeRun.pcb.rcvWndMax := by
  have hr : Reach RcvSock.step (fun s e => s.admits e = true ∧ s.orderly e = true) sampleSock
      wholeRun :=
    .next (.next (.next .start (RcvEvent.receive [(sampleDesc, none)]) (by decide +kernel))
      (RcvEvent.rx 9 [100] ⟨false, true⟩) (by decide +kernel))
      (RcvEvent.freePackets [(⟨0, 5, [[1, 2, 3], [4, 5]]⟩, true)]) (by decide +kernel)
  obtain ⟨hacc, hopen⟩ := rcvbuff_accounted sampleSock_fresh hr
  have hd : wholeRun.delivered = 5 := by decide +kernel
  have hret : wholeRun.returned = 5 := by decide +kernel
  exact ⟨hd, hret, by rw [hacc.current, hd, hret]; rfl, hopen (by rw [hd, hret])⟩

/-- Five bytes come in, two of them are read, and the rest of the buffers is handed out. -/
def partialRun : RcvSock :=
  ((sampleSock.step (.receive [(sampleDesc, none)])).step (.rx 9 [2] {})).step
    (.rx 9 [100] ⟨false, true⟩)

/-- When the packet is freed it counts with all its five bytes: seven bytes are taken off the five. -/
theorem rcvbuff_negative :
    partialRun.lent = [⟨0, 5, [[3], [4, 5]]⟩] ∧
      (partialRun.freePackets [(⟨0, 5, [[3], [4, 5]]⟩, true)]).delivered = 5 ∧
      (partialRun.freePackets [(⟨0, 5, [[3], [4, 5]]⟩, true)]).returned = 5 ∧
      (partialRun.freePackets [(⟨0, 5, [[3], [4, 5]]⟩, true)]).rcvbuffCurrent = -2 ∧
      ¬ (partialRun.freePackets [(⟨0, 5, [[3], [4, 5]]⟩, true)]).Accounted := by
  refine ⟨by decide +kernel, by decide +kernel, by decide +kernel, by decide +kernel, fun h => ?_⟩
  have hle := h.nonneg.trans h.le
  revert hle
  decide +kernel

end LibvmaTlt.Sock
