import LibvmaTlt.Lib.CInt
import LibvmaTlt.Lwip.TcpIn

/-!
# Received frames (`ring_slave::rx_process_buffer`)

Every received buffer comes here. Headers are read where the lengths found so far put them, and the
payload lengths that go to the sockets are computed from header fields. The total length of the IP
header is compared with the size of the buffer; the length of a UDP header and the data offset of a TCP
header are compared with nothing, and no comparison says that the buffer holds a link header at all.
-/

namespace LibvmaTlt.Dev

open Lwip

/-! ## Buffers and rings -/

/-- A receive buffer: the memory at `p_buffer`, and the fields of its descriptor that are read. -/
structure RxBuf where
  mem : Nat → U8
  szData : Nat
  szBuffer : Nat
  flowTagId : U32 := 0
  isSwCsumNeed : Bool := false
  szData_lt : szData < 18446744073709551616

def be16 (m : Nat → U8) (off : Nat) : Nat := (m off).toNat * 256 + (m (off + 1)).toNat

/-- `m_transport_type`. -/
inductive Transport where
  | ib | eth | other
  deriving DecidableEq

structure TaggedSock where
  flowTagEnabled : Bool
  tcpFlowIs5t : Bool

/-- What `add_frag` answers: an error, that the fragment was taken, or a whole datagram with its number
of fragments. -/
inductive FragAnswer where
  | error
  | taken
  | whole (buf : RxBuf) (frags : Nat)

structure Ring where
  transportType : Transport := .eth
  partition : Nat := 0
  localIf : U32 := 0
  flowTagEnabled : Bool := false
  ethMcL2OnlyRules : Bool := false
  sockOf : U32 → Option TaggedSock := fun _ => none
  /-- A unicast UDP flow is attached for this address and port. -/
  udpUc : U32 → Nat → Bool := fun _ _ => false
  udpMc : U32 → Nat → Bool := fun _ _ => false
  /-- A TCP flow is attached for destination, source and their ports. -/
  tcp : U32 → U32 → Nat → Nat → Bool := fun _ _ _ _ => false
  /-- What the fragment manager says to a fragment, given the offset and length of its payload. -/
  addFrag : RxBuf → Nat → Nat → FragAnswer := fun _ _ _ => .error
  igmpMgr : Bool := true
  /-- The checksum over the header at this offset is wrong. -/
  ipCsumBad : (Nat → U8) → Nat → Bool := fun _ _ => false
  udpCsumBad : (Nat → U8) → Nat → Bool := fun _ _ => false
  tcpCsumBad : (Nat → U8) → Nat → Bool := fun _ _ => false

inductive L4Info where
  | tcp (ipOff tcpOff transportHeaderLen : Nat)
  | udp (localIf : U32)
  deriving DecidableEq

/-- The fields of `rx` that are filled in for the receiver; `iovBase` is an offset in the buffer. -/
structure RxInfo where
  srcAddr : U32
  dstAddr : U32
  srcPort : Nat
  dstPort : Nat
  iovBase : Nat
  iovLen : Nat
  szPayload : Nat
  nFrags : U8
  l4 : L4Info
  deriving DecidableEq

inductive RxOutcome where
  /-- `false` is returned and the buffer is used again. -/
  | reuse
  | fast (info : RxInfo)
  | held
  /-- The IGMP manager looks at the packet, and the buffer is used again. -/
  | igmp
  /-- `rx_dispatch_packet`; the first argument says that the packet was put together from fragments. -/
  | dispatch (reassembled : Bool) (hdrLen : Nat) (buf : RxBuf) (info : RxInfo)

def RxOutcome.dispatched : RxOutcome → Option (Bool × Nat × RxInfo)
  | .dispatch reassembled hdrLen _ info => some (reassembled, hdrLen, info)
  | _ => none

variable {hl : Nat} {n : U8}

variable {info : RxInfo}

theorem RxOutcome.exists_of_dispatched {o : RxOutcome} {r : Bool}
    (h : o.dispatched = some (r, hl, info)) : ∃ b, o = .dispatch r hl b info := by
  cases o with
  | dispatch r' hl' b info' =>
    cases h
    exact ⟨b, rfl⟩
  | _ => cases h

/-! ## Header fields -/

/-- The fields of the IP header at an offset, and the offset of the next header. -/
structure IpHdr where
  off : Nat
  version : Nat
  ihl : Nat
  totLen : Nat
  fragOff : Nat
  protocol : Nat
  saddr : U32
  daddr : U32

def ipHdr (m : Nat → U8) (off : Nat) : IpHdr where
  off := off
  version := (m off).toNat / 16
  ihl := (m off).toNat % 16
  totLen := be16 m (off + 2)
  fragOff := be16 m (off + 6)
  protocol := (m (off + 9)).toNat
  saddr := beWord m (off + 12)
  daddr := beWord m (off + 16)

def IpHdr.hdrLen (h : IpHdr) : Nat := h.ihl * 4

def IpHdr.fragOffset (h : IpHdr) : Nat := h.fragOff % 8192 * 8

/-- `MORE_FRAGMENTS_FLAG` or an offset. -/
def IpHdr.isFragment (h : IpHdr) : Bool := h.fragOff / 8192 % 2 = 1 || h.fragOffset ≠ 0

abbrev ethHdrLen : Nat := 14
abbrev ethVlanHdrLen : Nat := 18
abbrev grhHdrLen : Nat := 40
abbrev ipoibHdrLen : Nat := 4
abbrev iphdrSize : Nat := 20
abbrev udphdrSize : Nat := 8
abbrev tcphdrSize : Nat := 20
abbrev ethP8021Q : Nat := 0x8100
abbrev ethPIp : Nat := 0x0800
abbrev ipprotoIgmp : Nat := 2
abbrev ipprotoTcp : Nat := 6
abbrev ipprotoUdp : Nat := 17

def udpLen (m : Nat → U8) (off : Nat) : Nat := be16 m (off + 4)

def tcpDoff (m : Nat → U8) (off : Nat) : Nat := (m (off + 12)).toNat / 16

def inMulticast (a : U32) : Bool := a >>> 28 = 14

def Ring.udpFlow (ring : Ring) (a : U32) (port : Nat) : Bool :=
  if inMulticast a then ring.udpMc a port else ring.udpUc a port

/-! ## The function -/

/-- The descriptor of a TCP packet whose TCP header is at `off`. -/
def tcpInfo (m : Nat → U8) (ip : IpHdr) (ipHdrLen transportHeaderLen : Nat)
    (nFrags : U8) : RxInfo :=
  let off := ip.off + ipHdrLen
  { srcAddr := ip.saddr
    dstAddr := ip.daddr
    srcPort := be16 m off
    dstPort := be16 m (off + 2)
    iovBase := off + tcphdrSize
    iovLen := cSize ((ip.totLen : Int) - ipHdrLen - tcphdrSize)
    szPayload := cSize ((ip.totLen : Int) - ipHdrLen - tcpDoff m off * 4)
    nFrags := nFrags
    l4 := .tcp ip.off off transportHeaderLen }

def udpInfo (ring : Ring) (m : Nat → U8) (ip : IpHdr) (ipHdrLen : Nat)
    (nFrags : U8) : RxInfo :=
  let off := ip.off + ipHdrLen
  { srcAddr := ip.saddr
    dstAddr := ip.daddr
    srcPort := be16 m off
    dstPort := be16 m (off + 2)
    iovBase := off + udphdrSize
    iovLen := cSize ((ip.totLen : Int) - ipHdrLen - udphdrSize)
    szPayload := cSize ((udpLen m off : Int) - udphdrSize)
    nFrags := nFrags
    l4 := .udp ring.localIf }

/-- The fast path for a packet with a flow tag. It takes the IP header to be 20 bytes long. -/
def rxFastPath (ring : Ring) (b : RxBuf) : Option RxInfo :=
  if ring.flowTagEnabled ∧ b.flowTagId ≠ 0 ∧ b.flowTagId ≠ 0xFFFFF ∧ !b.isSwCsumNeed then
    match ring.sockOf (b.flowTagId - 1) with
    | none => none
    | some si =>
      if si.flowTagEnabled then
        let hl := if be16 b.mem 12 = ethP8021Q then ethVlanHdrLen else ethHdrLen
        let ip := ipHdr b.mem hl
        if si.tcpFlowIs5t then some (tcpInfo b.mem ip 20 hl 1)
        else if ip.protocol = ipprotoUdp then some (udpInfo ring b.mem ip 20 1)
        else none
      else none
  else none

/-- The checks of the link header: `transport_header_len`, or `none` for a packet that is dropped. -/
def transportHeaderLen (ring : Ring) (b : RxBuf) : Option Nat :=
  match ring.transportType with
  | .ib =>
    if beWord b.mem grhHdrLen = 0x08000000 then some (grhHdrLen + ipoibHdrLen) else none
  | .eth =>
    let vlan := be16 b.mem 12 = ethP8021Q
    let hl := if vlan then ethVlanHdrLen else ethHdrLen
    let proto := if vlan then be16 b.mem 16 else be16 b.mem 12
    let packetVlan := if vlan then be16 b.mem 14 % 4096 else 0
    if ring.partition % 4096 ≠ packetVlan then none
    else if proto ≠ ethPIp then none
    else some hl
  | .other => none

/-- What is left of `sz_data` behind the link header. -/
def ipRoom (b : RxBuf) (hl : Nat) : Nat := cSize ((b.szData : Int) - hl)

theorem cSize_lt (n : Int) : cSize n < 18446744073709551616 := by
  unfold cSize
  omega

/-- The buffer with `sz_data` cut to the IP datagram. -/
def RxBuf.trim (b : RxBuf) (hl : Nat) : RxBuf :=
  let ip := ipHdr b.mem hl
  if ip.totLen < ipRoom b hl then
    { b with
      szData := cSize ((b.szData : Int) - (ipRoom b hl - ip.totLen))
      szData_lt := cSize_lt _ }
  else b

def ipChecks (b : RxBuf) (hl : Nat) : Bool :=
  let ip := ipHdr b.mem hl
  iphdrSize ≤ ipRoom b hl && ip.version = 4 && ip.totLen ≤ ipRoom b hl &&
    !(ip.fragOffset = 0 && ip.totLen < ip.hdrLen + udphdrSize)

/-- The part of the function behind fragmentation: the transport header and the flow tables. -/
def rxDispatch (ring : Ring) (hl : Nat) (b : RxBuf) (nFrags : U8) (reassembled : Bool) : RxOutcome :=
  let ip := ipHdr b.mem hl
  let off := hl + ip.hdrLen
  if b.isSwCsumNeed ∧ ring.ipCsumBad b.mem hl then .reuse
  else if ip.protocol = ipprotoUdp then
    let info := udpInfo ring b.mem ip ip.hdrLen nFrags
    if b.isSwCsumNeed ∧ be16 b.mem (off + 6) ≠ 0 ∧ ring.udpCsumBad b.mem off then .reuse
    else if ring.udpFlow info.dstAddr info.dstPort then
      .dispatch reassembled hl b info
    else .reuse
  else if ip.protocol = ipprotoTcp then
    let info := tcpInfo b.mem ip ip.hdrLen hl nFrags
    if b.isSwCsumNeed ∧ ring.tcpCsumBad b.mem off then .reuse
    else if ring.tcp info.dstAddr info.srcAddr info.dstPort info.srcPort ∨
        ring.tcp info.dstAddr 0 info.dstPort 0 then
      .dispatch reassembled hl b info
    else .reuse
  else if ip.protocol = ipprotoIgmp then
    if (ring.transportType = .ib ∨ ring.ethMcL2OnlyRules) ∧ ring.igmpMgr then .igmp else .reuse
  else .reuse

def rxProcessBuffer (ring : Ring) (b : RxBuf) : RxOutcome :=
  if b.szBuffer < b.szData then .reuse
  else
    match rxFastPath ring b with
    | some info => .fast info
    | none =>
      match transportHeaderLen ring b with
      | none => .reuse
      | some hl =>
        let ip := ipHdr b.mem hl
        if !ipChecks b hl then .reuse
        else if ip.isFragment then
          match ring.addFrag (b.trim hl) (hl + ip.hdrLen) (cSize ((ip.totLen : Int) - ip.hdrLen)) with
          | .error => .reuse
          | .taken => .held
          | .whole buf frags =>
            -- the head counts itself once when it arrives and once here
            rxDispatch ring hl buf (BitVec.ofNat 8 (1 + frags)) true
        else rxDispatch ring hl (b.trim hl) 1 false

/-! ## Lengths -/

/-- The length of the transport header: 8 bytes for UDP, the data offset for TCP. -/
def l4Len (m : Nat → U8) (ip : IpHdr) : Nat :=
  if ip.protocol = ipprotoUdp then udphdrSize else tcpDoff m (ip.off + ip.hdrLen) * 4

/-- The lengths that a dispatched packet carries lie inside the received frame. -/
structure LengthsFit (b : RxBuf) (hl : Nat) (info : RxInfo) : Prop where
  frame : hl + (ipHdr b.mem hl).totLen ≤ b.szData
  headers : (ipHdr b.mem hl).hdrLen + l4Len b.mem (ipHdr b.mem hl) ≤ (ipHdr b.mem hl).totLen
  payload : info.szPayload + (ipHdr b.mem hl).hdrLen + l4Len b.mem (ipHdr b.mem hl) ≤
    (ipHdr b.mem hl).totLen
  iov : info.iovLen + (ipHdr b.mem hl).hdrLen + l4Len b.mem (ipHdr b.mem hl) ≤ (ipHdr b.mem hl).totLen
  udp : (ipHdr b.mem hl).protocol = ipprotoUdp →
    info.szPayload + udphdrSize = udpLen b.mem (hl + (ipHdr b.mem hl).hdrLen)

/-- The frame holds a link header; a UDP header announces a length from its own 8 bytes up to what the
IP datagram holds; the IP datagram holds a TCP header without options. -/
def honestHeaders (b : RxBuf) (hl : Nat) : Bool :=
  let ip := ipHdr b.mem hl
  let off := hl + ip.hdrLen
  hl ≤ b.szData &&
    if ip.protocol = ipprotoUdp then
      udphdrSize ≤ udpLen b.mem off && ip.hdrLen + udpLen b.mem off ≤ ip.totLen
    else tcpDoff b.mem off ≤ 5 && ip.hdrLen + tcphdrSize ≤ ip.totLen

theorem be16_lt (m : Nat → U8) (off : Nat) : be16 m off < 65536 := by
  have h1 := (m off).isLt
  have h2 := (m (off + 1)).isLt
  unfold be16
  omega

theorem RxBuf.trim_mem (b : RxBuf) (hl : Nat) : (b.trim hl).mem = b.mem := by
  unfold RxBuf.trim
  simp only
  split <;> rfl

variable {ring : Ring} {b : RxBuf}

theorem rxDispatch_dispatch {hl' : Nat} {b' : RxBuf} {r r' : Bool}
    (h : rxDispatch ring hl b n r = .dispatch r' hl' b' info) :
    hl' = hl ∧ r' = r ∧
      (((ipHdr b.mem hl).protocol = ipprotoUdp ∧
          info = udpInfo ring b.mem (ipHdr b.mem hl) (ipHdr b.mem hl).hdrLen n) ∨
        ((ipHdr b.mem hl).protocol = ipprotoTcp ∧
          info = tcpInfo b.mem (ipHdr b.mem hl) (ipHdr b.mem hl).hdrLen hl n)) := by
  unfold rxDispatch at h
  simp only at h
  split at h
  · cases h
  split at h
  · next hp =>
    split at h
    · cases h
    · split at h
      · cases h
        exact ⟨rfl, rfl, .inl ⟨hp, rfl⟩⟩
      · cases h
  · split at h
    · next hp =>
      split at h
      · cases h
      · split at h
        · cases h
          exact ⟨rfl, rfl, .inr ⟨hp, rfl⟩⟩
        · cases h
    · split at h
      · split at h <;> cases h
      · cases h

theorem rxProcessBuffer_dispatch {b' : RxBuf} (h : rxProcessBuffer ring b = .dispatch false hl b' info) :
    transportHeaderLen ring b = some hl ∧ ipChecks b hl = true ∧ (ipHdr b.mem hl).isFragment = false ∧
      (((ipHdr b.mem hl).protocol = ipprotoUdp ∧
          info = udpInfo ring b.mem (ipHdr b.mem hl) (ipHdr b.mem hl).hdrLen 1) ∨
        ((ipHdr b.mem hl).protocol = ipprotoTcp ∧
          info = tcpInfo b.mem (ipHdr b.mem hl) (ipHdr b.mem hl).hdrLen hl 1)) := by
  unfold rxProcessBuffer at h
  split at h
  · cases h
  split at h
  · cases h
  split at h
  · cases h
  next hl₁ hlink =>
  simp only at h
  split at h
  · cases h
  next hchk =>
  split at h
  · split at h
    · cases h
    · cases h
    · have hr := (rxDispatch_dispatch h).2.1
      cases hr
  · next hf =>
    obtain ⟨rfl, -, hinfo⟩ := rxDispatch_dispatch h
    rw [RxBuf.trim_mem] at hinfo
    exact ⟨hlink, by simpa using hchk, by simpa using hf, hinfo⟩

theorem ipChecks_room (h : ipChecks b hl = true) (hf : (ipHdr b.mem hl).isFragment = false) :
    (ipHdr b.mem hl).totLen ≤ ipRoom b hl ∧
      (ipHdr b.mem hl).hdrLen + udphdrSize ≤ (ipHdr b.mem hl).totLen := by
  have hoff : (ipHdr b.mem hl).fragOffset = 0 := by
    unfold IpHdr.isFragment at hf
    simpa using (Bool.or_eq_false_iff.mp hf).2
  unfold ipChecks at h
  simp only [hoff, Bool.and_eq_true, decide_eq_true_eq, Bool.not_eq_true', decide_true, Bool.true_and,
    decide_eq_false_iff_not, Nat.not_lt] at h
  exact ⟨h.1.2, h.2⟩

theorem frame_fits_iff {t : Nat} (h : t ≤ ipRoom b hl) : hl + t ≤ b.szData ↔ hl ≤ b.szData := by
  have hsz := b.szData_lt
  constructor
  · omega
  · intro hle
    have hroom : ipRoom b hl = b.szData - hl := cSize_sub hle hsz
    omega

section Lengths

variable {t h n : Nat}

theorem udp_lengths_iff (ht : t < 65536) (hn : n < 65536) (hudp : h + udphdrSize ≤ t) :
    (cSize ((n : Int) - udphdrSize) + h + udphdrSize ≤ t ∧
        cSize ((t : Int) - h - udphdrSize) + h + udphdrSize ≤ t ∧
        cSize ((n : Int) - udphdrSize) + udphdrSize = n) ↔
      udphdrSize ≤ n ∧ h + n ≤ t := by
  unfold cSize
  omega

theorem tcp_lengths_iff (ht : t < 65536) :
    (h + n ≤ t ∧ cSize ((t : Int) - h - n) + h + n ≤ t ∧
        cSize ((t : Int) - h - tcphdrSize) + h + n ≤ t) ↔
      n ≤ tcphdrSize ∧ h + tcphdrSize ≤ t := by
  unfold cSize tcphdrSize
  omega

end Lengths

/-- The lengths of a dispatched packet lie inside its frame exactly if its headers are honest. -/
theorem rx_lengthsFit_iff (ring : Ring) (b b' : RxBuf) (hl : Nat) (info : RxInfo)
    (h : rxProcessBuffer ring b = .dispatch false hl b' info) :
    LengthsFit b hl info ↔ honestHeaders b hl = true := by
  obtain ⟨-, hchk, hf, hinfo⟩ := rxProcessBuffer_dispatch h
  obtain ⟨hroom, hudp⟩ := ipChecks_room hchk hf
  have htot : (ipHdr b.mem hl).totLen < 65536 := be16_lt _ _
  have hframe := frame_fits_iff hroom
  obtain ⟨hp, rfl⟩ | ⟨hp, rfl⟩ := hinfo
  · have hlens := udp_lengths_iff htot (be16_lt b.mem (hl + (ipHdr b.mem hl).hdrLen + 4)) hudp
    have hl4 : l4Len b.mem (ipHdr b.mem hl) = udphdrSize := if_pos hp
    simp only [honestHeaders, hp, ↓reduceIte, Bool.and_eq_true, decide_eq_true_eq]
    constructor
    · rintro ⟨hin, -, hpay, hiov, hu⟩
      rw [hl4] at hpay hiov
      exact ⟨hframe.mp hin, hlens.mp ⟨hpay, hiov, hu hp⟩⟩
    · rintro ⟨hlink, hlen⟩
      obtain ⟨hpay, hiov, hu⟩ := hlens.mpr hlen
      exact ⟨hframe.mpr hlink, hl4 ▸ hudp, hl4 ▸ hpay, hl4 ▸ hiov, fun _ => hu⟩
  · have hnu : ¬(ipHdr b.mem hl).protocol = ipprotoUdp := by
      rw [hp]
      decide
    have hl4 : l4Len b.mem (ipHdr b.mem hl) = tcpDoff b.mem (hl + (ipHdr b.mem hl).hdrLen) * 4 :=
      if_neg hnu
    have hopt : tcpDoff b.mem (hl + (ipHdr b.mem hl).hdrLen) * 4 ≤ tcphdrSize ↔
        tcpDoff b.mem (hl + (ipHdr b.mem hl).hdrLen) ≤ 5 := by
      unfold tcphdrSize
      omega
    have hlens := tcp_lengths_iff (h := (ipHdr b.mem hl).hdrLen)
      (n := tcpDoff b.mem (hl + (ipHdr b.mem hl).hdrLen) * 4) htot
    rw [hopt] at hlens
    simp only [honestHeaders, hnu, ↓reduceIte, Bool.and_eq_true, decide_eq_true_eq]
    constructor
    · rintro ⟨hin, hhdr, hpay, hiov, -⟩
      rw [hl4] at hhdr hpay hiov
      exact ⟨hframe.mp hin, hlens.mp ⟨hhdr, hpay, hiov⟩⟩
    · rintro ⟨hlink, hlen⟩
      obtain ⟨hhdr, hpay, hiov⟩ := hlens.mpr hlen
      exact ⟨hframe.mpr hlink, hl4 ▸ hhdr, hl4 ▸ hpay, hl4 ▸ hiov, fun hu => absurd hu hnu⟩

def openRing : Ring where
  udpUc := fun _ _ => true
  tcp := fun _ _ _ _ => true

/-- An Ethernet frame with an IP header of 20 bytes and the given transport header and total length. -/
def ethFrame (totLen : U8) (protocol : U8) (l4 : List U8) (sz : Nat) (h : sz < 18446744073709551616) :
    RxBuf where
  mem := fun i =>
    ([0, 0, 0, 0, 0, 0, 0, 0, 0, 0, 0, 0, 8, 0, 0x45, 0, 0, totLen, 0, 0, 0, 0, 64, protocol, 0, 0,
      10, 0, 0, 1, 10, 0, 0, 2] ++ l4).getD i 0
  szData := sz
  szBuffer := 2048
  szData_lt := h

def plainUdp : RxBuf := ethFrame 32 17 [0, 1, 0, 2, 0, 12, 0, 0, 7, 8, 9, 10] 46 (by decide)

theorem rx_lengthsFit_iff_plainUdp :
    ∃ b' info, rxProcessBuffer openRing plainUdp = .dispatch false 14 b' info ∧ info.szPayload = 4 ∧
      LengthsFit plainUdp 14 info := by
  obtain ⟨b', hb⟩ := RxOutcome.exists_of_dispatched (o := rxProcessBuffer openRing plainUdp)
    (r := false)
    (h := show _ = some (_, 14, udpInfo openRing plainUdp.mem (ipHdr plainUdp.mem 14) 20 1) by
      decide +kernel)
  exact ⟨b', _, hb, by decide +kernel,
    (rx_lengthsFit_iff openRing plainUdp b' 14 _ hb).mpr (by decide +kernel)⟩

def shortUdp : RxBuf := ethFrame 28 17 [0, 1, 0, 2, 0, 4, 0, 0] 42 (by decide)

def longTcp : RxBuf :=
  ethFrame 40 6 [0, 1, 0, 2, 0, 0, 0, 0, 0, 0, 0, 0, 0xF0, 0x10, 0, 0, 0, 0, 0, 0] 54 (by decide)

/-- Both packets go to a socket, with payload lengths of almost the whole address space. -/
theorem rx_payload_wraps :
    (∃ b' info, rxProcessBuffer openRing shortUdp = .dispatch false 14 b' info ∧
        info.szPayload = 18446744073709551612 ∧ ¬LengthsFit shortUdp 14 info) ∧
      ∃ b' info, rxProcessBuffer openRing longTcp = .dispatch false 14 b' info ∧
        info.szPayload = 18446744073709551576 ∧ ¬LengthsFit longTcp 14 info := by
  obtain ⟨u, hu⟩ := RxOutcome.exists_of_dispatched (o := rxProcessBuffer openRing shortUdp) (r := false)
    (h := show _ = some (_, 14, udpInfo openRing shortUdp.mem (ipHdr shortUdp.mem 14) 20 1) by
      decide +kernel)
  obtain ⟨t, ht⟩ := RxOutcome.exists_of_dispatched (o := rxProcessBuffer openRing longTcp) (r := false)
    (h := show _ = some (_, 14, tcpInfo longTcp.mem (ipHdr longTcp.mem 14) 20 14 1) by decide +kernel)
  refine ⟨⟨u, _, hu, by decide +kernel, ?_⟩, ⟨t, _, ht, by decide +kernel, ?_⟩⟩
  · intro hfit
    exact absurd hfit.payload (by decide +kernel)
  · intro hfit
    exact absurd hfit.payload (by decide +kernel)

/-! ## The two paths

The fast path computes the descriptor again, behind fewer checks and with the length of the IP header
written down as 20. -/

/-- The ring with flow tags switched off, where every packet goes the slow path. -/
def Ring.untagged (ring : Ring) : Ring := { ring with flowTagEnabled := false }

/-- The socket of the tag is the one the packet is for. The fast path asks the socket for its protocol,
the slow path the packet. -/
def Ring.sameSocket (ring : Ring) (b : RxBuf) (hl : Nat) : Prop :=
  ∀ s, ring.sockOf (b.flowTagId - 1) = some s → s.tcpFlowIs5t = true →
    (ipHdr b.mem hl).protocol = ipprotoTcp

def ethLen (b : RxBuf) : Nat := if be16 b.mem 12 = ethP8021Q then ethVlanHdrLen else ethHdrLen

theorem transportHeaderLen_eth (heth : ring.transportType = .eth)
    (h : transportHeaderLen ring b = some hl) : hl = ethLen b := by
  unfold transportHeaderLen at h
  rw [heth] at h
  simp only [show (if be16 b.mem 12 = ethP8021Q then ethVlanHdrLen else ethHdrLen) = ethLen b from rfl,
    Option.ite_none_left_eq_some, Option.some.injEq] at h
  exact h.2.2.symm

theorem rxFastPath_some (h : rxFastPath ring b = some info) :
    ∃ s, ring.sockOf (b.flowTagId - 1) = some s ∧
      ((s.tcpFlowIs5t = true ∧ info = tcpInfo b.mem (ipHdr b.mem (ethLen b)) 20 (ethLen b) 1) ∨
        ((ipHdr b.mem (ethLen b)).protocol = ipprotoUdp ∧
          info = udpInfo ring b.mem (ipHdr b.mem (ethLen b)) 20 1)) := by
  unfold rxFastPath at h
  split at h
  · split at h
    · cases h
    next s hs =>
    refine ⟨s, hs, ?_⟩
    split at h
    · simp only [show (if be16 b.mem 12 = ethP8021Q then ethVlanHdrLen else ethHdrLen) = ethLen b
        from rfl] at h
      split at h
      · next h5 => exact .inl ⟨h5, (Option.some.inj h).symm⟩
      · split at h
        · next hp => exact .inr ⟨hp, (Option.some.inj h).symm⟩
        · cases h
    · cases h
  · cases h

theorem tcpInfo_eq_iff {m : Nat → U8} {ip : IpHdr} {i j : Nat} :
    tcpInfo m ip i hl n = tcpInfo m ip j hl n ↔ i = j := by
  constructor
  · intro h
    have hbase : ip.off + i + tcphdrSize = ip.off + j + tcphdrSize := congrArg RxInfo.iovBase h
    omega
  · rintro rfl
    rfl

theorem udpInfo_eq_iff {m : Nat → U8} {ip : IpHdr} {i j : Nat} :
    udpInfo ring m ip i n = udpInfo ring m ip j n ↔ i = j := by
  constructor
  · intro h
    have hbase : ip.off + i + udphdrSize = ip.off + j + udphdrSize := congrArg RxInfo.iovBase h
    omega
  · rintro rfl
    rfl

/-- A packet that can go both paths gets the same descriptor on both exactly if its IP header has no
options. -/
theorem rxFastPath_agrees_iff (ring : Ring) (b b' : RxBuf) (hl : Nat) (fast slow : RxInfo)
    (heth : ring.transportType = .eth) (hsock : ring.sameSocket b hl)
    (hfast : rxFastPath ring b = some fast)
    (hslow : rxProcessBuffer ring.untagged b = .dispatch false hl b' slow) :
    fast = slow ↔ (ipHdr b.mem hl).ihl = 5 := by
  obtain ⟨hlink, -, -, hinfo⟩ := rxProcessBuffer_dispatch hslow
  obtain rfl := @transportHeaderLen_eth hl ring.untagged b heth hlink
  have hlen : 20 = (ipHdr b.mem (ethLen b)).hdrLen ↔ (ipHdr b.mem (ethLen b)).ihl = 5 := by
    unfold IpHdr.hdrLen
    omega
  rw [← hlen]
  obtain ⟨s, hs, ⟨h5, rfl⟩ | ⟨hp, rfl⟩⟩ := rxFastPath_some hfast
  · have htcp := hsock s hs h5
    obtain ⟨hu, -⟩ | ⟨-, rfl⟩ := hinfo
    · rw [htcp] at hu
      exact absurd hu (by decide)
    · exact tcpInfo_eq_iff
  · obtain ⟨-, rfl⟩ | ⟨ht, -⟩ := hinfo
    · exact udpInfo_eq_iff
    · rw [hp] at ht
      exact absurd ht (by decide)

/-- A ring with flow tags whose socket is a connected TCP socket. -/
def taggedRing : Ring :=
  { openRing with
    flowTagEnabled := true
    sockOf := fun _ => some ⟨true, true⟩ }

def taggedTcp : RxBuf :=
  { ethFrame 41 6 [0, 1, 0, 2, 0, 0, 0, 0, 0, 0, 0, 0, 0x50, 0x10, 0, 0, 0, 0, 0, 0, 7] 55
      (by decide) with
    flowTagId := 1 }

theorem rxFastPath_agrees_tagged :
    ∃ b' fast slow, rxFastPath taggedRing taggedTcp = some fast ∧
      rxProcessBuffer taggedRing.untagged taggedTcp = .dispatch false 14 b' slow ∧
      (fast = slow ↔ (ipHdr taggedTcp.mem 14).ihl = 5) := by
  obtain ⟨b', hb⟩ := RxOutcome.exists_of_dispatched
    (o := rxProcessBuffer taggedRing.untagged taggedTcp) (r := false)
    (h := show _ = some (_, 14, tcpInfo taggedTcp.mem (ipHdr taggedTcp.mem 14) 20 14 1) by
      decide +kernel)
  have hf : rxFastPath taggedRing taggedTcp =
      some (tcpInfo taggedTcp.mem (ipHdr taggedTcp.mem 14) 20 14 1) := by decide +kernel
  exact ⟨b', _, _, hf, hb, rxFastPath_agrees_iff taggedRing taggedTcp b' 14 _ _ rfl
    (fun _ _ _ => by decide +kernel) hf hb⟩

/-- The same segment behind an IP header with four bytes of options. -/
def optionTcp : RxBuf where
  mem := fun i =>
    [0, 0, 0, 0, 0, 0, 0, 0, 0, 0, 0, 0, 8, 0, 0x46, 0, 0, 45, 0, 0, 0, 0, 64, 6, 0, 0,
      10, 0, 0, 1, 10, 0, 0, 2, 1, 1, 1, 0,
      0, 1, 0, 2, 0, 0, 0, 0, 0, 0, 0, 0, 0x50, 0x10, 0, 0, 0, 0, 0, 0, 7].getD i 0
  szData := 59
  szBuffer := 2048
  flowTagId := 1
  szData_lt := by decide

/-- The fast path takes the options for the ports, and the data offset from the acknowledgement number:
a segment of one byte becomes one of 25, with the last bytes of its TCP header in front. -/
theorem rxFastPath_reads_options :
    ∃ b' fast slow, taggedRing.sameSocket optionTcp 14 ∧
      rxFastPath taggedRing optionTcp = some fast ∧
      rxProcessBuffer taggedRing.untagged optionTcp = .dispatch false 14 b' slow ∧
      (slow.srcPort, slow.dstPort, slow.iovBase, slow.szPayload) = (1, 2, 58, 1) ∧
      (fast.srcPort, fast.dstPort, fast.iovBase, fast.szPayload) = (257, 256, 54, 25) := by
  obtain ⟨b', hb⟩ := RxOutcome.exists_of_dispatched
    (o := rxProcessBuffer taggedRing.untagged optionTcp) (r := false)
    (h := show _ = some (_, 14, tcpInfo optionTcp.mem (ipHdr optionTcp.mem 14) 24 14 1) by
      decide +kernel)
  have hf : rxFastPath taggedRing optionTcp =
      some (tcpInfo optionTcp.mem (ipHdr optionTcp.mem 14) 20 14 1) := by decide +kernel
  exact ⟨b', _, _, fun _ _ _ => by decide +kernel, hf, hb, by decide +kernel, by decide +kernel⟩

end LibvmaTlt.Dev
