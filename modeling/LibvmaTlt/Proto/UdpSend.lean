import Mathlib.Data.List.Basic
import Mathlib.Data.Nat.Bitwise
import Mathlib.Tactic.Common
import LibvmaTlt.Lib.Fragments

/-!
# Sending a UDP datagram

`dst_entry_udp::fast_send` gathers the user's buffers into packets and posts them to the ring, in one
packet if the datagram fits the route's MTU and in IP fragments otherwise. A datagram for a neighbour
that is not resolved is copied, queued, and later sent by `neigh_entry::post_send_udp`, with a loop of
its own. A packet here is what is posted to the ring from the IP header on.
-/

namespace LibvmaTlt.Proto

open Fragments

abbrev U8 := BitVec 8

/-! ## Packets -/

abbrev ipHdrLen : Nat := 20
abbrev udpHdrLen : Nat := 8
abbrev moreFragmentsFlag : Nat := 0x2000
abbrev fragmentOffset : Nat := 0x1fff

def toU16 (n : Nat) : Nat := n % 65536

def be16 (n : Nat) : List U8 := [BitVec.ofNat 8 (n / 256), BitVec.ofNat 8 n]

def ofBe16 : List U8 → Nat
  | [a, b] => a.toNat * 256 + b.toNat
  | _ => 0

/-- A posted packet: the fields of its IP header that the senders write, and what follows the header. -/
structure IpPacket where
  id : Nat
  fragOff : Nat
  totLen : Nat
  payload : List U8
  deriving DecidableEq

def IpPacket.offset (p : IpPacket) : Nat := p.fragOff % 8192 * 8

def IpPacket.more (p : IpPacket) : Bool := p.fragOff.testBit 13

def IpPacket.len (p : IpPacket) : Nat := p.payload.length

def reassembled (l : List IpPacket) : List U8 := l.flatMap IpPacket.payload

def udpHdr (sport dport len : Nat) : List U8 := be16 sport ++ be16 dport ++ be16 len ++ be16 0

@[simp] theorem length_udpHdr (sport dport len : Nat) : (udpHdr sport dport len).length = 8 := rfl

theorem ofBe16_be16 (n : Nat) : ofBe16 (be16 n) = toU16 n := by
  simp only [ofBe16, be16, BitVec.toNat_ofNat, toU16]
  omega

/-! ## Gathering -/

/-- The first loop of `memcpy_fromiovec`: the buffer that holds the start offset. -/
def skipIov : List (List U8) → Nat → List (List U8) × Nat
  | [], off => ([], off)
  | v :: rest, off => if v.length ≤ off then skipIov rest (off - v.length) else (v :: rest, off)

def copyIov : List (List U8) → (off szData : Nat) → List U8
  | [], _, _ => []
  | v :: rest, off, szData =>
    if szData = 0 then []
    else if v.length = 0 then copyIov rest off szData
    else
      let block := min szData (v.length - off)
      (v.drop off).take block ++ copyIov rest 0 (szData - block)

/-- `memcpy_fromiovec`: the bytes it writes; its return value is their number. -/
def memcpyFromiovec (iov : List (List U8)) (startOffset szData : Nat) : List U8 :=
  copyIov (skipIov iov startOffset).1 (skipIov iov startOffset).2 szData

theorem skipIov_spec (iov : List (List U8)) (off : Nat) :
    (skipIov iov off).1.flatten.drop (skipIov iov off).2 = iov.flatten.drop off ∧
      ∀ v ∈ (skipIov iov off).1.head?, (skipIov iov off).2 < v.length := by
  induction iov generalizing off with
  | nil => simp [skipIov]
  | cons v rest ih =>
    unfold skipIov
    split
    · rename_i h
      obtain ⟨h1, h2⟩ := ih (off - v.length)
      refine ⟨?_, h2⟩
      rw [h1, List.flatten_cons, List.drop_append, List.drop_of_length_le h, List.nil_append]
    · simp_all

theorem copyIov_zero (iov : List (List U8)) (szData : Nat) :
    copyIov iov 0 szData = iov.flatten.take szData := by
  induction iov generalizing szData with
  | nil => simp [copyIov]
  | cons v rest ih =>
    unfold copyIov
    split
    · simp_all
    split
    · rename_i hv
      rw [ih, List.flatten_cons, List.length_eq_zero_iff.mp hv, List.nil_append]
    · simp only [Nat.sub_zero, List.drop_zero, ih, List.flatten_cons, List.take_append]
      rcases Nat.le_total szData v.length with h | h
      · rw [Nat.min_eq_left h, Nat.sub_self, Nat.sub_eq_zero_of_le h]
      · rw [Nat.min_eq_right h, List.take_of_length_le h, List.take_length]

theorem memcpyFromiovec_eq (iov : List (List U8)) (off szData : Nat) :
    memcpyFromiovec iov off szData = (iov.flatten.drop off).take szData := by
  obtain ⟨h1, h2⟩ := skipIov_spec iov off
  unfold memcpyFromiovec
  rw [← h1]
  generalize skipIov iov off = r at h2 ⊢
  obtain ⟨l, o⟩ := r
  cases l with
  | nil => simp [copyIov]
  | cons v rest =>
    have ho : o < v.length := h2 v rfl
    have hd : (v.drop o).length = v.length - o := List.length_drop
    simp only [copyIov, List.flatten_cons]
    rw [List.drop_append_of_le_length (Nat.le_of_lt ho)]
    split
    · simp_all
    rw [if_neg (by omega), copyIov_zero, List.take_append, hd]
    rcases Nat.le_total szData (v.length - o) with h | h
    · rw [Nat.min_eq_left h, Nat.sub_self, Nat.sub_eq_zero_of_le h]
    · have hle : (v.drop o).length ≤ szData := by omega
      rw [Nat.min_eq_right h, List.take_of_length_le (Nat.le_of_eq hd), List.take_of_length_le hle]

/-! ## The senders -/

/-- The destination entry and its surroundings. `maxInline` and `totalHdrLen` decide whether the ring
takes the user's buffer itself; `bufs` says whether `mem_buf_tx_get` delivers. -/
structure DstUdp where
  sport : Nat := 0
  dport : Nat := 0
  txIpId : Nat := 0
  routeMtu : Nat := 1500
  maxInline : Nat := 0
  totalHdrLen : Nat := 42
  bufs : Bool := true

/-- `m_max_udp_payload_size`, as `prepare_to_send` sets it. -/
def DstUdp.maxUdpPayloadSize (d : DstUdp) : Nat := toU16 (d.routeMtu - ipHdrLen)

/-- `m_max_ip_payload_size`: the three low bits cleared. -/
def DstUdp.maxIpPayloadSize (d : DstUdp) : Nat := d.maxUdpPayloadSize / 8 * 8

/-- The `frag_off` field of a fragment at `off` with `left` fragments after it. -/
def fragField (off left : Nat) : Nat :=
  (if left = 0 then 0 else moreFragmentsFlag) |||
    if off = 0 then 0 else fragmentOffset &&& off / 8

/-- The loop over the fragments, `left` of them to go: in `fast_send_fragmented` and in
`post_send_udp`. The header comes with the first fragment. If the copy comes out short the loop is
left. -/
def fragLoop (d : DstUdp) (id maxIp szUdp : Nat) (iov : List (List U8)) :
    (left off userOff : Nat) → List IpPacket
  | 0, _, _ => []
  | left + 1, off, userOff =>
    let szIpFrag := min maxIp (szUdp - off)
    let toCopy := if off = 0 then szIpFrag - udpHdrLen else szIpFrag
    let data := memcpyFromiovec iov userOff toCopy
    if data.length ≠ toCopy then []
    else
      { id := id
        fragOff := fragField off left
        totLen := toU16 (ipHdrLen + szIpFrag)
        payload := (if off = 0 then udpHdr d.sport d.dport (toU16 szUdp) else []) ++ data } ::
      fragLoop d id maxIp szUdp iov left (off + szIpFrag) (userOff + toCopy)

def numFrags (maxIp szUdp : Nat) : Nat := (szUdp + maxIp - 1) / maxIp

/-- `dst_entry_udp::fast_send_not_fragmented`: the posted packets. The inline packet is the header
template, with identification and `frag_off` 0, and the user's buffer. -/
def fastSendNotFragmented (d : DstUdp) (iov : List (List U8)) (szUdp szData : Nat) :
    List IpPacket :=
  if !d.bufs then []
  else if iov.length = 1 ∧ szData + d.totalHdrLen < d.maxInline then
    [{ id := 0, fragOff := 0, totLen := toU16 (ipHdrLen + szUdp),
       payload := udpHdr d.sport d.dport (toU16 szUdp) ++ iov.headD [] }]
  else
    let data := memcpyFromiovec iov 0 szData
    if data.length ≠ szData then []
    else [{ id := 0, fragOff := 0, totLen := toU16 (ipHdrLen + szUdp),
            payload := udpHdr d.sport d.dport (toU16 szUdp) ++ data }]

def fastSendFragmented (d : DstUdp) (iov : List (List U8)) (szUdp : Nat) : List IpPacket :=
  if !d.bufs then []
  else fragLoop d (toU16 d.txIpId) d.maxIpPayloadSize szUdp iov (numFrags d.maxIpPayloadSize szUdp) 0 0

def fastSend (d : DstUdp) (iov : List (List U8)) : List IpPacket :=
  let szData := (iov.map List.length).sum
  if 65536 < szData then []
  else
    let szUdp := szData + udpHdrLen
    if szUdp ≤ d.maxUdpPayloadSize then fastSendNotFragmented d iov szUdp szData
    else fastSendFragmented d iov szUdp

/-- `neigh_send_data`: `send_data` copies the user's buffers into one. -/
def sendData (iov : List (List U8)) : List U8 := memcpyFromiovec iov 0 (iov.map List.length).sum

/-- `neigh_entry::post_send_udp` on what `pass_buff_to_neigh` queued; the identification is that of
the queued header. -/
def postSendUdp (d : DstUdp) (iov : List (List U8)) : List IpPacket :=
  let m := [sendData iov]
  let szData := (sendData iov).length
  let maxIp := (d.routeMtu - ipHdrLen) / 8 * 8
  if 65536 < szData then []
  else
    let szUdp := szData + udpHdrLen
    let n := if maxIp < szUdp then numFrags maxIp szUdp else 1
    if !d.bufs then [] else fragLoop d (toU16 d.txIpId) maxIp szUdp m n 0 0

/-! ## The fragments of a datagram -/

theorem fragField_more (off left : Nat) : (fragField off left).testBit 13 = decide (left ≠ 0) := by
  have hoff : (if off = 0 then 0 else fragmentOffset &&& off / 8).testBit 13 = false := by
    split
    · rfl
    · rw [Nat.testBit_and]
      exact Bool.and_eq_false_imp.mpr fun h => absurd h (by decide)
  unfold fragField
  rw [Nat.testBit_or, hoff, Bool.or_false]
  split <;> rename_i h <;> simp [h]
  decide

variable {maxIp szUdp off : Nat}

theorem fragField_offset (left : Nat) (h8 : 8 ∣ off) (h : off < 65536) :
    fragField off left % 8192 * 8 = off := by
  have hoff : (if off = 0 then 0 else fragmentOffset &&& off / 8) = off / 8 := by
    split
    · simp_all
    · rw [Nat.and_comm, show fragmentOffset = 2 ^ 13 - 1 by rfl, Nat.and_two_pow_sub_one_eq_mod]
      omega
  unfold fragField
  rw [hoff]
  split
  · rw [Nat.zero_or]
    omega
  have hlt : off / 8 < 2 ^ 13 := by omega
  have hor : moreFragmentsFlag ||| off / 8 = 2 ^ 13 + off / 8 :=
    (Nat.two_pow_add_eq_or_of_lt hlt 1).symm
  rw [hor]
  omega

/-- The datagram that should arrive: the header with its length field, and the gathered data. -/
def datagram (d : DstUdp) (szUdp : Nat) (data : List U8) : List U8 :=
  udpHdr d.sport d.dport (toU16 szUdp) ++ data

variable {iov : List (List U8)}

theorem fragment_payload (d : DstUdp) {k : Nat} (h8 : 8 ∣ off) (hk : off + k ≤ iov.flatten.length + 8)
    (h0 : off = 0 → 8 ≤ k) :
    let toCopy := if off = 0 then k - udpHdrLen else k
    let data := memcpyFromiovec iov (off - 8) toCopy
    data.length = toCopy ∧
      (if off = 0 then udpHdr d.sport d.dport (toU16 szUdp) else []) ++ data =
        ((datagram d szUdp iov.flatten).drop off).take k := by
  intro toCopy data
  have hdata : data = (iov.flatten.drop (off - 8)).take toCopy := memcpyFromiovec_eq ..
  unfold datagram
  by_cases ho : off = 0
  · have h8k := h0 ho
    subst ho
    have htc : toCopy = k - 8 := rfl
    refine ⟨by rw [hdata, List.length_take, List.length_drop]; omega, ?_⟩
    rw [if_pos rfl, List.drop_zero, List.take_append, length_udpHdr,
      List.take_of_length_le (by simpa using h8k), hdata, htc, Nat.zero_sub, List.drop_zero]
  · have htc : toCopy = k := if_neg ho
    have hlo : 8 ≤ off := Nat.le_of_dvd (by omega) h8
    refine ⟨by rw [hdata, List.length_take, List.length_drop]; omega, ?_⟩
    rw [if_neg ho, List.nil_append, List.drop_append, length_udpHdr,
      List.drop_of_length_le (by simpa using hlo), List.nil_append, hdata, htc]

/-- Fragments with `bytes` between them, at most `maxLen` in each. -/
structure FragsOf (id maxLen : Nat) (bytes : List U8) (l : List IpPacket) : Prop where
  bytes_eq : reassembled l = bytes
  each : ∀ p ∈ l, p.id = id ∧ p.totLen = ipHdrLen + p.len ∧ p.len ≤ maxLen ∧
    (p.more = true → 8 ∣ p.len)

theorem fragLoop_spec (d : DstUdp) (id : Nat) (iov : List (List U8)) (h8 : 8 ∣ maxIp) (hlo : 8 < maxIp)
    (hhi : maxIp ≤ 65515) {left : Nat} (ho8 : 8 ∣ off)
    (hlt : left * maxIp < iov.flatten.length + 8 - off)
    (hle : iov.flatten.length + 8 - off ≤ (left + 1) * maxIp) :
    let l := fragLoop d id maxIp (iov.flatten.length + 8) iov (left + 1) off (off - 8)
    FragsOf id maxIp ((datagram d (iov.flatten.length + 8) iov.flatten).drop off) l ∧
      (iov.flatten.length + 8 ≤ 65536 →
        Whole IpPacket.offset IpPacket.len IpPacket.more off l) := by
  intro l
  set szUdp := iov.flatten.length + 8 with hsz
  have hdlen : (datagram d szUdp iov.flatten).length = szUdp := by simp [datagram, hsz]; omega
  induction left generalizing off with
  | zero =>
    -- the last fragment takes all that is left
    have hk : min maxIp (szUdp - off) = szUdp - off := by omega
    obtain ⟨hlen, hpay⟩ := @fragment_payload szUdp off iov d (szUdp - off) ho8 (by omega) (by omega)
    have hl : l = [⟨id, fragField off 0, toU16 (ipHdrLen + (szUdp - off)),
        ((datagram d szUdp iov.flatten).drop off).take (szUdp - off)⟩] := by
      show fragLoop d id maxIp szUdp iov (0 + 1) off (off - 8) = _
      simp only [fragLoop, hk]
      rw [if_neg (by simpa using hlen), hpay]
    have hfull : ((datagram d szUdp iov.flatten).drop off).take (szUdp - off) =
        (datagram d szUdp iov.flatten).drop off := List.take_of_length_le (by simp [hdlen])
    rw [hl, hfull]
    refine ⟨⟨by simp [reassembled], ?_⟩, fun h64 => ⟨?_, ?_⟩⟩
    · intro p hp
      obtain rfl := List.mem_singleton.mp hp
      simp only [IpPacket.len, IpPacket.more, List.length_drop, hdlen, fragField_more]
      refine ⟨trivial, ?_, by omega, by simp⟩
      simp only [toU16, ipHdrLen]
      omega
    · exact fragField_offset 0 ho8 (by omega)
    · simp [IpPacket.more, fragField_more]
  | succ left ih =>
    have hmul : (left + 1) * maxIp = left * maxIp + maxIp := Nat.succ_mul ..
    have hk : min maxIp (szUdp - off) = maxIp := by omega
    obtain ⟨hlen, hpay⟩ := @fragment_payload szUdp off iov d maxIp ho8 (by omega) (by omega)
    have huo : off - 8 + (if off = 0 then maxIp - udpHdrLen else maxIp) = off + maxIp - 8 := by
      split
      · simp only [udpHdrLen]
        omega
      · have := Nat.le_of_dvd (by omega) ho8
        omega
    have hmul2 : (left + 1 + 1) * maxIp = (left + 1) * maxIp + maxIp := Nat.succ_mul ..
    obtain ⟨hrest, hwhole⟩ := @ih (off + maxIp) (Nat.dvd_add ho8 h8) (by omega) (by omega)
    set rest := fragLoop d id maxIp szUdp iov (left + 1) (off + maxIp) (off + maxIp - 8) with hrd
    set f : IpPacket := ⟨id, fragField off (left + 1), toU16 (ipHdrLen + maxIp),
      ((datagram d szUdp iov.flatten).drop off).take maxIp⟩ with hf
    have hl : l = f :: rest := by
      show fragLoop d id maxIp szUdp iov (left + 1 + 1) off (off - 8) = _
      rw [fragLoop]
      simp only [hk]
      rw [if_neg (by simpa using hlen), hpay, huo]
    have hflen : f.len = maxIp := by
      simp only [hf, IpPacket.len, List.length_take, List.length_drop, hdlen]
      omega
    rw [hl]
    refine ⟨⟨?_, ?_⟩, fun h64 => .cons ?_ ?_ ?_⟩
    · have : reassembled (f :: rest) = f.payload ++ reassembled rest := rfl
      rw [this, hrest.bytes_eq, hf, ← List.drop_drop, List.take_append_drop]
    · intro p hp
      rcases List.mem_cons.mp hp with rfl | hp
      · refine ⟨rfl, ?_, by omega, fun _ => hflen ▸ h8⟩
        rw [hflen]
        simp only [hf, toU16, ipHdrLen]
        omega
      · exact hrest.each p hp
    · exact fragField_offset _ ho8 (by omega)
    · simp [hf, IpPacket.more, fragField_more]
    · rw [hflen]
      exact hwhole h64

theorem FragsOf.mono {id m m' : Nat} {bytes : List U8} {l : List IpPacket}
    (h : FragsOf id m bytes l) (hm : m ≤ m') : FragsOf id m' bytes l :=
  ⟨h.bytes_eq, fun p hp => by
    obtain ⟨h1, h2, h3, h4⟩ := h.each p hp
    exact ⟨h1, h2, by omega, h4⟩⟩

theorem numFrags_spec (hm : 0 < maxIp) (hs : 0 < szUdp) :
    ∃ left, numFrags maxIp szUdp = left + 1 ∧ left * maxIp < szUdp ∧ szUdp ≤ (left + 1) * maxIp := by
  have hpos : 0 < numFrags maxIp szUdp := Nat.div_pos (by omega) hm
  have h1 : numFrags maxIp szUdp * maxIp ≤ szUdp + maxIp - 1 := Nat.div_mul_le_self ..
  have h2 : szUdp + maxIp - 1 < (numFrags maxIp szUdp + 1) * maxIp :=
    Nat.lt_mul_of_div_lt (Nat.lt_succ_self _) hm
  obtain ⟨left, hl⟩ := Nat.exists_eq_add_of_lt hpos
  rw [Nat.zero_add] at hl
  rw [hl, Nat.succ_mul] at h1
  rw [hl, Nat.succ_mul] at h2
  exact ⟨left, hl, by omega, by omega⟩

theorem fragLoop_all (d : DstUdp) (id : Nat) (iov : List (List U8)) (h8 : 8 ∣ maxIp) (hlo : 8 < maxIp)
    (hhi : maxIp ≤ 65515) :
    let szUdp := iov.flatten.length + 8
    let l := fragLoop d id maxIp szUdp iov (numFrags maxIp szUdp) 0 0
    FragsOf id maxIp (datagram d szUdp iov.flatten) l ∧
      (szUdp ≤ 65536 → Whole IpPacket.offset IpPacket.len IpPacket.more 0 l) := by
  intro szUdp l
  obtain ⟨left, hn, hlt, hle⟩ := @numFrags_spec maxIp szUdp (by omega) (by omega)
  have h := @fragLoop_spec maxIp 0 d id iov h8 hlo hhi left (Nat.dvd_zero 8) hlt hle
  have hl : l = fragLoop d id maxIp szUdp iov (left + 1) 0 (0 - 8) := by rw [← hn]
  rw [hl]
  exact h

theorem fragsOf_single (d : DstUdp) {mtu : Nat} {data : List U8} (hs : szUdp = data.length + 8)
    (hm : szUdp + ipHdrLen ≤ mtu) (hmtu : mtu ≤ 65535) :
    let l := [⟨0, 0, toU16 (ipHdrLen + szUdp), datagram d szUdp data⟩]
    FragsOf 0 (mtu - ipHdrLen) (datagram d szUdp data) l ∧
      Whole IpPacket.offset IpPacket.len IpPacket.more 0 l := by
  intro l
  refine ⟨⟨by simp [l, reassembled], ?_⟩, rfl, Nat.zero_testBit 13⟩
  intro p hp
  obtain rfl := List.mem_singleton.mp hp
  have hlen : (datagram d szUdp data).length = szUdp := by simp [datagram, hs]; omega
  refine ⟨rfl, ?_, ?_, fun h => absurd h (by simp [IpPacket.more])⟩
  · simp only [IpPacket.len, hlen, toU16]
    omega
  · simp only [IpPacket.len, hlen]
    omega

/-! ## The senders send the datagram -/

section Senders

variable {d : DstUdp} (hb : d.bufs = true) (hlo : 68 ≤ d.routeMtu) (hhi : d.routeMtu ≤ 65535)
include hb hlo hhi

theorem fastSend_frags (hn : iov.flatten.length ≤ 65536) :
    ∃ id, FragsOf id (d.routeMtu - ipHdrLen) (datagram d (iov.flatten.length + 8) iov.flatten)
        (fastSend d iov) ∧
      (iov.flatten.length + 8 ≤ 65536 →
        Whole IpPacket.offset IpPacket.len IpPacket.more 0 (fastSend d iov)) := by
  set szUdp := iov.flatten.length + 8
  have hsz : (iov.map List.length).sum = iov.flatten.length := List.length_flatten.symm
  have hmu : d.maxUdpPayloadSize = d.routeMtu - ipHdrLen := by
    unfold DstUdp.maxUdpPayloadSize toU16
    omega
  unfold fastSend
  simp only [hsz]
  rw [if_neg (by omega)]
  split
  · rename_i hfit
    have hfit : szUdp + ipHdrLen ≤ d.routeMtu := by
      simp only [udpHdrLen, hmu, ipHdrLen] at hfit ⊢
      omega
    obtain ⟨h1, h2⟩ := fragsOf_single d rfl hfit hhi
    -- inline or copied, the packet is the same
    have hcopy : memcpyFromiovec iov 0 iov.flatten.length = iov.flatten := by
      rw [memcpyFromiovec_eq, List.drop_zero, List.take_length]
    have hone : fastSendNotFragmented d iov szUdp iov.flatten.length =
        [⟨0, 0, toU16 (ipHdrLen + szUdp), datagram d szUdp iov.flatten⟩] := by
      unfold fastSendNotFragmented
      rw [hb]
      simp only [Bool.not_true, Bool.false_eq_true, if_false, hcopy, not_true_eq_false, ne_eq]
      split
      · rename_i hinl
        obtain ⟨v, rfl⟩ := List.length_eq_one_iff.mp hinl.1
        simp [datagram]
      · rfl
    refine ⟨0, ?_⟩
    show FragsOf _ _ _ (fastSendNotFragmented d iov szUdp _) ∧ _
    rw [hone]
    exact ⟨h1, fun _ => h2⟩
  · have hmi : d.maxIpPayloadSize ≤ d.routeMtu - ipHdrLen := by
      unfold DstUdp.maxIpPayloadSize
      omega
    have hmi8 : 8 < d.maxIpPayloadSize := by
      unfold DstUdp.maxIpPayloadSize
      simp only [hmu, ipHdrLen]
      omega
    have hdvd : 8 ∣ d.maxIpPayloadSize := Nat.dvd_mul_left ..
    obtain ⟨h1, h2⟩ := fragLoop_all d (toU16 d.txIpId) iov hdvd hmi8
      (by simp only [ipHdrLen] at hmi; omega)
    unfold fastSendFragmented
    rw [hb]
    exact ⟨_, h1.mono hmi, h2⟩

theorem postSendUdp_frags (hn : iov.flatten.length ≤ 65536) :
    ∃ id, FragsOf id (d.routeMtu - ipHdrLen) (datagram d (iov.flatten.length + 8) iov.flatten)
        (postSendUdp d iov) ∧
      (iov.flatten.length + 8 ≤ 65536 →
        Whole IpPacket.offset IpPacket.len IpPacket.more 0 (postSendUdp d iov)) := by
  set szUdp := iov.flatten.length + 8
  have hdata : sendData iov = iov.flatten := by
    unfold sendData
    rw [memcpyFromiovec_eq, List.drop_zero, List.take_of_length_le (by rw [List.length_flatten])]
  set maxIp := (d.routeMtu - ipHdrLen) / 8 * 8 with hmi
  have hle : maxIp ≤ d.routeMtu - ipHdrLen := by omega
  have hlo8 : 8 < maxIp := by
    simp only [hmi, ipHdrLen]
    omega
  have hhi8 : maxIp ≤ 65515 := by
    simp only [ipHdrLen] at hle
    omega
  -- below the threshold the one fragment is what the rounded-up quotient says too
  have hnum : (if maxIp < szUdp then numFrags maxIp szUdp else 1) = numFrags maxIp szUdp := by
    split
    · rfl
    · rename_i hge
      unfold numFrags
      rw [Nat.div_eq_of_lt_le] <;> omega
  obtain ⟨h1, h2⟩ := @fragLoop_all maxIp d (toU16 d.txIpId) [iov.flatten] (Nat.dvd_mul_left ..) hlo8
    hhi8
  simp only [List.flatten_singleton] at h1 h2
  have hpost : postSendUdp d iov =
      fragLoop d (toU16 d.txIpId) maxIp szUdp [iov.flatten] (numFrags maxIp szUdp) 0 0 := by
    unfold postSendUdp
    simp only [hdata, hb, Bool.not_true, Bool.false_eq_true, if_false]
    rw [if_neg (by omega)]
    exact congrArg (fragLoop d _ maxIp szUdp [iov.flatten] · 0 0) hnum
  rw [hpost]
  exact ⟨_, h1.mono hle, h2⟩

end Senders

/-! ## Exact or refused -/

structure ExactDatagram (mtu : Nat) (data : List U8) (l : List IpPacket) : Prop where
  fits : ∀ p ∈ l, p.totLen = ipHdrLen + p.len ∧ p.totLen ≤ mtu
  oneId : ∃ id, ∀ p ∈ l, p.id = id
  whole : Whole IpPacket.offset IpPacket.len IpPacket.more 0 l
  aligned : ∀ p ∈ l, p.more = true → 8 ∣ p.len
  small : (reassembled l).length ≤ 65535 - 20
  udp : ∃ hdr, reassembled l = hdr ++ data ∧ hdr.length = 8 ∧
    ofBe16 ((hdr.drop 4).take 2) = data.length + 8

def ExactOrNone (mtu : Nat) (data : List U8) (l : List IpPacket) : Prop :=
  l = [] ∨ ExactDatagram mtu data l

theorem exactOrNone_iff_of_frags {d : DstUdp} {id mtu : Nat} {data : List U8} {l : List IpPacket}
    (hlo : 68 ≤ mtu) (h : FragsOf id (mtu - ipHdrLen) (datagram d (data.length + 8) data) l)
    (hw : data.length + 8 ≤ 65536 → Whole IpPacket.offset IpPacket.len IpPacket.more 0 l) :
    ExactOrNone mtu data l ↔ data.length ≤ 65507 := by
  have hlen : (reassembled l).length = data.length + 8 := by
    rw [h.bytes_eq]
    simp [datagram]
    omega
  constructor
  · rintro (rfl | hx)
    · simp [reassembled] at hlen
    · have := hx.small
      omega
  · intro hn
    refine .inr ⟨fun p hp => ?_, ⟨id, fun p hp => (h.each p hp).1⟩, hw (by omega),
      fun p hp => (h.each p hp).2.2.2, by omega, ?_⟩
    · obtain ⟨-, h2, h3, -⟩ := h.each p hp
      simp only [ipHdrLen] at h2 h3 ⊢
      omega
    · refine ⟨udpHdr d.sport d.dport (toU16 (data.length + 8)), h.bytes_eq, rfl, ?_⟩
      show ofBe16 (be16 (toU16 (data.length + 8))) = _
      rw [ofBe16_be16]
      unfold toU16
      omega

theorem sends_nil_of_large (d : DstUdp) (hn : 65536 < iov.flatten.length) :
    fastSend d iov = [] ∧ postSendUdp d iov = [] := by
  have hsz : (iov.map List.length).sum = iov.flatten.length := List.length_flatten.symm
  have hdata : (sendData iov).length = iov.flatten.length := by
    unfold sendData
    rw [memcpyFromiovec_eq, List.drop_zero, hsz, List.take_length]
  unfold fastSend postSendUdp
  simp only [hsz, hdata]
  exact ⟨if_pos hn, if_pos hn⟩

/-- Either way of sending is exact or refuses exactly for the sizes a UDP datagram can have and for
those above the senders' own limit. -/
theorem udpSend_exact_iff {d : DstUdp} (hb : d.bufs = true) (hlo : 68 ≤ d.routeMtu)
    (hhi : d.routeMtu ≤ 65535) (iov : List (List U8)) :
    (ExactOrNone d.routeMtu iov.flatten (fastSend d iov) ↔
        iov.flatten.length ≤ 65507 ∨ 65536 < iov.flatten.length) ∧
      (ExactOrNone d.routeMtu iov.flatten (postSendUdp d iov) ↔
        iov.flatten.length ≤ 65507 ∨ 65536 < iov.flatten.length) := by
  rcases Nat.lt_or_ge 65536 iov.flatten.length with hn | hn
  · obtain ⟨h1, h2⟩ := sends_nil_of_large d hn
    exact ⟨⟨fun _ => .inr hn, fun _ => .inl h1⟩, ⟨fun _ => .inr hn, fun _ => .inl h2⟩⟩
  · obtain ⟨_, h1, h1w⟩ := fastSend_frags hb hlo hhi hn
    obtain ⟨_, h2, h2w⟩ := postSendUdp_frags hb hlo hhi hn
    rw [exactOrNone_iff_of_frags hlo h1 h1w, exactOrNone_iff_of_frags hlo h2 h2w]
    constructor <;> omega

/-- A hundred bytes in two buffers go in three fragments, MTU 68. -/
theorem udpSend_exact_fragments :
    let iov := [List.replicate 60 1, List.replicate 40 2]
    (fastSend { routeMtu := 68 } iov).length = 3 ∧
      ExactOrNone 68 iov.flatten (fastSend { routeMtu := 68 } iov) ∧
      ExactOrNone 68 iov.flatten (postSendUdp { routeMtu := 68 } iov) := by
  intro iov
  obtain ⟨hfast, hpost⟩ := udpSend_exact_iff (d := { routeMtu := 68 }) rfl (by decide) (by decide) iov
  exact ⟨by decide +kernel, hfast.mpr (.inl (by decide)), hpost.mpr (.inl (by decide))⟩

theorem sends_inexact {d : DstUdp} (hb : d.bufs = true) (hlo : 68 ≤ d.routeMtu)
    (hhi : d.routeMtu ≤ 65535) (hn : 65507 < iov.flatten.length) (hle : iov.flatten.length ≤ 65536) :
    (¬ExactOrNone d.routeMtu iov.flatten (fastSend d iov) ∧ fastSend d iov ≠ []) ∧
      (¬ExactOrNone d.routeMtu iov.flatten (postSendUdp d iov) ∧ postSendUdp d iov ≠ []) := by
  obtain ⟨_, h1, h1w⟩ := fastSend_frags hb hlo hhi hle
  obtain ⟨_, h2, h2w⟩ := postSendUdp_frags hb hlo hhi hle
  have hx1 : ¬ExactOrNone d.routeMtu iov.flatten (fastSend d iov) := by
    rw [exactOrNone_iff_of_frags hlo h1 h1w]
    omega
  have hx2 : ¬ExactOrNone d.routeMtu iov.flatten (postSendUdp d iov) := by
    rw [exactOrNone_iff_of_frags hlo h2 h2w]
    omega
  exact ⟨⟨hx1, fun h => hx1 (.inl h)⟩, hx2, fun h => hx2 (.inl h)⟩

def bigIov : List (List U8) := [List.replicate 65536 0]

theorem length_bigIov : bigIov.flatten.length = 65536 := by
  unfold bigIov
  rw [List.flatten_singleton, List.length_replicate]

/-- With 65536 bytes both ways post a datagram that is too long for IP. -/
theorem udpSend_oversize :
    (¬ExactOrNone 1500 bigIov.flatten (fastSend {} bigIov) ∧ fastSend {} bigIov ≠ []) ∧
      (¬ExactOrNone 1500 bigIov.flatten (postSendUdp {} bigIov) ∧ postSendUdp {} bigIov ≠ []) := by
  refine sends_inexact (d := {}) rfl (by decide) (by decide) ?_ (Nat.le_of_eq length_bigIov)
  rw [length_bigIov]
  decide

end LibvmaTlt.Proto
