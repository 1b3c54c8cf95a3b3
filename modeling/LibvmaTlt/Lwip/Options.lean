import LibvmaTlt.Lwip.OutputSpec
import LibvmaTlt.Lwip.ParseOpt
import LibvmaTlt.Lwip.WriteSpec

/-!
# TCP options on the wire

The option length of a packet is counted in one place and its options are written in another. For each
kind of packet this module says when the two agree: then the data offset is right, the payload stands
behind the options, and the parser recovers what was written.
-/

namespace LibvmaTlt.Lwip

/-! ## The options of a packet -/

def takesTs (d : InData) (pcb : Pcb) : Bool :=
  if d.hdr.flags.syn then pcb.enableTsOpt
  else TcpSeqBetween pcb.tsLastacksent d.seqno (d.seqno + u32 d.tcplen)

/-- `ts_recent` of a receiver once it has read a packet with this timestamp, if any. -/
def tsRecentAfter (d : InData) (pcb : Pcb) : Option U32 → U32
  | some v => if takesTs d pcb then v else pcb.tsRecent
  | none => pcb.tsRecent

theorem parseTs_tsRecent (d : InData) (v : U32) (pcb : Pcb) :
    (parseTs d v pcb).tsRecent = tsRecentAfter d pcb (some v) := by
  unfold parseTs tsRecentAfter takesTs
  by_cases hsyn : d.hdr.flags.syn = true
  · by_cases hts : pcb.enableTsOpt = true <;> simp [hsyn, hts]
  · by_cases hb : TcpSeqBetween pcb.tsLastacksent d.seqno (d.seqno + u32 d.tcplen) <;>
      simp [hsyn, hb]

/-- `tcp_parseopt`, run by any receiver on the packet, finds this timestamp and these SACK blocks. -/
def Recovers (pkt : Packet) (ts : Option U32) (blocks : List TcpSackBlock) : Prop :=
  ∀ (env : Env) (m : Nat → U8) (pcb : Pcb) (d : InData), d.hdr = pkt.hdr → HoldsAt m 0 pkt.opts →
    ∃ pcb', tcpParseopt env m pcb d = some (pcb', blocks) ∧ pcb'.tsRecent = tsRecentAfter d pcb ts

/-- The packet is well formed for the option bytes written into it: the data offset counts them, the
payload starts behind them, and the parser recovers what they say. -/
structure WellFormed (pkt : Packet) (written payload : List U8) (ts : Option U32)
    (blocks : List TcpSackBlock) : Prop where
  doff : pkt.hdr.hdrlen * 4 = tcpHlen + written.length
  doff_le : pkt.hdr.hdrlen * 4 ≤ 60
  body : pkt.opts ++ pkt.data = written ++ payload
  recovers : Recovers pkt ts blocks

/-! ### Empty ACKs -/

/-- The options `tcp_send_empty_ack` writes. -/
def emptyAckOptions (env : Env) (pcb : Pcb) : List U8 :=
  (if pcb.flags.timestamp then tcpBuildTimestampOption env pcb else []) ++
    if pcb.sackPermitted then tcpBuildSackOption pcb else []

theorem length_sackReported (pcb : Pcb) : (sackReported pcb).length = sackElements pcb := by
  unfold sackReported sackElements
  simp only
  split <;> simp [List.length_take]

theorem tcpBuildSackOption_eq (pcb : Pcb) :
    tcpBuildSackOption pcb =
      if (sackReported pcb).length = 0 then []
      else be32 (0x01010500 ||| u32 ((sackReported pcb).length * 8 + 2)) ++
        sackBytes (sackReported pcb) := by
  rw [length_sackReported]
  rfl

theorem length_tcpBuildSackOption (pcb : Pcb) :
    (tcpBuildSackOption pcb).length =
      if (sackReported pcb).length = 0 then 0 else 4 + 8 * (sackReported pcb).length := by
  rw [tcpBuildSackOption_eq]
  split <;> simp

variable (env : Env) {seg : TcpSeg} {payload : List U8} {b : Bool}

theorem length_emptyAckOptions (pcb : Pcb) :
    (emptyAckOptions env pcb).length =
      (if pcb.flags.timestamp then 12 else 0) +
        if pcb.sackPermitted ∧ (sackReported pcb).length ≠ 0 then
          4 + 8 * (sackReported pcb).length else 0 := by
  unfold emptyAckOptions
  rw [List.length_append]
  congr 1
  · split <;> rfl
  · by_cases hp : pcb.sackPermitted = true
    · simp only [hp, if_true, length_tcpBuildSackOption, true_and]
      by_cases h0 : (sackReported pcb).length = 0 <;> simp [h0]
    · simp [hp]

def ackLengthAgrees (pcb : Pcb) : Bool :=
  !pcb.sackPermitted ||
    if pcb.flags.timestamp then 5 ≤ pcb.rcvSackBlock.length else pcb.rcvSackBlock.length ≤ 4

theorem emptyAckOptlen_eq_iff (pcb : Pcb) :
    emptyAckOptlen pcb = (emptyAckOptions env pcb).length ↔ ackLengthAgrees pcb = true := by
  rw [length_emptyAckOptions, length_sackReported]
  unfold emptyAckOptlen sackElements ackLengthAgrees lwipTcpOptLength lwipTcpOptLengthLegacy
  generalize pcb.rcvSackBlock.length = n
  cases pcb.sackPermitted <;> cases pcb.flags.timestamp <;> simp
  all_goals
    by_cases h0 : n = 0
    · simp [h0]
    · simp only [h0, if_false]
      omega

theorem length_sackReported_le (pcb : Pcb) : (sackReported pcb).length ≤ 4 := by
  rw [length_sackReported]
  unfold sackElements
  simp only
  split <;> omega

theorem overlay_room {built room rest : List U8} (h : room.length = built.length) :
    overlay built (room ++ rest) = built ++ rest := by
  unfold overlay
  rw [List.take_of_length_le (by simp; omega), ← h, List.drop_left]

@[simp] theorem length_overlay (built body : List U8) : (overlay built body).length = body.length := by
  simp only [overlay, List.length_append, List.length_take, List.length_drop]
  omega

section Recovery

variable {env : Env} {d : InData} {pcb : Pcb}

theorem reads_timestampOption (snd : Env) (sndPcb : Pcb) :
    Reads env d (tcpBuildTimestampOption snd sndPcb) (Prod.map (parseTs d snd.sysNow) id) :=
  reads_ts _ _

theorem reads_sackOption (sndPcb : Pcb) :
    Reads env d (tcpBuildSackOption sndPcb)
      fun s => (s.1, if (sackReported sndPcb).length = 0 then s.2 else sackReported sndPcb) := by
  rw [tcpBuildSackOption_eq]
  by_cases h0 : (sackReported sndPcb).length = 0
  · simp only [h0, if_true]
    exact Reads.nil
  · simp only [h0, if_false]
    exact reads_sack (by intro h; simp [h] at h0) (length_sackReported_le _)

def SameTs (a b : Pcb) : Prop :=
  a.tsRecent = b.tsRecent ∧ a.enableTsOpt = b.enableTsOpt ∧ a.tsLastacksent = b.tsLastacksent

theorem SameTs.trans {a b c : Pcb} (h : SameTs a b) (h' : SameTs b c) : SameTs a c :=
  ⟨h.1.trans h'.1, h.2.1.trans h'.2.1, h.2.2.trans h'.2.2⟩

theorem SameTs.tsRecentAfter {a b : Pcb} (h : SameTs a b) (ts : Option U32) :
    tsRecentAfter d a ts = tsRecentAfter d b ts := by
  cases ts with
  | none => exact h.1
  | some v =>
    have htakes : takesTs d a = takesTs d b := by unfold takesTs; rw [h.2.1, h.2.2]
    simp only [Lwip.tsRecentAfter, htakes, h.1]

theorem parseMss_sameTs (mss : Nat) : SameTs (parseMss d mss pcb) pcb := by
  unfold parseMss
  split <;> exact ⟨rfl, rfl, rfl⟩

theorem parseWndScale_sameTs (k : Nat) : SameTs (parseWndScale env d k pcb) pcb := by
  unfold parseWndScale
  split <;> exact ⟨rfl, rfl, rfl⟩

theorem parseSackPerm_sameTs : SameTs (parseSackPerm d pcb) pcb := by
  unfold parseSackPerm
  split <;> exact ⟨rfl, rfl, rfl⟩

theorem ite_sameTs {F : Pcb → Pcb} (h : ∀ p, SameTs (F p) p) (s : Gathered) :
    SameTs ((if b then Prod.map F id else id) s).1 s.1 := by
  cases b with
  | true => exact h s.1
  | false => exact ⟨rfl, rfl, rfl⟩

theorem ite_parseTs_tsRecent (v : U32) (s : Gathered) :
    ((if b then Prod.map (parseTs d v) id else id) s).1.tsRecent =
      tsRecentAfter d s.1 (if b then some v else none) := by
  cases b with
  | true => exact parseTs_tsRecent d v s.1
  | false => rfl

theorem ite_map_snd {F : Pcb → Pcb} (s : Gathered) : ((if b then Prod.map F id else id) s).2 = s.2 := by
  cases b <;> rfl

/-- A receiver of the bytes `l` finds this timestamp and these SACK blocks. -/
def Finds (env : Env) (d : InData) (l : List U8) (ts : Option U32) (blocks : List TcpSackBlock) :
    Prop :=
  ∃ F, Reads env d l F ∧
    ∀ pcb, (F (pcb, [])).2 = blocks ∧ (F (pcb, [])).1.tsRecent = tsRecentAfter d pcb ts

end Recovery

theorem Finds.recovers {pkt : Packet} {ts : Option U32} {blocks : List TcpSackBlock}
    (h : ∀ env d, Finds env d pkt.opts ts blocks)
    (hlen : (pkt.hdr.hdrlen - 5) * 4 = pkt.opts.length) : Recovers pkt ts blocks := by
  intro env m pcb d hd hm
  obtain ⟨F, hreads, hF⟩ := h env d
  obtain ⟨hblocks, hts⟩ := hF pcb
  refine ⟨(F (pcb, [])).1, ?_, hts⟩
  rw [hreads.tcpParseopt hm (by rw [hd, hlen]) pcb, ← hblocks]

def ackTs (env : Env) (pcb : Pcb) : Option U32 := if pcb.flags.timestamp then some env.sysNow else none

def ackBlocks (pcb : Pcb) : List TcpSackBlock := if pcb.sackPermitted then sackReported pcb else []

theorem lwipTcpOptLength_mod (pcb : Pcb) (o : SegOpts) :
    lwipTcpOptLength pcb o % 4 = 0 ∧ lwipTcpOptLength pcb o ≤ 40 := by
  have h : lwipTcpOptLengthLegacy o % 4 = 0 ∧ lwipTcpOptLengthLegacy o ≤ 24 := by
    unfold lwipTcpOptLengthLegacy
    constructor <;> split_ifs <;> omega
  unfold lwipTcpOptLength
  split <;> omega

theorem emptyAckOptlen_mod (pcb : Pcb) : emptyAckOptlen pcb % 4 = 0 ∧ emptyAckOptlen pcb ≤ 40 := by
  unfold emptyAckOptlen
  split
  · exact lwipTcpOptLength_mod _ _
  · split
    · exact lwipTcpOptLength_mod _ _
    · decide

theorem emptyAckOptions_finds (snd : Env) (pcb : Pcb) (env : Env) (d : InData) :
    Finds env d (emptyAckOptions snd pcb) (ackTs snd pcb) (ackBlocks pcb) := by
  refine ⟨_, (Reads.ite fun _ => reads_timestampOption snd pcb).append
    (Reads.ite fun _ => reads_sackOption pcb), fun rpcb => ⟨?_, ?_⟩⟩
  · simp only [Function.comp_apply, ackBlocks]
    by_cases hp : pcb.sackPermitted = true
    · by_cases h0 : (sackReported pcb).length = 0
      · simp [hp, ite_map_snd, List.length_eq_zero_iff.mp h0]
      · simp only [hp, if_true, h0, if_false]
    · simp [hp, ite_map_snd]
  · have h := @ite_parseTs_tsRecent pcb.flags.timestamp d snd.sysNow (rpcb, [])
    by_cases hp : pcb.sackPermitted = true <;> simpa [hp, ackTs] using h

theorem emptyAckPacket_wellFormed_iff (pcb : Pcb) :
    WellFormed (emptyAckPacket env pcb) (emptyAckOptions env pcb) [] (ackTs env pcb)
      (ackBlocks pcb) ↔ ackLengthAgrees pcb = true := by
  rw [← emptyAckOptlen_eq_iff env]
  obtain ⟨h4, h40⟩ := emptyAckOptlen_mod pcb
  have hdoff : (emptyAckPacket env pcb).hdr.hdrlen = 5 + emptyAckOptlen pcb / 4 := rfl
  constructor
  · intro h
    have := h.doff
    simp only [hdoff, tcpHlen] at this
    omega
  · intro hlen
    have hopts : (emptyAckPacket env pcb).opts = emptyAckOptions env pcb := by
      have := @overlay_room (emptyAckOptions env pcb) (readMem env [] 0 (emptyAckOptlen pcb)) []
        (by rw [length_readMem, hlen])
      rw [List.append_nil, List.append_nil] at this
      exact this
    refine ⟨?_, ?_, ?_, Finds.recovers (hopts ▸ emptyAckOptions_finds env pcb) ?_⟩
    · simp only [hdoff, tcpHlen]
      omega
    · rw [hdoff]
      omega
    · rw [hopts]
      rfl
    · rw [hdoff, hopts]
      omega

/-! ### Segments -/

/-- Behind the TCP header the segment has `room` bytes for options and then the payload, and its header
length was set for `optlen` option bytes. -/
structure Made (optlen room : Nat) (payload : List U8) (seg : TcpSeg) : Prop where
  hdrlen : seg.hdrlen = 5 + optlen / 4
  body : ∃ hdr r, hdr.length = tcpHlen ∧ r.length = room ∧ pbufBytes seg.p = hdr ++ (r ++ payload)

def segTs (env : Env) (seg : TcpSeg) : Option U32 := if seg.opts.ts then some env.sysNow else none

theorem length_segOptions (pcb : Pcb) (seg : TcpSeg) :
    (segOptions env pcb seg).length = lwipTcpOptLengthLegacy seg.opts := by
  unfold segOptions lwipTcpOptLengthLegacy
  simp only [List.length_append]
  congr 1
  · congr 1
    · congr 1 <;> split <;> rfl
    · split <;> rfl
  · split <;> rfl

variable {pcb : Pcb}

theorem segOptions_finds {snd : Env} (hmss : pcb.advtsdMss < 65536) (hscale : snd.rcvWndScale < 256)
    (seg : TcpSeg) (env : Env) (d : InData) :
    Finds env d (segOptions snd pcb seg) (segTs snd seg) [] := by
  refine ⟨_, (((Reads.ite fun _ => reads_mss hmss).append
    (Reads.ite fun _ => reads_wndscale hscale)).append
    (Reads.ite fun _ => reads_timestampOption snd pcb)).append
    (Reads.ite fun _ => reads_sackPerm), fun rpcb => ⟨?_, ?_⟩⟩
  · simp only [Function.comp_apply, ite_map_snd]
  · simp only [Function.comp_apply]
    -- the options around the timestamp leave alone what it depends on
    rw [(ite_sameTs (fun _ => parseSackPerm_sameTs) _).1, ite_parseTs_tsRecent,
      ((ite_sameTs (fun _ => parseWndScale_sameTs _) _).trans
        (ite_sameTs (fun _ => parseMss_sameTs _) _)).tsRecentAfter]
    rfl

theorem segmentPacket_wellFormed_iff {env : Env} {optlen room : Nat} (h : Made optlen room payload seg)
    (h4 : optlen % 4 = 0) (hmss : pcb.advtsdMss < 65536) (hscale : env.rcvWndScale < 256) :
    WellFormed (segmentPacket env pcb seg) (segOptions env pcb seg) payload (segTs env seg) [] ↔
      optlen = lwipTcpOptLengthLegacy seg.opts ∧ room = lwipTcpOptLengthLegacy seg.opts := by
  obtain ⟨hdrlen, hdr, r, hh, hr, hp⟩ := h
  have hbody : (pbufBytes seg.p).drop tcpHlen = r ++ payload := by rw [hp, ← hh, List.drop_left]
  rw [← length_segOptions env pcb]
  have hdoff : (segmentPacket env pcb seg).hdr.hdrlen = 5 + optlen / 4 := hdrlen
  have hall : (segmentPacket env pcb seg).opts ++ (segmentPacket env pcb seg).data =
      overlay (segOptions env pcb seg) (r ++ payload) := by
    rw [← hbody]
    exact List.take_append_drop _ _
  constructor
  · intro h
    have hd := h.doff
    simp only [hdoff, tcpHlen] at hd
    have hl := congrArg List.length (hall.symm.trans h.body)
    rw [length_overlay, List.length_append, List.length_append] at hl
    omega
  · rintro ⟨hopt, hroom⟩
    have hw := @overlay_room (segOptions env pcb seg) r payload (hr.trans hroom)
    have hle : (segOptions env pcb seg).length ≤ 24 := by
      rw [length_segOptions]
      unfold lwipTcpOptLengthLegacy
      split_ifs <;> omega
    have hopts : (segmentPacket env pcb seg).opts = segOptions env pcb seg := by
      have hn : seg.hdrlen * 4 - tcpHlen = (segOptions env pcb seg).length := by
        simp only [hdrlen, tcpHlen]
        omega
      show (overlay _ _).take (seg.hdrlen * 4 - tcpHlen) = _
      rw [hn, hbody, hw, List.take_left]
    refine ⟨?_, ?_, hall.trans hw, Finds.recovers (hopts ▸ segOptions_finds hmss hscale seg) ?_⟩
    · simp only [hdoff, tcpHlen]
      omega
    · rw [hdoff]
      omega
    · rw [hdoff, hopts]
      omega

inductive Origin where
  /-- `tcp_create_segment` on a buffer with room for the options. -/
  | created
  /-- The tail of a split inside the first pbuf. -/
  | cutInside
  /-- The tail of a split between two pbufs, which has no room for options. -/
  | cutBetween
  deriving DecidableEq

/-- The option length in the header of a segment that `made` gave it. -/
def Origin.optlen (o : Origin) (made : Pcb) (seg : TcpSeg) : Nat :=
  match o with
  | .created => lwipTcpOptLength made seg.opts
  | .cutInside | .cutBetween => lwipTcpOptLength made made.dataOpts

def Origin.room (o : Origin) (made : Pcb) (seg : TcpSeg) : Nat :=
  match o with
  | .created | .cutInside => o.optlen made seg
  | .cutBetween => 0

/-! ### Where the headers are made -/

theorem pbufBytes_pushHeader {p : List Pbuf} (hp : p ≠ []) :
    pbufBytes (pushHeader p) = List.replicate tcpHlen 0 ++ pbufBytes p := by
  cases p with
  | nil => exact absurd rfl hp
  | cons q rest => simp [pushHeader]

theorem tcpCreateSegment_made {p : List Pbuf} {r : List U8} (hp : p ≠ [])
    (hbody : pbufBytes p = r ++ payload) (pcb : Pcb) (flags : TcphFlags) (seqno : U32) (o : SegOpts) :
    Made (lwipTcpOptLength pcb o) r.length payload (tcpCreateSegment pcb p flags seqno o).2 := by
  refine ⟨rfl, List.replicate tcpHlen 0, r, List.length_replicate .., rfl, ?_⟩
  rw [← hbody]
  exact pbufBytes_pushHeader hp

theorem newSegment_made {env : Env} {o : SegOpts} {data : List U8} {pos seglen : Nat}
    (hle : seglen ≤ data.length - pos) (hfit : seglen + lwipTcpOptLength pcb o < 65536)
    (flags : TcphFlags) (seqno : U32) :
    Made (lwipTcpOptLength pcb o) (lwipTcpOptLength pcb o) ((data.drop pos).take seglen)
      (tcpCreateSegment pcb
        [⟨(readMem env [] 0 (lwipTcpOptLength pcb o) ++ (data.drop pos).take seglen).take
            (u16 (seglen + lwipTcpOptLength pcb o)), u16 (seglen + lwipTcpOptLength pcb o)⟩]
        flags seqno o).2 := by
  have hlen : (readMem env [] 0 (lwipTcpOptLength pcb o) ++ (data.drop pos).take seglen).length =
      u16 (seglen + lwipTcpOptLength pcb o) := by
    rw [List.length_append, length_readMem, List.length_take, List.length_drop, u16,
      Nat.mod_eq_of_lt hfit]
    omega
  rw [List.take_of_length_le hlen.le]
  have hm := @tcpCreateSegment_made ((data.drop pos).take seglen)
    [⟨_, u16 (seglen + lwipTcpOptLength pcb o)⟩] (readMem env [] 0 (lwipTcpOptLength pcb o)) (by simp)
    (List.append_nil _) pcb flags seqno o
  rw [length_readMem] at hm
  exact hm

theorem flagsSegment_made (pcb : Pcb) (flags : TcphFlags) (seqno : U32) (o : SegOpts) :
    Made (lwipTcpOptLength pcb o) (lwipTcpOptLength pcb o) []
      (tcpCreateSegment pcb
        [⟨readMem env [] 0 (lwipTcpOptLength pcb o), lwipTcpOptLength pcb o⟩] flags seqno o).2 := by
  have hm := @tcpCreateSegment_made []
    [⟨readMem env [] 0 (lwipTcpOptLength pcb o), lwipTcpOptLength pcb o⟩]
    (readMem env [] 0 (lwipTcpOptLength pcb o)) (by simp) (by simp) pcb flags seqno o
  rw [length_readMem] at hm
  exact hm

/-- The option flags `tcp_enqueue_flags` gives a SYN, or a SYN with an ACK. -/
def synOpts (env : Env) (pcb : Pcb) (ack : Bool) : SegOpts where
  mss := true
  wndscale := env.enableWndScale && (pcb.state ≠ .synRcvd || pcb.flags.wndScale)
  ts := pcb.enableTsOpt && !ack || pcb.flags.timestamp
  sackPerm := true

/-- `sack_permitted = 1`, which `tcp_enqueue_flags` sets before it counts the options of a SYN. -/
def Pcb.permitSack (pcb : Pcb) : Pcb := { pcb with sackPermitted := true }

def synSegment (env : Env) (pcb : Pcb) (ack : Bool) : TcpSeg :=
  let optlen := lwipTcpOptLength pcb.permitSack (synOpts env pcb ack)
  (tcpCreateSegment pcb.permitSack [⟨readMem env [] 0 optlen, optlen⟩] { syn := true, ack := ack }
    pcb.sndLbb (synOpts env pcb ack)).2

theorem cutTail_made (pcb : Pcb) (o : SegOpts) (buf : List U8) (rest : List Pbuf) {off k : Nat}
    (h : k + lwipTcpOptLength pcb o < 65536) (tot : Nat) (flags : TcphFlags) (seqno : U32) :
    Made (lwipTcpOptLength pcb o) (lwipTcpOptLength pcb o)
      (readMem env buf off k ++ pbufBytes rest)
      (tcpCreateSegment pcb
        (⟨(readMem env [] 0 (lwipTcpOptLength pcb o) ++ readMem env buf off k).take
            (u16 (k + lwipTcpOptLength pcb o)), tot⟩ :: rest) flags seqno o).2 := by
  have hlen : (readMem env [] 0 (lwipTcpOptLength pcb o) ++ readMem env buf off k).length =
      u16 (k + lwipTcpOptLength pcb o) := by
    rw [List.length_append, length_readMem, length_readMem, u16, Nat.mod_eq_of_lt h, Nat.add_comm]
  rw [List.take_of_length_le hlen.le]
  have hm := @tcpCreateSegment_made (readMem env buf off k ++ pbufBytes rest) (⟨_, tot⟩ :: rest)
    (readMem env [] 0 (lwipTcpOptLength pcb o)) (List.cons_ne_nil _ _)
    ((pbufBytes_cons _ _).trans (List.append_assoc ..)) pcb flags seqno o
  rw [length_readMem] at hm
  exact hm

/-! ## Every packet -/

/-- A packet on its way to `ip_output`. The pcb that made a header and the pcb that sends it may
differ in every option state. -/
inductive Outgoing where
  | emptyAck (pcb : Pcb)
  | syn (made now : Pcb) (ack : Bool)
  | segment (o : Origin) (made now : Pcb) (seg : TcpSeg) (payload : List U8)

/-- The ranges of the configured values, and, for a segment, that `made` gave it its header. A tail of
a split comes from a segment that was written under the same timestamp setting. -/
def Outgoing.Valid (env : Env) : Outgoing → Prop
  | .emptyAck _ => True
  | .syn _ now _ => now.advtsdMss < 65536 ∧ env.rcvWndScale < 256
  | .segment o made now seg payload =>
    (now.advtsdMss < 65536 ∧ env.rcvWndScale < 256) ∧
      Made (o.optlen made seg) (o.room made seg) payload seg ∧
      (o = .created ∨ seg.opts = writeOpts made seg.opts.dummy)

/-- The packet handed to `ip_output` is well formed for the options written into it. -/
def Outgoing.WellFormed (env : Env) : Outgoing → Prop
  | .emptyAck pcb =>
    Lwip.WellFormed (emptyAckPacket env pcb) (emptyAckOptions env pcb) [] (ackTs env pcb)
      (ackBlocks pcb)
  | .syn made now ack =>
    Lwip.WellFormed (tcpOutputSegment env now (synSegment env made ack)).2.2
      (segOptions env now (synSegment env made ack)) [] (segTs env (synSegment env made ack)) []
  | .segment _ _ now seg payload =>
    Lwip.WellFormed (tcpOutputSegment env now seg).2.2 (segOptions env now seg) payload
      (segTs env seg) []

/-- The option lengths counted in the different places agree. A segment's header must have been made
while there was no SACK block to report, and a tail cut off between two pbufs must carry no
timestamp. -/
def Outgoing.lengthsAgree : Outgoing → Bool
  | .emptyAck pcb => ackLengthAgrees pcb
  | .syn .. => true
  | .segment o made _ seg _ =>
    (seg.opts.sackPerm || !made.sackPermitted || made.rcvSackBlock.isEmpty) &&
      (o != .cutBetween || !seg.opts.ts)

theorem lwipTcpOptLength_eq_iff (pcb : Pcb) (o : SegOpts) :
    lwipTcpOptLength pcb o = lwipTcpOptLengthLegacy o ↔
      (o.sackPerm || !pcb.sackPermitted || pcb.rcvSackBlock.isEmpty) = true := by
  have hle : lwipTcpOptLengthLegacy o ≤ 24 := by
    unfold lwipTcpOptLengthLegacy
    split_ifs <;> omega
  unfold lwipTcpOptLength
  cases o.sackPerm <;> cases pcb.sackPermitted <;> cases hb : pcb.rcvSackBlock <;> simp
  omega

theorem Origin.agree_iff {o : Origin} {made : Pcb}
    (h : o = .created ∨ seg.opts = writeOpts made seg.opts.dummy) :
    (o.optlen made seg = lwipTcpOptLengthLegacy seg.opts ∧
      o.room made seg = lwipTcpOptLengthLegacy seg.opts) ↔
    ((seg.opts.sackPerm || !made.sackPermitted || made.rcvSackBlock.isEmpty) &&
      (o != .cutBetween || !seg.opts.ts)) = true := by
  have hcut (h : seg.opts = writeOpts made seg.opts.dummy) :
      lwipTcpOptLength made made.dataOpts = lwipTcpOptLength made seg.opts := by
    rw [h]
    rfl
  rw [Bool.and_eq_true, ← lwipTcpOptLength_eq_iff made seg.opts]
  cases o with
  | created => simp [Origin.room, Origin.optlen]
  | cutInside =>
    have := hcut (h.resolve_left (by decide))
    simp [Origin.room, Origin.optlen, this]
  | cutBetween =>
    have ho := h.resolve_left (by decide)
    rw [Origin.room, Origin.optlen, hcut ho]
    refine and_congr_right fun _ => ?_
    rw [ho]
    by_cases hts : made.flags.timestamp = true <;> simp [lwipTcpOptLengthLegacy, Pcb.dataOpts, hts]

theorem tcpOutputSegment_wellFormed_iff {env : Env} {o : Origin} {made now : Pcb}
    (h : (Outgoing.segment o made now seg payload).Valid env) :
    Lwip.WellFormed (tcpOutputSegment env now seg).2.2 (segOptions env now seg) payload
      (segTs env seg) [] ↔ (Outgoing.segment o made now seg payload).lengthsAgree = true := by
  obtain ⟨⟨hmss, hscale⟩, hmade, ho⟩ := h
  obtain ⟨fl, tos, hmark, -, -⟩ := markSegment_seg now seg
  have hm : Made (o.optlen made seg) (o.room made seg) payload (markSegment now seg).2 := by
    rw [hmark]
    exact ⟨hmade.hdrlen, hmade.body⟩
  have h4 : o.optlen made seg % 4 = 0 := by
    cases o <;> exact (lwipTcpOptLength_mod _ _).1
  have hiff := @segmentPacket_wellFormed_iff _ _ now env _ _ hm h4 hmss hscale
  rw [hmark] at hiff
  rw [Outgoing.lengthsAgree, ← Origin.agree_iff ho]
  show Lwip.WellFormed (segmentPacket env now (markSegment now seg).2) _ _ _ _ ↔ _
  rw [hmark]
  exact hiff

/-- **Options on the wire.** A SYN, a segment or an empty ACK has a data offset that counts the
options written, the payload right behind them and options the parser reads back, exactly when the
option lengths agree. -/
theorem wellFormed_iff (env : Env) (out : Outgoing) (h : out.Valid env) :
    out.WellFormed env ↔ out.lengthsAgree = true := by
  cases out with
  | emptyAck pcb => exact emptyAckPacket_wellFormed_iff env pcb
  | syn made now ack =>
    have hv : (Outgoing.segment .created made.permitSack now (synSegment env made ack) []).Valid env :=
      ⟨h, flagsSegment_made env made.permitSack _ _ _, .inl rfl⟩
    exact tcpOutputSegment_wellFormed_iff hv
  | segment o made now seg payload => exact tcpOutputSegment_wellFormed_iff h

/-- A connection with timestamps on that was written to with nothing to report. By the time the
segment goes out there is a block. -/
def tsPcb : Pcb :=
  { tcpPcbInit {} with flags := { timestamp := true }, sackPermitted := true }

def tsPcbLater : Pcb := { tsPcb with rcvSackBlock := [⟨1010, 1020⟩] }

def tsSegment : TcpSeg :=
  (tcpCreateSegment tsPcb [⟨List.replicate 12 0 ++ [7, 8], 14⟩] {} 1 (writeOpts tsPcb false)).2

theorem wellFormed_timestamps :
    (Outgoing.segment .created tsPcb tsPcbLater tsSegment [7, 8]).WellFormed {} :=
  (wellFormed_iff {} (.segment .created tsPcb tsPcbLater tsSegment [7, 8])
    ⟨by decide, ⟨rfl, List.replicate 20 0, List.replicate 12 0, rfl, rfl, rfl⟩, .inl rfl⟩).mpr (by decide)

def sackPcb : Pcb :=
  { tcpPcbInit {} with sackPermitted := true, rcvSackBlock := [⟨1010, 1020⟩] }

def sackSegment : TcpSeg :=
  (tcpCreateSegment sackPcb [⟨List.replicate 12 0 ++ [7, 8], 14⟩] {} 1 (writeOpts sackPcb false)).2

/-- With timestamps on and SACK permitted an empty ACK has a data offset of 20 bytes and 12 bytes of
options. A segment written while a block is to be reported has an offset of 32 bytes and none. -/
theorem wellFormed_options_miscounted :
    (emptyAckPacket {} tsPcb).hdr.hdrlen = 5 ∧ (emptyAckOptions {} tsPcb).length = 12 ∧
      ¬(Outgoing.emptyAck tsPcb).WellFormed {} ∧
      (tcpOutputSegment {} sackPcb sackSegment).2.2.hdr.hdrlen = 8 ∧
      segOptions {} sackPcb sackSegment = [] ∧
      ¬(Outgoing.segment .created sackPcb sackPcb sackSegment [7, 8]).WellFormed {} := by
  refine ⟨by decide, by decide, fun h => absurd h.doff (by decide), by decide, by decide,
    fun h => absurd h.doff (by decide)⟩

end LibvmaTlt.Lwip
