import LibvmaTlt.Lwip.ForceTarget
import LibvmaTlt.Lwip.Options

/-!
# Forced retransmission: the copy

The forced block copies the bytes of its target from `dataptr`, which `tcp_create_segment` leaves
pointing behind the TCP header, at the room for the options, and not at the data. The offset of the
range is counted from there, and the copy runs on from the first pbuf into whatever lies behind it. So
the copy holds the range that was asked for only if the target was made without room for options and
the range lies in its first pbuf.
-/

namespace LibvmaTlt.Lwip

/-! ## What `tcp_write` leaves -/

/-- `tcp_write` has laid the segment out with the options of `made`: the TCP header, room for the options
and `d0` in the first pbuf, `d1` in those behind it. -/
structure Written (made : Pcb) (d0 d1 : List U8) (seg : TcpSeg) : Prop where
  opts : seg.opts = writeOpts made false
  len : seg.len = d0.length + d1.length
  layout : ∃ hdr room tot rest, seg.p = ⟨hdr ++ (room ++ d0), tot⟩ :: rest ∧ hdr.length = tcpHlen ∧
    room.length = lwipTcpOptLength made (writeOpts made false) ∧ pbufBytes rest = d1

/-! ## The bytes of the copy -/

/-- Any packet of the copy carries, behind its options, the bytes of `payload`, which the target holds,
from `q` on; and its number and length are those of that range. -/
structure CopyCarries (env : Env) (pcb : Pcb) (q : U32) (t : TcpSeg) (payload : List U8) : Prop where
  seqno : (forceCopy env pcb q t).seqno = q
  len : (forceCopy env pcb q t).len = forceTargetLen pcb q t
  data : ∀ now fl tos, (segmentPacket env now ((forceCopy env pcb q t).remarked fl tos)).data =
    (payload.drop (q - t.seqno).toNat).take (forceTargetLen pcb q t)

section Copy

variable {env : Env} {made pcb now : Pcb} {q : U32} {t : TcpSeg} {d0 d1 : List U8} {fl : TcphFlags}
  {tos : U8}

def copiedBytes (env : Env) (pcb : Pcb) (q : U32) (t : TcpSeg) : List U8 :=
  readMem env (((t.p.head?.map Pbuf.payload).getD []).drop tcpHlen) (q - t.seqno).toNat
    (forceTargetLen pcb q t)

theorem copyPacket_data :
    (segmentPacket env now ((forceCopy env pcb q t).remarked fl tos)).data =
      (overlay (segOptions env now ((forceCopy env pcb q t).remarked fl tos))
        (readMem env [] 0 (lwipTcpOptLength pcb pcb.dataOpts) ++ copiedBytes env pcb q t)).drop
          (lwipTcpOptLength pcb pcb.dataOpts) := by
  have hbytes : (pbufBytes (forceCopy env pcb q t).p).drop tcpHlen =
      readMem env [] 0 (lwipTcpOptLength pcb pcb.dataOpts) ++ copiedBytes env pcb q t := by
    show (pbufBytes (pushHeader [forcePbuf env pcb q t (forceTargetLen pcb q t)])).drop tcpHlen = _
    rw [pbufBytes_pushHeader (List.cons_ne_nil _ _), List.drop_left' List.length_replicate]
    simp [forcePbuf, copiedBytes]
  have hopt : (5 + lwipTcpOptLength pcb pcb.dataOpts / 4) * 4 - tcpHlen =
      lwipTcpOptLength pcb pcb.dataOpts := by
    have := (lwipTcpOptLength_mod pcb pcb.dataOpts).1
    simp only [tcpHlen]
    omega
  unfold segmentPacket
  show (overlay _ ((pbufBytes (forceCopy env pcb q t).p).drop tcpHlen)).drop
    ((5 + lwipTcpOptLength pcb pcb.dataOpts / 4) * 4 - tcpHlen) = _
  rw [hbytes, hopt]

theorem copyPacket_data_bare (hopts : t.opts = {}) :
    (segmentPacket env now ((forceCopy env pcb q t).remarked fl tos)).data =
      copiedBytes env pcb q t := by
  have hso : segOptions env now ((forceCopy env pcb q t).remarked fl tos) = [] := by
    unfold segOptions
    show (if t.opts.mss then _ else _) ++ (if t.opts.wndscale then _ else _) ++
      (if t.opts.ts then _ else _) ++ (if t.opts.sackPerm then _ else _) = _
    rw [hopts]
    rfl
  rw [copyPacket_data, hso, overlay, List.take_nil, List.nil_append, List.length_nil, List.drop_zero]
  exact List.drop_left' (length_readMem ..)

theorem writeOpts_of_bare (h : lwipTcpOptLength made (writeOpts made false) = 0) :
    writeOpts made false = {} := by
  have hts : made.flags.timestamp = false := by
    by_contra hts
    rw [Bool.not_eq_false] at hts
    have hleg : lwipTcpOptLengthLegacy (writeOpts made false) = 12 := by
      simp [lwipTcpOptLengthLegacy, Pcb.dataOpts, hts]
    unfold lwipTcpOptLength at h
    rw [hleg] at h
    split at h <;> omega
  unfold writeOpts Pcb.dataOpts
  rw [hts]

theorem readMem_inside {buf : List U8} {off n : Nat} (h : off + n ≤ buf.length) :
    readMem env buf off n = (buf.drop off).take n := by
  apply List.ext_getElem?
  intro i
  rw [readMem, List.getElem?_map, List.getElem?_take, List.getElem?_drop]
  by_cases hi : i < n
  · rw [List.getElem?_range hi, if_pos hi, Option.map_some, List.getD_eq_getElem?_getD,
      List.getElem?_eq_getElem (by omega), Option.getD_some]
  · rw [if_neg hi, List.getElem?_eq_none (by simpa using hi), Option.map_none]

/-- **The copy carries its range if the target has no room for options and its first pbuf holds the
range.** -/
theorem Written.copyCarries (h : Written made d0 d1 t)
    (hbare : lwipTcpOptLength made (writeOpts made false) = 0)
    (hin : (q - t.seqno).toNat + forceTargetLen pcb q t ≤ d0.length) :
    CopyCarries env pcb q t (d0 ++ d1) := by
  refine ⟨rfl, forceCopy_len env pcb q t, fun now fl tos => ?_⟩
  rw [copyPacket_data_bare (h.opts.trans (writeOpts_of_bare hbare))]
  obtain ⟨hdr, room, tot, rest, hp, hh, hr, -⟩ := h.layout
  have hroom : room = [] := List.length_eq_zero_iff.mp (hr.trans hbare)
  have hsrc : ((t.p.head?.map Pbuf.payload).getD []).drop tcpHlen = d0 := by
    rw [hp, hroom]
    exact List.drop_left' hh
  rw [copiedBytes, hsrc, readMem_inside hin, List.drop_append_of_le_length (by omega),
    List.take_append_of_le_length (by rw [List.length_drop]; omega)]

/-! ## The bytes of other targets -/

def markAt (n j : Nat) : List U8 := (List.range n).map fun i => if i = j then 7 else 0

theorem getElem?_markAt {n j i : Nat} (h : i < n) :
    (markAt n j)[i]? = some (if i = j then 7 else 0) := by
  rw [markAt, List.getElem?_map, List.getElem?_range h, Option.map_some]

theorem getD_take_markAt {n j l i : Nat} (h : i ≠ j ∨ l ≤ i) :
    ((markAt n j).take l).getD i 0 = 0 := by
  rw [List.getD_eq_getElem?_getD, List.getElem?_take]
  split
  · by_cases hi : i < n
    · rw [getElem?_markAt hi, if_neg (by omega), Option.getD_some]
    · rw [List.getElem?_eq_none (by simpa [markAt] using hi), Option.getD_none]
  · rfl

/-- A segment that `tcp_write` has laid out with these bytes, and zeros in front of them. -/
def laidOut (made : Pcb) (a : U32) (d0 d1 : List U8) : TcpSeg where
  addr := 0
  seqno := a
  len := d0.length + d1.length
  p := ⟨List.replicate tcpHlen 0 ++
      (List.replicate (lwipTcpOptLength made (writeOpts made false)) 0 ++ d0), 0⟩ ::
    if d1 = [] then [] else [⟨d1, d1.length⟩]
  opts := writeOpts made false

theorem laidOut_written (made : Pcb) (a : U32) (d0 d1 : List U8) :
    Written made d0 d1 (laidOut made a d0 d1) := by
  refine ⟨rfl, rfl, _, _, 0, _, rfl, List.length_replicate .., List.length_replicate .., ?_⟩
  split
  · rename_i h
    rw [h]
    rfl
  · simp

theorem copiedBytes_laidOut (a : U32) {i : Nat}
    (hi : i < forceTargetLen pcb q (laidOut made a d0 d1)) :
    (copiedBytes {} pcb q (laidOut made a d0 d1))[i]? =
      some (if (q - a).toNat + i < lwipTcpOptLength made (writeOpts made false) then 0
        else d0.getD ((q - a).toNat + i - lwipTcpOptLength made (writeOpts made false)) 0) := by
  have hsrc : (((laidOut made a d0 d1).p.head?.map Pbuf.payload).getD []).drop tcpHlen =
      List.replicate (lwipTcpOptLength made (writeOpts made false)) 0 ++ d0 :=
    List.drop_left' List.length_replicate
  rw [copiedBytes, hsrc, readMem, List.getElem?_map, List.getElem?_range hi, Option.map_some]
  congr 1
  show List.getD _ ((q - a).toNat + i) 0 = _
  split
  · rename_i h
    rw [List.getD_append _ _ _ _ (by rw [List.length_replicate]; exact h),
      List.getD_eq_getElem?_getD, List.getElem?_replicate_of_lt h, Option.getD_some]
  · rename_i h
    rw [List.getD_append_right _ _ _ _ (by rw [List.length_replicate]; exact Nat.not_lt.mp h),
      List.length_replicate]

theorem overlay_drop {built body : List U8} {k : Nat} (h : built.length ≤ k) :
    (overlay built body).drop k = body.drop k := by
  unfold overlay
  by_cases hb : built.length ≤ body.length
  · rw [List.take_of_length_le hb, List.drop_append, List.drop_eq_nil_of_le h, List.nil_append,
      List.drop_drop]
    congr 1
    omega
  · rw [List.drop_eq_nil_of_le, List.drop_eq_nil_of_le (by omega)]
    rw [List.length_append, List.length_take, List.length_drop]
    omega

theorem dataOpts_room (pcb : Pcb) :
    lwipTcpOptLength pcb pcb.dataOpts = 0 ∨ 12 ≤ lwipTcpOptLength pcb pcb.dataOpts := by
  have hleg : lwipTcpOptLengthLegacy pcb.dataOpts = 0 ∨ lwipTcpOptLengthLegacy pcb.dataOpts = 12 := by
    unfold lwipTcpOptLengthLegacy Pcb.dataOpts
    cases pcb.flags.timestamp <;> simp
  unfold lwipTcpOptLength
  split
  · rename_i h
    simp only [Bool.and_eq_true, decide_eq_true_eq] at h
    have hpos := Nat.pos_of_ne_zero h.1.2
    omega
  · exact hleg.imp id (·.ge)

theorem copyPacket_head (hopts : t.opts = writeOpts made false) (hn : 0 < forceTargetLen pcb q t) :
    (segmentPacket env now ((forceCopy env pcb q t).remarked fl tos)).data[0]? = some 1 ∨
      (segmentPacket env now ((forceCopy env pcb q t).remarked fl tos)).data[0]? =
        (copiedBytes env pcb q t)[0]? := by
  have hso : segOptions env now ((forceCopy env pcb q t).remarked fl tos) =
      if made.flags.timestamp then tcpBuildTimestampOption env now else [] := by
    unfold segOptions
    show (if t.opts.mss then _ else _) ++ (if t.opts.wndscale then _ else _) ++
      (if t.opts.ts then _ else _) ++ (if t.opts.sackPerm then _ else _) = _
    rw [hopts]
    exact List.append_nil _
  rw [copyPacket_data, hso]
  by_cases hfit : (if made.flags.timestamp then tcpBuildTimestampOption env now else []).length ≤
      lwipTcpOptLength pcb pcb.dataOpts
  · right
    rw [overlay_drop hfit, List.drop_left' (length_readMem ..)]
  left
  have hts : made.flags.timestamp = true := by
    by_contra hts
    simp [hts] at hfit
  rw [hts, if_pos rfl] at hfit ⊢
  have hroom : lwipTcpOptLength pcb pcb.dataOpts = 0 := by
    rcases dataOpts_room pcb with h | h
    · exact h
    · exact absurd h hfit
  have hbody : 0 < (readMem env [] 0 0 ++ copiedBytes env pcb q t).length := by
    rw [List.length_append, copiedBytes, length_readMem, length_readMem]
    omega
  rw [hroom, List.drop_zero, overlay, List.getElem?_append_left (by
    rw [List.length_take]
    exact lt_min hbody (Nat.succ_pos 11)), List.getElem?_take_of_lt hbody]
  rfl

end Copy

/-- **When the copy carries its range.** Of the targets that `tcp_write` made with the options of
`made`, with `l0` bytes of data in the first pbuf and `l1` behind it, all are copied right just if there
was no room for options and the first pbuf holds the range. -/
theorem copyCarries_iff {made pcb : Pcb} {q a : U32} {l0 l1 : Nat} (hlen : l0 + l1 < 2 ^ 16)
    (hq : (q - a).toNat < l0 + l1) :
    (∀ env t d0 d1, Written made d0 d1 t → t.seqno = a → d0.length = l0 → d1.length = l1 →
        CopyCarries env pcb q t (d0 ++ d1)) ↔
      lwipTcpOptLength made (writeOpts made false) = 0 ∧
        (q - a).toNat + min (forceLen pcb) (l0 + l1 - (q - a).toNat) ≤ l0 := by
  have hn : ∀ t : TcpSeg, t.seqno = a → t.len = l0 + l1 →
      forceTargetLen pcb q t = min (forceLen pcb) (l0 + l1 - (q - a).toNat) := by
    rintro t rfl ht
    have hleft := TcpSeg.Holds.left (show t.Holds q by rw [TcpSeg.Holds, ht]; exact hq) (by omega)
    rw [forceTargetLen, hleft, ht]
  have hpos : 0 < min (forceLen pcb) (l0 + l1 - (q - a).toNat) := by
    unfold forceLen
    split <;> omega
  have hlaid : ∀ j, forceTargetLen pcb q (laidOut made a ((markAt (l0 + l1) j).take l0)
      ((markAt (l0 + l1) j).drop l0)) = min (forceLen pcb) (l0 + l1 - (q - a).toNat) := by
    intro j
    exact hn _ rfl (by simp [laidOut, markAt])
  constructor
  · intro h
    -- the target whose payload is zero but for the byte `j` of the range
    have hbyte : ∀ j, (q - a).toNat ≤ j →
        j < (q - a).toNat + min (forceLen pcb) (l0 + l1 - (q - a).toNat) →
        (segmentPacket {} pcb ((forceCopy {} pcb q (laidOut made a ((markAt (l0 + l1) j).take l0)
          ((markAt (l0 + l1) j).drop l0))).remarked {} 0)).data[j - (q - a).toNat]? = some 7 := by
      intro j h1 h2
      have hall : (markAt (l0 + l1) j).length = l0 + l1 := by simp [markAt]
      have hc := h {} (laidOut made a ((markAt (l0 + l1) j).take l0) ((markAt (l0 + l1) j).drop l0))
        _ _ (laidOut_written ..) rfl (by simp [hall]) (by simp [hall])
      rw [hc.data, List.take_append_drop, hlaid, List.getElem?_take_of_lt (by omega),
        List.getElem?_drop]
      show (markAt (l0 + l1) j)[(q - a).toNat + (j - (q - a).toNat)]? = _
      rw [Nat.add_sub_cancel' h1, getElem?_markAt (by omega), if_pos rfl]
    have hbare : lwipTcpOptLength made (writeOpts made false) = 0 := by
      by_contra hroom
      have h7 := hbyte (q - a).toNat le_rfl (by omega)
      rw [Nat.sub_self] at h7
      have hl := hlaid (q - a).toNat
      rcases @copyPacket_head {} made pcb pcb q (laidOut made a
        ((markAt (l0 + l1) (q - a).toNat).take l0) ((markAt (l0 + l1) (q - a).toNat).drop l0)) {} 0 rfl
        (by omega) with h1 | h1
      · rw [h7] at h1
        exact absurd h1 (by decide)
      rw [h7, copiedBytes_laidOut a (by omega)] at h1
      split at h1
      · exact absurd h1 (by decide)
      · rw [getD_take_markAt (.inl (by omega))] at h1
        exact absurd h1 (by decide)
    refine ⟨hbare, ?_⟩
    by_contra hout
    have h7 := hbyte (max (q - a).toNat l0) (Nat.le_max_left _ _) (by omega)
    have hl := hlaid (max (q - a).toNat l0)
    rw [copyPacket_data_bare (writeOpts_of_bare hbare), copiedBytes_laidOut a (by omega), hbare,
      if_neg (Nat.not_lt_zero _), getD_take_markAt (.inr (by omega))] at h7
    exact absurd h7 (by decide)
  · rintro ⟨hbare, hin⟩ env t d0 d1 hw ha h0 h1
    refine hw.copyCarries hbare ?_
    rw [hn t ha (by rw [hw.len, h0, h1]), ha, h0]
    exact hin

/-- Without options, a byte inside the first pbuf. -/
theorem copyCarries_bare :
    CopyCarries {} (tcpPcbInit {}) 2 (laidOut (tcpPcbInit {}) 1 [5, 6, 7] []) [5, 6, 7] :=
  (@copyCarries_iff (tcpPcbInit {}) (tcpPcbInit {}) 2 1 3 0 (by decide) (by decide)).mpr
    ⟨by decide, by decide⟩ {} _ [5, 6, 7] [] (laidOut_written _ 1 [5, 6, 7] []) rfl rfl rfl

/-- With timestamps on, the first byte is taken from the room for the options. Without, a byte of the
second pbuf is taken from behind the end of the first. -/
theorem copyCarries_fails :
    (Written tsPcb [5, 6, 7] [] (laidOut tsPcb 1 [5, 6, 7] []) ∧
      ¬ CopyCarries {} tsPcb 1 (laidOut tsPcb 1 [5, 6, 7] []) [5, 6, 7]) ∧
    (Written (tcpPcbInit {}) [5] [6, 7] (laidOut (tcpPcbInit {}) 1 [5] [6, 7]) ∧
      ¬ CopyCarries {} (tcpPcbInit {}) 2 (laidOut (tcpPcbInit {}) 1 [5] [6, 7]) [5, 6, 7]) := by
  refine ⟨⟨laidOut_written .., fun h => ?_⟩, ⟨laidOut_written .., fun h => ?_⟩⟩
  · exact absurd (h.data tsPcb {} 0) (by decide)
  · exact absurd (h.data (tcpPcbInit {}) {} 0) (by decide)

end LibvmaTlt.Lwip
