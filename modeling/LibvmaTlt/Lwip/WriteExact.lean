import LibvmaTlt.Lwip.SegLayout

/-!
# How `tcp_write` cuts data into segments

A write hands the first bytes to the last unsent segment and cuts the rest into new ones. How much the
old segment takes and how long a new one may be are 16-bit differences of the segment size of the
moment, a length and the option length of the moment, while the room for options in a segment was fixed
when it was made. `Segmented` says what a write should leave, `WriteFits` for which pcb and data it
does.
-/

namespace LibvmaTlt.Lwip

/-! ## What a write should leave -/

/-- An unsent queue whose segments lie behind one another and end at `snd_lbb`. The fields of 16 bits
are in range and every segment has an address of its own. -/
structure UnsentQueue (pcb : Pcb) : Prop where
  lies : ∃ a, Lies a pcb.unsent pcb.sndLbb
  sound : ∀ s ∈ pcb.unsent, s.Sound
  addrs : (pcb.unsent.map TcpSeg.addr).Nodup
  fresh : ∀ s ∈ pcb.unsent, s.addr < pcb.nextSeg
  mss : pcb.mss < 65536
  oversize : pcb.unsentOversize < 65536

/-- What a write of `data` should leave: the data behind the old data, in segments that lie behind one
another and end at the new `snd_lbb`; a segment that was created or extended fits the segment size with
its options, and none was created without data. -/
structure Segmented (pcb : Pcb) (data : List U8) (p : Pcb) : Prop where
  payload : queuePayload p.unsent = queuePayload pcb.unsent ++ data
  lbb : p.sndLbb = pcb.sndLbb + u32 data.length
  lies : ∃ a, Lies a p.unsent p.sndLbb
  sound : ∀ s ∈ p.unsent, s.Sound
  fits : ∀ s ∈ p.unsent, (∀ t ∈ pcb.unsent, t.addr = s.addr → t.payload ≠ s.payload) →
    s.payload.length + s.optBytes ≤ pcb.mssLocal
  nonempty : ∀ s ∈ p.unsent, (∀ t ∈ pcb.unsent, t.addr ≠ s.addr) → s.payload ≠ []

/-! ## When it does -/

/-- The last unsent segment can take what it is given of `len` bytes: all of them fit, or the tail room
fits beside options no shorter than those it was made with, or it has no data yet, or it is given
nothing. -/
def TailFits (pcb : Pcb) (len : Nat) (last : TcpSeg) : Prop :=
  last.len + len + last.optBytes ≤ pcb.mssLocal ∨
  last.optBytes ≤ lwipTcpOptLength pcb last.opts ∧
    last.len + lwipTcpOptLength pcb last.opts + pcb.unsentOversize ≤ pcb.mssLocal ∨
  last.len = 0 ∧ pcb.unsentOversize + last.optBytes ≤ pcb.mssLocal ∨
  pcb.unsentOversize = 0 ∧
    (last.len = 0 ∨ (last.len + lwipTcpOptLength pcb last.opts) % 65536 = pcb.mssLocal)

/-- The last unsent segment takes all of `len` bytes, if it can take what it is given. -/
def AllInTail (pcb : Pcb) (len : Nat) (last : TcpSeg) : Prop :=
  len ≤ pcb.unsentOversize ∨
  0 < last.len ∧
    (last.len + lwipTcpOptLength pcb last.opts + len ≤ pcb.mssLocal ∨
      last.len + len + last.optBytes ≤ pcb.mssLocal ∧
        pcb.mssLocal < last.len + lwipTcpOptLength pcb last.opts + pcb.unsentOversize)

/-- A write of `len` bytes finds the end of the unsent queue and fits there, and the options leave room
in new segments, if there are any. -/
def WriteFits (pcb : Pcb) (len : Nat) (isDummy : Bool) : Prop :=
  len = 0 ∨
  (∀ last ∈ pcb.unsent.getLast?, pcb.lastUnsentSeg = some last ∧ TailFits pcb len last) ∧
    (lwipTcpOptLength pcb (writeOpts pcb isDummy) ≤ pcb.mssLocal ∨
      ∃ last ∈ pcb.unsent.getLast?, AllInTail pcb len last)

instance (pcb : Pcb) (len : Nat) (last : TcpSeg) : Decidable (TailFits pcb len last) :=
  inferInstanceAs (Decidable (_ ∨ _))

instance (pcb : Pcb) (len : Nat) (last : TcpSeg) : Decidable (AllInTail pcb len last) :=
  inferInstanceAs (Decidable (_ ∨ _))

instance (pcb : Pcb) (len : Nat) (isDummy : Bool) : Decidable (WriteFits pcb len isDummy) :=
  inferInstanceAs (Decidable (_ ∨ _))

/-! ## The tail -/

/-- What phases 1 and 2 give the last segment. The room left in it is a number of 16 bits, whatever it
comes from. -/
structure TailTakes (pcb : Pcb) (last : TcpSeg) (len : Nat) (t : TailWrite) : Prop where
  used : t.used = min pcb.unsentOversize len
  pos : t.pos = t.used + t.concat
  concat : ∃ space, space < 65536 ∧
    (space + (last.len + lwipTcpOptLength pcb last.opts) + t.used) % 65536 = pcb.mssLocal ∧
    t.concat = if t.used < len ∧ 0 < last.len then min space (len - t.used) else 0

variable {last last' : TcpSeg} {t : TailWrite} {bs data : List U8} {pcb : Pcb} {env : Env}
  {len pos : Nat} {init : List TcpSeg} {w : NewSegs}

theorem mssLocal_lt (h : pcb.mss < 65536) : pcb.mssLocal < 65536 := by
  simp only [Pcb.mssLocal, lwipTcpOptLenTs]
  split <;> split <;> omega

theorem tcpWriteTail_takes (h : tcpWriteTail env pcb last len = some t) (hmss : pcb.mssLocal < 65536)
    (hlen : last.len < 65536) (hover : pcb.unsentOversize < 65536) : TailTakes pcb last len t := by
  have hopt := lwipTcpOptLength_le pcb last.opts
  unfold tcpWriteTail at h
  simp only at h
  generalize hspace : u16 (u16 (pcb.mssLocal + 2 * 65536 -
    (last.len + lwipTcpOptLength pcb last.opts)) + 65536 - min pcb.unsentOversize len) = space at h
  have hmod : space < 65536 ∧ (space + (last.len + lwipTcpOptLength pcb last.opts) +
      min pcb.unsentOversize len) % 65536 = pcb.mssLocal := by
    rw [← hspace, u16, u16]
    omega
  split at h
  · rename_i hc
    split at h
    · cases h
      exact ⟨rfl, rfl, space, hmod.1, hmod.2, (if_pos ⟨hc.1, hc.2.2⟩).symm⟩
    · cases h
  · rename_i hc
    cases h
    refine ⟨rfl, rfl, space, hmod.1, hmod.2, ?_⟩
    simp only
    split
    · -- there is data left for the segment, so there is no room
      rename_i hc'
      have : space = 0 := by
        by_contra hne
        exact hc ⟨hc'.1, Nat.pos_of_ne_zero hne, hc'.2⟩
      omega
    · rfl

theorem TailTakes.pos_le (h : TailTakes pcb last len t) : t.pos ≤ len := by
  obtain ⟨hu, hp, space, -, -, hc⟩ := h
  split at hc <;> omega

theorem TailTakes.fits_iff (h : TailTakes pcb last len t) (hlen : 0 < len) :
    t.pos = 0 ∨ last.len + t.pos + last.optBytes ≤ pcb.mssLocal ↔ TailFits pcb len last := by
  have hopt := lwipTcpOptLength_le pcb last.opts
  obtain ⟨hu, hp, space, hs, hmod, hc⟩ := h
  unfold TailFits
  generalize lwipTcpOptLength pcb last.opts = o at *
  generalize last.optBytes = r
  generalize pcb.mssLocal = m at *
  split at hc <;> omega

theorem TailTakes.all_iff (h : TailTakes pcb last len t) (hlen : 0 < len)
    (hfits : t.pos = 0 ∨ last.len + t.pos + last.optBytes ≤ pcb.mssLocal) :
    t.pos = len ↔ AllInTail pcb len last := by
  have hopt := lwipTcpOptLength_le pcb last.opts
  obtain ⟨hu, hp, space, hs, hmod, hc⟩ := h
  unfold AllInTail
  generalize lwipTcpOptLength pcb last.opts = o at *
  generalize last.optBytes = r at *
  generalize pcb.mssLocal = m at *
  split at hc <;> omega

/-- The old tail with `bs` behind its data, with or without PSH. -/
structure Grows (last last' : TcpSeg) (bs : List U8) : Prop where
  addr : last'.addr = last.addr
  seqno : last'.seqno = last.seqno
  hdrlen : last'.hdrlen = last.hdrlen
  flags : last'.flags.fin = last.flags.fin ∧ last'.flags.syn = last.flags.syn
  bytes : pbufBytes last'.p = pbufBytes last.p ++ bs
  len : last.len + bs.length < 65536 → last'.len = last.len + bs.length
  chain : ChainOk last.p → ChainOk last'.p
  first : last.firstPbuf.length ≤ last'.firstPbuf.length

theorem Grows.optBytes (h : Grows last last' bs) : last'.optBytes = last.optBytes := by
  rw [TcpSeg.optBytes, TcpSeg.optBytes, h.hdrlen]

theorem Grows.payload (h : Grows last last' bs) (hs : last.Sound) :
    last'.payload = last.payload ++ bs := by
  rw [TcpSeg.payload, TcpSeg.payload, h.hdrlen, h.bytes, List.drop_append_of_le_length]
  rw [hs.bytes]
  exact Nat.le_add_right ..

theorem Grows.sound (h : Grows last last' bs) (hs : last.Sound) (hfit : last.len + bs.length < 65536) :
    last'.Sound where
  hdrlen := by rw [h.hdrlen]; exact hs.hdrlen
  bytes := by rw [h.bytes, h.hdrlen, h.len hfit, List.length_append, hs.bytes, Nat.add_assoc]
  len := by rw [h.len hfit]; exact hfit

theorem Grows.seqEnd (h : Grows last last' bs) (hfit : last.len + bs.length < 65536) :
    last'.seqEnd = last.seqEnd + u32 bs.length := by
  have hlen : last'.tcplen = last.tcplen + bs.length := by
    rw [TcpSeg.tcplen, TcpSeg.tcplen, h.len hfit, h.flags.1, h.flags.2]
    omega
  rw [TcpSeg.seqEnd, TcpSeg.seqEnd, hlen, h.seqno, BitVec.add_assoc, ← BitVec.ofNat_add]

theorem length_firstPbuf_fillTail (bs : List U8) (s : TcpSeg) :
    s.firstPbuf.length ≤ (({ s with p := fillTail bs s.p } : TcpSeg)).firstPbuf.length := by
  unfold TcpSeg.firstPbuf
  match s.p with
  | [] => exact le_rfl
  | [q] => simp [fillTail]
  | q :: r :: rest => exact le_rfl

theorem firstPbuf_pbufCat {s : TcpSeg} (hp : s.p ≠ []) (t : List Pbuf) :
    ({ s with p := pbufCat s.p t } : TcpSeg).firstPbuf = s.firstPbuf := by
  unfold TcpSeg.firstPbuf
  cases h : s.p with
  | nil => exact absurd h hp
  | cons q rest => rfl

theorem extend_chain (hp : last.p ≠ []) (hle : t.used + t.concat ≤ data.length) :
    (ChainOk last.p → ChainOk (last.extend data t).p) ∧
      last.firstPbuf.length ≤ (last.extend data t).firstPbuf.length := by
  have hconcat : ((data.drop t.used).take t.concat).length = t.concat := by
    rw [List.length_take, List.length_drop]
    omega
  obtain ⟨s1, hs1, hchain, hfirst, hne⟩ : ∃ s1 : TcpSeg, (if t.used = 0 then last else
      { last with p := fillTail (data.take t.used) last.p, len := u16 (last.len + t.used) }) = s1 ∧
      (ChainOk last.p → ChainOk s1.p) ∧ last.firstPbuf.length ≤ s1.firstPbuf.length ∧ s1.p ≠ [] := by
    refine ⟨_, rfl, ?_⟩
    split
    · exact ⟨id, le_rfl, hp⟩
    · refine ⟨fun h => h.fillTail _, length_firstPbuf_fillTail _ last, ?_⟩
      match hl : last.p, hp with
      | [q], _ => simp [fillTail]
      | q :: r :: rest, _ => simp [fillTail]
  unfold TcpSeg.extend
  simp only [hs1]
  split
  · exact ⟨hchain, hfirst⟩
  · rename_i hc
    have hcat := firstPbuf_pbufCat hne [⟨(data.drop t.used).take t.concat, t.concat⟩]
    exact ⟨fun h => (hchain h).pbufCat hconcat (Nat.pos_of_ne_zero hc),
      hfirst.trans_eq (congrArg List.length hcat.symm)⟩

theorem extend_grows (hp : last.p ≠ []) (hpos : t.pos = t.used + t.concat) (hle : t.pos ≤ data.length) :
    Grows last (last.extend data t) (data.take t.pos) := by
  have hlen : (data.take t.pos).length = t.pos := by rw [List.length_take, Nat.min_eq_left hle]
  obtain ⟨hchain, hfirst⟩ := extend_chain hp (hpos ▸ hle)
  obtain ⟨haddr, hseq, hflags, -, hhdr⟩ := extend_frame last data t
  refine ⟨haddr, hseq, hhdr, ?_, ?_, fun hfit => ?_, hchain, hfirst⟩
  · rw [hflags]
    exact ⟨rfl, rfl⟩
  · rw [pbufBytes_extend hp, hpos, List.take_add]
  · rw [hlen] at hfit ⊢
    exact extend_len data hpos hfit

theorem Grows.setPsh (h : Grows last last' bs) : Grows last last'.setPsh bs :=
  ⟨h.addr, h.seqno, h.hdrlen, h.flags, h.bytes, h.len, h.chain, h.first⟩

theorem Grows.built (h : Grows last last' bs) (hb : last.Built)
    (hfit : last.len + bs.length + last.optBytes < 65536) : last'.Built where
  sound := h.sound hb.sound (by omega)
  hdrlen := h.hdrlen ▸ hb.hdrlen
  room := by rw [h.optBytes, h.len (by omega)]; omega
  chain := h.chain hb.chain
  first := h.hdrlen ▸ hb.first.trans_le h.first

/-! ## New segments -/

/-- A new segment with `bs` for data, made where the options take `o` of `m` bytes. -/
structure Fresh (o m : Nat) (bs : List U8) (s : TcpSeg) : Prop where
  sound : s.Sound
  payload : s.payload = bs
  optBytes : s.optBytes = o
  fits : bs.length + o ≤ m
  nonempty : bs ≠ []
  flags : s.flags.fin = false ∧ s.flags.syn = false
  hdrlen : s.hdrlen ≤ 15
  chain : ChainOk s.p
  first : 4 * s.hdrlen < s.firstPbuf.length

theorem Fresh.built {o m : Nat} {s : TcpSeg} (h : Fresh o m s.payload s) (hm : m < 65536) : s.Built := by
  have hfits := h.fits
  rw [h.sound.length_payload, ← h.optBytes] at hfits
  exact ⟨h.sound, h.hdrlen, by omega, h.chain, h.first⟩

/-- New segments for `bs` that lie behind one another from `a` on. -/
inductive FreshRun (o m : Nat) : U32 → List U8 → List TcpSeg → Prop
  | nil (a : U32) : FreshRun o m a [] []
  | cons {a : U32} {bs bs' : List U8} {s : TcpSeg} {l : List TcpSeg} (hs : Fresh o m bs s)
      (hseq : s.seqno = a) (hl : FreshRun o m (a + u32 bs.length) bs' l) :
      FreshRun o m a (bs ++ bs') (s :: l)

namespace FreshRun

variable {o m : Nat} {a : U32} {bs : List U8} {l : List TcpSeg}

theorem payload (h : FreshRun o m a bs l) : queuePayload l = bs := by
  induction h with
  | nil => rfl
  | cons hs _ _ ih => rw [queuePayload_cons, hs.payload, ih]

theorem lies (h : FreshRun o m a bs l) : Lies a l (a + u32 bs.length) := by
  induction h with
  | nil a => exact (BitVec.add_zero a).symm
  | @cons a bs bs' s l hs hseq _ ih =>
    have hend : s.seqEnd = a + u32 bs.length := by
      rw [TcpSeg.seqEnd, TcpSeg.tcplen, hs.flags.1, hs.flags.2, hseq, ← hs.payload,
        hs.sound.length_payload]
      rfl
    have hadd : u32 (bs.length + bs'.length) = u32 bs.length + u32 bs'.length := BitVec.ofNat_add ..
    refine ⟨hseq, ?_⟩
    rw [hend, List.length_append, hadd, ← BitVec.add_assoc]
    exact ih

theorem fresh (h : FreshRun o m a bs l) : ∀ s ∈ l, Fresh o m s.payload s := by
  induction h with
  | nil => simp
  | cons hs _ _ ih => exact List.forall_mem_cons.mpr ⟨hs.payload.symm ▸ hs, ih⟩

theorem pshLast (h : FreshRun o m a bs l) : FreshRun o m a bs (pshLast l) := by
  induction h with
  | nil a => exact .nil a
  | @cons a bs bs' s l hs hseq hl ih =>
    cases l with
    | nil =>
      have hpsh : Fresh o m bs s.setPsh :=
        ⟨⟨hs.sound.hdrlen, hs.sound.bytes, hs.sound.len⟩, hs.payload, hs.optBytes, hs.fits, hs.nonempty,
          hs.flags, hs.hdrlen, hs.chain, hs.first⟩
      exact .cons hpsh hseq hl
    | cons s' l => exact .cons hs hseq ih

end FreshRun

section Loop

variable {env : Env} {o : SegOpts} {data : List U8}

theorem tcpWriteLoop_stuck {f n : Nat} (hmss : lwipTcpOptLength w.pcb o = w.pcb.mssLocal)
    (hpos : pos < data.length) :
    tcpWriteLoop env o data f n pos w = none := by
  induction f generalizing n w with
  | zero => rfl
  | succ f ih =>
    have hmax : u16 (w.pcb.mssLocal + 65536 - lwipTcpOptLength w.pcb o) = 0 := by
      rw [hmss, Nat.add_sub_cancel_left, u16]
    simp only [tcpWriteLoop, if_pos hpos, hmax, Nat.min_zero, Nat.add_zero]
    split
    · rfl
    · exact ih hmss

theorem newSegment_fresh {seglen : Nat} (hmss : pcb.mssLocal < 65536) (hpos : 0 < seglen)
    (hle : seglen ≤ data.length - pos) (hfit : seglen + lwipTcpOptLength pcb o ≤ pcb.mssLocal)
    (seqno : U32) :
    Fresh (lwipTcpOptLength pcb o) pcb.mssLocal ((data.drop pos).take seglen)
      (tcpCreateSegment pcb
        [⟨(readMem env [] 0 (lwipTcpOptLength pcb o) ++ (data.drop pos).take seglen).take
            (u16 (seglen + lwipTcpOptLength pcb o)), u16 (seglen + lwipTcpOptLength pcb o)⟩]
        {} seqno o).2 := by
  obtain ⟨hopt, hopt40⟩ := lwipTcpOptLength_mod pcb o
  have hlen : ((data.drop pos).take seglen).length = seglen := by
    rw [List.length_take, List.length_drop, Nat.min_eq_left hle]
  have hmade := @newSegment_made pcb env o data pos seglen hle (by omega) {} seqno
  generalize hr : (tcpCreateSegment pcb _ {} seqno o).2 = s at hmade ⊢
  obtain ⟨q, hq, htot⟩ : ∃ q, s.p = [q] ∧ q.totLen = q.len := by
    have hu : u16 (seglen + lwipTcpOptLength pcb o) = seglen + lwipTcpOptLength pcb o :=
      Nat.mod_eq_of_lt (by omega)
    refine ⟨_, by rw [← hr]; rfl, ?_⟩
    simp only [Pbuf.len, List.length_append, List.length_replicate, List.length_take, length_readMem,
      hlen, hu]
    omega
  have hslen : s.len = seglen := by
    rw [← hr]
    show u16 (u16 (seglen + lwipTcpOptLength pcb o) + 65536 - lwipTcpOptLength pcb o) = seglen
    rw [u16, u16]
    omega
  have hflags : s.flags = {} := by rw [← hr]; rfl
  have hsound := hmade.sound hopt (hslen.trans hlen.symm) (by omega)
  have hfirst : s.firstPbuf.length = 4 * s.hdrlen + s.len := by
    rw [← hsound.bytes, TcpSeg.firstPbuf, hq]
    simp
  exact {
    sound := hsound
    payload := hmade.payload_eq hopt
    optBytes := hmade.optBytes_eq hopt
    fits := by rw [hlen]; exact hfit
    nonempty := List.ne_nil_of_length_pos (by omega)
    flags := by rw [hflags]; exact ⟨rfl, rfl⟩
    hdrlen := by rw [hmade.hdrlen]; omega
    chain := by rw [hq]; exact ⟨⟨htot, trivial⟩, by simp⟩
    first := by rw [hfirst]; omega }

/-- **The segments of the loop**: if the options leave room, they carry the data from `pos` on. -/
theorem tcpWriteLoop_fresh : ∀ {f n pos : Nat} {w w' : NewSegs},
    tcpWriteLoop env o data f n pos w = some w' → w.pcb.mssLocal < 65536 →
    pos ≤ data.length → (pos < data.length → lwipTcpOptLength w.pcb o ≤ w.pcb.mssLocal) →
    ∃ l, w'.queue = w.queue ++ l ∧ FreshRun (lwipTcpOptLength w.pcb o) w.pcb.mssLocal
      (w.pcb.sndLbb + u32 pos) (data.drop pos) l ∧
      ∀ s ∈ l, w.pcb.nextSeg ≤ s.addr := by
  intro f
  induction f with
  | zero =>
    intro n pos w w' h
    cases h
  | succ f ih =>
    intro n pos w w' h hmss hle hroom
    by_cases hpos : pos < data.length
    · have hlt : lwipTcpOptLength w.pcb o < w.pcb.mssLocal := by
        refine lt_of_le_of_ne (hroom hpos) fun he => ?_
        rw [tcpWriteLoop_stuck he hpos] at h
        cases h
      have hmax : u16 (w.pcb.mssLocal + 65536 - lwipTcpOptLength w.pcb o) =
          w.pcb.mssLocal - lwipTcpOptLength w.pcb o := by
        rw [u16]
        omega
      simp only [tcpWriteLoop, if_pos hpos, hmax] at h
      generalize hl : min (data.length - pos) (w.pcb.mssLocal - lwipTcpOptLength w.pcb o) = seglen at h
      have hseg : 0 < seglen ∧ seglen ≤ data.length - pos ∧
          seglen + lwipTcpOptLength w.pcb o ≤ w.pcb.mssLocal := by omega
      have hdata : (data.drop pos).take seglen ++ data.drop (pos + seglen) = data.drop pos := by
        rw [← List.drop_drop, List.take_append_drop]
      have hlen : ((data.drop pos).take seglen).length = seglen := by
        rw [List.length_take, List.length_drop, Nat.min_eq_left hseg.2.1]
      split at h
      · cases h
      obtain ⟨l, hq, hrun, haddr⟩ := ih h hmss (by omega) fun _ => hlt.le
      refine ⟨_ :: l, by rw [hq, List.append_assoc]; rfl, ?_, List.forall_mem_cons.mpr ⟨le_rfl, ?_⟩⟩
      · have hnew := @newSegment_fresh w.pcb pos env o data seglen hmss hseg.1 hseg.2.1 hseg.2.2
          (w.pcb.sndLbb + u32 pos)
        have hadd : u32 (pos + seglen) = u32 pos + u32 seglen := BitVec.ofNat_add ..
        have hrest : FreshRun (lwipTcpOptLength w.pcb o) w.pcb.mssLocal
            (w.pcb.sndLbb + u32 pos + u32 ((data.drop pos).take seglen).length)
            (data.drop (pos + seglen)) l := by
          rw [hlen, BitVec.add_assoc, ← hadd]
          exact hrun
        have hcons := FreshRun.cons hnew rfl hrest
        rwa [hdata] at hcons
      · exact fun s hs => (Nat.le_succ _).trans (haddr s hs)
    · obtain rfl : pos = data.length := by omega
      simp only [tcpWriteLoop, if_neg hpos] at h
      cases h
      refine ⟨[], (List.append_nil _).symm, ?_, by simp⟩
      rw [List.drop_length]
      exact .nil _

theorem tcpWriteLoop_prefix : ∀ {f n pos : Nat} {w w' : NewSegs},
    tcpWriteLoop env o data f n pos w = some w' → ∀ s ∈ w.queue, s ∈ w'.queue := by
  intro f
  induction f with
  | zero =>
    intro n pos w w' h
    cases h
  | succ f ih =>
    intro n pos w w' h s hs
    simp only [tcpWriteLoop] at h
    split at h
    · split at h
      · cases h
      · exact ih h s (List.mem_append_left _ hs)
    · cases h
      exact hs

theorem tcpWriteLoop_makes {f n : Nat} {w' : NewSegs} (h : tcpWriteLoop env o data f n pos w = some w')
    (hpos : pos < data.length) :
    ∃ s ∈ w'.queue, s.addr = w.pcb.nextSeg ∧ s.optBytes = lwipTcpOptLength w.pcb o := by
  cases f with
  | zero => cases h
  | succ f =>
    simp only [tcpWriteLoop, if_pos hpos] at h
    split at h
    · cases h
    refine ⟨_, tcpWriteLoop_prefix h _ (List.mem_append_right _ (List.mem_singleton_self _)), rfl, ?_⟩
    have hopt := (lwipTcpOptLength_mod w.pcb o).1
    show 4 * (5 + lwipTcpOptLength w.pcb o / 4) - tcpHlen = lwipTcpOptLength w.pcb o
    rw [tcpHlen]
    omega

end Loop

/-! ### The loop ends -/

inductive WritePass where
  | done
  | memerr
  | next (pos : Nat) (w : NewSegs)

def writePass (env : Env) (optflags : SegOpts) (data : List U8) (n pos : Nat) (w : NewSegs) :
    WritePass :=
  if pos < data.length then
    let optlen := lwipTcpOptLength w.pcb optflags
    let maxLen := u16 (w.pcb.mssLocal + 65536 - optlen)
    let seglen := min (data.length - pos) maxLen
    let length := u16 (seglen + optlen)
    let p : Pbuf :=
      ⟨(readMem env [] 0 optlen ++ (data.drop pos).take seglen).take length, length⟩
    let queuelen := w.queuelen + 1
    if !env.pbufOk (n + 1) ∨ queuelen > w.pcb.maxUnsentLen ∨
        queuelen > tcpSndqueuelenOverflow ∨ !env.segOk n then .memerr
    else
      let r := tcpCreateSegment w.pcb [p] {} (w.pcb.sndLbb + u32 pos) optflags
      .next (pos + seglen)
        ⟨r.1, w.queue ++ [r.2], queuelen,
          tcpPbufPrealloc w.pcb length maxLen true w.queue.isEmpty⟩
  else .done

/-- The loop of phase 3 without a bound on its passes: from `pos` and `w` on it ends with `r`, where
`none` is `memerr`. -/
inductive WriteRuns (env : Env) (o : SegOpts) (data : List U8) :
    Nat → Nat → NewSegs → Option NewSegs → Prop
  | done {n pos : Nat} {w : NewSegs} (h : writePass env o data n pos w = .done) :
      WriteRuns env o data n pos w (some w)
  | memerr {n pos : Nat} {w : NewSegs} (h : writePass env o data n pos w = .memerr) :
      WriteRuns env o data n pos w none
  | next {n pos pos' : Nat} {w w' : NewSegs} {r : Option NewSegs}
      (h : writePass env o data n pos w = .next pos' w') (hr : WriteRuns env o data (n + 1) pos' w' r) :
      WriteRuns env o data n pos w r

theorem tcpWriteLoop_succ (env : Env) (o : SegOpts) (data : List U8) (f n pos : Nat) (w : NewSegs) :
    tcpWriteLoop env o data (f + 1) n pos w =
      match writePass env o data n pos w with
      | .done => some w
      | .memerr => none
      | .next pos' w' => tcpWriteLoop env o data f (n + 1) pos' w' := by
  by_cases hpos : pos < data.length
  · simp only [tcpWriteLoop, writePass, if_pos hpos]
    split <;> rfl
  · simp only [tcpWriteLoop, writePass, if_neg hpos]

theorem writePass_next {o : SegOpts} {n pos' : Nat} {w' : NewSegs}
    (h : writePass env o data n pos w = .next pos' w') :
    w'.queuelen = w.queuelen + 1 ∧ w'.queuelen ≤ w.pcb.maxUnsentLen ∧
      w'.pcb.maxUnsentLen = w.pcb.maxUnsentLen := by
  unfold writePass at h
  split at h
  · simp only at h
    split at h
    · cases h
    · rename_i hok
      cases h
      refine ⟨rfl, ?_, rfl⟩
      exact Nat.le_of_not_lt fun hlt => hok (.inr (.inl hlt))
  · cases h

theorem tcpWriteLoop_runs {o : SegOpts} :
    ∀ {f n pos : Nat} {w : NewSegs}, 0 < f → w.pcb.maxUnsentLen + 2 ≤ f + w.queuelen →
      WriteRuns env o data n pos w (tcpWriteLoop env o data f n pos w) := by
  intro f
  induction f with
  | zero =>
    intro n pos w h
    cases h
  | succ f ih =>
    intro n pos w _ hf
    rw [tcpWriteLoop_succ]
    cases hp : writePass env o data n pos w with
    | done => exact .done hp
    | memerr => exact .memerr hp
    | next pos' w' =>
      obtain ⟨h1, h2, h3⟩ := writePass_next hp
      exact .next hp (ih (by omega) (by omega))

def WriteEnds (env : Env) (pcb : Pcb) (data : List U8) (isDummy : Bool) : Prop :=
  ∀ pos queuelen oversize, WriteRuns env (writeOpts pcb isDummy) data 0 pos
    ⟨pcb, [], queuelen, oversize⟩
    (tcpWriteLoop env (writeOpts pcb isDummy) data (pcb.maxUnsentLen + 2) 0 pos
      ⟨pcb, [], queuelen, oversize⟩)

theorem writeEnds (env : Env) (pcb : Pcb) (data : List U8) (isDummy : Bool) :
    WriteEnds env pcb data isDummy :=
  fun _ _ _ => tcpWriteLoop_runs (Nat.succ_pos _) (Nat.le_add_right ..)

/-! ## Writes -/

theorem lastUnsentSeg_cases {s : TcpSeg} (h : pcb.lastUnsentSeg = some s) :
    pcb.unsent.getLast? = some s ∨ ∀ u ∈ pcb.unsent, u.addr ≠ s.addr := by
  unfold Pcb.lastUnsentSeg at h
  split at h
  · exact .inl h
  rename_i a _
  split at h
  · exact .inl h
  rename_i hany
  split at h
  · split at h
    · rename_i s' _
      split at h
      · rename_i ha
        cases h
        refine .inr fun u hu he => hany (List.any_eq_true.mpr ⟨u, hu, ?_⟩)
        exact decide_eq_true (he.trans ha)
      · exact .inl h
    · cases h
  · cases h

theorem replaceSeg_last (ha : last'.addr = last.addr) (hnd : ((init ++ [last]).map TcpSeg.addr).Nodup) :
    replaceSeg last' (init ++ [last]) = init ++ [last'] := by
  rw [List.map_append, List.nodup_append] at hnd
  have hinit : replaceSeg last' init = init := by
    refine (List.map_congr_left fun t ht => if_neg ?_).trans (List.map_id init)
    rw [ha]
    exact hnd.2.2 _ (List.mem_map_of_mem ht) _ (List.mem_singleton_self _)
  show List.map _ _ = _
  rw [List.map_append]
  refine congrArg₂ _ hinit ?_
  rw [List.map_singleton, if_pos ha.symm]

/-- The unsent queue after a write: new segments on an empty queue; the old tail grown, with new segments
behind it; or the old queue, where `last_unsent` is a segment elsewhere. -/
inductive WrittenQueue (env : Env) (pcb : Pcb) (data : List U8) (isDummy : Bool) : List TcpSeg → Prop
  | new {w : NewSegs} (hu : pcb.unsent = [])
      (hw : tcpWriteLoop env (writeOpts pcb isDummy) data (pcb.maxUnsentLen + 2) 0 0
        ⟨pcb, [], pcb.sndQueuelen, 0⟩ = some w) :
      WrittenQueue env pcb data isDummy (pshLast w.queue)
  | tail {init : List TcpSeg} {last last' : TcpSeg} {t : TailWrite} {w : NewSegs}
      (hu : pcb.unsent = init ++ [last]) (hl : pcb.lastUnsentSeg = some last)
      (ht : TailTakes pcb last data.length t) (hg : Grows last last' (data.take t.pos))
      (hw : tcpWriteLoop env (writeOpts pcb isDummy) data (pcb.maxUnsentLen + 2) 0 t.pos
        ⟨pcb, [], t.queuelen, t.oversize⟩ = some w) :
      WrittenQueue env pcb data isDummy (init ++ last' :: pshLast w.queue)
  | stray {last : TcpSeg} (hu : pcb.unsent ≠ []) (hl : pcb.lastUnsentSeg = some last)
      (hne : ∀ u ∈ pcb.unsent, u.addr ≠ last.addr) : WrittenQueue env pcb data isDummy pcb.unsent

theorem tcpWrite_written {p : Pcb} {isDummy : Bool} (h : tcpWrite env pcb data isDummy = some (p, .ok))
    (hq : UnsentQueue pcb) :
    WrittenQueue env (pcb.setSmlAdd data.length isDummy) data isDummy p.unsent := by
  rcases tcpWrite_cases h with ⟨he, -⟩ | ⟨-, hu, w, hw, rfl⟩ | ⟨-, hu, last, t, w, ⟨hl, ht, hw⟩, rfl⟩
  · exact absurd rfl he
  · exact .new hu hw
  rcases lastUnsentSeg_cases hl with hlast | hne
  · obtain ⟨init, hinit⟩ : ∃ init, pcb.unsent = init ++ [last] :=
      List.getLast?_eq_some_iff.mp hlast
    have hs : last.Sound := hq.sound last (List.mem_of_getLast? hlast)
    have htakes := tcpWriteTail_takes ht (mssLocal_lt hq.mss) hs.len hq.oversize
    have hg := extend_grows hs.p_ne_nil htakes.pos htakes.pos_le
    unfold tcpWriteCommit
    simp only
    generalize hL : (if (decide (0 < pcb.unsentOversize) || decide (t.concat ≠ 0)) = true ∧
      w.queue = [] then (last.extend data t).setPsh else last.extend data t) = last'
    have hg' : Grows last last' (data.take t.pos) := by
      rw [← hL]
      split
      · exact hg.setPsh
      · exact hg
    rw [appendAfter_unsent (by exact ⟨last, List.mem_of_getLast? hlast, hg'.addr.symm⟩)]
    have hrep : replaceSeg last' pcb.unsent = init ++ [last'] := by
      rw [hinit]
      exact replaceSeg_last hg'.addr (hinit ▸ hq.addrs)
    show WrittenQueue env (pcb.setSmlAdd data.length isDummy) data isDummy
      (replaceSeg last' pcb.unsent ++ pshLast w.queue)
    rw [hrep, List.append_assoc]
    exact .tail hinit hl htakes hg' hw
  · have hsame : (tcpWriteCommit (pcb.setSmlAdd data.length isDummy) data.length w
        (some (last.extend data t)) (0 < pcb.unsentOversize || t.concat ≠ 0)).unsent =
        pcb.unsent := by
      unfold tcpWriteCommit
      simp only
      rw [Pcb.appendAfter, if_neg]
      · rfl
      · intro hany
        obtain ⟨u, hu, ha⟩ := List.any_eq_true.mp hany
        refine hne u hu ((of_decide_eq_true ha).trans ?_)
        split
        · exact (extend_frame ..).1
        · exact (extend_frame ..).1
    rw [hsame]
    exact .stray hu hl hne

/-- The unsent queue as a write should leave it: new segments for all of the data, the old tail filled
and new segments for the rest, or the old queue where there is no data. -/
inductive Landed (pcb : Pcb) (data : List U8) : List TcpSeg → Prop
  | new {o : Nat} {l : List TcpSeg} (hu : pcb.unsent = [])
      (hl : FreshRun o pcb.mssLocal pcb.sndLbb data l) : Landed pcb data l
  | tail {o : Nat} {init l : List TcpSeg} {last last' : TcpSeg} {bs bs' : List U8}
      (hu : pcb.unsent = init ++ [last]) (hdata : bs ++ bs' = data) (hg : Grows last last' bs)
      (hfits : bs = [] ∨ last.len + bs.length + last.optBytes ≤ pcb.mssLocal)
      (hl : FreshRun o pcb.mssLocal (pcb.sndLbb + u32 bs.length) bs' l) :
      Landed pcb data (init ++ last' :: l)
  | same (h0 : data = []) : Landed pcb data pcb.unsent

section Exact

variable {env : Env} {pcb p : Pcb} {data : List U8} {isDummy : Bool} {l : List TcpSeg}

theorem Landed.built (h : Landed pcb data l) (hq : UnsentQueue pcb) (hb : ∀ s ∈ pcb.unsent, s.Built) :
    ∀ s ∈ l, s.Built := by
  have hmss := mssLocal_lt hq.mss
  cases h with
  | new _ hl => exact fun s hs => (hl.fresh s hs).built hmss
  | tail hu _ hg hfits hl =>
    rw [hu, List.forall_mem_append, List.forall_mem_singleton] at hb
    rw [List.forall_mem_append, List.forall_mem_cons]
    refine ⟨hb.1, hg.built hb.2 ?_, fun s hs => (hl.fresh s hs).built hmss⟩
    rcases hfits with rfl | hfits
    · exact (Nat.add_comm ..).trans_lt hb.2.room
    · omega
  | same => exact hb

theorem Segmented.of_new {o : Nat} (hu : pcb.unsent = [])
    (hlbb : p.sndLbb = pcb.sndLbb + u32 data.length)
    (hl : FreshRun o pcb.mssLocal pcb.sndLbb data p.unsent) : Segmented pcb data p where
  payload := by rw [hu, hl.payload]; rfl
  lbb := hlbb
  lies := ⟨pcb.sndLbb, by rw [hlbb]; exact hl.lies⟩
  sound s hs := (hl.fresh s hs).sound
  fits s hs _ := (hl.fresh s hs).optBytes ▸ (hl.fresh s hs).fits
  nonempty s hs _ := (hl.fresh s hs).nonempty

theorem Segmented.of_tail {o : Nat} {bs' : List U8} (hq : UnsentQueue pcb)
    (hu : pcb.unsent = init ++ [last]) (hp : p.unsent = init ++ last' :: l) (hdata : bs ++ bs' = data)
    (hlbb : p.sndLbb = pcb.sndLbb + u32 data.length) (hg : Grows last last' bs)
    (hfits : bs = [] ∨ last.len + bs.length + last.optBytes ≤ pcb.mssLocal)
    (hl : FreshRun o pcb.mssLocal (pcb.sndLbb + u32 bs.length) bs' l) : Segmented pcb data p := by
  have hmss := mssLocal_lt hq.mss
  have hmem : ∀ s ∈ init, s ∈ pcb.unsent := fun s hs => hu ▸ List.mem_append_left _ hs
  have hlast : last ∈ pcb.unsent := hu ▸ List.mem_append_right _ (List.mem_singleton_self _)
  have hs := hq.sound last hlast
  have hfit : last.len + bs.length < 65536 := by
    rcases hfits with rfl | h
    · exact hs.len
    · omega
  have hend : pcb.sndLbb + u32 bs.length + u32 bs'.length = p.sndLbb := by
    rw [hlbb, ← hdata, List.length_append, BitVec.add_assoc, ← BitVec.ofNat_add]
  -- a segment of the new queue is an old one, the grown tail or a new one
  have hcases : ∀ s ∈ p.unsent, s ∈ init ∨ s = last' ∨ s ∈ l := fun s h => by
    rw [hp, List.mem_append, List.mem_cons] at h
    exact h
  refine ⟨?_, hlbb, ?_, fun s h => ?_, fun s h hch => ?_, fun s h hnew => ?_⟩
  · rw [hp, hu, queuePayload_append, queuePayload_cons, hg.payload hs, hl.payload, queuePayload_append,
      queuePayload_cons, queuePayload_nil, ← hdata]
    simp only [List.append_assoc, List.nil_append]
  · obtain ⟨a, ha⟩ := hq.lies
    rw [hu, lies_append] at ha
    obtain ⟨m, hinit, hseq, hlbb'⟩ := ha
    have hlbb' : last.seqEnd = pcb.sndLbb := hlbb'
    refine ⟨a, ?_⟩
    rw [hp, lies_append]
    refine ⟨m, hinit, hg.seqno.trans hseq, ?_⟩
    rw [hg.seqEnd hfit, hlbb', ← hend]
    exact hl.lies
  · rcases hcases s h with h | rfl | h
    · exact hq.sound s (hmem s h)
    · exact hg.sound hs hfit
    · exact (hl.fresh s h).sound
  · rcases hcases s h with h | rfl | h
    · exact absurd rfl (hch s (hmem s h) rfl)
    · rw [hg.payload hs, List.length_append, hs.length_payload, hg.optBytes]
      refine hfits.resolve_left fun hnil => hch last hlast hg.addr.symm ?_
      rw [hg.payload hs, hnil, List.append_nil]
    · exact (hl.fresh s h).optBytes ▸ (hl.fresh s h).fits
  · rcases hcases s h with h | rfl | h
    · exact absurd rfl (hnew s (hmem s h))
    · exact absurd hg.addr.symm (hnew last hlast)
    · exact (hl.fresh s h).nonempty

theorem Segmented.of_same (hq : UnsentQueue pcb) (hlbb : p.sndLbb = pcb.sndLbb)
    (hp : p.unsent = pcb.unsent) : Segmented pcb [] p where
  payload := by rw [hp, List.append_nil]
  lbb := hlbb.trans (BitVec.add_zero _).symm
  lies := by rw [hp, hlbb]; exact hq.lies
  sound := by rw [hp]; exact hq.sound
  fits s hs hch := absurd rfl (hch s (hp ▸ hs) rfl)
  nonempty s hs hnew := absurd rfl (hnew s (hp ▸ hs))

theorem Landed.segmented (h : Landed pcb data p.unsent) (hq : UnsentQueue pcb)
    (hlbb : p.sndLbb = pcb.sndLbb + u32 data.length) : Segmented pcb data p := by
  generalize hp : p.unsent = l at h
  cases h with
  | new hu hl => exact .of_new hu hlbb (hp ▸ hl)
  | tail hu hdata hg hfits hl => exact .of_tail hq hu hp hdata hlbb hg hfits hl
  | same h0 =>
    subst h0
    exact .of_same hq (hlbb.trans (BitVec.add_zero _)) hp

theorem Segmented.tail_fits {l : List TcpSeg} (h : Segmented pcb data p) (hq : UnsentQueue pcb)
    (hu : pcb.unsent = init ++ [last]) (hp : p.unsent = init ++ last' :: l) (hg : Grows last last' bs) :
    bs.length = 0 ∨ last.len + bs.length + last.optBytes ≤ pcb.mssLocal := by
  have hlast : last ∈ pcb.unsent := hu ▸ List.mem_append_right _ (List.mem_singleton_self _)
  have hs := hq.sound last hlast
  by_cases hbs : bs = []
  · exact .inl (List.length_eq_zero_iff.mpr hbs)
  refine .inr ?_
  have hfits := h.fits last' (by rw [hp]; simp) fun t ht ha => ?_
  · rwa [hg.payload hs, List.length_append, hs.length_payload, hg.optBytes] at hfits
  · -- the addresses are distinct, so `t` is the old tail
    obtain rfl : t = last :=
      List.inj_on_of_nodup_map hq.addrs ht hlast (ha.trans hg.addr)
    rw [hg.payload hs]
    simpa using hbs

theorem Segmented.room {f n ql ov : Nat} (h : Segmented pcb data p) (hq : UnsentQueue pcb)
    (hp : ∀ s ∈ pshLast w.queue, s ∈ p.unsent)
    (hw : tcpWriteLoop env (writeOpts pcb isDummy) data f n pos ⟨pcb, [], ql, ov⟩ = some w)
    (hpos : pos < data.length) : lwipTcpOptLength pcb (writeOpts pcb isDummy) ≤ pcb.mssLocal := by
  obtain ⟨s, hs, ha, ho⟩ := tcpWriteLoop_makes hw hpos
  have hmem : (s.addr, s.optBytes) ∈ (pshLast w.queue).map fun s => (s.addr, s.optBytes) := by
    rw [map_pshLast (fun _ => rfl)]
    exact List.mem_map_of_mem hs
  obtain ⟨s', hs', he⟩ := List.mem_map.mp hmem
  obtain ⟨ha', ho'⟩ := Prod.mk.inj he
  have hfits := h.fits s' (hp s' hs') fun t ht hta => ?_
  · rw [ho', ho] at hfits
    exact (Nat.le_add_left ..).trans hfits
  · have hlt := hq.fresh t ht
    rw [hta, ha', ha] at hlt
    exact absurd hlt (lt_irrefl _)

theorem TailTakes.of_fits (ht : TailTakes pcb last data.length t)
    (hlast : pcb.unsent.getLast? = some last) (hfit : WriteFits pcb data.length isDummy) :
    (t.pos = 0 ∨ last.len + t.pos + last.optBytes ≤ pcb.mssLocal) ∧
      (t.pos < data.length → lwipTcpOptLength pcb (writeOpts pcb isDummy) ≤ pcb.mssLocal) := by
  have hle := ht.pos_le
  rcases Nat.eq_zero_or_pos data.length with h0 | h0
  · exact ⟨.inl (by omega), fun hlt => absurd hlt (by omega)⟩
  obtain ⟨htail, hnew⟩ := hfit.resolve_left h0.ne'
  have hfit := (ht.fits_iff h0).mpr (htail last hlast).2
  refine ⟨hfit, fun hlt => hnew.resolve_right ?_⟩
  rintro ⟨l0, hl0, hall⟩
  obtain rfl : last = l0 := Option.some.inj (hlast.symm.trans hl0)
  exact absurd ((ht.all_iff h0 hfit).mpr hall) hlt.ne

theorem WrittenQueue.landed (h : WrittenQueue env pcb data isDummy l) (hq : UnsentQueue pcb)
    (hfit : WriteFits pcb data.length isDummy) : Landed pcb data l := by
  cases h with
  | @new w hu hw =>
    have hroom : 0 < data.length → lwipTcpOptLength pcb (writeOpts pcb isDummy) ≤ pcb.mssLocal := by
      intro h0
      refine (hfit.resolve_left h0.ne').2.resolve_right ?_
      rintro ⟨l0, hl0, -⟩
      rw [hu] at hl0
      cases hl0
    obtain ⟨l, hl, hrun, -⟩ := tcpWriteLoop_fresh hw (mssLocal_lt hq.mss) (Nat.zero_le _) hroom
    have hpsh := hrun.pshLast
    rw [BitVec.add_zero, List.drop_zero] at hpsh
    rw [List.nil_append] at hl
    rw [hl]
    exact .new hu hpsh
  | @tail init last last' t w hu hl ht hg hw =>
    have hbs : (data.take t.pos).length = t.pos := by rw [List.length_take, Nat.min_eq_left ht.pos_le]
    obtain ⟨hfits, hroom⟩ := ht.of_fits (by rw [hu, List.getLast?_concat]) hfit
    obtain ⟨l, hw', hrun, -⟩ := tcpWriteLoop_fresh hw (mssLocal_lt hq.mss) ht.pos_le hroom
    have hpsh := hrun.pshLast
    rw [← hbs] at hfits
    rw [← congrArg u32 hbs] at hpsh
    rw [List.nil_append] at hw'
    rw [hw']
    exact .tail hu (List.take_append_drop t.pos data) hg (hfits.imp List.length_eq_zero_iff.mp id) hpsh
  | @stray last hu hl hne =>
    refine .same (List.length_eq_zero_iff.mp (hfit.resolve_right ?_))
    rintro ⟨htail, -⟩
    obtain ⟨l0, hl0⟩ : ∃ l0, pcb.unsent.getLast? = some l0 :=
      Option.isSome_iff_exists.mp (by simpa using hu)
    obtain rfl : l0 = last := Option.some.inj ((htail l0 hl0).1.symm.trans hl)
    exact hne l0 (List.mem_of_getLast? hl0) rfl

theorem WrittenQueue.fits (h : WrittenQueue env pcb data isDummy l) (hq : UnsentQueue pcb)
    (hp : p.unsent = l) (hseg : Segmented pcb data p) : WriteFits pcb data.length isDummy := by
  rcases Nat.eq_zero_or_pos data.length with h0 | h0
  · exact .inl h0
  cases h with
  | @new w hu hw =>
    refine .inr ⟨fun l0 hl0 => ?_, .inl (hseg.room hq (fun s hs => hp ▸ hs) hw h0)⟩
    rw [hu] at hl0
    cases hl0
  | @tail init last last' t w hu hl ht hg hw =>
    have hlast : pcb.unsent.getLast? = some last := by rw [hu, List.getLast?_concat]
    have hle := ht.pos_le
    have hfit := hseg.tail_fits hq hu hp hg
    rw [List.length_take, Nat.min_eq_left hle] at hfit
    refine .inr ⟨fun l0 hl0 => ?_, ?_⟩
    · obtain rfl : last = l0 := Option.some.inj (hlast.symm.trans hl0)
      exact ⟨hl, (ht.fits_iff h0).mp hfit⟩
    · by_cases hall : t.pos = data.length
      · exact .inr ⟨last, hlast, (ht.all_iff h0 hfit).mp hall⟩
      · refine .inl (hseg.room hq (fun s hs => ?_) hw (by omega))
        rw [hp]
        exact List.mem_append_right _ (List.mem_cons_of_mem _ hs)
  | stray =>
    have hpay := hseg.payload
    rw [hp] at hpay
    have hnil : data = [] := List.append_cancel_left (hpay.symm.trans (List.append_nil _).symm)
    rw [hnil] at h0
    exact absurd h0 (lt_irrefl 0)

theorem UnsentQueue.setSmlAdd (hq : UnsentQueue pcb) (n : Nat) (isDummy : Bool) :
    UnsentQueue (pcb.setSmlAdd n isDummy) :=
  ⟨hq.lies, hq.sound, hq.addrs, hq.fresh, hq.mss, hq.oversize⟩

/-- A write that fits leaves segments as `TcpSeg.Built` has them. -/
theorem tcpWrite_built (h : tcpWrite env pcb data isDummy = some (p, .ok)) (hq : UnsentQueue pcb)
    (hfit : WriteFits pcb data.length isDummy) (hb : ∀ s ∈ pcb.unsent, s.Built) :
    ∀ s ∈ p.unsent, s.Built :=
  ((tcpWrite_written h hq).landed (hq.setSmlAdd ..) hfit).built (hq.setSmlAdd ..) hb

end Exact

/-- **`tcp_write` ends, and where it returns `ERR_OK` it cuts the data as it should just if the write
fits.** -/
theorem tcpWrite_segmented_iff {pcb : Pcb} (hq : UnsentQueue pcb) (env : Env) (data : List U8)
    (isDummy : Bool) :
    WriteEnds env (pcb.setSmlAdd data.length isDummy) data isDummy ∧
    ∀ p, tcpWrite env pcb data isDummy = some (p, .ok) →
      (Segmented pcb data p ↔ WriteFits pcb data.length isDummy) := by
  refine ⟨writeEnds _ _ _ _, fun p h => ?_⟩
  have hlbb := (tcpWrite_accepts h).1
  rw [if_pos rfl] at hlbb
  have hq' := hq.setSmlAdd data.length isDummy
  have hsame : Segmented pcb data p ↔ Segmented (pcb.setSmlAdd data.length isDummy) data p :=
    ⟨fun h => ⟨h.payload, h.lbb, h.lies, h.sound, h.fits, h.nonempty⟩,
      fun h => ⟨h.payload, h.lbb, h.lies, h.sound, h.fits, h.nonempty⟩⟩
  have hw := tcpWrite_written h hq
  exact hsame.trans
    ⟨fun hseg => hw.fits hq' rfl hseg, fun hfit => (hw.landed hq' hfit).segmented hq' hlbb⟩

def writtenPcb : Pcb :=
  ((tcpWrite {} { tcpPcbInit { mss := 100 } with
      state := .established, sndWndMax := 1000, sackPermitted := true }
    (List.replicate 90 7) false).map Prod.fst).getD (tcpPcbInit {})

def blockPcb : Pcb := { writtenPcb with rcvSackBlock := [⟨1010, 1020⟩] }

theorem writtenPcb_queue : UnsentQueue writtenPcb :=
  ⟨⟨1, by decide +kernel⟩, by decide +kernel, by decide +kernel, by decide +kernel, by decide +kernel,
    by decide +kernel⟩

theorem blockPcb_queue : UnsentQueue blockPcb :=
  ⟨⟨1, by decide +kernel⟩, by decide +kernel, by decide +kernel, by decide +kernel, by decide +kernel,
    by decide +kernel⟩

/-- Ten bytes fill the tail room, forty go into a new segment. -/
theorem tcpWrite_segmented_fifty :
    ∃ p, tcpWrite {} writtenPcb (List.replicate 50 8) false = some (p, .ok) ∧
      Segmented writtenPcb (List.replicate 50 8) p := by
  have hok : (tcpWrite {} writtenPcb (List.replicate 50 8) false).map Prod.snd = some .ok := by
    decide +kernel
  obtain ⟨⟨p, e⟩, hp, rfl⟩ := Option.map_eq_some_iff.mp hok
  exact ⟨p, hp, ((tcpWrite_segmented_iff writtenPcb_queue {} (List.replicate 50 8) false).2 p hp).mpr
    (by decide +kernel)⟩

/-- With a block to report, the options take 12 bytes of the segment size. The tail holds 90 bytes with
room for ten, so the space behind them is `100 - (90 + 12) - 10` in 16 bits, and all 50 bytes go into
the tail: a segment of 140 bytes where 100 fit. -/
theorem tcpWrite_overlong :
    UnsentQueue blockPcb ∧ ∃ p, tcpWrite {} blockPcb (List.replicate 50 8) false = some (p, .ok) ∧
      p.unsent.map TcpSeg.len = [140] ∧ blockPcb.mssLocal = 100 ∧
      ¬ Segmented blockPcb (List.replicate 50 8) p := by
  have hrun : (tcpWrite {} blockPcb (List.replicate 50 8) false).map
      (fun r => (r.2, r.1.unsent.map fun s => (s.len, s.payload.length))) =
        some (.ok, [(140, 140)]) := by
    decide +kernel
  have hold : ∀ t ∈ blockPcb.unsent, t.payload.length = 90 := by decide +kernel
  have hmss : blockPcb.mssLocal = 100 := by decide +kernel
  obtain ⟨⟨p, e⟩, hp, hr⟩ := Option.map_eq_some_iff.mp hrun
  obtain ⟨rfl, hlens⟩ := Prod.mk.inj hr
  obtain ⟨s, hs, hlen⟩ := List.map_eq_singleton_iff.mp hlens
  have hs : p.unsent = [s] := hs
  obtain ⟨hlen, hpay⟩ := Prod.mk.inj hlen
  refine ⟨blockPcb_queue, p, hp, by rw [hs, List.map_singleton, hlen], hmss, fun h => ?_⟩
  have hfits := h.fits s (hs ▸ List.mem_singleton_self s) fun t ht _ he => by
    have := hold t ht
    rw [he, hpay] at this
    omega
  rw [hpay, hmss] at hfits
  omega

end LibvmaTlt.Lwip
