import LibvmaTlt.Lwip.OutputSpec
import LibvmaTlt.Lwip.WriteSpec

/-!
# Where queued segments lie

The sequence numbers of the segments that `tcp_write` makes, of the two halves of a split and of the
copy that is retransmitted by force. The functions compute lengths in 16 bits and from the option length
of the moment, so each result comes with the condition under which the arithmetic is right.
-/

namespace LibvmaTlt.Lwip

open Serial

abbrev Below (e : U32) (s : TcpSeg) : Prop := Before s.seqno s.len e

/-- The segments lie one behind the other from `a` on, `n` bytes in all. -/
def Tiles (a : U32) (n : Nat) : List TcpSeg → Prop
  | [] => n = 0
  | s :: l => s.seqno = a ∧ s.len ≤ n ∧ Tiles (a + u32 s.len) (n - s.len) l

theorem Tiles.below {l : List TcpSeg} : ∀ {a : U32} {n : Nat}, Tiles a n l → 2 * n < 4294967296 →
    ∀ s ∈ l, Below (a + u32 n) s := by
  induction l with
  | nil =>
    intro a n _ _ s hs
    cases hs
  | cons t rest ih =>
    intro a n ⟨hseq, hle, hrest⟩ hn s hs
    rcases List.mem_cons.mp hs with rfl | hs
    · rw [Below, hseq]
      exact (Before.self a hn).take hle
    · have hend : a + u32 t.len + u32 (n - t.len) = a + u32 n := by
        rw [BitVec.add_assoc, ← BitVec.ofNat_add, Nat.add_sub_cancel' hle]
      rw [← hend]
      exact ih hrest (by omega) s hs

theorem Tiles.congr {l : List TcpSeg} : ∀ {l' : List TcpSeg} {a : U32} {n : Nat},
    l'.map TcpSeg.seqno = l.map TcpSeg.seqno → l'.map TcpSeg.len = l.map TcpSeg.len →
      Tiles a n l → Tiles a n l' := by
  induction l with
  | nil =>
    intro l' a n hs _ h
    rw [List.map_nil, List.map_eq_nil_iff] at hs
    exact hs ▸ h
  | cons s rest ih =>
    intro l' a n hs hl h
    cases l' with
    | nil => cases hs
    | cons s' rest' =>
      obtain ⟨hs1, hs2⟩ := List.cons.inj hs
      obtain ⟨hl1, hl2⟩ := List.cons.inj hl
      obtain ⟨h1, h2, h3⟩ := h
      exact ⟨hs1.trans h1, hl1 ▸ h2, hl1 ▸ ih hs2 hl2 h3⟩

/-! ## `tcp_write` -/

theorem map_pshLast {α : Type} {f : TcpSeg → α} (hf : ∀ s, f s.setPsh = f s) (l : List TcpSeg) :
    (pshLast l).map f = l.map f := by
  rcases List.eq_nil_or_concat l with rfl | ⟨init, x, rfl⟩
  · rfl
  · simp [pshLast, hf]

/-- Option space and MSS leave room for data, and a segment's length fits its field. -/
def SegRoom (pcb : Pcb) (o : SegOpts) : Prop :=
  lwipTcpOptLength pcb o ≤ pcb.mssLocal ∧ pcb.mssLocal < 65536

instance (pcb : Pcb) (o : SegOpts) : Decidable (SegRoom pcb o) := inferInstanceAs (Decidable (_ ∧ _))

variable {env : Env} {pcb : Pcb} {data : List U8}

theorem tcpWriteLoop_tiles {o : SegOpts} :
    ∀ {f n pos : Nat} {w w' : NewSegs}, tcpWriteLoop env o data f n pos w = some w' →
      SegRoom w.pcb o → pos ≤ data.length →
      ∃ l, w'.queue = w.queue ++ l ∧ Tiles (w.pcb.sndLbb + u32 pos) (data.length - pos) l ∧
        (∀ s ∈ l, s.flags = {} ∧ s.opts = o) ∧
        l.map TcpSeg.addr = List.range' w.pcb.nextSeg l.length ∧
        w'.pcb.nextSeg = w.pcb.nextSeg + l.length := by
  intro f
  induction f with
  | zero =>
    intro n pos w w' h
    cases h
  | succ f ih =>
    intro n pos w w' h hroom hpos
    simp only [tcpWriteLoop] at h
    split at h
    · split at h
      · cases h
      -- one more segment of `seglen` bytes
      obtain ⟨h1, h2⟩ := hroom
      generalize hl : min (data.length - pos)
        (u16 (w.pcb.mssLocal + 65536 - lwipTcpOptLength w.pcb o)) = seglen at h
      have hmax : u16 (w.pcb.mssLocal + 65536 - lwipTcpOptLength w.pcb o) =
          w.pcb.mssLocal - lwipTcpOptLength w.pcb o := by
        rw [u16]
        omega
      have hlen : u16 (seglen + lwipTcpOptLength w.pcb o) = seglen + lwipTcpOptLength w.pcb o := by
        rw [u16]
        omega
      have hcreate (payload : List U8) : u16 (pbufTotLen [⟨payload, seglen + lwipTcpOptLength w.pcb o⟩] +
          65536 - lwipTcpOptLength w.pcb o) = seglen := by
        show u16 (seglen + lwipTcpOptLength w.pcb o + 65536 - lwipTcpOptLength w.pcb o) = seglen
        rw [u16]
        omega
      obtain ⟨l, hq, ht, hf, ha, hn⟩ := ih h ⟨h1, h2⟩ (by omega)
      simp only [hlen, tcpCreateSegment, hcreate] at hq ht ha hn
      refine ⟨_ :: l, by rw [hq, List.append_assoc]; rfl, ⟨rfl, by simp only; omega, ?_⟩,
        List.forall_mem_cons.mpr ⟨⟨rfl, rfl⟩, hf⟩, ?_, ?_⟩
      · simp only
        rw [BitVec.add_assoc, ← BitVec.ofNat_add, Nat.sub_sub]
        exact ht
      · rw [List.map_cons, ha]
        rfl
      · rw [hn, List.length_cons]
        omega
    · cases h
      refine ⟨[], (List.append_nil _).symm, ?_, by simp, by simp, rfl⟩
      show data.length - pos = 0
      omega

/-- The last segment takes up data within its 16-bit length. -/
def TailRoom (pcb : Pcb) (last : TcpSeg) (len : Nat) : Prop :=
  last.len + len < 65536 ∨
    (last.len + lwipTcpOptLength pcb last.opts + pcb.unsentOversize ≤ pcb.mssLocal ∧ pcb.mssLocal < 65536)

instance (pcb : Pcb) (last : TcpSeg) (len : Nat) : Decidable (TailRoom pcb last len) :=
  inferInstanceAs (Decidable (_ ∨ _))

theorem tcpWriteTail_pos {last : TcpSeg} {len : Nat} {t : TailWrite}
    (h : tcpWriteTail env pcb last len = some t) (hroom : TailRoom pcb last len) :
    t.pos = t.used + t.concat ∧ t.pos ≤ len ∧ last.len + t.pos < 65536 := by
  unfold tcpWriteTail at h
  simp only at h
  split at h
  · split at h
    · cases h
      refine ⟨rfl, ?_⟩
      simp only
      rcases hroom with hr | ⟨hr, hm⟩
      · omega
      have hspace : u16 (pcb.mssLocal + 2 * 65536 - (last.len + lwipTcpOptLength pcb last.opts)) =
          pcb.mssLocal - (last.len + lwipTcpOptLength pcb last.opts) := by
        rw [u16]
        omega
      rw [hspace]
      have hspace' : u16 (pcb.mssLocal - (last.len + lwipTcpOptLength pcb last.opts) + 65536 -
          min pcb.unsentOversize len) =
          pcb.mssLocal - (last.len + lwipTcpOptLength pcb last.opts) - min pcb.unsentOversize len := by
        rw [u16]
        omega
      rw [hspace']
      omega
    · cases h
  · cases h
    refine ⟨rfl, ?_⟩
    simp only
    rcases hroom with hr | ⟨hr, hm⟩ <;> omega

theorem extend_len {s : TcpSeg} {t : TailWrite} (data : List U8) (hp : t.pos = t.used + t.concat)
    (h : s.len + t.pos < 65536) : (s.extend data t).len = s.len + t.pos := by
  rw [hp] at h ⊢
  unfold TcpSeg.extend
  by_cases hu : t.used = 0 <;> by_cases hc : t.concat = 0 <;>
    simp only [hu, hc, if_true, if_false, u16] <;> omega

/-- A write to this pcb finds the last unsent segment and computes with lengths that fit. -/
def WriteRoom (pcb : Pcb) (len : Nat) (isDummy : Bool) : Prop :=
  SegRoom pcb (writeOpts pcb isDummy) ∧
    ∀ last ∈ pcb.unsent.getLast?, pcb.lastUnsentSeg = some last ∧ TailRoom pcb last len

structure Extends (last last' : TcpSeg) (k : Nat) : Prop where
  addr : last'.addr = last.addr
  seqno : last'.seqno = last.seqno
  len : last'.len = last.len + k
  opts : last'.opts = last.opts
  fin : last'.flags.fin = last.flags.fin
  syn : last'.flags.syn = last.flags.syn

/-- Segments behind one another from `a` on, fresh and without flags but PSH. -/
structure NewData (pcb : Pcb) (o : SegOpts) (a : U32) (n : Nat) (l : List TcpSeg) : Prop where
  tiles : Tiles a n l
  plain : ∀ s ∈ l, s.flags.fin = false ∧ s.flags.syn = false ∧ s.opts = o
  addrs : l.map TcpSeg.addr = List.range' pcb.nextSeg l.length

theorem tcpWriteLoop_newData {o : SegOpts} {f n pos ql ov : Nat} {w : NewSegs}
    (h : tcpWriteLoop env o data f n pos ⟨pcb, [], ql, ov⟩ = some w) (hroom : SegRoom pcb o)
    (hpos : pos ≤ data.length) :
    NewData pcb o (pcb.sndLbb + u32 pos) (data.length - pos) (pshLast w.queue) ∧
      w.pcb.nextSeg = pcb.nextSeg + (pshLast w.queue).length := by
  obtain ⟨l, hq, ht, hf, ha, hn⟩ := tcpWriteLoop_tiles h hroom hpos
  rw [List.nil_append] at hq
  subst hq
  have hlen : (pshLast w.queue).length = w.queue.length := by
    rw [← List.length_map (fun _ => ()), map_pshLast (fun _ => rfl), List.length_map]
  refine ⟨⟨ht.congr (map_pshLast (fun _ => rfl) _) (map_pshLast (fun _ => rfl) _), fun s hs => ?_, ?_⟩, ?_⟩
  · rcases mem_pshLast hs with hs | ⟨t, ht, rfl⟩
    · rw [(hf s hs).1, (hf s hs).2]
      exact ⟨rfl, rfl, rfl⟩
    · have := hf t ht
      exact ⟨by rw [TcpSeg.setPsh, this.1], by rw [TcpSeg.setPsh, this.1], this.2⟩
  · rw [map_pshLast (fun _ => rfl), hlen]
    exact ha
  · rw [hlen]
    exact hn

/-- What a write leaves: new segments on an empty queue, or an extension of the last segment with new
ones behind it. -/
structure Wrote (pcb : Pcb) (o : SegOpts) (len : Nat) (p : Pcb) : Prop where
  unacked : p.unacked = pcb.unacked
  sndLbb : p.sndLbb = pcb.sndLbb + u32 len
  unsent : (pcb.unsent = [] ∧ NewData pcb o pcb.sndLbb len p.unsent ∧
      p.nextSeg = pcb.nextSeg + p.unsent.length) ∨
    ∃ last last' k l, pcb.unsent.getLast? = some last ∧ Extends last last' k ∧ k ≤ len ∧
      p.unsent = replaceSeg last' pcb.unsent ++ l ∧ NewData pcb o (pcb.sndLbb + u32 k) (len - k) l ∧
      p.nextSeg = pcb.nextSeg + l.length

theorem tcpWrite_wrote {p : Pcb} {isDummy : Bool} (h : tcpWrite env pcb data isDummy = some (p, .ok))
    (hroom : WriteRoom pcb data.length isDummy) :
    Wrote pcb (writeOpts pcb isDummy) data.length p := by
  have hlbb := (tcpWrite_accepts h).1
  rw [if_pos rfl] at hlbb
  obtain ⟨hseg, htail⟩ := hroom
  rcases tcpWrite_cases h with ⟨he, -⟩ | ⟨-, hu, w, hw, rfl⟩ | ⟨-, hu, last, t, w, ⟨hl, ht, hw⟩, rfl⟩
  · exact absurd rfl he
  · obtain ⟨hnew, hn⟩ := tcpWriteLoop_newData hw hseg (Nat.zero_le _)
    rw [BitVec.add_zero, Nat.sub_zero] at hnew
    exact ⟨rfl, hlbb, .inl ⟨hu, ⟨hnew.tiles, hnew.plain, hnew.addrs⟩, hn⟩⟩
  · obtain ⟨l0, hl0⟩ : ∃ l0, pcb.unsent.getLast? = some l0 :=
      Option.isSome_iff_exists.mp (by simpa using hu)
    obtain ⟨hlast, hr⟩ := htail l0 hl0
    obtain rfl : l0 = last := Option.some.inj (hlast.symm.trans hl)
    obtain ⟨hpos, hle, hlt⟩ := tcpWriteTail_pos ht hr
    obtain ⟨hnew, hn⟩ := tcpWriteLoop_newData hw hseg hle
    unfold tcpWriteCommit at hlbb ⊢
    simp only at hlbb ⊢
    -- the tail as it is put back: extended, with PSH if nothing follows it
    generalize hL : (if (decide (0 < pcb.unsentOversize) || decide (t.concat ≠ 0)) = true ∧ w.queue = [] then
      (l0.extend data t).setPsh else l0.extend data t) = last' at hlbb ⊢
    have hext : Extends l0 last' t.pos := by
      obtain ⟨haddr, hseq, hflags, hopts, -⟩ := extend_frame l0 data t
      have hfin : (l0.extend data t).flags.fin = l0.flags.fin := by rw [hflags]
      have hsyn : (l0.extend data t).flags.syn = l0.flags.syn := by rw [hflags]
      rw [← hL]
      split
      · exact ⟨haddr, hseq, extend_len data hpos hlt, hopts, hfin, hsyn⟩
      · exact ⟨haddr, hseq, extend_len data hpos hlt, hopts, hfin, hsyn⟩
    have hmem : ∃ s ∈ pcb.unsent, s.addr = last'.addr :=
      ⟨l0, List.mem_of_getLast? hl0, hext.addr.symm⟩
    rw [appendAfter_unsent (by exact hmem)] at hlbb ⊢
    exact ⟨rfl, hlbb, .inr ⟨l0, last', t.pos, pshLast w.queue, hl0, hext, hle, rfl,
      ⟨hnew.tiles, hnew.plain, hnew.addrs⟩, hn⟩⟩

/-! ## `tcp_split_segment` -/

/-- The segment was made with the option space that the pcb has now, has data in its first pbuf, and if
it has more pbufs there is no option space at all. -/
def Splittable (pcb : Pcb) (s : TcpSeg) : Prop :=
  Consistent s.p ∧ pbufLen s.p = tcpHlen + lwipTcpOptLength pcb pcb.dataOpts + s.len ∧
    pbufLen s.p < 65536 ∧
    tcpHlen + lwipTcpOptLength pcb pcb.dataOpts < (s.p.head?.map Pbuf.len).getD 0 ∧
    (s.p.length = 1 ∨ lwipTcpOptLength pcb pcb.dataOpts = 0)

instance (pcb : Pcb) (s : TcpSeg) : Decidable (Splittable pcb s) := inferInstanceAs (Decidable (_ ∧ _))

structure Halves (seg : TcpSeg) (lts : U32) (a b : TcpSeg) : Prop where
  seqno : a.seqno = seg.seqno ∧ b.seqno = seg.seqno + u32 a.len
  len : 0 < a.len ∧ a.len + b.len = seg.len ∧ a.len ≤ lts.toNat
  opts : a.opts = seg.opts ∧ b.opts = seg.opts

theorem splitCut_halves {n : Nat} {seg : TcpSeg} {lts : U32} {s : SplitSegs}
    (h : splitCut env n pcb seg lts = some s) (hs : Splittable pcb seg) (hlts : 0 < lts.toNat)
    (hfit : lts.toNat < seg.len) : Halves seg lts s.seg s.newseg := by
  obtain ⟨-, -, -, ho1, ho2, hseq⟩ := splitCut_frame h
  obtain ⟨hc, hlen, hlt, hhdr, hone⟩ := hs
  suffices hk : s.newseg.seqno = seg.seqno + u32 s.seg.len ∧ 0 < s.seg.len ∧
      s.seg.len + s.newseg.len = seg.len ∧ s.seg.len ≤ lts.toNat from
    ⟨⟨hseq, hk.1⟩, hk.2, ho1, ho2⟩
  unfold splitCut at h
  cases hp : seg.p with
  | nil => simp [hp] at h
  | cons p0 rest =>
    have htot := hc.totLen
    rw [hp, pbufLen_cons] at hlen hlt
    rw [hp, pbufTotLen_cons] at htot
    simp only [hp, List.head?_cons, Option.map_some, Option.getD_some] at h hhdr
    simp only [tcpHlen] at hlen hhdr h
    split at h
    · -- inside the first pbuf
      split at h
      · cases h
      cases h
      have hl : (p0.len - (p0.len - (20 + lwipTcpOptLength pcb pcb.dataOpts) - lts.toNat) -
          (20 + lwipTcpOptLength pcb pcb.dataOpts)) % 65536 = lts.toNat := by omega
      simp only [u16, tcpCreateSegment, pbufTotLen_cons, hl, u32, BitVec.ofNat_toNat,
        BitVec.setWidth_eq]
      refine ⟨trivial, hlts, ?_, le_rfl⟩
      rw [htot, pbufLen_cons]
      omega
    · split at h
      · cases h
      split at h
      · cases h
      rename_i headlen front back hw
      split at h
      · cases h
      cases h
      -- between two pbufs, none of which has option space
      have hopt := hone.resolve_left (by rw [hp]; simpa using ‹¬rest = []›)
      obtain ⟨mid, -, hmid, -, hh⟩ := splitWalk_spec hw
      have hle := splitWalk_le hw (by omega) (by omega) (by omega)
      have hback : pbufTotLen back = pbufLen back := by
        refine (Consistent.of_append (a := p0 :: mid) ?_).totLen
        rw [List.cons_append, ← hmid, ← hp]
        exact hc
      rw [hmid, pbufLen_append] at hlen hlt
      have hl : (headlen + 65536 - (20 + 0)) % 65536 = headlen - 20 := by omega
      have hseq' : u32 headlen - u32 (20 + 0) = u32 (headlen - 20) := u32_sub (by omega)
      simp only [u16, tcpCreateSegment, hback, hopt, hl, hseq']
      refine ⟨trivial, ?_, ?_, ?_⟩ <;> omega

/-! ## The copy of a forced retransmission -/

theorem forceCopy_spec {seq : U32} {target : TcpSeg} (h : forceTarget pcb seq = some target) :
    target ∈ pcb.unacked ∧ (forceCopy env pcb seq target).flags = {} ∧
      (forceCopy env pcb seq target).opts = target.opts ∧
      ∃ k, k + (forceCopy env pcb seq target).len ≤ target.len ∧
        (forceCopy env pcb seq target).seqno = target.seqno + u32 k := by
  have hmem := List.mem_of_find?_eq_some h
  have hin := List.find?_some h
  simp only [Bool.and_eq_true, decide_eq_true_eq, BitVec.le_def] at hin
  obtain ⟨h1, h2⟩ := hin
  have hlen : (forceCopy env pcb seq target).len ≤ (target.dataEnd - seq).toNat := by
    show u16 (forceTargetLen pcb seq target + lwipTcpOptLength pcb pcb.dataOpts + 65536 -
      lwipTcpOptLength pcb pcb.dataOpts) ≤ _
    have hle : forceTargetLen pcb seq target ≤ (target.dataEnd - seq).toNat := Nat.min_le_right _ _
    rw [u16]
    omega
  refine ⟨hmem, rfl, rfl, (seq - target.seqno).toNat, ?_, ?_⟩
  · have hk : (seq - target.seqno).toNat + (target.dataEnd - seq).toNat ≤ target.len := by
      have hseq := seq.isLt
      have hend : target.dataEnd.toNat ≤ target.seqno.toNat + target.len := by
        rw [TcpSeg.dataEnd, BitVec.toNat_add, u32, BitVec.toNat_ofNat]
        exact (Nat.mod_le _ _).trans (Nat.add_le_add_left (Nat.mod_le _ _) _)
      rw [BitVec.toNat_sub_of_le h1, BitVec.toNat_sub_of_le h2]
      omega
    omega
  · show seq = _
    rw [u32, BitVec.ofNat_toNat, BitVec.setWidth_eq, BitVec.add_comm, BitVec.sub_add_cancel]

theorem forceCopy_below {seq e : U32} {target : TcpSeg} (h : forceTarget pcb seq = some target)
    (hb : Below e target) :
    Below e (forceCopy env pcb seq target) := by
  obtain ⟨-, -, -, k, hk, hseq⟩ := @forceCopy_spec env pcb seq target h
  rw [Below, hseq]
  exact (hb.drop (by omega)).take (by omega)

end LibvmaTlt.Lwip
