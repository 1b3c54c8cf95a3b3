import LibvmaTlt.Lwip.Options
import LibvmaTlt.Lwip.QueueSpec

/-!
# What a queued segment holds

The chain of a segment starts with the TCP header and room for the options that its header length
counts; the data follows. `Sound` says that the chain holds what the segment's length says, `Built` how
`tcp_write` lays the chain out.
-/

namespace LibvmaTlt.Lwip

def TcpSeg.optBytes (s : TcpSeg) : Nat := 4 * s.hdrlen - tcpHlen

/-- The data of a segment: what follows the header and the options in its chain. -/
def TcpSeg.payload (s : TcpSeg) : List U8 := (pbufBytes s.p).drop (4 * s.hdrlen)

def TcpSeg.firstPbuf (s : TcpSeg) : List U8 := (s.p.head?.map Pbuf.payload).getD []

/-- A segment has a full header and `len` bytes of data. -/
@[mk_iff]
structure TcpSeg.Sound (s : TcpSeg) : Prop where
  hdrlen : 5 ≤ s.hdrlen
  bytes : (pbufBytes s.p).length = 4 * s.hdrlen + s.len
  len : s.len < 65536

instance (s : TcpSeg) : Decidable s.Sound :=
  decidable_of_iff' _ (TcpSeg.sound_iff s)

variable {s : TcpSeg}

theorem TcpSeg.Sound.length_payload (h : s.Sound) : s.payload.length = s.len := by
  rw [TcpSeg.payload, List.length_drop, h.bytes, Nat.add_sub_cancel_left]

theorem TcpSeg.Sound.p_ne_nil (h : s.Sound) : s.p ≠ [] := by
  intro hp
  have hb := h.bytes
  have hl := h.hdrlen
  rw [hp, pbufBytes_nil, List.length_nil] at hb
  omega

theorem TcpSeg.Sound.hdr_eq (h : s.Sound) : 4 * s.hdrlen = tcpHlen + s.optBytes := by
  have hl := h.hdrlen
  rw [TcpSeg.optBytes, tcpHlen]
  omega

/-! ## Chains -/

/-- The `tot_len` fields agree and each pbuf behind the first holds data. -/
@[mk_iff]
structure ChainOk (p : List Pbuf) : Prop where
  totLen : Consistent p
  chained : ∀ q ∈ p.tail, 0 < q.len

instance (p : List Pbuf) : Decidable (ChainOk p) :=
  decidable_of_iff' _ (chainOk_iff p)

variable {p : List Pbuf}

theorem Consistent.fillTail (h : Consistent p) (bs : List U8) : Consistent (fillTail bs p) := by
  induction p with
  | nil => trivial
  | cons q rest ih =>
    cases rest with
    | nil =>
      refine ⟨?_, trivial⟩
      show q.totLen + bs.length = (q.payload ++ bs).length + 0
      have := h.1
      simp only [pbufLen_nil, Pbuf.len] at this
      rw [List.length_append, this]
      omega
    | cons r rest =>
      refine ⟨?_, ih h.2⟩
      show q.totLen + bs.length = q.len + pbufLen (Lwip.fillTail bs (r :: rest))
      rw [← length_pbufBytes, pbufBytes_fillTail _ (List.cons_ne_nil r rest), List.length_append,
        length_pbufBytes, h.1, Nat.add_assoc]

variable {bs : List U8} {optlen : Nat}

theorem fillTail_pos (h : ∀ q ∈ p, 0 < q.len) : ∀ q ∈ fillTail bs p, 0 < q.len := by
  induction p with
  | nil => exact h
  | cons q rest ih =>
    obtain ⟨hq, hrest⟩ := List.forall_mem_cons.mp h
    cases rest with
    | nil =>
      refine List.forall_mem_cons.mpr ⟨?_, by simp⟩
      show 0 < (q.payload ++ bs).length
      rw [List.length_append]
      exact Nat.add_pos_left hq _
    | cons r rest => exact List.forall_mem_cons.mpr ⟨hq, ih hrest⟩

theorem ChainOk.fillTail (h : ChainOk p) (bs : List U8) : ChainOk (fillTail bs p) := by
  refine ⟨h.totLen.fillTail bs, ?_⟩
  match p, h with
  | [], _ => simp [Lwip.fillTail]
  | [q], _ => simp [Lwip.fillTail]
  | q :: r :: rest, h => exact fillTail_pos h.chained

theorem ChainOk.pbufCat (h : ChainOk p) {bs : List U8} {k : Nat} (hk : bs.length = k)
    (hpos : 0 < k) : ChainOk (pbufCat p [⟨bs, k⟩]) := by
  have hone : Consistent [⟨bs, k⟩] := ⟨hk.symm, trivial⟩
  refine ⟨h.totLen.pbufCat hone, ?_⟩
  cases p with
  | nil => simp [Lwip.pbufCat]
  | cons q rest =>
    intro x hx
    rcases List.mem_append.mp hx with hx | hx
    · obtain ⟨y, hy, rfl⟩ := List.mem_map.mp hx
      exact h.chained y hy
    · rw [List.mem_singleton.mp hx]
      exact hk ▸ hpos

/-! ## What `tcp_write` builds -/

/-- A segment as `tcp_write` lays it out: header, option room and some data in the first pbuf, and more
data in each pbuf behind it. -/
@[mk_iff]
structure TcpSeg.Built (s : TcpSeg) : Prop where
  sound : s.Sound
  hdrlen : s.hdrlen ≤ 15
  room : s.optBytes + s.len < 65536
  chain : ChainOk s.p
  first : 4 * s.hdrlen < s.firstPbuf.length

instance (s : TcpSeg) : Decidable s.Built :=
  decidable_of_iff' _ (TcpSeg.built_iff s)

theorem Made.payload_eq (h : Made optlen optlen bs s) (hopt : optlen % 4 = 0) : s.payload = bs := by
  obtain ⟨hh, hdr, r, h1, h2, hb⟩ := h
  have hl : 4 * s.hdrlen = (hdr ++ r).length := by
    rw [hh, List.length_append, h1, h2, tcpHlen]
    omega
  rw [TcpSeg.payload, hb, ← List.append_assoc, hl, List.drop_left]

theorem Made.optBytes_eq {room : Nat} (h : Made optlen room bs s) (hopt : optlen % 4 = 0) :
    s.optBytes = optlen := by
  rw [TcpSeg.optBytes, h.hdrlen, tcpHlen]
  omega

theorem Made.sound (h : Made optlen optlen bs s) (hopt : optlen % 4 = 0) (hlen : s.len = bs.length)
    (hlt : s.len < 65536) : s.Sound := by
  obtain ⟨hh, hdr, r, h1, h2, hb⟩ := h
  refine ⟨by omega, ?_, hlt⟩
  rw [hb, List.length_append, List.length_append, h1, h2, hh, hlen, tcpHlen]
  omega

/-! ## Queues -/

/-- The segments lie behind one another from `a` to `e`. -/
def Lies : U32 → List TcpSeg → U32 → Prop
  | a, [], e => a = e
  | a, s :: l, e => s.seqno = a ∧ Lies s.seqEnd l e

instance : (a : U32) → (l : List TcpSeg) → (e : U32) → Decidable (Lies a l e)
  | a, [], e => inferInstanceAs (Decidable (a = e))
  | a, s :: l, e =>
    have : Decidable (Lies s.seqEnd l e) := instDecidableLies s.seqEnd l e
    inferInstanceAs (Decidable (s.seqno = a ∧ Lies s.seqEnd l e))

theorem lies_append {l l' : List TcpSeg} : ∀ {a e : U32},
    Lies a (l ++ l') e ↔ ∃ m, Lies a l m ∧ Lies m l' e := by
  induction l with
  | nil =>
    intro a e
    exact ⟨fun h => ⟨a, rfl, h⟩, fun ⟨m, hm, h⟩ => hm ▸ h⟩
  | cons s l ih =>
    intro a e
    refine ⟨fun ⟨hs, h⟩ => ?_, fun ⟨m, ⟨hs, hl⟩, h⟩ => ⟨hs, ih.mpr ⟨m, hl, h⟩⟩⟩
    obtain ⟨m, hl, h'⟩ := ih.mp h
    exact ⟨m, ⟨hs, hl⟩, h'⟩

def queuePayload (l : List TcpSeg) : List U8 := l.flatMap TcpSeg.payload

@[simp] theorem queuePayload_nil : queuePayload [] = [] := rfl

@[simp] theorem queuePayload_append (l l' : List TcpSeg) :
    queuePayload (l ++ l') = queuePayload l ++ queuePayload l' := List.flatMap_append

@[simp] theorem queuePayload_cons (s : TcpSeg) (l : List TcpSeg) :
    queuePayload (s :: l) = s.payload ++ queuePayload l := List.flatMap_cons

end LibvmaTlt.Lwip
