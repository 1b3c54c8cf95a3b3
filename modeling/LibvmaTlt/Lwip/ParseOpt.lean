import LibvmaTlt.Lwip.TcpIn

/-!
# What `tcp_parseopt` reads

`Reads l F`: `tcp_parseopt` reads the bytes `l` as the change `F` of what it has gathered. Each option
the stack builds has such a lemma, and they compose, so the options of a whole packet are read as a
composition.
-/

namespace LibvmaTlt.Lwip

/-! ## Bytes in memory -/

/-- The memory at offset `c` starts with the bytes `l`. -/
def HoldsAt (m : Nat → U8) (c : Nat) (l : List U8) : Prop :=
  ∀ (i : Nat) (h : i < l.length), m (c + i) = l[i]

variable {c k : Nat} {m : Nat → U8} {l : List U8}

theorem holdsAt_append {a b : List U8} :
    HoldsAt m c (a ++ b) ↔ HoldsAt m c a ∧ HoldsAt m (c + a.length) b := by
  constructor
  · intro h
    refine ⟨fun i hi => ?_, fun i hi => ?_⟩
    · rw [h i (by simp; omega), List.getElem_append_left hi]
    · rw [Nat.add_assoc, h (a.length + i) (by simp; omega), List.getElem_append_right (by omega)]
      simp
  · rintro ⟨ha, hb⟩ i hi
    by_cases hlt : i < a.length
    · rw [ha i hlt, List.getElem_append_left hlt]
    · have := hb (i - a.length) (by simp at hi; omega)
      rw [show c + a.length + (i - a.length) = c + i by omega] at this
      rw [this, List.getElem_append_right (by omega)]

@[simp] theorem holdsAt_nil (m : Nat → U8) (c : Nat) : HoldsAt m c [] :=
  fun _ h => absurd h (Nat.not_lt_zero _)

@[simp] theorem holdsAt_cons {x : U8} : HoldsAt m c (x :: l) ↔ m c = x ∧ HoldsAt m (c + 1) l := by
  rw [show x :: l = [x] ++ l from rfl, holdsAt_append]
  refine and_congr_left fun _ => ⟨fun h => h 0 (by simp), fun h i hi => ?_⟩
  obtain rfl : i = 0 := by simpa using hi
  exact h

@[simp] theorem length_be32 (w : U32) : (be32 w).length = 4 := rfl

theorem beWord_of_holdsAt {w : U32} (h : HoldsAt m c (be32 w)) : beWord m c = w := by
  simp only [be32, holdsAt_cons, holdsAt_nil, and_true] at h
  obtain ⟨h0, h1, h2, h3⟩ := h
  unfold beWord
  rw [h0, h1, h2, h3]
  ext i hi
  simp only [BitVec.getElem_append, BitVec.getElem_setWidth, BitVec.getLsbD_ushiftRight]
  -- byte by byte, the bit `i` of the word
  split
  · exact BitVec.getLsbD_eq_getElem hi
  split
  · rw [show 8 + (i - 8) = i by omega]
    exact BitVec.getLsbD_eq_getElem hi
  split
  · rw [show 16 + (i - 8 - 8) = i by omega]
    exact BitVec.getLsbD_eq_getElem hi
  · rw [show 24 + (i - 8 - 8 - 8) = i by omega]
    exact BitVec.getLsbD_eq_getElem hi

theorem be32_eq (w : U32) :
    be32 w = [BitVec.ofNat 8 (w.toNat / 16777216), BitVec.ofNat 8 (w.toNat / 65536),
      BitVec.ofNat 8 (w.toNat / 256), BitVec.ofNat 8 w.toNat] := by
  simp only [be32, List.cons.injEq, and_true]
  refine ⟨?_, ?_, ?_, ?_⟩ <;> apply BitVec.eq_of_toNat_eq <;>
    simp [Nat.shiftRight_eq_div_pow]

theorem u8_congr {a b : Nat} (h : a % 256 = b % 256) : BitVec.ofNat 8 a = BitVec.ofNat 8 b := by
  apply BitVec.eq_of_toNat_eq
  simpa using h

theorem toNat_tag_or {tag x : Nat} (hx : x < 2 ^ k) (h : 2 ^ k * tag + x < 4294967296) :
    (u32 (2 ^ k * tag) ||| u32 x).toNat = 2 ^ k * tag + x := by
  simp only [u32, BitVec.toNat_or, BitVec.toNat_ofNat]
  rw [Nat.mod_eq_of_lt (by omega), Nat.mod_eq_of_lt (by omega), Nat.two_pow_add_eq_or_of_lt hx]

theorem be32_mss {mss : Nat} (h : mss < 65536) :
    be32 (0x02040000 ||| u32 mss) = [2, 4, BitVec.ofNat 8 (mss / 256), BitVec.ofNat 8 mss] := by
  have hw : (0x02040000 ||| u32 mss : U32).toNat = 33816576 + mss :=
    @toNat_tag_or 16 516 mss (by omega) (by omega)
  rw [be32_eq, hw]
  simp only [List.cons.injEq, and_true]
  exact ⟨@u8_congr _ 2 (by omega), @u8_congr _ 4 (by omega), u8_congr (by omega),
    u8_congr (by omega)⟩

theorem be32_wndscale (h : k < 256) : be32 (0x01030300 ||| u32 k) = [1, 3, 3, BitVec.ofNat 8 k] := by
  have hw : (0x01030300 ||| u32 k : U32).toNat = 16974592 + k :=
    @toNat_tag_or 8 66307 k (by omega) (by omega)
  rw [be32_eq, hw]
  simp only [List.cons.injEq, and_true]
  exact ⟨@u8_congr _ 1 (by omega), @u8_congr _ 3 (by omega), @u8_congr _ 3 (by omega),
    u8_congr (by omega)⟩

theorem be32_sack {n : Nat} (h : n ≤ 4) :
    be32 (0x01010500 ||| u32 (n * 8 + 2)) = [1, 1, 5, BitVec.ofNat 8 (n * 8 + 2)] := by
  interval_cases n <;> decide

/-! ## Reading one option -/

/-- What `tcp_parseopt` gathers: the pcb, and the SACK blocks. -/
abbrev Gathered := Pcb × List TcpSackBlock

/-- `sack_permitted` is taken from a SYN. -/
def parseSackPerm (d : InData) (pcb : Pcb) : Pcb :=
  if d.hdr.flags.syn then { pcb with sackPermitted := true } else pcb

/-- What a pass of the loop does: it returns, it writes past `sack_block`, or it goes on at an index
with a change of what it has gathered. -/
inductive ParsePass where
  | done
  | overflow
  | next (c : Nat) (F : Gathered → Gathered)

def parsePass (env : Env) (m : Nat → U8) (maxC : Nat) (d : InData) (c : Nat) : ParsePass :=
  let len := (m (c + 1)).toNat
  match (m c).toNat with
  | 0 => .done
  | 1 => .next (c + 1) id
  | 2 =>
    if len ≠ 4 ∨ c + 4 > maxC then .done
    else .next (c + 4) (Prod.map (parseMss d ((m (c + 2)).toNat * 256 + (m (c + 3)).toNat)) id)
  | 3 =>
    if len ≠ 3 ∨ c + 3 > maxC then .done
    else .next (c + 3) (Prod.map (parseWndScale env d (m (c + 2)).toNat) id)
  | 4 => .next (c + 2) (Prod.map (parseSackPerm d) id)
  | 5 =>
    if len ≥ 10 then
      if 4 < (len - 2) / 8 then .overflow
      else .next (c + 2 + 8 * ((len - 2) / 8)) fun s => (s.1, sackBlocksAt m ((len - 2) / 8) (c + 2))
    else .next (c + len) id
  | 8 =>
    if len ≠ 10 ∨ c + 10 > maxC then .done
    else .next (c + 10) (Prod.map (parseTs d (beWord m (c + 2))) id)
  | _ => if len = 0 then .done else .next (c + len) id

theorem parseoptKind (k : Nat) : k = 0 ∨ k = 1 ∨ k = 2 ∨ k = 3 ∨ k = 4 ∨ k = 5 ∨ k = 8 ∨
    (k ≠ 0 ∧ k ≠ 1 ∧ k ≠ 2 ∧ k ≠ 3 ∧ k ≠ 4 ∧ k ≠ 5 ∧ k ≠ 8) := by
  omega

theorem parseoptLoop_succ (env : Env) (m : Nat → U8) {maxC : Nat} (d : InData) (f : Nat) (s : Gathered)
    (hc : c < maxC) :
    parseoptLoop env m maxC d (f + 1) c s.1 s.2 =
      match parsePass env m maxC d c with
      | .done => some s
      | .overflow => none
      | .next e F => parseoptLoop env m maxC d f e (F s).1 (F s).2 := by
  rw [parseoptLoop, if_pos hc]
  unfold parsePass
  generalize (m c).toNat = k
  rcases parseoptKind k with rfl | rfl | rfl | rfl | rfl | rfl | rfl | ⟨h0, h1, h2, h3, h4, h5, h8⟩
  · rfl
  · rfl
  · simp only
    split <;> rfl
  · simp only
    split <;> rfl
  · rfl
  · simp only
    split
    · split <;> rfl
    · rfl
  · simp only
    split <;> rfl
  · simp only
    split <;> rfl

theorem parseoptLoop_end (env : Env) (m : Nat → U8) {maxC : Nat} (d : InData) (hc : maxC ≤ c) (f : Nat)
    (pcb : Pcb) (sack : List TcpSackBlock) :
    parseoptLoop env m maxC d f c pcb sack = some (pcb, sack) := by
  cases f with
  | zero | succ => rw [parseoptLoop, if_neg (by omega)]

variable {F : Gathered → Gathered}

section Reads

variable {env : Env} {d : InData}

/-- From offset `c` on, the loop ends with `r`, however many passes it may make beyond the bytes that
are left. -/
def Parses (env : Env) (d : InData) (m : Nat → U8) (maxC c : Nat) (s r : Gathered) : Prop :=
  ∀ f, maxC ≤ f + c → parseoptLoop env m maxC d f c s.1 s.2 = some r

/-- The bytes `l` are read as the change `F`, wherever they stand in the options. -/
def Reads (env : Env) (d : InData) (l : List U8) (F : Gathered → Gathered) : Prop :=
  ∀ (m : Nat → U8) (maxC c : Nat) (s r : Gathered), HoldsAt m c l → c + l.length ≤ maxC →
    Parses env d m maxC (c + l.length) (F s) r → Parses env d m maxC c s r

theorem Reads.nil : Reads env d [] id := fun _ _ _ _ _ _ _ h => h

theorem Reads.append {a b : List U8} {G : Gathered → Gathered} (ha : Reads env d a F)
    (hb : Reads env d b G) : Reads env d (a ++ b) (G ∘ F) := by
  intro m maxC c s r hm hc h
  rw [holdsAt_append] at hm
  rw [List.length_append] at hc h
  refine ha m maxC c s r hm.1 (by omega) (hb m maxC _ _ r hm.2 (by omega) ?_)
  rw [Nat.add_assoc]
  exact h

theorem Reads.ite {b : Bool} (h : b = true → Reads env d l F) :
    Reads env d (if b then l else []) (if b then F else id) := by
  cases b with
  | true => exact h rfl
  | false => exact Reads.nil

theorem Reads.tcpParseopt {l : List U8} {F : Gathered → Gathered} (h : Reads env d l F)
    {m : Nat → U8} (hm : HoldsAt m 0 l) (hlen : (d.hdr.hdrlen - 5) * 4 = l.length) (pcb : Pcb) :
    tcpParseopt env m pcb d = some (F (pcb, [])) := by
  unfold Lwip.tcpParseopt
  rw [hlen]
  refine h m l.length 0 (pcb, []) _ hm (by omega) (fun f _ => ?_) l.length (by omega)
  exact parseoptLoop_end env m d (by omega) f _ _

theorem reads_pass (hl : 0 < l.length)
    (h : ∀ (m : Nat → U8) (maxC c : Nat), HoldsAt m c l → c + l.length ≤ maxC →
      parsePass env m maxC d c = .next (c + l.length) F) :
    Reads env d l F := by
  intro m maxC c s r hm hc hp f hf
  obtain ⟨f, rfl⟩ : ∃ g, f = g + 1 := ⟨f - 1, by omega⟩
  rw [parseoptLoop_succ env m d f s (by omega), h m maxC c hm hc]
  exact hp f (by omega)

theorem reads_nop : Reads env d [1] id := by
  apply reads_pass (by simp)
  intro m maxC c hm hc
  simp only [holdsAt_cons, holdsAt_nil, and_true, List.length_cons, List.length_nil] at hm hc
  simp [parsePass, hm]

theorem reads_mss {mss : Nat} (h : mss < 65536) :
    Reads env d (be32 (0x02040000 ||| u32 mss)) (Prod.map (parseMss d mss) id) := by
  rw [be32_mss h]
  apply reads_pass (by simp)
  intro m maxC c hm hc
  simp only [holdsAt_cons, holdsAt_nil, and_true, List.length_cons, List.length_nil] at hm hc
  obtain ⟨h0, h1, h2, h3⟩ := hm
  have hmss : mss / 256 % 256 * 256 + mss % 256 = mss := by omega
  simp [parsePass, h0, h1, h2, h3, hmss]
  omega

theorem reads_wndscale (h : k < 256) :
    Reads env d (be32 (0x01030300 ||| u32 k)) (Prod.map (parseWndScale env d k) id) := by
  have hopt : Reads env d [3, 3, BitVec.ofNat 8 k] (Prod.map (parseWndScale env d k) id) := by
    apply reads_pass (by simp)
    intro m maxC c hm hc
    simp only [holdsAt_cons, holdsAt_nil, and_true, List.length_cons, List.length_nil] at hm hc
    obtain ⟨h0, h1, h2⟩ := hm
    simp [parsePass, h0, h1, h2, Nat.mod_eq_of_lt h]
    omega
  rw [be32_wndscale h]
  exact reads_nop.append hopt

theorem reads_ts (v w : U32) :
    Reads env d (be32 0x0101080A ++ be32 v ++ be32 w) (Prod.map (parseTs d v) id) := by
  have hopt : Reads env d (8 :: 10 :: (be32 v ++ be32 w)) (Prod.map (parseTs d v) id) := by
    apply reads_pass (by simp)
    intro m maxC c hm hc
    simp only [holdsAt_cons, holdsAt_append, List.length_cons, List.length_append, length_be32]
      at hm hc
    obtain ⟨h0, h1, h2, -⟩ := hm
    simp [parsePass, h0, h1, beWord_of_holdsAt h2]
    omega
  have htag : be32 0x0101080A = [1] ++ ([1] ++ [8, 10]) := by decide
  rw [htag]
  exact reads_nop.append (reads_nop.append hopt)

theorem reads_sackPerm : Reads env d tcpBuildSackPermOption (Prod.map (parseSackPerm d) id) := by
  have hopt : Reads env d [4, 2] (Prod.map (parseSackPerm d) id) := by
    apply reads_pass (by simp)
    intro m maxC c hm hc
    simp only [holdsAt_cons, holdsAt_nil, and_true, List.length_cons, List.length_nil] at hm hc
    simp [parsePass, hm.1]
  have htag : tcpBuildSackPermOption = [4, 2] ++ ([1] ++ [1]) := by decide
  rw [htag]
  exact hopt.append (reads_nop.append reads_nop)

def sackBytes (l : List TcpSackBlock) : List U8 :=
  l.flatMap fun b => be32 b.blockLe ++ be32 b.blockRe

@[simp] theorem sackBytes_cons (b : TcpSackBlock) (l : List TcpSackBlock) :
    sackBytes (b :: l) = be32 b.blockLe ++ (be32 b.blockRe ++ sackBytes l) := by
  simp [sackBytes]

@[simp] theorem length_sackBytes (l : List TcpSackBlock) : (sackBytes l).length = 8 * l.length := by
  induction l with
  | nil => rfl
  | cons b l ih => simp [ih]; omega

theorem sackBlocksAt_of_holdsAt {l : List TcpSackBlock} (h : HoldsAt m c (sackBytes l)) :
    sackBlocksAt m l.length c = l := by
  induction l generalizing c with
  | nil => rfl
  | cons b l ih =>
    simp only [sackBytes_cons, holdsAt_append, length_be32] at h
    obtain ⟨hle, hre, hl⟩ := h
    rw [List.length_cons, sackBlocksAt, beWord_of_holdsAt hle, beWord_of_holdsAt hre, ih hl]

theorem reads_sack {l : List TcpSackBlock} (hpos : l ≠ []) (hle : l.length ≤ 4) :
    Reads env d (be32 (0x01010500 ||| u32 (l.length * 8 + 2)) ++ sackBytes l)
      fun s => (s.1, l) := by
  have hn : 0 < l.length := List.length_pos_iff.mpr hpos
  have hopt : Reads env d (5 :: BitVec.ofNat 8 (l.length * 8 + 2) :: sackBytes l)
      fun s => (s.1, l) := by
    apply reads_pass (by simp)
    intro m maxC c hm hc
    simp only [holdsAt_cons, List.length_cons, length_sackBytes] at hm hc
    obtain ⟨h0, h1, hl⟩ := hm
    have hlen : (m (c + 1)).toNat = l.length * 8 + 2 := by
      rw [h1, BitVec.toNat_ofNat]
      omega
    have hcount : (l.length * 8 + 2 - 2) / 8 = l.length := by omega
    have hblocks := sackBlocksAt_of_holdsAt hl
    rw [show c + 1 + 1 = c + 2 by omega] at hblocks
    simp only [parsePass, h0, hlen, hcount, hblocks]
    rw [show (5 : U8).toNat = 5 from rfl]
    simp only
    rw [if_pos (by omega), if_neg (by omega), List.length_cons, List.length_cons, length_sackBytes]
    congr 1
    omega
  rw [be32_sack hle]
  exact reads_nop.append (reads_nop.append hopt)

end Reads

end LibvmaTlt.Lwip
