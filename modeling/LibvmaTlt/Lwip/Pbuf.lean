import LibvmaTlt.Lwip.Types

/-!
# pbuf chains (`pbuf.c`)

Growing and joining chains, moving the payload pointer over a front part, cutting a chain to a
length and handing it out in portions below 64 KiB. `Consistent` is what the stack relies on: the
`tot_len` of a pbuf is its own length and that of everything behind it.
-/

namespace LibvmaTlt.Lwip

/-- Append bytes to the last pbuf of a chain and bump `tot_len` of all of them. -/
def fillTail (bs : List U8) : List Pbuf → List Pbuf
  | [] => []
  | [p] => [⟨p.payload ++ bs, p.totLen + bs.length⟩]
  | p :: q :: rest => ⟨p.payload, p.totLen + bs.length⟩ :: fillTail bs (q :: rest)

def pbufCat (h t : List Pbuf) : List Pbuf :=
  h.map (fun p => { p with totLen := p.totLen + pbufTotLen t }) ++ t

/-- `pbuf_header(p, (s16_t)-off)`. Beyond 32768 the cast turns the sign: the pointer moves backwards,
in front of the payload, whose memory reads as zero here. -/
def pbufHeaderBack (p : Pbuf) (off : Nat) : Pbuf :=
  let m := off % 65536
  if m ≤ 32768 then
    if m ≤ p.len then ⟨p.payload.drop m, p.totLen - m⟩ else p
  else
    ⟨(List.replicate (65536 - m) 0 ++ p.payload).take ((p.len + (65536 - m)) % 65536),
      p.totLen + (65536 - m)⟩

/-- `pbuf_header`, with the bytes `room` of the buffer in front of the payload. Nothing checks that a
shift stays within them; memory in front of the buffer reads as zero here. -/
def pbufHeader (room : List U8) (inc : Int) : List Pbuf → Option (List Pbuf)
  | [] => some []
  | p :: rest =>
    if inc < 0 then
      if inc.natAbs ≤ p.len then
        some (⟨p.payload.drop inc.natAbs, p.totLen - inc.natAbs⟩ :: rest)
      else none
    else
      let n := inc.toNat
      some (⟨(List.replicate (n - room.length) 0 ++ room.drop (room.length - n) ++ p.payload).take
        (u16 (p.len + n)), p.totLen + n⟩ :: rest)

def trimFrontLoop (newTot : Nat) : Nat → List Pbuf → List Pbuf
  | _, [] => []
  | off, p :: rest =>
    if p.len < off then ⟨[], newTot⟩ :: trimFrontLoop newTot (off - p.len) rest
    else pbufHeaderBack p off :: rest

/-- The front trimming of `tcp_receive`, by an `s32_t` offset. -/
def trimFront (off : U32) : List Pbuf → List Pbuf
  | [] => []
  | p :: rest =>
    if (p.len : Int) < off.toInt then
      trimFrontLoop (u16 (p.totLen + 65536 * 65536 - off.toNat)) off.toNat (p :: rest)
    else pbufHeaderBack p off.toNat :: rest

/-- The loop of `pbuf_realloc`; `cut` is how much shorter the chain gets. -/
def pbufReallocLoop (cut : Nat) : Nat → List Pbuf → List Pbuf
  | _, [] => []
  | rem, q :: rest =>
    if q.len < rem then { q with totLen := q.totLen - cut } :: pbufReallocLoop cut (rem - q.len) rest
    else [⟨q.payload.take rem, rem⟩]

/-- `pbuf_realloc`. It cannot make a chain longer. -/
def pbufRealloc (newLen : Nat) (p : List Pbuf) : List Pbuf :=
  if pbufTotLen p ≤ newLen then p else pbufReallocLoop (pbufTotLen p - newLen) newLen p

def splitFront : Nat → List Pbuf → List Pbuf → List Pbuf × List Pbuf
  | _, front, [] => (front, [])
  | tot, front, p :: rest =>
    if tot + p.len ≤ 0xffff then splitFront (tot + p.len) (front ++ [p]) rest
    else (front, p :: rest)

def pbufSplit64k (p : List Pbuf) : List Pbuf × List Pbuf :=
  if pbufTotLen p < 0xffff then (p, [])
  else
    let r := splitFront 0 [] p
    (if r.2 = [] then r.1 else
      r.1.map fun q => { q with totLen := q.totLen - pbufTotLen r.2 }, r.2)

/-- `tot_len` of each pbuf is its length and that of the rest of the chain. -/
def Consistent : List Pbuf → Prop
  | [] => True
  | p :: rest => p.totLen = p.len + pbufLen rest ∧ Consistent rest

instance : (p : List Pbuf) → Decidable (Consistent p)
  | [] => .isTrue trivial
  | p :: rest =>
    have : Decidable (Consistent rest) := instDecidableConsistent rest
    inferInstanceAs (Decidable (p.totLen = p.len + pbufLen rest ∧ Consistent rest))

/-- A consistent chain with the content `bs`. -/
def ChainOf (p : List Pbuf) (bs : List U8) : Prop := pbufBytes p = bs ∧ Consistent p

section Chains

variable {p rest a b : List Pbuf} {q : Pbuf} {newTot off : Nat}

@[simp] theorem pbufBytes_nil : pbufBytes [] = [] := rfl

@[simp] theorem pbufBytes_cons (p : Pbuf) (rest : List Pbuf) :
    pbufBytes (p :: rest) = p.payload ++ pbufBytes rest := by
  simp [pbufBytes]

@[simp] theorem pbufBytes_append (a b : List Pbuf) :
    pbufBytes (a ++ b) = pbufBytes a ++ pbufBytes b := by
  simp [pbufBytes]

theorem pbufBytes_retot (f : Pbuf → Nat) (a : List Pbuf) :
    pbufBytes (a.map fun q => { q with totLen := f q }) = pbufBytes a := by
  simp [pbufBytes, List.flatMap_map]

@[simp] theorem pbufLen_nil : pbufLen [] = 0 := rfl

@[simp] theorem pbufLen_cons (p : Pbuf) (rest : List Pbuf) :
    pbufLen (p :: rest) = p.len + pbufLen rest := by
  simp [pbufLen]

@[simp] theorem pbufTotLen_cons (p : Pbuf) (rest : List Pbuf) :
    pbufTotLen (p :: rest) = p.totLen := rfl

theorem pbufLen_append (a b : List Pbuf) : pbufLen (a ++ b) = pbufLen a + pbufLen b := by
  simp [pbufLen]

theorem length_pbufBytes (p : List Pbuf) : (pbufBytes p).length = pbufLen p := by
  induction p with
  | nil => rfl
  | cons q rest ih => simp [ih, Pbuf.len]

theorem Consistent.totLen (h : Consistent p) : pbufTotLen p = pbufLen p := by
  cases p with
  | nil => rfl
  | cons q rest => simpa using h.1

/-! ## Trimming the front -/

/-- No pbuf has to be moved over by more than the 32768 bytes an `s16_t` can hold. -/
def TrimOk : Nat → List Pbuf → Prop
  | _, [] => True
  | off, p :: rest => if p.len < off then TrimOk (off - p.len) rest else off ≤ 32768

theorem pbufHeaderBack_eq (h : off ≤ q.len) (h' : off ≤ 32768) :
    pbufHeaderBack q off = ⟨q.payload.drop off, q.totLen - off⟩ := by
  have hm : off % 65536 = off := Nat.mod_eq_of_lt (by omega)
  simp only [pbufHeaderBack, hm, h', h, if_true]

theorem trimFrontLoop_spec (hc : Consistent p) (hok : TrimOk off p) (hle : off ≤ pbufLen p)
    (htot : newTot = pbufLen p - off) :
    ChainOf (trimFrontLoop newTot off p) ((pbufBytes p).drop off) := by
  induction p generalizing off with
  | nil => simp [trimFrontLoop, ChainOf, Consistent]
  | cons q rest ih =>
    simp only [pbufLen_cons] at hle htot
    simp only [trimFrontLoop, TrimOk] at hok ⊢
    split
    · rename_i hlt
      rw [if_pos hlt] at hok
      obtain ⟨hb, hcons⟩ := ih hc.2 hok (by omega) (by omega)
      have hq : q.payload.drop off = [] := List.drop_eq_nil_of_le (Nat.le_of_lt hlt)
      refine ⟨?_, ?_, hcons⟩
      · rw [pbufBytes_cons, hb, pbufBytes_cons, List.drop_append, hq]
        rfl
      · rw [← length_pbufBytes, hb, List.length_drop, length_pbufBytes]
        simp only [Pbuf.len, List.length_nil] at *
        omega
    · rename_i hlt
      rw [if_neg hlt] at hok
      have hq : off ≤ q.len := by omega
      rw [pbufHeaderBack_eq hq hok]
      refine ⟨?_, ?_, hc.2⟩
      · rw [pbufBytes_cons, pbufBytes_cons, List.drop_append_of_le_length hq]
      · have := hc.1
        simp only [Pbuf.len, List.length_drop] at *
        omega

theorem TrimOk.of_consistent (hc : Consistent p) (hp : ∀ q ∈ p, q.len ≤ 65535)
    (h : Consistent (trimFrontLoop newTot off p)) : TrimOk off p := by
  induction p generalizing off with
  | nil => trivial
  | cons q rest ih =>
    obtain ⟨hq, hrest⟩ := List.forall_mem_cons.mp hp
    simp only [trimFrontLoop, TrimOk] at h ⊢
    split
    · rename_i hlt
      rw [if_pos hlt] at h
      exact ih hc.2 hrest h.2
    · rename_i hlt
      rw [if_neg hlt] at h
      -- beyond 32768 `len` shrinks while `tot_len` grows
      by_contra hoff
      have hm : off % 65536 = off := Nat.mod_eq_of_lt (by omega)
      have h1 := h.1
      have h2 := hc.1
      simp only [pbufHeaderBack, hm, if_neg hoff, Pbuf.len, List.length_take, List.length_append,
        List.length_replicate] at h1 h2 hq hlt
      omega

theorem trimFrontLoop_total (hlt : q.len < off)
    (h : ChainOf (trimFrontLoop newTot off (q :: rest)) ((pbufBytes (q :: rest)).drop off)) :
    newTot = pbufLen (q :: rest) - off := by
  have hlen := congrArg List.length h.1
  rw [List.length_drop, length_pbufBytes, length_pbufBytes, ← h.2.totLen] at hlen
  simpa only [trimFrontLoop, if_pos hlt, pbufTotLen_cons] using hlen

/-- Trimming `off` bytes works: 16 bits hold the shift inside a pbuf, and what is left of the chain once
its first pbuf is emptied. -/
def TrimFits (off : Nat) (p : List Pbuf) : Prop :=
  TrimOk off p ∧ ∀ q ∈ p.head?, q.len < off → pbufLen p < 65536 + off

theorem trimFront_iff {off : U32} (hc : Consistent p) (hp : ∀ q ∈ p, q.len ≤ 65535)
    (hoff : off.toNat < 2 ^ 31) (hle : off.toNat ≤ pbufLen p) :
    ChainOf (trimFront off p) ((pbufBytes p).drop off.toNat) ↔ TrimFits off.toNat p := by
  cases p with
  | nil => simp [ChainOf, TrimFits, trimFront, Consistent, TrimOk]
  | cons q rest =>
    have hint : off.toInt = off.toNat := BitVec.toInt_eq_toNat_of_lt (by omega)
    have htot : q.totLen = pbufLen (q :: rest) := hc.totLen
    simp only [TrimFits, List.head?_cons, Option.mem_some_iff, forall_eq']
    by_cases hlt : q.len < off.toNat
    · simp only [trimFront, hint, Nat.cast_lt, hlt, if_true, forall_const]
      refine ⟨fun h => ⟨.of_consistent hc hp h.2, ?_⟩, fun ⟨hok, hlen⟩ => ?_⟩
      · have hnew := trimFrontLoop_total hlt h
        have hmod := Nat.mod_lt (q.totLen + 65536 * 65536 - off.toNat) (show 0 < 65536 by decide)
        unfold u16 at hnew
        omega
      · refine trimFrontLoop_spec hc hok hle ?_
        unfold u16
        omega
    · have hloop : trimFront off (q :: rest) =
          trimFrontLoop (pbufLen (q :: rest) - off.toNat) off.toNat (q :: rest) := by
        simp only [trimFront, trimFrontLoop, hint, Nat.cast_lt, hlt, if_false]
      rw [hloop]
      exact ⟨fun h => ⟨.of_consistent hc hp h.2, fun h => absurd h hlt⟩,
        fun h => trimFrontLoop_spec hc h.1 hle rfl⟩

/-! ## Moving the header -/

/-- The bytes of the buffer from `inc` bytes in front of the payload on, if they lie in the buffer. -/
def shiftedView (room : List U8) (inc : Int) (bytes : List U8) : Option (List U8) :=
  if inc ≤ room.length ∧ -inc ≤ bytes.length then
    some ((room ++ bytes).drop (room.length - inc).toNat)
  else none

theorem pbufHeader_iff {room : List U8} {inc : Int} {p' : List Pbuf} (hc : Consistent (q :: rest))
    (hq : q.len ≤ 65535) (h : pbufHeader room inc (q :: rest) = some p') :
    (∃ v ∈ shiftedView room inc (pbufBytes (q :: rest)), ChainOf p' v) ↔
      inc ≤ room.length ∧ q.len + inc ≤ 65535 := by
  have hcq := hc.1
  unfold shiftedView
  rw [length_pbufBytes, pbufLen_cons, pbufBytes_cons]
  simp only [pbufHeader] at h
  split_ifs at h with hneg hle
  · obtain rfl := Option.some.inj h
    refine iff_of_true ⟨_, if_pos (by omega), ?_, ?_, hc.2⟩ (by omega)
    · rw [show (room.length - inc).toNat = room.length + inc.natAbs by omega,
        List.drop_length_add_append, List.drop_append_of_le_length hle, pbufBytes_cons]
    · simp only [Pbuf.len, List.length_drop] at hcq hle ⊢
      omega
  · obtain ⟨n, rfl⟩ := Int.eq_ofNat_of_zero_le (not_lt.mp hneg)
    obtain rfl := Option.some.inj h
    by_cases hroom : n ≤ room.length
    · rw [if_pos (by omega), show ((room.length : Int) - n).toNat = room.length - n by omega,
        List.drop_append_of_le_length (by omega), ← List.append_assoc]
      simp only [Int.toNat_natCast, Nat.sub_eq_zero_of_le hroom, List.replicate_zero, List.nil_append,
        Option.mem_some_iff, exists_eq_left']
      have hlen : (room.drop (room.length - n) ++ q.payload).length = q.len + n := by
        simp only [List.length_append, List.length_drop, Pbuf.len]
        omega
      generalize room.drop (room.length - n) ++ q.payload = v at hlen
      constructor
      · rintro ⟨-, htot, -⟩
        simp only [Pbuf.len, List.length_take, u16] at htot hlen hcq ⊢
        omega
      · rintro ⟨-, hfits⟩
        have hall : v.take (u16 (q.len + n)) = v := List.take_of_length_le (by unfold u16; omega)
        rw [hall]
        refine ⟨pbufBytes_cons _ _, ?_, hc.2⟩
        show q.totLen + n = v.length + pbufLen rest
        omega
    · simp [hroom]

/-- The shift of the front trimming is one of `pbuf_header`. -/
theorem pbufHeaderBack_eq_pbufHeader (rest : List Pbuf) (off : Nat) (hq : q.len ≤ 65535) :
    pbufHeaderBack q off :: rest =
      (pbufHeader [] ((-off : Int).bmod 65536) (q :: rest)).getD (q :: rest) := by
  have hbmod : (-off : Int).bmod 65536 =
      if off % 65536 ≤ 32768 then -((off % 65536 : Nat) : Int)
      else ((65536 - off % 65536 : Nat) : Int) := by
    dsimp only [Int.bmod]
    split_ifs <;> omega
  rw [hbmod, pbufHeaderBack]
  generalize off % 65536 = m
  split
  · cases m with
    | zero =>
      have hall : q.payload.take (q.len % 65536) = q.payload :=
        List.take_of_length_le (Nat.mod_eq_of_lt (Nat.lt_succ_of_le hq)).ge
      simp [pbufHeader, u16, hall]
    | succ m =>
      have hneg : -((m + 1 : Nat) : Int) < 0 := by omega
      simp only [pbufHeader, if_pos hneg, Int.natAbs_neg, Int.natAbs_natCast]
      split <;> rfl
  · have hpos : ¬ ((65536 - m : Nat) : Int) < 0 := by omega
    simp [pbufHeader, hpos, u16]

/-! ## Cutting and joining -/

theorem pbufReallocLoop_spec {cut rem : Nat} (hc : Consistent p) (hlen : rem + cut = pbufLen p) :
    ChainOf (pbufReallocLoop cut rem p) ((pbufBytes p).take rem) := by
  induction p generalizing rem with
  | nil => simp [pbufReallocLoop, ChainOf, Consistent]
  | cons q rest ih =>
    simp only [pbufLen_cons] at hlen
    simp only [pbufReallocLoop]
    split
    · rename_i hlt
      obtain ⟨hb, hcons⟩ := @ih (rem - q.len) hc.2 (by omega)
      refine ⟨?_, ?_, hcons⟩
      · rw [pbufBytes_cons, hb, pbufBytes_cons, List.take_append,
          List.take_of_length_le (Nat.le_of_lt hlt)]
        rfl
      · have htot := hc.1
        rw [← length_pbufBytes, hb, List.length_take, length_pbufBytes]
        simp only [Pbuf.len] at *
        omega
    · rename_i hlt
      refine ⟨?_, ?_, trivial⟩
      · rw [pbufBytes_cons, pbufBytes_cons,
          List.take_append_of_le_length (by unfold Pbuf.len at hlt; omega)]
        simp
      · simp only [Pbuf.len, List.length_take, pbufLen_nil] at *
        omega

theorem pbufRealloc_spec (newLen : Nat) (hc : Consistent p) :
    ChainOf (pbufRealloc newLen p) ((pbufBytes p).take newLen) := by
  unfold pbufRealloc
  rw [hc.totLen]
  split
  · rename_i hle
    exact ⟨(List.take_of_length_le (by rw [length_pbufBytes]; exact hle)).symm, hc⟩
  · exact pbufReallocLoop_spec hc (by omega)

theorem pbufBytes_fillTail (bs : List U8) (hp : p ≠ []) :
    pbufBytes (fillTail bs p) = pbufBytes p ++ bs := by
  induction p with
  | nil => exact absurd rfl hp
  | cons q rest ih =>
    cases rest with
    | nil => simp [fillTail]
    | cons r rest => rw [fillTail, pbufBytes_cons, ih (by simp), pbufBytes_cons q, List.append_assoc]

theorem pbufBytes_pbufCat (h t : List Pbuf) : pbufBytes (pbufCat h t) = pbufBytes h ++ pbufBytes t := by
  rw [pbufCat, pbufBytes_append, pbufBytes_retot]

theorem Consistent.pbufCat {h t : List Pbuf} (hh : Consistent h) (ht : Consistent t) :
    Consistent (pbufCat h t) := by
  induction h with
  | nil => simpa [Lwip.pbufCat] using ht
  | cons q rest ih =>
    refine ⟨?_, ih hh.2⟩
    have hlen := congrArg List.length (pbufBytes_pbufCat rest t)
    simp only [length_pbufBytes, List.length_append] at hlen
    show q.totLen + pbufTotLen t = q.len + pbufLen (Lwip.pbufCat rest t)
    rw [hlen, ht.totLen, hh.1, Nat.add_assoc]

theorem splitFront_append (tot : Nat) (front p : List Pbuf) :
    (splitFront tot front p).1 ++ (splitFront tot front p).2 = front ++ p := by
  induction p generalizing tot front with
  | nil => rfl
  | cons q rest ih =>
    simp only [splitFront]
    split
    · rw [ih]; simp
    · rfl

theorem splitFront_le (h : pbufLen a ≤ 0xffff) (p : List Pbuf) :
    pbufLen (splitFront (pbufLen a) a p).1 ≤ 0xffff := by
  induction p generalizing a with
  | nil => exact h
  | cons q rest ih =>
    have happ : pbufLen (a ++ [q]) = pbufLen a + q.len := by simp [pbufLen_append]
    simp only [splitFront]
    split
    · rename_i hle
      rw [← happ] at hle ⊢
      exact ih hle
    · exact h

theorem Consistent.of_append (h : Consistent (a ++ b)) : Consistent b := by
  induction a with
  | nil => exact h
  | cons q a ih => exact ih h.2

theorem front_of_append (h : Consistent (a ++ b)) :
    Consistent (a.map fun q => { q with totLen := q.totLen - pbufTotLen b }) ∧
      pbufCat (a.map fun q => { q with totLen := q.totLen - pbufTotLen b }) b = a ++ b := by
  have hb := (Consistent.of_append h).totLen
  induction a with
  | nil => exact ⟨trivial, rfl⟩
  | cons q a ih =>
    obtain ⟨hc, hcat⟩ := ih h.2
    have hq := h.1
    have hlen := congrArg List.length (pbufBytes_retot (fun q => q.totLen - pbufTotLen b) a)
    rw [length_pbufBytes, length_pbufBytes] at hlen
    rw [List.append_eq, pbufLen_append] at hq
    refine ⟨⟨?_, hc⟩, ?_⟩
    · show q.totLen - pbufTotLen b = q.len + pbufLen _
      omega
    · have htot : q.totLen - pbufTotLen b + pbufTotLen b = q.totLen := by omega
      simp only [pbufCat, List.map_cons, List.cons_append, htot] at hcat ⊢
      rw [hcat]

theorem pbufBytes_pbufSplit64k (p : List Pbuf) :
    pbufBytes (pbufSplit64k p).1 ++ pbufBytes (pbufSplit64k p).2 = pbufBytes p := by
  unfold pbufSplit64k
  split
  · simp
  · have h := congrArg pbufBytes (splitFront_append 0 [] p)
    rw [pbufBytes_append, List.nil_append] at h
    simp only
    split
    · exact h
    · rw [pbufBytes_retot]; exact h

/-- `pbuf_split_64k` gives two chains, the first of less than 64 KiB, which `pbuf_cat` joins again. -/
theorem pbufSplit64k_spec (hc : Consistent p) :
    Consistent (pbufSplit64k p).1 ∧ Consistent (pbufSplit64k p).2 ∧
      pbufLen (pbufSplit64k p).1 ≤ 0xffff ∧ pbufCat (pbufSplit64k p).1 (pbufSplit64k p).2 = p := by
  unfold pbufSplit64k
  split
  · rename_i hlt
    rw [hc.totLen] at hlt
    exact ⟨hc, trivial, hlt.le, by simp [pbufCat, pbufTotLen]⟩
  · have happ := splitFront_append 0 [] p
    have hle := splitFront_le (a := []) (Nat.zero_le _) p
    rw [List.nil_append] at happ
    rw [pbufLen_nil] at hle
    generalize splitFront 0 [] p = r at happ hle
    subst happ
    have hif : (if r.2 = [] then r.1 else
        r.1.map fun q => { q with totLen := q.totLen - pbufTotLen r.2 }) =
        r.1.map fun q => { q with totLen := q.totLen - pbufTotLen r.2 } := by
      split
      · rename_i hnil
        simp [hnil, pbufTotLen]
      · rfl
    obtain ⟨hfront, hcat⟩ := front_of_append hc
    simp only [hif]
    rw [← length_pbufBytes, pbufBytes_retot, length_pbufBytes]
    exact ⟨hfront, Consistent.of_append hc, hle, hcat⟩

end Chains

/-! ## The algebra of chains -/

/-- **What keeps a chain consistent.** Cutting, joining and splitting always do. A shift of the header
does if it stays in the buffer and leaves a length that 16 bits hold. The front trimming does if 16 bits
hold the shift and, once the first pbuf is emptied, the rest. -/
theorem pbuf_chain_algebra {p : List Pbuf} {q : Pbuf} (hc : Consistent p) (hq : p.head? = some q)
    (hp : ∀ r ∈ p, r.len ≤ 65535) :
    (∀ n, ChainOf (pbufRealloc n p) ((pbufBytes p).take n)) ∧
    (∀ t, Consistent t → ChainOf (pbufCat p t) (pbufBytes p ++ pbufBytes t)) ∧
    (∀ f r, pbufSplit64k p = (f, r) → Consistent f ∧ Consistent r ∧ pbufLen f ≤ 65535 ∧
      pbufBytes f ++ pbufBytes r = pbufBytes p ∧ pbufCat f r = p) ∧
    (∀ room inc p', pbufHeader room inc p = some p' →
      ((∃ v ∈ shiftedView room inc (pbufBytes p), ChainOf p' v) ↔
        inc ≤ room.length ∧ q.len + inc ≤ 65535)) ∧
    ∀ off : U32, off.toNat < 2 ^ 31 → off.toNat ≤ pbufLen p →
      (ChainOf (trimFront off p) ((pbufBytes p).drop off.toNat) ↔ TrimFits off.toNat p) := by
  refine ⟨fun n => pbufRealloc_spec n hc, fun t ht => ⟨pbufBytes_pbufCat p t, hc.pbufCat ht⟩, ?_, ?_,
    fun off hoff hle => trimFront_iff hc hp hoff hle⟩
  · intro f r hsplit
    obtain ⟨h1, h2, h3, h4⟩ := pbufSplit64k_spec hc
    rw [hsplit] at h1 h2 h3 h4
    exact ⟨h1, h2, h3, by rw [← pbufBytes_pbufCat, h4], h4⟩
  · intro room inc p' h
    obtain ⟨rest, rfl⟩ := List.head?_eq_some_iff.mp hq
    exact pbufHeader_iff hc (hp q (by simp)) h

theorem pbuf_chain_algebra_two :
    Consistent (trimFront 3 [⟨[1, 2], 4⟩, ⟨[3, 4], 2⟩]) ∧
      pbufCat [⟨[1, 2], 4⟩, ⟨[3, 4], 2⟩] [⟨[5], 1⟩] = [⟨[1, 2], 5⟩, ⟨[3, 4], 3⟩, ⟨[5], 1⟩] := by
  have h := @pbuf_chain_algebra [⟨[1, 2], 4⟩, ⟨[3, 4], 2⟩] _ (by decide) rfl (by decide)
  refine ⟨((h.2.2.2.2 3 (by decide) (by decide)).mpr ⟨?_, ?_⟩).2, rfl⟩
  · simp [TrimOk, Pbuf.len]
  · simp [Pbuf.len]

/-- 33000 of the 40000 bytes of a pbuf were received before: the pointer moves backwards. And a header
is put in front of a payload at the start of its buffer. -/
theorem trimmed_inconsistent :
    (∃ p : Pbuf, p.len = 40000 ∧ Consistent [p] ∧ ¬ Consistent (trimFront 33000 [p])) ∧
    pbufHeader [] 1 [⟨[7], 1⟩] = some [⟨[0, 7], 2⟩] ∧ shiftedView [] 1 [7] = none := by
  refine ⟨?_, rfl, rfl⟩
  obtain ⟨p, hlen, htot⟩ : ∃ p : Pbuf, p.len = 40000 ∧ p.totLen = 40000 :=
    ⟨⟨List.replicate 40000 0, 40000⟩, List.length_replicate, rfl⟩
  have hc : Consistent [p] := ⟨by simp [hlen, htot], trivial⟩
  have hloop : trimFront 33000 [p] = trimFrontLoop 0 33000 [p] := by
    simp [trimFront, trimFrontLoop, hlen]
  refine ⟨p, hlen, hc, ?_⟩
  rw [hloop]
  exact mt (TrimOk.of_consistent hc (by simp [hlen])) (by simp [TrimOk, hlen])

end LibvmaTlt.Lwip
