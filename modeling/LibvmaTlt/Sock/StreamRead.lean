import LibvmaTlt.Sock.RxQueue

/-!
# Reading from the ready list

What is read from the ready list is the byte stream: `ahead` is the stream as the copying loops see it
from where they stand, `RxQueue.bytes` as the next call will see it.
-/

namespace LibvmaTlt.Sock

open Lwip (U8)

/-! ## Descriptors -/

def Desc.Full (d : Desc) : Prop := ∀ b ∈ d.bufs, b.frag ≠ [] ∧ b.frag.length < 65536

instance (d : Desc) : Decidable d.Full := inferInstanceAs (Decidable (∀ _ ∈ _, _))

@[simp] theorem chainBytes_nil : chainBytes [] = [] := rfl

@[simp] theorem chainBytes_cons (b : MemBuf) (l : List MemBuf) :
    chainBytes (b :: l) = b.frag ++ chainBytes l := rfl

@[simp] theorem listBytes_nil : listBytes [] = [] := rfl

@[simp] theorem listBytes_cons (d : Desc) (l : List Desc) :
    listBytes (d :: l) = d.first.frag ++ (chainBytes d.rest ++ listBytes l) := by
  simp [listBytes, Desc.bytes, Desc.bufs]

theorem Desc.Full.first {d : Desc} (h : d.Full) : d.first.frag ≠ [] ∧ d.first.frag.length < 65536 :=
  h d.first (by simp [Desc.bufs])

theorem Desc.Full.next {p : Desc} {b b' : MemBuf} {rest : List MemBuf} (h : p.Full)
    (hr : p.rest = b :: rest) (hb : b'.frag = b.frag) : Desc.Full ⟨b', rest⟩ := by
  intro c hc
  rcases List.mem_cons.mp hc with rfl | hc
  · rw [hb]
    exact h b (by simp [Desc.bufs, hr])
  · exact h c (by simp [Desc.bufs, hr, hc])

/-! ## The copying loops -/

variable {fuel iovLen pos : Nat}

variable {q : RxQueue}

section Copy

variable {isPeek : Bool} {st st' : ReadState} {p : Desc} {n : Nat}

def ReadState.after (isPeek : Bool) (st : ReadState) : List Desc :=
  if isPeek then st.q.list.drop st.idx else st.q.list.tail

def ReadState.ahead (isPeek : Bool) (st : ReadState) : List U8 :=
  match st.pdesc with
  | none => []
  | some p => st.left ++ (chainBytes p.rest ++ listBytes (st.after isPeek))

/-- The loops stand at a buffer with data. A reading that consumes stands at the front of the list. -/
structure ReadState.Inv (isPeek : Bool) (st : ReadState) : Prop where
  count : st.q.count = st.q.list.length
  full : ∀ d ∈ st.q.list, d.Full
  cur : ∀ d ∈ st.pdesc, d.Full ∧ st.left ≠ []
  front : isPeek = false → st.q.list.head? = st.pdesc
  offset : isPeek = false → st.left = (st.pdesc.elim [] (·.first.frag)).drop st.q.offset
  zero : isPeek = false → st.pdesc = none → st.q.offset = 0
  cast : cInt st.total = st.total

theorem ReadState.ahead_of_none (h : st.pdesc = none) : st.ahead isPeek = [] := by
  unfold ReadState.ahead
  rw [h]

theorem ReadState.ahead_of_some (h : st.pdesc = some p) :
    st.ahead isPeek = st.left ++ (chainBytes p.rest ++ listBytes (st.after isPeek)) := by
  unfold ReadState.ahead
  rw [h]

theorem getNextDescPeek_cons {b : MemBuf} {rest : List MemBuf} (hr : p.rest = b :: rest)
    (q : RxQueue) (idx : Nat) : q.getNextDescPeek p idx = (some ⟨b, rest⟩, idx) := by
  unfold RxQueue.getNextDescPeek
  rw [hr]

theorem getNextDescPeek_nil (hr : p.rest = []) (hc : q.count = q.list.length) (idx : Nat) :
    q.getNextDescPeek p idx = (q.list[idx]?, if idx < q.list.length then idx + 1 else idx) := by
  unfold RxQueue.getNextDescPeek
  rw [hr, hc]
  simp only [Nat.cast_lt]
  split
  · rfl
  · rename_i h
    rw [List.getElem?_eq_none (by omega)]

theorem ReadState.nextDesc_peek (hc : st.q.count = st.q.list.length)
    (hf : ∀ d ∈ st.q.list, d.Full) (hcast : cInt st.total = st.total) (hp : p.Full) :
    (st.nextDesc true p).Inv true ∧
      (st.nextDesc true p).ahead true = chainBytes p.rest ++ listBytes (st.after true) := by
  unfold ReadState.nextDesc
  rw [if_pos rfl]
  cases hr : p.rest with
  | cons b rest =>
    rw [getNextDescPeek_cons hr]
    have hb := hp.next hr rfl
    refine ⟨⟨hc, hf, ?_, by simp, by simp, by simp, hcast⟩, ?_⟩
    · rintro d ⟨⟩
      exact ⟨hb, hb.first.1⟩
    · simp [ReadState.ahead, ReadState.after]
  | nil =>
    rw [getNextDescPeek_nil hr hc]
    by_cases hidx : st.idx < st.q.list.length
    · have hd : st.q.list[st.idx].Full := hf _ (List.getElem_mem hidx)
      refine ⟨⟨hc, hf, ?_, by simp, by simp, by simp, hcast⟩, ?_⟩
      · rw [List.getElem?_eq_getElem hidx]
        rintro d ⟨⟩
        exact ⟨hd, hd.first.1⟩
      · simp only [ReadState.ahead, ReadState.after, if_true, List.getElem?_eq_getElem hidx,
          if_pos hidx, Option.elim_some, chainBytes_nil, List.nil_append]
        conv_rhs => rw [List.drop_eq_getElem_cons hidx, listBytes_cons]
    · have hle : st.q.list.length ≤ st.idx := Nat.le_of_not_lt hidx
      refine ⟨⟨hc, hf, ?_, by simp, by simp, by simp, hcast⟩, ?_⟩
      · rw [List.getElem?_eq_none hle]
        rintro d ⟨⟩
      · simp [ReadState.ahead, ReadState.after, List.getElem?_eq_none hle,
          List.drop_eq_nil_of_le hle]

theorem getNextDesc_eq (hc : q.count = q.list.length) (hp : q.list.head? = some p) :
    q.getNextDesc p =
      ({ q with
          list := splitNext p.first p.rest ++ q.list.tail
          count := (splitNext p.first p.rest ++ q.list.tail).length },
        (splitNext p.first p.rest ++ q.list.tail).head?) := by
  have hlen : q.count - 1 + (splitNext p.first p.rest).length =
      ((splitNext p.first p.rest ++ q.list.tail).length : Int) := by
    cases hl : q.list with
    | nil => simp [hl] at hp
    | cons d ds =>
      rw [hc, hl]
      simp
      omega
  unfold RxQueue.getNextDesc
  simp only [hlen]
  congr 1
  split
  · rfl
  rename_i h
  have hnil : splitNext p.first p.rest ++ q.list.tail = [] := by
    rw [← List.length_eq_zero_iff]
    omega
  rw [hnil]
  rfl

theorem full_splitNext (hp : p.Full) : ∀ d ∈ splitNext p.first p.rest, d.Full := by
  intro d hd
  cases hr : p.rest with
  | nil => simp [splitNext, hr] at hd
  | cons b rest =>
    simp only [splitNext, hr, List.mem_singleton] at hd
    subst hd
    exact hp.next hr rfl

theorem listBytes_splitNext (b : MemBuf) (rest : List MemBuf) (l : List Desc) :
    listBytes (splitNext b rest ++ l) = chainBytes rest ++ listBytes l := by
  cases rest <;> simp [splitNext]

theorem listBytes_head (l : List Desc) :
    (match l.head? with
      | none => []
      | some d => d.first.frag ++ (chainBytes d.rest ++ listBytes l.tail)) = listBytes l := by
  cases l <;> simp

theorem ReadState.nextDesc_copy (hc : st.q.count = st.q.list.length)
    (hf : ∀ d ∈ st.q.list, d.Full) (hcast : cInt st.total = st.total)
    (hfront : st.q.list.head? = some p) (hp : p.Full) :
    (st.nextDesc false p).Inv false ∧
      (st.nextDesc false p).ahead false = chainBytes p.rest ++ listBytes (st.after false) := by
  have hfull : ∀ d ∈ splitNext p.first p.rest ++ st.q.list.tail, d.Full := by
    intro d hd
    rcases List.mem_append.mp hd with hd | hd
    · exact full_splitNext hp d hd
    · exact hf d (List.mem_of_mem_tail hd)
  unfold ReadState.nextDesc
  rw [if_neg (by simp), getNextDesc_eq hc hfront]
  refine ⟨⟨rfl, hfull, ?_, by simp, by simp, by simp, hcast⟩, ?_⟩
  · intro d hd
    have hd' : (splitNext p.first p.rest ++ st.q.list.tail).head? = some d := hd
    have hdf := hfull d (List.mem_of_head? hd')
    simp only [hd', Option.elim_some]
    exact ⟨hdf, hdf.first.1⟩
  · have := listBytes_head (splitNext p.first p.rest ++ st.q.list.tail)
    simp only [ReadState.ahead, ReadState.after, Bool.false_eq_true, if_false]
    rw [← listBytes_splitNext p.first, ← this]
    cases (splitNext p.first p.rest ++ st.q.list.tail).head? <;> rfl

theorem ReadState.turn_spec (h : st.Inv isPeek) (hp : st.pdesc = some p)
    (hn : n ≤ st.left.length) :
    (st.turn isPeek n p).Inv isPeek ∧
      (st.turn isPeek n p).ahead isPeek = (st.ahead isPeek).drop n ∧
      (st.turn isPeek n p).data = st.data ++ (st.ahead isPeek).take n ∧
      (st.turn isPeek n p).total = cInt (st.total + n) := by
  obtain ⟨hfull, -⟩ := h.cur p hp
  have hdrop : (st.ahead isPeek).drop n =
      st.left.drop n ++ (chainBytes p.rest ++ listBytes (st.after isPeek)) := by
    rw [ReadState.ahead_of_some hp, List.drop_append_of_le_length hn]
  have htake : (st.ahead isPeek).take n = st.left.take n := by
    rw [ReadState.ahead_of_some hp, List.take_append_of_le_length hn]
  have hcast : cInt (st.copy n).total = (st.copy n).total := cInt_cInt _
  unfold ReadState.turn
  simp only [hdrop, htake]
  split
  · rename_i hleft
    have hnil : st.left.drop n = [] := hleft
    rw [hnil, List.nil_append]
    cases isPeek with
    | true =>
      obtain ⟨hi, ha⟩ := @ReadState.nextDesc_peek (st.copy n) p h.count h.full hcast hfull
      exact ⟨hi, ha, rfl, rfl⟩
    | false =>
      obtain ⟨hi, ha⟩ := @ReadState.nextDesc_copy (st.copy n) p h.count h.full hcast
        ((h.front rfl).trans hp) hfull
      exact ⟨hi, ha, rfl, rfl⟩
  · rename_i hleft
    refine ⟨⟨h.count, h.full, ?_, h.front, ?_, ?_, hcast⟩, ?_, rfl, rfl⟩
    · intro d hd
      exact ⟨(h.cur d hd).1, hleft⟩
    · intro hpeek
      show st.left.drop n = _
      rw [h.offset hpeek, List.drop_drop]
      rfl
    · intro _ hnone
      rw [show (st.copy n).pdesc = st.pdesc from rfl, hp] at hnone
      cases hnone
    · exact ReadState.ahead_of_some hp

theorem copyIov_spec (h : st.Inv isPeek) (hpos : pos ≤ iovLen)
    (hok : iovLen < 4294967296 ∨ pos + (st.ahead isPeek).length ≤ iovLen % 4294967296)
    (hfuel : (st.ahead isPeek).length < fuel) :
    ∃ st', copyIov isPeek fuel iovLen pos st = some st' ∧ st'.Inv isPeek ∧
      st'.ahead isPeek = (st.ahead isPeek).drop (iovLen - pos) ∧
      st'.data = st.data ++ (st.ahead isPeek).take (iovLen - pos) ∧
      st'.total = cInt (st.total + ((st.ahead isPeek).take (iovLen - pos)).length) := by
  induction fuel generalizing pos st with
  | zero => omega
  | succ fuel ih =>
    unfold copyIov
    cases hp : st.pdesc with
    | none =>
      have hnil := @ReadState.ahead_of_none isPeek st hp
      refine ⟨st, rfl, h, ?_, ?_, ?_⟩
      · simp [hnil]
      · simp [hnil]
      · simp [hnil, h.cast]
    | some p =>
      simp only
      split
      · rename_i hlt
        -- the number of bytes copied in this turn
        obtain ⟨-, hleft⟩ := h.cur p hp
        have hleft' : 0 < st.left.length := List.length_pos_iff.mpr hleft
        have hle : st.left.length ≤ (st.ahead isPeek).length := by
          rw [ReadState.ahead_of_some hp]
          simp
        have hn : 0 < nbytes iovLen pos st.left.length ∧
            nbytes iovLen pos st.left.length ≤ st.left.length ∧
            nbytes iovLen pos st.left.length ≤ iovLen - pos ∧
            pos + nbytes iovLen pos st.left.length < 4294967296 := by
          unfold nbytes cUint32
          simp only
          split <;> omega
        generalize nbytes iovLen pos st.left.length = n at hn ⊢
        obtain ⟨hn0, hnl, hni, hn32⟩ := hn
        obtain ⟨hinv, hahead, hdata, htotal⟩ := ReadState.turn_spec h hp hnl
        have hpos' : cUint32 (pos + n) = pos + n := by exact_mod_cast cUint32_of_lt hn32
        rw [hpos']
        have hlen : ((st.turn isPeek n p).ahead isPeek).length = (st.ahead isPeek).length - n := by
          rw [hahead, List.length_drop]
        obtain ⟨st', hrun, hinv', hahead', hdata', htotal'⟩ :=
          ih hinv (show pos + n ≤ iovLen by omega) (by omega) (by omega)
        have hsplit : iovLen - pos = n + (iovLen - (pos + n)) := by omega
        have htake : ((st.ahead isPeek).take n).length = n := List.length_take_of_le (by omega)
        refine ⟨st', hrun, hinv', ?_, ?_, ?_⟩
        · rw [hahead', hahead, List.drop_drop, hsplit]
        · rw [hdata', hdata, hahead, hsplit, List.take_add, List.append_assoc]
        · rw [htotal', htotal, hahead, cInt_add_cInt, hsplit, List.take_add, List.length_append,
            htake]
          push_cast
          rw [Int.add_assoc]
      · rename_i hge
        have : iovLen - pos = 0 := by omega
        refine ⟨st, rfl, h, ?_, ?_, ?_⟩
        · simp [this]
        · simp [this]
        · simp [this, h.cast]

theorem copyIov_hangs (h : st.Inv isPeek) (hlong : 4294967296 ≤ iovLen)
    (hpos : pos ≤ iovLen % 4294967296) (hmore : iovLen % 4294967296 < pos + (st.ahead isPeek).length)
    (fuel : Nat) :
    copyIov isPeek fuel iovLen pos st = none := by
  induction fuel generalizing pos st with
  | zero => rfl
  | succ fuel ih =>
    unfold copyIov
    cases hp : st.pdesc with
    | none =>
      have hnil := @ReadState.ahead_of_none isPeek st hp
      simp only [hnil, List.length_nil] at hmore
      omega
    | some p =>
      have hle : st.left.length ≤ (st.ahead isPeek).length := by
        rw [ReadState.ahead_of_some hp]
        simp
      have hn : nbytes iovLen pos st.left.length ≤ st.left.length ∧
          pos + nbytes iovLen pos st.left.length ≤ iovLen % 4294967296 := by
        unfold nbytes cUint32
        simp only
        split <;> omega
      simp only
      rw [if_pos (by omega)]
      generalize nbytes iovLen pos st.left.length = n at hn ⊢
      obtain ⟨hinv, hahead, -, -⟩ := ReadState.turn_spec h hp hn.1
      have hpos' : cUint32 (pos + n) = pos + n := by
        exact_mod_cast cUint32_of_lt (show pos + n < 4294967296 by omega)
      rw [hpos']
      refine ih hinv hn.2 ?_
      rw [hahead, List.length_drop]
      omega

/-- Each `iovec` in turn is short, or its low 32 bits suffice for the data that is left. -/
def iovsFit : (avail : Nat) → List Nat → Bool
  | _, [] => true
  | avail, n :: ns =>
    (n < 4294967296 || avail ≤ n % 4294967296) && iovsFit (avail - n) ns

theorem copyIovs_spec {iov : List Nat} (h : st.Inv isPeek)
    (hfit : iovsFit (st.ahead isPeek).length iov = true) (hfuel : (st.ahead isPeek).length < fuel) :
    ∃ st', copyIovs isPeek fuel iov st = some st' ∧ st'.Inv isPeek ∧
      st'.ahead isPeek = (st.ahead isPeek).drop iov.sum ∧
      st'.data = st.data ++ (st.ahead isPeek).take iov.sum ∧
      st'.total = cInt (st.total + ((st.ahead isPeek).take iov.sum).length) := by
  induction iov generalizing st with
  | nil => exact ⟨st, rfl, h, by simp, by simp, by simp [h.cast]⟩
  | cons n ns ih =>
    unfold copyIovs
    split
    · rename_i hp
      have hnil := @ReadState.ahead_of_none isPeek st hp
      exact ⟨st, rfl, h, by simp [hnil], by simp [hnil], by simp [hnil, h.cast]⟩
    · unfold iovsFit at hfit
      obtain ⟨hok, hfit⟩ := (Bool.and_eq_true _ _).mp hfit
      obtain ⟨st₁, hrun₁, hinv₁, hahead₁, hdata₁, htotal₁⟩ :=
        copyIov_spec h (Nat.zero_le n) (by simpa using hok) hfuel
      rw [Nat.sub_zero] at hahead₁ hdata₁ htotal₁
      have hlen₁ : (st₁.ahead isPeek).length = (st.ahead isPeek).length - n := by
        rw [hahead₁, List.length_drop]
      obtain ⟨st₂, hrun₂, hinv₂, hahead₂, hdata₂, htotal₂⟩ :=
        ih hinv₁ (by rw [hlen₁]; exact hfit) (by omega)
      refine ⟨st₂, ?_, hinv₂, ?_, ?_, ?_⟩
      · rw [hrun₁]
        exact hrun₂
      · rw [hahead₂, hahead₁, List.drop_drop, List.sum_cons]
      · rw [hdata₂, hdata₁, hahead₁, List.sum_cons, List.take_add, List.append_assoc]
      · rw [htotal₂, htotal₁, hahead₁, cInt_add_cInt, List.sum_cons, List.take_add,
          List.length_append]
        push_cast
        rw [Int.add_assoc]

theorem copyIov_inv {I : ReadState → Prop}
    (hI : ∀ st n p, st.pdesc = some p → I st → I (st.turn isPeek n p)) (h : I st)
    (hr : copyIov isPeek fuel iovLen pos st = some st') : I st' := by
  induction fuel generalizing pos st with
  | zero => cases hr
  | succ fuel ih =>
    unfold copyIov at hr
    split at hr
    · cases hr
      exact h
    rename_i p hp
    split at hr
    · exact ih (hI st _ p hp h) hr
    · cases hr
      exact h

theorem copyIovs_inv {I : ReadState → Prop}
    (hI : ∀ st n p, st.pdesc = some p → I st → I (st.turn isPeek n p)) {iov : List Nat} (h : I st)
    (hr : copyIovs isPeek fuel iov st = some st') : I st' := by
  induction iov generalizing st with
  | nil =>
    cases hr
    exact h
  | cons n ns ih =>
    unfold copyIovs at hr
    split at hr
    · cases hr
      exact h
    · obtain ⟨st₁, hr₁, hr₂⟩ := Option.bind_eq_some_iff.mp hr
      exact ih (copyIov_inv hI h hr₁) hr₂

theorem turn_peek (st : ReadState) (n : Nat) (p : Desc) :
    { (st.turn true n p).q with offset := 0 } = { st.q with offset := 0 } := by
  unfold ReadState.turn
  simp only
  split <;> rfl

end Copy

/-! ## Calls -/

structure RxQueue.Wf (q : RxQueue) : Prop where
  count : q.count = q.list.length
  full : ∀ d ∈ q.list, d.Full
  front : ∀ d ∈ q.list.head?, q.offset < d.first.frag.length
  nil : q.list = [] → q.offset = 0
  byteCount : q.byteCount = q.bytes.length
  small : q.bytes.length < 18446744073709551616

section Calls

variable {q : RxQueue} {isPeek : Bool} {fuel : Nat} {iov : List Nat} {d : Desc}

theorem RxQueue.bytes_of_cons {ds : List Desc} (hl : q.list = d :: ds)
    (hle : q.offset ≤ d.first.frag.length) :
    q.bytes = d.first.frag.drop q.offset ++ (chainBytes d.rest ++ listBytes ds) := by
  unfold RxQueue.bytes
  rw [hl, listBytes_cons, List.drop_append_of_le_length hle]

theorem RxQueue.Wf.readStart (hq : q.Wf) (hd : q.list.head? = some d) :
    (q.readStart d).Inv isPeek ∧ (q.readStart d).ahead isPeek = q.bytes := by
  obtain ⟨ds, hl⟩ := List.head?_eq_some_iff.mp hd
  have hlt := hq.front d hd
  have hfull := hq.full d (List.mem_of_head? hd)
  refine ⟨⟨hq.count, hq.full, ?_, fun _ => hd, fun _ => rfl, ?_, rfl⟩, ?_⟩
  · rintro d' ⟨⟩
    refine ⟨hfull, ?_⟩
    intro hnil
    have := List.drop_eq_nil_iff.mp hnil
    omega
  · intro _ hnone
    cases hnone
  · rw [RxQueue.bytes_of_cons hl hlt.le]
    cases isPeek <;> simp [ReadState.ahead, ReadState.after, RxQueue.readStart, hl]

theorem ReadState.Inv.bytes_eq {st : ReadState} (h : st.Inv false) :
    st.q.bytes = st.ahead false ∧ ∀ d ∈ st.q.list.head?, st.q.offset < d.first.frag.length := by
  have hfront := h.front rfl
  have hoff := h.offset rfl
  cases hp : st.pdesc with
  | none =>
    rw [hp, List.head?_eq_none_iff] at hfront
    simp [RxQueue.bytes, ReadState.ahead, hp, hfront]
  | some p =>
    rw [hp] at hfront hoff
    obtain ⟨ds, hl⟩ := List.head?_eq_some_iff.mp hfront
    have hlt : st.q.offset < p.first.frag.length := by
      have hne := (h.cur p hp).2
      rw [hoff] at hne
      by_contra hge
      exact hne (List.drop_eq_nil_of_le (Nat.le_of_not_lt hge))
    refine ⟨?_, ?_⟩
    · rw [RxQueue.bytes_of_cons hl hlt.le, ReadState.ahead_of_some hp, hoff]
      simp [ReadState.after, hl]
    · rw [hfront]
      rintro d ⟨⟩
      exact hlt

theorem dequeuePacket_eq (hd : q.list.head? = some d) (peek : Bool) :
    q.dequeuePacket fuel iov ⟨peek, false⟩ =
      (copyIovs peek fuel iov (q.readStart d)).map fun st =>
        (st.q.finish peek q.offset st.total, { ret := st.total, data := st.data }) := by
  unfold RxQueue.dequeuePacket
  rw [hd]
  rfl

theorem dequeuePacket_copy (hq : q.Wf) (hne : q.list ≠ [])
    (hfit : iovsFit q.bytes.length iov = true) (hmin : min iov.sum q.bytes.length < 2147483648)
    (hfuel : q.bytes.length < fuel) :
    ∃ q', q.dequeuePacket fuel iov ⟨false, false⟩ =
        some (q', { ret := (q.bytes.take iov.sum).length, data := q.bytes.take iov.sum }) ∧
      q'.Wf ∧ q'.bytes = q.bytes.drop iov.sum := by
  obtain ⟨d, hd⟩ := Option.ne_none_iff_exists'.mp (mt List.head?_eq_none_iff.mp hne)
  obtain ⟨hinv, hahead⟩ := @RxQueue.Wf.readStart q false d hq hd
  obtain ⟨st, hrun, hinv', hahead', hdata, htotal⟩ :=
    copyIovs_spec hinv (by rw [hahead]; exact hfit) (by rw [hahead]; exact hfuel)
  obtain ⟨hbytes, hfront⟩ := hinv'.bytes_eq
  rw [hahead] at hahead' hdata htotal
  have hlen : (q.bytes.take iov.sum).length < 2147483648 := by rwa [List.length_take]
  have hret : st.total = (q.bytes.take iov.sum).length := by
    rw [htotal, show (q.readStart d).total = 0 from rfl, Int.zero_add, cInt_of_lt] <;> omega
  have hcount : st.q.byteCount = q.byteCount :=
    copyIovs_inv (I := fun s => s.q.byteCount = q.byteCount) (fun s n p _ hs => by
      rw [← hs]
      unfold ReadState.turn
      simp only
      split <;> rfl) rfl hrun
  have hdrop : (q.bytes.drop iov.sum).length = q.bytes.length - (q.bytes.take iov.sum).length := by
    rw [List.length_drop, List.length_take]
    omega
  refine ⟨st.q.finish false q.offset (q.bytes.take iov.sum).length, ?_,
    ⟨hinv'.count, hinv'.full, hfront, ?_, ?_, ?_⟩, hbytes.trans hahead'⟩
  · rw [dequeuePacket_eq hd, hrun, Option.map_some, hret, hdata]
    rfl
  · intro hnil
    have hp := hinv'.front rfl
    rw [show st.q.list = [] from hnil] at hp
    exact hinv'.zero rfl hp.symm
  · show cSize (st.q.byteCount - _) = st.q.bytes.length
    rw [hcount, hq.byteCount, hbytes, hahead', hdrop,
      cSize_sub (List.length_take_le' _ _) hq.small]
  · show st.q.bytes.length < _
    rw [hbytes, hahead', hdrop]
    exact Nat.lt_of_le_of_lt (Nat.sub_le _ _) hq.small

theorem dequeuePacket_peek (hq : q.Wf) (hne : q.list ≠ [])
    (hfit : iovsFit q.bytes.length iov = true) (hmin : min iov.sum q.bytes.length < 2147483648)
    (hfuel : q.bytes.length < fuel) :
    q.dequeuePacket fuel iov ⟨true, false⟩ =
      some (q, { ret := (q.bytes.take iov.sum).length, data := q.bytes.take iov.sum }) := by
  obtain ⟨d, hd⟩ := Option.ne_none_iff_exists'.mp (mt List.head?_eq_none_iff.mp hne)
  obtain ⟨hinv, hahead⟩ := @RxQueue.Wf.readStart q true d hq hd
  obtain ⟨st, hrun, -, -, hdata, htotal⟩ :=
    copyIovs_spec hinv (by rw [hahead]; exact hfit) (by rw [hahead]; exact hfuel)
  rw [hahead] at hdata htotal
  have hret : st.total = (q.bytes.take iov.sum).length := by
    have hlen : (q.bytes.take iov.sum).length < 2147483648 := by rwa [List.length_take]
    rw [htotal, show (q.readStart d).total = 0 from rfl, Int.zero_add, cInt_of_lt] <;> omega
  have hsame : { st.q with offset := 0 } = { q with offset := 0 } :=
    copyIovs_inv (I := fun s => { s.q with offset := 0 } = { q with offset := 0 })
      (fun s n p _ hs => (turn_peek s n p).trans hs) rfl hrun
  have hoffset : cSize (cInt q.offset) = q.offset := by
    have h1 := hq.front d hd
    have h2 := (hq.full d (List.mem_of_head? hd)).first.2
    rw [cInt_of_lt (by omega) (by omega), cSize_of_lt (by omega)]
  have hq' : st.q.finish true q.offset st.total = q :=
    calc st.q.finish true q.offset st.total
        = { { st.q with offset := 0 } with offset := cSize (cInt q.offset) } := rfl
      _ = q := by rw [hsame, hoffset]
  rw [dequeuePacket_eq hd, hrun, Option.map_some, hq', hret, hdata]
  rfl

theorem dequeuePacket_hangs (hq : q.Wf) {n : Nat} (hlong : 4294967296 ≤ n)
    (hmore : n % 4294967296 < q.bytes.length) (hne : q.list ≠ []) (fuel : Nat) :
    q.dequeuePacket fuel (n :: iov) ⟨isPeek, false⟩ = none := by
  obtain ⟨d, hd⟩ := Option.ne_none_iff_exists'.mp (mt List.head?_eq_none_iff.mp hne)
  obtain ⟨hinv, hahead⟩ := @RxQueue.Wf.readStart q isPeek d hq hd
  have hmore' : n % 4294967296 < 0 + ((q.readStart d).ahead isPeek).length := by
    rwa [hahead, Nat.zero_add]
  rw [dequeuePacket_eq hd, copyIovs, if_neg (by simp [RxQueue.readStart]),
    copyIov_hangs hinv hlong (Nat.zero_le _) hmore' fuel]
  rfl

/-! ### Zero copy -/

theorem zcopyChain_spec (len : Int) (tot : Nat) (l : List MemBuf) :
    chainBytes (zcopyChain len tot l).1 ++ chainBytes (zcopyChain len tot l).2.1 = chainBytes l ∧
      ∀ b ∈ (zcopyChain len tot l).2.1, ∃ c ∈ l, b.frag = c.frag := by
  induction l generalizing len tot with
  | nil => simp [zcopyChain]
  | cons b bs ih =>
    unfold zcopyChain
    simp only
    split
    · obtain ⟨h1, h2⟩ := ih (len - sizeofIovec) (cUint32 (tot - b.len))
      refine ⟨?_, ?_⟩
      · simp only [chainBytes_cons, List.append_assoc]
        rw [h1]
      · intro c hc
        obtain ⟨c', hc', he⟩ := h2 c hc
        exact ⟨c', List.mem_cons_of_mem _ hc', he⟩
    · refine ⟨rfl, ?_⟩
      intro c hc
      rcases List.mem_cons.mp hc with rfl | hc
      · exact ⟨b, List.mem_cons_self, rfl⟩
      · exact ⟨c, List.mem_cons_of_mem _ hc, rfl⟩

theorem zcopyList_spec {len count : Int} {l : List Desc} (hc : count = l.length)
    (hf : ∀ d ∈ l, d.Full) :
    (zcopyList len count l).1.flatMap Packet.bytes ++ listBytes (zcopyList len count l).2.1 =
        listBytes l ∧
      (zcopyList len count l).2.2 = (zcopyList len count l).2.1.length ∧
      ∀ d ∈ (zcopyList len count l).2.1, d.Full := by
  induction l generalizing len count with
  | nil => simp [zcopyList, hc]
  | cons d ds ih =>
    unfold zcopyList
    split
    · obtain ⟨hchain, hmem⟩ := zcopyChain_spec len d.first.totLen d.bufs
      have hpkt : ∀ p : Packet, p.iov = (zcopyChain len d.first.totLen d.bufs).1.map MemBuf.frag →
          p.bytes = chainBytes (zcopyChain len d.first.totLen d.bufs).1 := by
        intro p hp
        rw [Packet.bytes, hp, chainBytes, List.flatMap_def]
      simp only
      split
      · -- the chain is split
        rename_i b bs hrest
        rw [hrest] at hchain hmem
        refine ⟨?_, ?_, ?_⟩
        · rw [List.flatMap_singleton, hpkt _ rfl]
          show _ ++ listBytes (⟨b, bs⟩ :: ds) = _
          rw [listBytes_cons, ← List.append_assoc, ← List.append_assoc, List.append_assoc _ b.frag,
            ← chainBytes_cons, hchain]
          simp [Desc.bufs]
        · simp [hc]
        · intro d' hd'
          rcases List.mem_cons.mp hd' with rfl | hd'
          · intro c hc'
            obtain ⟨c', hc'', he⟩ := hmem c hc'
            rw [he]
            exact hf d List.mem_cons_self c' hc''
          · exact hf d' (List.mem_cons_of_mem _ hd')
      · rename_i hrest
        rw [hrest, chainBytes_nil, List.append_nil] at hchain
        obtain ⟨h1, h2, h3⟩ := @ih ((zcopyChain len d.first.totLen d.bufs).2.2 - sizeofPacket)
          (count - 1) (by simp [hc]) (fun d' hd' => hf d' (List.mem_cons_of_mem _ hd'))
        refine ⟨?_, h2, h3⟩
        rw [List.flatMap_cons, List.append_assoc, h1, hpkt _ rfl, hchain]
        simp [Desc.bufs]
    · exact ⟨rfl, by simp [hc], hf⟩

theorem listBytes_advanceFront (hq : q.Wf) : listBytes (advanceFront q.offset q.list) = q.bytes := by
  cases hl : q.list with
  | nil => simp [RxQueue.bytes, advanceFront, hl]
  | cons d ds =>
    rw [RxQueue.bytes_of_cons hl (hq.front d (by simp [hl])).le]
    simp [advanceFront]

theorem full_advanceFront (hq : q.Wf) : ∀ d ∈ advanceFront q.offset q.list, d.Full := by
  cases hl : q.list with
  | nil => simp [advanceFront]
  | cons d ds =>
    have hfull := hq.full
    have hlt := hq.front d (by simp [hl])
    rw [hl] at hfull
    intro d' hd'
    rcases List.mem_cons.mp hd' with rfl | hd'
    · intro b hb
      rcases List.mem_cons.mp hb with rfl | hb
      · have := (hfull d List.mem_cons_self).first.2
        simp only [ne_eq, List.drop_eq_nil_iff, List.length_drop]
        omega
      · exact hfull d List.mem_cons_self b (List.mem_cons_of_mem _ hb)
    · exact hfull d' (List.mem_cons_of_mem _ hd')

theorem length_advanceFront (n : Nat) (l : List Desc) : (advanceFront n l).length = l.length := by
  cases l <;> rfl

def RxResult.bytes (r : RxResult) : List U8 := r.data ++ r.packets.flatMap Packet.bytes

theorem zeroCopyRx_spec (hq : q.Wf) {q' : RxQueue} {total : Int} {packets : List Packet}
    (h : q.zeroCopyRx iovLen = some (q', total, packets)) :
    packets.flatMap Packet.bytes ++ listBytes q'.list = q.bytes ∧ q'.count = q'.list.length ∧
      (∀ d ∈ q'.list, d.Full) ∧ q'.byteCount = q.byteCount ∧
      total = cInt (packets.flatMap Packet.bytes).length := by
  unfold RxQueue.zeroCopyRx at h
  generalize cInt (iovLen - sizeofPackets - sizeofPacket - sizeofIovec) = len at h
  simp only at h
  split at h
  · cases h
  simp only [Option.some.injEq, Prod.mk.injEq] at h
  obtain ⟨rfl, rfl, rfl⟩ := h
  obtain ⟨h1, h2, h3⟩ := @zcopyList_spec len _ _
    (hq.count.trans (by rw [length_advanceFront])) (full_advanceFront hq)
  rw [listBytes_advanceFront hq] at h1
  exact ⟨h1, h2, h3, rfl, by rw [List.length_flatMap]⟩

theorem dequeuePacket_zcopy (hq : q.Wf) (hne : q.list ≠ []) (hlen : q.bytes.length < 2147483648) :
    ∃ q' r, q.dequeuePacket fuel iov ⟨false, true⟩ = some (q', r) ∧ q'.Wf ∧
      q.bytes = r.bytes ++ q'.bytes ∧ (r.ret = -1 ∧ r.bytes = [] ∨ r.ret = r.bytes.length) := by
  obtain ⟨d, hd⟩ := Option.ne_none_iff_exists'.mp (mt List.head?_eq_none_iff.mp hne)
  unfold RxQueue.dequeuePacket
  rw [hd]
  simp only [if_true]
  split
  · exact ⟨q, { ret := -1 }, rfl, hq, rfl, .inl ⟨rfl, rfl⟩⟩
  rename_i q' total packets hz
  obtain ⟨hbytes, hcount, hfull, hbc, htotal⟩ := zeroCopyRx_spec hq hz
  have hsum : (packets.flatMap Packet.bytes).length + (listBytes q'.list).length =
      q.bytes.length := by
    rw [← hbytes, List.length_append]
  have htotal' : total = (packets.flatMap Packet.bytes).length := by
    rw [htotal, cInt_of_lt] <;> omega
  refine ⟨_, _, rfl, ⟨hcount, hfull, ?_, fun _ => rfl, ?_, ?_⟩, ?_, .inr htotal'⟩
  · intro d' hd'
    exact List.length_pos_iff.mpr (hfull d' (List.mem_of_head? hd')).first.1
  · show cSize (q'.byteCount - total) = (listBytes q'.list).length
    rw [hbc, hq.byteCount, htotal', cSize_sub (by omega) hq.small]
    omega
  · show (listBytes q'.list).length < _
    have := hq.small
    omega
  · exact hbytes.symm

end Calls

/-! ## Runs -/

/-- The ready list with its history: the bytes delivered, the bytes returned by calls that consume, and
whether a call did not return. -/
structure RxRun where
  q : RxQueue
  delivered : List U8
  consumed : List U8
  hung : Bool

inductive RxEvent where
  | deliver (d : Desc)
  | dequeue (fuel : Nat) (iov : List Nat) (flags : RxFlags)

def RxRun.start : RxRun := ⟨.empty, [], [], false⟩

def RxRun.step (s : RxRun) : RxEvent → RxRun
  | .deliver d => { s with q := s.q.deliver d, delivered := s.delivered ++ d.bytes }
  | .dequeue fuel iov flags =>
    match s.q.dequeuePacket fuel iov flags with
    | none => { s with hung := true }
    | some (q, r) =>
      { s with q := q, consumed := if flags.peek then s.consumed else s.consumed ++ r.bytes }

/-- Chains come with data in every buffer and the length lwIP gives them. Calls come only while data is
ready, with room for the turns of their loops, and do not ask for a zero-copy peek. -/
def RxRun.admits (s : RxRun) : RxEvent → Bool
  | .deliver d =>
    d.Full && d.first.totLen = d.bytes.length &&
      s.q.bytes.length + d.bytes.length < 18446744073709551616
  | .dequeue fuel _ flags =>
    s.q.list ≠ [] && s.q.bytes.length < fuel && !(flags.peek && flags.zcopy)

/-- A call that returns what it should: each `iovec` is below 4 GiB, or its low 32 bits suffice for the
data that is left; and less than 2 GiB are returned. -/
def RxRun.orderly (s : RxRun) : RxEvent → Bool
  | .deliver _ => true
  | .dequeue _ iov flags =>
    if flags.zcopy then s.q.bytes.length < 2147483648
    else iovsFit s.q.bytes.length iov && min iov.sum s.q.bytes.length < 2147483648

structure RxRun.Inv (s : RxRun) : Prop where
  wf : s.q.Wf
  stream : s.delivered = s.consumed ++ s.q.bytes
  returned : s.hung = false

theorem RxRun.Inv.start : RxRun.Inv .start :=
  ⟨⟨rfl, by simp [RxRun.start, RxQueue.empty], by simp [RxRun.start, RxQueue.empty],
    fun _ => rfl, rfl, by decide⟩, rfl, rfl⟩

theorem bytes_deliver (hq : q.Wf) (d : Desc) : (q.deliver d).bytes = q.bytes ++ d.bytes := by
  have hle : q.offset ≤ (listBytes q.list).length := by
    cases hl : q.list with
    | nil => simp [hq.nil hl]
    | cons d' ds =>
      have := hq.front d' (by simp [hl])
      simp only [listBytes_cons, List.length_append]
      omega
  unfold RxQueue.bytes RxQueue.deliver
  simp only [listBytes, List.flatMap_append, List.flatMap_singleton]
  exact List.drop_append_of_le_length hle

theorem RxQueue.Wf.deliver (hq : q.Wf) {d : Desc} (hd : d.Full) (htot : d.first.totLen = d.bytes.length)
    (hsmall : q.bytes.length + d.bytes.length < 18446744073709551616) : (q.deliver d).Wf := by
  have hbytes := bytes_deliver hq d
  refine ⟨?_, ?_, ?_, by simp [RxQueue.deliver], ?_, ?_⟩
  · simp [RxQueue.deliver, hq.count]
  · intro d' hd'
    rcases List.mem_append.mp hd' with hd' | hd'
    · exact hq.full d' hd'
    rw [List.mem_singleton] at hd'
    subst hd'
    intro b hb
    rcases List.mem_cons.mp hb with rfl | hb
    · exact hd.first
    · exact hd b (List.mem_cons_of_mem _ hb)
  · intro d' hd'
    cases hl : q.list with
    | nil =>
      simp only [RxQueue.deliver, hl, List.nil_append, List.head?_cons, Option.mem_some] at hd'
      subst hd'
      simp only [RxQueue.deliver, hq.nil hl]
      exact List.length_pos_iff.mpr hd.first.1
    | cons d₀ ds =>
      simp only [RxQueue.deliver, hl, List.cons_append, List.head?_cons, Option.mem_some] at hd'
      subst hd'
      exact hq.front d₀ (by simp [hl])
  · rw [hbytes, List.length_append]
    show cSize (q.byteCount + d.first.totLen) = _
    rw [hq.byteCount, htot]
    exact_mod_cast cSize_of_lt hsmall
  · rw [hbytes, List.length_append]
    exact hsmall

theorem RxRun.Inv.step {s : RxRun} (h : s.Inv) {e : RxEvent} (ha : s.admits e = true)
    (ho : s.orderly e = true) : (s.step e).Inv := by
  cases e with
  | deliver d =>
    simp only [RxRun.admits, Bool.and_eq_true, decide_eq_true_eq] at ha
    obtain ⟨⟨hd, htot⟩, hsmall⟩ := ha
    refine ⟨h.wf.deliver hd htot hsmall, ?_, h.returned⟩
    show s.delivered ++ d.bytes = s.consumed ++ (s.q.deliver d).bytes
    rw [bytes_deliver h.wf, h.stream, List.append_assoc]
  | dequeue fuel iov flags =>
    obtain ⟨peek, zcopy⟩ := flags
    simp only [RxRun.admits, Bool.and_eq_true, decide_eq_true_eq] at ha
    obtain ⟨⟨hne, hfuel⟩, hflags⟩ := ha
    unfold RxRun.step
    cases zcopy with
    | true =>
      have hpeek : peek = false := by simpa using hflags
      subst hpeek
      have hlen : s.q.bytes.length < 2147483648 := by simpa [RxRun.orderly] using ho
      obtain ⟨q', r, hr, hwf, hbytes, -⟩ := @dequeuePacket_zcopy s.q fuel iov h.wf hne hlen
      simp only [hr, Bool.false_eq_true, if_false]
      refine ⟨hwf, ?_, h.returned⟩
      rw [List.append_assoc, ← hbytes]
      exact h.stream
    | false =>
      obtain ⟨hfit, hmin⟩ : iovsFit s.q.bytes.length iov = true ∧
          min iov.sum s.q.bytes.length < 2147483648 := by
        simpa [RxRun.orderly] using ho
      cases peek with
      | true =>
        simp only [dequeuePacket_peek h.wf hne hfit hmin hfuel]
        exact ⟨h.wf, h.stream, h.returned⟩
      | false =>
        obtain ⟨q', hr, hwf, hbytes⟩ := dequeuePacket_copy h.wf hne hfit hmin hfuel
        simp only [hr, Bool.false_eq_true, if_false]
        refine ⟨hwf, ?_, h.returned⟩
        rw [hbytes, List.append_assoc, RxResult.bytes, List.flatMap_nil, List.append_nil,
          List.take_append_drop]
        exact h.stream

/-- In every run of deliveries and orderly calls, every call returns, what the calls that consume return
is the stream from its start without gap or repetition, the byte count is what is left of it, and a
peek returns the next bytes and changes nothing. -/
theorem streamRead_exact {s : RxRun}
    (hr : Reach RxRun.step (fun s e => s.admits e = true ∧ s.orderly e = true) .start s) :
    s.hung = false ∧ s.delivered = s.consumed ++ s.q.bytes ∧
      s.q.byteCount = s.delivered.length - s.consumed.length ∧
      ∀ fuel iov, s.admits (.dequeue fuel iov ⟨true, false⟩) = true →
        s.orderly (.dequeue fuel iov ⟨true, false⟩) = true →
        s.q.dequeuePacket fuel iov ⟨true, false⟩ =
          some (s.q, { ret := min iov.sum s.q.bytes.length, data := s.q.bytes.take iov.sum }) := by
  have h : s.Inv := hr.inv (I := RxRun.Inv) .start fun _ _ h he => h.step he.1 he.2
  refine ⟨h.returned, h.stream, ?_, ?_⟩
  · rw [h.wf.byteCount, h.stream, List.length_append]
    omega
  · intro fuel iov ha ho
    simp only [RxRun.admits, Bool.and_eq_true, decide_eq_true_eq] at ha
    obtain ⟨⟨hne, hfuel⟩, -⟩ := ha
    obtain ⟨hfit, hmin⟩ : iovsFit s.q.bytes.length iov = true ∧
        min iov.sum s.q.bytes.length < 2147483648 := by
      simpa [RxRun.orderly] using ho
    rw [dequeuePacket_peek h.wf hne hfit hmin hfuel, List.length_take]
    norm_cast

def sampleDesc : Desc := ⟨⟨0, [1, 2, 3], 0, 3, 5⟩, [⟨1, [4, 5], 0, 2, 2⟩]⟩

/-- Two bytes are read into two `iovec`s, then the rest of the chain is handed out. -/
def sampleRun : RxRun :=
  ((RxRun.start.step (.deliver sampleDesc)).step (.dequeue 9 [1, 1] {})).step
    (.dequeue 9 [40] ⟨false, true⟩)

/-- The chain is split by a zero-copy read with room for one fragment. -/
theorem streamRead_exact_sample :
    sampleRun.consumed = [1, 2, 3] ∧ sampleRun.q.dequeuePacket 9 [8] ⟨true, false⟩ =
      some (sampleRun.q, { ret := 2, data := [4, 5] }) := by
  have hr : Reach RxRun.step (fun s e => s.admits e = true ∧ s.orderly e = true) .start sampleRun :=
    .next (.next (.next .start (RxEvent.deliver sampleDesc) (by decide +kernel))
      (RxEvent.dequeue 9 [1, 1] {}) (by decide +kernel))
      (RxEvent.dequeue 9 [40] ⟨false, true⟩) (by decide +kernel)
  refine ⟨by decide +kernel, ?_⟩
  rw [(streamRead_exact hr).2.2.2 9 [8] (by decide +kernel) (by decide +kernel)]
  decide +kernel

def byteDesc : Desc := ⟨⟨0, [7], 0, 1, 1⟩, []⟩

/-- A read into 4 GiB of memory, with one byte ready, never returns. -/
theorem streamRead_hangs :
    RxRun.start.admits (.deliver byteDesc) = true ∧
      ∀ fuel, ((RxRun.start.step (.deliver byteDesc)).step
        (.dequeue fuel [4294967296] {})).hung = true := by
  have hadm : RxRun.start.admits (.deliver byteDesc) = true := by decide +kernel
  have hinv := RxRun.Inv.start.step hadm rfl
  refine ⟨hadm, fun fuel => ?_⟩
  have hnone := @dequeuePacket_hangs _ false [] hinv.wf 4294967296 (Nat.le_refl _)
    (by decide +kernel) (by decide +kernel) fuel
  unfold RxRun.step at hnone ⊢
  simp only at hnone ⊢
  rw [hnone]

end LibvmaTlt.Sock
