import Mathlib.Data.List.Basic
import Mathlib.Data.Nat.Bitwise
import Mathlib.Logic.Function.Basic
import Mathlib.Tactic.Common
import LibvmaTlt.Lib.Chain
import LibvmaTlt.Lib.Holes
import LibvmaTlt.Lib.Reach
import LibvmaTlt.Proto.UdpSend

/-!
# Reassembly of IP fragments

`ip_frag_manager` keeps, for each datagram of which it has seen a fragment, the list of its holes and
the fragments linked in order. `add_frag` runs the algorithm of RFC 815 on 16-bit ends. A buffer is
named by the number of its arrival, so that a buffer the pool hands out again is a new one; `hdr` gives
the IP header that stands in each buffer.
-/

namespace LibvmaTlt.Proto

open Holes Fragments

/-! ## The manager -/

abbrev ipFragTtl : Nat := 2
abbrev ipFragInf : Nat := 0xFFFF
abbrev ipFragNinf : Nat := 0
abbrev ipFragSpace : Nat := 60000

/-- The fields of an IP header that `add_frag` reads, in host order. -/
structure IpHdr where
  id : BitVec 16
  saddr : BitVec 32
  daddr : BitVec 32
  protocol : BitVec 8
  fragOff : BitVec 16
  totLen : BitVec 16
  ihl : BitVec 4
  deriving DecidableEq

structure FragKey where
  ipId : BitVec 16
  srcIp : BitVec 32
  dstIp : BitVec 32
  ipproto : BitVec 8
  deriving DecidableEq

def IpHdr.key (h : IpHdr) : FragKey := ⟨h.id, h.saddr, h.daddr, h.protocol⟩

def IpHdr.moreFrags (h : IpHdr) : Bool := h.fragOff.toNat &&& moreFragmentsFlag ≠ 0

def IpHdr.fragFirst (h : IpHdr) : Nat := toU16 ((h.fragOff.toNat &&& fragmentOffset) * 8)

/-- The last byte, computed as an `int` and stored in 16 bits. -/
def IpHdr.fragLast (h : IpHdr) : Nat :=
  (((h.fragFirst : Int) + h.totLen.toNat - (h.ihl.toNat * 4 : Nat) - 1) % 65536).toNat

/-- The bytes behind the header; `fragLast` agrees with it unless there are none or 16 bits are too
few. -/
def IpHdr.dataLen (h : IpHdr) : Nat := h.totLen.toNat - h.ihl.toNat * 4

/-- `ip_frag_hole_desc`, in the list of its datagram. -/
abbrev HoleDesc := Hole Nat

structure FragDesc where
  ttl : Nat
  holeList : List HoleDesc
  fragList : Option Nat
  fragCounter : Int
  deriving DecidableEq

/-- The manager, with the links `p_next_desc` of the buffers; `arrived` counts the buffers passed to
it so far. -/
structure IpFragManager where
  fragCounter : Nat
  frags : FragKey → Option FragDesc
  next : Nat → Option Nat
  arrived : Nat

def IpFragManager.init : IpFragManager := ⟨0, fun _ => none, fun _ => none, 0⟩

/-- The allocations of one call: of the first hole and the descriptor of a new datagram, and of the
holes on the left and on the right of the fragment. -/
structure Alloc where
  hole : Bool := true
  desc : Bool := true
  left : Bool := true
  right : Bool := true

def Alloc.ok (a : Alloc) : Bool := a.hole && a.desc && a.left && a.right

/-- What `add_frag` returns: −1, 0 without and 0 with a datagram. -/
inductive FragResult where
  | dropped
  | pending
  | assembled (fragList : Option Nat)
  deriving DecidableEq

def IpFragManager.newFragDesc (m : IpFragManager) (alloc : Alloc) : Option FragDesc :=
  if !alloc.hole || !alloc.desc then none
  else some ⟨ipFragTtl, [⟨ipFragNinf, ipFragInf, none, none⟩], none, m.fragCounter⟩

/-- The datagram the fragment belongs to: the one in the map unless that expires, or a new one. -/
def IpFragManager.descOf (m : IpFragManager) (key : FragKey) (alloc : Alloc) : Option FragDesc :=
  match m.frags key with
  | none => m.newFragDesc alloc
  | some desc =>
    if ((m.fragCounter : Int) - desc.fragCounter) % 18446744073709551616 > ipFragSpace then
      m.newFragDesc alloc
    else some desc

/-- Steps 1 to 3: the holes in front of the first one that takes the fragment, that one, and the
rest. -/
def findHole (first last : Nat) : List HoleDesc → Option (List HoleDesc × HoleDesc × List HoleDesc)
  | [] => none
  | h :: hs =>
    if first ≥ h.first ∧ last ≤ h.last then some ([], h, hs)
    else (findHole first last hs).map fun r => (h :: r.1, r.2.1, r.2.2)

/-- A buffer is linked in between those on the two sides of a hole. -/
def linkFrag (next : Nat → Option Nat) (phole : HoleDesc) (frag : Nat) : Nat → Option Nat :=
  Function.update
    (match phole.dataFirst with
      | some p => Function.update next p (some frag)
      | none => next)
    frag phole.dataLast

def IpFragManager.place (m : IpFragManager) (h : IpHdr) (frag : Nat) (alloc : Alloc) (desc : FragDesc)
    (prev : List HoleDesc) (phole : HoleDesc) (rest : List HoleDesc) : IpFragManager × FragResult :=
  let put holes := { m with frags := Function.update m.frags h.key (some { desc with holeList := holes }) }
  if h.fragFirst > phole.first ∧ alloc.left = false then (put (prev ++ rest), .dropped)
  else
    let left : List HoleDesc :=
      if h.fragFirst > phole.first then [⟨phole.first, h.fragFirst - 1, phole.dataFirst, some frag⟩]
      else []
    if (h.fragLast < phole.last ∧ h.moreFrags = true) ∧ alloc.right = false then
      (put (prev ++ left ++ rest), .dropped)
    else
      let right : List HoleDesc :=
        if h.fragLast < phole.last ∧ h.moreFrags = true then
          [⟨h.fragLast + 1, phole.last, some frag, phole.dataLast⟩]
        else []
      let holes := prev ++ (left ++ right) ++ rest
      let fragList := if phole.dataFirst = none then some frag else desc.fragList
      let m := { m with next := linkFrag m.next phole frag }
      if holes = [] then
        ({ m with frags := Function.update m.frags h.key none }, .assembled fragList)
      else
        ({ m with
            frags := Function.update m.frags h.key
              (some { desc with holeList := holes, fragList := fragList }) },
          .pending)

def IpFragManager.arrive (m : IpFragManager) : IpFragManager :=
  { m with fragCounter := (m.fragCounter + 1) % 18446744073709551616, arrived := m.arrived + 1 }

/-- `add_frag` for the next buffer, with header `h`. -/
def IpFragManager.addFrag (m : IpFragManager) (h : IpHdr) (alloc : Alloc) :
    IpFragManager × FragResult :=
  let frag := m.arrived
  let m := m.arrive
  match m.descOf h.key alloc with
  | none => ({ m with frags := Function.update m.frags h.key none }, .dropped)
  | some desc =>
    let m := { m with frags := Function.update m.frags h.key (some desc) }
    match findHole h.fragFirst h.fragLast desc.holeList with
    | none => (m, .dropped)
    | some (prev, phole, rest) => m.place h frag alloc desc prev phole rest

def FragDesc.tick (desc : FragDesc) (delta : Nat) : Option FragDesc :=
  let fragCounter := (desc.fragCounter - delta).bmod 18446744073709551616
  if fragCounter < 0 ∨ desc.ttl ≤ 0 then none
  else some { desc with fragCounter := fragCounter, ttl := desc.ttl - 1 }

/-- `handle_timer_expired`. The buffers of a discarded datagram go back to their owners. -/
def IpFragManager.handleTimerExpired (m : IpFragManager) : IpFragManager :=
  let delta := if m.fragCounter > ipFragSpace then m.fragCounter - ipFragSpace else 0
  { m with
    fragCounter := m.fragCounter - delta
    frags := fun key => (m.frags key).bind (·.tick delta) }

/-! ## Runs -/

/-- What happens to the manager: the next fragment, or the timer. -/
inductive FragEvent where
  | frag (alloc : Alloc)
  | timer

def IpFragManager.step (hdr : Nat → IpHdr) (m : IpFragManager) : FragEvent → IpFragManager
  | .frag alloc => (m.addFrag (hdr m.arrived) alloc).1
  | .timer => m.handleTimerExpired

/-- The condition on a fragment that some hole takes. With more to follow it is not empty and ends
below 65535; the last fragment falls into the hole at the end. -/
def IpFragManager.wellPlaced (m : IpFragManager) (h : IpHdr) (alloc : Alloc) : Bool :=
  match m.arrive.descOf h.key alloc with
  | none => true
  | some desc =>
    match findHole h.fragFirst h.fragLast desc.holeList with
    | none => true
    | some (_, phole, _) =>
      if h.moreFrags then h.ihl.toNat * 4 < h.totLen.toNat && h.fragFirst + h.dataLen ≤ ipFragInf
      else phole.last = ipFragInf

/-- Every allocation succeeds, and the fragments are well placed. -/
def IpFragManager.admits (hdr : Nat → IpHdr) (m : IpFragManager) : FragEvent → Bool
  | .frag alloc => alloc.ok && m.wellPlaced (hdr m.arrived) alloc
  | .timer => true

/-! ## The fragments of a datagram -/

section Held

variable (hdr : Nat → IpHdr)

def bufFirst (f : Nat) : Nat := (hdr f).fragFirst
def bufStop (f : Nat) : Nat := (hdr f).fragLast + 1
def bufMore (f : Nat) : Bool := (hdr f).moreFrags
def bufLen (f : Nat) : Nat := (hdr f).dataLen

/-- The buffers `l` are what the manager has of a datagram: its list links them, its holes are the gaps
between them. -/
structure Held (next : Nat → Option Nat) (arrived : Nat) (key : FragKey) (desc : FragDesc)
    (l : List Nat) : Prop where
  chain : Chain next desc.fragList l
  holes : desc.holeList = gaps (bufFirst hdr) (bufStop hdr) (bufMore hdr) ipFragInf 0 none true l
  placed : Placed (bufFirst hdr) (bufStop hdr) (bufMore hdr) ipFragInf 0 true l
  old : ∀ f ∈ l, f < arrived
  key : ∀ f ∈ l, (hdr f).key = key
  len : ∀ f ∈ l, bufMore hdr f = true → bufFirst hdr f + bufLen hdr f = bufStop hdr f

/-- The completed datagram: fragments of one key in increasing order, from offset 0 on without gap or
overlap, of which only the last has MF clear. -/
structure Reassembled (key : FragKey) (l : List Nat) : Prop where
  key : ∀ f ∈ l, (hdr f).key = key
  sorted : l.Pairwise fun f g => bufFirst hdr f < bufFirst hdr g
  whole : Whole (bufFirst hdr) (bufLen hdr) (bufMore hdr) 0 l

def IpFragManager.Inv (m : IpFragManager) : Prop :=
  ∀ key desc, m.frags key = some desc → ∃ l, Held hdr m.next m.arrived key desc l

variable {hdr} {next next' : Nat → Option Nat} {n : Nat} {key : FragKey} {desc : FragDesc}
  {l : List Nat} {prev rest : List HoleDesc} {phole : HoleDesc}

theorem IpHdr.fragFirst_lt (h : IpHdr) : h.fragFirst < ipFragInf := by
  have hand : h.fragOff.toNat &&& fragmentOffset ≤ 8191 := Nat.and_le_right
  unfold IpHdr.fragFirst toU16
  simp only [ipFragInf]
  omega

theorem IpHdr.fragLast_eq {h : IpHdr} (hpos : h.ihl.toNat * 4 < h.totLen.toNat)
    (hle : h.fragFirst + h.dataLen ≤ ipFragInf) : h.fragLast + 1 = h.fragFirst + h.dataLen := by
  unfold IpHdr.dataLen at *
  unfold IpHdr.fragLast
  simp only [ipFragInf] at hle
  omega

theorem Held.nodup (h : Held hdr next n key desc l) : l.Nodup :=
  h.placed.sorted.2.imp fun hlt heq => by simp [heq] at hlt

theorem Held.frame (h : Held hdr next n key desc l) {n' : Nat} (hn : n ≤ n')
    (heq : ∀ f ∈ l, next' f = next f) : Held hdr next' n' key desc l :=
  { h with
    chain := h.chain.transport heq
    old := fun f hf => Nat.lt_of_lt_of_le (h.old f hf) hn }

theorem Held.tick (h : Held hdr next n key desc l) {delta : Nat} {desc' : FragDesc}
    (ht : desc.tick delta = some desc') : Held hdr next n key desc' l := by
  unfold FragDesc.tick at ht
  dsimp only at ht
  split at ht
  · cases ht
  · cases ht
    exact { h with }

theorem fill_of_findHole {holes : List HoleDesc}
    (h : findHole (hdr n).fragFirst (hdr n).fragLast holes = some (prev, phole, rest)) :
    phole ∈ holes ∧ fill (bufFirst hdr) (bufStop hdr) (bufMore hdr) n holes =
      some (phole, prev ++ phole.parts (bufFirst hdr) (bufStop hdr) (bufMore hdr) n ++ rest) := by
  induction holes generalizing prev with
  | nil => cases h
  | cons g gs ih =>
    have htakes : g.Takes (bufFirst hdr) (bufStop hdr) n ↔
        (hdr n).fragFirst ≥ g.first ∧ (hdr n).fragLast ≤ g.last :=
      and_congr_right fun _ => Nat.succ_le_succ_iff
    unfold findHole at h
    unfold fill
    simp only [htakes]
    split at h
    · cases h
      rename_i hc
      rw [if_pos hc]
      exact ⟨by simp, rfl⟩
    · rename_i hc
      rw [Option.map_eq_some_iff] at h
      obtain ⟨⟨prev', phole', rest'⟩, h', heq⟩ := h
      cases heq
      obtain ⟨hmem, hfill⟩ := ih h'
      rw [if_neg hc, hfill]
      exact ⟨List.mem_cons_of_mem _ hmem, rfl⟩

theorem linkFrag_of_ne {c : Nat} (hn : c ≠ n) (hd : c ∉ phole.dataFirst) :
    linkFrag next phole n c = next c := by
  unfold linkFrag
  rw [Function.update_of_ne hn]
  cases hp : phole.dataFirst with
  | none => rfl
  | some p =>
    have hcp : c ≠ p := fun he => hd (by simp [hp, he])
    simp only [Function.update_of_ne hcp]

theorem Held.place (h : Held hdr next n key desc l) (hkey : (hdr n).key = key)
    (hfind : findHole (hdr n).fragFirst (hdr n).fragLast desc.holeList = some (prev, phole, rest))
    (hmore : (hdr n).moreFrags = true →
      (hdr n).ihl.toNat * 4 < (hdr n).totLen.toNat ∧
        (hdr n).fragFirst + (hdr n).dataLen ≤ ipFragInf)
    (hlast : (hdr n).moreFrags = false → phole.last = ipFragInf) :
    (∀ p ∈ phole.dataFirst, p ∈ l) ∧
    ∃ l', (∀ f, f ∈ l' ↔ f = n ∨ f ∈ l) ∧ Held hdr (linkFrag next phole n) (n + 1) key
      { desc with
        holeList := prev ++ phole.parts (bufFirst hdr) (bufStop hdr) (bufMore hdr) n ++ rest
        fragList := if phole.dataFirst = none then some n else desc.fragList } l' := by
  obtain ⟨hmem, hfill⟩ := fill_of_findHole hfind
  rw [h.holes] at hmem hfill
  have hsane : Sane (bufFirst hdr) (bufStop hdr) (bufMore hdr) ipFragInf n := by
    intro hm
    obtain ⟨hpos, hle⟩ := hmore hm
    have := IpHdr.fragLast_eq hpos hle
    unfold bufFirst bufStop
    unfold IpHdr.dataLen at *
    omega
  have hend : bufMore hdr n = false → phole.dataLast = none := by
    intro hm
    rcases last_of_mem_gaps hmem with ⟨hnone, -⟩ | ⟨g, -, -, h1⟩
    · exact hnone
    · rw [hlast hm] at h1
      exact absurd (IpHdr.fragFirst_lt (hdr g)) (Nat.lt_asymm h1)
  obtain ⟨l₁, l₂, rfl, hfirst, hdlast, hgaps, hplaced⟩ := fill_gaps h.placed hsane hfill hend
  rw [Option.or_none] at hfirst
  have hnew : n ∉ l₁ ++ l₂ := fun hn => absurd (h.old n hn) (Nat.lt_irrefl n)
  have hne : ∀ f ∈ l₁ ++ l₂, f ≠ n := fun f hf he => hnew (he ▸ hf)
  have hdata : ∀ p ∈ phole.dataFirst, p ∈ l₁ ++ l₂ := fun p hp =>
    List.mem_append_left _ (List.mem_of_getLast? (hfirst ▸ hp))
  have hall : ∀ {P : Nat → Prop}, (∀ f ∈ l₁ ++ l₂, P f) → P n → ∀ f ∈ l₁ ++ n :: l₂, P f := by
    intro P hl hn
    rw [List.forall_mem_append] at hl
    exact List.forall_mem_append.mpr ⟨hl.1, List.forall_mem_cons.mpr ⟨hn, hl.2⟩⟩
  refine ⟨hdata, l₁ ++ n :: l₂, ?_, ?_, hgaps, hplaced, ?_, hall h.key hkey, hall h.len ?_⟩
  · intro f
    simp only [List.mem_append, List.mem_cons]
    exact or_left_comm
  · -- the buffer on the left now points to the new one, the new one to the buffer on the right
    have hleft : ∀ c ∈ l₁.getLast?, linkFrag next phole n c = some n := by
      intro c hc
      have hcn : c ≠ n := hne c (List.mem_append_left _ (List.mem_of_getLast? hc))
      have hd : phole.dataFirst = some c := hfirst.trans hc
      simp [linkFrag, hd, hcn]
    have hrest : ∀ c ∈ l₁ ++ l₂, c ∉ l₁.getLast? → linkFrag next phole n c = next c := by
      intro c hc hcl
      exact linkFrag_of_ne (hne c hc) (hfirst ▸ hcl)
    have hchain : Chain (linkFrag next phole n) _ _ :=
      h.chain.link h.nodup hnew (by simp [linkFrag, hdlast]) hleft hrest
    have hnil : phole.dataFirst = none ↔ l₁ = [] := by rw [hfirst, List.getLast?_eq_none_iff]
    simpa only [hnil] using hchain
  · exact hall (fun f hf => Nat.lt_succ_of_lt (h.old f hf)) (Nat.lt_succ_self n)
  · intro hm
    obtain ⟨hpos, hle⟩ := hmore hm
    exact (IpHdr.fragLast_eq hpos hle).symm

/-! ## What `addFrag` does -/

variable {m : IpFragManager} {alloc : Alloc}

theorem IpFragManager.place_cases (halloc : alloc.ok = true) {h : IpHdr} {desc : FragDesc} :
    let desc' : FragDesc :=
      { desc with
        holeList := prev ++ phole.parts (fun _ => h.fragFirst) (fun _ => h.fragLast + 1)
          (fun _ => h.moreFrags) n ++ rest
        fragList := if phole.dataFirst = none then some n else desc.fragList }
    m.place h n alloc desc prev phole rest =
      if desc'.holeList = [] then
        ({ m with next := linkFrag m.next phole n, frags := Function.update m.frags h.key none },
          .assembled desc'.fragList)
      else
        ({ m with next := linkFrag m.next phole n
                  frags := Function.update m.frags h.key (some desc') },
          .pending) := by
  obtain ⟨⟨⟨-, -⟩, hleft⟩, hright⟩ : ((_ ∧ _) ∧ alloc.left = true) ∧ alloc.right = true := by
    simpa [Alloc.ok] using halloc
  unfold IpFragManager.place
  simp only [hleft, hright, Bool.true_eq_false, and_false, if_false]
  rfl

theorem IpFragManager.Inv.descOf (hi : m.Inv hdr)
    (hd : m.arrive.descOf key alloc = some desc) : ∃ l, Held hdr m.next m.arrived key desc l := by
  have hnew : ∀ {d}, m.arrive.newFragDesc alloc = some d →
      ∃ l, Held hdr m.next m.arrived key d l := by
    intro d hd
    unfold IpFragManager.newFragDesc at hd
    split at hd
    · cases hd
    · cases hd
      exact ⟨[], by simp, rfl, trivial, by simp, by simp, by simp⟩
  unfold IpFragManager.descOf at hd
  split at hd
  · exact hnew hd
  rename_i d hmap
  split at hd
  · exact hnew hd
  · cases hd
    exact hi key desc hmap

theorem IpFragManager.Inv.update (hi : m.Inv hdr) {v : Option FragDesc} {n' counter : Nat}
    (hn : m.arrived ≤ n')
    (hother : ∀ f, f < m.arrived → (hdr f).key ≠ key → next' f = m.next f)
    (hv : ∀ d, v = some d → ∃ l, Held hdr next' n' key d l) :
    IpFragManager.Inv hdr ⟨counter, Function.update m.frags key v, next', n'⟩ := by
  intro k d hd
  by_cases hk : k = key
  · subst hk
    exact hv d (by simpa using hd)
  · simp only [Function.update_of_ne hk] at hd
    obtain ⟨l, hl⟩ := hi k d hd
    exact ⟨l, hl.frame hn fun f hf => hother f (hl.old f hf) (by rw [hl.key f hf]; exact hk)⟩

theorem IpFragManager.addFrag_spec (hi : m.Inv hdr) (halloc : alloc.ok = true)
    (hw : m.wellPlaced (hdr m.arrived) alloc = true) :
    (m.addFrag (hdr m.arrived) alloc).1.Inv hdr ∧
      ∀ first, (m.addFrag (hdr m.arrived) alloc).2 = .assembled first →
        ∃ l, Chain (m.addFrag (hdr m.arrived) alloc).1.next first l ∧
          Reassembled hdr (hdr m.arrived).key l := by
  have hle : m.arrived ≤ m.arrived + 1 := Nat.le_succ _
  unfold IpFragManager.wellPlaced at hw
  unfold IpFragManager.addFrag
  dsimp only
  split at hw
  · -- no descriptor
    exact ⟨hi.update hle (fun _ _ _ => rfl) (by simp), by simp⟩
  rename_i desc hd
  obtain ⟨l, hl⟩ := hi.descOf hd
  split at hw
  · -- no hole takes the fragment
    refine ⟨hi.update hle (fun _ _ _ => rfl) ?_, by simp⟩
    rintro d ⟨⟩
    exact ⟨l, hl.frame hle fun _ _ => rfl⟩
  · rename_i prev phole rest hfind
    have hmore : (hdr m.arrived).moreFrags = true →
        (hdr m.arrived).ihl.toNat * 4 < (hdr m.arrived).totLen.toNat ∧
          (hdr m.arrived).fragFirst + (hdr m.arrived).dataLen ≤ ipFragInf := by
      intro hm
      simpa [hm] using hw
    have hlast : (hdr m.arrived).moreFrags = false → phole.last = ipFragInf := by
      intro hm
      simpa [hm] using hw
    obtain ⟨hdata, l', -, hl'⟩ := hl.place rfl hfind hmore hlast
    have hother : ∀ f, f < m.arrived → (hdr f).key ≠ (hdr m.arrived).key →
        linkFrag m.next phole m.arrived f = m.next f := fun f hf hk =>
      linkFrag_of_ne (Nat.ne_of_lt hf) fun hp => hk (hl.key f (hdata f hp))
    rw [IpFragManager.place_cases halloc]
    dsimp only
    rw [Function.update_idem, Function.update_idem]
    split
    · rename_i hnil
      refine ⟨hi.update hle hother (by simp), ?_⟩
      rintro first ⟨⟩
      refine ⟨l', hl'.chain, hl'.key, hl'.placed.sorted.2, ?_⟩
      exact whole_of_gaps_nil hl'.len hl'.placed (hl'.holes.symm.trans hnil)
    · refine ⟨hi.update hle hother ?_, by simp⟩
      rintro d ⟨⟩
      exact ⟨l', hl'⟩

theorem IpFragManager.Inv.timer (hi : m.Inv hdr) : m.handleTimerExpired.Inv hdr := by
  intro key desc hd
  obtain ⟨desc₀, hmap, htick⟩ := Option.bind_eq_some_iff.mp hd
  obtain ⟨l, hl⟩ := hi key desc₀ hmap
  exact ⟨l, hl.tick htick⟩

theorem IpFragManager.Inv.step (hi : m.Inv hdr) {e : FragEvent} (he : m.admits hdr e = true) :
    (m.step hdr e).Inv hdr := by
  cases e with
  | frag alloc =>
    obtain ⟨halloc, hw⟩ := (Bool.and_eq_true _ _).mp he
    exact (IpFragManager.addFrag_spec hi halloc hw).1
  | timer => exact hi.timer

/-- In every run whose fragments are all well placed, a datagram that `addFrag` hands out consists of
fragments of one key that follow each other from offset 0 to the only one with MF clear. -/
theorem addFrag_assembled_whole
    (hr : Reach (IpFragManager.step hdr) (fun m e => m.admits hdr e = true) .init m)
    (halloc : alloc.ok = true) (hw : m.wellPlaced (hdr m.arrived) alloc = true) {first : Option Nat}
    (hdone : (m.addFrag (hdr m.arrived) alloc).2 = .assembled first) :
    ∃ l, Chain (m.addFrag (hdr m.arrived) alloc).1.next first l ∧
      Reassembled hdr (hdr m.arrived).key l := by
  have hi : m.Inv hdr := hr.inv (I := IpFragManager.Inv hdr) (fun _ _ h => by cases h)
    fun _ _ hi he => hi.step he
  exact (IpFragManager.addFrag_spec hi halloc hw).2 first hdone

end Held

/-! ## A gap in the middle -/

def sampleHdr (fragOff totLen : Nat) : IpHdr :=
  ⟨1, 0x0a000001, 0x0a000002, 17, BitVec.ofNat 16 fragOff, BitVec.ofNat 16 totLen, 5⟩

def orderlyHdr : Nat → IpHdr
  | 0 => sampleHdr 0x2001 28
  | 1 => sampleHdr 0x2000 28
  | _ => sampleHdr 2 24

def IpFragManager.run (hdr : Nat → IpHdr) (es : List FragEvent) : IpFragManager :=
  es.foldl (IpFragManager.step hdr) .init

/-- The three fragments in another order, with the timer between them. -/
theorem addFrag_assembled_orderly :
    ∃ l, Chain ((IpFragManager.run orderlyHdr [.frag {}, .timer, .frag {}]).addFrag
        (orderlyHdr 2) {}).1.next (some 1) l ∧
      Reassembled orderlyHdr (orderlyHdr 2).key l := by
  have hr : Reach (IpFragManager.step orderlyHdr) (fun m e => m.admits orderlyHdr e = true) .init
      (IpFragManager.run orderlyHdr [.frag {}, .timer, .frag {}]) :=
    .next (.next (.next .start (FragEvent.frag {}) (by decide +kernel)) FragEvent.timer rfl)
      (FragEvent.frag {}) (by decide +kernel)
  exact addFrag_assembled_whole hr rfl (by decide +kernel) (by decide +kernel)

/-- Bytes 8 to 15 with MF, then bytes 0 to 3 without MF, which fall into the hole in front, then bytes
16 to 23 without MF. -/
def gapHdr : Nat → IpHdr
  | 0 => sampleHdr 0x2001 28
  | 1 => sampleHdr 0 24
  | _ => sampleHdr 2 28

/-- The datagram is handed out although bytes 4 to 7 are missing and two fragments have MF clear. -/
theorem addFrag_gap :
    ((IpFragManager.run gapHdr [.frag {}, .frag {}]).addFrag (gapHdr 2) {}).2 = .assembled (some 1) ∧
      ¬ ∃ l, Chain ((IpFragManager.run gapHdr [.frag {}, .frag {}]).addFrag (gapHdr 2) {}).1.next
          (some 1) l ∧ Reassembled gapHdr (gapHdr 2).key l := by
  refine ⟨by decide +kernel, ?_⟩
  rintro ⟨l, hl, hwhole⟩
  have hchain : Chain ((IpFragManager.run gapHdr [.frag {}, .frag {}]).addFrag (gapHdr 2) {}).1.next
      (some 1) [1, 0, 2] := by
    simp only [Chain.cons_iff, Chain.nil_iff]
    decide +kernel
  obtain rfl := hl.unique hchain
  exact absurd hwhole.whole (by decide +kernel)

/-! ## Holes that cannot be allocated -/

/-- The datagram of a fragment before the call; one that expires is not that of the fragment. -/
def IpFragManager.held (m : IpFragManager) (key : FragKey) : Option FragDesc :=
  m.arrive.descOf key { hole := false }

/-- The call fails for want of a hole: of the first one of a new datagram, or of one on a side of the
fragment. -/
def IpFragManager.holeFails (m : IpFragManager) (h : IpHdr) (alloc : Alloc) : Prop :=
  match m.arrive.descOf h.key alloc with
  | none => alloc.hole = false
  | some desc =>
    match findHole h.fragFirst h.fragLast desc.holeList with
    | none => False
    | some (_, phole, _) =>
      (h.fragFirst > phole.first ∧ alloc.left = false) ∨
        ((h.fragLast < phole.last ∧ h.moreFrags = true) ∧ alloc.right = false)

def FragDesc.missing (desc : FragDesc) : List (Nat × Nat) :=
  desc.holeList.map fun g => (g.first, g.last)

/-- The datagram is as it was, and nothing in it refers to the fragment. -/
structure FragRefused (m m' : IpFragManager) (key : FragKey) (frag : Nat) : Prop where
  missing : (m'.frags key).map FragDesc.missing = (m.held key).map FragDesc.missing
  fragList : (m'.frags key).map FragDesc.fragList = (m.held key).map FragDesc.fragList
  links : m'.next = m.next
  others : ∀ k ≠ key, m'.frags k = m.frags k
  unknown : ∀ desc, m'.frags key = some desc →
    desc.fragList ≠ some frag ∧ ∀ g ∈ desc.holeList, g.dataFirst ≠ some frag ∧ g.dataLast ≠ some frag

section HoleFails

variable {m : IpFragManager} {h : IpHdr} {alloc : Alloc} {key : FragKey}

theorem descOf_of_held {desc : FragDesc} (hh : m.held key = some desc) :
    m.arrive.descOf key alloc = some desc := by
  unfold IpFragManager.held IpFragManager.descOf at *
  split at hh
  · cases hh
  split at hh
  · cases hh
  · rename_i hc
    rw [if_neg hc]
    exact hh

theorem findHole_some {first last : Nat} {holes prev rest : List HoleDesc} {phole : HoleDesc}
    (h : findHole first last holes = some (prev, phole, rest)) :
    holes = prev ++ phole :: rest ∧ first ≥ phole.first ∧ last ≤ phole.last := by
  induction holes generalizing prev with
  | nil => cases h
  | cons g gs ih =>
    unfold findHole at h
    split at h
    · next hc =>
      cases h
      exact ⟨rfl, hc⟩
    · obtain ⟨⟨prev', phole', rest'⟩, h', heq⟩ := Option.map_eq_some_iff.mp h
      cases heq
      obtain ⟨rfl, hc⟩ := ih h'
      exact ⟨rfl, hc⟩

theorem place_refused {frag : Nat} {desc : FragDesc} {prev rest : List HoleDesc} {phole : HoleDesc}
    (hfail : (h.fragFirst > phole.first ∧ alloc.left = false) ∨
      ((h.fragLast < phole.last ∧ h.moreFrags = true) ∧ alloc.right = false)) :
    ∃ left : List HoleDesc, (left = [] ∨ ∃ g, left = [g] ∧ g.dataLast = some frag) ∧
      m.place h frag alloc desc prev phole rest =
        ({ m with
            frags := Function.update m.frags h.key
              (some { desc with holeList := prev ++ left ++ rest }) },
          .dropped) := by
  unfold IpFragManager.place
  by_cases hleft : h.fragFirst > phole.first ∧ alloc.left = false
  · refine ⟨[], .inl rfl, ?_⟩
    simp only [if_pos hleft, List.append_nil]
  have hright := hfail.resolve_left hleft
  simp only [if_neg hleft, if_pos hright]
  by_cases hgt : h.fragFirst > phole.first
  · refine ⟨[⟨phole.first, h.fragFirst - 1, phole.dataFirst, some frag⟩], .inr ⟨_, rfl, rfl⟩, ?_⟩
    simp only [if_pos hgt]
  · exact ⟨[], .inl rfl, by simp only [if_neg hgt]⟩

/-- **A fragment that is refused for want of a hole** leaves its datagram alone exactly if there was
none yet and it is the first hole that is missing. -/
theorem addFrag_refused_iff (hfail : m.holeFails h alloc) :
    (m.addFrag h alloc).2 = .dropped ∧
      (FragRefused m (m.addFrag h alloc).1 h.key m.arrived ↔
        m.held h.key = none ∧ alloc.hole = false) := by
  unfold IpFragManager.holeFails at hfail
  unfold IpFragManager.addFrag
  cases hd : m.arrive.descOf h.key alloc with
  | none =>
    rw [hd] at hfail
    have hnone : m.held h.key = none := by
      cases hh : m.held h.key with
      | none => rfl
      | some desc => rw [descOf_of_held hh] at hd; cases hd
    simp only [hd, true_and]
    refine ⟨fun _ => ⟨hnone, hfail⟩, fun _ => ⟨?_, ?_, rfl, fun k hk => ?_, fun desc hdesc => ?_⟩⟩
    · simp only [Function.update_self, hnone, Option.map_none]
    · simp only [Function.update_self, hnone, Option.map_none]
    · exact Function.update_of_ne hk _ _
    · simp only [Function.update_self, reduceCtorEq] at hdesc
  | some desc =>
    rw [hd] at hfail
    cases hf : findHole h.fragFirst h.fragLast desc.holeList with
    | none =>
      simp only [hf] at hfail
    | some r =>
      obtain ⟨prev, phole, rest⟩ := r
      simp only [hf] at hfail
      obtain ⟨left, hleft, heq⟩ := @place_refused
        { m.arrive with frags := Function.update m.arrive.frags h.key (some desc) } h alloc m.arrived
        desc prev rest phole hfail
      simp only [hd, hf, heq, true_and]
      constructor
      · intro hr
        exfalso
        rcases hleft with rfl | ⟨g, rfl, hg⟩
        · -- a hole fewer, or a datagram where there was none
          have hmiss := hr.missing
          simp only [Function.update_self, Option.map_some] at hmiss
          cases hh : m.held h.key with
          | none =>
            rw [hh] at hmiss
            cases hmiss
          | some old =>
            obtain rfl := Option.some.inj ((descOf_of_held hh).symm.trans hd)
            rw [hh, Option.map_some] at hmiss
            have hlen := congrArg List.length (Option.some.inj hmiss)
            simp only [FragDesc.missing, (findHole_some hf).1, List.length_map, List.length_append,
              List.length_cons, List.length_nil] at hlen
            omega
        · exact ((hr.unknown _ (Function.update_self ..)).2 g (by simp)).2 hg
      · rintro ⟨hnone, hhole⟩
        -- with the first hole missing there is no datagram to fail in
        have hnew : m.arrive.descOf h.key alloc = m.held h.key := by
          unfold IpFragManager.held IpFragManager.descOf IpFragManager.newFragDesc
          rw [hhole]
          rfl
        rw [hnew, hnone] at hd
        cases hd

end HoleFails

theorem addFrag_refused_first :
    FragRefused .init (IpFragManager.init.addFrag (orderlyHdr 0) { hole := false }).1
      (orderlyHdr 0).key 0 := by
  have hfail : IpFragManager.init.holeFails (orderlyHdr 0) { hole := false } :=
    (by decide +kernel : ({ hole := false } : Alloc).hole = false)
  exact (addFrag_refused_iff hfail).2.mpr ⟨by decide +kernel, rfl⟩

/-- Bytes 8 to 15 are refused for want of the hole behind them; with bytes 0 to 7 the datagram is then
handed out, and its chain leads to the fragment that was refused. -/
theorem addFrag_refused_linked :
    let m := IpFragManager.init.addFrag (orderlyHdr 0) { right := false }
    m.2 = .dropped ∧ ¬FragRefused .init m.1 (orderlyHdr 0).key 0 ∧
      (m.1.addFrag (orderlyHdr 1) {}).2 = .assembled (some 1) ∧
      (m.1.addFrag (orderlyHdr 1) {}).1.next 1 = some 0 := by
  refine ⟨by decide +kernel, fun hr => ?_, by decide +kernel, by decide +kernel⟩
  have hmiss := hr.missing
  exact absurd hmiss (by decide +kernel)

end LibvmaTlt.Proto
