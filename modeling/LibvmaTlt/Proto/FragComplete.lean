import Mathlib.Data.List.Pairwise
import Mathlib.Data.List.Sort
import LibvmaTlt.Proto.IpFrag

/-!
# Every datagram is put together

A datagram whose fragments all arrive is handed out, whatever their order, their duplicates and the
fragments of other datagrams between them. The manager drops exactly the duplicates, and completes the
datagram with the fragment that was the last one missing.
-/

namespace LibvmaTlt.Proto

open Holes Fragments

/-! ## Deliveries -/

/-- The fragments of one datagram, in order: they are not empty, follow each other from 0 on, and only
the last has MF clear. -/
structure Datagram (key : FragKey) (frags : List IpHdr) : Prop where
  key : ∀ h ∈ frags, h.key = key
  whole : Whole IpHdr.fragFirst IpHdr.dataLen IpHdr.moreFrags 0 frags
  nonempty : ∀ h ∈ frags, 0 < h.dataLen
  len : (frags.map IpHdr.dataLen).sum ≤ 65535

/-- The manager, and the fragments of one key it has been given. -/
structure Delivery where
  mgr : IpFragManager
  seen : List IpHdr

def IpFragManager.Fresh (m : IpFragManager) (key : FragKey) : Prop :=
  ∀ desc ∈ m.frags key,
    ((m.arrive.fragCounter : Int) - desc.fragCounter) % 18446744073709551616 ≤ ipFragSpace

instance (m : IpFragManager) (key : FragKey) : Decidable (m.Fresh key) :=
  inferInstanceAs (Decidable (∀ desc ∈ m.frags key, _))

section Complete

variable (hdr : Nat → IpHdr) (key : FragKey) (frags : List IpHdr)

def Delivery.step (d : Delivery) (e : FragEvent) : Delivery where
  mgr := d.mgr.step hdr e
  seen :=
    match e with
    | .frag _ => if (hdr d.mgr.arrived).key = key then hdr d.mgr.arrived :: d.seen else d.seen
    | .timer => d.seen

def Delivery.Complete (d : Delivery) : Prop := ∀ h ∈ frags, h ∈ d.seen

/-- Until the datagram is complete its fragments arrive, each any number of times; allocations for it
succeed and it does not expire. Fragments of other keys are free. -/
def Delivery.Admits (d : Delivery) : FragEvent → Prop
  | .frag alloc => (hdr d.mgr.arrived).key = key →
      alloc.ok = true ∧ hdr d.mgr.arrived ∈ frags ∧ ¬d.Complete frags ∧ d.mgr.Fresh key
  | .timer => (d.mgr.frags key).isSome → (d.mgr.handleTimerExpired.frags key).isSome

instance (d : Delivery) : Decidable (d.Complete frags) :=
  inferInstanceAs (Decidable (∀ h ∈ frags, h ∈ d.seen))

instance (d : Delivery) (e : FragEvent) : Decidable (d.Admits hdr key frags e) :=
  match e with
  | .frag _ => inferInstanceAs (Decidable (_ → _ ∧ _ ∧ _ ∧ _))
  | .timer => inferInstanceAs (Decidable (_ → _))

/-! ## Other datagrams -/

/-- The buffers in front of the holes of a datagram have arrived with its key. -/
def IpFragManager.Owned (m : IpFragManager) : Prop :=
  ∀ k desc, m.frags k = some desc → ∀ hole ∈ desc.holeList, ∀ p ∈ hole.dataFirst,
    p < m.arrived ∧ (hdr p).key = k

/-- A fragment changes the descriptor of its own datagram, and links of its own buffers. -/
structure IpFragManager.Frames (m m' : IpFragManager) : Prop where
  arrived : m'.arrived = m.arrived + 1
  frags : ∀ k, k ≠ (hdr m.arrived).key → m'.frags k = m.frags k
  next : ∀ f, f < m.arrived → (hdr f).key ≠ (hdr m.arrived).key → m'.next f = m.next f
  own : ∀ desc, m'.frags (hdr m.arrived).key = some desc → ∀ hole ∈ desc.holeList,
    ∀ p ∈ hole.dataFirst, p < m.arrived + 1 ∧ (hdr p).key = (hdr m.arrived).key

variable {hdr key frags} {m m' : IpFragManager} {alloc : Alloc} {d : Delivery}

theorem IpFragManager.Owned.frames (ho : m.Owned hdr) (hf : m.Frames hdr m') : m'.Owned hdr := by
  intro k desc hk hole hh p hp
  rw [hf.arrived]
  by_cases hkey : k = (hdr m.arrived).key
  · subst hkey
    exact hf.own desc hk hole hh p hp
  · rw [hf.frags k hkey] at hk
    obtain ⟨hlt, he⟩ := ho k desc hk hole hh p hp
    exact ⟨Nat.lt_succ_of_lt hlt, he⟩

theorem IpFragManager.frames_update {fr : FragKey → Option FragDesc} {v : Option FragDesc}
    {next : Nat → Option Nat} {counter : Nat} (hfr : ∀ k, k ≠ (hdr m.arrived).key → fr k = m.frags k)
    (hnext : ∀ f, f < m.arrived → (hdr f).key ≠ (hdr m.arrived).key → next f = m.next f)
    (hv : ∀ desc, v = some desc → ∀ hole ∈ desc.holeList, ∀ p ∈ hole.dataFirst,
      p < m.arrived + 1 ∧ (hdr p).key = (hdr m.arrived).key) :
    m.Frames hdr ⟨counter, Function.update fr (hdr m.arrived).key v, next, m.arrived + 1⟩ where
  arrived := rfl
  frags := fun k hk => by simp only [Function.update_of_ne hk, hfr k hk]
  next := hnext
  own := fun desc hd => hv desc (by simpa using hd)

theorem IpFragManager.place_frames {desc : FragDesc} {prev rest : List HoleDesc} {phole : HoleDesc}
    (ho : ∀ hole ∈ desc.holeList, ∀ p ∈ hole.dataFirst,
      p < m.arrived ∧ (hdr p).key = (hdr m.arrived).key)
    (hholes : desc.holeList = prev ++ phole :: rest) {fr : FragKey → Option FragDesc}
    (hfr : ∀ k, k ≠ (hdr m.arrived).key → fr k = m.frags k) :
    m.Frames hdr (IpFragManager.place { m.arrive with frags := fr } (hdr m.arrived) m.arrived alloc desc
      prev phole rest).1 := by
  rw [hholes] at ho
  have hphole := ho phole (by simp)
  have hnext : ∀ f, f < m.arrived → (hdr f).key ≠ (hdr m.arrived).key →
      linkFrag m.next phole m.arrived f = m.next f := fun f hf hk =>
    linkFrag_of_ne (Nat.ne_of_lt hf) fun hp => hk (hphole f hp).2
  have hold : ∀ hole ∈ prev ++ rest, ∀ p ∈ hole.dataFirst,
      p < m.arrived + 1 ∧ (hdr p).key = (hdr m.arrived).key := by
    intro hole hh p hp
    have hmem : hole ∈ prev ++ phole :: rest :=
      (List.mem_append.mp hh).elim (List.mem_append_left _) fun h =>
        List.mem_append_right _ (List.mem_cons_of_mem _ h)
    exact (ho hole hmem p hp).imp_left Nat.lt_succ_of_lt
  have hnew (l : List HoleDesc)
      (h : ∀ hole ∈ l, hole.dataFirst = phole.dataFirst ∨ hole.dataFirst = some m.arrived) :
      ∀ hole ∈ prev ++ l ++ rest, ∀ p ∈ hole.dataFirst,
        p < m.arrived + 1 ∧ (hdr p).key = (hdr m.arrived).key := by
    intro hole hh p hp
    rcases List.mem_append.mp hh with hh | hh
    · rcases List.mem_append.mp hh with hh | hh
      · exact hold hole (List.mem_append_left _ hh) p hp
      rcases h hole hh with he | he
      · exact (hphole p (he ▸ hp)).imp_left Nat.lt_succ_of_lt
      · obtain rfl := Option.some.inj (he.symm.trans hp)
        exact ⟨Nat.lt_succ_self _, rfl⟩
    · exact hold hole (List.mem_append_right _ hh) p hp
  unfold IpFragManager.place
  dsimp only
  -- the new holes on the left and on the right, of which only the fields `dataFirst` matter
  generalize hl : (if (hdr m.arrived).fragFirst > phole.first then
    [(⟨phole.first, (hdr m.arrived).fragFirst - 1, phole.dataFirst, some m.arrived⟩ : HoleDesc)]
    else []) = left
  generalize hr : (if (hdr m.arrived).fragLast < phole.last ∧ (hdr m.arrived).moreFrags = true then
    [(⟨(hdr m.arrived).fragLast + 1, phole.last, some m.arrived, phole.dataLast⟩ : HoleDesc)]
    else []) = right
  have hleft : ∀ hole ∈ left, hole.dataFirst = phole.dataFirst := by
    intro hole hh
    rw [← hl, List.mem_ite_nil_right, List.mem_singleton] at hh
    rw [hh.2]
  have hright : ∀ hole ∈ right, hole.dataFirst = some m.arrived := by
    intro hole hh
    rw [← hr, List.mem_ite_nil_right, List.mem_singleton] at hh
    rw [hh.2]
  split
  · refine frames_update hfr (fun _ _ _ => rfl) ?_
    rintro _ ⟨⟩
    exact hold
  split
  · refine frames_update hfr (fun _ _ _ => rfl) ?_
    rintro _ ⟨⟩
    exact hnew left fun hole hh => .inl (hleft hole hh)
  · split
    · refine frames_update hfr hnext ?_
      rintro _ ⟨⟩
    refine frames_update hfr hnext ?_
    rintro _ ⟨⟩
    exact hnew (left ++ right) fun hole hh => (List.mem_append.mp hh).imp (hleft hole) (hright hole)

theorem IpFragManager.descOf_cases {k : FragKey} {desc : FragDesc}
    (h : m.arrive.descOf k alloc = some desc) :
    m.frags k = some desc ∨ (desc.holeList = [⟨ipFragNinf, ipFragInf, none, none⟩] ∧
      desc.fragList = none) := by
  have hnew : ∀ {d}, m.arrive.newFragDesc alloc = some d →
      d.holeList = [⟨ipFragNinf, ipFragInf, none, none⟩] ∧ d.fragList = none := by
    intro d hd
    unfold IpFragManager.newFragDesc at hd
    split at hd
    · cases hd
    · cases hd
      exact ⟨rfl, rfl⟩
  unfold IpFragManager.descOf at h
  split at h
  · exact .inr (hnew h)
  · next hmap =>
    split at h
    · exact .inr (hnew h)
    · exact .inl (h ▸ hmap)

theorem IpFragManager.addFrag_frames (ho : m.Owned hdr) :
    m.Frames hdr (m.addFrag (hdr m.arrived) alloc).1 := by
  unfold IpFragManager.addFrag
  dsimp only
  cases hd : m.arrive.descOf (hdr m.arrived).key alloc with
  | none => exact frames_update (fun _ _ => rfl) (fun _ _ _ => rfl) (by simp)
  | some desc =>
    have hown : ∀ hole ∈ desc.holeList, ∀ p ∈ hole.dataFirst,
        p < m.arrived ∧ (hdr p).key = (hdr m.arrived).key := by
      rcases descOf_cases hd with hmap | ⟨hnew, -⟩
      · exact ho _ desc hmap
      · rw [hnew]
        simp
    simp only
    cases hfind : findHole (hdr m.arrived).fragFirst (hdr m.arrived).fragLast desc.holeList with
    | none =>
      refine frames_update (fun _ _ => rfl) (fun _ _ _ => rfl) ?_
      rintro _ ⟨⟩ hole hh p hp
      exact (hown hole hh p hp).imp_left Nat.lt_succ_of_lt
    | some r =>
      obtain ⟨prev, phole, rest⟩ := r
      exact place_frames hown (findHole_some hfind).1 fun k hk => Function.update_of_ne hk _ _

theorem FragDesc.tick_holeList {desc desc' : FragDesc} {delta : Nat}
    (h : desc.tick delta = some desc') :
    desc'.holeList = desc.holeList := by
  unfold FragDesc.tick at h
  dsimp only at h
  split at h
  · cases h
  · cases h
    rfl

theorem IpFragManager.Owned.step (ho : m.Owned hdr) (e : FragEvent) : (m.step hdr e).Owned hdr := by
  cases e with
  | frag alloc => exact ho.frames (IpFragManager.addFrag_frames ho)
  | timer =>
    intro k desc hk
    obtain ⟨desc₀, hmap, htick⟩ := Option.bind_eq_some_iff.mp hk
    rw [FragDesc.tick_holeList htick]
    exact ho k desc₀ hmap

/-! ## The fragments of the datagram -/

def IpHdr.Before (h g : IpHdr) : Prop := h.moreFrags = true ∧ h.fragFirst + h.dataLen ≤ g.fragFirst

theorem Datagram.apart (hD : Datagram key frags) {h g : IpHdr} (hh : h ∈ frags) (hg : g ∈ frags)
    (hne : h ≠ g) : h.Before g ∨ g.Before h := by
  have : Std.Symm fun a b : IpHdr => a.Before b ∨ b.Before a := ⟨fun _ _ => Or.symm⟩
  have hpair : frags.Pairwise fun a b => a.Before b ∨ b.Before a := hD.whole.pairwise.imp .inl
  exact hpair.forall hh hg hne

theorem Datagram.fragLast_eq (hD : Datagram key frags) {h : IpHdr} (hh : h ∈ frags) :
    h.fragFirst + h.dataLen ≤ ipFragInf ∧ h.ihl.toNat * 4 < h.totLen.toNat ∧
      h.fragLast + 1 = h.fragFirst + h.dataLen := by
  have hpos := hD.nonempty h hh
  have hlt : h.ihl.toNat * 4 < h.totLen.toNat := by
    unfold IpHdr.dataLen at hpos
    omega
  have hle : h.fragFirst + h.dataLen ≤ ipFragInf := by
    have := (hD.whole.range h hh).2
    have := hD.len
    simp only [ipFragInf]
    omega
  exact ⟨hle, hlt, IpHdr.fragLast_eq hlt hle⟩

theorem findHole_eq_none_iff {first last : Nat} {holes : List HoleDesc} :
    findHole first last holes = none ↔ ∀ h ∈ holes, ¬(first ≥ h.first ∧ last ≤ h.last) := by
  induction holes with
  | nil => simp [findHole]
  | cons g gs ih =>
    unfold findHole
    split
    · next hc => simp [hc]
    · next hc => simp only [Option.map_eq_none_iff, ih, List.forall_mem_cons, hc, not_false_iff, true_and]

/-- The buffers held are fragments of the datagram, and exactly those that were given to the manager. -/
structure Collects (hdr : Nat → IpHdr) (frags seen : List IpHdr) (l : List Nat) : Prop where
  mem : ∀ f ∈ l, hdr f ∈ frags
  seen : ∀ h, h ∈ seen ↔ ∃ f ∈ l, hdr f = h

section Arrival

variable {n : Nat} {desc : FragDesc} {l : List Nat} {next : Nat → Option Nat} {seen : List IpHdr}

theorem findHole_duplicate (hD : Datagram key frags) (hh : Held hdr next n key desc l)
    (hc : Collects hdr frags seen l) {h : IpHdr} (hin : h ∈ seen) :
    findHole h.fragFirst h.fragLast desc.holeList = none := by
  obtain ⟨f, hf, rfl⟩ := (hc.seen h).mp hin
  have hpos := hD.nonempty _ (hc.mem f hf)
  have hstop : bufStop hdr f = bufFirst hdr f + (hdr f).dataLen := (hD.fragLast_eq (hc.mem f hf)).2.2
  rw [findHole_eq_none_iff, hh.holes]
  intro hole hhole ht
  have hno := not_takes_of_mem (f := f) hh.placed hf (by omega) (by omega) hhole
  exact hno ⟨ht.1, Nat.succ_le_succ ht.2⟩

theorem findHole_missing (hD : Datagram key frags) (hh : Held hdr next n key desc l)
    (hc : Collects hdr frags seen l) (hin : hdr n ∈ frags) (hnew : hdr n ∉ seen) :
    ∃ prev phole rest,
      findHole (hdr n).fragFirst (hdr n).fragLast desc.holeList = some (prev, phole, rest) ∧
        ((hdr n).moreFrags = false → phole.last = ipFragInf) := by
  have hpos := hD.nonempty _ hin
  obtain ⟨hle, -, hstop⟩ := hD.fragLast_eq hin
  have hstop' : bufStop hdr n = bufFirst hdr n + (hdr n).dataLen := hstop
  have hapart : ∀ g ∈ l, ((hdr n).moreFrags = true ∧ bufStop hdr n ≤ bufFirst hdr g) ∨
      (bufMore hdr g = true ∧ bufStop hdr g ≤ bufFirst hdr n) := by
    intro g hg
    have hne : hdr n ≠ hdr g := fun he => hnew ((hc.seen _).mpr ⟨g, hg, he.symm⟩)
    have hstopg : bufStop hdr g = bufFirst hdr g + (hdr g).dataLen :=
      (hD.fragLast_eq (hc.mem g hg)).2.2
    rw [hstop', hstopg]
    exact hD.apart hin (hc.mem g hg) hne
  obtain ⟨hole, hhole, ht⟩ :
      ∃ h ∈ gaps (bufFirst hdr) (bufStop hdr) (bufMore hdr) ipFragInf 0 none true l,
        h.Takes (bufFirst hdr) (bufStop hdr) n :=
    exists_takes (Nat.zero_le _) (by omega) (by rw [hstop']; exact Nat.le_succ_of_le hle)
      (fun _ => rfl) fun g hg => (hapart g hg).imp_left And.right
  rw [← hh.holes] at hhole
  cases hfind : findHole (hdr n).fragFirst (hdr n).fragLast desc.holeList with
  | none =>
    exact absurd ⟨ht.1, Nat.le_of_succ_le_succ ht.2⟩ (findHole_eq_none_iff.mp hfind hole hhole)
  | some r =>
    obtain ⟨prev, phole, rest⟩ := r
    refine ⟨prev, phole, rest, rfl, fun hm => ?_⟩
    have hmem := (fill_of_findHole hfind).1
    rw [hh.holes] at hmem
    rcases last_of_mem_gaps hmem with ⟨-, hend⟩ | ⟨g, hg, -, hbefore⟩
    · exact hend
    -- nothing of the datagram lies behind its last fragment
    have htake := (findHole_some hfind).2.2
    have hstopg := (hD.fragLast_eq (hc.mem g hg)).2.2
    rcases hapart g hg with ⟨hm', -⟩ | ⟨-, hg'⟩
    · exact nomatch hm.symm.trans hm'
    · simp only [bufStop, bufFirst] at hbefore hg'
      omega

theorem Collects.map_eq (hD : Datagram key frags) (hh : Held hdr next n key desc l)
    (hc : Collects hdr frags seen l) (hall : ∀ h ∈ frags, h ∈ seen) : l.map hdr = frags := by
  have : Std.Irrefl fun a b : IpHdr => a.fragFirst < b.fragFirst := ⟨fun _ => Nat.lt_irrefl _⟩
  have : Std.Antisymm fun a b : IpHdr => a.fragFirst < b.fragFirst :=
    ⟨fun _ _ h1 h2 => absurd h1 (Nat.lt_asymm h2)⟩
  have hsorted : (l.map hdr).Pairwise fun a b => a.fragFirst < b.fragFirst :=
    List.pairwise_map.mpr hh.placed.sorted.2
  have hsorted' : frags.Pairwise fun a b => a.fragFirst < b.fragFirst := by
    refine List.Pairwise.imp_of_mem ?_ hD.whole.pairwise
    intro a b ha _ hab
    have := hD.nonempty a ha
    omega
  refine hsorted.eq_of_mem_iff hsorted' fun h => ?_
  rw [List.mem_map]
  constructor
  · rintro ⟨f, hf, rfl⟩
    exact hc.mem f hf
  · exact fun hm => (hc.seen h).mp (hall h hm)

theorem holeList_eq_nil_iff (hD : Datagram key frags) (hh : Held hdr next n key desc l)
    (hc : Collects hdr frags seen l) : desc.holeList = [] ↔ ∀ h ∈ frags, h ∈ seen := by
  rw [hh.holes]
  constructor
  · intro hnil
    have hwhole := (whole_map_iff hdr).mpr (whole_of_gaps_nil hh.len hh.placed hnil)
    have heq : l.map hdr = frags := hwhole.eq_of_subset hD.whole hD.nonempty fun h hm => by
      obtain ⟨f, hf, rfl⟩ := List.mem_map.mp hm
      exact hc.mem f hf
    intro h hm
    exact (hc.seen h).mpr (List.mem_map.mp (heq ▸ hm))
  · intro hall
    refine gaps_of_whole hh.len ((whole_map_iff hdr).mp ?_)
    rw [hc.map_eq hD hh hall]
    exact hD.whole

end Arrival

/-! ## One fragment, and runs -/

/-- What the manager has of the datagram: nothing yet, or the fragments seen. -/
def Delivery.Holds (hdr : Nat → IpHdr) (key : FragKey) (frags : List IpHdr) (d : Delivery) : Prop :=
  (d.mgr.frags key = none ∧ d.seen = []) ∨
    ∃ desc l, d.mgr.frags key = some desc ∧ Held hdr d.mgr.next d.mgr.arrived key desc l ∧
      Collects hdr frags d.seen l

theorem Delivery.Holds.descOf (hi : d.Holds hdr key frags) (halloc : alloc.ok = true)
    (hfresh : d.mgr.Fresh key) :
    ∃ desc l, d.mgr.arrive.descOf key alloc = some desc ∧
      Held hdr d.mgr.next d.mgr.arrived key desc l ∧ Collects hdr frags d.seen l := by
  rcases hi with ⟨hnone, hseen⟩ | ⟨desc, l, hmap, hh, hc⟩
  · obtain ⟨⟨⟨hhole, hdesc⟩, -⟩, -⟩ :
        ((alloc.hole = true ∧ alloc.desc = true) ∧ _) ∧ _ := by simpa [Alloc.ok] using halloc
    refine ⟨⟨ipFragTtl, [⟨ipFragNinf, ipFragInf, none, none⟩], none, d.mgr.arrive.fragCounter⟩, [],
      ?_, ⟨by simp, rfl, trivial, by simp, by simp, by simp⟩, by simp, by simp [hseen]⟩
    have hnone' : d.mgr.arrive.frags key = none := hnone
    simp [IpFragManager.descOf, hnone', IpFragManager.newFragDesc, hhole, hdesc]
  · refine ⟨desc, l, ?_, hh, hc⟩
    have hmap' : d.mgr.arrive.frags key = some desc := hmap
    simp only [IpFragManager.descOf, hmap']
    exact if_neg (Int.not_lt.mpr (hfresh desc hmap))

/-- What becomes of a fragment of the datagram: a duplicate is dropped, a missing one is kept, and the
last missing one completes the datagram. -/
inductive Delivery.Outcome (hdr : Nat → IpHdr) (key : FragKey) (frags : List IpHdr) (d : Delivery)
    (r : IpFragManager × FragResult) : Prop where
  | duplicate (hin : hdr d.mgr.arrived ∈ d.seen) (hr : r.2 = .dropped)
      (hi : Delivery.Holds hdr key frags ⟨r.1, hdr d.mgr.arrived :: d.seen⟩)
  | kept (hnew : hdr d.mgr.arrived ∉ d.seen)
      (hmiss : ¬∀ h ∈ frags, h ∈ hdr d.mgr.arrived :: d.seen) (hr : r.2 = .pending)
      (hi : Delivery.Holds hdr key frags ⟨r.1, hdr d.mgr.arrived :: d.seen⟩)
  | completed (hnew : hdr d.mgr.arrived ∉ d.seen)
      (hall : ∀ h ∈ frags, h ∈ hdr d.mgr.arrived :: d.seen) (first : Option Nat) (l : List Nat)
      (hr : r.2 = .assembled first) (hchain : Chain r.1.next first l) (hl : l.map hdr = frags)

theorem Delivery.Holds.addFrag (hD : Datagram key frags) (hi : d.Holds hdr key frags)
    (halloc : alloc.ok = true) (hin : hdr d.mgr.arrived ∈ frags) (hfresh : d.mgr.Fresh key) :
    d.Outcome hdr key frags (d.mgr.addFrag (hdr d.mgr.arrived) alloc) := by
  have hkey := hD.key _ hin
  obtain ⟨desc, l, hdesc, hh, hc⟩ := hi.descOf halloc hfresh
  by_cases hdup : hdr d.mgr.arrived ∈ d.seen
  · have hres : d.mgr.addFrag (hdr d.mgr.arrived) alloc =
        ({ d.mgr.arrive with frags := Function.update d.mgr.frags key (some desc) }, .dropped) := by
      simp only [IpFragManager.addFrag, hkey, hdesc, findHole_duplicate hD hh hc hdup]
      rfl
    rw [hres]
    refine .duplicate hdup rfl (.inr ⟨desc, l, by simp, hh.frame (Nat.le_succ _) fun _ _ => rfl,
      hc.mem, fun h => ?_⟩)
    rw [List.mem_cons, ← hc.seen h]
    exact ⟨fun h' => h'.elim (fun he => he ▸ hdup) id, .inr⟩
  · obtain ⟨hle, hpos, -⟩ := hD.fragLast_eq hin
    obtain ⟨prev, phole, rest, hfind, hlast⟩ := findHole_missing hD hh hc hin hdup
    obtain ⟨-, l', hl', hh'⟩ := hh.place hkey hfind (fun _ => ⟨hpos, hle⟩) hlast
    have hc' : Collects hdr frags (hdr d.mgr.arrived :: d.seen) l' := by
      refine ⟨fun f hf => ?_, fun h => ?_⟩
      · rcases (hl' f).mp hf with rfl | hf
        · exact hin
        · exact hc.mem f hf
      · simp only [List.mem_cons, hc.seen h, hl', or_and_right, exists_or, exists_eq_left, eq_comm]
    have hres : d.mgr.addFrag (hdr d.mgr.arrived) alloc =
        IpFragManager.place
          { d.mgr.arrive with frags := Function.update d.mgr.frags key (some desc) }
          (hdr d.mgr.arrived) d.mgr.arrived alloc desc prev phole rest := by
      simp only [IpFragManager.addFrag, hkey, hdesc, hfind]
      rfl
    rw [hres, IpFragManager.place_cases halloc, hkey]
    dsimp only
    split
    · next hnil =>
      have hall := (holeList_eq_nil_iff hD hh' hc').mp hnil
      exact .completed hdup hall _ l' rfl hh'.chain (hc'.map_eq hD hh' hall)
    · next hnil =>
      have hmiss := mt (holeList_eq_nil_iff hD hh' hc').mpr hnil
      exact .kept hdup hmiss rfl (.inr ⟨_, l', Function.update_self .., hh', hc'⟩)

/-- Along the run the manager holds what it has seen, until the datagram is complete. -/
def Delivery.Inv (hdr : Nat → IpHdr) (key : FragKey) (frags : List IpHdr) (d : Delivery) : Prop :=
  d.mgr.Owned hdr ∧ (d.Complete frags ∨ d.Holds hdr key frags)

theorem Delivery.Holds.other (ho : d.mgr.Owned hdr) (hi : d.Holds hdr key frags)
    (hk : (hdr d.mgr.arrived).key ≠ key) :
    Delivery.Holds hdr key frags ⟨(d.mgr.addFrag (hdr d.mgr.arrived) alloc).1, d.seen⟩ := by
  have hf : d.mgr.Frames hdr (d.mgr.addFrag (hdr d.mgr.arrived) alloc).1 :=
    IpFragManager.addFrag_frames ho
  have hmap := hf.frags key (Ne.symm hk)
  rcases hi with ⟨hnone, hseen⟩ | ⟨desc, l, hsome, hh, hc⟩
  · exact .inl ⟨hmap.trans hnone, hseen⟩
  · refine .inr ⟨desc, l, hmap.trans hsome, ?_, hc⟩
    refine hh.frame (hf.arrived ▸ Nat.le_succ _) fun f hm => hf.next f (hh.old f hm) ?_
    rw [hh.key f hm]
    exact Ne.symm hk

theorem Delivery.Holds.timer (hi : d.Holds hdr key frags)
    (hkeep : (d.mgr.frags key).isSome → (d.mgr.handleTimerExpired.frags key).isSome) :
    Delivery.Holds hdr key frags ⟨d.mgr.handleTimerExpired, d.seen⟩ := by
  rcases hi with ⟨hnone, hseen⟩ | ⟨desc, l, hsome, hh, hc⟩
  · refine .inl ⟨?_, hseen⟩
    simp [IpFragManager.handleTimerExpired, hnone]
  · obtain ⟨desc', hd⟩ := Option.isSome_iff_exists.mp (hkeep (by rw [hsome]; rfl))
    obtain ⟨desc₀, hmap, htick⟩ := Option.bind_eq_some_iff.mp hd
    obtain rfl := Option.some.inj (hsome.symm.trans hmap)
    exact .inr ⟨desc', l, hd, hh.tick htick, hc⟩

theorem Delivery.Inv.step (hD : Datagram key frags) (hi : d.Inv hdr key frags) {e : FragEvent}
    (he : d.Admits hdr key frags e) : (d.step hdr key e).Inv hdr key frags := by
  obtain ⟨ho, hi⟩ := hi
  refine ⟨ho.step e, ?_⟩
  cases e with
  | frag alloc =>
    by_cases hk : (hdr d.mgr.arrived).key = key
    · obtain ⟨halloc, hin, hinc, hfresh⟩ := he hk
      have hseen : (d.step hdr key (.frag alloc)).seen = hdr d.mgr.arrived :: d.seen := if_pos hk
      unfold Delivery.Complete Delivery.Holds
      rw [hseen]
      cases (hi.resolve_left hinc).addFrag hD halloc hin hfresh with
      | duplicate _ _ h => exact .inr h
      | kept _ _ _ h => exact .inr h
      | completed _ hall => exact .inl hall
    · have hseen : (d.step hdr key (.frag alloc)).seen = d.seen := if_neg hk
      unfold Delivery.Complete Delivery.Holds
      rw [hseen]
      exact hi.imp_right fun h => h.other ho hk
  | timer => exact hi.imp_right fun h => h.timer he

theorem IpFragManager.owned_init (hdr : Nat → IpHdr) : IpFragManager.init.Owned hdr :=
  fun _ _ h => nomatch h

/-- **Reassembly.** Whatever the manager has seen before, let the fragments of a datagram arrive in any
order, with duplicates and with fragments of other datagrams between them. Then the duplicates are what
is dropped, the datagram is complete with the fragment that was the last one missing, and the buffers
handed out are its fragments, each once and in order. -/
theorem addFrag_reassembles (hD : Datagram key frags) {m₀ : IpFragManager}
    (hr₀ : Reach (IpFragManager.step hdr) (fun _ _ => True) .init m₀) (h₀ : m₀.frags key = none)
    (hr : Reach (Delivery.step hdr key) (Delivery.Admits hdr key frags) ⟨m₀, []⟩ d)
    (hk : (hdr d.mgr.arrived).key = key) (ha : d.Admits hdr key frags (.frag alloc)) :
    ((d.mgr.addFrag (hdr d.mgr.arrived) alloc).2 = .dropped ↔ hdr d.mgr.arrived ∈ d.seen) ∧
      ((∃ first, (d.mgr.addFrag (hdr d.mgr.arrived) alloc).2 = .assembled first) ↔
        hdr d.mgr.arrived ∉ d.seen ∧ ∀ h ∈ frags, h = hdr d.mgr.arrived ∨ h ∈ d.seen) ∧
      ∀ first, (d.mgr.addFrag (hdr d.mgr.arrived) alloc).2 = .assembled first →
        ∃ l, Chain (d.mgr.addFrag (hdr d.mgr.arrived) alloc).1.next first l ∧ l.map hdr = frags := by
  have ho : m₀.Owned hdr := hr₀.inv (IpFragManager.owned_init hdr) fun _ e h _ => h.step e
  have hinv : d.Inv hdr key frags :=
    hr.inv ⟨ho, .inr (.inl ⟨h₀, rfl⟩)⟩ fun _ _ hi he => hi.step hD he
  obtain ⟨halloc, hin, hinc, hfresh⟩ := ha hk
  simp only [← List.mem_cons]
  cases (hinv.2.resolve_left hinc).addFrag hD halloc hin hfresh with
  | duplicate hdup hres =>
    rw [hres]
    simp [hdup]
  | kept hnew hmiss hres =>
    rw [hres]
    simp only [hnew, hmiss, reduceCtorEq, exists_false, and_false, false_imp_iff, implies_true,
      and_self]
  | completed hnew hall first l hres hchain hl =>
    rw [hres]
    refine ⟨by simp [hnew], ⟨fun _ => ⟨hnew, hall⟩, fun _ => ⟨first, rfl⟩⟩, ?_⟩
    rintro _ ⟨⟩
    exact ⟨l, hchain, hl⟩

end Complete

def sampleFrags : List IpHdr := [sampleHdr 0x2000 28, sampleHdr 0x2001 28, sampleHdr 2 24]

/-- The second fragment, one of another datagram, the second again, the first, and the last. -/
def mixedHdr : Nat → IpHdr
  | 0 => sampleHdr 0x2001 28
  | 1 => { sampleHdr 0x2000 28 with id := 2 }
  | 2 => sampleHdr 0x2001 28
  | 3 => sampleHdr 0x2000 28
  | _ => sampleHdr 2 24

def Delivery.run (hdr : Nat → IpHdr) (key : FragKey) (es : List FragEvent) : Delivery :=
  es.foldl (Delivery.step hdr key) ⟨.init, []⟩

theorem addFrag_reassembles_mixed :
    ∃ l, Chain (((Delivery.run mixedHdr (sampleHdr 0 0).key
        [.frag {}, .frag {}, .frag {}, .timer, .frag {}]).mgr.addFrag (mixedHdr 4) {}).1.next) (some 3) l ∧
      l.map mixedHdr = sampleFrags := by
  have hD : Datagram (sampleHdr 0 0).key sampleFrags :=
    ⟨by decide, by decide +kernel, by decide +kernel, by decide +kernel⟩
  have hr : Reach (Delivery.step mixedHdr (sampleHdr 0 0).key)
      (Delivery.Admits mixedHdr (sampleHdr 0 0).key sampleFrags) ⟨.init, []⟩
      (Delivery.run mixedHdr (sampleHdr 0 0).key
        [.frag {}, .frag {}, .frag {}, .timer, .frag {}]) := by
    refine .next (.next (.next (.next (.next .start (FragEvent.frag {}) ?_) (FragEvent.frag {}) ?_)
      (FragEvent.frag {}) ?_) FragEvent.timer ?_) (FragEvent.frag {}) ?_ <;> decide +kernel
  exact (addFrag_reassembles hD .start rfl hr (by decide +kernel) (by decide +kernel)).2.2 (some 3)
    (by decide +kernel)

end LibvmaTlt.Proto
