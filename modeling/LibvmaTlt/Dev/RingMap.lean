import LibvmaTlt.Lib.Assoc
import LibvmaTlt.Lib.CInt
import LibvmaTlt.Lib.Reach

/-!
# The rings of an interface (`net_device_val::reserve_ring`, `release_ring`)

Sockets reserve rings by keys. With `VMA_RING_LIMIT_PER_INTERFACE` set, a key is redirected: to a key
of its own, numbered by the size of the ring map, while there is room for another ring, and otherwise to
the key of a ring that exists. Two maps keep reference counts. The count of a ring moves with every
reservation and release. The count of a redirection moves with every reservation, but only with the
release that deletes the ring, and then only for the key of that release.
-/

namespace LibvmaTlt.Dev

/-! ## State -/

inductive RingLogic where
  | perInterface | perIp | perSocket | perUserId | perThread | perCore | perCoreAttachThreads
  deriving DecidableEq

/-- `ring_alloc_logic_attr`, compared by value. -/
structure RingKey where
  ringAllocLogic : RingLogic := .perSocket
  ringProfileKey : Nat := 0
  userIdKey : Nat := 0
  memDesc : Nat × Nat := (0, 0)
  deriving DecidableEq

/-- An entry of `m_h_ring_map`; rings are numbered as they are created. -/
structure RingRef where
  ring : Nat
  refCnt : Int
  deriving DecidableEq

/-- An entry of `m_h_ring_key_redirection_map`. -/
structure Redirection where
  key : RingKey
  refCnt : Int
  deriving DecidableEq

structure NetDev where
  ringMap : AList fun _ : RingKey => RingRef
  redirectionMap : AList fun _ : RingKey => Redirection
  created : Nat

def NetDev.empty : NetDev := ⟨∅, ∅, 0⟩

def NetDev.size (s : NetDev) : Nat := s.ringMap.keys.length

def NetDev.refCnt (s : NetDev) (k : RingKey) : Int := ((s.ringMap.lookup k).map RingRef.refCnt).getD 0

/-! ## Redirection -/

/-- The search for the ring with the fewest references among those with the key's profile. The first
ring is the one to beat, whatever its profile. -/
def minKeyLoop (s : NetDev) (key : RingKey) : List RingKey → Int → RingKey → RingKey
  | [], _, minKey => minKey
  | k :: rest, minRefCount, minKey =>
    if k.ringProfileKey = key.ringProfileKey ∧ s.refCnt k < minRefCount then
      minKeyLoop s key rest (s.refCnt k) k
    else minKeyLoop s key rest minRefCount minKey

/-- `ring_key_redirection_reserve`; `order` is the order in which the ring map is walked. -/
def ringKeyRedirectionReserve (limit : Nat) (s : NetDev) (key : RingKey) (order : List RingKey) :
    NetDev × RingKey :=
  if limit = 0 ∨ key.ringAllocLogic = .perUserId then (s, key)
  else
    match s.redirectionMap.lookup key with
    | some r =>
      ({ s with redirectionMap := s.redirectionMap.insert key ⟨r.key, cInt (r.refCnt + 1)⟩ }, r.key)
    | none =>
      let key2 :=
        if s.size < limit then { key with userIdKey := s.size }
        else minKeyLoop s key order (s.refCnt (order.headD key)) (order.headD key)
      ({ s with redirectionMap := s.redirectionMap.insert key ⟨key2, 1⟩ }, key2)

def getRingKeyRedirection (limit : Nat) (s : NetDev) (key : RingKey) : RingKey :=
  if limit = 0 then key else ((s.redirectionMap.lookup key).map Redirection.key).getD key

def ringKeyRedirectionRelease (limit : Nat) (s : NetDev) (key : RingKey) : NetDev :=
  if limit = 0 then s
  else
    match s.redirectionMap.lookup key with
    | none => s
    | some r =>
      if cInt (r.refCnt - 1) = 0 then { s with redirectionMap := s.redirectionMap.erase key }
      else { s with redirectionMap := s.redirectionMap.insert key ⟨r.key, cInt (r.refCnt - 1)⟩ }

/-! ## Rings -/

/-- `reserve_ring`; `create` says that `create_ring` succeeds. -/
def reserveRing (limit : Nat) (s : NetDev) (key : RingKey) (order : List RingKey) (create : Bool) :
    NetDev × Option Nat :=
  let (s, key) := ringKeyRedirectionReserve limit s key order
  match s.ringMap.lookup key with
  | some r => ({ s with ringMap := s.ringMap.insert key ⟨r.ring, cInt (r.refCnt + 1)⟩ }, some r.ring)
  | none =>
    if create then
      ({ s with ringMap := s.ringMap.insert key ⟨s.created, 1⟩, created := s.created + 1 },
        some s.created)
    else (s, none)

/-- `release_ring`, with the ring whose count it lowers. -/
def releaseRing (limit : Nat) (s : NetDev) (key : RingKey) : NetDev × Option Nat :=
  let redKey := getRingKeyRedirection limit s key
  match s.ringMap.lookup redKey with
  | none => (s, none)
  | some r =>
    if cInt (r.refCnt - 1) = 0 then
      let s := ringKeyRedirectionRelease limit s key
      ({ s with ringMap := s.ringMap.erase redKey }, some r.ring)
    else ({ s with ringMap := s.ringMap.insert redKey ⟨r.ring, cInt (r.refCnt - 1)⟩ }, some r.ring)

/-! ## Runs -/

/-- The device with the reservations that have not been released, each with the ring it was given. -/
structure RingRun where
  dev : NetDev
  out : List (RingKey × Nat)

inductive RingAct where
  | reserve (key : RingKey) (order : List RingKey) (create : Bool)
  | release (key : RingKey)

def RingRun.matching (s : RingRun) (key : RingKey) : Option (RingKey × Nat) :=
  s.out.find? fun e => e.1 = key

def RingRun.step (limit : Nat) (s : RingRun) : RingAct → RingRun
  | .reserve key order create =>
    match reserveRing limit s.dev key order create with
    | (dev, some ring) => ⟨dev, (key, ring) :: s.out⟩
    | (dev, none) => ⟨dev, s.out⟩
  | .release key =>
    ⟨(releaseRing limit s.dev key).1, ((s.matching key).map s.out.erase).getD s.out⟩

/-- Reservations with redirected keys for which rings can be created, in any order of the map, and
releases of what is reserved. -/
def RingRun.admits (s : RingRun) : RingAct → Bool
  | .reserve key order create =>
    key.ringAllocLogic ≠ .perUserId && order.isPerm s.dev.ringMap.keys && create
  | .release key => (s.matching key).isSome

structure RingRun.Balanced (limit : Nat) (s : RingRun) : Prop where
  limit : s.dev.size ≤ limit
  refs : ∀ k r, s.dev.ringMap.lookup k = some r → r.refCnt = s.out.countP fun e => e.2 = r.ring
  redirected : ∀ e ∈ s.out, ∃ d r, s.dev.redirectionMap.lookup e.1 = some d ∧
    s.dev.ringMap.lookup d.key = some r ∧ r.ring = e.2
  empty : s.out = [] → s.dev.ringMap = ∅ ∧ s.dev.redirectionMap = ∅

/-- A key is redirected to a ring of another profile only if there is none of its own and none can be
created, and a release lowers the count of the ring that the reservation was given. -/
def RingRun.StepRight (limit : Nat) (s : RingRun) : RingAct → Prop
  | .reserve key order create =>
    ∀ d, s.dev.redirectionMap.lookup key = none →
      (reserveRing limit s.dev key order create).1.redirectionMap.lookup key = some d →
      d.key.ringProfileKey ≠ key.ringProfileKey →
      limit ≤ s.dev.size ∧ ∀ k ∈ s.dev.ringMap.keys, k.ringProfileKey ≠ key.ringProfileKey
  | .release key => (releaseRing limit s.dev key).2 = (s.matching key).map Prod.snd

/-- The ring that the search starts from has the key's profile, or more references than one that has,
or none has. -/
def NetDev.firstFits (s : NetDev) (key : RingKey) (order : List RingKey) : Bool :=
  (order.headD key).ringProfileKey = key.ringProfileKey ||
    order.any (fun k => k.ringProfileKey = key.ringProfileKey &&
      s.refCnt k < s.refCnt (order.headD key)) ||
    order.all fun k => k.ringProfileKey ≠ key.ringProfileKey

/-- The release that deletes a ring is of a key that has been reserved once since it was redirected,
and no other key is redirected to the ring. A key that is redirected when all rings exist meets a first
ring that fits. There are no more reservations than an `int` counts. -/
def RingRun.orderly (limit : Nat) (s : RingRun) : RingAct → Bool
  | .reserve key order _ =>
    s.out.length < 2147483647 &&
      ((s.dev.redirectionMap.lookup key).isSome || s.dev.size < limit || s.dev.firstFits key order)
  | .release key =>
    let redKey := getRingKeyRedirection limit s.dev key
    s.dev.refCnt redKey ≠ 1 ||
      ((s.dev.redirectionMap.lookup key).map Redirection.refCnt = some 1 &&
        s.dev.redirectionMap.entries.all fun e => e.1 = key || e.2.key ≠ redKey)

/-! ## Reserving -/

section Reserve

variable {limit : Nat} {s : NetDev} {key : RingKey} {order : List RingKey}

theorem minKeyLoop_mem (s : NetDev) (key : RingKey) (order : List RingKey) (n : Int) (m : RingKey) :
    minKeyLoop s key order n m ∈ m :: order := by
  induction order generalizing n m with
  | nil => exact List.mem_cons_self
  | cons k rest ih =>
    unfold minKeyLoop
    split
    · exact List.mem_cons_of_mem _ (ih _ _)
    · rcases List.mem_cons.mp (ih n m) with h | h
      · rw [h]
        exact List.mem_cons_self
      · exact List.mem_cons_of_mem _ (List.mem_cons_of_mem _ h)

theorem minKeyLoop_profile {n : Int} {m : RingKey}
    (h : m.ringProfileKey = key.ringProfileKey ∨
      ∃ k ∈ order, k.ringProfileKey = key.ringProfileKey ∧ s.refCnt k < n) :
    (minKeyLoop s key order n m).ringProfileKey = key.ringProfileKey := by
  induction order generalizing n m with
  | nil => simpa [minKeyLoop] using h
  | cons k rest ih =>
    unfold minKeyLoop
    split
    · next hk => exact ih (.inl hk.1)
    next hk =>
    refine ih (h.imp_right ?_)
    rintro ⟨k', hmem, hk'⟩
    rcases List.mem_cons.mp hmem with rfl | hrest
    · exact absurd hk' hk
    · exact ⟨k', hrest, hk'⟩

structure SentTo (limit : Nat) (s : NetDev) (key : RingKey) (order : List RingKey) (key2 : RingKey) :
    Prop where
  known : ∀ d, s.redirectionMap.lookup key = some d → d.key = key2
  full : s.redirectionMap.lookup key = none → limit ≤ s.size → key2 ∈ s.ringMap
  profile : s.redirectionMap.lookup key = none → s.size < limit ∨ s.firstFits key order = true →
    key2.ringProfileKey ≠ key.ringProfileKey →
    limit ≤ s.size ∧ ∀ k ∈ order, k.ringProfileKey ≠ key.ringProfileKey

theorem ringKeyRedirectionReserve_spec (hlim : 1 ≤ limit) (hlogic : key.ringAllocLogic ≠ .perUserId)
    (hord : order.Perm s.ringMap.keys) :
    ∃ key2 n, ringKeyRedirectionReserve limit s key order =
        ({ s with redirectionMap := s.redirectionMap.insert key ⟨key2, n⟩ }, key2) ∧
      SentTo limit s key order key2 := by
  have hon : ¬(limit = 0 ∨ key.ringAllocLogic = .perUserId) := by
    rintro (h | h)
    · omega
    · exact hlogic h
  unfold ringKeyRedirectionReserve
  rw [if_neg hon]
  cases hd : s.redirectionMap.lookup key with
  | some d =>
    refine ⟨d.key, cInt (d.refCnt + 1), rfl, ?_, ?_, ?_⟩
    · intro d' h
      rw [hd, Option.some_inj] at h
      rw [h]
    · intro h
      rw [hd] at h
      cases h
    · intro h
      rw [hd] at h
      cases h
  | none =>
    refine ⟨_, _, rfl, ?_, ?_, ?_⟩
    · intro d' h
      rw [hd] at h
      cases h
    · intro _ hfull
      rw [if_neg (Nat.not_lt.mpr hfull)]
      have hmem := minKeyLoop_mem s key order (s.refCnt (order.headD key)) (order.headD key)
      cases order with
      | nil =>
        -- a full map is not empty
        have hlen := hord.length_eq
        rw [List.length_nil] at hlen
        unfold NetDev.size at hfull
        omega
      | cons k rest =>
        rw [List.headD_cons] at hmem ⊢
        rcases List.mem_cons.mp hmem with h | h
        · rw [h, AList.mem_keys]
          exact hord.mem_iff.mp List.mem_cons_self
        · rw [AList.mem_keys]
          exact hord.mem_iff.mp h
    · intro _ hfit hprof
      by_cases hroom : s.size < limit
      · rw [if_pos hroom] at hprof
        exact absurd rfl hprof
      rw [if_neg hroom] at hprof
      have hfit := hfit.resolve_left hroom
      refine ⟨Nat.not_lt.mp hroom, ?_⟩
      simp only [NetDev.firstFits, Bool.or_eq_true, decide_eq_true_eq, List.any_eq_true,
        Bool.and_eq_true, List.all_eq_true] at hfit
      rcases hfit with hfit | hnone
      · exact absurd (minKeyLoop_profile hfit) hprof
      · exact hnone

structure Reserved (limit : Nat) (s s' : NetDev) (key : RingKey) (order : List RingKey)
    (key2 : RingKey) (ring : Nat) : Prop where
  sent : SentTo limit s key order key2
  redirectionMap : ∃ n, s'.redirectionMap = s.redirectionMap.insert key ⟨key2, n⟩
  ring : (∃ r, s.ringMap.lookup key2 = some r ∧ r.ring = ring ∧ s'.created = s.created ∧
      s'.ringMap = s.ringMap.insert key2 ⟨ring, cInt (r.refCnt + 1)⟩) ∨
    (s.ringMap.lookup key2 = none ∧ ring = s.created ∧ s'.created = s.created + 1 ∧
      s'.ringMap = s.ringMap.insert key2 ⟨ring, 1⟩)

theorem reserveRing_spec (hlim : 1 ≤ limit) (hlogic : key.ringAllocLogic ≠ .perUserId)
    (hord : order.Perm s.ringMap.keys) :
    ∃ s' key2 ring, reserveRing limit s key order true = (s', some ring) ∧
      Reserved limit s s' key order key2 ring := by
  obtain ⟨key2, n, heq, hsent⟩ := ringKeyRedirectionReserve_spec hlim hlogic hord
  unfold reserveRing
  rw [heq]
  cases hr : s.ringMap.lookup key2 with
  | some r =>
    simp only [hr]
    exact ⟨_, key2, r.ring, rfl, hsent, ⟨n, rfl⟩, .inl ⟨r, hr, rfl, rfl, rfl⟩⟩
  | none =>
    simp only [hr, ↓reduceIte]
    exact ⟨_, key2, s.created, rfl, hsent, ⟨n, rfl⟩, .inr ⟨hr, rfl, rfl, rfl⟩⟩

end Reserve

/-! ## The invariant -/

/-- No redirection outlives its ring; every ring has references, and they are the reservations that it
serves. -/
structure RingRun.Inv (limit : Nat) (s : RingRun) : Prop where
  few : s.out.length ≤ 2147483647
  limit : s.dev.size ≤ limit
  live : ∀ k d, s.dev.redirectionMap.lookup k = some d → d.key ∈ s.dev.ringMap
  redirected : ∀ e ∈ s.out, ∃ d r, s.dev.redirectionMap.lookup e.1 = some d ∧
    s.dev.ringMap.lookup d.key = some r ∧ r.ring = e.2
  refs : ∀ k r, s.dev.ringMap.lookup k = some r → r.refCnt = s.out.countP fun e => e.2 = r.ring
  pos : ∀ k r, s.dev.ringMap.lookup k = some r → 0 < r.refCnt
  inj : ∀ k k' r r', s.dev.ringMap.lookup k = some r → s.dev.ringMap.lookup k' = some r' →
    r.ring = r'.ring → k = k'
  fresh : ∀ k r, s.dev.ringMap.lookup k = some r → r.ring < s.dev.created

theorem RingRun.Inv.start (limit : Nat) : RingRun.Inv limit ⟨.empty, []⟩ where
  few := Nat.zero_le _
  limit := Nat.zero_le _
  live := by simp [NetDev.empty]
  redirected := by simp
  refs := by simp [NetDev.empty]
  pos := by simp [NetDev.empty]
  inj := by simp [NetDev.empty]
  fresh := by simp [NetDev.empty]

theorem RingRun.Inv.balanced {limit : Nat} {s : RingRun} (h : s.Inv limit) : s.Balanced limit where
  limit := h.limit
  refs := h.refs
  redirected := h.redirected
  empty := by
    intro hout
    have hrings : s.dev.ringMap = ∅ := by
      refine eq_empty_of_lookup fun k r hr => ?_
      have hpos := h.pos k r hr
      have href := h.refs k r hr
      rw [hout] at href
      simp only [List.countP_nil] at href
      omega
    refine ⟨hrings, eq_empty_of_lookup fun k d hd => ?_⟩
    have hlive := h.live k d hd
    rw [hrings] at hlive
    exact AList.notMem_empty _ hlive

section Steps

variable {limit : Nat} {dev dev' : NetDev} {out : List (RingKey × Nat)} {key key2 : RingKey}
  {order : List RingKey} {ring : Nat}

theorem RingRun.Inv.ring_unique {s : RingRun} (h : s.Inv limit) {e : RingKey × Nat} (he : e ∈ s.out)
    {d : Redirection} {r : RingRef} (hd : s.dev.redirectionMap.lookup e.1 = some d)
    (hr : s.dev.ringMap.lookup d.key = some r) : r.ring = e.2 := by
  obtain ⟨d', r', hd', hr', hring⟩ := h.redirected e he
  obtain rfl : d = d' := Option.some_inj.mp (hd.symm.trans hd')
  obtain rfl : r = r' := Option.some_inj.mp (hr.symm.trans hr')
  exact hring

theorem RingRun.Inv.countP_created {s : RingRun} (h : s.Inv limit) :
    s.out.countP (fun e => e.2 = s.dev.created) = 0 := by
  rw [List.countP_eq_zero]
  intro e he
  obtain ⟨d, r, -, hr, hring⟩ := h.redirected e he
  have := h.fresh d.key r hr
  simp only [decide_eq_true_eq]
  omega

theorem RingRun.Inv.reserved_ring (h : RingRun.Inv limit ⟨dev, out⟩) (hfew : out.length < 2147483647)
    (hres : Reserved limit dev dev' key order key2 ring) :
    dev'.ringMap = dev.ringMap.insert key2 ⟨ring, out.countP (fun e => e.2 = ring) + 1⟩ ∧
      (∀ r, dev.ringMap.lookup key2 = some r → r.ring = ring) ∧
      (∀ k r, dev.ringMap.lookup k = some r → r.ring = ring → k = key2) ∧
      dev.created ≤ dev'.created ∧ ring < dev'.created := by
  rcases hres.ring with ⟨r, hr, rfl, hcr, hmap⟩ | ⟨hr, rfl, hcr, hmap⟩
  · refine ⟨?_, ?_, ?_, Nat.le_of_eq hcr.symm, hcr ▸ h.fresh _ _ hr⟩
    · have hle : out.countP (fun e => e.2 = r.ring) ≤ out.length := List.countP_le_length
      have href : r.refCnt = (out.countP fun e => e.2 = r.ring : Nat) := h.refs _ _ hr
      rw [hmap, href, cInt_of_lt (by omega) (by omega)]
    · intro r' hr'
      rw [Option.some_inj.mp (hr.symm.trans hr')]
    · intro k r' hr' heq
      exact h.inj _ _ _ _ hr' hr heq
  · refine ⟨?_, ?_, ?_, by omega, by omega⟩
    · rw [hmap, h.countP_created]
      rfl
    · intro r' hr'
      rw [hr] at hr'
      cases hr'
    · intro k r' hr' heq
      exact absurd heq (Nat.ne_of_lt (h.fresh _ _ hr'))

theorem RingRun.Inv.reserve (h : RingRun.Inv limit ⟨dev, out⟩) (hfew : out.length < 2147483647)
    (hres : Reserved limit dev dev' key order key2 ring) :
    RingRun.Inv limit ⟨dev', (key, ring) :: out⟩ := by
  obtain ⟨hmap, hsame, honly, hcr, hring⟩ := h.reserved_ring hfew hres
  obtain ⟨n, hred⟩ := hres.redirectionMap
  -- rings stay under their keys
  have hkeep : ∀ k r, dev.ringMap.lookup k = some r →
      ∃ r', dev'.ringMap.lookup k = some r' ∧ r'.ring = r.ring := by
    intro k r hr
    rw [hmap]
    by_cases hk : k = key2
    · subst hk
      exact ⟨_, AList.lookup_insert _, (hsame r hr).symm⟩
    · exact ⟨r, by rw [AList.lookup_insert_ne hk, hr], rfl⟩
  refine ⟨hfew, ?_, ?_, ?_, ?_, ?_, ?_, ?_⟩
  · show dev'.size ≤ limit
    unfold NetDev.size
    rw [hmap]
    by_cases hmem : key2 ∈ dev.ringMap
    · rw [length_keys_insert_of_mem hmem]
      exact h.limit
    have hroom : dev.size < limit := by
      by_contra hfull
      cases hd : dev.redirectionMap.lookup key with
      | some d => exact hmem (hres.sent.known d hd ▸ h.live key d hd)
      | none => exact hmem (hres.sent.full hd (Nat.not_lt.mp hfull))
    exact Nat.le_trans length_keys_insert_le hroom
  · intro k d hd
    show d.key ∈ dev'.ringMap
    rw [hmap, AList.mem_insert]
    have hd : dev'.redirectionMap.lookup k = some d := hd
    rw [hred] at hd
    rcases lookup_insert_cases hd with ⟨-, rfl⟩ | ⟨-, hd⟩
    · exact .inl rfl
    · exact .inr (h.live k d hd)
  · intro e he
    show ∃ d r, dev'.redirectionMap.lookup e.1 = some d ∧ dev'.ringMap.lookup d.key = some r ∧ _
    rw [hred]
    by_cases hk : e.1 = key
    · refine ⟨⟨key2, n⟩, ⟨ring, _⟩, by rw [hk, AList.lookup_insert], by rw [hmap, AList.lookup_insert],
        ?_⟩
      rcases List.mem_cons.mp he with rfl | he
      · rfl
      · obtain ⟨d, r, hd, hr, heq⟩ := h.redirected e he
        have hd : dev.redirectionMap.lookup e.1 = some d := hd
        rw [hk] at hd
        rw [← hsame r (hres.sent.known d hd ▸ hr), heq]
    · rcases List.mem_cons.mp he with rfl | he
      · exact absurd rfl hk
      · obtain ⟨d, r, hd, hr, heq⟩ := h.redirected e he
        obtain ⟨r', hr', heq'⟩ := hkeep _ r hr
        exact ⟨d, r', by rw [AList.lookup_insert_ne hk]; exact hd, hr', heq'.trans heq⟩
  · intro k r hr
    have hr : dev'.ringMap.lookup k = some r := hr
    rw [hmap] at hr
    rw [List.countP_cons]
    rcases lookup_insert_cases hr with ⟨-, rfl⟩ | ⟨hk, hr⟩
    · simp
    · have hne : ring ≠ r.ring := fun heq => hk (honly k r hr heq.symm)
      have href : r.refCnt = (out.countP fun e => e.2 = r.ring : Nat) := h.refs k r hr
      simpa [hne] using href
  · intro k r hr
    have hr : dev'.ringMap.lookup k = some r := hr
    rw [hmap] at hr
    rcases lookup_insert_cases hr with ⟨-, rfl⟩ | ⟨-, hr⟩
    · show (0 : Int) < out.countP (fun e => e.2 = ring) + 1
      omega
    · exact h.pos k r hr
  · intro k k' r r' hr hr' heq
    have hr : dev'.ringMap.lookup k = some r := hr
    have hr' : dev'.ringMap.lookup k' = some r' := hr'
    rw [hmap] at hr hr'
    rcases lookup_insert_cases hr with ⟨hk, rfl⟩ | ⟨-, hold⟩
    · rcases lookup_insert_cases hr' with ⟨hk', -⟩ | ⟨-, hold'⟩
      · exact hk.trans hk'.symm
      · exact hk.trans (honly k' r' hold' heq.symm).symm
    · rcases lookup_insert_cases hr' with ⟨hk', rfl⟩ | ⟨-, hold'⟩
      · exact (honly k r hold heq).trans hk'.symm
      · exact h.inj k k' r r' hold hold' heq
  · intro k r hr
    show r.ring < dev'.created
    have hr : dev'.ringMap.lookup k = some r := hr
    rw [hmap] at hr
    rcases lookup_insert_cases hr with ⟨-, rfl⟩ | ⟨-, hr⟩
    · exact hring
    · exact Nat.lt_of_lt_of_le (h.fresh k r hr) hcr

theorem releaseRing_eq {d : Redirection} {r : RingRef} (hlim : 1 ≤ limit)
    (hd : dev.redirectionMap.lookup key = some d) (hr : dev.ringMap.lookup d.key = some r)
    (hpos : 0 < r.refCnt) (hle : r.refCnt ≤ 2147483647) :
    getRingKeyRedirection limit dev key = d.key ∧
      releaseRing limit dev key =
        (if r.refCnt = 1 then
          { ringKeyRedirectionRelease limit dev key with ringMap := dev.ringMap.erase d.key }
        else { dev with ringMap := dev.ringMap.insert d.key ⟨r.ring, r.refCnt - 1⟩ }, some r.ring) := by
  have h0 : ¬limit = 0 := by omega
  have hred : getRingKeyRedirection limit dev key = d.key := by
    simp [getRingKeyRedirection, h0, hd]
  refine ⟨hred, ?_⟩
  unfold releaseRing
  generalize getRingKeyRedirection limit dev key = redKey at hred ⊢
  subst hred
  simp only [hr, cInt_of_lt (n := r.refCnt - 1) (by omega) (by omega)]
  by_cases h1 : r.refCnt = 1
  · have hmap : (ringKeyRedirectionRelease limit dev key).ringMap = dev.ringMap := by
      unfold ringKeyRedirectionRelease
      rw [if_neg h0, hd]
      simp only
      split <;> rfl
    rw [if_pos (by omega), if_pos h1, hmap]
  · rw [if_neg (by omega), if_neg h1]

variable {e : RingKey × Nat} {d : Redirection} {r : RingRef}

theorem RingRun.Inv.few_erase (h : RingRun.Inv limit ⟨dev, out⟩) (e : RingKey × Nat) :
    (out.erase e).length ≤ 2147483647 :=
  Nat.le_trans List.length_erase_le h.few

theorem RingRun.Inv.refs_erase (h : RingRun.Inv limit ⟨dev, out⟩) (he : e ∈ out)
    (hd : dev.redirectionMap.lookup e.1 = some d) (hr : dev.ringMap.lookup d.key = some r) {k : RingKey}
    {r' : RingRef} (hr' : dev.ringMap.lookup k = some r') :
    r'.refCnt = ((out.erase e).countP (fun x => x.2 = r'.ring) + if k = d.key then 1 else 0 : Nat) := by
  have href : r'.refCnt = (out.countP fun x => x.2 = r'.ring : Nat) := h.refs k r' hr'
  have hring : r.ring = e.2 := h.ring_unique he hd hr
  rw [href, (List.perm_cons_erase he).countP_eq, List.countP_cons]
  by_cases hk : k = d.key
  · subst hk
    rw [Option.some_inj.mp (hr'.symm.trans hr)]
    simp [hring]
  · have hne : ¬e.2 = r'.ring := fun heq => hk (h.inj _ _ _ _ hr' hr (heq.symm.trans hring.symm))
    simp [hk, hne]

theorem RingRun.Inv.keep (h : RingRun.Inv limit ⟨dev, out⟩) (he : e ∈ out)
    (hd : dev.redirectionMap.lookup e.1 = some d) (hr : dev.ringMap.lookup d.key = some r)
    (h1 : r.refCnt ≠ 1) :
    RingRun.Inv limit
      ⟨{ dev with ringMap := dev.ringMap.insert d.key ⟨r.ring, r.refCnt - 1⟩ }, out.erase e⟩ := by
  have hkeep : ∀ k r', dev.ringMap.lookup k = some r' →
      ∃ r₁, (dev.ringMap.insert d.key ⟨r.ring, r.refCnt - 1⟩).lookup k = some r₁ ∧
        r₁.ring = r'.ring := by
    intro k r' hr'
    by_cases hk : k = d.key
    · subst hk
      rw [Option.some_inj.mp (hr'.symm.trans hr)]
      exact ⟨_, AList.lookup_insert _, rfl⟩
    · exact ⟨r', by rw [AList.lookup_insert_ne hk, hr'], rfl⟩
  have hback : ∀ k r', (dev.ringMap.insert d.key ⟨r.ring, r.refCnt - 1⟩).lookup k = some r' →
      ∃ r₁, dev.ringMap.lookup k = some r₁ ∧ r₁.ring = r'.ring := by
    intro k r' hr'
    rcases lookup_insert_cases hr' with ⟨hk, rfl⟩ | ⟨-, hold⟩
    · subst hk
      exact ⟨r, hr, rfl⟩
    · exact ⟨r', hold, rfl⟩
  refine ⟨h.few_erase e, ?_, ?_, ?_, ?_, ?_, ?_, ?_⟩
  · show (dev.ringMap.insert _ _).keys.length ≤ limit
    rw [length_keys_insert_of_mem (mem_of_lookup hr)]
    exact h.limit
  · intro k d' hd'
    exact (AList.mem_insert _).mpr (.inr (h.live k d' hd'))
  · intro e' he'
    obtain ⟨d', r', hd', hr', heq⟩ := h.redirected e' (List.mem_of_mem_erase he')
    obtain ⟨r₁, hr₁, heq₁⟩ := hkeep _ r' hr'
    exact ⟨d', r₁, hd', hr₁, heq₁.trans heq⟩
  · intro k r' hr'
    rcases lookup_insert_cases hr' with ⟨-, rfl⟩ | ⟨hk, hold⟩
    · have href := h.refs_erase he hd hr hr
      rw [if_pos rfl] at href
      show r.refCnt - 1 = ((out.erase e).countP fun x => x.2 = r.ring : Nat)
      omega
    · have href := h.refs_erase he hd hr hold
      rwa [if_neg hk] at href
  · intro k r' hr'
    rcases lookup_insert_cases hr' with ⟨-, rfl⟩ | ⟨-, hold⟩
    · have hpos := h.pos _ r hr
      show 0 < r.refCnt - 1
      omega
    · exact h.pos k r' hold
  · intro k k' r₁ r₂ hr₁ hr₂ heq
    obtain ⟨q₁, hq₁, heq₁⟩ := hback k r₁ hr₁
    obtain ⟨q₂, hq₂, heq₂⟩ := hback k' r₂ hr₂
    exact h.inj k k' q₁ q₂ hq₁ hq₂ (heq₁.trans (heq.trans heq₂.symm))
  · intro k r' hr'
    obtain ⟨q, hq, heq⟩ := hback k r' hr'
    exact heq ▸ h.fresh k q hq

theorem RingRun.Inv.drop (h : RingRun.Inv limit ⟨dev, out⟩) (he : e ∈ out)
    (hd : dev.redirectionMap.lookup e.1 = some d) (hr : dev.ringMap.lookup d.key = some r)
    (h1 : r.refCnt = 1)
    (hsole : ∀ k d', dev.redirectionMap.lookup k = some d' → d'.key = d.key → k = e.1) :
    RingRun.Inv limit
      ⟨{ dev with ringMap := dev.ringMap.erase d.key,
                  redirectionMap := dev.redirectionMap.erase e.1 }, out.erase e⟩ := by
  have hlast : ∀ e' ∈ out.erase e, e'.2 ≠ r.ring := by
    have href := h.refs_erase he hd hr hr
    rw [if_pos rfl] at href
    have hzero : (out.erase e).countP (fun x => x.2 = r.ring) = 0 := by omega
    rw [List.countP_eq_zero] at hzero
    intro e' he'
    simpa using hzero e' he'
  refine ⟨h.few_erase e, ?_, ?_, ?_, ?_, ?_, ?_, ?_⟩
  · exact Nat.le_trans length_keys_erase_le h.limit
  · intro k d' hd'
    obtain ⟨hk, hold⟩ := lookup_erase_cases hd'
    exact AList.mem_erase.mpr ⟨fun heq => hk (hsole k d' hold heq), h.live k d' hold⟩
  · intro e' he'
    obtain ⟨d', r', hd', hr', heq⟩ := h.redirected e' (List.mem_of_mem_erase he')
    have hne : d'.key ≠ d.key := by
      intro hk
      rw [hk] at hr'
      exact hlast e' he' (by rw [← heq, Option.some_inj.mp (hr'.symm.trans hr)])
    have hne' : e'.1 ≠ e.1 := by
      intro hk
      rw [hk] at hd'
      exact hne (by rw [Option.some_inj.mp (hd'.symm.trans hd)])
    exact ⟨d', r', (AList.lookup_erase_ne hne').trans hd', (AList.lookup_erase_ne hne).trans hr', heq⟩
  · intro k r' hr'
    obtain ⟨hk, hold⟩ := lookup_erase_cases hr'
    have href := h.refs_erase he hd hr hold
    rwa [if_neg hk] at href
  · intro k r' hr'
    exact h.pos k r' (lookup_erase_cases hr').2
  · intro k k' r₁ r₂ hr₁ hr₂
    exact h.inj k k' r₁ r₂ (lookup_erase_cases hr₁).2 (lookup_erase_cases hr₂).2
  · intro k r' hr'
    exact h.fresh k r' (lookup_erase_cases hr').2

end Steps

/-! ## Whole runs -/

section Runs

variable {limit : Nat} {s : RingRun}

theorem RingRun.matching_spec {key : RingKey} {e : RingKey × Nat} (h : s.matching key = some e) :
    e ∈ s.out ∧ e.1 = key :=
  ⟨List.mem_of_find?_eq_some h, by simpa using List.find?_some h⟩

theorem RingRun.Inv.step (hlim : 1 ≤ limit) (h : s.Inv limit) {a : RingAct} (hadm : s.admits a = true)
    (hord : s.orderly limit a = true) : (s.step limit a).Inv limit ∧ s.StepRight limit a := by
  cases a with
  | reserve key order create =>
    simp only [RingRun.admits, Bool.and_eq_true, decide_eq_true_eq, List.isPerm_iff] at hadm
    obtain ⟨⟨hlogic, hperm⟩, rfl⟩ := hadm
    simp only [RingRun.orderly, Bool.and_eq_true, decide_eq_true_eq] at hord
    obtain ⟨hfew, hord⟩ := hord
    obtain ⟨dev', key2, ring, heq, hres⟩ := reserveRing_spec hlim hlogic hperm
    refine ⟨?_, fun d hnone hd hprof => ?_⟩
    · simp only [RingRun.step, heq]
      exact RingRun.Inv.reserve h hfew hres
    obtain ⟨n, hred⟩ := hres.redirectionMap
    rw [heq] at hd
    have hd : dev'.redirectionMap.lookup key = some d := hd
    rw [hred, AList.lookup_insert, Option.some_inj] at hd
    subst hd
    simp only [hnone, Option.isSome_none, Bool.false_or, Bool.or_eq_true,
      decide_eq_true_eq] at hord
    obtain ⟨hfull, hown⟩ := hres.sent.profile hnone hord hprof
    exact ⟨hfull, fun k hk => hown k (hperm.mem_iff.mpr hk)⟩
  | release key =>
    obtain ⟨e, hm⟩ := Option.isSome_iff_exists.mp hadm
    obtain ⟨he, rfl⟩ := RingRun.matching_spec hm
    obtain ⟨d, r, hd, hr, hring⟩ := h.redirected e he
    have hle : r.refCnt ≤ 2147483647 := by
      have hcount : s.out.countP (fun e => e.2 = r.ring) ≤ s.out.length := List.countP_le_length
      have := h.few
      rw [h.refs _ r hr]
      omega
    obtain ⟨hred, heq⟩ := releaseRing_eq hlim hd hr (h.pos _ r hr) hle
    refine ⟨?_, ?_⟩
    · simp only [RingRun.step, heq, hm, Option.map_some, Option.getD_some]
      by_cases h1 : r.refCnt = 1
      · have hcnt : s.dev.refCnt d.key = 1 := by
          simp [NetDev.refCnt, hr, h1]
        simp only [RingRun.orderly, hred, hcnt, hd, Option.map_some, ne_eq, not_true_eq_false,
          decide_false, Bool.false_or, Bool.and_eq_true, decide_eq_true_eq, Option.some_inj,
          List.all_eq_true, Bool.or_eq_true] at hord
        have hdel : ringKeyRedirectionRelease limit s.dev e.1 =
            { s.dev with redirectionMap := s.dev.redirectionMap.erase e.1 } := by
          unfold ringKeyRedirectionRelease
          simp only [if_neg (show ¬limit = 0 by omega), hd, hord.1]
          rfl
        rw [if_pos h1, hdel]
        refine RingRun.Inv.drop h he hd hr h1 fun k d' hd' hk => ?_
        exact (hord.2 ⟨k, d'⟩ (AList.mem_lookup_iff.mp hd')).resolve_right fun hne => hne hk
      · rw [if_neg h1]
        exact RingRun.Inv.keep h he hd hr h1
    · show (releaseRing limit s.dev e.1).2 = _
      rw [heq, hm, Option.map_some, hring]

end Runs

end LibvmaTlt.Dev
