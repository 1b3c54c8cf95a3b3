import LibvmaTlt.Lib.Reach
import LibvmaTlt.Iomux.EpollWait

/-!
# One-shot and edge-triggered sockets

`EPOLLONESHOT` promises one report until the mask is set again, `EPOLLET` one report of an event for
each time that it is inserted. Both are about histories: an epoll instance runs next to a record of what
was asked for, what has been reported since, and what has been inserted since. The edge-triggered half
holds in every run. The other needs that a report takes all events of the mask, because only the
reported ones are taken out of it, and that a socket without any left has no error or hang-up flagged.
-/

namespace LibvmaTlt.Iomux

/-! ## Runs -/

/-- An epoll instance with its history: the mask that was last asked for, whether the socket has been
reported since, and the events that have been reported with `EPOLLET` and not inserted since. -/
structure EpollRun where
  info : EpfdInfo
  asked : Nat → Events
  reported : Nat → Bool
  spent : Nat → Events

inductive EpollAct where
  | add (fd : Nat) (event : EpollEvent) (osOk : Bool)
  | mod (fd : Nat) (event : EpollEvent) (osOk : Bool)
  /-- The socket calls `insert_epoll_event_cb`. -/
  | notify (fd : Nat) (flags : Events)
  /-- The socket becomes readable or writeable, or stops being so. -/
  | ready (fd : Nat) (readable writeable : Bool)
  | get (maxevents n : Nat)

def EpollRun.inserted (s : EpollRun) (fd : Nat) (flags : Events) : EpollRun :=
  { s with spent := Function.update s.spent fd (s.spent fd &&& ~~~flags) }

def EpollRun.asks (s : EpollRun) (fd : Nat) (mask events : Events) : EpollRun :=
  { s with
    asked := Function.update s.asked fd mask
    reported := Function.update s.reported fd false }.inserted fd events

def EpollRun.add (s : EpollRun) (fd : Nat) (event : EpollEvent) (osOk : Bool) : EpollRun :=
  let (info, err) := s.info.addFd fd event osOk
  match err, s.info.offloaded fd with
  | none, some k => { s with info := info }.asks fd event.events (k.eventsNow event.events)
  | _, _ => { s with info := info }

def EpollRun.mod (s : EpollRun) (fd : Nat) (event : EpollEvent) (osOk : Bool) : EpollRun :=
  let (info, err) := s.info.modFd fd event osOk
  match err, s.info.registered fd with
  | none, some k =>
    { s with info := info }.asks fd event.events (if k.isSocket then k.eventsNow event.events else 0)
  | _, _ => { s with info := info }

def EpollRun.notify (s : EpollRun) (fd : Nat) (flags : Events) : EpollRun :=
  match s.info.sockets fd with
  | none => s
  | some k =>
    if k.econtext = some s.info.epfd then
      let s' := { s with info := s.info.insertEpollEventCb fd k flags }
      if flags &&& (k.fdRec.events ||| epollHup ||| epollErr) ≠ 0 then s'.inserted fd flags else s'
    else s

def EpollRun.get (s : EpollRun) (maxevents n : Nat) : EpollRun :=
  let (info, reports) := s.info.getCurrentEvents maxevents n
  { s with
    info := info
    reported := fun fd => s.reported fd || eventsOf reports fd ≠ 0
    spent := fun fd =>
      if s.asked fd &&& epollEt ≠ 0 then s.spent fd ||| eventsOf reports fd else s.spent fd }

def EpollRun.step (s : EpollRun) : EpollAct → EpollRun
  | .add fd event osOk => s.add fd event osOk
  | .mod fd event osOk => s.mod fd event osOk
  | .notify fd flags => s.notify fd flags
  | .ready fd readable writeable =>
    match s.info.sockets fd with
    | none => s
    | some k =>
      { s with info := s.info.setSocket fd { k with readable := readable, writeable := writeable } }
  | .get maxevents n => s.get maxevents n

/-- No socket with `EPOLLONESHOT` is reported that has been since its mask was set, and no event of a
socket with `EPOLLET` that has been since it was inserted. -/
def EpollRun.StepRight (s : EpollRun) : EpollAct → Prop
  | .get maxevents n => ∀ r ∈ (s.info.getCurrentEvents maxevents n).2,
      (s.asked r.fd &&& epollOneshot ≠ 0 → s.reported r.fd = false) ∧
        (s.asked r.fd &&& epollEt ≠ 0 → s.spent r.fd &&& r.events = 0)
  | _ => True

def eventBits : Events := ~~~(epollOneshot ||| epollEt)

/-- The events of the mask, without its two modes. -/
def SocketFd.mask (k : SocketFd) : Events := k.fdRec.events &&& eventBits

/-- The flagged events that the socket is ready for; only reading and writing can fail to be so. -/
def SocketFd.live (k : SocketFd) : Events :=
  k.epollEventFlags &&& ((if k.readable then epollIn else 0) ||| (if k.writeable then epollOut else 0) |||
    ~~~(epollIn ||| epollOut))

def SocketFd.pending (k : SocketFd) : Bool :=
  k.live &&& (k.fdRec.events ||| epollErr ||| epollHup) ≠ 0

/-- With `EPOLLONESHOT`, a socket without an event in its mask has no error or hang-up flagged, and one
with events in its mask is ready for them all; a hang-up keeps it from being so for writing. -/
def SocketFd.onceOnly (k : SocketFd) : Bool :=
  k.fdRec.events &&& epollOneshot = 0 ||
    if k.mask = 0 then k.epollEventFlags &&& (epollErr ||| epollHup) = 0
    else k.mask &&& ~~~k.live = 0 && (k.epollEventFlags &&& epollHup = 0 || k.mask &&& epollOut = 0)

/-- Sockets notify of events only. A call comes as far as the first pending sockets of the ready list, up
to the room there is; those with `EPOLLONESHOT` can be reported once. -/
def EpollRun.orderly (s : EpollRun) : EpollAct → Bool
  | .notify _ flags => flags &&& (epollOneshot ||| epollEt) = 0
  | .get maxevents n =>
    ((s.info.readyFds.filter fun fd => (s.info.sockets fd).any SocketFd.pending).take (maxevents - n)).all
      fun fd => (s.info.sockets fd).all SocketFd.onceOnly
  | _ => true

/-! ## The invariant -/

structure SockInv (k : SocketFd) (inReady : Prop) (asked : Events) (reported : Bool) (spent : Events) :
    Prop where
  oneshot : k.fdRec.events.getLsbD 30 = asked.getLsbD 30
  et : k.fdRec.events.getLsbD 31 = asked.getLsbD 31
  off : reported = true → asked.getLsbD 30 = true →
    ∀ i, k.fdRec.events.getLsbD i = true → i = 30 ∨ i = 31
  unspent : inReady → ∀ i, spent.getLsbD i = true → k.epollEventFlags.getLsbD i = false
  plain : inReady → k.Plain

theorem SockInv.mono {k : SocketFd} {p q : Prop} {asked spent : Events} {reported : Bool}
    (h : SockInv k p asked reported spent) (hpq : q → p) : SockInv k q asked reported spent :=
  ⟨h.oneshot, h.et, h.off, fun hq => h.unspent (hpq hq), fun hq => h.plain (hpq hq)⟩

structure EpollRun.Inv (s : EpollRun) : Prop where
  nodup : s.info.readyFds.Nodup
  map : ∀ fd, (s.info.fdNonOffloadedMap fd).isSome = true → s.info.offloaded fd = none
  sock : ∀ fd k, s.info.sockets fd = some k →
    SockInv k (fd ∈ s.info.readyFds) (s.asked fd) (s.reported fd) (s.spent fd)

section Steps

variable {s : EpollRun} {fd : Nat} {k : SocketFd} {flags : Events}

theorem EpollRun.Inv.change (h : s.Inv) {s' : EpollRun} (hk : s.info.sockets fd = some k)
    {k' : SocketFd} (hsock : s'.info.sockets = Function.update s.info.sockets fd (some k'))
    (htype : k'.isSocket = k.isSocket)
    (hmap : s'.info.fdNonOffloadedMap = s.info.fdNonOffloadedMap)
    (hhist : ∀ fd', fd' ≠ fd → s'.asked fd' = s.asked fd' ∧ s'.reported fd' = s.reported fd' ∧
      s'.spent fd' = s.spent fd')
    (hmem : ∀ fd', fd' ≠ fd → fd' ∈ s'.info.readyFds → fd' ∈ s.info.readyFds)
    (hnodup : s'.info.readyFds.Nodup)
    (hfd : SockInv k' (fd ∈ s'.info.readyFds) (s'.asked fd) (s'.reported fd) (s'.spent fd)) :
    s'.Inv where
  nodup := hnodup
  map := by
    intro fd' hm
    rw [hmap] at hm
    have hold := h.map fd' hm
    unfold EpfdInfo.offloaded at hold ⊢
    rw [hsock]
    by_cases heq : fd' = fd
    · subst heq
      rw [hk, Option.filter_eq_none_iff] at hold
      rw [Function.update_self, Option.filter_eq_none_iff]
      rintro k₁ hk₁ htrue
      cases hk₁
      exact hold k rfl (htype ▸ htrue)
    · rwa [Function.update_of_ne heq]
  sock := by
    intro fd' k₁ hk₁
    rw [hsock] at hk₁
    by_cases heq : fd' = fd
    · subst heq
      rw [Function.update_self, Option.some_inj] at hk₁
      exact hk₁ ▸ hfd
    rw [Function.update_of_ne heq] at hk₁
    obtain ⟨ha, hr, hs⟩ := hhist fd' heq
    rw [ha, hr, hs]
    exact (h.sock fd' k₁ hk₁).mono (hmem fd' heq)

theorem EpollRun.Inv.inserted (h : s.Inv) (fd : Nat) (flags : Events) : (s.inserted fd flags).Inv where
  nodup := h.nodup
  map := h.map
  sock := by
    intro fd' k hk
    have hold := h.sock fd' k hk
    refine ⟨hold.oneshot, hold.et, hold.off, fun hin i hi => hold.unspent hin i ?_, hold.plain⟩
    by_cases heq : fd' = fd
    · subst heq
      simp only [EpollRun.inserted, Function.update_self, getLsbD_and_not, Bool.and_eq_true] at hi
      exact hi.1
    · simpa only [EpollRun.inserted, Function.update_of_ne heq] using hi

theorem EpollRun.Inv.insert (h : s.Inv) (hk : s.info.sockets fd = some k)
    (hf : flags.getLsbD 30 = false ∧ flags.getLsbD 31 = false) :
    ({ s with info := s.info.insertEpollEvent fd k flags }.inserted fd flags).Inv := by
  have hold := h.sock fd k hk
  have hhist : ∀ fd', fd' ≠ fd → s.asked fd' = s.asked fd' ∧ s.reported fd' = s.reported fd' ∧
      Function.update s.spent fd (s.spent fd &&& ~~~flags) fd' = s.spent fd' :=
    fun fd' hne => ⟨rfl, rfl, Function.update_of_ne hne ..⟩
  have hspent : ∀ i, (Function.update s.spent fd (s.spent fd &&& ~~~flags) fd).getLsbD i = true →
      (s.spent fd).getLsbD i = true ∧ flags.getLsbD i = false := by
    intro i hi
    rw [Function.update_self, getLsbD_and_not, Bool.and_eq_true, Bool.not_eq_true'] at hi
    exact hi
  unfold EpfdInfo.insertEpollEvent
  by_cases hin : fd ∈ s.info.readyFds
  · rw [if_pos hin]
    refine h.change hk rfl rfl rfl hhist (fun _ _ hin => hin) h.nodup ?_
    refine ⟨hold.oneshot, hold.et, hold.off, fun _ i hi => ?_, fun _ => ⟨?_, ?_⟩⟩
    · rw [BitVec.getLsbD_or, hold.unspent hin i (hspent i hi).1, (hspent i hi).2, Bool.or_false]
    · rw [BitVec.getLsbD_or, (hold.plain hin).1, hf.1, Bool.or_false]
    · rw [BitVec.getLsbD_or, (hold.plain hin).2, hf.2, Bool.or_false]
  · rw [if_neg hin]
    refine h.change hk rfl rfl rfl hhist ?_ ?_ ?_
    · intro fd' hne hin'
      rcases List.mem_append.mp hin' with hin' | hin'
      · exact hin'
      · exact absurd (List.mem_singleton.mp hin') hne
    · refine List.nodup_append.mpr ⟨h.nodup, List.pairwise_singleton _ fd, fun a ha b hb heq => hin ?_⟩
      rwa [← List.mem_singleton.mp hb, ← heq]
    · exact ⟨hold.oneshot, hold.et, hold.off, fun _ i hi => (hspent i hi).2, fun _ => hf⟩

theorem EpollRun.Inv.drop (h : s.Inv) (fd : Nat) : { s with info := s.info.dropReady fd }.Inv := by
  unfold EpfdInfo.dropReady
  cases hk : s.info.sockets fd with
  | none => exact h
  | some k =>
    have hold := h.sock fd k hk
    simp only
    split
    · refine h.change hk rfl rfl rfl (fun _ _ => ⟨rfl, rfl, rfl⟩)
        (fun _ _ hin => List.mem_of_mem_erase hin) (h.nodup.erase fd) ?_
      exact ⟨hold.oneshot, hold.et, hold.off, fun _ i _ => by simp, fun _ => ⟨by simp, by simp⟩⟩
    · exact h

theorem EpollRun.Inv.setMask (h : s.Inv) (hk : s.info.sockets fd = some k) {info : EpfdInfo}
    {k' : SocketFd} (hsock : info.sockets = Function.update s.info.sockets fd (some k'))
    (htype : k'.isSocket = k.isSocket) (hflags : k'.epollEventFlags = k.epollEventFlags)
    (hmap : info.fdNonOffloadedMap = s.info.fdNonOffloadedMap)
    (hready : info.readyFds = s.info.readyFds) :
    EpollRun.Inv ⟨info, Function.update s.asked fd k'.fdRec.events,
      Function.update s.reported fd false, s.spent⟩ := by
  have hold := h.sock fd k hk
  refine h.change hk hsock htype hmap ?_ (fun _ _ hin => hready ▸ hin) (hready ▸ h.nodup) ?_
  · intro fd' hne
    exact ⟨Function.update_of_ne hne .., Function.update_of_ne hne .., rfl⟩
  · refine ⟨by simp, by simp, by simp, fun hin i hi => ?_, fun hin => ?_⟩
    · rw [hflags]
      exact hold.unspent (hready ▸ hin) i hi
    · unfold SocketFd.Plain
      rw [hflags]
      exact hold.plain (hready ▸ hin)

theorem eventsNow_plain (k : SocketFd) (mask : Events) :
    (k.eventsNow mask).getLsbD 30 = false ∧ (k.eventsNow mask).getLsbD 31 = false := by
  unfold SocketFd.eventsNow
  split <;> split <;> decide

theorem EpollRun.Inv.congr (h : s.Inv) {info : EpfdInfo} (hsock : info.sockets = s.info.sockets)
    (hready : info.readyFds = s.info.readyFds)
    (hmap : ∀ fd, (info.fdNonOffloadedMap fd).isSome = true →
      (s.info.fdNonOffloadedMap fd).isSome = true ∨ s.info.offloaded fd = none) :
    { s with info := info }.Inv where
  nodup := hready ▸ h.nodup
  map := by
    intro fd hm
    show info.offloaded fd = none
    rw [EpfdInfo.offloaded, hsock]
    exact (hmap fd hm).elim (h.map fd) id
  sock := by
    intro fd k hk
    show SockInv k (fd ∈ info.readyFds) _ _ _
    rw [hready]
    exact h.sock fd k (hsock ▸ hk)

theorem sockets_of_offloaded {s : EpfdInfo} (h : s.offloaded fd = some k) : s.sockets fd = some k :=
  (Option.filter_eq_some_iff.mp h).1

theorem EpollRun.Inv.add (h : s.Inv) (fd : Nat) (event : EpollEvent) (osOk : Bool) :
    (s.add fd event osOk).Inv := by
  unfold EpollRun.add
  obtain ⟨herr, hsock, hready, hmap⟩ | ⟨hoff, hsock, hready, r, hmap⟩ |
    ⟨k, k', s₁, hoff, heq, hnow, htype, hflags, hmask, hsock, hready, hmap⟩ :=
    addFd_added s.info fd event osOk
  · obtain ⟨e, he⟩ := Option.ne_none_iff_exists'.mp herr
    simp only [he]
    exact h.congr hsock hready fun fd' hm => .inl (hmap ▸ hm)
  · have hinv : { s with info := (s.info.addFd fd event osOk).1 }.Inv := by
      refine h.congr hsock hready fun fd' hm => ?_
      rw [hmap] at hm
      by_cases heq : fd' = fd
      · exact .inr (heq ▸ hoff)
      · rw [Function.update_of_ne heq] at hm
        exact .inl hm
    simp only [hoff]
    split
    · next heq => cases heq
    · exact hinv
  · have hk := sockets_of_offloaded hoff
    have hmasked := h.setMask hk hsock htype hflags hmap hready
    rw [hmask] at hmasked
    simp only [heq, hoff, ← hnow]
    by_cases hev : k'.eventsNow event.events ≠ 0
    · rw [if_pos hev]
      have hk' : s₁.sockets fd = some k' := by rw [hsock, Function.update_self]
      exact hmasked.insert hk' (eventsNow_plain k' event.events)
    · rw [if_neg hev]
      exact hmasked.inserted fd _

theorem EpollRun.Inv.modSocket (h : s.Inv) (event : EpollEvent) (hreg : s.info.registered fd = some k) :
    ({ s with info := s.info.modLocal fd event }.asks fd event.events
      (if k.isSocket then k.eventsNow event.events else 0)).Inv := by
  have hk : s.info.sockets fd = some k := (Option.filter_eq_some_iff.mp hreg).1
  obtain ⟨k', hk'⟩ : ∃ k', k' = { k with fdRec :=
    { k.fdRec with events := event.events, epdata := event.data } } := ⟨_, rfl⟩
  obtain ⟨s₁, hs₁⟩ : ∃ s₁, s₁ = s.info.setFdRec fd event := ⟨_, rfl⟩
  have hset : s₁ = s.info.setSocket fd k' := by
    rw [hs₁, EpfdInfo.setFdRec, hreg, hk']
  have hk₁ : s₁.sockets fd = some k' := by
    rw [hset]
    exact Function.update_self ..
  have hmasked : EpollRun.Inv ⟨s₁, Function.update s.asked fd event.events,
      Function.update s.reported fd false, s.spent⟩ := by
    have hsock : s₁.sockets = Function.update s.info.sockets fd (some k') := by rw [hset]; rfl
    have hrest := h.setMask hk hsock (by rw [hk']) (by rw [hk']) (by rw [hset]; rfl) (by rw [hset]; rfl)
    rwa [hk'] at hrest
  have hnow : k'.eventsNow event.events = k.eventsNow event.events := by rw [hk']; rfl
  have htype : k'.isSocket = k.isSocket := by rw [hk']
  unfold EpfdInfo.modLocal
  simp only [← hs₁]
  by_cases hsocket : k.isSocket = true
  · have hoff : s₁.offloaded fd = some k' := by
      rw [EpfdInfo.offloaded, hk₁, Option.filter_some, if_pos (htype.trans hsocket)]
    simp only [hoff, hsocket, ↓reduceIte, hnow]
    by_cases hev : k.eventsNow event.events ≠ 0
    · rw [if_pos hev]
      have hins := hmasked.insert hk₁ (eventsNow_plain k event.events)
      split
      · exact hins.drop fd
      · exact hins
    · rw [if_neg hev]
      have hins := hmasked.inserted fd (k.eventsNow event.events)
      split
      · exact hins.drop fd
      · exact hins
  · have hoff : s₁.offloaded fd = none := by
      rw [EpfdInfo.offloaded, hk₁, Option.filter_some, if_neg (by rw [htype]; exact hsocket)]
    simp only [hoff, hsocket]
    exact (hmasked.inserted fd 0).drop fd

theorem EpollRun.Inv.modMap (h : s.Inv) (event : EpollEvent) (hreg : s.info.registered fd = none)
    (hmap : (s.info.fdNonOffloadedMap fd).isSome = true) :
    { s with info := s.info.modLocal fd event }.Inv := by
  have hoff := h.map fd hmap
  have hset : { s with info := s.info.setFdRec fd event }.Inv := by
    unfold EpfdInfo.setFdRec
    rw [hreg]
    refine h.congr rfl rfl fun fd' hm => .inl ?_
    by_cases heq : fd' = fd
    · exact heq ▸ hmap
    · simpa only [Function.update_of_ne heq] using hm
  have hoff' : (s.info.setFdRec fd event).offloaded fd = none := by
    unfold EpfdInfo.setFdRec
    rw [hreg]
    exact hoff
  unfold EpfdInfo.modLocal
  simp only [hoff']
  exact hset.drop fd

theorem EpollRun.Inv.mod (h : s.Inv) (fd : Nat) (event : EpollEvent) (osOk : Bool) :
    (s.mod fd event osOk).Inv := by
  unfold EpollRun.mod
  obtain ⟨e, heq⟩ | ⟨hrec, os, heq⟩ := modFd_cases s.info fd event osOk
  · simp only [heq]
    exact h
  have hos : { s with info := { s.info with osFds := os } }.Inv :=
    h.congr rfl rfl fun _ hm => .inl hm
  simp only [heq]
  cases hreg : s.info.registered fd with
  | some k => exact hos.modSocket event hreg
  | none =>
    rw [EpfdInfo.getFdRec, hreg] at hrec
    exact hos.modMap event hreg hrec

theorem EpollRun.Inv.notify (h : s.Inv) (fd : Nat)
    (hf : flags &&& (epollOneshot ||| epollEt) = 0) : (s.notify fd flags).Inv := by
  have hplain : flags.getLsbD 30 = false ∧ flags.getLsbD 31 = false := by
    rw [and_eq_zero_iff] at hf
    exact ⟨Bool.eq_false_iff.mpr fun hbit => absurd (hf 30 hbit) (by decide),
      Bool.eq_false_iff.mpr fun hbit => absurd (hf 31 hbit) (by decide)⟩
  unfold EpollRun.notify EpfdInfo.insertEpollEventCb
  cases hk : s.info.sockets fd with
  | none => exact h
  | some k =>
    simp only
    split
    · split
      · exact h.insert hk hplain
      · exact h
    · exact h

theorem EpollRun.Inv.ready (h : s.Inv) (fd : Nat) (readable writeable : Bool) :
    (s.step (.ready fd readable writeable)).Inv := by
  unfold EpollRun.step
  cases hk : s.info.sockets fd with
  | none =>
    simp only [hk]
    exact h
  | some k =>
    obtain ⟨hone, het, hoff, hunspent, hplain⟩ := h.sock fd k hk
    simp only [hk]
    exact h.change hk rfl rfl rfl (fun _ _ => ⟨rfl, rfl, rfl⟩) (fun _ _ hin => hin) h.nodup
      ⟨hone, het, hoff, hunspent, hplain⟩

theorem eventsOf_mem {reports : List Report} (h : eventsOf reports fd ≠ 0) :
    ∃ r ∈ reports, r.fd = fd := by
  by_contra hnone
  refine h (eventsOf_eq_zero fun r hr heq => hnone ⟨r, hr, heq⟩)

theorem eventBits_getLsbD {i : Nat} : eventBits.getLsbD i = true ↔ i < 32 ∧ i ≠ 30 ∧ i ≠ 31 := by
  have hbits : eventBits = ~~~(BitVec.twoPow 32 30 ||| BitVec.twoPow 32 31) := rfl
  rw [hbits, BitVec.getLsbD_not, BitVec.getLsbD_or, BitVec.getLsbD_twoPow, BitVec.getLsbD_twoPow]
  simp only [Bool.and_eq_true, Bool.not_eq_true', Bool.or_eq_false_iff, Bool.and_eq_false_iff,
    decide_eq_true_eq, decide_eq_false_iff_not]
  omega

theorem SocketFd.readyEvents_eq (k : SocketFd) : k.readyEvents = k.mutualEvents &&& k.live := by
  apply BitVec.eq_of_getElem_eq
  intro i hi
  have hsub : k.mutualEvents[i] = true → k.epollEventFlags[i] = true := by
    simpa [BitVec.getLsbD_eq_getElem hi] using SocketFd.mutualEvents_flags (k := k) (i := i)
  unfold SocketFd.readyEvents SocketFd.live
  cases k.readable <;> cases k.writeable <;>
    simp only [BitVec.getElem_or, BitVec.getElem_and, BitVec.getElem_not, if_true,
      Bool.false_eq_true, if_false] <;> grind

theorem SocketFd.mutualEvents_getLsbD {i : Nat} : k.mutualEvents.getLsbD i = true ↔
    (k.epollEventFlags &&& (k.fdRec.events ||| epollErr ||| epollHup)).getLsbD i = true ∧
      (k.epollEventFlags.getLsbD 4 = true → i ≠ 2) := by
  have hhup : (k.epollEventFlags &&& (k.fdRec.events ||| epollErr ||| epollHup)) &&& epollHup ≠ 0 ↔
      k.epollEventFlags.getLsbD 4 = true := by
    rw [show epollHup = BitVec.twoPow 32 4 from rfl, and_twoPow_ne_zero_iff (by decide)]
    simp [BitVec.getLsbD_eq_getElem]
  have hout := and_twoPow_ne_zero_iff (i := 2) (by decide)
    (x := k.epollEventFlags &&& (k.fdRec.events ||| epollErr ||| epollHup))
  unfold SocketFd.mutualEvents
  generalize k.epollEventFlags &&& (k.fdRec.events ||| epollErr ||| epollHup) = m at hhup hout
  rw [show epollOut = BitVec.twoPow 32 2 from rfl]
  simp only [hhup, hout]
  split
  · rename_i h
    rw [getLsbD_and_not, BitVec.getLsbD_twoPow]
    simp only [h.1]
    grind
  · grind

/-- What is reported of a socket: of its live events those in the mask, errors and hang-ups, but no
`EPOLLOUT` with a hang-up. -/
theorem SocketFd.readyEvents_getLsbD {i : Nat} : k.readyEvents.getLsbD i = true ↔
    (k.live &&& (k.fdRec.events ||| epollErr ||| epollHup)).getLsbD i = true ∧
      (k.epollEventFlags.getLsbD 4 = true → i ≠ 2) := by
  have hlive : k.live.getLsbD i = true → k.epollEventFlags.getLsbD i = true := by
    unfold SocketFd.live
    rw [BitVec.getLsbD_and, Bool.and_eq_true]
    exact And.left
  rw [SocketFd.readyEvents_eq, BitVec.getLsbD_and, Bool.and_eq_true, SocketFd.mutualEvents_getLsbD,
    BitVec.getLsbD_and, BitVec.getLsbD_and, Bool.and_eq_true, Bool.and_eq_true]
  tauto

theorem SocketFd.pending_iff : k.pending = true ↔ k.readyEvents ≠ 0 := by
  unfold SocketFd.pending
  rw [decide_eq_true_eq, ne_zero_iff_exists_bit, ne_zero_iff_exists_bit]
  constructor
  · rintro ⟨i, hi⟩
    by_cases hup : k.epollEventFlags.getLsbD 4 = true
    · -- a hang-up is reported itself
      refine ⟨4, SocketFd.readyEvents_getLsbD.mpr ⟨?_, fun _ => by decide⟩⟩
      unfold SocketFd.live
      simp only [BitVec.getLsbD_and, BitVec.getLsbD_or, hup, Bool.true_and, Bool.and_eq_true,
        Bool.or_eq_true]
      exact ⟨.inr (by decide), .inr (by decide)⟩
    · exact ⟨i, SocketFd.readyEvents_getLsbD.mpr ⟨hi, fun h => absurd h hup⟩⟩
  · rintro ⟨i, hi⟩
    exact ⟨i, (SocketFd.readyEvents_getLsbD.mp hi).1⟩

theorem SocketFd.mask_getLsbD {i : Nat} :
    k.mask.getLsbD i = true ↔ k.fdRec.events.getLsbD i = true ∧ i ≠ 30 ∧ i ≠ 31 := by
  unfold SocketFd.mask
  rw [BitVec.getLsbD_and, Bool.and_eq_true, eventBits_getLsbD]
  exact ⟨fun h => ⟨h.1, h.2.2⟩, fun h => ⟨h.1, BitVec.lt_of_getLsbD h.1, h.2⟩⟩

/-- A report of a socket with `EPOLLONESHOT` takes all events of its mask. -/
theorem SocketFd.onceOnly_ready (h : k.onceOnly = true) (hone : k.fdRec.events.getLsbD 30 = true) {i : Nat}
    (hi : k.mask.getLsbD i = true) : k.readyEvents.getLsbD i = true := by
  have hne : k.mask ≠ 0 := ne_zero_iff_exists_bit.mpr ⟨i, hi⟩
  simp only [SocketFd.onceOnly, Bool.or_eq_true, decide_eq_true_eq, if_neg hne, Bool.and_eq_true] at h
  obtain ⟨hall, hhup⟩ := h.resolve_left (and_epollOneshot_ne_zero.mpr hone)
  rw [and_eq_zero_iff] at hall
  have hlive : k.live.getLsbD i = true := by
    have hlt : i < 32 := BitVec.lt_of_getLsbD hi
    simpa [hlt] using hall i hi
  refine SocketFd.readyEvents_getLsbD.mpr ⟨?_, ?_⟩
  · rw [BitVec.getLsbD_and, hlive, BitVec.getLsbD_or, BitVec.getLsbD_or, (SocketFd.mask_getLsbD.mp hi).1]
    rfl
  · rintro hup rfl
    rcases hhup with hhup | hout
    · exact (and_twoPow_ne_zero_iff (i := 4) (by decide)).mpr hup hhup
    · exact (and_twoPow_ne_zero_iff (i := 2) (by decide)).mpr hi hout

/-- Without an event left in its mask it is not reported. -/
theorem SocketFd.onceOnly_off (h : k.onceOnly = true) (hone : k.fdRec.events.getLsbD 30 = true)
    (hplain : k.Plain) (hoff : ∀ i, k.fdRec.events.getLsbD i = true → i = 30 ∨ i = 31) :
    k.readyEvents = 0 := by
  have hmask : k.mask = 0 := by
    by_contra hne
    obtain ⟨i, hi⟩ := ne_zero_iff_exists_bit.mp hne
    obtain ⟨hi, h30, h31⟩ := SocketFd.mask_getLsbD.mp hi
    exact (hoff i hi).elim h30 h31
  simp only [SocketFd.onceOnly, Bool.or_eq_true, decide_eq_true_eq, if_pos hmask] at h
  have hquiet := and_eq_zero_iff.mp (h.resolve_left (and_epollOneshot_ne_zero.mpr hone))
  by_contra hne
  obtain ⟨i, hi⟩ := ne_zero_iff_exists_bit.mp hne
  have hflag := SocketFd.mutualEvents_flags (k := k) (i := i) (by
    rw [SocketFd.readyEvents_eq, BitVec.getLsbD_and, Bool.and_eq_true] at hi
    exact hi.1)
  have hi := (SocketFd.readyEvents_getLsbD.mp hi).1
  rw [BitVec.getLsbD_and, BitVec.or_assoc, BitVec.getLsbD_or, hquiet i hflag, Bool.or_false,
    Bool.and_eq_true] at hi
  rcases hoff i hi.2 with rfl | rfl
  · exact nomatch hflag.symm.trans hplain.1
  · exact nomatch hflag.symm.trans hplain.2

theorem EpfdInfo.report_fds (s : EpfdInfo) (l : List Nat) : (l.filterMap s.report).map Report.fd =
    l.filter fun fd => (s.sockets fd).any SocketFd.pending := by
  induction l with
  | nil => rfl
  | cons fd l ih =>
    cases hk : s.sockets fd with
    | none =>
      rw [List.filterMap_cons_none (by simp [EpfdInfo.report, hk]),
        List.filter_cons_of_neg (by simp [hk]), ih]
    | some k =>
      by_cases hr : k.readyEvents ≠ 0
      · rw [List.filterMap_cons_some (by rw [EpfdInfo.report, hk, Option.bind_some, if_pos hr]),
          List.filter_cons_of_pos (by simpa [hk] using SocketFd.pending_iff.mpr hr), List.map_cons, ih]
      · have hp : ¬k.pending = true := fun h => hr (SocketFd.pending_iff.mp h)
        rw [List.filterMap_cons_none (by rw [EpfdInfo.report, hk, Option.bind_some, if_neg hr]),
          List.filter_cons_of_neg (by simpa [hk] using hp), ih]

/-- The sockets reported in an orderly call can be reported once. -/
theorem EpollRun.orderly_get {maxevents n : Nat} (hord : s.orderly (.get maxevents n) = true) {r : Report}
    (hr : r ∈ (s.info.readyFds.filterMap s.info.report).take (maxevents - n))
    (hk : s.info.sockets r.fd = some k) : k.onceOnly = true := by
  simp only [EpollRun.orderly, List.all_eq_true, ← EpfdInfo.report_fds, ← List.map_take] at hord
  simpa [hk] using hord r.fd (List.mem_map_of_mem hr)

theorem EpollRun.Inv.reports (h : s.Inv) (maxevents n : Nat) :
    (s.info.getCurrentEvents maxevents n).2 =
        (s.info.readyFds.filterMap s.info.report).take (maxevents - n) ∧
      (∀ fd, Looked s.info (s.info.getCurrentEvents maxevents n).1 s.info.readyFds
        (s.info.getCurrentEvents maxevents n).2 fd) ∧
      (s.info.getCurrentEvents maxevents n).1.readyFds.Sublist s.info.readyFds :=
  EpfdInfo.pollLoop_spec _ _ h.nodup fun fd hin k hk => (h.sock fd k hk).plain hin

theorem EpfdInfo.report_spec {s : EpfdInfo} {r : Report} (h : s.report r.fd = some r) :
    ∃ k, s.sockets r.fd = some k ∧ r.events = k.readyEvents ∧ k.readyEvents ≠ 0 := by
  unfold EpfdInfo.report at h
  rw [Option.bind_eq_some_iff] at h
  obtain ⟨k, hk, hr⟩ := h
  split at hr
  · next hne => exact ⟨k, hk, (congrArg Report.events (Option.some_inj.mp hr)).symm, hne⟩
  · cases hr

theorem EpollRun.Inv.stepRight (h : s.Inv) {a : EpollAct} (hord : s.orderly a = true) :
    s.StepRight a := by
  cases a with
  | get maxevents n =>
    intro r hr
    rw [(h.reports maxevents n).1] at hr
    obtain ⟨hin, hrep⟩ := EpfdInfo.mem_reports hr
    obtain ⟨k, hk, hev, hne⟩ := EpfdInfo.report_spec hrep
    have hinv := h.sock r.fd k hk
    constructor
    · intro hask
      rw [and_epollOneshot_ne_zero] at hask
      by_contra hrepd
      exact hne (SocketFd.onceOnly_off (EpollRun.orderly_get hord hr hk) (hinv.oneshot.trans hask)
        (hinv.plain hin) (hinv.off (by simpa using hrepd) hask))
    · intro _
      rw [and_eq_zero_iff]
      intro i hi
      have hflag := hinv.unspent hin i hi
      obtain ⟨hsound, hready⟩ := SocketFd.poll_sound (hinv.plain hin)
      by_contra hbit
      rw [hsound.flagged i (by rw [hready, ← hev]; simpa using hbit)] at hflag
      cases hflag
  | _ => trivial

theorem SockInv.poll {asked spent : Events} {reported : Bool} (h : SockInv k True asked reported spent)
    (honce : k.readyEvents ≠ 0 → k.onceOnly = true) (inReady : Prop) :
    SockInv k.poll.sock inReady asked (reported || k.readyEvents ≠ 0)
      (if asked &&& epollEt ≠ 0 then spent ||| k.readyEvents else spent) := by
  have hplain := h.plain trivial
  obtain ⟨hsound, hrep⟩ := SocketFd.poll_sound hplain
  refine ⟨(hsound.mask_bit hplain.1).trans h.oneshot, (hsound.mask_bit hplain.2).trans h.et, ?_, ?_, ?_⟩
  · intro hr hask i hi
    have hone : k.fdRec.events.getLsbD 30 = true := h.oneshot.trans hask
    rw [hsound.mask, if_pos (and_epollOneshot_ne_zero.mpr hone), hrep, getLsbD_and_not,
      Bool.and_eq_true, Bool.not_eq_true'] at hi
    by_cases hev : k.readyEvents ≠ 0
    · by_contra hnot
      rw [not_or] at hnot
      rw [SocketFd.onceOnly_ready (honce hev) hone (SocketFd.mask_getLsbD.mpr ⟨hi.1, hnot⟩)] at hi
      exact Bool.noConfusion hi.2
    · rw [Bool.or_eq_true, decide_eq_true_eq] at hr
      exact h.off (hr.resolve_right hev) hask i hi.1
  · intro _ i hi
    by_contra hflag
    have hflag : k.poll.sock.epollEventFlags.getLsbD i = true := by simpa using hflag
    have hold : ¬spent.getLsbD i = true := by
      intro hs
      have := h.unspent trivial i hs
      rw [hsound.sub i hflag] at this
      cases this
    split at hi
    · next het =>
      rw [BitVec.getLsbD_or, Bool.or_eq_true] at hi
      have hedge := hsound.edge (h.et.trans (and_epollEt_ne_zero.mp het)) i
        (by rw [hrep]; exact hi.resolve_left hold)
      rw [hflag] at hedge
      cases hedge
    · exact hold hi
  · intro _
    exact ⟨Bool.eq_false_iff.mpr fun hbit => (nomatch hplain.1.symm.trans (hsound.sub 30 hbit)),
      Bool.eq_false_iff.mpr fun hbit => (nomatch hplain.2.symm.trans (hsound.sub 31 hbit))⟩

theorem EpollRun.Inv.get (h : s.Inv) {maxevents n : Nat} (hord : s.orderly (.get maxevents n) = true) :
    (s.get maxevents n).Inv := by
  obtain ⟨hreps, hlook, hsub⟩ := h.reports maxevents n
  have hsock : ∀ fd k', (s.info.getCurrentEvents maxevents n).1.sockets fd = some k' →
      ∃ k, s.info.sockets fd = some k ∧ k'.isSocket = k.isSocket ∧
        SockInv k' (fd ∈ (s.info.getCurrentEvents maxevents n).1.readyFds) (s.asked fd)
          ((s.get maxevents n).reported fd) ((s.get maxevents n).spent fd) := by
    intro fd k' hk'
    simp only [EpollRun.get]
    rcases hlook fd with ⟨hsame, hnone⟩ | ⟨hin, k, hk, hpoll, hev⟩
    · rw [hsame] at hk'
      refine ⟨k', hk', rfl, ?_⟩
      simp only [hnone, ne_eq, not_true_eq_false, decide_false, Bool.or_false]
      have hspent : (if ¬s.asked fd &&& epollEt = 0 then s.spent fd ||| 0 else s.spent fd) =
          s.spent fd := by
        split
        · exact BitVec.or_zero
        · rfl
      rw [hspent]
      exact (h.sock fd k' hk').mono fun hin => hsub.subset hin
    · rw [hpoll, Option.some_inj] at hk'
      subst hk'
      have hold := h.sock fd k hk
      have honce : k.readyEvents ≠ 0 → k.onceOnly = true := by
        intro hne
        rw [← hev] at hne
        obtain ⟨r, hr, hfd⟩ := eventsOf_mem hne
        rw [hreps] at hr
        exact EpollRun.orderly_get hord hr (hfd ▸ hk)
      refine ⟨k, hk, ?_, ?_⟩
      · rw [(SocketFd.poll_sound (hold.plain hin)).1.rest]
      · rw [hev]
        exact SockInv.poll (hold.mono fun _ => hin) honce _
  refine ⟨hsub.nodup h.nodup, ?_, ?_⟩
  · intro fd hm
    have hm : ((s.info.getCurrentEvents maxevents n).1.fdNonOffloadedMap fd).isSome = true := hm
    rw [EpfdInfo.getCurrentEvents, EpfdInfo.pollLoop_map] at hm
    have hold := h.map fd hm
    show (s.info.getCurrentEvents maxevents n).1.offloaded fd = none
    unfold EpfdInfo.offloaded at hold ⊢
    rw [Option.filter_eq_none_iff] at hold ⊢
    intro k' hk' htrue
    obtain ⟨k, hk, htype, -⟩ := hsock fd k' hk'
    exact hold k hk (htype ▸ htrue)
  · intro fd k' hk'
    obtain ⟨k, -, -, hinv⟩ := hsock fd k' hk'
    exact hinv

theorem EpollRun.Inv.step (h : s.Inv) {a : EpollAct} (hord : s.orderly a = true) : (s.step a).Inv := by
  cases a with
  | add fd event osOk => exact h.add fd event osOk
  | mod fd event osOk => exact h.mod fd event osOk
  | notify fd flags => exact h.notify fd (by simpa [EpollRun.orderly] using hord)
  | ready fd readable writeable => exact h.ready fd readable writeable
  | get maxevents n => exact h.get hord

end Steps

/-- A new epoll instance: nothing is registered, and the masks that the sockets have are those that
other instances asked for. -/
structure EpollRun.Fresh (s : EpollRun) : Prop where
  readyFds : s.info.readyFds = []
  map : ∀ fd, s.info.fdNonOffloadedMap fd = none
  asked : ∀ fd k, s.info.sockets fd = some k → s.asked fd = k.fdRec.events
  reported : ∀ fd, s.reported fd = false

theorem EpollRun.Fresh.inv {s : EpollRun} (h : s.Fresh) : s.Inv where
  nodup := h.readyFds ▸ List.nodup_nil
  map := by simp [h.map]
  sock := by
    intro fd k hk
    have hask := h.asked fd k hk
    exact ⟨by rw [hask], by rw [hask], by simp [h.reported fd], by simp [h.readyFds],
      by simp [h.readyFds]⟩

/-- In every run of an epoll instance whose steps are all orderly, a call reports no socket with
`EPOLLONESHOT` a second time before its mask is set again, and no event of a socket with `EPOLLET` a
second time before it is inserted again. -/
theorem epoll_once {s₀ s : EpollRun} (h0 : s₀.Fresh)
    (hr : Reach EpollRun.step (fun s a => s.orderly a = true) s₀ s) (a : EpollAct)
    (ha : s.orderly a = true) : s.StepRight a :=
  (hr.inv (I := EpollRun.Inv) h0.inv fun _ _ h ha => h.step ha).stepRight ha

/-- A new instance, and one socket that is readable and writeable and skips the operating system. -/
def oneSocket : EpollRun where
  info := {
    epfd := 7
    size := 4
    sockets := fun fd =>
      if fd = 20 then some { skipOsSelect := true, readable := true, writeable := true } else none
    osFds := fun _ => none
    fdNonOffloadedMap := fun _ => none
    offloadedFds := []
    fdOffloadedList := []
    readyFds := [] }
  asked := fun _ => 0
  reported := fun _ => false
  spent := fun _ => 0

theorem oneSocket_fresh : oneSocket.Fresh where
  readyFds := rfl
  map := fun _ => rfl
  asked := by
    intro fd k hk
    simp only [oneSocket] at hk
    split at hk
    · cases hk
      rfl
    · cases hk
  reported := fun _ => rfl

/-- The socket is added for one event, once, a call is made, and the mask is set again. -/
def rearmed : EpollRun :=
  ((oneSocket.step (.add 20 { events := epollIn ||| epollOneshot } true)).step (.get 8 0)).step
    (.mod 20 { events := epollIn ||| epollOneshot } true)

theorem epoll_once_rearmed :
    (rearmed.info.getCurrentEvents 8 0).2 = [⟨20, 0, epollIn⟩] ∧ rearmed.StepRight (.get 8 0) := by
  have hr : Reach EpollRun.step (fun s a => s.orderly a = true) oneSocket rearmed :=
    .next (.next (.next .start (EpollAct.add 20 { events := epollIn ||| epollOneshot } true)
      (by decide +kernel)) (EpollAct.get 8 0) (by decide +kernel))
      (EpollAct.mod 20 { events := epollIn ||| epollOneshot } true) (by decide +kernel)
  exact ⟨by decide +kernel, epoll_once oneSocket_fresh hr (.get 8 0) (by decide +kernel)⟩

/-- The socket is added for reading and writing, once, while it is not writeable; a call reports that it
is readable; then it becomes writeable and notifies. -/
def twoReports : EpollRun :=
  ((((oneSocket.step (.ready 20 true false)).step
    (.add 20 { events := epollIn ||| epollOut ||| epollOneshot } true)).step (.get 8 0)).step
    (.ready 20 true true)).step (.notify 20 epollOut)

/-- The next call reports it again. -/
theorem oneshot_reported_twice :
    twoReports.reported 20 = true ∧ twoReports.asked 20 &&& epollOneshot ≠ 0 ∧
      (twoReports.info.getCurrentEvents 8 0).2 = [⟨20, 0, epollOut⟩] ∧
      ¬twoReports.StepRight (.get 8 0) := by
  have hreport : (twoReports.info.getCurrentEvents 8 0).2 = [⟨20, 0, epollOut⟩] := by decide +kernel
  have hasked : twoReports.asked 20 &&& epollOneshot ≠ 0 := by decide +kernel
  have hreported : twoReports.reported 20 = true := by decide +kernel
  refine ⟨hreported, hasked, hreport, fun hright => ?_⟩
  have := (hright ⟨20, 0, epollOut⟩ (hreport ▸ List.mem_singleton_self _)).1 hasked
  rw [hreported] at this
  cases this

end LibvmaTlt.Iomux
