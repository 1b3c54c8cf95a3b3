import Mathlib.Data.List.Basic
import LibvmaTlt.Lib.Mask
import LibvmaTlt.Iomux.Epfd

/-!
# Reporting events (`epoll_wait_call::get_current_events`)

A waiting call walks the list of ready sockets. What it reports of a socket is what the socket has
flagged, what its mask asks for (errors and hang-ups always), and what the socket is ready for. A
reported event is taken out of the mask of a socket with `EPOLLONESHOT`, and out of the flags of a
socket with `EPOLLET`; the other events of the mask stay.
-/

namespace LibvmaTlt.Iomux

/-! ## One socket -/

/-- A socket while it is looked at: whether it is still on the ready list, the events reported for it
so far, and `got_event`. -/
structure Polled where
  sock : SocketFd
  inReady : Bool
  reported : Events
  gotEvent : Bool

def Polled.removeEpollEvent (p : Polled) (events : Events) : Polled :=
  let flags := p.sock.epollEventFlags &&& ~~~events
  { p with
    sock := { p.sock with epollEventFlags := flags }
    inReady := p.inReady && flags ≠ 0 }

def Polled.handleEpollEvent (p : Polled) (isReady : Bool) (events : Events) : Polled :=
  if isReady then
    let mask := p.sock.fdRec.events
    let mask := if mask &&& epollOneshot ≠ 0 then mask &&& ~~~events else mask
    let p := { p with
      sock := { p.sock with fdRec := { p.sock.fdRec with events := mask } }
      reported := p.reported ||| events
      gotEvent := true }
    if mask &&& epollEt ≠ 0 then p.removeEpollEvent events else p
  else p.removeEpollEvent events

/-- `mutual_events`; `EPOLLHUP` excludes `EPOLLOUT`. -/
def SocketFd.mutualEvents (k : SocketFd) : Events :=
  let m := k.epollEventFlags &&& (k.fdRec.events ||| epollErr ||| epollHup)
  if m &&& epollHup ≠ 0 ∧ m &&& epollOut ≠ 0 then m &&& ~~~epollOut else m

def SocketFd.poll (k : SocketFd) : Polled :=
  let m := k.mutualEvents
  let rest := m &&& ~~~epollIn &&& ~~~epollOut
  let p : Polled := ⟨k, true, 0, false⟩
  let p := if m &&& epollIn ≠ 0 then p.handleEpollEvent k.readable epollIn else p
  let p := if m &&& epollOut ≠ 0 then p.handleEpollEvent k.writeable epollOut else p
  if rest ≠ 0 then p.handleEpollEvent true rest else p

/-! ## The list of ready sockets -/

structure Report where
  fd : Nat
  data : Nat
  events : Events
  deriving DecidableEq

/-- The loop of `get_current_events` over the ready list, while there is room for reports. -/
def EpfdInfo.pollLoop (s : EpfdInfo) : List Nat → Nat → EpfdInfo × List Report
  | [], _ => (s, [])
  | fd :: rest, room =>
    if room = 0 then (s, [])
    else
      match s.sockets fd with
      | none => s.pollLoop rest room
      | some k =>
        let p := k.poll
        let s := s.setSocket fd p.sock
        let s := if p.inReady then s else { s with readyFds := s.readyFds.erase fd }
        if p.gotEvent then
          let (s, reports) := s.pollLoop rest (room - 1)
          (s, ⟨fd, k.fdRec.epdata, p.reported⟩ :: reports)
        else s.pollLoop rest room

/-- `get_current_events` when `n` events have been found before. -/
def EpfdInfo.getCurrentEvents (s : EpfdInfo) (maxevents n : Nat) : EpfdInfo × List Report :=
  s.pollLoop s.readyFds (maxevents - n)

/-! ## What is reported of one socket -/

theorem and_epollOneshot_ne_zero {m : Events} : m &&& epollOneshot ≠ 0 ↔ m.getLsbD 30 = true :=
  and_twoPow_ne_zero_iff (i := 30) (by decide)

theorem and_epollEt_ne_zero {m : Events} : m &&& epollEt ≠ 0 ↔ m.getLsbD 31 = true :=
  and_twoPow_ne_zero_iff (i := 31) (by decide)

def SocketFd.readyEvents (k : SocketFd) : Events :=
  (if k.readable then k.mutualEvents &&& epollIn else 0) |||
    (if k.writeable then k.mutualEvents &&& epollOut else 0) |||
    (k.mutualEvents &&& ~~~epollIn &&& ~~~epollOut)

variable {k : SocketFd}

theorem SocketFd.mutualEvents_flags {i : Nat} (h : k.mutualEvents.getLsbD i = true) :
    k.epollEventFlags.getLsbD i = true := by
  unfold SocketFd.mutualEvents at h
  simp only at h
  split at h
  · simp only [BitVec.getLsbD_and, Bool.and_eq_true] at h
    exact h.1.1
  · simp only [BitVec.getLsbD_and, Bool.and_eq_true] at h
    exact h.1

def SocketFd.Plain (k : SocketFd) : Prop :=
  k.epollEventFlags.getLsbD 30 = false ∧ k.epollEventFlags.getLsbD 31 = false

/-- How a socket stands while it is looked at, compared with how it stood before. -/
structure Polled.Sound (k : SocketFd) (p : Polled) : Prop where
  got : p.gotEvent = true ↔ p.reported ≠ 0
  mask : p.sock.fdRec.events =
    if k.fdRec.events &&& epollOneshot ≠ 0 then k.fdRec.events &&& ~~~p.reported else k.fdRec.events
  flagged : ∀ i, p.reported.getLsbD i = true → k.epollEventFlags.getLsbD i = true
  sub : ∀ i, p.sock.epollEventFlags.getLsbD i = true → k.epollEventFlags.getLsbD i = true
  edge : k.fdRec.events.getLsbD 31 = true →
    ∀ i, p.reported.getLsbD i = true → p.sock.epollEventFlags.getLsbD i = false
  rest : p.sock = { k with fdRec := p.sock.fdRec, epollEventFlags := p.sock.epollEventFlags }
  data : p.sock.fdRec.epdata = k.fdRec.epdata

theorem Polled.Sound.start (k : SocketFd) : Polled.Sound k ⟨k, true, 0, false⟩ where
  got := by simp
  mask := by
    split
    · apply BitVec.eq_of_getLsbD_eq
      intro i _
      rw [getLsbD_and_not]
      simp
    · rfl
  flagged := by simp
  sub := fun _ h => h
  edge := by simp
  rest := rfl
  data := rfl

section Handle

variable {k : SocketFd} {p : Polled} {events : Events}

theorem Polled.Sound.mask_bit (h : Polled.Sound k p) {i : Nat}
    (hi : k.epollEventFlags.getLsbD i = false) :
    p.sock.fdRec.events.getLsbD i = k.fdRec.events.getLsbD i := by
  rw [h.mask]
  split
  · have hrep : p.reported.getLsbD i = false := by
      by_contra hrep
      rw [h.flagged i (by simpa using hrep)] at hi
      cases hi
    rw [getLsbD_and_not, hrep, Bool.not_false, Bool.and_true]
  · rfl

theorem Polled.Sound.remove (h : Polled.Sound k p) : Polled.Sound k (p.removeEpollEvent events) where
  got := h.got
  mask := h.mask
  flagged := h.flagged
  sub := by
    intro i hi
    simp only [Polled.removeEpollEvent, BitVec.getLsbD_and, Bool.and_eq_true] at hi
    exact h.sub i hi.1
  edge := by
    intro het i hi
    simp [Polled.removeEpollEvent, h.edge het i hi]
  rest := by
    simp only [Polled.removeEpollEvent]
    rw [h.rest]
  data := h.data

theorem Polled.Sound.handle (hk : k.Plain) (h : Polled.Sound k p) (isReady : Bool) (hne : events ≠ 0)
    (hev : ∀ i, events.getLsbD i = true → k.epollEventFlags.getLsbD i = true) :
    Polled.Sound k (p.handleEpollEvent isReady events) ∧
      (p.handleEpollEvent isReady events).reported = p.reported ||| if isReady then events else 0 := by
  cases isReady with
  | false => exact ⟨h.remove, by simp [Polled.handleEpollEvent, Polled.removeEpollEvent]⟩
  | true =>
    have hbit : ∀ i, k.epollEventFlags.getLsbD i = false → events.getLsbD i = false := by
      intro i hi
      by_contra hc
      rw [hev i (by simpa using hc)] at hi
      cases hi
    -- the mask after the report, and its bits that are no events
    obtain ⟨mask, hmask⟩ : ∃ mask, mask =
        if p.sock.fdRec.events &&& epollOneshot ≠ 0 then p.sock.fdRec.events &&& ~~~events
        else p.sock.fdRec.events := ⟨_, rfl⟩
    have honeshot : (p.sock.fdRec.events &&& epollOneshot ≠ 0) ↔
        k.fdRec.events &&& epollOneshot ≠ 0 := by
      rw [and_epollOneshot_ne_zero, and_epollOneshot_ne_zero, h.mask_bit hk.1]
    have hmask' : mask = if k.fdRec.events &&& epollOneshot ≠ 0 then
        k.fdRec.events &&& ~~~(p.reported ||| events) else k.fdRec.events := by
      rw [hmask, if_congr honeshot rfl rfl, h.mask]
      split
      · rw [and_not_and_not]
      · rfl
    have het : (mask &&& epollEt ≠ 0) ↔ k.fdRec.events.getLsbD 31 = true := by
      rw [and_epollEt_ne_zero, hmask, ← h.mask_bit hk.2]
      split
      · rw [getLsbD_and_not, hbit 31 hk.2, Bool.not_false, Bool.and_true]
      · rfl
    have hrep : p.reported ||| events ≠ 0 := by
      obtain ⟨i, hi⟩ := ne_zero_iff_exists_bit.mp hne
      exact ne_zero_iff_exists_bit.mpr ⟨i, by simp [hi]⟩
    have hflagged : ∀ i, (p.reported ||| events).getLsbD i = true →
        k.epollEventFlags.getLsbD i = true := by
      intro i hi
      rw [BitVec.getLsbD_or, Bool.or_eq_true] at hi
      exact hi.elim (h.flagged i) (hev i)
    simp only [Polled.handleEpollEvent, ↓reduceIte, ← hmask]
    by_cases hmet : mask &&& epollEt ≠ 0
    · rw [if_pos hmet]
      refine ⟨⟨by simpa [Polled.removeEpollEvent] using hrep, hmask', hflagged, ?_, ?_, ?_, h.data⟩,
        rfl⟩
      · intro i hi
        simp only [Polled.removeEpollEvent, getLsbD_and_not, Bool.and_eq_true] at hi
        exact h.sub i hi.1
      · intro hk31 i hi
        simp only [Polled.removeEpollEvent, BitVec.getLsbD_or, Bool.or_eq_true] at hi
        simp only [Polled.removeEpollEvent, getLsbD_and_not]
        rcases hi with hi | hi
        · rw [h.edge hk31 i hi, Bool.false_and]
        · rw [hi, Bool.not_true, Bool.and_false]
      · simp only [Polled.removeEpollEvent]
        rw [h.rest]
    · rw [if_neg hmet]
      refine ⟨⟨by simpa using hrep, hmask', hflagged, h.sub, ?_, ?_, h.data⟩, rfl⟩
      · intro hk31
        exact absurd (het.mpr hk31) hmet
      · simp only
        rw [h.rest]

theorem Polled.Sound.handle_if (hk : k.Plain) (h : Polled.Sound k p) (isReady : Bool)
    (hev : ∀ i, events.getLsbD i = true → k.epollEventFlags.getLsbD i = true) :
    Polled.Sound k (if events ≠ 0 then p.handleEpollEvent isReady events else p) ∧
      (if events ≠ 0 then p.handleEpollEvent isReady events else p).reported =
        p.reported ||| if isReady then events else 0 := by
  by_cases hne : events ≠ 0
  · rw [if_pos hne]
    exact h.handle hk isReady hne hev
  · rw [if_neg hne]
    have hzero : events = 0 := not_not.mp hne
    exact ⟨h, by simp [hzero]⟩

end Handle

theorem SocketFd.poll_sound (hk : k.Plain) :
    Polled.Sound k k.poll ∧ k.poll.reported = k.readyEvents := by
  have hsub : ∀ {e : Events} (i : Nat), (k.mutualEvents &&& e).getLsbD i = true →
      k.epollEventFlags.getLsbD i = true := by
    intro e i hi
    rw [BitVec.getLsbD_and, Bool.and_eq_true] at hi
    exact SocketFd.mutualEvents_flags hi.1
  -- a single event that is there is what the mask has of it
  have hone : ∀ {e : Events} {i : Nat} {p : Polled} {r : Bool}, e = BitVec.twoPow 32 i →
      (if k.mutualEvents &&& e ≠ 0 then p.handleEpollEvent r e else p) =
        if k.mutualEvents &&& e ≠ 0 then p.handleEpollEvent r (k.mutualEvents &&& e) else p := by
    rintro e i p r rfl
    split
    · next hne =>
      rw [BitVec.and_twoPow] at hne ⊢
      split
      · rfl
      · next hbit => exact absurd (if_neg hbit) hne
    · rfl
  unfold SocketFd.poll SocketFd.readyEvents
  simp only
  rw [hone (e := epollIn) (i := 0) rfl, hone (e := epollOut) (i := 2) rfl]
  obtain ⟨h1, hr1⟩ := (Polled.Sound.start k).handle_if hk k.readable (hsub (e := epollIn))
  obtain ⟨h2, hr2⟩ := h1.handle_if hk k.writeable (hsub (e := epollOut))
  have hrest : ∀ i, (k.mutualEvents &&& ~~~epollIn &&& ~~~epollOut).getLsbD i = true →
      k.epollEventFlags.getLsbD i = true := by
    intro i hi
    rw [getLsbD_and_not, Bool.and_eq_true] at hi
    exact hsub i hi.1
  obtain ⟨h3, hr3⟩ := h2.handle_if hk true hrest
  refine ⟨h3, ?_⟩
  rw [hr3, hr2, hr1]
  simp

/-! ## What is reported in one call -/

def EpfdInfo.report (s : EpfdInfo) (fd : Nat) : Option Report :=
  (s.sockets fd).bind fun k =>
    if k.readyEvents ≠ 0 then some ⟨fd, k.fdRec.epdata, k.readyEvents⟩ else none

def eventsOf (reports : List Report) (fd : Nat) : Events :=
  ((reports.find? fun r => r.fd = fd).map Report.events).getD 0

/-- What a walk over a list does to one socket: nothing, and it reports nothing for it, or it looks at
it and reports what is ready. -/
def Looked (s s' : EpfdInfo) (l : List Nat) (reports : List Report) (fd : Nat) : Prop :=
  (s'.sockets fd = s.sockets fd ∧ eventsOf reports fd = 0) ∨
    fd ∈ l ∧ ∃ k, s.sockets fd = some k ∧ s'.sockets fd = some k.poll.sock ∧
      eventsOf reports fd = k.readyEvents

variable (l : List Nat) (room : Nat) {fd : Nat}

section Loop

variable {s : EpfdInfo}

theorem EpfdInfo.report_congr {s' : EpfdInfo} (h : s'.sockets fd = s.sockets fd) :
    s'.report fd = s.report fd := by
  unfold EpfdInfo.report
  rw [h]

/-- One turn of the loop: the socket is looked at, and it leaves the ready list or stays. -/
def EpfdInfo.pollOne (s : EpfdInfo) (fd : Nat) (k : SocketFd) : EpfdInfo :=
  let s := s.setSocket fd k.poll.sock
  if k.poll.inReady then s else { s with readyFds := s.readyFds.erase fd }

theorem EpfdInfo.pollOne_sockets (s : EpfdInfo) (fd : Nat) (k : SocketFd) :
    (s.pollOne fd k).sockets = Function.update s.sockets fd (some k.poll.sock) := by
  unfold EpfdInfo.pollOne
  simp only
  split <;> rfl

theorem EpfdInfo.pollOne_sublist (s : EpfdInfo) (fd : Nat) (k : SocketFd) :
    (s.pollOne fd k).readyFds.Sublist s.readyFds := by
  unfold EpfdInfo.pollOne
  simp only
  split
  · exact List.Sublist.refl _
  · exact List.erase_sublist

theorem EpfdInfo.pollLoop_cons {rest : List Nat} {room : Nat} (hk : s.sockets fd = some k)
    (hplain : k.Plain) :
    s.pollLoop (fd :: rest) (room + 1) =
      if k.readyEvents ≠ 0 then
        (((s.pollOne fd k).pollLoop rest room).1,
          ⟨fd, k.fdRec.epdata, k.readyEvents⟩ :: ((s.pollOne fd k).pollLoop rest room).2)
      else (s.pollOne fd k).pollLoop rest (room + 1) := by
  obtain ⟨hsound, hrep⟩ := SocketFd.poll_sound hplain
  have hgot : k.poll.gotEvent = true ↔ k.readyEvents ≠ 0 := by
    rw [hsound.got, hrep]
  rw [EpfdInfo.pollLoop]
  simp only [Nat.add_eq_zero_iff, Nat.one_ne_zero, and_false, ↓reduceIte, hk, hrep, hgot,
    Nat.add_sub_cancel]
  rfl

theorem EpfdInfo.pollLoop_frame (hfd : fd ∉ l) : (s.pollLoop l room).1.sockets fd = s.sockets fd := by
  induction l generalizing s room with
  | nil => rfl
  | cons fd' rest ih =>
    rw [List.mem_cons, not_or] at hfd
    have hset : ∀ k, (s.setSocket fd' k).sockets fd = s.sockets fd :=
      fun k => Function.update_of_ne hfd.1 ..
    unfold EpfdInfo.pollLoop
    split
    · rfl
    split
    · exact ih room hfd.2
    simp only
    split
    · rw [ih _ hfd.2]
      split <;> exact hset _
    · rw [ih _ hfd.2]
      split <;> exact hset _

theorem EpfdInfo.pollLoop_map : (s.pollLoop l room).1.fdNonOffloadedMap = s.fdNonOffloadedMap := by
  induction l generalizing s room with
  | nil => rfl
  | cons fd rest ih =>
    unfold EpfdInfo.pollLoop
    split
    · rfl
    split
    · exact ih room
    simp only
    split
    · rw [ih]
      split <;> rfl
    · rw [ih]
      split <;> rfl

theorem eventsOf_eq_zero {reports : List Report} (h : ∀ r ∈ reports, r.fd ≠ fd) :
    eventsOf reports fd = 0 := by
  unfold eventsOf
  rw [List.find?_eq_none.mpr (by simpa using h)]
  rfl

theorem EpfdInfo.report_fd {r : Report} (h : s.report fd = some r) : r.fd = fd := by
  unfold EpfdInfo.report at h
  rw [Option.bind_eq_some_iff] at h
  obtain ⟨k, -, hr⟩ := h
  split at hr
  · cases hr
    rfl
  · cases hr

theorem EpfdInfo.mem_reports {l : List Nat} {room : Nat} {r : Report}
    (h : r ∈ (l.filterMap s.report).take room) : r.fd ∈ l ∧ s.report r.fd = some r := by
  obtain ⟨fd, hmem, hr⟩ := List.mem_filterMap.mp (List.mem_of_mem_take h)
  rw [EpfdInfo.report_fd hr]
  exact ⟨hmem, hr⟩

theorem EpfdInfo.pollLoop_spec (hl : l.Nodup) (hplain : ∀ fd ∈ l, ∀ k, s.sockets fd = some k → k.Plain) :
    (s.pollLoop l room).2 = (l.filterMap s.report).take room ∧
      (∀ fd, Looked s (s.pollLoop l room).1 l (s.pollLoop l room).2 fd) ∧
      (s.pollLoop l room).1.readyFds.Sublist s.readyFds := by
  induction l generalizing s room with
  | nil => exact ⟨by simp [EpfdInfo.pollLoop], fun _ => .inl ⟨rfl, rfl⟩, List.Sublist.refl _⟩
  | cons fd rest ih =>
    obtain ⟨hfd, hrest⟩ := List.nodup_cons.mp hl
    cases room with
    | zero => exact ⟨by simp [EpfdInfo.pollLoop], fun _ => .inl ⟨rfl, rfl⟩, List.Sublist.refl _⟩
    | succ room =>
      cases hk : s.sockets fd with
      | none =>
        have hloop : s.pollLoop (fd :: rest) (room + 1) = s.pollLoop rest (room + 1) := by
          rw [EpfdInfo.pollLoop]
          simp [hk]
        have hrep : s.report fd = none := by
          simp [EpfdInfo.report, hk]
        rw [hloop, List.filterMap_cons_none hrep]
        obtain ⟨heq, hlook, hsub⟩ :=
          ih (room + 1) hrest fun fd' hmem => hplain fd' (List.mem_cons_of_mem _ hmem)
        exact ⟨heq, fun fd' => (hlook fd').imp_right fun h => ⟨List.mem_cons_of_mem _ h.1, h.2⟩, hsub⟩
      | some k =>
        have hne : ∀ fd' ∈ rest, fd' ≠ fd := fun fd' hmem heq => hfd (heq ▸ hmem)
        have hold : ∀ fd', fd' ≠ fd → (s.pollOne fd k).sockets fd' = s.sockets fd' := by
          intro fd' hfd'
          rw [EpfdInfo.pollOne_sockets, Function.update_of_ne hfd']
        have hreports : rest.filterMap (s.pollOne fd k).report = rest.filterMap s.report :=
          List.filterMap_congr fun fd' hmem => EpfdInfo.report_congr (hold fd' (hne fd' hmem))
        have hih := fun room => @ih room (s.pollOne fd k) hrest fun fd' hmem k' hk' =>
          hplain fd' (List.mem_cons_of_mem _ hmem) k' (by rwa [hold fd' (hne fd' hmem)] at hk')
        rw [EpfdInfo.pollLoop_cons hk (hplain fd List.mem_cons_self k hk)]
        by_cases hready : k.readyEvents ≠ 0
        · have hrep : s.report fd = some ⟨fd, k.fdRec.epdata, k.readyEvents⟩ := by
            rw [EpfdInfo.report, hk, Option.bind_some, if_pos hready]
          obtain ⟨heq, hlook, hsub⟩ := hih room
          rw [if_pos hready, List.filterMap_cons_some hrep, List.take_succ_cons]
          refine ⟨by rw [heq, hreports], fun fd' => ?_, hsub.trans (s.pollOne_sublist fd k)⟩
          by_cases hfd' : fd' = fd
          · subst hfd'
            refine .inr ⟨List.mem_cons_self, k, hk, ?_, by simp [eventsOf]⟩
            simp only
            rw [EpfdInfo.pollLoop_frame rest room hfd, EpfdInfo.pollOne_sockets, Function.update_self]
          · have hother : eventsOf (⟨fd, k.fdRec.epdata, k.readyEvents⟩ ::
                ((s.pollOne fd k).pollLoop rest room).2) fd' =
                eventsOf ((s.pollOne fd k).pollLoop rest room).2 fd' := by
              unfold eventsOf
              rw [List.find?_cons_of_neg (by simpa using Ne.symm hfd')]
            unfold Looked at hlook ⊢
            rw [← hold fd' hfd', hother]
            exact (hlook fd').imp_right fun h => ⟨List.mem_cons_of_mem _ h.1, h.2⟩
        · have hzero : k.readyEvents = 0 := not_not.mp hready
          have hrep : s.report fd = none := by
            rw [EpfdInfo.report, hk, Option.bind_some, if_neg hready]
          obtain ⟨heq, hlook, hsub⟩ := hih (room + 1)
          rw [if_neg hready, List.filterMap_cons_none hrep]
          refine ⟨by rw [heq, hreports], fun fd' => ?_, hsub.trans (s.pollOne_sublist fd k)⟩
          by_cases hfd' : fd' = fd
          · subst hfd'
            refine .inr ⟨List.mem_cons_self, k, hk, ?_, ?_⟩
            · rw [EpfdInfo.pollLoop_frame rest _ hfd, EpfdInfo.pollOne_sockets, Function.update_self]
            · rw [hzero, heq]
              refine eventsOf_eq_zero fun r hr heqfd => hfd ?_
              exact heqfd ▸ (EpfdInfo.mem_reports hr).1
          · unfold Looked at hlook ⊢
            rw [← hold fd' hfd']
            exact (hlook fd').imp_right fun h => ⟨List.mem_cons_of_mem _ h.1, h.2⟩

end Loop

end LibvmaTlt.Iomux
