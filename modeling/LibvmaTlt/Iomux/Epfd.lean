import Mathlib.Logic.Function.Basic
import Mathlib.Tactic.Common

/-!
# Epoll instances (`epfd_info`)

An epoll instance keeps three records of its descriptors: the registration with the epoll instance of
the operating system, the map of the descriptors that are not offloaded, and for offloaded sockets an
array, a list and the record in the socket itself. Offloaded sockets with events wait in `m_ready_fds`.
`add_fd` registers with the operating system first.
-/

namespace LibvmaTlt.Iomux

/-! ## State -/

/-- `EPOLLIN`, … : the bits of an event mask. -/
abbrev Events := BitVec 32

def epollIn : Events := 0x1
def epollOut : Events := 0x4
def epollErr : Events := 0x8
def epollHup : Events := 0x10
def epollOneshot : Events := 0x40000000
def epollEt : Events := 0x80000000

structure EpollEvent where
  events : Events
  data : Nat := 0
  deriving DecidableEq

structure EpollFdRec where
  events : Events := 0
  epdata : Nat := 0
  offloadedIndex : Int := 0
  deriving DecidableEq

/-- `socket_fd_api`, as far as epoll is concerned. A context is named by the descriptor of its epoll
instance. -/
structure SocketFd where
  isSocket : Bool := true
  skipOsSelect : Bool := false
  econtext : Option Nat := none
  fdRec : EpollFdRec := {}
  epollEventFlags : Events := 0
  readable : Bool := false
  writeable : Bool := false
  deriving DecidableEq

/-- `epfd_info`, with the sockets of `g_p_fd_collection` and the descriptors that the operating system
has registered. -/
structure EpfdInfo where
  epfd : Nat
  size : Nat
  sockets : Nat → Option SocketFd
  osFds : Nat → Option Events
  fdNonOffloadedMap : Nat → Option EpollFdRec
  offloadedFds : List Nat
  fdOffloadedList : List Nat
  readyFds : List Nat

inductive Errno where
  | eexist | enomem | enoent
  | os
  deriving DecidableEq

/-! ## Functions -/

/-- `get_epoll_context_fd`; no context counts as descriptor 0. -/
def SocketFd.getEpollContextFd (k : SocketFd) : Nat := k.econtext.getD 0

def EpfdInfo.setSocket (s : EpfdInfo) (fd : Nat) (k : SocketFd) : EpfdInfo :=
  { s with sockets := Function.update s.sockets fd (some k) }

def EpfdInfo.offloaded (s : EpfdInfo) (fd : Nat) : Option SocketFd :=
  (s.sockets fd).filter SocketFd.isSocket

def EpfdInfo.skipsOs (s : EpfdInfo) (fd : Nat) : Bool := (s.sockets fd).any SocketFd.skipOsSelect

/-- The socket whose own record `get_fd_rec` returns. -/
def EpfdInfo.registered (s : EpfdInfo) (fd : Nat) : Option SocketFd :=
  (s.sockets fd).filter fun k => k.getEpollContextFd = s.epfd

def EpfdInfo.getFdRec (s : EpfdInfo) (fd : Nat) : Option EpollFdRec :=
  match s.registered fd with
  | some k => some k.fdRec
  | none => s.fdNonOffloadedMap fd

def EpfdInfo.insertEpollEvent (s : EpfdInfo) (fd : Nat) (k : SocketFd) (flags : Events) : EpfdInfo :=
  if fd ∈ s.readyFds then s.setSocket fd { k with epollEventFlags := k.epollEventFlags ||| flags }
  else
    { s.setSocket fd { k with epollEventFlags := flags } with readyFds := s.readyFds ++ [fd] }

def EpfdInfo.insertEpollEventCb (s : EpfdInfo) (fd : Nat) (k : SocketFd) (flags : Events) : EpfdInfo :=
  if flags &&& (k.fdRec.events ||| epollHup ||| epollErr) ≠ 0 then s.insertEpollEvent fd k flags else s

/-- The events that a socket is ready for when it is added or modified with a mask. -/
def SocketFd.eventsNow (k : SocketFd) (mask : Events) : Events :=
  (if mask &&& epollIn ≠ 0 ∧ k.readable then epollIn else 0) |||
    (if mask &&& epollOut ≠ 0 ∧ k.writeable then epollOut else 0)

/-- `orig_os_api.epoll_ctl(EPOLL_CTL_ADD)`; `osOk` says that it does not fail for a descriptor that is
not registered. -/
def EpfdInfo.osAdd (s : EpfdInfo) (fd : Nat) (events : Events) (osOk : Bool) : Except Errno EpfdInfo :=
  if (s.osFds fd).isSome then .error .eexist
  else if osOk then .ok { s with osFds := Function.update s.osFds fd (some events) }
  else .error .os

/-- The part of `add_fd` behind the operating system, for an offloaded socket. -/
def EpfdInfo.addOffloaded (s : EpfdInfo) (fd : Nat) (k : SocketFd) (event : EpollEvent) :
    EpfdInfo × Option Errno :=
  if s.size ≤ s.offloadedFds.length then (s, some .enomem)
  else
    match k.econtext with
    | some e => (s, some (if e = s.epfd then .eexist else .enomem))
    | none =>
      let k := { k with
        econtext := some s.epfd
        fdRec := ⟨event.events, event.data, s.offloadedFds.length + 1⟩ }
      let s := { s.setSocket fd k with
        offloadedFds := s.offloadedFds ++ [fd]
        fdOffloadedList := s.fdOffloadedList ++ [fd] }
      let events := k.eventsNow event.events
      (if events ≠ 0 then s.insertEpollEvent fd k events else s, none)

def EpfdInfo.addLocal (s : EpfdInfo) (fd : Nat) (event : EpollEvent) : EpfdInfo × Option Errno :=
  match s.offloaded fd with
  | some k => s.addOffloaded fd k event
  | none =>
    ({ s with fdNonOffloadedMap :=
        Function.update s.fdNonOffloadedMap fd (some ⟨event.events, event.data, -1⟩) }, none)

/-- `add_fd`; no error is a return value of 0. -/
def EpfdInfo.addFd (s : EpfdInfo) (fd : Nat) (event : EpollEvent) (osOk : Bool) :
    EpfdInfo × Option Errno :=
  if s.skipsOs fd then
    if (s.getFdRec fd).isSome then (s, some .eexist) else s.addLocal fd event
  else
    match s.osAdd fd event.events osOk with
    | .error e => (s, some e)
    | .ok s => s.addLocal fd event

def EpfdInfo.osMod (s : EpfdInfo) (fd : Nat) (events : Events) (osOk : Bool) : Except Errno EpfdInfo :=
  if (s.osFds fd).isSome ∧ osOk then
    .ok { s with osFds := Function.update s.osFds fd (some events) }
  else .error .os

/-- The record of a descriptor gets a new mask and new data, in the socket or in the map. -/
def EpfdInfo.setFdRec (s : EpfdInfo) (fd : Nat) (event : EpollEvent) : EpfdInfo :=
  match s.registered fd with
  | some k =>
    s.setSocket fd { k with fdRec := { k.fdRec with events := event.events, epdata := event.data } }
  | none =>
    let fdRec := (s.fdNonOffloadedMap fd).map fun r =>
      { r with events := event.events, epdata := event.data }
    { s with fdNonOffloadedMap := Function.update s.fdNonOffloadedMap fd fdRec }

def EpfdInfo.dropReady (s : EpfdInfo) (fd : Nat) : EpfdInfo :=
  match s.sockets fd with
  | some k =>
    if fd ∈ s.readyFds then
      { s.setSocket fd { k with epollEventFlags := 0 } with readyFds := s.readyFds.erase fd }
    else s
  | none => s

def EpfdInfo.modLocal (s : EpfdInfo) (fd : Nat) (event : EpollEvent) : EpfdInfo :=
  let s := s.setFdRec fd event
  match s.offloaded fd with
  | none => s.dropReady fd
  | some k =>
    let events := k.eventsNow event.events
    let s := if events ≠ 0 then s.insertEpollEvent fd k events else s
    if event.events = 0 ∨ events = 0 then s.dropReady fd else s

def EpfdInfo.modFd (s : EpfdInfo) (fd : Nat) (event : EpollEvent) (osOk : Bool) :
    EpfdInfo × Option Errno :=
  if (s.getFdRec fd).isNone then (s, some .enoent)
  else if s.skipsOs fd then (s.modLocal fd event, none)
  else
    match s.osMod fd event.events osOk with
    | .error e => (s, some e)
    | .ok s => (s.modLocal fd event, none)

/-! ## What the calls can do -/

/-- What `add_fd` can do: nothing; put a descriptor that is not offloaded in the map; or give a socket
its record and the events that are ready. -/
def Added (s : EpfdInfo) (fd : Nat) (event : EpollEvent) (r : EpfdInfo × Option Errno) : Prop :=
  (r.2 ≠ none ∧ r.1.sockets = s.sockets ∧ r.1.readyFds = s.readyFds ∧
      r.1.fdNonOffloadedMap = s.fdNonOffloadedMap) ∨
    (s.offloaded fd = none ∧ r.1.sockets = s.sockets ∧ r.1.readyFds = s.readyFds ∧
      ∃ fdRec, r.1.fdNonOffloadedMap = Function.update s.fdNonOffloadedMap fd fdRec) ∨
    ∃ k k' s₁, s.offloaded fd = some k ∧
      r = (if k'.eventsNow event.events ≠ 0 then
        s₁.insertEpollEvent fd k' (k'.eventsNow event.events) else s₁, none) ∧
      k'.eventsNow event.events = k.eventsNow event.events ∧ k'.isSocket = k.isSocket ∧
      k'.epollEventFlags = k.epollEventFlags ∧ k'.fdRec.events = event.events ∧
      s₁.sockets = Function.update s.sockets fd (some k') ∧ s₁.readyFds = s.readyFds ∧
      s₁.fdNonOffloadedMap = s.fdNonOffloadedMap

theorem addLocal_added (s : EpfdInfo) (fd : Nat) (event : EpollEvent) :
    Added s fd event (s.addLocal fd event) := by
  unfold EpfdInfo.addLocal
  cases hoff : s.offloaded fd with
  | none => exact .inr (.inl ⟨hoff, rfl, rfl, _, rfl⟩)
  | some k =>
    simp only [EpfdInfo.addOffloaded]
    split
    · exact .inl ⟨nofun, rfl, rfl, rfl⟩
    · split
      · exact .inl ⟨nofun, rfl, rfl, rfl⟩
      · exact .inr (.inr ⟨k, _, _, hoff, rfl, rfl, rfl, rfl, rfl, rfl, rfl, rfl⟩)

theorem addFd_added (s : EpfdInfo) (fd : Nat) (event : EpollEvent) (osOk : Bool) :
    Added s fd event (s.addFd fd event osOk) := by
  unfold EpfdInfo.addFd
  split
  · split
    · exact .inl ⟨nofun, rfl, rfl, rfl⟩
    · exact addLocal_added s fd event
  cases hos : s.osAdd fd event.events osOk with
  | error e => exact .inl ⟨nofun, rfl, rfl, rfl⟩
  | ok s₁ =>
    unfold EpfdInfo.osAdd at hos
    split at hos
    · cases hos
    · split at hos
      · cases hos
        exact addLocal_added { s with osFds := _ } fd event
      · cases hos

theorem modFd_cases (s : EpfdInfo) (fd : Nat) (event : EpollEvent) (osOk : Bool) :
    (∃ e, s.modFd fd event osOk = (s, some e)) ∨
      (s.getFdRec fd).isSome = true ∧ ∃ os, s.modFd fd event osOk =
        ({ s with osFds := os }.modLocal fd event, none) := by
  unfold EpfdInfo.modFd
  by_cases hrec : (s.getFdRec fd).isNone = true
  · rw [if_pos hrec]
    exact .inl ⟨_, rfl⟩
  rw [if_neg hrec]
  have hsome : (s.getFdRec fd).isSome = true := by
    rwa [Option.isSome_iff_ne_none, ne_eq, ← Option.isNone_iff_eq_none]
  split
  · exact .inr ⟨hsome, s.osFds, rfl⟩
  unfold EpfdInfo.osMod
  split
  · next heq =>
    split at heq
    · cases heq
    · exact .inl ⟨_, rfl⟩
  · next heq =>
    split at heq
    · cases heq
      exact .inr ⟨hsome, _, rfl⟩
    · cases heq

/-! ## Failed additions -/

/-- The records that an epoll instance keeps of its descriptors. -/
structure SameRecords (s s' : EpfdInfo) : Prop where
  osFds : s'.osFds = s.osFds
  fdNonOffloadedMap : s'.fdNonOffloadedMap = s.fdNonOffloadedMap
  fdOffloadedList : s'.fdOffloadedList = s.fdOffloadedList
  offloadedFds : s'.offloadedFds = s.offloadedFds
  fdRec : ∀ fd, (s'.sockets fd).map SocketFd.fdRec = (s.sockets fd).map SocketFd.fdRec

def EpfdInfo.osTakes (s : EpfdInfo) (fd : Nat) (osOk : Bool) : Bool :=
  !s.skipsOs fd && (s.osFds fd).isNone && osOk

/-- An offloaded socket is refused: the table is full or the socket has an epoll instance. -/
def EpfdInfo.refuses (s : EpfdInfo) (fd : Nat) : Bool :=
  (s.offloaded fd).any fun k => s.size ≤ s.offloadedFds.length || k.econtext.isSome

theorem addLocal_spec (s : EpfdInfo) (fd : Nat) (event : EpollEvent) :
    (s.refuses fd = true ∧ (s.addLocal fd event).1 = s ∧ (s.addLocal fd event).2 ≠ none) ∨
      (s.refuses fd = false ∧ (s.addLocal fd event).2 = none) := by
  unfold EpfdInfo.addLocal EpfdInfo.refuses
  cases s.offloaded fd with
  | none => exact .inr ⟨rfl, rfl⟩
  | some k =>
    simp only [Option.any_some, EpfdInfo.addOffloaded]
    by_cases hfull : s.size ≤ s.offloadedFds.length
    · rw [if_pos hfull]
      exact .inl ⟨by simp [hfull], rfl, nofun⟩
    · rw [if_neg hfull]
      cases hk : k.econtext with
      | some e => exact .inl ⟨by simp, rfl, nofun⟩
      | none => exact .inr ⟨by simp [hfull], rfl⟩

/-- A failed `add_fd` leaves all records as they were exactly if it is not the case that the operating
system has taken a descriptor that is refused afterwards. -/
theorem addFd_atomic_iff (s : EpfdInfo) (fd : Nat) (event : EpollEvent) (osOk : Bool) :
    ((s.addFd fd event osOk).2 ≠ none → SameRecords s (s.addFd fd event osOk).1) ↔
      (s.osTakes fd osOk && s.refuses fd) = false := by
  have hrefl : SameRecords s s := ⟨rfl, rfl, rfl, rfl, fun _ => rfl⟩
  unfold EpfdInfo.addFd EpfdInfo.osTakes
  by_cases hskip : s.skipsOs fd = true
  · simp only [hskip, ↓reduceIte, Bool.not_true, Bool.false_and, iff_true]
    split
    · exact fun _ => hrefl
    · rcases addLocal_spec s fd event with ⟨-, hsame, -⟩ | ⟨-, hok⟩
      · rw [hsame]
        exact fun _ => hrefl
      · exact fun hne => absurd hok hne
  · simp only [hskip, Bool.false_eq_true, ↓reduceIte]
    cases hos : s.osFds fd with
    | some e =>
      simp only [EpfdInfo.osAdd, hos, Option.isSome_some, ↓reduceIte, Option.isNone_some]
      exact ⟨fun _ => rfl, fun _ _ => hrefl⟩
    | none =>
      cases osOk with
      | false =>
        simp only [EpfdInfo.osAdd, hos, Option.isSome_none]
        exact ⟨fun _ => rfl, fun _ _ => hrefl⟩
      | true =>
        -- the call goes on with the descriptor registered
        set s₁ := { s with osFds := Function.update s.osFds fd (some event.events) } with hs₁
        have hadd : s.osAdd fd event.events true = .ok s₁ := by
          simp [EpfdInfo.osAdd, hos, hs₁]
        have hne : ¬SameRecords s s₁ := by
          intro hsame
          have hfd := congrFun hsame.osFds fd
          simp [hs₁, hos] at hfd
        have href : s₁.refuses fd = s.refuses fd := rfl
        rw [hadd]
        rcases addLocal_spec s₁ fd event with ⟨hr, hsame, herr⟩ | ⟨hr, hok⟩
        · rw [href] at hr
          simp only [hr]
          rw [hsame]
          exact ⟨fun h => absurd (h herr) hne, nofun⟩
        · rw [href] at hr
          simp [hok, hr]

/-- An instance with room for four descriptors and one socket, which another instance has. -/
def busySocket : EpfdInfo where
  epfd := 7
  size := 4
  sockets := fun fd => if fd = 20 then some { econtext := some 9 } else none
  osFds := fun _ => none
  fdNonOffloadedMap := fun _ => none
  offloadedFds := []
  fdOffloadedList := []
  readyFds := []

/-- The call fails, and the operating system keeps the descriptor. -/
theorem addFd_leaves_osFd :
    (busySocket.addFd 20 { events := epollIn } true).2 = some .enomem ∧
      ¬SameRecords busySocket (busySocket.addFd 20 { events := epollIn } true).1 := by
  refine ⟨by decide +kernel, fun hsame => ?_⟩
  have hos : (busySocket.addFd 20 { events := epollIn } true).1.osFds 20 ≠ busySocket.osFds 20 := by
    decide +kernel
  exact hos (congrFun hsame.osFds 20)

end LibvmaTlt.Iomux
