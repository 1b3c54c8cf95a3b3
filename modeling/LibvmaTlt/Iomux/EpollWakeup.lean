import Mathlib.Tactic.Common
import LibvmaTlt.Iomux.Epfd
import LibvmaTlt.Lib.Reach

/-!
# Waking up threads in `epoll_wait`

Threads that wait with a time-out sleep in the epoll instance of the operating system, which knows
nothing of offloaded sockets. Whoever inserts an event while one of them sleeps registers the wakeup
pipe there, which is always readable; a thread that it wakes takes it out again unless another one
sleeps. Each region under the epoll lock is one step.
-/

namespace LibvmaTlt.Iomux

/-- Where a thread is: not in `_wait`, between `going_to_sleep` and `return_from_sleep`, or in `_wait`
and not asleep. -/
inductive WaitPhase where
  | outside | asleep | awake
  deriving DecidableEq

/-- What the operating system answers to `epoll_ctl(EPOLL_CTL_ADD)`. -/
inductive AddAnswer where
  | added | eexist | failed
  deriving DecidableEq

/-- An epoll instance with its `wakeup_pipe`; `wakeupFd` says that the pipe is registered in the epoll
instance of the operating system. -/
structure Waiters where
  info : EpfdInfo
  isSleeping : Int := 0
  wakeupFd : Bool := false
  threads : List WaitPhase

namespace Waiters

def goingToSleep (s : Waiters) : Waiters :=
  { s with isSleeping := if s.info.epfd ≠ 0 then s.isSleeping + 1 else 0 }

def returnFromSleep (s : Waiters) : Waiters := { s with isSleeping := s.isSleeping - 1 }

/-- `do_wakeup`: an answer other than success is at most logged. -/
def doWakeup (s : Waiters) (answer : AddAnswer) : Waiters :=
  if s.isSleeping = 0 then s else { s with wakeupFd := s.wakeupFd || answer = .added }

/-- `remove_wakeup_fd`; `deleted` says that `epoll_ctl(EPOLL_CTL_DEL)` succeeds. -/
def removeWakeupFd (s : Waiters) (deleted : Bool) : Waiters :=
  if s.isSleeping ≠ 0 then s else { s with wakeupFd := s.wakeupFd && !deleted }

end Waiters

def EpfdInfo.removeEpollEvent (s : EpfdInfo) (fd : Nat) (k : SocketFd) (flags : Events) : EpfdInfo :=
  let left := k.epollEventFlags &&& ~~~flags
  let s := s.setSocket fd { k with epollEventFlags := left }
  if left = 0 then { s with readyFds := s.readyFds.erase fd } else s

inductive WaitAct where
  /-- `_wait` up to the call of the operating system. -/
  | enter (thread : Nat) (timeout : Int)
  /-- That call returns to a thread that sleeps, for whatever reason. -/
  | wake (thread : Nat)
  /-- The thread finds the wakeup pipe among the ready descriptors. -/
  | wakeupEvent (thread : Nat) (deleted : Bool)
  | leave (thread : Nat)
  | insert (fd : Nat) (flags : Events) (answer : AddAnswer)
  | remove (fd : Nat) (flags : Events)
  /-- `del_fd` and `mod_fd` take a socket off the ready list. -/
  | drop (fd : Nat)

namespace Waiters

def step (s : Waiters) : WaitAct → Waiters
  | .enter t timeout =>
    if timeout ≠ 0 ∧ s.info.readyFds = [] then
      { s.goingToSleep with threads := s.threads.set t .asleep }
    else { s with threads := s.threads.set t .awake }
  | .wake t => { s.returnFromSleep with threads := s.threads.set t .awake }
  | .wakeupEvent _ deleted => s.removeWakeupFd deleted
  | .leave t => { s with threads := s.threads.set t .outside }
  | .insert fd flags answer =>
    match s.info.sockets fd with
    | some k => doWakeup { s with info := s.info.insertEpollEvent fd k flags } answer
    | none => s
  | .remove fd flags =>
    match s.info.sockets fd with
    | some k => { s with info := s.info.removeEpollEvent fd k flags }
    | none => s
  | .drop fd => { s with info := s.info.dropReady fd }

def admits (s : Waiters) : WaitAct → Prop
  | .enter t _ => s.threads[t]? = some .outside
  | .wake t => s.threads[t]? = some .asleep
  | .wakeupEvent t _ | .leave t => s.threads[t]? = some .awake
  | .insert .. | .remove _ _ | .drop _ => True

/-- The operating system registers the pipe when asked to, or says that it is registered already. -/
def OsAdds (s : Waiters) : WaitAct → Prop
  | .insert _ _ answer => answer = .added ∨ answer = .eexist ∧ s.wakeupFd = true
  | _ => True

structure Inv (s : Waiters) : Prop where
  epfd : s.info.epfd ≠ 0
  count : s.isSleeping = s.threads.count .asleep
  woken : s.isSleeping ≠ 0 → s.info.readyFds ≠ [] → s.wakeupFd = true

variable {s : Waiters} {t : Nat} {p q : WaitPhase}

theorem count_set (h : s.threads[t]? = some p) (q : WaitPhase) :
    ((s.threads.set t q).count .asleep : Int) =
      s.threads.count .asleep - (if p = .asleep then 1 else 0) + if q = .asleep then 1 else 0 := by
  obtain ⟨hlt, hp⟩ := List.getElem?_eq_some_iff.mp h
  have hpos : p = .asleep → 0 < s.threads.count .asleep := fun he =>
    List.count_pos_iff.mpr (he ▸ hp ▸ List.getElem_mem hlt)
  rw [List.count_set hlt, hp]
  by_cases hpa : p = .asleep
  · have := hpos hpa
    by_cases hqa : q = .asleep <;> simp [hpa, hqa] <;> omega
  · by_cases hqa : q = .asleep <;> simp [hpa, hqa]

theorem Inv.doWakeup {info : EpfdInfo} (h : s.Inv) (he : info.epfd = s.info.epfd) {answer : AddAnswer}
    (ha : answer = .added ∨ answer = .eexist ∧ s.wakeupFd = true) :
    (Waiters.doWakeup { s with info := info } answer).Inv := by
  unfold Waiters.doWakeup
  split
  · rename_i h0
    exact ⟨he ▸ h.epfd, h.count, fun hs => absurd h0 hs⟩
  · refine ⟨he ▸ h.epfd, h.count, fun _ _ => ?_⟩
    rcases ha with rfl | ⟨-, hw⟩
    · exact Bool.or_true _
    · show (s.wakeupFd || _) = true
      rw [hw, Bool.true_or]

theorem Inv.shrink {info : EpfdInfo} (h : s.Inv) (he : info.epfd = s.info.epfd)
    (hr : info.readyFds ⊆ s.info.readyFds) : Waiters.Inv { s with info := info } := by
  refine ⟨he ▸ h.epfd, h.count, fun hs hne => h.woken hs fun h0 => hne ?_⟩
  exact List.subset_nil.mp (h0 ▸ hr)

theorem Inv.step (h : s.Inv) {a : WaitAct} (ha : s.admits a) (hos : s.OsAdds a) : (s.step a).Inv := by
  cases a with
  | enter t timeout =>
    simp only [Waiters.step]
    split
    · -- it goes to sleep only if nothing is ready
      rename_i hc
      refine ⟨h.epfd, ?_, fun _ hr => absurd hc.2 hr⟩
      rw [count_set ha]
      simp [goingToSleep, h.epfd, h.count]
    · refine ⟨h.epfd, ?_, h.woken⟩
      rw [count_set ha]
      simpa using h.count
  | wake t =>
    have hpos : 0 < s.threads.count .asleep := List.count_pos_iff.mpr (List.mem_of_getElem? ha)
    refine ⟨h.epfd, ?_, fun _ hr => h.woken (by rw [h.count]; omega) hr⟩
    simp only [Waiters.step, returnFromSleep]
    rw [count_set ha, h.count]
    simp
  | wakeupEvent t deleted =>
    simp only [Waiters.step, removeWakeupFd]
    split
    · exact h
    · rename_i h0
      exact ⟨h.epfd, h.count, fun hs => absurd hs h0⟩
  | leave t =>
    refine ⟨h.epfd, ?_, h.woken⟩
    simp only [Waiters.step]
    rw [count_set ha]
    simpa using h.count
  | insert fd flags answer =>
    simp only [Waiters.step]
    split
    · refine h.doWakeup ?_ hos
      simp only [EpfdInfo.insertEpollEvent, EpfdInfo.setSocket]
      split <;> rfl
    · exact h
  | remove fd flags =>
    simp only [Waiters.step]
    split
    · apply h.shrink
      · simp only [EpfdInfo.removeEpollEvent, EpfdInfo.setSocket]
        split <;> rfl
      · simp only [EpfdInfo.removeEpollEvent, EpfdInfo.setSocket]
        split
        · exact List.erase_subset
        · exact fun _ hx => hx
    · exact h
  | drop fd =>
    apply h.shrink
    · simp only [EpfdInfo.dropReady, EpfdInfo.setSocket]
      split <;> [split; skip] <;> rfl
    · simp only [EpfdInfo.dropReady, EpfdInfo.setSocket]
      split <;> [split; skip]
      · exact List.erase_subset
      · exact fun _ hx => hx
      · exact fun _ hx => hx

end Waiters

/-- **No wake-up is lost.** In every interleaving of any number of threads `m_is_sleeping` counts the
threads that sleep, and while one sleeps and an event is ready the wakeup pipe is registered, if the
operating system does not refuse to register it. No epoll instance is made for descriptor 0
(`epoll_create`, `epoll_create1`). -/
theorem no_lost_wakeup {info : EpfdInfo} (hfd : info.epfd ≠ 0) {n : Nat} {s : Waiters}
    (h : Reach Waiters.step (fun s a => s.admits a ∧ s.OsAdds a)
      { info := info, threads := List.replicate n .outside } s) :
    s.isSleeping = s.threads.count .asleep ∧
      (.asleep ∈ s.threads → s.info.readyFds ≠ [] → s.wakeupFd = true) := by
  have h0 : Waiters.Inv { info := info, threads := List.replicate n .outside } :=
    ⟨hfd, by simp [List.count_replicate], fun h => absurd rfl h⟩
  have hinv := h.inv h0 fun s a hs ha => hs.step ha.1 ha.2
  refine ⟨hinv.count, fun hm hr => hinv.woken ?_ hr⟩
  have := List.count_pos_iff.mpr hm
  rw [hinv.count]
  omega

/-- Two threads sleep, two events find the pipe to add and added; one thread wakes up and leaves the pipe to
the other. -/
theorem no_lost_wakeup_two :
    let k : SocketFd := {}
    let info : EpfdInfo := ⟨5, 0, fun _ => some k, fun _ => none, fun _ => none, [], [], []⟩
    let run : List WaitAct := [.enter 0 (-1), .enter 1 100, .insert 7 epollIn .added,
      .insert 8 epollIn .eexist, .wake 0, .wakeupEvent 0 true]
    let s := run.foldl Waiters.step { info := info, threads := [.outside, .outside] }
    s.isSleeping = s.threads.count .asleep ∧
      (.asleep ∈ s.threads → s.info.readyFds ≠ [] → s.wakeupFd = true) := by
  intro k info run s
  have hstart : Reach Waiters.step (fun s a => s.admits a ∧ s.OsAdds a)
      { info := info, threads := List.replicate 2 .outside }
      { info := info, threads := List.replicate 2 .outside } := .start
  have hasleep := (hstart.next (.enter 0 (-1)) ⟨by rfl, trivial⟩).next (.enter 1 100) ⟨by rfl, trivial⟩
  have hready := (hasleep.next (.insert 7 epollIn .added) ⟨trivial, .inl rfl⟩).next
    (.insert 8 epollIn .eexist) ⟨trivial, .inr ⟨rfl, rfl⟩⟩
  have hrun := (hready.next (.wake 0) ⟨by rfl, trivial⟩).next (.wakeupEvent 0 true) ⟨by rfl, trivial⟩
  exact no_lost_wakeup (by decide) hrun

end LibvmaTlt.Iomux
