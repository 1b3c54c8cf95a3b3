import Mathlib.Algebra.GroupWithZero.Nat
import Mathlib.Tactic.Common
import LibvmaTlt.Lib.Reach

/-!
# Waiting for transmit completions

A thread that finds no free work request polls the transmit CQ, and if that is empty it arms the CQ and
blocks on its event channel. Before it arms, `request_notification` compares sequence numbers, which tells
whether some thread has polled a completion since, but not whether one has come. The threads that run
`is_available_qp_wr` with `b_block` set take their steps under `m_lock_ring_tx`.
-/

namespace LibvmaTlt.Dev

/-- Where a thread is: not in `is_available_qp_wr`, at the top of its loop, past an empty poll that has
left this number in `poll_sn`, or in the call of `poll`. -/
inductive TxPhase where
  | outside
  | looping
  | polled (pollSn : BitVec 64)
  | blocked
  deriving DecidableEq

/-- The transmit CQ and its event channel, with the threads that wait for it. -/
structure TxCq where
  /-- The completions that wait, each with the number of work requests it frees. -/
  cqe : List Nat := []
  armed : Bool := false
  events : Nat := 0
  txNumWrFree : Int := 0
  cqId : BitVec 32 := 0
  cqPollSn : BitVec 32 := 0
  globalSn : BitVec 64 := 0
  notificationArmed : Bool := false
  cqPollBatchMax : Nat := 16
  /-- The thread that holds `m_lock_ring_tx` from one step to the next. -/
  lockRingTx : Option Nat := none
  threads : Nat → TxPhase := fun _ => .outside

namespace TxCq

/-- The CQ takes in a completion; if it is armed that is an event, and disarms it. -/
def complete (s : TxCq) (frees : Nat) : TxCq :=
  { s with
    cqe := s.cqe ++ [frees]
    armed := false
    events := if s.armed then s.events + 1 else s.events }

/-- `poll_and_process_element_tx`, with the number in `poll_sn` and the number of completions. -/
def pollAndProcessElementTx (s : TxCq) : TxCq × BitVec 64 × Nat :=
  let wce := s.cqe.take s.cqPollBatchMax
  if wce = [] then (s, s.globalSn, 0)
  else
    let cqSn := s.cqPollSn + 1
    ({ s with
       cqe := s.cqe.drop s.cqPollBatchMax
       cqPollSn := cqSn
       globalSn := cqSn ++ s.cqId
       txNumWrFree := s.txNumWrFree + wce.sum }, cqSn ++ s.cqId, wce.length)

/-- `request_notification`; `ok` is what the verbs answer. -/
def requestNotification (s : TxCq) (pollSn : BitVec 64) (ok : Bool) : TxCq × Int :=
  if s.globalSn > 0 ∧ pollSn ≠ s.globalSn then (s, 1)
  else if s.notificationArmed = false then
    if ok then ({ s with armed := true, notificationArmed := true }, 0) else (s, -1)
  else (s, 0)

def goTo (s : TxCq) (t : Nat) (p : TxPhase) : TxCq :=
  { s with threads := Function.update s.threads t p }

end TxCq

inductive TxCqAct where
  | call (thread : Nat)
  /-- One round of the loop, up to an empty poll. -/
  | round (thread : Nat)
  /-- The thread has both locks after an empty poll. -/
  | arm (thread : Nat) (pollSn : BitVec 64) (ok : Bool)
  /-- `poll` returns to a blocked thread, with the event or with an error; `got` is whether
  `ibv_get_cq_event` then takes the event from the channel. -/
  | wake (thread : Nat) (got : Bool)
  | interrupted (thread : Nat)
  | completion (frees : Nat)
  /-- Another CQ is polled: the number is that of all of them. -/
  | otherPoll (sn : BitVec 64)

namespace TxCq

def step (s : TxCq) : TxCqAct → TxCq
  | .call t => s.goTo t .looping
  | .round t =>
    if 0 < s.txNumWrFree then
      { s.goTo t .outside with txNumWrFree := s.txNumWrFree - 1, lockRingTx := none }
    else
      let r := s.pollAndProcessElementTx
      if r.2.2 = 0 then { r.1.goTo t (.polled r.2.1) with lockRingTx := none }
      else { r.1 with lockRingTx := some t }
  | .arm t pollSn ok =>
    if s.txNumWrFree ≤ 0 then
      let r := s.requestNotification pollSn ok
      if r.2 = 0 then r.1.goTo t .blocked else r.1.goTo t .looping
    else s.goTo t .looping
  | .wake t got =>
    if got then
      let s := { s with events := s.events - 1, notificationArmed := false }
      s.pollAndProcessElementTx.1.goTo t .looping
    else s.goTo t .looping
  | .interrupted t => s.goTo t .outside
  | .completion frees => s.complete frees
  | .otherPoll sn => { s with globalSn := sn }

/-- The thread is where its step starts and can take the locks; `m_lock_ring_tx_buf_wait` is held by the
thread that is blocked. -/
def admits (s : TxCq) : TxCqAct → Prop
  | .call t => s.threads t = .outside
  | .round t => s.threads t = .looping ∧ (s.lockRingTx = none ∨ s.lockRingTx = some t)
  | .arm t pollSn _ => s.threads t = .polled pollSn ∧ s.lockRingTx = none ∧ ∀ u, s.threads u ≠ .blocked
  | .wake t _ => s.threads t = .blocked ∧ 0 < s.events ∧ s.lockRingTx = none
  | .interrupted t => s.threads t = .blocked
  | .completion _ | .otherPoll _ => True

/-- A thread is blocked although a completion waits, and no event will wake it. -/
def Lost (s : TxCq) : Prop := (∃ t, s.threads t = .blocked) ∧ s.cqe ≠ [] ∧ s.events = 0

def Arms (s : TxCq) (pollSn : BitVec 64) (ok : Bool) : Prop :=
  s.txNumWrFree ≤ 0 ∧ ¬(s.globalSn > 0 ∧ pollSn ≠ s.globalSn) ∧ s.notificationArmed = false ∧ ok = true

/-- No completion waits at the moment the CQ is armed. -/
def Timely (s : TxCq) : TxCqAct → Prop
  | .arm _ pollSn ok => s.Arms pollSn ok → s.cqe = []
  | _ => True

/-- An armed CQ is empty, `m_b_notification_armed` stands for the arming or the event it has become, and
for the one thread that may be blocked. -/
structure Inv (s : TxCq) : Prop where
  ledger : s.events + s.armed.toNat = s.notificationArmed.toNat
  empty : s.armed = true → s.cqe = []
  blocked : ∀ t, s.threads t = .blocked →
    s.notificationArmed = true ∧ ∀ u, s.threads u = .blocked → u = t

variable {s : TxCq} {t u : Nat} {p : TxPhase}

theorem Inv.not_lost (h : s.Inv) : ¬s.Lost := by
  rintro ⟨⟨t, hb⟩, hne, he⟩
  have hl := h.ledger
  rw [(h.blocked t hb).1, he] at hl
  cases ha : s.armed with
  | true => exact hne (h.empty ha)
  | false => simp [ha] at hl

theorem blocked_goTo (hp : p ≠ .blocked) (h : (s.goTo t p).threads u = .blocked) :
    u ≠ t ∧ s.threads u = .blocked := by
  by_cases hu : u = t
  · subst hu
    simp only [goTo, Function.update_self] at h
    exact absurd h hp
  · simp only [goTo, Function.update_of_ne hu] at h
    exact ⟨hu, h⟩

theorem Inv.goTo (h : s.Inv) (t : Nat) (hp : p ≠ .blocked) : (s.goTo t p).Inv := by
  refine ⟨h.ledger, h.empty, fun u hu => ?_⟩
  obtain ⟨hn, hone⟩ := h.blocked u (blocked_goTo hp hu).2
  exact ⟨hn, fun v hv => hone v (blocked_goTo hp hv).2⟩

theorem poll_frame (s : TxCq) :
    ∃ cqe free cqSn sn, (s.cqe = [] → cqe = []) ∧ s.pollAndProcessElementTx.1 =
      { s with cqe := cqe, txNumWrFree := free, cqPollSn := cqSn, globalSn := sn } := by
  unfold pollAndProcessElementTx
  dsimp only
  split
  · exact ⟨s.cqe, _, _, _, id, rfl⟩
  · exact ⟨s.cqe.drop s.cqPollBatchMax, _, _, _, fun h => by rw [h, List.drop_nil], rfl⟩

theorem Inv.poll (h : s.Inv) : s.pollAndProcessElementTx.1.Inv := by
  obtain ⟨cqe, free, cqSn, sn, hc, he⟩ := s.poll_frame
  rw [he]
  exact ⟨h.ledger, fun ha => hc (h.empty ha), h.blocked⟩

theorem step_arm (s : TxCq) (t : Nat) (pollSn : BitVec 64) (ok : Bool) :
    (s.Arms pollSn ok ∧ s.step (.arm t pollSn ok) =
      { s.goTo t .blocked with armed := true, notificationArmed := true }) ∨
    (¬s.Arms pollSn ok ∧ (s.step (.arm t pollSn ok) = s.goTo t .looping ∨
      s.notificationArmed = true ∧ s.step (.arm t pollSn ok) = s.goTo t .blocked)) := by
  simp only [step, requestNotification, Arms]
  by_cases hfree : s.txNumWrFree ≤ 0
  · by_cases hsn : s.globalSn > 0 ∧ pollSn ≠ s.globalSn
    · simp only [if_pos hfree, if_pos hsn]
      exact .inr ⟨fun h => h.2.1 hsn, .inl rfl⟩
    simp only [if_pos hfree, if_neg hsn]
    cases hn : s.notificationArmed <;> cases ok
    · exact .inr ⟨fun h => (Bool.noConfusion h.2.2.2), .inl rfl⟩
    · exact .inl ⟨⟨hfree, hsn, rfl, rfl⟩, rfl⟩
    · exact .inr ⟨fun h => (Bool.noConfusion h.2.2.2), .inr ⟨rfl, rfl⟩⟩
    · exact .inr ⟨fun h => (Bool.noConfusion h.2.2.1), .inr ⟨rfl, rfl⟩⟩
  · rw [if_neg hfree]
    exact .inr ⟨fun h => hfree h.1, .inl rfl⟩

theorem Inv.arm (h : s.Inv) {pollSn : BitVec 64} {ok : Bool} (ha : s.admits (.arm t pollSn ok))
    (hc : s.Timely (.arm t pollSn ok)) : (s.step (.arm t pollSn ok)).Inv := by
  have hl := h.ledger
  have hone : ∀ u, (s.goTo t .blocked).threads u = .blocked → u = t := by
    intro u hu
    by_contra hne
    simp only [TxCq.goTo, Function.update_of_ne hne] at hu
    exact ha.2.2 u hu
  rcases s.step_arm t pollSn ok with ⟨harms, he⟩ | ⟨-, he | ⟨hn, he⟩⟩
  · rw [he]
    refine ⟨?_, fun _ => hc harms, fun u hu => ⟨rfl, fun v hv => (hone v hv).trans (hone u hu).symm⟩⟩
    rw [harms.2.2.1] at hl
    show s.events + 1 = 1
    rw [(Nat.add_eq_zero_iff.mp hl).1]
  · rw [he]
    exact h.goTo t (by decide)
  · rw [he]
    exact ⟨hl, h.empty, fun u hu => ⟨hn, fun v hv => (hone v hv).trans (hone u hu).symm⟩⟩

theorem Inv.wake (h : s.Inv) {got : Bool} (ha : s.admits (.wake t got)) : (s.step (.wake t got)).Inv := by
  obtain ⟨hb, hev, -⟩ := ha
  cases got with
  | false => exact h.goTo t (by decide)
  | true =>
    have hl := h.ledger
    rw [(h.blocked t hb).1, Bool.toNat_true] at hl
    obtain ⟨cqe, free, cqSn, sn, hc, he⟩ :=
      poll_frame { s with events := s.events - 1, notificationArmed := false }
    simp only [TxCq.step, if_true, he]
    refine ⟨?_, fun harmed => hc (h.empty harmed), fun u hu => ?_⟩
    · show s.events - 1 + s.armed.toNat = 0
      omega
    · obtain ⟨hne, hu'⟩ := blocked_goTo (by decide) hu
      exact absurd ((h.blocked t hb).2 u hu') hne

theorem Inv.step (h : s.Inv) {a : TxCqAct} (ha : s.admits a) (hc : s.Timely a) : (s.step a).Inv := by
  cases a with
  | call t => exact h.goTo t (by decide)
  | round t =>
    simp only [TxCq.step]
    split
    · have h1 := h.goTo t (p := .outside) (by decide)
      exact ⟨h1.ledger, h1.empty, h1.blocked⟩
    · split
      · have h1 := h.poll.goTo t (p := .polled s.pollAndProcessElementTx.2.1) (by simp)
        exact ⟨h1.ledger, h1.empty, h1.blocked⟩
      · exact ⟨h.poll.ledger, h.poll.empty, h.poll.blocked⟩
  | arm t pollSn ok => exact h.arm ha hc
  | wake t got => exact h.wake ha
  | interrupted t => exact h.goTo t (by decide)
  | completion frees =>
    refine ⟨?_, fun hf => Bool.noConfusion hf, h.blocked⟩
    have hl := h.ledger
    simp only [TxCq.step, complete]
    cases harmed : s.armed <;> simpa [harmed] using hl
  | otherPoll sn => exact ⟨h.ledger, h.empty, h.blocked⟩

structure Fresh (s : TxCq) : Prop where
  armed : s.armed = false
  events : s.events = 0
  notificationArmed : s.notificationArmed = false
  outside : ∀ t, s.threads t = .outside

theorem Fresh.inv (h : s.Fresh) : s.Inv where
  ledger := by rw [h.armed, h.events, h.notificationArmed]; rfl
  empty ha := by rw [h.armed] at ha; cases ha
  blocked t hb := by rw [h.outside] at hb; cases hb

/-- **No wake-up is lost in a run in which no completion waits whenever the CQ is armed**; a step after
such a run loses one just if it arms the CQ while a completion waits. -/
theorem no_lost_completion {s₀ s : TxCq} (h₀ : s₀.Fresh)
    (h : Reach step (fun s a => s.admits a ∧ s.Timely a) s₀ s) :
    ¬s.Lost ∧ ∀ a, s.admits a → (¬(s.step a).Lost ↔ s.Timely a) := by
  have hinv : s.Inv := h.inv (I := Inv) h₀.inv fun s a hi ha => hi.step ha.1 ha.2
  refine ⟨hinv.not_lost, fun a ha => ⟨fun hno => ?_, fun hc => (hinv.step ha hc).not_lost⟩⟩
  cases a with
  | arm t pollSn ok =>
    intro harms
    by_contra hne
    rcases s.step_arm t pollSn ok with ⟨-, he⟩ | ⟨hno', -⟩
    · have hl := hinv.ledger
      rw [harms.2.2.1] at hl
      rw [he] at hno
      exact hno ⟨⟨t, Function.update_self ..⟩, hne, (Nat.add_eq_zero_iff.mp hl).1⟩
    · exact hno' harms
  | call | round | wake | interrupted | completion | otherPoll => trivial

def txPolled : TxCq := (({} : TxCq).step (.call 0)).step (.round 0)

theorem txPolled_reach : Reach step (fun s a => s.admits a ∧ s.Timely a) {} txPolled := by
  unfold txPolled
  exact .next (.next .start (TxCqAct.call 0) ⟨rfl, trivial⟩) (TxCqAct.round 0) ⟨⟨rfl, .inl rfl⟩, trivial⟩

theorem txPolled_admits (ok : Bool) : txPolled.admits (.arm 0 0 ok) := by
  refine ⟨rfl, rfl, fun u => ?_⟩
  by_cases hu : u = 0
  · subst hu
    decide
  · simp [txPolled, step, goTo, pollAndProcessElementTx, hu]

/-- The thread arms the CQ and blocks. -/
theorem no_lost_completion_blocked :
    (txPolled.step (.arm 0 0 true)).threads 0 = .blocked ∧ ¬(txPolled.step (.arm 0 0 true)).Lost :=
  ⟨rfl, (no_lost_completion ⟨rfl, rfl, rfl, fun _ => rfl⟩
    (.next txPolled_reach (.arm 0 0 true) ⟨txPolled_admits true, fun _ => rfl⟩)).1⟩

/-- The only completion comes after the empty poll and before the CQ is armed. -/
theorem wakeup_lost :
    Reach step admits {} ((txPolled.step (.completion 1)).step (.arm 0 0 true)) ∧
      Lost ((txPolled.step (.completion 1)).step (.arm 0 0 true)) :=
  ⟨.next (.next (txPolled_reach.mono fun _ _ h => h.1) (.completion 1) trivial) (.arm 0 0 true)
    (txPolled_admits true), ⟨0, rfl⟩, by decide, rfl⟩

end TxCq

end LibvmaTlt.Dev
