import LibvmaTlt.Lib.DeltaList
import LibvmaTlt.Lib.Reach

/-!
# The timers of the internal thread

`delta_timer.cpp` keeps the registered timers in a delta list, in milliseconds (`TIMER_US_GRAN` is 0),
and `event_handler_manager::thread_loop` drives it: it brings the list up to date, calls the handlers
of expired timers or waits for events, then works off the registration actions and looks at the timers
again. The differences in the list count from `m_ts_last`, the reading of the last update, and not from
the moment a timer is put in.
-/

namespace LibvmaTlt.Event

open DeltaList

/-! ## The list of timers -/

/-- `struct timer_node_t`, without the difference, which is in the list. `id` is its address. -/
structure TimerNode where
  id : Nat
  handler : Nat
  origTimeMsec : Nat
  periodic : Bool
  deriving DecidableEq

abbrev TimerList := List (Entry TimerNode)

def insertToList (l : TimerList) (n : TimerNode) : TimerList := insert n.origTimeMsec n l

def removeFromList (l : TimerList) (id : Nat) : TimerList := remove (·.id == id) l

def findNode (l : TimerList) (id : Nat) : Option (Entry TimerNode) := l.find? (·.val.id == id)

def wakeupTimer (l : TimerList) (id : Nat) : TimerList :=
  match findNode l id with
  | some e => insert 0 e.val (removeFromList l id)
  | none => l

/-- `timer::remove_timer`: without a node the first one of the handler is meant. -/
def removeTimer (l : TimerList) (node : Option Nat) (handler : Nat) : TimerList :=
  let entry := match node with
    | some id => findNode l id
    | none => l.find? (·.val.handler == handler)
  match entry with
  | some e => if e.val.handler = handler then removeFromList l e.val.id else l
  | none => l

def removeAllTimers (l : TimerList) (handler : Nat) : TimerList :=
  removeAll (·.handler == handler) 0 l

/-! ## Time -/

abbrev nsecPerMsec : Nat := 1000000

def toInt32 (n : Int) : Int := Int.bmod n 4294967296

/-- The loop of `timer::update_timeout`; `delta_msec` is an `int`, a difference an `unsigned int`. -/
def updateLoop : Int → TimerList → TimerList
  | _, [] => []
  | deltaMsec, e :: l =>
    if deltaMsec ≤ 0 then e :: l
    else if deltaMsec < toInt32 e.delta then
      ⟨((e.delta - deltaMsec) % 4294967296).toNat, e.val⟩ :: l
    else ⟨0, e.val⟩ :: updateLoop (toInt32 (deltaMsec - e.delta)) l

/-- What happened, with the clock: a registration was worked off, a handler called, a timer woken. -/
inductive Ev where
  | registered (id msec t : Nat)
  | called (id msec t : Nat)
  | woken (id : Nat)
  deriving DecidableEq

def Ev.id : Ev → Nat
  | .registered id _ _ | .called id _ _ | .woken id => id

/-- The internal thread: the list, `m_ts_last` and the clock in nanoseconds, and what happened so far,
the newest first. -/
structure Thread where
  list : TimerList := []
  tsLast : Nat := 0
  clock : Nat := 0
  trace : List Ev := []
  deriving DecidableEq

/-- `timer::update_timeout`, reading the clock at `now`. -/
def Thread.updateTimeout (s : Thread) (now : Nat) : Thread :=
  let deltaMsec := toInt32 (((now : Int) - s.tsLast) / nsecPerMsec)
  { s with
    list := updateLoop deltaMsec s.list
    tsLast := if 0 < deltaMsec then now else s.tsLast
    clock := now }

def Thread.expired (s : Thread) : Bool := s.list.head?.any (·.delta == 0)

/-! ## Expired timers -/

/-- One turn of the loop over expired timers: the clock when the handler would be called, and whether the
node's lock can be taken. -/
structure Turn where
  clock : Nat
  lockFree : Bool := true
  deriving DecidableEq

def nextId : TimerList → Nat → Option Nat
  | e :: f :: l, id => if e.val.id = id then some f.val.id else nextId (f :: l) id
  | _, _ => none

/-- What one turn does to the list: a periodic timer is put back, the other one freed. -/
def reinsert (l : TimerList) (n : TimerNode) : TimerList :=
  if n.periodic then insertToList (removeFromList l n.id) n else removeFromList l n.id

def Thread.call (s : Thread) (turn : Turn) (n : TimerNode) : Thread :=
  { s with
    clock := turn.clock
    trace := if turn.lockFree then .called n.id n.origTimeMsec turn.clock :: s.trace else s.trace }

/-- The loop of `timer::process_registered_timers` with `iter` at a node. -/
def Thread.processLoop : List Turn → Option Nat → Thread → Thread
  | turn :: rest, some id, s =>
    match findNode s.list id with
    | some e =>
      if e.delta ≠ 0 then s
      else
        processLoop rest (nextId s.list id)
          { s.call turn e.val with list := reinsert s.list e.val }
    | none => s
  | _, _, s => s

def Thread.processRegisteredTimers (s : Thread) (turns : List Turn) : Thread :=
  Thread.processLoop turns (s.list.head?.map (·.val.id)) s

/-! ## The thread's loop -/

/-- The registration actions that concern timers outside groups. -/
inductive RegAction where
  | registerTimer (n : TimerNode)
  | wakeupTimer (id : Nat)
  | unregisterTimer (id : Option Nat) (handler : Nat)
  | unregisterTimersAndDelete (handler : Nat)
  deriving DecidableEq

/-- `event_handler_manager::handle_registration_action` when the clock reads `t`. -/
def Thread.handleRegistrationAction (s : Thread) (a : RegAction) (t : Nat) : Thread :=
  match a with
  | .registerTimer n =>
    { s with list := insertToList s.list n, clock := t
             trace := .registered n.id n.origTimeMsec t :: s.trace }
  | .wakeupTimer id =>
    { s with list := Event.wakeupTimer s.list id, clock := t, trace := .woken id :: s.trace }
  | .unregisterTimer id handler => { s with list := removeTimer s.list id handler, clock := t }
  | .unregisterTimersAndDelete handler =>
    { s with list := removeAllTimers s.list handler, clock := t }

def Thread.handleActions (s : Thread) : List (RegAction × Nat) → Thread
  | [] => s
  | a :: rest => (s.handleRegistrationAction a.1 a.2).handleActions rest

/-- What an iteration meets: two readings of the clock, the turns of the two loops over expired timers,
whether `epoll_wait` succeeds, and the queued actions. -/
structure Iter where
  now : Nat
  turns : List Turn := []
  epollOk : Bool := true
  actions : List (RegAction × Nat) := []
  nowAfter : Nat := now
  turnsAfter : List Turn := []

/-- One iteration of `event_handler_manager::thread_loop`. -/
def Thread.iterate (s : Thread) (i : Iter) : Thread :=
  let s := s.updateTimeout i.now
  if s.expired then s.processRegisteredTimers i.turns
  else if !i.epollOk then s
  else
    let s := (s.handleActions i.actions).updateTimeout i.nowAfter
    if s.expired then s.processRegisteredTimers i.turnsAfter else s

/-! ## Conditions along an iteration -/

def turnsAll (P : Thread → Turn → TimerNode → Bool) : List Turn → Option Nat → Thread → Bool
  | turn :: rest, some id, s =>
    match findNode s.list id with
    | some e =>
      e.delta ≠ 0 ||
        (P s turn e.val && turnsAll P rest (nextId s.list id)
          { s.call turn e.val with list := reinsert s.list e.val })
    | none => true
  | _, _, _ => true

def actionsAll (Q : Thread → RegAction → Nat → Bool) : List (RegAction × Nat) → Thread → Bool
  | [], _ => true
  | a :: rest, s => Q s a.1 a.2 && actionsAll Q rest (s.handleRegistrationAction a.1 a.2)

def Iter.all (U : Thread → Nat → Bool) (P : Thread → Turn → TimerNode → Bool)
    (Q : Thread → RegAction → Nat → Bool) (s : Thread) (i : Iter) : Bool :=
  U s i.now &&
    let s := s.updateTimeout i.now
    if s.expired then turnsAll P i.turns (s.list.head?.map (·.val.id)) s
    else if !i.epollOk then true
    else
      actionsAll Q i.actions s && U (s.handleActions i.actions) i.nowAfter &&
        let s := (s.handleActions i.actions).updateTimeout i.nowAfter
        !s.expired || turnsAll P i.turnsAfter (s.list.head?.map (·.val.id)) s

def RegAction.fresh (l : TimerList) : RegAction → Bool
  | .registerTimer n => (findNode l n.id).isNone
  | _ => true

def turnClocked (s : Thread) (turn : Turn) (_ : TimerNode) : Bool := s.clock ≤ turn.clock

/-- The clock does not go back, and nodes come from the allocator. -/
def actionClocked (s : Thread) (a : RegAction) (t : Nat) : Bool := s.clock ≤ t && a.fresh s.list

def Iter.clocked (s : Thread) (i : Iter) : Bool :=
  i.all (fun s now => s.clock ≤ now) turnClocked actionClocked s

/-- The handler of a periodic timer is called at most a millisecond after `m_ts_last`. -/
def turnTimely (s : Thread) (turn : Turn) (n : TimerNode) : Bool :=
  !n.periodic || !turn.lockFree || turn.clock ≤ s.tsLast + nsecPerMsec

/-- A registration is worked off at most a millisecond after `m_ts_last`, and its timeout is positive
as an `int`. -/
def actionTimely (s : Thread) (a : RegAction) (t : Nat) : Bool :=
  match a with
  | .registerTimer n => n.origTimeMsec < 2147483648 && t ≤ s.tsLast + nsecPerMsec
  | _ => true

def Iter.timely (s : Thread) (i : Iter) : Bool := i.all (fun _ _ => true) turnTimely actionTimely s

/-! ## Timers that fire early -/

def Ev.arms : Ev → Option (Nat × Nat)
  | .registered _ msec t | .called _ msec t => some (t, msec)
  | .woken _ => none

/-- Since when a timer runs, and with which timeout: since its registration or its last call, unless it
was woken after that. -/
def armed (id : Nat) : List Ev → Option (Nat × Nat)
  | [] => none
  | ev :: trace => if ev.id = id then ev.arms else armed id trace

/-- Every call came at most a millisecond before the timeout was over. -/
def NeverEarly (trace : List Ev) : Prop :=
  ∀ post id m c pre, trace = post ++ .called id m c :: pre →
    ∀ t msec, armed id pre = some (t, msec) → t + msec * nsecPerMsec ≤ c + nsecPerMsec

theorem NeverEarly.cons {ev : Ev} {trace : List Ev} (h : NeverEarly trace)
    (hev : ∀ id m c, ev = .called id m c →
      ∀ t msec, armed id trace = some (t, msec) → t + msec * nsecPerMsec ≤ c + nsecPerMsec) :
    NeverEarly (ev :: trace) := by
  intro post id m c pre he
  cases post with
  | nil =>
    obtain ⟨rfl, rfl⟩ := List.cons.inj he
    exact hev id m c rfl
  | cons x post =>
    obtain ⟨rfl, rfl⟩ := List.cons.inj he
    exact h post id m c pre rfl

variable {id now : Nat}

theorem armed_cons_ne {ev : Ev} (trace : List Ev) (h : ev.id ≠ id) :
    armed id (ev :: trace) = armed id trace := by
  rw [armed, if_neg h]

/-- The invariant of the thread: a timer is due no more than a millisecond before its timeout is
over. -/
structure Inv (s : Thread) : Prop where
  nodup : ((s.list.map Entry.val).map TimerNode.id).Nodup
  bound : ∀ x ∈ dues 0 s.list, x.1 ≤ x.2.origTimeMsec ∧ x.2.origTimeMsec < 2147483648
  due : ∀ x ∈ dues 0 s.list, ∀ t msec, armed x.2.id s.trace = some (t, msec) →
    msec = x.2.origTimeMsec ∧ t + msec * nsecPerMsec ≤ s.tsLast + x.1 * nsecPerMsec + nsecPerMsec
  last : s.tsLast ≤ s.clock
  early : NeverEarly s.trace

/-! ## Time passes -/

theorem toInt32_eq {n : Int} (h : -2147483648 ≤ n) (h' : n < 2147483648) : toInt32 n = n := by
  unfold toInt32
  rw [Int.bmod_def]
  split <;> omega

theorem elapsed_spec {last : Nat} (h : last ≤ now) :
    toInt32 (((now : Int) - last) / nsecPerMsec) < 2147483648 ∧
      toInt32 (((now : Int) - last) / nsecPerMsec) * 1000000 ≤ (now : Int) - last := by
  unfold toInt32
  rw [Int.bmod_def]
  simp only [nsecPerMsec]
  split <;> omega

variable {l : TimerList}

theorem updateLoop_eq {deltaMsec : Int} (hl : ∀ e ∈ l, e.delta < 2147483648)
    (hd : deltaMsec < 2147483648) : updateLoop deltaMsec l = advance deltaMsec.toNat l := by
  induction l generalizing deltaMsec with
  | nil => rfl
  | cons e l ih =>
    have he := hl e (by simp)
    have hcast : toInt32 e.delta = e.delta := toInt32_eq (by omega) (by omega)
    unfold updateLoop
    split
    · rename_i h0
      rw [Int.toNat_of_nonpos h0, advance_zero]
    unfold advance
    rw [hcast]
    clear hcast
    split
    · rw [if_pos (by omega)]
      congr 2
      omega
    have hsub : toInt32 (deltaMsec - e.delta) = deltaMsec - e.delta :=
      toInt32_eq (by omega) (by omega)
    rw [hsub]
    clear hsub
    rw [if_neg (by omega), ih (fun f hf => hl f (by simp [hf])) (by omega)]
    congr 2
    omega

variable {s : Thread}

theorem Inv.delta_lt (h : Inv s) : ∀ e ∈ s.list, e.delta < 2147483648 := by
  intro e he
  obtain ⟨t, ht, hle⟩ := @exists_mem_dues _ 0 s.list e he
  have := h.bound _ ht
  simp only at this
  omega

theorem due_update {t msec T T' last M : Nat} {d : Int} (hd : d * M ≤ (now : Int) - last)
    (hT : T' ≤ T + d.toNat) (h : t + msec * M ≤ last + T' * M + M) :
    t + msec * M ≤ (if 0 < d then now else last) + T * M + M := by
  have hTM := Nat.mul_le_mul_right M hT
  rw [Nat.add_mul] at hTM
  split
  · rename_i h0
    have hmul : (d.toNat : Int) * M = d * M := by rw [Int.toNat_of_nonneg (Int.le_of_lt h0)]
    omega
  · rename_i h0
    rw [Int.toNat_of_nonpos (by omega), Nat.zero_mul] at hTM
    omega

theorem Inv.updateTimeout (h : Inv s) (hnow : s.clock ≤ now) : Inv (s.updateTimeout now) := by
  have hlast := h.last
  obtain ⟨hlt, hM⟩ := elapsed_spec (Nat.le_trans h.last hnow)
  unfold Thread.updateTimeout
  generalize toInt32 (((now : Int) - s.tsLast) / nsecPerMsec) = d at hlt hM ⊢
  simp only [updateLoop_eq h.delta_lt hlt]
  refine ⟨?_, ?_, ?_, ?_, h.early⟩
  · show (((advance d.toNat s.list).map Entry.val).map TimerNode.id).Nodup
    rw [map_val_advance]
    exact h.nodup
  · rintro ⟨T, n⟩ hx
    obtain ⟨T', hx', -, hT⟩ := mem_dues_advance hx
    have := h.bound _ hx'
    simp only at this ⊢
    omega
  · rintro ⟨T, n⟩ hx t msec ha
    obtain ⟨T', hx', hT', hT⟩ := mem_dues_advance hx
    obtain ⟨hm, hdue⟩ := h.due _ hx' t msec ha
    exact ⟨hm, due_update hM hT' hdue⟩
  · simp only
    split <;> omega

/-! ## Registration actions -/

def ids (l : TimerList) : List Nat := (l.map Entry.val).map TimerNode.id

theorem mem_ids_of_mem_dues {b : Nat} {x : Nat × TimerNode} (h : x ∈ dues b l) : x.2.id ∈ ids l := by
  unfold ids
  rw [← @map_snd_dues _ b l]
  exact List.mem_map_of_mem (List.mem_map_of_mem h)

theorem ids_insert_perm (d : Nat) (n : TimerNode) (l : TimerList) :
    (ids (insert d n l)).Perm (n.id :: ids l) := map_val_insert_perm.map _

theorem ids_removeFromList (l : TimerList) (id : Nat) :
    ids (removeFromList l id) = (ids l).erase id := by
  unfold removeFromList ids
  induction l with
  | nil => rfl
  | cons e l ih =>
    unfold remove
    by_cases he : e.val.id = id
    · rw [if_pos (by simpa using he), map_val_delay]
      simp [he]
    · rw [if_neg (by simpa using he), List.map_cons, List.map_cons, List.map_cons, List.map_cons,
        List.erase_cons_tail (by simpa using he), ih]

variable {e : Entry TimerNode}

theorem findNode_spec (h : findNode l id = some e) : e ∈ l ∧ e.val.id = id :=
  ⟨List.mem_of_find?_eq_some h, by simpa using List.find?_some h⟩

theorem not_mem_ids_of_findNode (h : findNode l id = none) : id ∉ ids l := by
  intro hm
  simp only [ids, List.map_map, List.mem_map] at hm
  obtain ⟨e, he, hid⟩ := hm
  exact List.find?_eq_none.mp h e he (by simpa using hid)

theorem Inv.of_subset {s' : Thread} (h : Inv s) (hd : ∀ x ∈ dues 0 s'.list, x ∈ dues 0 s.list)
    (hids : (ids s'.list).Nodup) (htr : ∀ id ∈ ids s'.list, armed id s'.trace = armed id s.trace)
    (hts : s'.tsLast = s.tsLast) (hc : s.clock ≤ s'.clock) (he : NeverEarly s'.trace) :
    Inv s' where
  nodup := hids
  bound x hx := h.bound x (hd x hx)
  due x hx := by
    rw [htr _ (mem_ids_of_mem_dues hx), hts]
    exact h.due x (hd x hx)
  last := by
    rw [hts]
    exact Nat.le_trans h.last hc
  early := he

theorem Inv.of_insert {s' : Thread} {n : TimerNode} {d : Nat} (h : Inv s)
    (hl : ∀ x ∈ dues 0 l, x ∈ dues 0 s.list) (hids : (ids l).Nodup) (hn : n.id ∉ ids l)
    (hs' : s'.list = insert d n l) (hd : d ≤ n.origTimeMsec) (hn31 : n.origTimeMsec < 2147483648)
    (htr : ∀ id ≠ n.id, armed id s'.trace = armed id s.trace)
    (hdue : ∀ t msec, armed n.id s'.trace = some (t, msec) → msec = n.origTimeMsec ∧
      t + msec * nsecPerMsec ≤ s.tsLast + d * nsecPerMsec + nsecPerMsec)
    (hts : s'.tsLast = s.tsLast) (hc : s.clock ≤ s'.clock) (he : NeverEarly s'.trace) : Inv s' where
  nodup := by
    show (ids s'.list).Nodup
    rw [hs', (ids_insert_perm d n l).nodup_iff]
    exact List.nodup_cons.mpr ⟨hn, hids⟩
  bound x hx := by
    rw [hs', mem_dues_insert] at hx
    rcases hx with rfl | hx
    · exact ⟨by simpa using hd, hn31⟩
    · exact h.bound x (hl x hx)
  due x hx t msec ha := by
    rw [hts]
    rw [hs', mem_dues_insert] at hx
    rcases hx with rfl | hx
    · simpa using hdue t msec ha
    · have hne : x.2.id ≠ n.id := fun hid => hn (hid ▸ mem_ids_of_mem_dues hx)
      exact h.due x (hl x hx) t msec (htr _ hne ▸ ha)
  last := by
    rw [hts]
    exact Nat.le_trans h.last hc
  early := he

theorem Inv.removeFromList_nodup (h : Inv s) (id : Nat) :
    (ids (removeFromList s.list id)).Nodup ∧ id ∉ ids (removeFromList s.list id) := by
  rw [ids_removeFromList]
  exact ⟨h.nodup.erase id, h.nodup.not_mem_erase⟩

theorem Inv.handleRegistrationAction (h : Inv s) {a : RegAction} {t : Nat} (hc : actionClocked s a t)
    (ht : actionTimely s a t) :
    Inv (s.handleRegistrationAction a t) := by
  simp only [actionClocked, Bool.and_eq_true, decide_eq_true_eq] at hc
  obtain ⟨hc, hf⟩ := hc
  cases a with
  | registerTimer n =>
    have hn := not_mem_ids_of_findNode (Option.isNone_iff_eq_none.mp hf)
    simp only [actionTimely, Bool.and_eq_true, decide_eq_true_eq] at ht
    refine h.of_insert (l := s.list) (n := n) (fun _ hx => hx) h.nodup hn rfl (Nat.le_refl _) ht.1
      (fun id hid => armed_cons_ne _ hid.symm) ?_ rfl hc (h.early.cons (by simp))
    intro t' msec ha
    have harm : armed n.id (.registered n.id n.origTimeMsec t :: s.trace) = some (t, n.origTimeMsec) :=
      if_pos rfl
    obtain ⟨rfl, rfl⟩ := Prod.mk.inj (Option.some.inj (harm.symm.trans ha))
    exact ⟨rfl, by omega⟩
  | wakeupTimer id =>
    have harm : armed id (.woken id :: s.trace) = none := if_pos rfl
    have hother : ∀ id' ≠ id, armed id' (.woken id :: s.trace) = armed id' s.trace :=
      fun id' hid => armed_cons_ne _ hid.symm
    show Inv { s with list := wakeupTimer s.list id, clock := t, trace := .woken id :: s.trace }
    cases hf : findNode s.list id with
    | none =>
      rw [show wakeupTimer s.list id = s.list by simp [wakeupTimer, hf]]
      have hn := not_mem_ids_of_findNode hf
      exact h.of_subset (fun _ hx => hx) h.nodup
        (fun id' hid => hother id' fun heq => hn (heq ▸ hid)) rfl hc (h.early.cons (by simp))
    | some e =>
      obtain ⟨he, rfl⟩ := findNode_spec hf
      obtain ⟨T, hT, -⟩ := @exists_mem_dues _ 0 s.list e he
      obtain ⟨hnd, hni⟩ := h.removeFromList_nodup e.val.id
      rw [show wakeupTimer s.list e.val.id = insert 0 e.val (removeFromList s.list e.val.id) by
        simp [wakeupTimer, hf]]
      exact h.of_insert (l := removeFromList s.list e.val.id) (n := e.val)
        (fun _ hx => mem_dues_of_remove hx) hnd hni rfl (Nat.zero_le _) (h.bound _ hT).2
        hother (by simp [harm]) rfl hc (h.early.cons (by simp))
  | unregisterTimer id handler =>
    have key : ∀ l, l = s.list ∨ (∃ id, l = removeFromList s.list id) →
        Inv { s with list := l, clock := t } := by
      rintro l (rfl | ⟨id, rfl⟩)
      · exact h.of_subset (fun _ hx => hx) h.nodup (fun _ _ => rfl) rfl hc h.early
      · exact h.of_subset (fun _ hx => mem_dues_of_remove hx) (h.removeFromList_nodup id).1
          (fun _ _ => rfl) rfl hc h.early
    refine key _ ?_
    unfold removeTimer
    simp only
    split
    · split
      · exact .inr ⟨_, rfl⟩
      · exact .inl rfl
    · exact .inl rfl
  | unregisterTimersAndDelete handler =>
    refine h.of_subset (fun x hx => by simpa using mem_dues_of_removeAll hx) ?_ (fun _ _ => rfl) rfl
      hc h.early
    exact h.nodup.sublist (map_val_removeAll_sublist.map _)

/-! ## Expired timers -/

/-- The loop over expired timers stands at the head of the list, or at a timer that is not expired. -/
def AtFront (iter : Option Nat) (l : TimerList) : Prop :=
  ∀ id, iter = some id →
    l.head?.map (·.val.id) = some id ∨ ∀ e ∈ l, e.val.id = id → e.delta ≠ 0

theorem nextId_head (e : Entry TimerNode) (rest : TimerList) :
    nextId (e :: rest) e.val.id = rest.head?.map (·.val.id) := by
  cases rest <;> simp [nextId]

theorem removeFromList_head (h0 : e.delta = 0) (rest : TimerList) :
    removeFromList (e :: rest) e.val.id = rest := by
  unfold removeFromList remove
  rw [if_pos (by simp), h0, delay_zero]

theorem atFront_reinsert {rest : TimerList} (h0 : e.delta = 0) (hnd : (ids (e :: rest)).Nodup) :
    AtFront (nextId (e :: rest) e.val.id) (reinsert (e :: rest) e.val) := by
  rw [nextId_head]
  unfold reinsert insertToList
  rw [removeFromList_head h0]
  intro id hid
  cases rest with
  | nil => simp at hid
  | cons f r =>
    simp only [List.head?_cons, Option.map_some, Option.some.injEq] at hid
    subst hid
    split
    · unfold DeltaList.insert
      split
      · exact .inl rfl
      -- the timer came back in front of the next one, which is then not expired
      rename_i hlt
      right
      simp only [ids, List.map_cons, List.nodup_cons, List.mem_cons, not_or] at hnd
      obtain ⟨⟨hef, -⟩, hf, -⟩ := hnd
      intro g hg hgid
      rcases List.mem_cons.mp hg with rfl | hg
      · exact absurd hgid hef
      · rcases List.mem_cons.mp hg with rfl | hg
        · show f.delta - e.val.origTimeMsec ≠ 0
          omega
        · exact absurd (hgid ▸ List.mem_map_of_mem (List.mem_map_of_mem hg)) hf
    · exact .inl rfl

theorem Inv.turn {s : Thread} (h : Inv s) {e : Entry TimerNode} {rest : TimerList}
    (hl : s.list = e :: rest) (h0 : e.delta = 0) {turn : Turn} (hc : s.clock ≤ turn.clock)
    (ht : e.val.periodic = true → turn.lockFree = true → turn.clock ≤ s.tsLast + nsecPerMsec) :
    Inv { s.call turn e.val with list := reinsert s.list e.val } := by
  have hdues : dues 0 s.list = (0, e.val) :: dues 0 rest := by rw [hl, dues, h0]
  have hrest : ∀ x ∈ dues 0 rest, x ∈ dues 0 s.list := fun x hx => hdues ▸ List.mem_cons_of_mem _ hx
  have hnd : (ids (e :: rest)).Nodup := hl ▸ h.nodup
  obtain ⟨hni, hndr⟩ := List.nodup_cons.mp hnd
  have hdue := h.due (0, e.val) (by rw [hdues]; exact List.mem_cons_self)
  have hb := (h.bound (0, e.val) (by rw [hdues]; exact List.mem_cons_self)).2
  have hearly : NeverEarly (s.call turn e.val).trace := by
    unfold Thread.call
    split
    · refine h.early.cons ?_
      intro id m c hev t msec ha
      obtain ⟨rfl, rfl, rfl⟩ := Ev.called.inj hev
      have := (hdue t msec ha).2
      have hlast := h.last
      simp only [Nat.zero_mul] at this
      omega
    · exact h.early
  have hother : ∀ id ≠ e.val.id, armed id (s.call turn e.val).trace = armed id s.trace := by
    intro id hid
    unfold Thread.call
    split
    · exact armed_cons_ne _ (Ne.symm hid)
    · rfl
  have hrem : removeFromList s.list e.val.id = rest := by rw [hl, removeFromList_head h0]
  unfold reinsert insertToList
  rw [hrem]
  split
  · rename_i hp
    refine h.of_insert (l := rest) (n := e.val) hrest hndr hni rfl (Nat.le_refl _) hb hother ?_ rfl hc
      hearly
    intro t msec ha
    cases hfree : turn.lockFree with
    | true =>
      have harm : armed e.val.id (s.call turn e.val).trace =
          some (turn.clock, e.val.origTimeMsec) := by
        simp [Thread.call, hfree, armed, Ev.id, Ev.arms]
      obtain ⟨rfl, rfl⟩ := Prod.mk.inj (Option.some.inj (harm.symm.trans ha))
      have := ht hp hfree
      exact ⟨rfl, by omega⟩
    | false =>
      have harm : (s.call turn e.val).trace = s.trace := by simp [Thread.call, hfree]
      obtain ⟨hm, hle⟩ := hdue t msec (harm ▸ ha)
      simp only [Nat.zero_mul] at hle
      exact ⟨hm, by omega⟩
  · exact h.of_subset hrest hndr (fun id hid => hother id fun heq => hni (heq ▸ hid)) rfl hc hearly

theorem Inv.processLoop {turns : List Turn} {iter : Option Nat} (h : Inv s) (hf : AtFront iter s.list)
    (hc : turnsAll turnClocked turns iter s) (ht : turnsAll turnTimely turns iter s) :
    Inv (Thread.processLoop turns iter s) := by
  induction turns generalizing iter s with
  | nil => exact h
  | cons turn rest ih =>
    cases iter with
    | none => exact h
    | some id =>
      unfold Thread.processLoop
      unfold turnsAll at hc ht
      cases hfn : findNode s.list id with
      | none => exact h
      | some e =>
        simp only [hfn] at hc ht ⊢
        obtain ⟨he, hid⟩ := findNode_spec hfn
        split
        · exact h
        rename_i hd
        have h0 : e.delta = 0 := by simpa using hd
        simp only [h0, ne_eq, not_true_eq_false, decide_false, Bool.false_or,
          Bool.and_eq_true] at hc ht
        -- the entry found is the head of the list
        have hhead : ∃ r, s.list = e :: r := by
          rcases hf id rfl with hh | hh
          · obtain ⟨g, r, hgr⟩ := List.exists_cons_of_ne_nil (List.ne_nil_of_mem he)
            have hg : g.val.id = id := by simpa [hgr] using hh
            have : findNode s.list id = some g := by
              unfold findNode
              rw [hgr, List.find?_cons_of_pos (by simpa using hg)]
            rw [hfn] at this
            exact ⟨r, (Option.some.inj this) ▸ hgr⟩
          · exact absurd h0 (hh e he hid)
        obtain ⟨r, hr⟩ := hhead
        have hturn := h.turn hr h0 (of_decide_eq_true hc.1) (fun hp hl => by
          simpa [turnTimely, hp, hl] using ht.1)
        refine ih hturn ?_ hc.2 ht.2
        subst hid
        show AtFront (nextId s.list e.val.id) (reinsert s.list e.val)
        rw [hr]
        exact atFront_reinsert h0 (hr ▸ h.nodup)

theorem Inv.processRegisteredTimers (h : Inv s) {turns : List Turn}
    (hc : turnsAll turnClocked turns (s.list.head?.map (·.val.id)) s)
    (ht : turnsAll turnTimely turns (s.list.head?.map (·.val.id)) s) :
    Inv (s.processRegisteredTimers turns) :=
  h.processLoop (fun _ hid => .inl hid) hc ht

/-! ## Runs -/

theorem Inv.handleActions (h : Inv s) {actions : List (RegAction × Nat)}
    (hc : actionsAll actionClocked actions s) (ht : actionsAll actionTimely actions s) :
    Inv (s.handleActions actions) := by
  induction actions generalizing s with
  | nil => exact h
  | cons a rest ih =>
    simp only [actionsAll, Bool.and_eq_true] at hc ht
    exact ih (h.handleRegistrationAction hc.1 ht.1) hc.2 ht.2

theorem Inv.iterate (h : Inv s) {i : Iter} (hc : i.clocked s) (ht : i.timely s) :
    Inv (s.iterate i) := by
  unfold Iter.clocked at hc
  unfold Iter.timely at ht
  simp only [Iter.all, Bool.and_eq_true, decide_eq_true_eq, Bool.true_and] at hc ht
  obtain ⟨hnow, hc⟩ := hc
  have h1 := h.updateTimeout hnow
  unfold Thread.iterate
  simp only
  split
  · rename_i hx
    rw [if_pos hx] at hc ht
    exact h1.processRegisteredTimers hc ht
  rename_i hx
  rw [if_neg hx] at hc ht
  split
  · exact h1
  rename_i hep
  rw [if_neg hep] at hc ht
  simp only [Bool.and_eq_true, decide_eq_true_eq, Bool.or_eq_true, Bool.not_eq_true'] at hc ht
  obtain ⟨⟨hac, hafter⟩, htc⟩ := hc
  obtain ⟨⟨hat, -⟩, htt⟩ := ht
  have h2 := (h1.handleActions hac hat).updateTimeout hafter
  split
  · rename_i hx2
    exact h2.processRegisteredTimers (htc.resolve_left (by simp [hx2]))
      (htt.resolve_left (by simp [hx2]))
  · exact h2

/-- In every run whose registrations are worked off, and whose periodic handlers are called, within a
millisecond of the last update, no timer fires early. -/
theorem timers_never_early {t₀ : Nat} {s : Thread}
    (h : Reach Thread.iterate (fun s i => i.clocked s ∧ i.timely s) { tsLast := t₀, clock := t₀ } s) :
    NeverEarly s.trace := by
  refine (h.inv (I := Inv) ⟨?_, ?_, ?_, Nat.le_refl _, ?_⟩ fun s i hi hok => hi.iterate hok.1 hok.2).early
  · exact List.nodup_nil
  · simp [dues]
  · simp [dues]
  · intro post id m c pre he
    simp at he

def promptIter : Iter where
  now := 0
  actions := [(.registerTimer ⟨1, 7, 100, true⟩, 500000)]
  nowAfter := 600000

def callIter : Iter where
  now := 100000000
  turns := [{ clock := 100000500 }]

theorem timers_never_early_prompt :
    ((Thread.iterate {} promptIter).iterate callIter).trace =
        [.called 1 100 100000500, .registered 1 100 500000] ∧
      NeverEarly ((Thread.iterate {} promptIter).iterate callIter).trace := by
  refine ⟨by decide +kernel, @timers_never_early 0 _ (.next (.next .start promptIter ?_) callIter ?_)⟩
  · exact ⟨by decide +kernel, by decide +kernel⟩
  · exact ⟨by decide +kernel, by decide +kernel⟩

/-- The thread waits ten seconds for the first registration, of a timer of 100 ms. -/
def lateIter : Iter where
  now := 0
  actions := [(.registerTimer ⟨1, 7, 100, false⟩, 10000000000)]
  nowAfter := 10000000000
  turnsAfter := [{ clock := 10000000000 }]

/-- Its handler is called at once. -/
theorem firstTimer_early : lateIter.clocked {} ∧ ¬NeverEarly (Thread.iterate {} lateIter).trace := by
  refine ⟨by decide +kernel, fun h => ?_⟩
  have htr : (Thread.iterate {} lateIter).trace =
      [.called 1 100 10000000000, .registered 1 100 10000000000] := by decide +kernel
  have := h [] 1 100 10000000000 _ htr 10000000000 100 rfl
  simp only [nsecPerMsec] at this
  omega

end LibvmaTlt.Event
