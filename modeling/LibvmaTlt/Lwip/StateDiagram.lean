import LibvmaTlt.Lwip.Books

/-!
# The state diagram

`Act.moves` is the diagram of the TCP states: where an action may lead from a state. A connection follows
it along every run. Each arrow leads to a later stage of the connection, so a state that was left is
never entered again.
-/

namespace LibvmaTlt.Lwip

/-- The arrows an arriving segment can take. -/
def TcpState.onInput : TcpState → List TcpState
  | .synSent => [.established, .closed]
  | .synRcvd => [.established, .closeWait, .closed]
  | .established => [.closeWait, .closed]
  | .finWait1 => [.finWait2, .closing, .timeWait, .closed]
  | .finWait2 | .closing => [.timeWait, .closed]
  | .closeWait | .lastAck => [.closed]
  | .closed | .listen | .timeWait => []

/-- The arrows of `tcp_close` and `tcp_shutdown`; closing with data unread goes to `TIME_WAIT`. -/
def TcpState.onClose : TcpState → List TcpState
  | .listen | .synSent => [.closed]
  | .synRcvd => [.finWait1]
  | .established => [.finWait1, .timeWait]
  | .closeWait => [.lastAck]
  | _ => []

def Act.moves : Act → TcpState → List TcpState
  | .input .., s => s.onInput
  | .close .., s | .shutdown .., s => s.onClose
  | .slowChecks .., s => if s = .closed then [] else [.closed]
  | _, _ => []

/-- The diagram's runs: the actions, and the number of arrows taken. -/
inductive Follows : List Act → Nat → TcpState → TcpState → Prop where
  | done (s : TcpState) : Follows [] 0 s s
  | stay {a l n s t} (h : Follows l n s t) : Follows (a :: l) n s t
  | move {a l n s r t} (ha : r ∈ a.moves s) (h : Follows l n r t) : Follows (a :: l) (n + 1) s t

def TcpState.stage : TcpState → Nat
  | .listen => 0
  | .synSent | .synRcvd => 1
  | .established => 2
  | .closeWait | .finWait1 => 3
  | .finWait2 | .closing | .lastAck => 4
  | .timeWait => 5
  | .closed => 6

theorem stage_lt {a : Act} {s t : TcpState} (h : t ∈ a.moves s) : s.stage < t.stage := by
  have hin : ∀ t ∈ s.onInput, s.stage < t.stage := by cases s <;> decide
  have hclose : ∀ t ∈ s.onClose, s.stage < t.stage := by cases s <;> decide
  cases a with
  | input => exact hin t h
  | close | shutdown => exact hclose t h
  | slowChecks =>
    simp only [Act.moves] at h
    split at h
    · cases h
    · obtain rfl := List.mem_singleton.mp h
      cases s <;> first | decide | contradiction
  | _ => cases h

theorem Follows.stage_le {l : List Act} {n : Nat} {s t : TcpState} (h : Follows l n s t) :
    s.stage + n ≤ t.stage := by
  induction h with
  | done s => exact Nat.le_refl _
  | stay _ ih => exact ih
  | move ha _ ih => exact Nat.le_trans (by have := stage_lt ha; omega) ih

/-- The state stays, or is one of `r`. -/
def Moved (r : List TcpState) (s t : TcpState) : Prop := t = s ∨ t ∈ r

variable {env : Env} {cc : CcAlgo} {d : InData} {c : Conn}

theorem tcpRst_state (n : Nat) (seqno ackno : U32) :
    (tcpRst env n seqno ackno c).pcb.state = c.pcb.state := by
  unfold tcpRst
  split <;> rfl

theorem tcpReceive_state : FinTaken c.pcb.state (tcpReceive env cc d c).1.pcb.state := by
  have h := tcpReceiveData_state env d (tcpReceiveAck env cc d c)
  rw [(tcpReceiveAck_ackStep env cc d c).state] at h
  exact h

theorem afterReceive_moved {s : TcpState} (h : FinTaken s c.pcb.state) :
    Moved s.onInput s (afterReceive s d c).1.pcb.state := by
  have hc : Moved s.onInput s c.pcb.state := by
    rcases h with h | ⟨rfl, h⟩ <;> rw [h]
    · exact .inl rfl
    · exact .inr (by decide)
  cases s <;> simp only [afterReceive] <;> repeat' split
  all_goals first
    | exact hc
    | exact .inl rfl
    | exact .inr (.head _)
    | exact .inr (.tail _ (.head _))
    | exact .inr (.tail _ (.tail _ (.head _)))

theorem processState_moved :
    Moved c.pcb.state.onInput c.pcb.state (processState env cc d c).1.pcb.state := by
  have hr := @tcpReceive_state env cc d c
  unfold processState
  split
  · rename_i hs
    unfold processSynSent
    split
    · exact .inl rfl
    split
    · unfold synSentAck
      split
      · exact .inl rfl
      · rw [hs]
        exact .inr (.head _)
    · split
      · exact .inl (tcpRst_state ..)
      · exact .inl rfl
  · rename_i hs
    have hr' := @tcpReceive_state env cc d { c with pcb := { c.pcb with state := .established } }
    unfold processSynRcvd
    rw [hs]
    split
    · split
      · simp only
        split
        · exact .inr (.tail _ (.head _))
        · simp only [Moved]
          rcases hr' with h | ⟨-, h⟩
          · exact .inr (h ▸ .head _)
          · exact .inr (h ▸ .tail _ (.head _))
      · exact .inl ((tcpRst_state ..).trans hs)
    · split
      · refine .inl ?_
        show (tcpRexmit c.pcb).state = _
        unfold tcpRexmit
        split <;> exact hs
      · exact .inl hs
  · exact .inl rfl
  · exact .inl rfl
  · exact .inl rfl
  · exact afterReceive_moved hr

theorem tcpInput_moved (pkt : InPkt) :
    Moved c.pcb.state.onInput c.pcb.state (tcpInput env cc pkt c).conn.pcb.state := by
  have hp : Moved c.pcb.state.onInput c.pcb.state (tcpProcess env cc pkt.optMem pkt.inData
      { c with pcb := c.pcb.marksIn pkt }).1.pcb.state := by
    unfold tcpProcess
    repeat' split
    · exact .inl rfl
    · exact .inl rfl
    · exact .inl rfl
    · exact .inl rfl
    · rename_i r hr
      have hst : r.1.state = c.pcb.state := congrArg (·.2.1) (tcpParseopt_unread hr)
      rw [← hst]
      exact processState_moved
  unfold tcpInput
  split
  · rename_i ha
    have hcl : .closed ∈ c.pcb.state.onInput := by
      unfold pcbInActiveState at ha
      cases hs : c.pcb.state <;> rw [hs] at ha <;> first | decide | cases ha
    simp only
    split
    · exact hp
    split
    · exact .inr hcl
    unfold notify
    split
    · simp only [tcpAbort]
      split
      · exact .inr hcl
      · exact .inr ((tcpRst_state ..).symm ▸ hcl)
    · simp only
      split <;> exact hp
  · unfold tcpTimewaitInput rstReply
    repeat' split
    all_goals first | exact .inl rfl | exact .inl (tcpRst_state ..)

theorem tcpOutput_state (hf : c.fault = false) : (tcpOutput env c).pcb.state = c.pcb.state := by
  unfold tcpOutput
  split
  · exact (tcpSendEmptyAck_ackStep env 0 c).state
  refine outputLoop_inv (fun c' => c'.pcb.state = c.pcb.state) ?_ ?_ _ 0 _ hf ?_
  · intro n c' h
    rcases splitHead_unsent env (forceTransmit env c.pcb).2 c.pcb.wnd n c'.pcb with
      he | ⟨_, _, _, -, -, -, -, -, -, he⟩ <;> rw [he] <;> exact h
  · intro n c' seg rest h _ _ _ _
    obtain ⟨ps⟩ := sendHead_pass env (forceTransmit env c.pcb).2 n c' seg rest
    exact ps.queues.2.1.trans h
  · rcases forceTransmit_cases env c.pcb with he | ⟨_, -, he⟩ | ⟨_, _, -, -, -, -, -, he⟩ <;>
      rw [he] <;> rfl

theorem closeFin_moved {q s : TcpState} {r : List TcpState} (hq : c.pcb.state = q) (hs : s ∈ r) :
    Moved r q (closeFin env s c).1.pcb.state := by
  unfold closeFin
  simp only
  split
  · exact .inr hs
  · rw [← hq]
    rcases tcpSendFin_cases env c.pcb with ⟨_, he, -⟩ | he | ⟨_, _, -, he⟩ <;> rw [he] <;>
      exact .inl rfl

theorem tcpCloseShutdown_moved (rst : Bool) :
    Moved c.pcb.state.onClose c.pcb.state (tcpCloseShutdown env rst c).1.pcb.state := by
  have hp : (tcpPcbPurge (tcpRst env 0 c.pcb.sndNxt c.pcb.rcvNxt c)).pcb.state = c.pcb.state :=
    (tcpPcbPurge_same _).2.trans (tcpRst_state ..)
  unfold tcpCloseShutdown
  split
  · simp only
    split
    · rename_i he
      rw [he]
      exact .inr (.tail _ (.head _))
    · exact .inl hp
  cases hs : c.pcb.state <;> simp only
  case synRcvd | established | closeWait => exact closeFin_moved hs (.head _)
  case listen | synSent => exact .inr (.head _)
  all_goals exact .inl hs

theorem slowChecks_state (ex : Bool) : (slowChecks env ex c).1.pcb.state = c.pcb.state ∨
    (slowChecks env ex c).1.pcb.state = .closed := by
  have hk : (slowKeepalive env c).pcb.state = c.pcb.state := by
    unfold slowKeepalive tcpKeepalive
    repeat' split
    all_goals rfl
  have ho : (slowOoseq env (slowKeepalive env c)).pcb.state = c.pcb.state := by
    unfold slowOoseq
    split <;> exact hk
  unfold slowChecks slowFinish
  simp only
  split
  · exact .inr rfl
  · split <;> exact .inl ho

theorem act_moved (hf : c.fault = false) (a : Act) :
    Moved (a.moves c.pcb.state) c.pcb.state (c.act a).pcb.state := by
  cases a with
  | input env cc pkt => exact tcpInput_moved pkt
  | output env => exact .inl (tcpOutput_state hf)
  | close env => exact tcpCloseShutdown_moved true
  | shutdown env rx tx =>
    simp only [Conn.act, tcpShutdown]
    cases rx <;> repeat' split
    all_goals first | exact .inl rfl | exact tcpCloseShutdown_moved _
  | write env data isDummy =>
    refine .inl ?_
    simp only [Conn.act, Conn.write]
    split
    · rfl
    · rename_i r hr
      exact (tcpWrite_frame (e := r.2) hr).state
  | slowChecks env ex =>
    rcases slowChecks_state ex with h | h
    · exact .inl h
    · by_cases hc : c.pcb.state = .closed
      · exact .inl (h.trans hc.symm)
      · exact .inr (by rw [Act.moves, if_neg hc]; exact h ▸ .head _)
  | slowRto cc => exact .inl rfl
  | slowTimers | recved | rexmit | rexmitRto | rexmitFast =>
    refine .inl ?_
    simp only [Conn.act, slowTimers, tcpKeepalive, tcpRecved, tcpRexmitFast, tcpRexmitRtoRequeue,
      tcpRexmit]
    repeat' split
    all_goals rfl

/-- **A connection follows the state diagram**, whatever the run, and never comes back to a state. -/
theorem run_follows (c : Conn) (acts : List Act) :
    ∃ n, Follows acts n c.pcb.state (c.run acts).pcb.state ∧
      c.pcb.state.stage + n ≤ (c.run acts).pcb.state.stage := by
  suffices h : ∃ n, Follows acts n c.pcb.state (c.run acts).pcb.state from
    h.imp fun _ h => ⟨h, h.stage_le⟩
  induction acts generalizing c with
  | nil => exact ⟨0, .done _⟩
  | cons a acts ih =>
    obtain ⟨n, hn⟩ := ih (c.step a)
    cases hf : c.fault with
    | true =>
      rw [Conn.step_fault a hf] at hn
      exact ⟨n, .stay (by rw [Conn.run, List.foldl_cons, Conn.step_fault a hf]; exact hn)⟩
    | false =>
      have hm := act_moved hf a
      rw [← Conn.step_eq a hf] at hm
      rcases hm with h | h
      · exact ⟨n, .stay (h ▸ hn)⟩
      · exact ⟨n + 1, .move h hn⟩

end LibvmaTlt.Lwip
