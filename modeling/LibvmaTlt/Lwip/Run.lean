import LibvmaTlt.Lib.Reach
import LibvmaTlt.Lwip.Tcp

/-!
# Runs of a connection

An `Act` is a call into the stack or a part of one: a function that ends in a call of `tcp_output` is
cut before it, and `output` is an action of its own. Every interleaving of the calls is a run of these
actions (`l3LevelTcpInput_acts`, `tcpSlowtmr_acts`). A connection whose step went wrong stays as it is.
-/

namespace LibvmaTlt.Lwip

inductive Act where
  | write (env : Env) (data : List U8) (isDummy : Bool)
  | output (env : Env)
  | input (env : Env) (cc : CcAlgo) (pkt : InPkt)
  | recved (len : U32)
  | rexmit
  | rexmitRto
  | rexmitFast (cc : CcAlgo)
  | close (env : Env)
  | shutdown (env : Env) (shutRx shutTx : Bool)
  | slowTimers (env : Env)
  | slowRto (cc : CcAlgo)
  | slowChecks (env : Env) (exhausted : Bool)

def Act.isCall : Act → Bool
  | .input .. => false
  | _ => true

/-- `x` is the arrival of a packet: the network may have changed the two ECN bits. -/
structure InPkt.Carries (x : InPkt) (pkt : Packet) : Prop where
  hdr : x.hdr = pkt.hdr
  opts : ∀ i b, pkt.opts[i]? = some b → x.optMem i = b
  data : pbufBytes x.p = pkt.data
  chain : Consistent x.p
  tos : x.tos &&& 0xFC = pkt.tos &&& 0xFC

/-- A write; a read through a dangling pointer is a fault. -/
def Conn.write (c : Conn) (env : Env) (data : List U8) (isDummy : Bool) : Conn :=
  match tcpWrite env c.pcb data isDummy with
  | none => { c with fault := true }
  | some r => { c with pcb := r.1 }

def Conn.act (c : Conn) : Act → Conn
  | .write env data isDummy => c.write env data isDummy
  | .output env => tcpOutput env c
  | .input env cc pkt => (tcpInput env cc pkt c).conn
  | .recved len => { c with pcb := (tcpRecved c.pcb len).1 }
  | .rexmit => { c with pcb := tcpRexmit c.pcb }
  | .rexmitRto => { c with pcb := tcpRexmitRtoRequeue c.pcb }
  | .rexmitFast cc => { c with pcb := tcpRexmitFast cc c.pcb }
  | .close env => (tcpClose env c).1
  | .shutdown env shutRx shutTx => (tcpShutdown env shutRx shutTx c).1
  | .slowTimers env => slowTimers env c
  | .slowRto cc => c.slowRto cc
  | .slowChecks env exhausted => (slowChecks env exhausted c).1

def Conn.step (c : Conn) (a : Act) : Conn := if c.fault then c else c.act a

def Conn.run (c : Conn) (l : List Act) : Conn := l.foldl Conn.step c

variable {c : Conn}

theorem Conn.step_fault (a : Act) (h : c.fault = true) : c.step a = c := if_pos h

theorem Conn.step_eq (a : Act) (h : c.fault = false) : c.step a = c.act a :=
  if_neg (by rw [h]; exact Bool.false_ne_true)

theorem Conn.run_append (c : Conn) (l l' : List Act) : c.run (l ++ l') = (c.run l).run l' :=
  List.foldl_append

theorem Conn.run_snoc {c' : Conn} {l : List Act} (h : c.run l = c') (hf : c'.fault = false) (a : Act) :
    c.run (l ++ [a]) = c'.act a := by
  rw [Conn.run_append, h]
  exact Conn.step_eq a hf

variable (env : Env)

theorem l3LevelTcpInput_acts (env' : Env) (cc : CcAlgo) (pkt : InPkt) (h : c.fault = false) :
    ∃ l, l3LevelTcpInput env env' cc pkt c = c.run (.input env cc pkt :: l) := by
  have h1 : c.run [.input env cc pkt] = (tcpInput env cc pkt c).conn := Conn.step_eq _ h
  simp only [l3LevelTcpInput]
  split
  · rename_i ho
    exact ⟨[.output env'], (Conn.run_snoc h1 (by simpa using ho.2) (.output env')).symm⟩
  · exact ⟨[], h1.symm⟩

theorem tcpKeepalive_fault (n : Nat) (c : Conn) : (tcpKeepalive env n c).fault = c.fault := by
  unfold tcpKeepalive
  split <;> rfl

theorem tcpRst_fault (n : Nat) (seqno ackno : U32) (c : Conn) :
    (tcpRst env n seqno ackno c).fault = c.fault := by
  unfold tcpRst
  split <;> rfl

theorem tcpPcbPurge_fault (c : Conn) : (tcpPcbPurge c).fault = c.fault := by
  unfold tcpPcbPurge
  split <;> rfl

theorem slowTimers_fault (c : Conn) : (slowTimers env c).fault = c.fault := by
  unfold slowTimers
  split
  · split
    · exact tcpKeepalive_fault ..
    · rfl
  · rfl

theorem slowKeepalive_fault (c : Conn) : (slowKeepalive env c).fault = c.fault := by
  unfold slowKeepalive
  split
  · exact tcpKeepalive_fault ..
  · rfl

theorem slowOoseq_fault (c : Conn) : (slowOoseq env c).fault = c.fault := by
  unfold slowOoseq
  split <;> rfl

theorem slowFinish_fault (remove reset : Bool) (c : Conn) :
    (slowFinish env remove reset c).1.fault = c.fault := by
  unfold slowFinish
  split
  · simp only
    split
    · exact (tcpRst_fault ..).trans (tcpPcbPurge_fault c)
    · exact tcpPcbPurge_fault c
  · split <;> rfl

theorem slowChecks_fault (exhausted : Bool) (c : Conn) :
    (slowChecks env exhausted c).1.fault = c.fault :=
  (slowFinish_fault ..).trans ((slowOoseq_fault ..).trans (slowKeepalive_fault ..))

theorem slowRetransmit_acts (cc : CcAlgo) (h : c.fault = false) :
    ∃ l, slowRetransmit env cc c = c.run l := by
  have ht : (slowTimers env c).fault = false := (slowTimers_fault env c).trans h
  have h1 : c.run [.slowTimers env] = slowTimers env c := Conn.step_eq _ h
  have h2 := Conn.run_snoc h1 ht (.slowRto cc)
  simp only [slowRetransmit]
  split
  · exact ⟨[], rfl⟩
  split
  · split
    · exact ⟨_, h2.symm⟩
    rename_i hr
    have hr : ((slowTimers env c).slowRto cc).fault = false := by simpa using hr
    unfold tcpRexmitRto
    split
    · exact ⟨_, h2.symm⟩
    · exact ⟨_, (Conn.run_snoc (Conn.run_snoc h2 hr .rexmitRto) hr (.output env)).symm⟩
  · exact ⟨_, h1.symm⟩

theorem tcpSlowtmr_acts (env' : Env) (cc : CcAlgo) (h : c.fault = false)
    (ha : pcbInActiveState c.pcb = true) : ∃ l, tcpSlowtmr env env' cc c = c.run l := by
  obtain ⟨l, hl⟩ := slowRetransmit_acts env cc h
  simp only [tcpSlowtmr, ha, if_true]
  split
  · exact ⟨l, hl⟩
  rename_i hf
  have hf : (slowRetransmit env cc c).fault = false := by simpa using hf
  have h1 := Conn.run_snoc hl.symm hf (.slowChecks env (retriesExhausted c.pcb))
  split
  · exact ⟨_, (Conn.run_snoc h1 ((slowChecks_fault ..).trans hf) (.output env')).symm⟩
  · exact ⟨_, h1.symm⟩

end LibvmaTlt.Lwip
