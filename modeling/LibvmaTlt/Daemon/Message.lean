import Mathlib
import LibvmaTlt.Daemon.Flow
import LibvmaTlt.Daemon.Hash
import LibvmaTlt.Lib.Bytes

/-!
# Messages to the daemon (`message.c`)

Processes send the daemon datagrams with one or more messages: that they start and end, what their
sockets do, and which flows they need. `proc_message` receives a datagram into a buffer on its stack and
calls the handler of one message after the other, until the length is used up. It takes each message
from the start of the buffer. That `del_flow` can read a freed context is not followed here.
-/

namespace LibvmaTlt.Daemon

/-! ## Messages -/

/-- `VMA_AGENT_VER`, `VMA_MSG_ACK`, and the errors of this module. -/
def vmaAgentVer : BitVec 8 := 3
def vmaMsgAck : BitVec 8 := 0x80
def eBadmsg : Int := 74
def eProto : Int := 71

/-- The codes `VMA_MSG_INIT`, `VMA_MSG_STATE`, `VMA_MSG_EXIT` and `VMA_MSG_FLOW`. -/
inductive MsgCode where
  | init | state | exit | flow
  deriving DecidableEq

def MsgCode.ofByte (code : BitVec 8) : Option MsgCode :=
  if code = 1 then some .init
  else if code = 2 then some .state
  else if code = 3 then some .exit
  else if code = 4 then some .flow
  else none

def MsgCode.size : MsgCode → Nat
  | .init => 12
  | .state => 26
  | .exit => 8
  | .flow => 30

structure VmaHdr where
  code : BitVec 8
  ver : BitVec 8
  status : BitVec 8
  pid : BitVec 32

def VmaHdr.read (b : Bytes) (off : Nat) : VmaHdr where
  code := b off
  ver := b (off + 1)
  status := b (off + 2)
  pid := b.le32 (off + 4)

structure VmaMsgInit where
  hdr : VmaHdr
  ver : BitVec 32

def VmaMsgInit.read (b : Bytes) (off : Nat) : VmaMsgInit where
  hdr := .read b off
  ver := b.le32 (off + 8)

structure VmaMsgState where
  hdr : VmaHdr
  fid : BitVec 32
  srcIp : BitVec 32
  dstIp : BitVec 32
  srcPort : BitVec 16
  dstPort : BitVec 16
  type : BitVec 8
  state : BitVec 8

def VmaMsgState.read (b : Bytes) (off : Nat) : VmaMsgState where
  hdr := .read b off
  fid := b.le32 (off + 8)
  srcIp := b.le32 (off + 12)
  dstIp := b.le32 (off + 16)
  srcPort := b.le16 (off + 20)
  dstPort := b.le16 (off + 22)
  type := b (off + 24)
  state := b (off + 25)

structure VmaMsgFlow where
  hdr : VmaHdr
  type : BitVec 8
  action : BitVec 8
  ifId : BitVec 32
  tapId : BitVec 32
  dstIp : BitVec 32
  dstPort : BitVec 16
  srcIp : BitVec 32
  srcPort : BitVec 16

def VmaMsgFlow.read (b : Bytes) (off : Nat) : VmaMsgFlow where
  hdr := .read b off
  type := b (off + 8)
  action := b (off + 9)
  ifId := b.le32 (off + 10)
  tapId := b.le32 (off + 14)
  dstIp := b.le32 (off + 18)
  dstPort := b.le16 (off + 22)
  srcIp := b.le32 (off + 24)
  srcPort := b.le16 (off + 28)

def FlowType.ofByte (type : BitVec 8) : Option FlowType :=
  if type = 0 then some .egress
  else if type = 1 then some .udp5t
  else if type = 2 then some .udp3t
  else if type = 3 then some .tcp5t
  else if type = 4 then some .tcp3t
  else none

/-! ## The daemon -/

structure StoreFid where
  fid : BitVec 32
  srcIp : BitVec 32
  dstIp : BitVec 32
  srcPort : BitVec 16
  dstPort : BitVec 16
  type : BitVec 8
  state : BitVec 8
  deriving DecidableEq

structure StorePid where
  pid : BitVec 32
  libVer : BitVec 32
  ht : (k : Nat) × HashTable StoreFid k
  flowList : List StoreFlow := []

/-- The part of `daemon_cfg` that messages change, and the number of sockets of a process. -/
structure Config (n : Nat) where
  ht : HashTable StorePid n
  ifList : List IfElement := []
  maxFidNum : Nat

structure MsgEnv where
  calloc : Bool := true
  hashCreate : Bool := true
  sysLoIfindex : BitVec 32 := 1
  sysIplocal : BitVec 32 → Bool := fun _ => false
  add : AddEnv := {}
  del : Nat → DelEnv := fun _ => {}

def HashTable.modify {V : Type} {n : Nat} (ht : HashTable V n) (key : HashKey) (f : V → V) :
    HashTable V n :=
  match (ht.find key false).2 with
  | none => ht
  | some i =>
    { ht with
      table := Function.update ht.table i { ht.table i with value := (ht.table i).value.map f } }

variable {n : Nat}

/-- What `proc_msg_init` does with the daemon, what it returns, and whether it responds. -/
def Config.msgInit (d : Config n) (data : VmaMsgInit) (env : MsgEnv) : Config n × Int × Bool :=
  if vmaAgentVer < data.hdr.ver then (d, -eBadmsg, true)
  else if !env.calloc then (d, -eNomem, false)
  else
    match if env.hashCreate then hashCreate StoreFid true d.maxFidNum else none with
    | none => (d, -eFault, false)
    | some fids =>
      let value : StorePid := { pid := data.hdr.pid, libVer := data.ver, ht := fids }
      let (ht, result, _) := d.ht.put data.hdr.pid value
      if result.isNone then ({ d with ht := ht }, -eFault, false)
      else ({ d with ht := ht }, MsgCode.init.size, true)

/-- What `proc_msg_exit` does with the daemon. -/
def Config.msgExit (d : Config n) (hdr : VmaHdr) (env : MsgEnv) : Config n × Int :=
  let (ht, pidValue) := d.ht.get hdr.pid
  match pidValue with
  | none => ({ d with ht := ht }, MsgCode.exit.size)
  | some pid =>
    let ifList := pid.flowList.zipIdx.foldl (fun l f => (delFlow l f.1 (env.del f.2)).1) d.ifList
    ({ d with ht := (ht.del pid.pid).1, ifList := ifList }, MsgCode.exit.size)

/-- What `proc_msg_state` does with the daemon. State 0 is `CLOSED` and type 1 is `SOCK_STREAM`. -/
def Config.msgState (d : Config n) (data : VmaMsgState) (env : MsgEnv) : Config n × Int :=
  let (ht, pidValue) := d.ht.get data.hdr.pid
  let d := { d with ht := ht }
  match pidValue with
  | none => (d, MsgCode.state.size)
  | some pid =>
    if data.state = 0 ∧ data.type = 1 then
      let fids := (pid.ht.2.del data.fid).1
      let d := { d with ht := ht.modify data.hdr.pid fun pid => { pid with ht := ⟨_, fids⟩ } }
      (d, MsgCode.state.size)
    else if !env.calloc then (d, -eNomem)
    else
      let value : StoreFid :=
        { fid := data.fid, srcIp := data.srcIp, dstIp := data.dstIp, srcPort := data.srcPort,
          dstPort := data.dstPort, type := data.type, state := data.state }
      let (fids, result, _) := pid.ht.2.put data.fid value
      let d := { d with ht := ht.modify data.hdr.pid fun pid => { pid with ht := ⟨_, fids⟩ } }
      if result.isNone then (d, -eFault) else (d, MsgCode.state.size)

def StoreFlow.same (f g : StoreFlow) : Bool := { f with handle := 0 } = { g with handle := 0 }

/-- `proc_msg_flow` from the actions on. `VMA_MSG_FLOW_ADD` is 1 and `VMA_MSG_FLOW_DEL` is 2. -/
def Config.flowAction (d : Config n) (key : HashKey) (pid : StorePid) (value : StoreFlow)
    (action : BitVec 8) (env : MsgEnv) : Config n × Int :=
  if action = 1 then
    if pid.flowList.any value.same then (d, 0)
    else
      let tapKnown := pid.flowList.any fun f => f.tapId = value.tapId
      let (ifList, value, rc) := addFlow d.ifList value { env.add with tapKnown := tapKnown }
      if rc < 0 then ({ d with ifList := ifList }, rc)
      else
        ({ d with
            ifList := ifList
            ht := d.ht.modify key fun pid => { pid with flowList := pid.flowList ++ [value] } }, rc)
  else if action = 2 then
    match pid.flowList.find? value.same with
    | none => (d, 0)
    | some f =>
      let (ifList, rc, _) := delFlow d.ifList f (env.del 0)
      ({ d with
          ifList := ifList
          ht := d.ht.modify key fun pid =>
            { pid with flowList := replaceFirst value.same [] pid.flowList } }, rc)
  else (d, 0)

def FlowType.t5 (type : FlowType) : Bool := type = .tcp5t ∨ type = .udp5t

def VmaMsgFlow.storeFlow (data : VmaMsgFlow) (type : FlowType) : StoreFlow where
  type := type
  ifId := data.ifId
  tapId := data.tapId
  dstIp := data.dstIp
  dstPort := data.dstPort
  srcIp := if type.t5 then data.srcIp else 0
  srcPort := if type.t5 then data.srcPort else 0

/-- `proc_msg_flow` for a process that is known, with the value of `ack`. -/
def Config.flowBody (d : Config n) (pid : StorePid) (data : VmaMsgFlow) (loopback : Bool)
    (env : MsgEnv) : Config n × Int × Bool :=
  let ack : Bool := data.hdr.status = 1
  if !env.calloc then (d, -eNomem, ack)
  else
    match FlowType.ofByte data.type with
    | none => (d, -eProto, ack)
    | some type =>
      let value := data.storeFlow type
      if loopback then
        -- the rules for local traffic; nobody waits for an answer
        if env.sysLoIfindex = 0 then (d, -eFault, false)
        else
          let (d, rc) :=
            d.flowAction data.hdr.pid pid { value with ifId := env.sysLoIfindex } data.action env
          (d, rc, false)
      else if type.t5 && env.sysIplocal value.srcIp then (d, 0, ack)
      else
        let (d, rc) := d.flowAction data.hdr.pid pid value data.action env
        (d, rc, ack)

/-- What `proc_msg_flow` does with the daemon, what it returns, and the status that it responds. -/
def Config.msgFlow (d : Config n) (data : VmaMsgFlow) (loopback : Bool) (env : MsgEnv) :
    Config n × Int × Option (BitVec 8) :=
  if loopback ∧ data.type = 0 then (d, 0, none)
  else
    let (ht, pidValue) := d.ht.get data.hdr.pid
    let d := { d with ht := ht }
    match pidValue with
    | none => (d, MsgCode.flow.size, none)
    | some pid =>
      let (d, rc, ack) := d.flowBody pid data loopback env
      (d, if rc = 0 then (MsgCode.flow.size : Int) else rc,
        if ack then some (if rc = 0 then 0 else 1) else none)

/-! ## The handlers -/

structure HandlerCall where
  code : MsgCode
  msgHdr : Nat
  loopback : Bool := false
  deriving DecidableEq

/-- The daemon, the buffer on the stack of `proc_message`, what was passed to `sys_sendto`, and the calls
of the handlers, which each handler records. -/
structure MsgState (n : Nat) where
  cfg : Config n
  msgRecv : Bytes
  sent : List (List (BitVec 8)) := []
  calls : List HandlerCall := []

def MsgState.called (s : MsgState n) (call : HandlerCall) : MsgState n :=
  { s with calls := s.calls ++ [call] }

/-- `proc_msg_init` for the message at an offset of the buffer. -/
def procMsgInit (s : MsgState n) (msgHdr size : Nat) (env : MsgEnv) : MsgState n × Int :=
  let s := s.called { code := .init, msgHdr := msgHdr }
  if size < MsgCode.init.size then (s, -eBadmsg)
  else
    let (cfg, rc, response) := s.cfg.msgInit (.read s.msgRecv msgHdr) env
    if response then
      let b := (s.msgRecv.set msgHdr (s.msgRecv msgHdr ||| vmaMsgAck)).set (msgHdr + 1) vmaAgentVer
      ({ s with
          cfg := cfg, msgRecv := b, sent := s.sent ++ [b.slice msgHdr MsgCode.init.size] }, rc)
    else ({ s with cfg := cfg }, rc)

def procMsgExit (s : MsgState n) (msgHdr size : Nat) (env : MsgEnv) : MsgState n × Int :=
  let s := s.called { code := .exit, msgHdr := msgHdr }
  if size < MsgCode.exit.size then (s, -eBadmsg)
  else
    let (cfg, rc) := s.cfg.msgExit (.read s.msgRecv msgHdr) env
    ({ s with cfg := cfg }, rc)

def procMsgState (s : MsgState n) (msgHdr size : Nat) (env : MsgEnv) : MsgState n × Int :=
  let s := s.called { code := .state, msgHdr := msgHdr }
  if size < MsgCode.state.size then (s, -eBadmsg)
  else
    let (cfg, rc) := s.cfg.msgState (.read s.msgRecv msgHdr) env
    ({ s with cfg := cfg }, rc)

/-- `proc_msg_flow`; without a peer's address for local traffic. -/
def procMsgFlow (s : MsgState n) (msgHdr size : Nat) (loopback : Bool) (env : MsgEnv) :
    MsgState n × Int :=
  let s := s.called { code := .flow, msgHdr := msgHdr, loopback := loopback }
  if size < MsgCode.flow.size then (s, -eBadmsg)
  else
    let (cfg, rc, response) := s.cfg.msgFlow (.read s.msgRecv msgHdr) loopback env
    match response with
    | some status =>
      let b := (s.msgRecv.set msgHdr (s.msgRecv msgHdr ||| vmaMsgAck)).set (msgHdr + 2) status
      ({ s with cfg := cfg, msgRecv := b, sent := s.sent ++ [b.slice msgHdr 8] }, rc)
    | none => ({ s with cfg := cfg }, rc)

/-! ## The loop -/

/-- The `switch` of `proc_message`; `env` has the answers, and those for local traffic. Flows are first
added for local traffic. -/
def MsgCode.proc (code : MsgCode) (s : MsgState n) (msgHdr size : Nat) (env : MsgEnv × MsgEnv) :
    MsgState n × Int :=
  match code with
  | .init => procMsgInit s msgHdr size env.1
  | .state => procMsgState s msgHdr size env.1
  | .exit => procMsgExit s msgHdr size env.1
  | .flow => procMsgFlow (procMsgFlow s msgHdr size true env.2).1 msgHdr size false env.1

/-- The loop of `proc_message`, with the length that is left. -/
structure Loop (n : Nat) where
  s : MsgState n
  len : Nat

/-- One round: the loop goes on, or it ends with what is returned. -/
def Loop.step (l : Loop n) (env : MsgEnv × MsgEnv) : Loop n × Option Int :=
  if l.len = 0 then (l, some 0)
  else if l.len < 8 then (l, some (-eBadmsg))
  else
    -- the message is always the first one in the buffer
    let msgHdr := 0
    match MsgCode.ofByte (l.s.msgRecv msgHdr) with
    | none => (l, some (-eProto))
    | some code =>
      let (s, rc) := code.proc l.s msgHdr l.len env
      let l := { l with s := s }
      if 0 < rc then ({ l with len := l.len - rc.toNat }, none) else (l, some rc)

def Loop.run (env : Nat → MsgEnv × MsgEnv) : Nat → Loop n → Option (Loop n × Int)
  | 0, _ => none
  | fuel + 1, l =>
    match l.step (env fuel) with
    | (l, some rc) => some (l, rc)
    | (l, none) => l.run env fuel

section Returned

variable {s : MsgState n} {msgHdr size : Nat}

end Returned

/-! ## What is read -/

section Reads

variable {b b' : Bytes} {len msgHdr size : Nat}

theorem VmaHdr.read_agree (h : b.Agree len b') (hlen : msgHdr + 8 ≤ len) :
    VmaHdr.read b msgHdr = VmaHdr.read b' msgHdr := by
  unfold VmaHdr.read
  rw [h msgHdr (by omega), h (msgHdr + 1) (by omega), h (msgHdr + 2) (by omega), h.le32 (by omega)]

theorem VmaMsgInit.read_agree (h : b.Agree len b') (hlen : msgHdr + 12 ≤ len) :
    VmaMsgInit.read b msgHdr = VmaMsgInit.read b' msgHdr := by
  unfold VmaMsgInit.read
  rw [VmaHdr.read_agree h (by omega), h.le32 (by omega)]

theorem VmaMsgState.read_agree (h : b.Agree len b') (hlen : msgHdr + 26 ≤ len) :
    VmaMsgState.read b msgHdr = VmaMsgState.read b' msgHdr := by
  unfold VmaMsgState.read
  rw [VmaHdr.read_agree h (by omega), h.le32 (by omega), h.le32 (by omega), h.le32 (by omega),
    h.le16 (by omega), h.le16 (by omega), h (msgHdr + 24) (by omega), h (msgHdr + 25) (by omega)]

theorem VmaMsgFlow.read_agree (h : b.Agree len b') (hlen : msgHdr + 30 ≤ len) :
    VmaMsgFlow.read b msgHdr = VmaMsgFlow.read b' msgHdr := by
  unfold VmaMsgFlow.read
  rw [VmaHdr.read_agree h (by omega), h (msgHdr + 8) (by omega), h (msgHdr + 9) (by omega),
    h.le32 (by omega), h.le32 (by omega), h.le32 (by omega), h.le16 (by omega), h.le32 (by omega),
    h.le16 (by omega)]

/-- The states differ at most in bytes of the buffer beyond the length. -/
structure MsgState.Same (len : Nat) (s s' : MsgState n) : Prop where
  cfg : s.cfg = s'.cfg
  sent : s.sent = s'.sent
  calls : s.calls = s'.calls
  msgRecv : s.msgRecv.Agree len s'.msgRecv

/-- The bytes beyond the length make no difference to a handler. -/
def Unread (len : Nat) (r r' : MsgState n × Int) : Prop := r.1.Same len r'.1 ∧ r.2 = r'.2

variable {s s' : MsgState n}

theorem MsgState.Same.respond (h : s.Same len s') (cfg : Config n) {k : Nat} (v : BitVec 8) (at' : Nat)
    (hlen : msgHdr + k ≤ len) (hk : 0 < k) :
    let b := (s.msgRecv.set msgHdr (s.msgRecv msgHdr ||| vmaMsgAck)).set at' v
    let b' := (s'.msgRecv.set msgHdr (s'.msgRecv msgHdr ||| vmaMsgAck)).set at' v
    MsgState.Same len { s with cfg := cfg, msgRecv := b, sent := s.sent ++ [b.slice msgHdr k] }
      { s' with cfg := cfg, msgRecv := b', sent := s'.sent ++ [b'.slice msgHdr k] } := by
  intro b b'
  have hb : b.Agree len b' := by
    show Bytes.Agree len (Bytes.set _ at' v) _
    rw [h.msgRecv msgHdr (by omega)]
    exact (h.msgRecv.set _ _).set _ _
  exact ⟨rfl, by rw [h.sent, hb.slice hlen], h.calls, hb⟩

theorem MsgState.Same.called (h : s.Same len s') (call : HandlerCall) :
    (s.called call).Same len (s'.called call) :=
  ⟨h.cfg, h.sent, congrArg (· ++ [call]) h.calls, h.msgRecv⟩

theorem Unread.sized {k : Nat} {rc : Int} {r r' : MsgState n × Int} (h : s.Same len s')
    (hlen : msgHdr + size ≤ len) (hr : msgHdr + k ≤ len → Unread len r r') :
    Unread len (if size < k then (s, rc) else r) (if size < k then (s', rc) else r') := by
  split
  · exact ⟨h, rfl⟩
  · exact hr (by omega)

theorem procMsgInit_unread (h : s.Same len s') (hlen : msgHdr + size ≤ len) (env : MsgEnv) :
    Unread len (procMsgInit s msgHdr size env) (procMsgInit s' msgHdr size env) := by
  unfold procMsgInit
  have h := h.called { code := .init, msgHdr := msgHdr }
  generalize s.called _ = s, s'.called _ = s' at h ⊢
  refine .sized h hlen fun h12 => ?_
  rw [VmaMsgInit.read_agree h.msgRecv h12, h.cfg]
  dsimp only
  split
  · exact ⟨h.respond _ _ _ h12 (by decide), rfl⟩
  · exact ⟨⟨rfl, h.sent, h.calls, h.msgRecv⟩, rfl⟩

theorem procMsgExit_unread (h : s.Same len s') (hlen : msgHdr + size ≤ len) (env : MsgEnv) :
    Unread len (procMsgExit s msgHdr size env) (procMsgExit s' msgHdr size env) := by
  unfold procMsgExit
  have h := h.called { code := .exit, msgHdr := msgHdr }
  generalize s.called _ = s, s'.called _ = s' at h ⊢
  dsimp only
  refine .sized h hlen fun h8 => ?_
  rw [VmaHdr.read_agree h.msgRecv h8, h.cfg]
  exact ⟨⟨rfl, h.sent, h.calls, h.msgRecv⟩, rfl⟩

theorem procMsgState_unread (h : s.Same len s') (hlen : msgHdr + size ≤ len) (env : MsgEnv) :
    Unread len (procMsgState s msgHdr size env) (procMsgState s' msgHdr size env) := by
  unfold procMsgState
  have h := h.called { code := .state, msgHdr := msgHdr }
  generalize s.called _ = s, s'.called _ = s' at h ⊢
  dsimp only
  refine .sized h hlen fun h26 => ?_
  rw [VmaMsgState.read_agree h.msgRecv h26, h.cfg]
  exact ⟨⟨rfl, h.sent, h.calls, h.msgRecv⟩, rfl⟩

theorem procMsgFlow_unread (h : s.Same len s') (hlen : msgHdr + size ≤ len) (loopback : Bool)
    (env : MsgEnv) :
    Unread len (procMsgFlow s msgHdr size loopback env) (procMsgFlow s' msgHdr size loopback env) := by
  unfold procMsgFlow
  have h := h.called { code := .flow, msgHdr := msgHdr, loopback := loopback }
  generalize s.called _ = s, s'.called _ = s' at h ⊢
  refine .sized h hlen fun (h30 : msgHdr + 30 ≤ len) => ?_
  rw [VmaMsgFlow.read_agree h.msgRecv h30, h.cfg]
  dsimp only
  split
  · exact ⟨h.respond _ _ _ (by omega) (by decide), rfl⟩
  · exact ⟨⟨rfl, h.sent, h.calls, h.msgRecv⟩, rfl⟩

theorem MsgCode.proc_unread (code : MsgCode) (h : s.Same len s') (msgHdr size : Nat)
    (hlen : msgHdr + size ≤ len) (env : MsgEnv × MsgEnv) :
    Unread len (code.proc s msgHdr size env) (code.proc s' msgHdr size env) := by
  cases code with
  | init => exact procMsgInit_unread h hlen env.1
  | state => exact procMsgState_unread h hlen env.1
  | exit => exact procMsgExit_unread h hlen env.1
  | flow => exact procMsgFlow_unread (procMsgFlow_unread h hlen true env.2).1 hlen false env.1

end Reads

/-! ## What is called -/

/-- The handler of a message. -/
def MsgCode.handler (code : MsgCode) (s : MsgState n) (msgHdr size : Nat) (env : MsgEnv) : MsgState n :=
  match code with
  | .init => (procMsgInit s msgHdr size env).1
  | .state => (procMsgState s msgHdr size env).1
  | .exit => (procMsgExit s msgHdr size env).1
  | .flow => (procMsgFlow s msgHdr size false env).1

variable {code : MsgCode} {fuel : Nat}

section Rounds

variable {l l' : Loop n} {len : Nat}

structure Loop.Same (len : Nat) (l l' : Loop n) : Prop where
  s : l.s.Same len l'.s
  len_eq : l.len = l'.len
  le : l.len ≤ len

theorem Loop.Same.step (h : l.Same len l') (env : MsgEnv × MsgEnv) :
    (l.step env).1.Same len (l'.step env).1 ∧ (l.step env).2 = (l'.step env).2 := by
  unfold Loop.step
  rw [← h.len_eq]
  split
  · exact ⟨h, rfl⟩
  split
  · exact ⟨h, rfl⟩
  have hle := h.le
  dsimp only
  rw [← h.s.msgRecv 0 (by omega)]
  cases hcode : MsgCode.ofByte (l.s.msgRecv 0) with
  | none => exact ⟨h, rfl⟩
  | some code =>
    obtain ⟨hs, hrc⟩ := code.proc_unread h.s 0 l.len (by omega) env
    dsimp only
    rw [← hrc]
    split
    · exact ⟨⟨hs, rfl, by show l.len - _ ≤ len; omega⟩, rfl⟩
    · exact ⟨⟨hs, rfl, hle⟩, rfl⟩

/-- What the loop did to the daemon, what it sent, the calls it made, and what is returned. -/
def report (r : Loop n × Int) : Config n × List (List (BitVec 8)) × List HandlerCall × Int :=
  (r.1.s.cfg, r.1.s.sent, r.1.s.calls, r.2)

theorem Loop.Same.run (h : l.Same len l') (env : Nat → MsgEnv × MsgEnv) (fuel : Nat) :
    (l.run env fuel).map report = (l'.run env fuel).map report := by
  induction fuel generalizing l l' with
  | zero => rfl
  | succ fuel ih =>
    obtain ⟨hsame, hrc⟩ := h.step (env fuel)
    unfold Loop.run
    generalize l.step (env fuel) = r, l'.step (env fuel) = r' at hsame hrc
    obtain ⟨l₁, rc⟩ := r
    obtain ⟨l₁', rc'⟩ := r'
    have hrc : rc = rc' := hrc
    subst hrc
    cases rc with
    | none => exact ih hsame
    | some rc =>
      show some (report (l₁, rc)) = some (report (l₁', rc))
      unfold report
      rw [hsame.s.cfg, hsame.s.sent, hsame.s.calls]

end Rounds

/-! ## Datagrams -/

def msgCode (m : List (BitVec 8)) : Option MsgCode := m.head?.bind MsgCode.ofByte

def WellFormed (m : List (BitVec 8)) : Prop := ∃ code, msgCode m = some code ∧ m.length = code.size

section Datagrams

variable {m : List (BitVec 8)} {msgs : List (List (BitVec 8))} {env : Nat → MsgEnv × MsgEnv}
  {cfg : Config n} {msgRecv : Bytes}

end Datagrams

end LibvmaTlt.Daemon
