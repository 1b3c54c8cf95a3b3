import Mathlib.Data.List.InsertIdx
import LibvmaTlt.Lib.Keyed
import LibvmaTlt.Lib.Reach

/-!
# The flow tree of the daemon (`flow.c`)

A flow has a filter in the kernel's traffic control, in a bucket of a table of an interface. The daemon
keeps a tree of interfaces, tables, buckets and nodes, and counts at each element the flows that pass
it. `add_flow` goes down the tree: at each level it finds or creates the element, counts, and goes on;
a failure leaves it by one exit. `del_flow` goes down and counts back on its way up; it goes on with the
context of an interface that it has just freed.

The answers of `calloc` and of the traffic control are inputs.
-/

namespace LibvmaTlt.Daemon

open List (Perm)

/-! ## Flows -/

/-- `VMA_MSG_FLOW_EGRESS` and the other types of `struct vma_msg_flow`. -/
inductive FlowType where
  | egress | udp5t | udp3t | tcp5t | tcp3t
  deriving DecidableEq

structure StoreFlow where
  handle : BitVec 32 := 0
  type : FlowType
  ifId : BitVec 32
  tapId : BitVec 32
  dstIp : BitVec 32
  dstPort : BitVec 16
  srcIp : BitVec 32 := 0
  srcPort : BitVec 16 := 0
  deriving DecidableEq

def handleSet (ht : Int) (bkt : Nat) (id : Int) : BitVec 32 :=
  ((BitVec.ofInt 32 ht <<< 20) &&& 0xFFF00000#32) |||
    ((BitVec.ofNat 32 bkt <<< 12) &&& 0x000FF000#32) ||| ((BitVec.ofInt 32 id <<< 0) &&& 0x00000FFF#32)

def handleHt (value : BitVec 32) : Nat := ((value &&& 0xFFF00000#32) >>> 20).toNat

def handleBkt (value : BitVec 32) : Nat := ((value &&& 0x000FF000#32) >>> 12).toNat

def handleId (value : BitVec 32) : Nat := ((value &&& 0x00000FFF#32) >>> 0).toNat

def getPrio (value : StoreFlow) : Int :=
  match value.type with
  | .egress => 0
  | .udp5t => 1
  | .udp3t => 2
  | .tcp5t => 3
  | .tcp3t => 4

def ntohs (x : BitVec 16) : BitVec 16 := (x <<< 8) ||| (x >>> 8)

/-- `get_bkt`, which is never negative. -/
def getBkt (value : StoreFlow) : Nat := (ntohs value.dstPort &&& 0xFF#16).toNat

def eNomem : Int := 12
def eFault : Int := 14
def eInval : Int := 22

/-! ## The tree -/

structure NodeElement where
  value : Nat
  ref : Int
  deriving DecidableEq

structure BktElement where
  value : Nat
  ref : Int := 0
  list : List NodeElement := []
  deriving DecidableEq

/-- A `struct flow_element` of a table, which stands for a type of flow and an address. -/
structure HtElement where
  type : FlowType
  ip : BitVec 32
  htId : BitVec 32
  ref : Int := 0
  list : List BktElement := []
  deriving DecidableEq

/-- `KERNEL_HT` and `MAX_ID`. -/
def kernelHt : Int := 0x800
def maxId : Nat := 0xFFE

/-- `struct flow_ctx`. The bitmap has `KERNEL_HT - 1` bits in whole words; a pending element has the
number of a table and its priority. -/
structure FlowCtx where
  ht : BitVec 2048
  pendingList : List (Nat × Int) := []
  htPrio : List (Int × Int) := [(0, 0), (0, 0), (0, 0), (0, 0)]
  deriving DecidableEq

structure IfElement where
  ifId : BitVec 32
  ctx : FlowCtx
  ref : Int := 0
  list : List HtElement := []
  deriving DecidableEq

def HtElement.key (t : HtElement) : FlowType × BitVec 32 := (t.type, t.ip)

/-- The bitmap of a new interface: table 0 is not used. -/
def FlowCtx.new : FlowCtx where
  ht := 1

def bitmapFindFirstZero (bm : BitVec 2048) : Int :=
  match (List.range 2048).find? fun i => !bm.getLsbD i with
  | some i => i
  | none => -1

def bitmapSet (bm : BitVec 2048) (bit : Nat) : BitVec 2048 := bm ||| (1#2048 <<< bit)

def bitmapClear (bm : BitVec 2048) (bit : Nat) : BitVec 2048 := bm &&& ~~~(1#2048 <<< bit)

/-- The part of `get_htid` for the kernel's table of a priority. A priority that has none takes the last
free entry, and the next number. -/
def getHtKrn (htPrio : List (Int × Int)) (prio : Int) : List (Int × Int) × Int :=
  match htPrio.find? fun e => e.1 = prio with
  | some e => (htPrio, kernelHt + e.2)
  | none =>
    let freeId := (htPrio.filter fun e => e.1 ≠ 0).foldl (fun m e => max m e.2) (-1)
    match (List.range htPrio.length).reverse.find? fun i => (htPrio.getD i (0, 0)).1 = 0 with
    | some freeIndex => (htPrio.set freeIndex (prio, freeId + 1), kernelHt + (freeId + 1))
    | none => (htPrio, 0)

/-- `get_htid`, with the kernel's table and the table's number. -/
def FlowCtx.getHtid (ctx : FlowCtx) (prio : Int) : FlowCtx × Int × Int :=
  let (htPrio, htKrn) := getHtKrn ctx.htPrio prio
  let htId := bitmapFindFirstZero ctx.ht
  let ht := if 0 ≤ htId then bitmapSet ctx.ht htId.toNat else ctx.ht
  ({ ctx with ht := ht, htPrio := htPrio }, htKrn, htId)

/-- `free_pending_list`; `ok` has the answers of `tc_del_filter`. -/
def FlowCtx.freePendingList (ctx : FlowCtx) (ok : Nat → Bool) : FlowCtx :=
  { ctx with
    pendingList := (ctx.pendingList.zipIdx.filter fun e => !ok e.2).map Prod.fst
    ht := ctx.pendingList.zipIdx.foldl
      (fun bm e => if ok e.2 then bitmapClear bm e.1.1 else bm) ctx.ht }

/-- The search in `get_node` for a number that is not taken, with the place in the list. -/
def nodeSlot : List NodeElement → Nat → Nat × Nat
  | [], id => (id, 0)
  | e :: l, id =>
    if id < e.value then (id, 0)
    else
      let (r, place) := nodeSlot l (id + 1)
      (r, place + 1)

/-- The number that `get_node` comes to, and the place in the list for the new element: after the last
one, unless that has the greatest number. -/
def nodeNumber (list : List NodeElement) : Nat × Nat :=
  match list.getLast? with
  | none => (1, 0)
  | some last => if last.value < maxId then (last.value + 1, list.length) else nodeSlot list 1

/-- `get_node`, with the place in the list. -/
def getNode (list : List NodeElement) : Int × Nat :=
  let (id, place) := nodeNumber list
  if id = 0 ∨ maxId < id then (-eInval, place) else (id, place)

/-! ## Adding a flow -/

structure AddEnv where
  /-- `calloc` for the interface, its context and its bitmap, and for the lower elements. -/
  callocIf : Bool := true
  callocCtx : Bool := true
  bitmapCreate : Bool := true
  callocHt : Bool := true
  callocBkt : Bool := true
  callocNode : Bool := true
  tcAddQdisc : Bool := true
  tcAddFilterDivisor : Bool := true
  tcAddFilterLink : Bool := true
  tcAddFilterDev2tap : Bool := true
  tcDelFilter : Nat → Bool := fun _ => true
  /-- For `add_flow_egress`: another flow of the process has the tap device, and the answers for each
  local address and for the last filter. -/
  tapKnown : Bool := false
  tcAddFilterLocal : List Bool := []
  tcAddFilterTap2dev : Bool := true

/-- The local variables of `add_flow` at its exit; `added` if it went past the last `goto`. -/
structure AddOut where
  rc : Int := 0
  ht : Int
  bkt : Nat
  id : Int
  added : Bool := false
  deriving DecidableEq

def StoreFlow.locals (value : StoreFlow) : AddOut :=
  { ht := handleHt value.handle, bkt := handleBkt value.handle, id := handleId value.handle }

/-- `add_flow` from the bucket on, where the flow is counted first. -/
def BktElement.addNode (b : BktElement) (env : AddEnv) (out : AddOut) : BktElement × AddOut :=
  let b := { b with ref := b.ref + 1 }
  let (id, place) := getNode b.list
  let out := { out with id := id }
  if id ≤ 0 then (b, out)
  else if !env.callocNode then (b, { out with rc := -eNomem })
  else if !env.tcAddFilterDev2tap then (b, { out with rc := -eFault })
  else ({ b with list := b.list.insertIdx place ⟨id.toNat, 0 + 1⟩ }, { out with added := true })

def HtElement.addBkt (t : HtElement) (value : StoreFlow) (env : AddEnv) (out : AddOut) :
    HtElement × AddOut :=
  let t := { t with ref := t.ref + 1 }
  let bkt := getBkt value
  let out := { out with bkt := bkt }
  match t.list.find? fun b => b.value = bkt with
  | some b =>
    let (b, out) := b.addNode env out
    ({ t with list := replaceFirst (fun b => b.value = bkt) [b] t.list }, out)
  | none =>
    if !env.callocBkt then (t, { out with rc := -eNomem })
    else
      let (b, out) := BktElement.addNode { value := bkt } env out
      ({ t with list := t.list ++ [b] }, out)

def StoreFlow.newHt (value : StoreFlow) (htInternal ht : Int) : HtElement where
  type := value.type
  ip := value.dstIp
  htId := ((BitVec.ofInt 32 htInternal <<< 16) &&& 0xFFFF0000#32) |||
    (BitVec.ofInt 32 ht &&& 0x0000FFFF#32)

def IfElement.addHt (i : IfElement) (value : StoreFlow) (env : AddEnv) (out : AddOut) :
    IfElement × AddOut :=
  let i := { i with ref := i.ref + 1 }
  match i.list.find? fun t => t.key = (value.type, value.dstIp) with
  | some t =>
    let (t, out) := t.addBkt value env { out with ht := (t.htId &&& 0x0000FFFF#32).toNat }
    ({ i with list := replaceFirst (fun t => t.key = (value.type, value.dstIp)) [t] i.list }, out)
  | none =>
    if !env.callocHt then (i, { out with rc := -eNomem })
    else
      let (ctx, htInternal, ht) := i.ctx.getHtid (getPrio value)
      let i := { i with ctx := ctx }
      let out := { out with ht := ht }
      if !env.tcAddFilterDivisor then (i, { out with rc := -eFault })
      else if !env.tcAddFilterLink then (i, { out with rc := -eFault })
      else
        let (t, out) := (value.newHt htInternal ht).addBkt value env out
        ({ i with list := i.list ++ [t] }, out)

/-- `add_flow` from the interface on to the end, with the pending tables and the handle. -/
def IfElement.addFlow (i : IfElement) (value : StoreFlow) (env : AddEnv) :
    IfElement × StoreFlow × Int :=
  let (i, out) := i.addHt value env value.locals
  (if out.added then { i with ctx := i.ctx.freePendingList env.tcDelFilter } else i,
    { value with handle := handleSet out.ht out.bkt out.id }, out.rc)

def addFlowEgress (env : AddEnv) : Int :=
  if env.tapKnown then 0
  else if !env.tcAddQdisc then -eFault
  else if !env.tcAddFilterLocal.all id then -eFault
  else if !env.tcAddFilterTap2dev then -eFault
  else 0

/-- `add_flow`, with the flow and its handle, and what is returned. -/
def addFlow (ifList : List IfElement) (value : StoreFlow) (env : AddEnv) :
    List IfElement × StoreFlow × Int :=
  if value.type = .egress then (ifList, value, addFlowEgress env)
  else
    let out := value.locals
    let fail (rc : Int) := (ifList, { value with handle := handleSet out.ht out.bkt out.id }, rc)
    match ifList.find? fun i => i.ifId = value.ifId with
    | some i =>
      let (i, r) := i.addFlow value env
      (replaceFirst (fun i => i.ifId = value.ifId) [i] ifList, r)
    | none =>
      if !env.callocIf then fail (-eNomem)
      else if !env.tcAddQdisc then fail (-eFault)
      else if !env.callocCtx then fail (-eNomem)
      else if !env.bitmapCreate then fail (-eNomem)
      else
        let (i, r) := IfElement.addFlow { ifId := value.ifId, ctx := .new } value env
        (ifList ++ [i], r)

/-! ## Deleting a flow -/

structure DelEnv where
  tcDelFilterNode : Bool := true
  tcDelFilterHt : Bool := true
  tcDelQdisc : Bool := true
  callocPending : Bool := true
  tcDelFilter : Nat → Bool := fun _ => true

/-- `del_flow` from the bucket on, where the flow is counted back at last. -/
def BktElement.delNode (b : BktElement) (id : Nat) (env : DelEnv) : BktElement × Int :=
  let b' := { b with ref := b.ref - 1 }
  match b.list.find? fun e => e.value = id with
  | none => (b', 0)
  | some e =>
    let e := { e with ref := e.ref - 1 }
    if e.ref ≤ 0 then
      ({ b' with list := replaceFirst (fun e => e.value = id) [] b.list },
        if env.tcDelFilterNode then 0 else -eFault)
    else ({ b' with list := replaceFirst (fun e => e.value = id) [e] b.list }, 0)

def HtElement.delBkt (t : HtElement) (bkt id : Nat) (env : DelEnv) : HtElement × Int :=
  let t' := { t with ref := t.ref - 1 }
  match t.list.find? fun b => b.value = bkt with
  | none => (t', 0)
  | some b =>
    let (b, rc) := b.delNode id env
    let rest := if b.list.isEmpty ∧ b.ref ≤ 0 then [] else [b]
    ({ t' with list := replaceFirst (fun b => b.value = bkt) rest t.list }, rc)

def FlowCtx.addPendingList (ctx : FlowCtx) (ht : Nat) (prio : Int) (env : DelEnv) (rc : Int) :
    FlowCtx × Int :=
  if env.callocPending then ({ ctx with pendingList := (ht, prio) :: ctx.pendingList }, rc)
  else (ctx, -eNomem)

def IfElement.delHt (i : IfElement) (value : StoreFlow) (env : DelEnv) : IfElement × Int :=
  let i' := { i with ref := i.ref - 1 }
  match i.list.find? fun t => t.key = (value.type, value.dstIp) with
  | none => (i', 0)
  | some t =>
    let ht := (t.htId &&& 0x0000FFFF#32).toNat
    let (t, rc) := t.delBkt (handleBkt value.handle) (handleId value.handle) env
    if t.list.isEmpty ∧ t.ref ≤ 0 then
      let rc := if env.tcDelFilterHt then rc else -eFault
      let (ctx, rc) := i.ctx.addPendingList ht (getPrio value) env rc
      ({ i' with
          ctx := ctx
          list := replaceFirst (fun t => t.key = (value.type, value.dstIp)) [] i.list }, rc)
    else
      ({ i' with list := replaceFirst (fun t => t.key = (value.type, value.dstIp)) [t] i.list }, rc)

/-- `del_flow`. The context of an interface that goes is freed with it, and `free_pending_list` is called
with that context all the same: the last component says so. -/
def delFlow (ifList : List IfElement) (value : StoreFlow) (env : DelEnv) :
    List IfElement × Int × Bool :=
  match ifList.find? fun i => i.ifId = value.ifId with
  | none => (ifList, 0, false)
  | some i =>
    let (i, rc) := i.delHt value env
    if i.list.isEmpty ∧ i.ref ≤ 0 then
      (replaceFirst (fun i => i.ifId = value.ifId) [] ifList, if env.tcDelQdisc then rc else -eFault,
        true)
    else
      let i := { i with ctx := i.ctx.freePendingList env.tcDelFilter }
      (replaceFirst (fun i => i.ifId = value.ifId) [i] ifList, rc, false)

/-! ## What is returned -/

section Returned

variable {env : AddEnv} {value : StoreFlow} {out : AddOut}

end Returned

/-! ## Failures -/

def BktElement.noId (b : BktElement) : Bool := (getNode b.list).1 ≤ 0

def HtElement.noId (t : HtElement) (value : StoreFlow) : Bool :=
  match t.list.find? fun b => b.value = getBkt value with
  | some b => b.noId
  | none => false

/-- There is no number for the table that the flow needs, or for its node. -/
def IfElement.noId (i : IfElement) (value : StoreFlow) : Bool :=
  match i.list.find? fun t => t.key = (value.type, value.dstIp) with
  | some t => t.noId value
  | none => bitmapFindFirstZero i.ctx.ht < 0

def noId (ifList : List IfElement) (value : StoreFlow) : Bool :=
  value.type ≠ .egress &&
    match ifList.find? fun i => i.ifId = value.ifId with
    | some i => i.noId value
    | none => false

def AddEnv.nodeOk (env : AddEnv) (b : BktElement) : Bool :=
  !b.noId && env.callocNode && env.tcAddFilterDev2tap

def AddEnv.bktOk (env : AddEnv) (t : HtElement) (value : StoreFlow) : Bool :=
  match t.list.find? fun b => b.value = getBkt value with
  | some b => env.nodeOk b
  | none => env.callocBkt && env.callocNode && env.tcAddFilterDev2tap

def AddEnv.htOk (env : AddEnv) (i : IfElement) (value : StoreFlow) : Bool :=
  match i.list.find? fun t => t.key = (value.type, value.dstIp) with
  | some t => env.bktOk t value
  | none =>
    env.callocHt && 0 ≤ bitmapFindFirstZero i.ctx.ht && env.tcAddFilterDivisor && env.tcAddFilterLink &&
      env.callocBkt && env.callocNode && env.tcAddFilterDev2tap

def AddEnv.ifOk (env : AddEnv) : Bool :=
  env.callocIf && env.tcAddQdisc && env.callocCtx && env.bitmapCreate

/-- Nothing fails once the flow is counted at its interface: it is counted at none, the interface cannot
be made, or everything below goes well. -/
def addOrderly (ifList : List IfElement) (value : StoreFlow) (env : AddEnv) : Bool :=
  value.type = .egress ||
    match ifList.find? fun i => i.ifId = value.ifId with
    | some i => env.htOk i value
    | none => !env.ifOk || env.htOk { ifId := value.ifId, ctx := .new } value

/-- A failed call, or one without a number for its table or node, reports it and leaves the tree as it
was. -/
def AddRight (ifList : List IfElement) (value : StoreFlow) (env : AddEnv) : Prop :=
  (addFlow ifList value env).2.2 < 0 ∨ noId ifList value = true →
    (addFlow ifList value env).2.2 < 0 ∧ (addFlow ifList value env).1 = ifList

section Failures

variable {env : AddEnv} {value : StoreFlow} {out : AddOut} {b : BktElement} {t : HtElement}
  {i : IfElement} {ifList : List IfElement}

theorem BktElement.addNode_fails (h : out.rc = 0) :
    env.nodeOk b = false ↔ (b.addNode env out).2.rc < 0 ∨ b.noId = true := by
  unfold BktElement.addNode AddEnv.nodeOk BktElement.noId
  by_cases hid : (getNode b.list).1 ≤ 0
  · simp [hid]
  · cases hc : env.callocNode <;> cases hd : env.tcAddFilterDev2tap <;>
      simp [hid, h, eNomem, eFault]

theorem HtElement.addBkt_found (hf : (t.list.find? fun b => b.value = getBkt value) = some b) :
    t.addBkt value env out =
      ({ t with
          ref := t.ref + 1
          list := replaceFirst (fun b => b.value = getBkt value)
            [(b.addNode env { out with bkt := getBkt value }).1] t.list },
        (b.addNode env { out with bkt := getBkt value }).2) := by
  unfold HtElement.addBkt
  simp only [hf]

theorem HtElement.addBkt_new (hf : (t.list.find? fun b => b.value = getBkt value) = none) :
    t.addBkt value env out =
      if !env.callocBkt then
        ({ t with ref := t.ref + 1 }, { out with bkt := getBkt value, rc := -eNomem })
      else
        ({ t with
            ref := t.ref + 1
            list := t.list ++
              [(BktElement.addNode { value := getBkt value } env { out with bkt := getBkt value }).1] },
          (BktElement.addNode { value := getBkt value } env { out with bkt := getBkt value }).2) := by
  unfold HtElement.addBkt
  simp only [hf]

theorem HtElement.addBkt_fails (h : out.rc = 0) :
    env.bktOk t value = false ↔ (t.addBkt value env out).2.rc < 0 ∨ t.noId value = true := by
  cases hf : t.list.find? fun b => b.value = getBkt value with
  | some b =>
    simp only [HtElement.addBkt_found hf, AddEnv.bktOk, HtElement.noId, hf]
    exact BktElement.addNode_fails h
  | none =>
    simp only [HtElement.addBkt_new hf, AddEnv.bktOk, HtElement.noId, hf]
    cases hc : env.callocBkt with
    | false => simp [eNomem]
    | true =>
      have hnew := @BktElement.addNode_fails env { out with bkt := getBkt value }
        { value := getBkt value } h
      have hid : BktElement.noId { value := getBkt value } = false := rfl
      simp only [AddEnv.nodeOk, hid, Bool.not_false, Bool.true_and, Bool.false_eq_true,
        or_false] at hnew
      simpa only [Bool.true_and, Bool.not_true, Bool.false_eq_true, ↓reduceIte, or_false] using hnew

theorem IfElement.addHt_found (env : AddEnv) (out : AddOut)
    (hf : (i.list.find? fun t => t.key = (value.type, value.dstIp)) = some t) :
    ∃ ht, i.addHt value env out =
      ({ i with
          ref := i.ref + 1
          list := replaceFirst (fun t => t.key = (value.type, value.dstIp))
            [(t.addBkt value env { out with ht := ht }).1] i.list },
        (t.addBkt value env { out with ht := ht }).2) := by
  unfold IfElement.addHt
  simp only [hf]
  exact ⟨_, rfl⟩

theorem IfElement.addHt_new (env : AddEnv) (out : AddOut)
    (hf : (i.list.find? fun t => t.key = (value.type, value.dstIp)) = none) :
    ∃ ctx htInternal ht, i.addHt value env out =
      if !env.callocHt then ({ i with ref := i.ref + 1 }, { out with rc := -eNomem })
      else if !(env.tcAddFilterDivisor && env.tcAddFilterLink) then
        ({ i with ref := i.ref + 1, ctx := ctx }, { out with ht := ht, rc := -eFault })
      else
        let r := (value.newHt htInternal ht).addBkt value env { out with ht := ht }
        ({ i with ref := i.ref + 1, ctx := ctx, list := i.list ++ [r.1] }, r.2) := by
  refine ⟨(i.ctx.getHtid (getPrio value)).1, (i.ctx.getHtid (getPrio value)).2.1,
    (i.ctx.getHtid (getPrio value)).2.2, ?_⟩
  unfold IfElement.addHt
  simp only [hf]
  cases env.tcAddFilterDivisor <;> cases env.tcAddFilterLink <;> rfl

theorem IfElement.addHt_fails (h : out.rc = 0) :
    env.htOk i value = false ↔ (i.addHt value env out).2.rc < 0 ∨ i.noId value = true := by
  cases hf : i.list.find? fun t => t.key = (value.type, value.dstIp) with
  | some t =>
    obtain ⟨ht, heq⟩ := IfElement.addHt_found env out hf
    simp only [heq, AddEnv.htOk, IfElement.noId, hf]
    exact HtElement.addBkt_fails h
  | none =>
    obtain ⟨ctx, htInternal, ht, heq⟩ := IfElement.addHt_new env out hf
    simp only [heq, AddEnv.htOk, IfElement.noId, hf]
    by_cases hid : bitmapFindFirstZero i.ctx.ht < 0
    · simp [hid, Int.not_le.mpr hid]
    -- in a new table the bucket is new as well
    have hnew := @HtElement.addBkt_fails env value { out with ht := ht } (value.newHt htInternal ht) h
    have hnone : (value.newHt htInternal ht).noId value = false := rfl
    have hok : env.bktOk (value.newHt htInternal ht) value =
      (env.callocBkt && env.callocNode && env.tcAddFilterDev2tap) := rfl
    rw [hnone, hok, or_iff_left Bool.false_ne_true] at hnew
    have hle : 0 ≤ bitmapFindFirstZero i.ctx.ht := Int.not_lt.mp hid
    simp only [hle, hid, decide_true, decide_false, Bool.and_true, Bool.false_eq_true, or_false]
    cases hc : env.callocHt with
    | false => simp [eNomem]
    | true =>
      cases hd : env.tcAddFilterDivisor <;> cases hl : env.tcAddFilterLink
      case true.true => simpa using hnew
      all_goals simp [eFault]

theorem IfElement.addHt_ref (i : IfElement) (value : StoreFlow) (env : AddEnv) (out : AddOut) :
    (i.addHt value env out).1.ref = i.ref + 1 ∧ (i.addHt value env out).1.ifId = i.ifId := by
  cases hf : i.list.find? fun t => t.key = (value.type, value.dstIp) with
  | some t =>
    obtain ⟨ht, heq⟩ := IfElement.addHt_found env out hf
    rw [heq]
    exact ⟨rfl, rfl⟩
  | none =>
    obtain ⟨ctx, htInternal, ht, heq⟩ := IfElement.addHt_new env out hf
    rw [heq]
    split
    · exact ⟨rfl, rfl⟩
    · split <;> exact ⟨rfl, rfl⟩

theorem IfElement.addFlow_ref (i : IfElement) (value : StoreFlow) (env : AddEnv) :
    (i.addFlow value env).1.ref = i.ref + 1 ∧ (i.addFlow value env).1.ifId = i.ifId := by
  have h := i.addHt_ref value env value.locals
  unfold IfElement.addFlow
  dsimp only
  split <;> exact h

theorem addFlow_found (hreg : value.type ≠ .egress)
    (hf : (ifList.find? fun i => i.ifId = value.ifId) = some i) :
    addFlow ifList value env =
      (replaceFirst (fun i => i.ifId = value.ifId) [(i.addFlow value env).1] ifList,
        (i.addFlow value env).2) := by
  unfold addFlow
  rw [if_neg hreg]
  simp only [hf]

theorem addFlow_new (hreg : value.type ≠ .egress)
    (hf : (ifList.find? fun i => i.ifId = value.ifId) = none) (hok : env.ifOk = true) :
    addFlow ifList value env =
      (ifList ++ [(IfElement.addFlow { ifId := value.ifId, ctx := .new } value env).1],
        (IfElement.addFlow { ifId := value.ifId, ctx := .new } value env).2) := by
  simp only [AddEnv.ifOk, Bool.and_eq_true] at hok
  obtain ⟨⟨⟨h1, h2⟩, h3⟩, h4⟩ := hok
  unfold addFlow
  rw [if_neg hreg]
  simp only [hf, h1, h2, h3, h4, Bool.not_true, Bool.false_eq_true, ↓reduceIte]

theorem addFlow_noIf (hreg : value.type ≠ .egress)
    (hf : (ifList.find? fun i => i.ifId = value.ifId) = none) (hno : env.ifOk = false) :
    (addFlow ifList value env).1 = ifList ∧ (addFlow ifList value env).2.2 < 0 := by
  unfold addFlow
  rw [if_neg hreg]
  simp only [hf]
  unfold AddEnv.ifOk at hno
  cases h1 : env.callocIf <;> cases h2 : env.tcAddQdisc <;> cases h3 : env.callocCtx <;>
    cases h4 : env.bitmapCreate <;> simp_all [eNomem, eFault]

theorem IfElement.noId_new : IfElement.noId { ifId := value.ifId, ctx := .new } value = false := by
  have h : bitmapFindFirstZero FlowCtx.new.ht = 1 := by decide +kernel
  show decide (bitmapFindFirstZero FlowCtx.new.ht < 0) = false
  rw [h]
  rfl

theorem addFlow_ne (ifList : List IfElement) (env : AddEnv) (hreg : value.type ≠ .egress)
    (h : env.ifOk = true ∨ (ifList.find? fun i => i.ifId = value.ifId).isSome) :
    (addFlow ifList value env).1 ≠ ifList := by
  cases hf : ifList.find? fun i => i.ifId = value.ifId with
  | some i =>
    rw [addFlow_found hreg hf]
    intro heq
    have heq : replaceFirst (fun i => i.ifId = value.ifId) [(i.addFlow value env).1] ifList = ifList :=
      heq
    have hid : i.ifId = value.ifId := by simpa using List.find?_some hf
    obtain ⟨href, hif⟩ := i.addFlow_ref value env
    have hfind := replaceFirst_find hf (decide_eq_true (hif.trans hid))
    rw [heq, hf, Option.some_inj] at hfind
    have : i.ref = i.ref + 1 := (congrArg IfElement.ref hfind).trans href
    omega
  | none =>
    rw [addFlow_new hreg hf (by simpa [hf] using h)]
    intro heq
    have := congrArg List.length heq
    simp at this

theorem addFlow_right_iff : AddRight ifList value env ↔ addOrderly ifList value env = true := by
  by_cases hreg : value.type = .egress
  · simp only [AddRight, addOrderly, noId, hreg, addFlow, ↓reduceIte]
    simp
  unfold AddRight addOrderly noId
  simp only [hreg, decide_false, Bool.false_or, ne_eq, not_false_eq_true, decide_true, Bool.true_and]
  cases hf : ifList.find? fun i => i.ifId = value.ifId with
  | some i =>
    have hne := addFlow_ne ifList env hreg (.inr (by rw [hf]; rfl))
    have hfails := @IfElement.addHt_fails env value value.locals i rfl
    have hrc : (addFlow ifList value env).2.2 = (i.addHt value env value.locals).2.rc := by
      rw [addFlow_found hreg hf]
      rfl
    simp only [hne, and_false, imp_false, hrc]
    rw [← hfails, Bool.not_eq_false]
  | none =>
    cases hok : env.ifOk with
    | false =>
      have := addFlow_noIf hreg hf hok
      simp [this]
    | true =>
      have hne := addFlow_ne ifList env hreg (.inl hok)
      have hfails := @IfElement.addHt_fails env value value.locals
        { ifId := value.ifId, ctx := .new } rfl
      have hrc : (addFlow ifList value env).2.2 =
          (IfElement.addHt { ifId := value.ifId, ctx := .new } value env value.locals).2.rc := by
        rw [addFlow_new hreg hf hok]
        rfl
      rw [IfElement.noId_new] at hfails
      simp only [hne, and_false, imp_false, hrc, Bool.not_true, Bool.false_or]
      rw [← hfails, Bool.not_eq_false]

end Failures

end LibvmaTlt.Daemon
