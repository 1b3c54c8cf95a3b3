import Mathlib.Data.List.Perm.Subperm
import Mathlib.Data.List.TakeWhile
import Mathlib.Tactic.Common
import LibvmaTlt.Lib.Chain
import LibvmaTlt.Lib.Reach

/-!
# Transmit credits (`ring_simple::send_buffer`)

A work request takes a credit of the ring and gives it back when its completion is processed. Only some
requests ask for a completion. The descriptors of the others are linked through `p_next_desc` to the next
one that does, whose completion gives back the credits of the whole chain. A request that the queue pair
refuses never gives its credit back.
-/

namespace LibvmaTlt.Dev

structure WorkRequest where
  desc : Nat
  signaled : Bool
  deriving DecidableEq

/-- The transmit side of a ring with descriptors below `numBufs`. The requests of `sq` are posted and
their completion has not been processed; the oldest is first. -/
structure TxRing where
  numBufs : Nat
  txNumWr : Int
  txNumWrFree : Int
  txNumWrToSignal : BitVec 32
  nextDesc : Nat → Option Nat := fun _ => none
  lastTxMemBufDesc : Option Nat := none
  unsignaledCount : BitVec 32 := 0
  sq : List WorkRequest := []

/-- `put_tx_buffers` on the links of the descriptors, with the number of buffers. -/
def putTxBuffers : Nat → (Nat → Option Nat) → Option Nat → (Nat → Option Nat) × Nat
  | f + 1, next, some d =>
    let r := putTxBuffers f (Function.update next d none) (next d)
    (r.1, r.2 + 1)
  | _, next, _ => (next, 0)

namespace TxRing

def processTx (s : TxRing) : Option TxRing :=
  match s.sq.dropWhile (!·.signaled) with
  | [] => none
  | w :: sq =>
    let r := putTxBuffers s.numBufs s.nextDesc (some w.desc)
    some { s with sq := sq, nextDesc := r.1, txNumWrFree := s.txNumWrFree + r.2 }

/-- `poll_and_process_element_tx`, if the poll finds as many completions as there are up to `n`. -/
def pollAndProcessElementTx : Nat → TxRing → TxRing × Nat
  | 0, s => (s, 0)
  | n + 1, s =>
    match s.processTx with
    | none => (s, 0)
    | some s' =>
      let r := pollAndProcessElementTx n s'
      (r.1, r.2 + 1)

/-- `is_available_qp_wr` without blocking; the answers of the polls that it does not use are left. -/
def isAvailableQpWr (s : TxRing) (polls : List Nat) : TxRing × Bool × List Nat :=
  if s.txNumWrFree > 0 then ({ s with txNumWrFree := s.txNumWrFree - 1 }, true, polls)
  else
    match polls with
    | [] => (s, false, [])
    | n :: polls =>
      let r := pollAndProcessElementTx n s
      if r.2 > 0 then isAvailableQpWr r.1 polls else (r.1, false, polls)

/-- `qp_mgr::send`; `posts` is the outcome of `post_send`. -/
def send (s : TxRing) (d : Nat) (posts : Bool) (polls : List Nat) : TxRing × Bool :=
  if !posts then (s, false)
  else
    let requestComp := s.unsignaledCount = 0
    let s' : TxRing := { s with
      sq := s.sq ++ [⟨d, requestComp⟩], nextDesc := Function.update s.nextDesc d s.lastTxMemBufDesc }
    if requestComp then
      ((pollAndProcessElementTx (polls.headD 0)
        { s' with unsignaledCount := s.txNumWrToSignal - 1, lastTxMemBufDesc := none }).1, true)
    else ({ s' with unsignaledCount := s.unsignaledCount - 1, lastTxMemBufDesc := some d }, true)

def sendBuffer (s : TxRing) (d : Nat) (posts : Bool) (polls : List Nat) : TxRing × Bool :=
  if s.txNumWrFree > 0 then
    let r := s.send d posts polls
    ({ r.1 with txNumWrFree := r.1.txNumWrFree - 1 }, r.2)
  else
    let a := s.isAvailableQpWr polls
    if a.2.1 then a.1.send d posts a.2.2
    else ({ a.1 with nextDesc := Function.update a.1.nextDesc d none }, false)

/-- `send_status_handler` releases the buffer of a request that was not posted. -/
def sendStatusHandler (s : TxRing) (sent : Bool) (d : Nat) : TxRing :=
  if sent then s else { s with nextDesc := (putTxBuffers s.numBufs s.nextDesc (some d)).1 }

end TxRing

inductive TxAct where
  /-- `send_ring_buffer` or `send_lwip_buffer`. -/
  | send (desc : Nat) (posts : Bool) (polls : List Nat)
  | poll (n : Nat)

def TxRing.step (s : TxRing) : TxAct → TxRing
  | .send d posts polls => (s.sendBuffer d posts polls).1.sendStatusHandler (s.sendBuffer d posts polls).2 d
  | .poll n => (pollAndProcessElementTx n s).1

/-- No descriptor is sent that is outstanding. -/
def TxRing.admits (s : TxRing) : TxAct → Prop
  | .send d _ _ => d < s.numBufs ∧ d ∉ s.sq.map (·.desc)
  | .poll _ => True

def TxAct.Posts : TxAct → Prop
  | .send _ posts _ => posts = true
  | .poll _ => True

/-! ## The chains of descriptors -/

/-- Behind `prev`, every descriptor links to the one before it that asked for no completion. -/
def Linked (next : Nat → Option Nat) (last : Option Nat) : Option Nat → List WorkRequest → Prop
  | prev, [] => last = prev
  | prev, w :: sq => next w.desc = prev ∧ Linked next last (if w.signaled then none else some w.desc) sq

section Linked

variable {next next' : Nat → Option Nat} {last prev : Option Nat} {sq pre : List WorkRequest}
  {w : WorkRequest} {l : List Nat}

theorem putTxBuffers_eq {f : Nat} (h : Chain next prev l) (hnd : l.Nodup) (hf : l.length ≤ f) :
    putTxBuffers f next prev = (fun d => if d ∈ l then none else next d, l.length) := by
  induction l generalizing next prev f with
  | nil =>
    obtain rfl := Chain.nil_iff.mp h
    cases f <;> simp [putTxBuffers]
  | cons b l ih =>
    obtain ⟨rfl, hl⟩ := Chain.cons_iff.mp h
    obtain ⟨hb, hnd⟩ := List.nodup_cons.mp hnd
    obtain ⟨f, rfl⟩ : ∃ g, f = g + 1 := ⟨f - 1, by simp only [List.length_cons] at hf; omega⟩
    have hrest : Chain (Function.update next b none) (next b) l :=
      hl.transport fun c hc => Function.update_of_ne (by rintro rfl; exact hb hc) _ _
    rw [putTxBuffers, ih hrest hnd (by simpa using hf)]
    refine Prod.ext (funext fun d => ?_) rfl
    by_cases hd : d = b <;> simp [hd]

theorem Linked.congr (h : Linked next last prev sq) (heq : ∀ w ∈ sq, next' w.desc = next w.desc) :
    Linked next' last prev sq := by
  induction sq generalizing prev with
  | nil => exact h
  | cons w sq ih => exact ⟨(heq w (by simp)).trans h.1, ih h.2 fun v hv => heq v (by simp [hv])⟩

theorem Linked.concat {d : Nat} {signaled : Bool} (h : Linked next last prev sq)
    (hd : d ∉ sq.map (·.desc)) :
    Linked (Function.update next d last) (if signaled then none else some d) prev (sq ++ [⟨d, signaled⟩]) := by
  induction sq generalizing prev with
  | nil => exact ⟨(Function.update_self ..).trans h, rfl⟩
  | cons w sq ih =>
    simp only [List.map_cons, List.mem_cons, not_or] at hd
    exact ⟨(Function.update_of_ne (Ne.symm hd.1) _ _).trans h.1, ih h.2 hd.2⟩

theorem Linked.chain (h : Linked next last prev (pre ++ w :: sq)) (hpre : ∀ v ∈ pre, v.signaled = false)
    (hl : Chain next prev l) :
    Chain next (some w.desc) (w.desc :: ((pre.map (·.desc)).reverse ++ l)) ∧
      Linked next last (if w.signaled then none else some w.desc) sq := by
  induction pre generalizing prev l with
  | nil =>
    obtain ⟨rfl, h⟩ := h
    exact ⟨Chain.cons_iff.mpr ⟨rfl, hl⟩, h⟩
  | cons v pre ih =>
    obtain ⟨rfl, h⟩ := h
    rw [hpre v (by simp)] at h
    have := ih h (fun u hu => hpre u (by simp [hu])) (Chain.cons_iff.mpr ⟨rfl, hl⟩)
    simpa using this

end Linked

namespace TxRing

structure Posted (s : TxRing) : Prop where
  linked : Linked s.nextDesc s.lastTxMemBufDesc none s.sq
  idle : ∀ d ∉ s.sq.map (·.desc), s.nextDesc d = none
  nodup : (s.sq.map (·.desc)).Nodup
  bufs : ∀ w ∈ s.sq, w.desc < s.numBufs

/-- Completions are processed: the credits given back are those of the requests that are done with. -/
structure Gives (s s' : TxRing) : Prop where
  posted : s'.Posted
  total : s'.txNumWrFree + s'.sq.length = s.txNumWrFree + s.sq.length
  numWr : s'.txNumWr = s.txNumWr
  bufs : s'.numBufs = s.numBufs
  free : s.txNumWrFree ≤ s'.txNumWrFree
  sq : s'.sq ⊆ s.sq

variable {s s' s'' : TxRing} {d : Nat} {polls : List Nat}

theorem Gives.refl (h : s.Posted) : s.Gives s := ⟨h, rfl, rfl, rfl, Int.le_refl _, fun _ hw => hw⟩

theorem Gives.trans (h : s.Gives s') (h' : s'.Gives s'') : s.Gives s'' :=
  ⟨h'.posted, h'.total.trans h.total, h'.numWr.trans h.numWr, h'.bufs.trans h.bufs,
    Int.le_trans h.free h'.free, fun _ hw => h.sq (h'.sq hw)⟩

theorem Posted.processTx (h : s.Posted) (hp : s.processTx = some s') : s.Gives s' := by
  unfold TxRing.processTx at hp
  split at hp
  · cases hp
  rename_i w sq hsq
  obtain rfl := Option.some.inj hp
  have hpre : ∀ v ∈ s.sq.takeWhile (!·.signaled), v.signaled = false := fun v hv => by
    simpa using List.mem_takeWhile_imp hv
  have heq : s.sq.takeWhile (!·.signaled) ++ w :: sq = s.sq := hsq ▸ List.takeWhile_append_dropWhile
  have hw : w.signaled = true := by
    have := List.head?_dropWhile_not (!·.signaled) s.sq
    rw [hsq] at this
    simpa using this
  generalize s.sq.takeWhile (!·.signaled) = pre at hpre heq
  obtain ⟨hlinked, hidle, hnd, hbufs⟩ := h
  rw [← heq] at hlinked hidle hnd hbufs
  obtain ⟨hchain, hrest⟩ := hlinked.chain hpre (Chain.nil_iff.mpr rfl)
  rw [hw, if_pos rfl] at hrest
  have hperm : (w.desc :: ((pre.map (·.desc)).reverse ++ [])).Perm ((pre ++ [w]).map (·.desc)) := by
    rw [List.append_nil, List.map_append]
    exact ((List.reverse_perm _).cons _).trans (List.perm_append_singleton ..).symm
  rw [List.append_cons, List.map_append] at hnd
  obtain ⟨hnd1, hnd2, hdisj⟩ := List.nodup_append.mp hnd
  have hlen : (w.desc :: ((pre.map (·.desc)).reverse ++ [])).length ≤ s.numBufs := by
    have hsub : w.desc :: ((pre.map (·.desc)).reverse ++ []) ⊆ List.range s.numBufs := by
      intro d hd
      obtain ⟨v, hv, rfl⟩ := List.mem_map.mp (hperm.mem_iff.mp hd)
      rw [List.append_cons] at hbufs
      exact List.mem_range.mpr (hbufs v (List.mem_append_left _ hv))
    simpa using (List.subperm_of_subset (hperm.nodup_iff.mpr hnd1) hsub).length_le
  rw [putTxBuffers_eq hchain (hperm.nodup_iff.mpr hnd1) hlen]
  simp only [hperm.mem_iff, hperm.length_eq]
  refine ⟨⟨?_, ?_, hnd2, ?_⟩, ?_, rfl, rfl, by simp only; omega, ?_⟩
  · refine hrest.congr fun v hv => if_neg fun hm => ?_
    exact hdisj _ hm _ (List.mem_map_of_mem hv) rfl
  · intro d hd
    dsimp only
    split
    · rfl
    · rename_i hm
      refine hidle d ?_
      rw [List.append_cons, List.map_append]
      exact List.not_mem_append hm hd
  · exact fun v hv => hbufs v (by simp [hv])
  · rw [← heq]
    simp only [List.length_map, List.length_append, List.length_cons, List.length_nil]
    omega
  · rw [← heq]
    exact fun v hv => by simp [hv]

theorem Posted.poll (h : s.Posted) (n : Nat) : s.Gives (pollAndProcessElementTx n s).1 := by
  induction n generalizing s with
  | zero => exact .refl h
  | succ n ih =>
    unfold pollAndProcessElementTx
    cases hp : s.processTx with
    | none => exact .refl h
    | some s' =>
      have hg := h.processTx hp
      exact hg.trans (ih hg.posted)

theorem Posted.release (h : s.Posted) (hd : d ∉ s.sq.map (·.desc)) (hlt : d < s.numBufs) :
    (putTxBuffers s.numBufs s.nextDesc (some d)).1 = s.nextDesc := by
  have hnone := h.idle d hd
  have hchain : Chain s.nextDesc (some d) [d] := by simp [hnone]
  rw [putTxBuffers_eq hchain (by simp) (by simp; omega)]
  funext e
  by_cases he : e = d <;> simp [he, hnone]

theorem Posted.isAvailable (h : s.Posted) :
    ∃ s₁, s.Gives s₁ ∧ (s.isAvailableQpWr polls).1 =
      (if (s.isAvailableQpWr polls).2.1 then { s₁ with txNumWrFree := s₁.txNumWrFree - 1 } else s₁) ∧
        ((s.isAvailableQpWr polls).2.1 = true → 0 < s₁.txNumWrFree) := by
  induction polls generalizing s with
  | nil =>
    unfold isAvailableQpWr
    split
    · exact ⟨s, .refl h, rfl, fun _ => ‹_›⟩
    · exact ⟨s, .refl h, rfl, by simp⟩
  | cons n polls ih =>
    unfold isAvailableQpWr
    have hg := h.poll n
    split
    · exact ⟨s, .refl h, rfl, fun _ => ‹_›⟩
    dsimp only
    split
    · obtain ⟨s₁, hg₁, heq, hpos⟩ := ih hg.posted
      exact ⟨s₁, hg.trans hg₁, heq, hpos⟩
    · exact ⟨_, hg, rfl, by simp⟩

theorem Posted.concat (h : s.Posted) (hlt : d < s.numBufs) (hd : d ∉ s.sq.map (·.desc)) (signaled : Bool)
    (c : BitVec 32) :
    Posted { s with
      sq := s.sq ++ [⟨d, signaled⟩], nextDesc := Function.update s.nextDesc d s.lastTxMemBufDesc
      unsignaledCount := c, lastTxMemBufDesc := if signaled then none else some d } := by
  refine ⟨h.linked.concat hd, ?_, ?_, ?_⟩
  · intro e he
    simp only [List.map_append, List.map_cons, List.map_nil, List.mem_append, List.mem_singleton,
      not_or] at he
    exact (Function.update_of_ne he.2 _ _).trans (h.idle e he.1)
  · simpa [List.nodup_append] using ⟨h.nodup, fun w hw he => hd (List.mem_map.mpr ⟨w, hw, he⟩)⟩
  · intro w hw
    rcases List.mem_append.mp hw with hw | hw
    · exact h.bufs w hw
    · obtain rfl := List.mem_singleton.mp hw
      exact hlt

theorem Posted.send (polls : List Nat) (h : s.Posted) (hlt : d < s.numBufs) (hd : d ∉ s.sq.map (·.desc)) :
    (s.send d true polls).2 = true ∧ ∃ s₁ : TxRing, s₁.Gives (s.send d true polls).1 ∧
      s₁.txNumWrFree = s.txNumWrFree ∧ s₁.sq.length = s.sq.length + 1 ∧ s₁.txNumWr = s.txNumWr := by
  unfold TxRing.send
  simp only [Bool.not_true, Bool.false_eq_true, if_false]
  by_cases hc : s.unsignaledCount = 0
  · have hp := h.concat hlt hd true (s.txNumWrToSignal - 1)
    simp only [hc, if_true, decide_true]
    exact ⟨trivial, _, hp.poll _, rfl, by simp, rfl⟩
  · have hp := h.concat hlt hd false (s.unsignaledCount - 1)
    simp only [hc, if_false, decide_false]
    exact ⟨trivial, _, .refl hp, rfl, by simp, rfl⟩

/-- The credits that are missing are those of the requests posted. -/
structure Balanced (s : TxRing) : Prop where
  posted : s.Posted
  nonneg : 0 ≤ s.txNumWrFree
  credits : s.txNumWrFree + s.sq.length = s.txNumWr

theorem Balanced.step (h : s.Balanced) {a : TxAct} (ha : s.admits a) (hp : a.Posts) :
    (s.step a).Balanced := by
  cases a with
  | poll n =>
    have hg := h.posted.poll n
    exact ⟨hg.posted, Int.le_trans h.nonneg hg.free, hg.total.trans (h.credits.trans hg.numWr.symm)⟩
  | send d posts polls =>
    obtain ⟨hlt, hd⟩ := ha
    obtain rfl : posts = true := hp
    have hcredits := h.credits
    simp only [TxRing.step, sendBuffer]
    split
    · obtain ⟨hsent, s₁, hg, hfree, hlen, hwr⟩ := h.posted.send polls hlt hd
      have htotal := hg.total
      have hle := hg.free
      have hnum := hg.numWr
      have hnonneg := h.nonneg
      rw [hsent, sendStatusHandler, if_pos rfl]
      exact ⟨⟨hg.posted.linked, hg.posted.idle, hg.posted.nodup, hg.posted.bufs⟩, by simp only; omega,
        by simp only; omega⟩
    · obtain ⟨s₁, hg, heq, hpos⟩ := @Posted.isAvailable s polls h.posted
      have hd₁ : d ∉ s₁.sq.map (·.desc) := fun hm => hd (List.map_subset _ hg.sq hm)
      have hlt₁ : d < s₁.numBufs := hg.bufs ▸ hlt
      have htotal := hg.total
      have hle := hg.free
      have hnum := hg.numWr
      have hnonneg := h.nonneg
      generalize s.isAvailableQpWr polls = a at heq hpos ⊢
      obtain ⟨a, available, polls⟩ := a
      cases available with
      | false =>
        obtain rfl : a = s₁ := heq
        have hself : Function.update a.nextDesc d none = a.nextDesc :=
          Function.update_eq_self_iff.mpr (hg.posted.idle d hd₁).symm
        simp only [Bool.false_eq_true, if_false, hself, sendStatusHandler]
        rw [hg.posted.release hd₁ hlt₁]
        exact ⟨hg.posted, by simp only; omega, by simp only; omega⟩
      | true =>
        obtain rfl : a = { s₁ with txNumWrFree := s₁.txNumWrFree - 1 } := heq
        have hpos := hpos rfl
        have hp : Posted { s₁ with txNumWrFree := s₁.txNumWrFree - 1 } :=
          ⟨hg.posted.linked, hg.posted.idle, hg.posted.nodup, hg.posted.bufs⟩
        obtain ⟨hsent, s₂, hg₂, hfree₂, hlen₂, hwr₂⟩ := hp.send polls hlt₁ hd₁
        have htotal₂ := hg₂.total
        have hle₂ := hg₂.free
        have hnum₂ := hg₂.numWr
        simp only [if_true]
        rw [hsent, sendStatusHandler, if_pos rfl]
        simp only at hfree₂ hlen₂ hwr₂
        exact ⟨hg₂.posted, by omega, by omega⟩

end TxRing

/-- A ring as it is made: all credits are free and no descriptor is linked. -/
def txRing (numBufs numWr : Nat) (toSignal : BitVec 32) : TxRing :=
  { numBufs := numBufs, txNumWr := numWr, txNumWrFree := numWr, txNumWrToSignal := toSignal }

/-- **Credits are conserved** in every run in which `post_send` succeeds. -/
theorem credits_conserved {numBufs numWr : Nat} {toSignal : BitVec 32} {s : TxRing}
    (h : Reach TxRing.step (fun s a => s.admits a ∧ a.Posts) (txRing numBufs numWr toSignal) s) :
    s.txNumWrFree = s.txNumWr - s.sq.length ∧ 0 ≤ s.txNumWrFree ∧ s.txNumWrFree ≤ s.txNumWr := by
  have h₀ : (txRing numBufs numWr toSignal).Balanced :=
    ⟨⟨rfl, fun _ _ => rfl, .nil, by simp [txRing]⟩, Int.natCast_nonneg _, by simp [txRing]⟩
  have hb := h.inv h₀ fun s a hs ha => hs.step ha.1 ha.2
  have := hb.credits
  have := hb.nonneg
  omega

/-- Three requests of a ring with two credits, the third after the completion of the first. -/
theorem credits_conserved_three :
    let s := (((txRing 3 2 2).step (.send 0 true [0])).step (.send 1 true [])).step (.send 2 true [1])
    s.sq.length = 2 ∧ s.txNumWrFree = s.txNumWr - s.sq.length := by
  intro s
  have hrun : Reach TxRing.step (fun s a => s.admits a ∧ a.Posts) (txRing 3 2 2) s := by
    refine .next (.next (.next .start _ ⟨?_, rfl⟩) _ ⟨?_, rfl⟩) _ ⟨?_, rfl⟩ <;>
      simp only [TxRing.admits] <;> decide
  exact ⟨rfl, (credits_conserved hrun).1⟩

/-- **A refused request keeps its credit**: nothing is outstanding, and the only credit is gone. -/
theorem credit_lost :
    let s := (txRing 1 1 1).step (.send 0 false [])
    Reach TxRing.step TxRing.admits (txRing 1 1 1) s ∧ s.sq = [] ∧ s.txNumWr = 1 ∧ s.txNumWrFree = 0 := by
  refine ⟨.next .start _ ?_, rfl, rfl, rfl⟩
  simp only [TxRing.admits]
  decide

end LibvmaTlt.Dev
