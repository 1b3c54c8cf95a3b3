import LibvmaTlt.Lib.Ledger
import LibvmaTlt.Lwip.WriteExact

/-!
# The buffers of `tcp_write`

`tcp_write` obtains a pbuf in phase 2 and a pbuf and a segment in every pass of phase 3, and keeps them
in local variables until it commits. On `memerr` the locals are released; a pbuf that is in no local
any more was released where the pass failed. `tcpWriteLoopMem` is the loop with these buffers, and a
failed write turns out to release exactly what it obtained.
-/

namespace LibvmaTlt.Lwip

/-- What a call obtains, named by the request: pbuf 0 is that of phase 2, pbuf `n + 1` and segment `n`
are those of pass `n`. A segment may be the cached `seg_alloc`, which leaves the pcb then. -/
inductive TxBuf where
  | pbuf (k : Nat)
  | seg (k : Nat)
  deriving DecidableEq

structure HeldSeg where
  seg : TxBuf
  chain : List TxBuf

/-- `tcp_tx_seg_free`: the chain, then the segment. -/
def HeldSeg.bufs (s : HeldSeg) : List TxBuf := s.chain ++ [s.seg]

/-- The locals of `tcp_write` that own buffers, and what the call obtained and released. -/
structure WriteLocals where
  concatP : Option TxBuf := none
  queue : List HeldSeg := []
  mem : Ledger TxBuf := {}

namespace WriteLocals

def held (l : WriteLocals) : List TxBuf := l.concatP.toList ++ l.queue.flatMap HeldSeg.bufs

/-- `concat_p = tcp_pbuf_prealloc(..)`. -/
def chainPbuf (l : WriteLocals) : WriteLocals :=
  { l with concatP := some (.pbuf 0), mem := l.mem.get (.pbuf 0) }

/-- The pbuf of pass `n`, and the segment that takes it to the end of `queue`. -/
def pushSeg (l : WriteLocals) (n : Nat) : WriteLocals :=
  { l with
    queue := l.queue ++ [⟨.seg n, [.pbuf (n + 1)]⟩]
    mem := (l.mem.get (.pbuf (n + 1))).get (.seg n) }

/-- The pbuf of pass `n`, released again: by the loop when the queue is full, by `tcp_create_segment`
when there is no segment. -/
def dropPbuf (l : WriteLocals) (n : Nat) : WriteLocals :=
  { l with mem := (l.mem.get (.pbuf (n + 1))).free [.pbuf (n + 1)] }

/-- `memerr`: `concat_p` and `queue` are released. -/
def memerr (l : WriteLocals) : Ledger TxBuf :=
  (l.mem.free l.concatP.toList).free (l.queue.flatMap HeldSeg.bufs)

end WriteLocals

def passLocals (env : Env) (w : NewSegs) (n : Nat) (l : WriteLocals) : WriteLocals :=
  if !env.pbufOk (n + 1) then l
  else if w.queuelen + 1 > w.pcb.maxUnsentLen ∨ w.queuelen + 1 > tcpSndqueuelenOverflow then
    l.dropPbuf n
  else if !env.segOk n then l.dropPbuf n
  else l.pushSeg n

def tcpWriteLoopMem (env : Env) (optflags : SegOpts) (data : List U8) :
    Nat → Nat → Nat → NewSegs → WriteLocals → Option NewSegs × WriteLocals
  | 0, _, _, _, l => (none, l)
  | f + 1, n, pos, w, l =>
    match writePass env optflags data n pos w with
    | .done => (some w, l)
    | .memerr => (none, passLocals env w n l)
    | .next pos' w' => tcpWriteLoopMem env optflags data f (n + 1) pos' w' (passLocals env w n l)

/-- What is left of phase 3: the locals are committed to the pcb or released. -/
def loopLedger (r : Option NewSegs × WriteLocals) : Ledger TxBuf :=
  if r.1.isSome then r.2.mem else r.2.memerr

def tcpWriteLedger (env : Env) (pcb : Pcb) (data : List U8) (isDummy : Bool) : Ledger TxBuf :=
  let r := tcpWriteChecks (pcb.setSmlAdd data.length isDummy) data.length
  if r.2 ≠ .ok then {}
  else if r.1.unsent = [] then
    loopLedger (tcpWriteLoopMem env (writeOpts r.1 isDummy) data (r.1.maxUnsentLen + 2) 0 0
      ⟨r.1, [], r.1.sndQueuelen, 0⟩ {})
  else
    match r.1.lastUnsentSeg with
    | none => {}
    | some last =>
      match tcpWriteTail env r.1 last data.length with
      | none => WriteLocals.memerr {}
      | some t =>
        loopLedger (tcpWriteLoopMem env (writeOpts r.1 isDummy) data (r.1.maxUnsentLen + 2) 0 t.pos
          ⟨r.1, [], t.queuelen, t.oversize⟩
          (if t.concat = 0 then {} else WriteLocals.chainPbuf {}))

theorem tcpWriteLoopMem_fst (env : Env) (o : SegOpts) (data : List U8) (f n pos : Nat) (w : NewSegs)
    (l : WriteLocals) :
    (tcpWriteLoopMem env o data f n pos w l).1 = tcpWriteLoop env o data f n pos w := by
  induction f generalizing n pos w l with
  | zero => rfl
  | succ f ih =>
    rw [tcpWriteLoop_succ, tcpWriteLoopMem]
    cases writePass env o data n pos w with
    | done | memerr => rfl
    | next pos' w' => exact ih (n + 1) pos' w' _

/-! ## What is held -/

def TxBuf.Before (n : Nat) : TxBuf → Prop
  | .pbuf k => k ≤ n
  | .seg k => k < n

theorem TxBuf.Before.next {n : Nat} {b : TxBuf} (h : b.Before n) : b.Before (n + 1) := by
  cases b with
  | pbuf k => exact Nat.le_succ_of_le h
  | seg k => exact Nat.lt_succ_of_lt h

/-- The locals hold what was obtained and not released, all of it before pass `n`. -/
structure WriteLocals.Owns (l : WriteLocals) (n : Nat) : Prop where
  holds : l.mem.Holds l.held
  before : ∀ b ∈ l.mem.got, b.Before n

namespace WriteLocals.Owns

variable {l : WriteLocals} {n : Nat}

theorem start : ({} : WriteLocals).Owns 0 := ⟨Ledger.holds_empty, by simp⟩

theorem chainPbuf : (WriteLocals.chainPbuf {}).Owns 0 :=
  ⟨Ledger.holds_empty.get (by simp), by simp [WriteLocals.chainPbuf, TxBuf.Before]⟩

theorem pbuf_new (h : l.Owns n) : TxBuf.pbuf (n + 1) ∉ l.mem.got :=
  fun hm => absurd (h.before _ hm) (Nat.not_succ_le_self n)

theorem before_next (h : l.Owns n) : ∀ b ∈ l.mem.got ++ [TxBuf.pbuf (n + 1)], b.Before (n + 1) := by
  intro b hb
  rcases List.mem_append.mp hb with hb | hb
  · exact (h.before b hb).next
  · rw [List.mem_singleton.mp hb]
    exact le_rfl

theorem dropPbuf (h : l.Owns n) : (l.dropPbuf n).Owns (n + 1) := by
  refine ⟨?_, h.before_next⟩
  refine Ledger.Holds.free ((h.holds.get h.pbuf_new).swap ?_)
  exact List.perm_append_comm

theorem pushSeg (h : l.Owns n) : (l.pushSeg n).Owns (n + 1) := by
  have hseg : TxBuf.seg n ∉ (l.mem.get (.pbuf (n + 1))).got := by
    intro hm
    rcases List.mem_append.mp hm with hm | hm
    · exact absurd (h.before _ hm) (Nat.lt_irrefl n)
    · cases List.mem_singleton.mp hm
  refine ⟨?_, ?_⟩
  · have hheld : (l.pushSeg n).held = l.held ++ [TxBuf.pbuf (n + 1)] ++ [TxBuf.seg n] := by
      simp [held, WriteLocals.pushSeg, HeldSeg.bufs]
    rw [hheld]
    exact (h.holds.get h.pbuf_new).get hseg
  · intro b hb
    rcases List.mem_append.mp hb with hb | hb
    · exact h.before_next b hb
    · rw [List.mem_singleton.mp hb]
      exact Nat.lt_succ_self n

theorem passLocals {env : Env} {w : NewSegs} (h : l.Owns n) :
    (passLocals env w n l).Owns (n + 1) := by
  unfold Lwip.passLocals
  split
  · exact ⟨h.holds, fun b hb => (h.before b hb).next⟩
  split
  · exact h.dropPbuf
  · split
    · exact h.dropPbuf
    · exact h.pushSeg

theorem memerr (h : l.Owns n) : l.memerr.Holds [] := by
  refine Ledger.Holds.free ?_
  rw [List.append_nil]
  exact Ledger.Holds.free h.holds

end WriteLocals.Owns

theorem tcpWriteLoopMem_owns {env : Env} {o : SegOpts} {data : List U8} :
    ∀ {f n pos : Nat} {w : NewSegs} {l : WriteLocals}, l.Owns n →
      ∃ n', (tcpWriteLoopMem env o data f n pos w l).2.Owns n' := by
  intro f
  induction f with
  | zero => exact fun h => ⟨_, h⟩
  | succ f ih =>
    intro n pos w l h
    rw [tcpWriteLoopMem]
    cases writePass env o data n pos w with
    | done => exact ⟨n, h⟩
    | memerr => exact ⟨n + 1, h.passLocals⟩
    | next pos' w' => exact ih h.passLocals

theorem loopLedger_settled {env : Env} {o : SegOpts} {data : List U8} {f pos : Nat} {w : NewSegs}
    {l : WriteLocals} (hl : l.Owns 0) (h : tcpWriteLoop env o data f 0 pos w = none) :
    (loopLedger (tcpWriteLoopMem env o data f 0 pos w l)).Settled := by
  obtain ⟨n', hown⟩ := @tcpWriteLoopMem_owns env o data f 0 pos w l hl
  rw [loopLedger, tcpWriteLoopMem_fst, h]
  exact hown.memerr.settled

/-! ## All or nothing -/

/-- The queues and counters of `pcb` that a failed write must leave alone. -/
structure SameQueues (pcb p : Pcb) : Prop where
  unsent : p.unsent = pcb.unsent
  unacked : p.unacked = pcb.unacked
  sndLbb : p.sndLbb = pcb.sndLbb
  sndBuf : p.sndBuf = pcb.sndBuf
  sndQueuelen : p.sndQueuelen = pcb.sndQueuelen
  unsentOversize : p.unsentOversize = pcb.unsentOversize

/-- **A write that fails for want of memory leaves the queues as they were and has released each buffer
that it obtained exactly once.** -/
theorem tcpWrite_mem_settled {env : Env} {pcb p : Pcb} {data : List U8} {isDummy : Bool}
    (h : tcpWrite env pcb data isDummy = some (p, .mem)) :
    SameQueues pcb p ∧ (tcpWriteLedger env pcb data isDummy).Settled := by
  have hempty : ({} : Ledger TxBuf).Settled := Ledger.holds_empty.settled
  refine ⟨?_, ?_⟩
  · rcases tcpWrite_cases h with ⟨-, rfl | rfl | ⟨a, rfl⟩⟩ | ⟨he, -⟩ | ⟨he, -⟩
    · exact ⟨rfl, rfl, rfl, rfl, rfl, rfl⟩
    · exact ⟨rfl, rfl, rfl, rfl, rfl, rfl⟩
    · exact ⟨rfl, rfl, rfl, rfl, rfl, rfl⟩
    · cases he
    · cases he
  · unfold tcpWrite at h
    unfold tcpWriteLedger
    simp only at h ⊢
    generalize tcpWriteChecks (pcb.setSmlAdd data.length isDummy) data.length = r at h ⊢
    split
    · exact hempty
    rename_i hok
    rw [if_neg hok] at h
    simp only [tcpWriteQueue] at h
    split at h
    · rename_i hu
      rw [if_pos hu]
      split at h
      · rename_i hw
        exact loopLedger_settled .start hw
      · cases h
    · rename_i hu
      rw [if_neg hu]
      cases hl : r.1.lastUnsentSeg with
      | none => simp only [hl, reduceCtorEq] at h
      | some last =>
        simp only [hl] at h ⊢
        cases ht : tcpWriteTail env r.1 last data.length with
        | none => exact WriteLocals.Owns.start.memerr.settled
        | some t =>
          simp only [ht] at h ⊢
          split at h
          · rename_i hw
            refine loopLedger_settled ?_ hw
            split
            · exact .start
            · exact .chainPbuf
          · cases h

def secondPbufEnv : Env := { pbufOk := fun k => k ≠ 2 }

/-- Of 150 bytes ten go into the tail room and a hundred into a new segment before the call fails. -/
theorem tcpWrite_mem_second :
    ∃ p, tcpWrite secondPbufEnv writtenPcb (List.replicate 150 8) false = some (p, .mem) ∧
      (tcpWriteLedger secondPbufEnv writtenPcb (List.replicate 150 8) false).got = [.pbuf 1, .seg 0] ∧
      SameQueues writtenPcb p ∧
      (tcpWriteLedger secondPbufEnv writtenPcb (List.replicate 150 8) false).Settled := by
  have hmem : (tcpWrite secondPbufEnv writtenPcb (List.replicate 150 8) false).map Prod.snd =
      some .mem := by
    decide +kernel
  obtain ⟨⟨p, e⟩, hp, rfl⟩ := Option.map_eq_some_iff.mp hmem
  exact ⟨p, hp, by decide +kernel, tcpWrite_mem_settled hp⟩

end LibvmaTlt.Lwip
