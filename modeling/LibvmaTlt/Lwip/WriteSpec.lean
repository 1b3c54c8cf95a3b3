import LibvmaTlt.Lwip.TcpWrite

/-!
# What `tcp_write` does

`tcpWrite_cases` lists the outcomes: an error, which queues nothing, new segments on an empty queue, or
an extension of the last segment with new ones behind it.
-/

namespace LibvmaTlt.Lwip

abbrev writeOpts (pcb : Pcb) (isDummy : Bool) : SegOpts := { pcb.dataOpts with dummy := isDummy }

theorem tcpWriteChecks_cases (pcb : Pcb) (len : Nat) :
    tcpWriteChecks pcb len = (pcb, .ok) ∨
      (tcpWriteChecks pcb len).2 ≠ .ok ∧
        ((tcpWriteChecks pcb len).1 = pcb ∨ (tcpWriteChecks pcb len).1 = pcb.memErr) := by
  unfold tcpWriteChecks
  split
  · exact .inr ⟨Err.noConfusion, .inl rfl⟩
  split
  · exact .inl rfl
  split
  · exact .inr ⟨Err.noConfusion, .inr rfl⟩
  · split
    · exact .inr ⟨Err.noConfusion, .inr rfl⟩
    · exact .inl rfl

def writesNew (env : Env) (pcb : Pcb) (data : List U8) (isDummy : Bool) (w : NewSegs) : Prop :=
  tcpWriteLoop env (writeOpts pcb isDummy) data (pcb.maxUnsentLen + 2) 0 0
    ⟨pcb, [], pcb.sndQueuelen, 0⟩ = some w

def writesTail (env : Env) (pcb : Pcb) (data : List U8) (isDummy : Bool) (last : TcpSeg)
    (t : TailWrite) (w : NewSegs) : Prop :=
  pcb.lastUnsentSeg = some last ∧ tcpWriteTail env pcb last data.length = some t ∧
    tcpWriteLoop env (writeOpts pcb isDummy) data (pcb.maxUnsentLen + 2) 0 t.pos
      ⟨pcb, [], t.queuelen, t.oversize⟩ = some w

variable {s : TcpSeg} {data : List U8} {pcb p : Pcb} {env : Env} {isDummy : Bool}
  {queue : List TcpSeg} {e : Err}

theorem tcpWrite_cases (h : tcpWrite env pcb data isDummy = some (p, e)) :
    (e ≠ .ok ∧ (p = pcb.setSmlAdd data.length isDummy ∨
      p = (pcb.setSmlAdd data.length isDummy).memErr ∨
      ∃ a, p = (pcb.setSmlAdd data.length isDummy).memErr.setLastUnsent a)) ∨
    (e = .ok ∧ pcb.unsent = [] ∧ ∃ w,
      writesNew env (pcb.setSmlAdd data.length isDummy) data isDummy w ∧
      p = tcpWriteCommit (pcb.setSmlAdd data.length isDummy) data.length w none false) ∨
    (e = .ok ∧ pcb.unsent ≠ [] ∧ ∃ last t w,
      writesTail env (pcb.setSmlAdd data.length isDummy) data isDummy last t w ∧
      p = tcpWriteCommit (pcb.setSmlAdd data.length isDummy) data.length w
        (some (last.extend data t)) (0 < pcb.unsentOversize || t.concat ≠ 0)) := by
  unfold tcpWrite at h
  simp only at h
  rcases tcpWriteChecks_cases (pcb.setSmlAdd data.length isDummy) data.length with hc | ⟨hc, hp⟩
  · rw [hc, if_neg (by simp)] at h
    simp only [tcpWriteQueue] at h
    split at h
    · rename_i hu
      split at h
      · cases h
        exact .inl ⟨by decide, .inr (.inr ⟨_, rfl⟩)⟩
      · rename_i w hw
        cases h
        exact .inr (.inl ⟨rfl, hu, w, hw, rfl⟩)
    · rename_i hu
      split at h
      · cases h
      rename_i last hl
      split at h
      · cases h
        exact .inl ⟨by decide, .inr (.inr ⟨_, rfl⟩)⟩
      rename_i t ht
      split at h
      · cases h
        exact .inl ⟨by decide, .inr (.inr ⟨_, rfl⟩)⟩
      · rename_i w hw
        cases h
        exact .inr (.inr ⟨rfl, hu, last, t, w, ⟨hl, ht, hw⟩, rfl⟩)
  · rw [if_pos hc] at h
    rw [Option.some.inj h] at hc hp
    exact .inl ⟨hc, hp.imp id .inl⟩

/-! ## Where the segments come from -/

theorem extend_frame (s : TcpSeg) (data : List U8) (t : TailWrite) :
    (s.extend data t).addr = s.addr ∧ (s.extend data t).seqno = s.seqno ∧
      (s.extend data t).flags = s.flags ∧ (s.extend data t).opts = s.opts ∧
      (s.extend data t).hdrlen = s.hdrlen := by
  simp only [TcpSeg.extend]
  split <;> split <;> exact ⟨rfl, rfl, rfl, rfl, rfl⟩

@[simp] theorem extend_hdrlen (s : TcpSeg) (data : List U8) (t : TailWrite) :
    (s.extend data t).hdrlen = s.hdrlen := (extend_frame s data t).2.2.2.2

theorem pbufBytes_extend (hp : s.p ≠ []) (data : List U8) (t : TailWrite) :
    pbufBytes (s.extend data t).p =
      pbufBytes s.p ++ (data.take t.used ++ (data.drop t.used).take t.concat) := by
  have hfill : pbufBytes (if t.used = 0 then s else
      { s with p := fillTail (data.take t.used) s.p, len := u16 (s.len + t.used) }).p =
      pbufBytes s.p ++ data.take t.used := by
    by_cases hu : t.used = 0
    · simp [hu]
    · rw [if_neg hu, pbufBytes_fillTail _ hp]
  unfold TcpSeg.extend
  by_cases hc : t.concat = 0
  · simp only [hc, if_true, hfill, List.take_zero, List.append_nil]
  · simp only [hc, if_false, pbufBytes_pbufCat, hfill, List.append_assoc]
    simp

theorem lastUnsentSeg_mem (h : pcb.lastUnsentSeg = some s) : s ∈ pcb.unsent ∨ s ∈ pcb.unacked := by
  unfold Pcb.lastUnsentSeg at h
  split at h
  · exact .inl (List.mem_of_getLast? h)
  split at h
  · exact .inl (List.mem_of_getLast? h)
  split at h
  · split at h
    · rename_i hl
      split at h
      · cases h
        exact .inr (List.mem_of_getLast? hl)
      · exact .inl (List.mem_of_getLast? h)
    · cases h
  · cases h

theorem mem_pshLast (h : s ∈ pshLast queue) : s ∈ queue ∨ ∃ t ∈ queue, s = t.setPsh := by
  rcases List.mem_append.mp h with h | h
  · exact .inl (List.dropLast_subset _ h)
  cases hl : queue.getLast? with
  | none => simp [hl] at h
  | some t =>
    simp only [hl, Option.map_some, Option.toList_some, List.mem_singleton] at h
    exact .inr ⟨t, List.mem_of_getLast? hl, h⟩

theorem mem_replaceSeg {x : TcpSeg} {l : List TcpSeg} (h : s ∈ replaceSeg x l) : s = x ∨ s ∈ l := by
  obtain ⟨t, ht, he⟩ := List.mem_map.mp h
  split at he
  · exact .inl he.symm
  · exact .inr (he ▸ ht)

theorem appendAfter_unsent {last : TcpSeg} (h : ∃ s ∈ pcb.unsent, s.addr = last.addr) :
    pcb.appendAfter last queue = pcb.setUnsent (replaceSeg last pcb.unsent ++ queue) := by
  obtain ⟨s, hs, ha⟩ := h
  exact if_pos (List.any_eq_true.mpr ⟨s, hs, decide_eq_true ha⟩)

theorem mem_appendAfter {last : TcpSeg}
    (h : s ∈ (pcb.appendAfter last queue).unsent ∨ s ∈ (pcb.appendAfter last queue).unacked) :
    (s ∈ pcb.unsent ∨ s ∈ pcb.unacked) ∨ s = last ∨ s ∈ queue := by
  unfold Pcb.appendAfter at h
  by_cases hu : pcb.unsent.any (·.addr = last.addr) = true
  · rw [if_pos hu] at h
    rcases h with h | h
    · rcases List.mem_append.mp h with h | h
      · exact (mem_replaceSeg h).elim (fun h => .inr (.inl h)) fun h => .inl (.inl h)
      · exact .inr (.inr h)
    · exact .inl (.inr h)
  · rw [if_neg hu] at h
    rcases h with h | h
    · exact .inl (.inl h)
    · rcases List.mem_append.mp h with h | h
      · exact (mem_replaceSeg h).elim (fun h => .inr (.inl h)) fun h => .inl (.inr h)
      · exact .inr (.inr h)

theorem mem_tcpWriteCommit {len : Nat} {w : NewSegs} {last : Option TcpSeg} {touched : Bool}
    (h : s ∈ (tcpWriteCommit pcb len w last touched).unsent ∨
      s ∈ (tcpWriteCommit pcb len w last touched).unacked) :
    (s ∈ pcb.unsent ∨ s ∈ pcb.unacked) ∨ (∃ l ∈ last, s = l ∨ s = l.setPsh) ∨
      s ∈ w.queue ∨ ∃ t ∈ w.queue, s = t.setPsh := by
  cases last with
  | none =>
    rcases h with h | h
    · exact .inr (.inr (mem_pshLast h))
    · exact .inl (.inr h)
  | some l =>
    rcases mem_appendAfter h with h | h | h
    · exact .inl h
    · refine .inr (.inl ⟨l, rfl, ?_⟩)
      split at h
      · exact .inr h
      · exact .inl h
    · exact .inr (.inr (mem_pshLast h))

theorem tcpWriteLoop_new {o : SegOpts} {f n pos : Nat} {w w' : NewSegs}
    (h : tcpWriteLoop env o data f n pos w = some w') (hw : ∀ s ∈ w.queue, s.flags = {} ∧ s.opts = o) :
    ∀ s ∈ w'.queue, s.flags = {} ∧ s.opts = o := by
  induction f generalizing n pos w with
  | zero => cases h
  | succ f ih =>
    simp only [tcpWriteLoop] at h
    split at h
    · split at h
      · cases h
      refine ih h fun s hs => ?_
      rcases List.mem_append.mp hs with hs | hs
      · exact hw s hs
      · rw [List.mem_singleton.mp hs]
        exact ⟨rfl, rfl⟩
    · cases h
      exact hw

theorem tcpWrite_origin (h : tcpWrite env pcb data isDummy = some (p, e))
    (hs : s ∈ p.unsent ∨ s ∈ p.unacked) :
    (s.flags.syn = false ∧ s.flags.fin = false ∧ s.isDummy = isDummy) ∨
      ∃ t, (t ∈ pcb.unsent ∨ t ∈ pcb.unacked) ∧ s.flags.syn = t.flags.syn ∧
        s.flags.fin = t.flags.fin ∧ s.opts = t.opts := by
  have new {w : NewSegs} {o : SegOpts} (ho : o.dummy = isDummy)
      (hw : ∀ s ∈ w.queue, s.flags = {} ∧ s.opts = o)
      (hm : s ∈ w.queue ∨ ∃ t ∈ w.queue, s = t.setPsh) :
      s.flags.syn = false ∧ s.flags.fin = false ∧ s.isDummy = isDummy := by
    rcases hm with hm | ⟨t, hm, rfl⟩
    · rw [TcpSeg.isDummy, (hw s hm).1, (hw s hm).2]
      exact ⟨rfl, rfl, ho⟩
    · simp only [TcpSeg.isDummy, TcpSeg.setPsh, (hw t hm).1, (hw t hm).2]
      exact ⟨trivial, trivial, ho⟩
  rcases tcpWrite_cases h with ⟨-, rfl | rfl | ⟨a, rfl⟩⟩ | ⟨-, -, w, hw, rfl⟩ | ⟨-, -, last, t, w, hw, rfl⟩
  · exact .inr ⟨s, hs, rfl, rfl, rfl⟩
  · exact .inr ⟨s, hs, rfl, rfl, rfl⟩
  · exact .inr ⟨s, hs, rfl, rfl, rfl⟩
  · rcases mem_tcpWriteCommit hs with hm | ⟨l, hl, -⟩ | hm
    · exact .inr ⟨s, hm, rfl, rfl, rfl⟩
    · cases hl
    · exact .inl (new rfl (tcpWriteLoop_new hw (by simp)) hm)
  · rcases mem_tcpWriteCommit hs with hm | ⟨l, hl, he⟩ | hm
    · exact .inr ⟨s, hm, rfl, rfl, rfl⟩
    · cases hl
      obtain ⟨-, -, hf, ho, -⟩ := extend_frame last data t
      refine .inr ⟨last, lastUnsentSeg_mem hw.1, ?_⟩
      rcases he with rfl | rfl <;> simp [TcpSeg.setPsh, hf, ho]
    · exact .inl (new rfl (tcpWriteLoop_new hw.2.2 (by simp)) hm)

structure WriteFrame (p p' : Pcb) : Prop where
  out : p'.toOutVars = p.toOutVars
  rcv : p'.toRcvVars = p.toRcvVars
  timer : p'.toTimerVars = p.toTimerVars
  snd : p'.toSndVars = { p.toSndVars with sndSmlAdd := p'.sndSmlAdd }
  state : p'.state = p.state
  tos : p'.tos = p.tos
  fin : p'.flags.fin = p.flags.fin
  timestamp : p'.flags.timestamp = p.flags.timestamp
  rxclosed : p'.flags.rxclosed = p.flags.rxclosed
  sndNxt : p'.sndNxt = p.sndNxt

theorem appendAfter_frame (pcb : Pcb) (last : TcpSeg) (queue : List TcpSeg) :
    WriteFrame pcb (pcb.appendAfter last queue) := by
  unfold Pcb.appendAfter
  split <;> exact ⟨rfl, rfl, rfl, rfl, rfl, rfl, rfl, rfl, rfl, rfl⟩

theorem tcpWriteCommit_frame (pcb : Pcb) (len : Nat) (w : NewSegs) (last : Option TcpSeg)
    (touched : Bool) : WriteFrame pcb (tcpWriteCommit pcb len w last touched) := by
  cases last with
  | none => exact ⟨rfl, rfl, rfl, rfl, rfl, rfl, rfl, rfl, rfl, rfl⟩
  | some l =>
    obtain ⟨h1, h2, h3, h4, h5, h6, h7, h8, h9, h10⟩ := appendAfter_frame
      (pcb.wrote len w (((w.queue.getLast?).or (if touched then some l else none)).map TcpSeg.addr))
      (if touched ∧ w.queue = [] then l.setPsh else l) (pshLast w.queue)
    exact ⟨h1, h2, h3, h4, h5, h6, h7, h8, h9, h10⟩

theorem tcpWrite_frame (h : tcpWrite env pcb data isDummy = some (p, e)) : WriteFrame pcb p := by
  have commit (w : NewSegs) (last : Option TcpSeg) (touched : Bool) :
      WriteFrame pcb (tcpWriteCommit (pcb.setSmlAdd data.length isDummy) data.length w last touched) := by
    obtain ⟨h1, h2, h3, h4, h5, h6, h7, h8, h9, h10⟩ :=
      tcpWriteCommit_frame (pcb.setSmlAdd data.length isDummy) data.length w last touched
    exact ⟨h1, h2, h3, h4, h5, h6, h7, h8, h9, h10⟩
  rcases tcpWrite_cases h with ⟨-, rfl | rfl | ⟨a, rfl⟩⟩ | ⟨-, -, w, -, rfl⟩ | ⟨-, -, last, t, w, -, rfl⟩
  · exact ⟨rfl, rfl, rfl, rfl, rfl, rfl, rfl, rfl, rfl, rfl⟩
  · exact ⟨rfl, rfl, rfl, rfl, rfl, rfl, rfl, rfl, rfl, rfl⟩
  · exact ⟨rfl, rfl, rfl, rfl, rfl, rfl, rfl, rfl, rfl, rfl⟩
  · exact commit w _ _
  · exact commit w _ _

/-! ## What is accepted -/

theorem appendAfter_sndLbb (pcb : Pcb) (last : TcpSeg) (queue : List TcpSeg) :
    (pcb.appendAfter last queue).sndLbb = pcb.sndLbb := by
  unfold Pcb.appendAfter
  split <;> rfl

theorem tcpWriteCommit_sndLbb (pcb : Pcb) (len : Nat) (w : NewSegs) (last : Option TcpSeg)
    (touched : Bool) : (tcpWriteCommit pcb len w last touched).sndLbb = pcb.sndLbb + u32 len := by
  cases last with
  | none => rfl
  | some l => exact appendAfter_sndLbb _ _ _

theorem tcpWrite_accepts (h : tcpWrite env pcb data isDummy = some (p, e)) :
    p.sndLbb = pcb.sndLbb + u32 (if e = .ok then data.length else 0) ∧
      (e ≠ .ok → p.unsent = pcb.unsent ∧ p.unacked = pcb.unacked) := by
  rcases tcpWrite_cases h with ⟨he, hp⟩ | ⟨rfl, -, w, -, rfl⟩ | ⟨rfl, -, last, t, w, -, rfl⟩
  · rw [if_neg he, BitVec.add_zero]
    rcases hp with rfl | rfl | ⟨a, rfl⟩ <;> exact ⟨rfl, fun _ => ⟨rfl, rfl⟩⟩
  · exact ⟨tcpWriteCommit_sndLbb _ _ w _ _, fun hne => absurd rfl hne⟩
  · exact ⟨tcpWriteCommit_sndLbb _ _ w _ _, fun hne => absurd rfl hne⟩

/-! ## The FIN -/

theorem tcpSendFin_cases (env : Env) (pcb : Pcb) :
    (∃ q, tcpSendFin env pcb = (pcb.memErr, q) ∧ q ≠ .ok) ∨
    tcpSendFin env pcb = ((pcb.queueFin (finSegment env pcb)).setFin, .ok) ∨
    ∃ init l, pcb.unsent = init ++ [l] ∧
      tcpSendFin env pcb = ((pcb.setUnsent (init ++ [l.setFin])).setFin, .ok) := by
  have henq : (∃ q, tcpEnqueueFin env pcb = (pcb.memErr, q) ∧ q ≠ .ok) ∨
      tcpEnqueueFin env pcb = ((pcb.queueFin (finSegment env pcb)).setFin, .ok) := by
    unfold tcpEnqueueFin
    split
    · exact .inl ⟨.mem, rfl, by decide⟩
    · exact .inr rfl
  unfold tcpSendFin
  split
  · rename_i l hl
    split
    · exact henq.imp id .inl
    · obtain ⟨init, hinit⟩ := List.getLast?_eq_some_iff.mp hl
      refine .inr (.inr ⟨init, l, hinit, ?_⟩)
      rw [hinit, List.dropLast_concat]
  · exact henq.imp id .inl

theorem mem_tcpSendFin (h : s ∈ (tcpSendFin env pcb).1.unsent ∨ s ∈ (tcpSendFin env pcb).1.unacked) :
    s = finSegment env pcb ∨ (s ∈ pcb.unsent ∨ s ∈ pcb.unacked) ∨ ∃ l ∈ pcb.unsent, s = l.setFin := by
  rcases tcpSendFin_cases env pcb with ⟨q, he, -⟩ | he | ⟨init, l, hinit, he⟩ <;> rw [he] at h
  · exact .inr (.inl h)
  · rcases h with h | h
    · rcases List.mem_append.mp h with h | h
      · exact .inr (.inl (.inl h))
      · exact .inl (List.mem_singleton.mp h)
    · exact .inr (.inl (.inr h))
  · rw [hinit]
    rcases h with h | h
    · rcases List.mem_append.mp h with h | h
      · exact .inr (.inl (.inl (List.mem_append_left _ h)))
      · exact .inr (.inr ⟨l, by simp, List.mem_singleton.mp h⟩)
    · exact .inr (.inl (.inr h))

end LibvmaTlt.Lwip
