import Mathlib

/-!
# Reassembling a stream

A receiver holds pieces of a stream, each at a position that never wraps, and waits for the one at
`off`. A new piece is placed among the others (`place`): what it covers is dropped, what overlaps it
is cut, so that the pieces stay disjoint and in order (`Ordered`). When the piece at `off` has come,
`popReady` takes it with everything that follows it without a gap.
-/

namespace LibvmaTlt.Reassembly

variable {α : Type}

/-- Consecutive elements of a stream from a position on; the stream ends behind the piece if `last`. -/
structure Piece (α : Type) where
  pos : Nat
  data : List α
  last : Bool

namespace Piece

def stop (p : Piece α) : Nat := p.pos + p.data.length

/-- The positions the piece takes; the end of the stream takes one. -/
def seqLen (p : Piece α) : Nat := p.data.length + if p.last then 1 else 0

def cut (p : Piece α) (n : Nat) : Piece α := { p with data := p.data.take n }

def setLast (p : Piece α) : Piece α := { p with last := true }

def cutAt (p : Piece α) (x : Nat) : Piece α := if x < p.stop then p.cut (x - p.pos) else p

@[simp] theorem cut_pos (p : Piece α) (n : Nat) : (p.cut n).pos = p.pos := rfl
theorem cut_stop (p : Piece α) (n : Nat) : (p.cut n).stop = p.pos + min n p.data.length := by
  simp [stop, cut]

theorem cutAt_of_le {p : Piece α} {x : Nat} (h : p.stop ≤ x) : p.cutAt x = p :=
  if_neg (by omega)

@[simp] theorem cutAt_pos (p : Piece α) (x : Nat) : (p.cutAt x).pos = p.pos := by
  unfold cutAt
  split <;> rfl

@[simp] theorem cutAt_last (p : Piece α) (x : Nat) : (p.cutAt x).last = p.last := by
  unfold cutAt
  split <;> rfl

theorem cutAt_stop {p : Piece α} {x : Nat} (h : p.pos ≤ x) : (p.cutAt x).stop = min p.stop x := by
  unfold cutAt
  split
  · rw [cut_stop]
    unfold stop at *
    omega
  · omega

end Piece

/-! ## Placing a piece -/

/-- Drop the pieces in front that `p` covers; the end of the stream is not forgotten. -/
def swallow : Piece α → List (Piece α) → Piece α × List (Piece α)
  | p, [] => (p, [])
  | p, q :: rest =>
    if q.stop ≤ p.stop then swallow (if q.last then p.setLast else p) rest else (p, q :: rest)

/-- `p` in front of pieces that start behind it. Nothing can follow the end of the stream. -/
def insertAt (p : Piece α) (l : List (Piece α)) : List (Piece α) :=
  if p.last then [p]
  else
    match swallow p l with
    | (p, []) => [p]
    | (p, n :: rest) => p.cutAt n.pos :: n :: rest

/-- `p` placed among the pieces; `tail` is what is kept of it behind all others. Of two pieces at one
position the longer one stays. -/
def place (p tail : Piece α) : List (Piece α) → List (Piece α)
  | [] => [tail]
  | next :: rest =>
    if p.pos < next.pos then insertAt p (next :: rest)
    else if p.pos = next.pos then
      if next.data.length < p.data.length then insertAt p (next :: rest) else next :: rest
    else if next.last then next :: rest
    else next.cutAt p.pos :: place p tail rest

/-- The pieces from `off` on without a gap, and the others. -/
def popReady : Nat → List (Piece α) → List (Piece α) × List (Piece α)
  | _, [] => ([], [])
  | off, p :: rest =>
    if p.pos = off then (p :: (popReady (off + p.seqLen) rest).1, (popReady (off + p.seqLen) rest).2)
    else ([], p :: rest)

/-- The pieces start at `lo` or later, in order and without overlap; only the last one may end the
stream. -/
def Ordered : Nat → List (Piece α) → Prop
  | _, [] => True
  | lo, p :: rest =>
    lo ≤ p.pos ∧ (p.last = true → rest = []) ∧ Ordered (max (p.pos + 1) p.stop) rest

def Covers (l : List (Piece α)) (x : Nat) : Prop := ∃ q ∈ l, q.pos ≤ x ∧ x < q.stop

section Order

variable {lo lo' : Nat} {p tail : Piece α} {l : List (Piece α)}

theorem Ordered.rebound (h : Ordered lo l) (hl : ∀ q ∈ l.head?, lo' ≤ q.pos) : Ordered lo' l := by
  cases l with
  | nil => trivial
  | cons q rest => exact ⟨hl q rfl, h.2⟩

theorem Ordered.mono (h : Ordered lo l) (hle : lo' ≤ lo) : Ordered lo' l := by
  apply h.rebound
  intro q hq
  cases l with
  | nil => cases hq
  | cons r rest =>
    cases hq
    exact hle.trans h.1

theorem Ordered.le_pos (h : Ordered lo l) : ∀ q ∈ l, lo ≤ q.pos := by
  induction l generalizing lo with
  | nil => simp
  | cons p rest ih =>
    intro q hq
    rcases List.mem_cons.mp hq with rfl | hq
    · exact h.1
    · have := ih h.2.2 q hq
      have := h.1
      omega

theorem swallow_spec (h : Ordered lo l) :
    ∃ gone, l = gone ++ (swallow p l).2 ∧ (∀ q ∈ gone, q.stop ≤ p.stop) ∧
      (∀ q ∈ (swallow p l).2.head?, p.stop < q.stop) ∧
      ((swallow p l).1 = p ∨
        (swallow p l).1 = p.setLast ∧ (swallow p l).2 = [] ∧ ∃ q ∈ gone, q.last = true) := by
  induction l generalizing lo with
  | nil => exact ⟨[], rfl, by simp, by simp [swallow], .inl rfl⟩
  | cons q rest ih =>
    simp only [swallow]
    split
    · rename_i hq
      by_cases hlast : q.last = true
      · -- the end of the stream is the last piece, so nothing is left
        obtain rfl := h.2.1 hlast
        rw [if_pos hlast]
        exact ⟨[q], rfl, by simpa using hq, by simp [swallow], .inr ⟨rfl, rfl, q, by simp, hlast⟩⟩
      · rw [if_neg hlast]
        obtain ⟨gone, hg, hin, hhead, heq⟩ := ih h.2.2
        refine ⟨q :: gone, by rw [List.cons_append, ← hg], ?_, hhead, ?_⟩
        · intro r hr
          rcases List.mem_cons.mp hr with rfl | hr
          · exact hq
          · exact hin r hr
        · rcases heq with heq | ⟨h1, h2, r, hr, hrl⟩
          · exact .inl heq
          · exact .inr ⟨h1, h2, r, List.mem_cons_of_mem _ hr, hrl⟩
    · rename_i hq
      refine ⟨[], rfl, by simp, ?_, .inl rfl⟩
      intro r hr
      cases hr
      omega

theorem insertAt_cases (h : Ordered lo l) :
    insertAt p l = [p] ∧ p.last = true ∨
    p.last = false ∧ ∃ gone l', l = gone ++ l' ∧ (∀ q ∈ gone, q.stop ≤ p.stop) ∧
      (l' = [] ∧
          (insertAt p l = [p] ∨ insertAt p l = [p.setLast] ∧ ∃ q ∈ gone, q.last = true) ∨
        ∃ n rest, l' = n :: rest ∧ p.stop < n.stop ∧ insertAt p l = p.cutAt n.pos :: n :: rest) := by
  unfold insertAt
  by_cases hp : p.last = true
  · exact .inl ⟨if_pos hp, hp⟩
  have hp : p.last = false := by simpa using hp
  rw [hp]
  obtain ⟨gone, hg, hin, hhead, heq⟩ := @swallow_spec _ lo p l h
  refine .inr ⟨rfl, gone, _, hg, hin, ?_⟩
  generalize swallow p l = r at *
  obtain ⟨p', l'⟩ := r
  cases l' with
  | nil =>
    left
    rcases heq with rfl | ⟨rfl, _, hq⟩
    · exact ⟨rfl, .inl rfl⟩
    · exact ⟨rfl, .inr ⟨rfl, hq⟩⟩
  | cons n rest =>
    right
    rcases heq with rfl | ⟨_, hnil, _⟩
    · exact ⟨n, rest, rfl, hhead n rfl, rfl⟩
    · cases hnil

theorem Ordered.of_append {l' : List (Piece α)} (h : Ordered lo (l' ++ l)) : Ordered lo l := by
  induction l' generalizing lo with
  | nil => exact h
  | cons q rest ih => exact (ih h.2.2).mono (by have := h.1; omega)

theorem Ordered.insertAt (h : Ordered lo l) (hlo : lo ≤ p.pos)
    (hl : ∀ q ∈ l, p.pos < q.pos ∨ q.stop ≤ p.stop) : Ordered lo (insertAt p l) := by
  rcases insertAt_cases (p := p) h with ⟨heq, _⟩ | ⟨hp, gone, l', rfl, _, hcase⟩
  · rw [heq]
    exact ⟨hlo, fun _ => rfl, trivial⟩
  rcases hcase with ⟨rfl, heq | ⟨heq, _⟩⟩ | ⟨n, rest, rfl, hn, heq⟩
  · rw [heq]
    exact ⟨hlo, fun _ => rfl, trivial⟩
  · rw [heq]
    exact ⟨hlo, fun _ => rfl, trivial⟩
  have hpn : p.pos < n.pos := by
    rcases hl n (by simp) with hlt | hle
    · exact hlt
    · omega
  rw [heq]
  refine ⟨by simpa using hlo, by simp [hp], ?_⟩
  rw [Piece.cutAt_stop hpn.le, Piece.cutAt_pos]
  apply h.of_append.rebound
  intro q hq
  cases hq
  omega

theorem Ordered.place (h : Ordered lo l) (hlo : lo ≤ p.pos) (ht : tail.pos = p.pos) :
    Ordered lo (place p tail l) := by
  induction l generalizing lo with
  | nil => exact ⟨by omega, fun _ => rfl, trivial⟩
  | cons next rest ih =>
    have hrest := h.2.2.le_pos
    simp only [Reassembly.place]
    split
    · rename_i hlt
      apply h.insertAt hlo
      intro q hq
      rcases List.mem_cons.mp hq with rfl | hq
      · exact .inl hlt
      · exact .inl (by have := hrest q hq; omega)
    · split
      · rename_i _ heq
        split
        · rename_i hlen
          apply h.insertAt hlo
          intro q hq
          rcases List.mem_cons.mp hq with rfl | hq
          · exact .inr (by unfold Piece.stop; omega)
          · exact .inl (by have := hrest q hq; omega)
        · exact h
      · split
        · exact h
        rename_i h1 h2 hlast
        have hlt : next.pos < p.pos := by omega
        refine ⟨by simpa using h.1, by simp [hlast], ?_⟩
        rw [Piece.cutAt_stop hlt.le, Piece.cutAt_pos]
        exact ih (h.2.2.mono (by omega)) (by omega)

end Order

/-! ## What every piece keeps -/

section Forall

variable {P : Piece α → Prop} (hcut : ∀ q n, P q → P (q.cut n)) {p tail : Piece α}
  {l : List (Piece α)}

include hcut

theorem forall_cutAt (x : Nat) (h : P p) : P (p.cutAt x) := by
  unfold Piece.cutAt
  split
  · exact hcut p _ h
  · exact h

theorem forall_insertAt {lo : Nat} (ho : Ordered lo l) (hp : P p)
    (hlast : ∀ r ∈ l, r.last = true → P p.setLast) (hl : ∀ q ∈ l, P q) :
    ∀ q ∈ insertAt p l, P q := by
  rcases insertAt_cases (p := p) ho with ⟨heq, _⟩ | ⟨_, gone, l', rfl, _, hcase⟩
  · simpa [heq] using hp
  rcases hcase with ⟨_, heq | ⟨heq, r, hr, hrl⟩⟩ | ⟨n, rest, rfl, _, heq⟩
  · simpa [heq] using hp
  · simpa [heq] using hlast r (List.mem_append_left _ hr) hrl
  · rw [heq]
    intro q hq
    rcases List.mem_cons.mp hq with rfl | hq
    · exact forall_cutAt hcut _ hp
    · exact hl q (List.mem_append_right _ hq)

theorem forall_place {lo : Nat} (ho : Ordered lo l)
    (hp : (∃ q ∈ l, p.pos ≤ q.pos) → P p ∧ ∀ r ∈ l, r.last = true → P p.setLast)
    (ht : (∀ q ∈ l, q.pos < p.pos ∧ q.last = false) → P tail) (hl : ∀ q ∈ l, P q) :
    ∀ q ∈ place p tail l, P q := by
  induction l generalizing lo with
  | nil => simpa [place] using ht (by simp)
  | cons next rest ih =>
    simp only [place]
    split
    · rename_i hlt
      obtain ⟨h1, h2⟩ := hp ⟨next, List.mem_cons_self, hlt.le⟩
      exact forall_insertAt hcut ho h1 h2 hl
    split
    · rename_i heq
      obtain ⟨h1, h2⟩ := hp ⟨next, List.mem_cons_self, heq.le⟩
      split
      · exact forall_insertAt hcut ho h1 h2 hl
      · exact hl
    · split
      · exact hl
      rename_i hlast
      intro q hq
      rcases List.mem_cons.mp hq with rfl | hq
      · exact forall_cutAt hcut _ (hl next List.mem_cons_self)
      refine ih ho.2.2 ?_ ?_ (fun r hr => hl r (List.mem_cons_of_mem _ hr)) q hq
      · rintro ⟨r, hr, hle⟩
        obtain ⟨h1, h2⟩ := hp ⟨r, List.mem_cons_of_mem _ hr, hle⟩
        exact ⟨h1, fun r hr => h2 r (List.mem_cons_of_mem _ hr)⟩
      · intro hall
        refine ht (List.forall_mem_cons.mpr ⟨⟨by omega, by simpa using hlast⟩, hall⟩)

end Forall

/-! ## Taking what is ready -/

def advance (off : Nat) (l : List (Piece α)) : Nat := off + (l.map Piece.seqLen).sum

@[simp] theorem advance_nil (off : Nat) : advance off ([] : List (Piece α)) = off := rfl

@[simp] theorem advance_cons (off : Nat) (p : Piece α) (l : List (Piece α)) :
    advance off (p :: l) = advance (off + p.seqLen) l := by
  simp [advance, Nat.add_assoc]

section Ready

variable {off : Nat} {l : List (Piece α)}

theorem popReady_append (off : Nat) (l : List (Piece α)) :
    (popReady off l).1 ++ (popReady off l).2 = l := by
  induction l generalizing off with
  | nil => rfl
  | cons p rest ih =>
    simp only [popReady]
    split
    · rw [List.cons_append, ih]
    · rfl

theorem Ordered.popReady (h : Ordered off l) :
    Ordered (advance off (popReady off l).1 + 1) (popReady off l).2 := by
  induction l generalizing off with
  | nil => trivial
  | cons p rest ih =>
    simp only [Reassembly.popReady]
    split
    · rename_i hpos
      rw [advance_cons]
      apply ih
      by_cases hlast : p.last = true
      · rw [h.2.1 hlast]
        trivial
      · apply h.2.2.mono
        simp only [Piece.seqLen, if_neg hlast, Piece.stop]
        omega
    · rename_i hpos
      apply h.rebound
      intro q hq
      cases hq
      have := h.1
      rw [advance_nil]
      omega

theorem le_advance (off : Nat) (l : List (Piece α)) : off ≤ advance off l := Nat.le_add_right _ _

theorem stop_le_advance {q : Piece α} (hq : q ∈ (popReady off l).1) :
    q.stop ≤ advance off (popReady off l).1 := by
  induction l generalizing off with
  | nil => cases hq
  | cons p rest ih =>
    simp only [popReady] at hq ⊢
    split at hq
    · rename_i hpos
      rw [if_pos hpos, advance_cons]
      rcases List.mem_cons.mp hq with rfl | hq
      · apply Nat.le_trans _ (le_advance _ _)
        unfold Piece.seqLen Piece.stop
        omega
      · exact ih hq
    · cases hq

theorem advance_le_of_end {hi : Nat} (hoff : off ≤ hi) (h : ∀ q ∈ l, q.pos + q.seqLen ≤ hi) :
    advance off (popReady off l).1 ≤ hi := by
  induction l generalizing off with
  | nil => exact hoff
  | cons p rest ih =>
    simp only [popReady]
    split
    · rename_i hpos
      rw [advance_cons]
      apply ih _ fun q hq => h q (List.mem_cons_of_mem _ hq)
      have := h p List.mem_cons_self
      omega
    · exact hoff

theorem advance_le {hi : Nat} (hoff : off < hi) (h : ∀ q ∈ l, q.stop + 1 < hi) :
    advance off (popReady off l).1 < hi := by
  have hle : advance off (popReady off l).1 ≤ hi - 1 := by
    apply advance_le_of_end (by omega)
    intro q hq
    have := h q hq
    unfold Piece.seqLen Piece.stop at *
    split <;> omega
  omega

theorem covers_popReady {x : Nat} (h : Covers l x) :
    x < advance off (popReady off l).1 ∨ Covers (popReady off l).2 x := by
  obtain ⟨q, hq, h1, h2⟩ := h
  rw [← popReady_append off l] at hq
  rcases List.mem_append.mp hq with hq | hq
  · exact .inl (by have := stop_le_advance hq; omega)
  · exact .inr ⟨q, hq, h1, h2⟩

end Ready

/-! ## Pieces of a stream -/

def slice (stream : Nat → α) (o n : Nat) : List α := (List.range' o n).map stream

section Slice

variable (stream : Nat → α)

@[simp] theorem slice_length (o n : Nat) : (slice stream o n).length = n := by simp [slice]

theorem slice_append (o m n : Nat) :
    slice stream o m ++ slice stream (o + m) n = slice stream o (m + n) := by
  simp only [slice, ← List.map_append]
  simp

theorem take_slice (o m n : Nat) : (slice stream o n).take m = slice stream o (min m n) := by
  apply List.ext_getElem <;> simp [slice]

theorem drop_slice (o m n : Nat) : (slice stream o n).drop m = slice stream (o + m) (n - m) := by
  apply List.ext_getElem
  · simp
  · intro i h1 h2
    simp [slice, Nat.add_assoc]

def Piece.IsSlice (p : Piece α) : Prop := p.data = slice stream p.pos p.data.length

variable {stream}

theorem Piece.IsSlice.cut {p : Piece α} (n : Nat) (h : p.IsSlice stream) :
    (p.cut n).IsSlice stream := by
  unfold IsSlice Piece.cut at *
  simp only [List.length_take]
  rw [← take_slice, ← h]

theorem popReady_slice {off : Nat} {l : List (Piece α)} (h : ∀ q ∈ l, q.IsSlice stream)
    (hl : ∀ q ∈ l, q.last = false) :
    slice stream 0 off ++ (popReady off l).1.flatMap Piece.data =
      slice stream 0 (advance off (popReady off l).1) := by
  induction l generalizing off with
  | nil => simp [popReady]
  | cons p rest ih =>
    simp only [popReady]
    split
    · rename_i hpos
      have hp := h p List.mem_cons_self
      have hlen : p.seqLen = p.data.length := by simp [Piece.seqLen, hl p List.mem_cons_self]
      rw [List.flatMap_cons, advance_cons, hlen, ← List.append_assoc]
      have hjoin : slice stream 0 off ++ p.data = slice stream 0 (off + p.data.length) := by
        rw [hp, hpos, slice_length, ← slice_append, Nat.zero_add]
      rw [hjoin]
      exact ih (fun q hq => h q (List.mem_cons_of_mem _ hq))
        fun q hq => hl q (List.mem_cons_of_mem _ hq)
    · simp

end Slice

/-! ## Positions held -/

section Covers

variable {x lo : Nat} {p : Piece α} {l : List (Piece α)}

theorem covers_insertAt (ho : Ordered lo l) (hp : p.last = false) (hl : ∀ q ∈ l, p.pos ≤ q.pos)
    (h : p.pos ≤ x ∧ x < p.stop ∨ Covers l x) : Covers (insertAt p l) x := by
  rcases insertAt_cases (p := p) ho with ⟨_, hlast⟩ | ⟨_, gone, l', rfl, hin, hcase⟩
  · rw [hp] at hlast
    cases hlast
  -- a position of the pieces dropped is one of `p`
  have h : p.pos ≤ x ∧ x < p.stop ∨ Covers l' x := by
    rcases h with h | ⟨q, hq, h1, h2⟩
    · exact .inl h
    rcases List.mem_append.mp hq with hg | hq'
    · have := hin q hg
      have := hl q hq
      exact .inl ⟨by omega, by omega⟩
    · exact .inr ⟨q, hq', h1, h2⟩
  rcases hcase with ⟨rfl, heq⟩ | ⟨n, rest, rfl, hn, heq⟩
  · have hx : p.pos ≤ x ∧ x < p.stop := by
      rcases h with h | ⟨q, hq, _⟩
      · exact h
      · cases hq
    rcases heq with heq | ⟨heq, _⟩
    · exact ⟨p, by rw [heq]; exact List.mem_cons_self, hx⟩
    · exact ⟨p.setLast, by rw [heq]; exact List.mem_cons_self, hx⟩
  · rw [heq]
    have hpn := hl n (by simp)
    rcases h with ⟨h1, h2⟩ | ⟨q, hq, hx⟩
    · by_cases hxn : x < n.pos
      · refine ⟨_, List.mem_cons_self, by simpa using h1, ?_⟩
        rw [Piece.cutAt_stop hpn]
        omega
      · exact ⟨n, by simp, by omega, by omega⟩
    · exact ⟨q, List.mem_cons_of_mem _ hq, hx⟩

end Covers

end LibvmaTlt.Reassembly
