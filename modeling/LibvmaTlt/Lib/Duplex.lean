import Mathlib
import LibvmaTlt.Lib.Reach

/-!
# Two parties and the messages between them

A `Machine` says what an endpoint does by itself and when a message arrives; a `Duplex` is two such
endpoints with the messages under way in both directions. Messages are neither lost nor duplicated and
arrive in any order.

A token of one direction is held by the sending endpoint, travels in a message, is held by the receiving
endpoint and comes back as an echo. `Duplex.count_eq_one` is the law of its conservation: it is enough to
look at one endpoint at a time.
-/

namespace LibvmaTlt

/-- An endpoint: each step yields the next state and the messages sent. `D` is what the surroundings add
to the arrival of a message. -/
structure Machine (E M L D : Type) where
  act : E → L → E × List M
  recv : E → M → D → E × List M

structure Duplex (E M : Type) where
  left : E
  right : E
  toRight : List M
  toLeft : List M

namespace Duplex

variable {E M L D : Type}

def swap (s : Duplex E M) : Duplex E M := ⟨s.right, s.left, s.toLeft, s.toRight⟩

def act (m : Machine E M L D) (s : Duplex E M) (a : L) : Duplex E M :=
  { s with left := (m.act s.left a).1, toRight := s.toRight ++ (m.act s.left a).2 }

/-- The arrival at the left endpoint of the `i`-th message under way. -/
def arrive (m : Machine E M L D) (s : Duplex E M) (i : Nat) (x : D) : Duplex E M :=
  match s.toLeft[i]? with
  | none => s
  | some msg =>
    { s with
      left := (m.recv s.left msg x).1
      toRight := s.toRight ++ (m.recv s.left msg x).2
      toLeft := s.toLeft.eraseIdx i }

/-- The steps of the system; `onLeft` says at which endpoint. -/
inductive Event (L D : Type) where
  | act (onLeft : Bool) (a : L)
  | arrive (onLeft : Bool) (i : Nat) (x : D)

def step (m : Machine E M L D) (s : Duplex E M) : Event L D → Duplex E M
  | .act true a => s.act m a
  | .act false a => (s.swap.act m a).swap
  | .arrive true i x => s.arrive m i x
  | .arrive false i x => (s.swap.arrive m i x).swap

/-- Steps are restricted to those that `okAct` and `ok` admit at the endpoint. -/
def Admits (okAct : E → L → Prop) (ok : E → M → D → Prop) (s : Duplex E M) : Event L D → Prop
  | .act true a => okAct s.left a
  | .act false a => okAct s.right a
  | .arrive true i x => ∀ msg, s.toLeft[i]? = some msg → ok s.left msg x
  | .arrive false i x => ∀ msg, s.toRight[i]? = some msg → ok s.right msg x

/-! ## Tokens -/

/-- Where the tokens of the two directions are: `held` by a sender, `owed` by a receiver, carried by a
message as `mark` or brought back as `echo`. -/
structure Tokens (E M : Type) where
  held : E → Nat
  owed : E → Nat
  mark : M → Nat
  echo : M → Nat

def count (t : Tokens E M) (s : Duplex E M) : Nat :=
  t.held s.left + t.owed s.right + (s.toRight.map t.mark).sum + (s.toLeft.map t.echo).sum

/-- What a step of a `good` endpoint that took in `marks` and `echoes` owes to conservation, while no
token meets another. -/
structure Conserves (t : Tokens E M) (good : E → Prop) (e : E) (marks echoes : Nat)
    (r : E × List M) : Prop where
  good : good r.1
  held : t.held e + echoes ≤ 1 → t.held r.1 + (r.2.map t.mark).sum = t.held e + echoes
  owed : t.owed e + marks ≤ 1 → t.owed r.1 + (r.2.map t.echo).sum = t.owed e + marks

variable {m : Machine E M L D} {t : Tokens E M} {good : E → Prop} {okAct : E → L → Prop}
  {ok : E → M → D → Prop}

theorem sum_eraseIdx {l : List M} {i : Nat} {msg : M} (f : M → Nat) (h : l[i]? = some msg) :
    ((l.eraseIdx i).map f).sum + f msg = (l.map f).sum := by
  induction l generalizing i with
  | nil => cases h
  | cons a rest ih =>
    cases i with
    | zero =>
      cases h
      simp only [List.eraseIdx_cons_zero, List.map_cons, List.sum_cons]
      omega
    | succ i =>
      have := ih (i := i) (by simpa using h)
      simp only [List.eraseIdx_cons_succ, List.map_cons, List.sum_cons]
      omega

section Step

variable (hact : ∀ e a, good e → okAct e a → Conserves t good e 0 0 (m.act e a))
  (hrecv : ∀ e msg x, good e → ok e msg x →
    Conserves t good e (t.mark msg) (t.echo msg) (m.recv e msg x))

def OneToken (t : Tokens E M) (good : E → Prop) (s : Duplex E M) : Prop :=
  good s.left ∧ good s.right ∧ s.count t = 1

include hact hrecv

theorem OneToken.step {s : Duplex E M} {a : Event L D} (h : OneToken t good s)
    (ha : s.Admits okAct ok a) : OneToken t good (s.step m a) := by
  obtain ⟨hl, hr, hc⟩ := h
  unfold count at hc
  match a, ha with
  | .act true a, ha =>
    obtain ⟨hg, hh, -⟩ := hact s.left a hl ha
    refine ⟨hg, hr, ?_⟩
    have := hh (by omega)
    simp only [Duplex.step, Duplex.act, count, List.map_append, List.sum_append]
    omega
  | .act false a, ha =>
    obtain ⟨hg, -, ho⟩ := hact s.right a hr ha
    refine ⟨hl, hg, ?_⟩
    have := ho (by omega)
    simp only [Duplex.step, Duplex.act, swap, count, List.map_append, List.sum_append]
    omega
  | .arrive true i x, ha =>
    simp only [Duplex.step, Duplex.arrive]
    cases hm : s.toLeft[i]? with
    | none => exact ⟨hl, hr, hc⟩
    | some msg =>
      obtain ⟨hg, hh, -⟩ := hrecv s.left msg x hl (ha msg hm)
      have he := sum_eraseIdx t.echo hm
      refine ⟨hg, hr, ?_⟩
      have := hh (by omega)
      simp only [count, List.map_append, List.sum_append]
      omega
  | .arrive false i x, ha =>
    simp only [Duplex.step, Duplex.arrive, swap]
    cases hm : s.toRight[i]? with
    | none => exact ⟨hl, hr, hc⟩
    | some msg =>
      obtain ⟨hg, -, ho⟩ := hrecv s.right msg x hr (ha msg hm)
      have he := sum_eraseIdx t.mark hm
      refine ⟨hl, hg, ?_⟩
      have := ho (by omega)
      simp only [count, List.map_append, List.sum_append]
      omega

theorem count_eq_one {s₀ s : Duplex E M} (h0 : OneToken t good s₀)
    (h : Reach (Duplex.step m) (Admits okAct ok) s₀ s) : OneToken t good s :=
  h.inv h0 fun _ _ hs ha => hs.step hact hrecv ha

end Step

end Duplex

end LibvmaTlt
