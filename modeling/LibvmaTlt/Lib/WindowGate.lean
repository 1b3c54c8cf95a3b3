import Mathlib

/-!
# A gate that opens once per window

A request that comes at position `pos` of a modular counter is let through if `pos` is not below, as an
unsigned number, the position set by the last request let through: its own position and the width it
asked for. What is let through is served later, once. By the modular distance the gate opens too early
where the position it waits for has wrapped around and the counter has not, and too late in the opposite
case (`early_late_iff`); `oncePerWindow_iff` says which runs serve one request per window.
-/

namespace LibvmaTlt

variable {n : Nat}

inductive GateEvent (n : Nat) where
  | ask (pos width : BitVec n) (opened : Bool)
  | serve
  deriving DecidableEq

def GateEvent.opening : GateEvent n → Option (BitVec n × BitVec n)
  | .ask pos width true => some (pos, width)
  | _ => none

def opens (ev : List (GateEvent n)) : List (BitVec n × BitVec n) := ev.filterMap GateEvent.opening

theorem opens_append (u v : List (GateEvent n)) : opens (u ++ v) = opens u ++ opens v :=
  List.filterMap_append

theorem exists_of_head_opens {ev : List (GateEvent n)} {r : BitVec n × BitVec n}
    (h : (opens ev).head? = some r) :
    ∃ x y, ev = x ++ .ask r.1 r.2 true :: y ∧ opens x = [] := by
  obtain ⟨rest, hcons⟩ := List.head?_eq_some_iff.mp h
  obtain ⟨x, e, y, rfl, hx, he, -⟩ := List.filterMap_eq_cons_iff.mp hcons
  refine ⟨x, y, ?_, List.filterMap_eq_nil_iff.mpr hx⟩
  match e with
  | .ask pos width true =>
    obtain rfl : (pos, width) = r := Option.some.inj he
    rfl
  | .ask pos width false => cases he
  | .serve => cases he

/-- A gate: where it opens next, and whether a service is due. -/
structure Gate (n : Nat) where
  next : BitVec n
  pending : Bool

namespace Gate

def step (g : Gate n) : GateEvent n → Gate n
  | .ask pos width true => ⟨pos + width, true⟩
  | .ask _ _ false => g
  | .serve => { g with pending := false }

def after (g : Gate n) (ev : List (GateEvent n)) : Gate n := ev.foldl step g

def Allows (g : Gate n) : GateEvent n → Prop
  | .ask pos _ opened => opened = true ↔ g.next ≤ pos
  | .serve => g.pending = true

def Accepts : Gate n → List (GateEvent n) → Prop
  | _, [] => True
  | g, e :: ev => g.Allows e ∧ (g.step e).Accepts ev

theorem after_append (g : Gate n) (u v : List (GateEvent n)) :
    g.after (u ++ v) = (g.after u).after v := List.foldl_append

theorem accepts_append {g : Gate n} {u v : List (GateEvent n)} :
    g.Accepts (u ++ v) ↔ g.Accepts u ∧ (g.after u).Accepts v := by
  induction u generalizing g with
  | nil => exact (and_iff_right trivial).symm
  | cons e u ih =>
    rw [List.cons_append, Accepts, Accepts, ih, and_assoc]
    rfl

theorem after_next {g : Gate n} {ev : List (GateEvent n)} {r : BitVec n × BitVec n}
    (h : (opens ev).getLast? = some r) : (g.after ev).next = r.1 + r.2 := by
  induction ev using List.reverseRecOn generalizing g with
  | nil => cases h
  | append_singleton ev e ih =>
    rw [opens_append] at h
    rw [after_append]
    match e with
    | .ask pos width true =>
      have hlast : (opens ev ++ [(pos, width)]).getLast? = some r := h
      rw [List.getLast?_concat] at hlast
      obtain rfl : (pos, width) = r := Option.some.inj hlast
      rfl
    | .ask pos width false => exact ih (by simpa [opens, GateEvent.opening] using h)
    | .serve => exact ih (by simpa [opens, GateEvent.opening] using h)

theorem after_pending {g : Gate n} {ev : List (GateEvent n)} (hg : g.pending = false)
    (h : (g.after ev).pending = true) : opens ev ≠ [] := by
  induction ev generalizing g with
  | nil => exact nomatch hg.symm.trans h
  | cons e ev ih =>
    match e with
    | .ask pos width true => exact List.cons_ne_nil _ _
    | .ask pos width false => exact ih (g := g) hg h
    | .serve => exact ih (g := { g with pending := false }) rfl h

end Gate

/-! ## Unsigned and modular comparison -/

section Compare

variable (a w pos : BitVec n)

theorem toNat_add_cases : (a + w).toNat = if a.toNat + w.toNat < 2 ^ n then a.toNat + w.toNat
    else a.toNat + w.toNat - 2 ^ n := by
  have ha := a.isLt
  have hw := w.isLt
  rw [BitVec.toNat_add]
  split
  · exact Nat.mod_eq_of_lt (by assumption)
  · rw [Nat.mod_eq_sub_mod (by omega), Nat.mod_eq_of_lt (by omega)]

theorem toNat_sub_cases : (pos - a).toNat = if a.toNat ≤ pos.toNat then pos.toNat - a.toNat
    else 2 ^ n - a.toNat + pos.toNat := by
  have ha := a.isLt
  have hp := pos.isLt
  rw [BitVec.toNat_sub]
  split
  · rw [Nat.mod_eq_sub_mod (by omega), Nat.mod_eq_of_lt (by omega)]
    omega
  · exact Nat.mod_eq_of_lt (by omega)

theorem early_late_iff : ((a + w ≤ pos → w ≤ pos - a) ↔ (a ≤ pos → a ≤ a + w)) ∧
    ((w ≤ pos - a → a + w ≤ pos) ↔ (a ≤ a + w → a ≤ pos)) := by
  have ha := a.isLt
  have hw := w.isLt
  have hp := pos.isLt
  have hadd := toNat_add_cases a w
  have hsub := toNat_sub_cases a pos
  simp only [BitVec.le_def]
  generalize 2 ^ n = M at *
  constructor
  · split at hadd <;> split at hsub <;> omega
  · split at hadd <;> split at hsub <;> omega

end Compare

/-! ## Runs of a gate -/

structure OncePerWindow (ev : List (GateEvent n)) : Prop where
  /-- Before a service a request is let through, and between two services in a row another one. -/
  asked : ∀ u m v, ev = u ++ .serve :: (m ++ .serve :: v) → .serve ∉ m → opens u ≠ [] ∧ opens m ≠ []
  /-- Between the last request let through before a service and the first one after it, the counter has
  moved by the width of the former, if the latter is served too. -/
  apart : ∀ u m v r s, ev = u ++ .serve :: (m ++ .serve :: v) → .serve ∉ m →
    (opens u).getLast? = some r → (opens m).head? = some s → r.2 ≤ s.1 - r.1
  /-- A request after the counter has moved by the width of the last one let through is let through. -/
  due : ∀ u pos width opened v r, ev = u ++ .ask pos width opened :: v →
    (opens u).getLast? = some r → r.2 ≤ pos - r.1 → opened = true

/-- The position that the gate waits for and the counter wrap around together, as far as it matters. -/
structure WrapsTogether (ev : List (GateEvent n)) : Prop where
  apart : ∀ u m v r s, ev = u ++ .serve :: (m ++ .serve :: v) → .serve ∉ m →
    (opens u).getLast? = some r → (opens m).head? = some s → r.1 ≤ s.1 → r.1 ≤ r.1 + r.2
  due : ∀ u pos width opened v r, ev = u ++ .ask pos width opened :: v →
    (opens u).getLast? = some r → r.1 ≤ r.1 + r.2 → r.1 ≤ pos

namespace Gate

variable {g : Gate n} {ev : List (GateEvent n)}

theorem Accepts.ask (h : g.Accepts ev) {u v : List (GateEvent n)} {pos width : BitVec n} {opened : Bool}
    {r : BitVec n × BitVec n} (hev : ev = u ++ .ask pos width opened :: v)
    (hu : (opens u).getLast? = some r) : opened = true ↔ r.1 + r.2 ≤ pos := by
  subst hev
  have hallows := (accepts_append.mp h).2.1
  rw [Allows, after_next hu] at hallows
  exact hallows

theorem Accepts.first (h : g.Accepts ev) {u m v : List (GateEvent n)} {r s : BitVec n × BitVec n}
    (hev : ev = u ++ .serve :: (m ++ .serve :: v)) (hu : (opens u).getLast? = some r)
    (hm : (opens m).head? = some s) : r.1 + r.2 ≤ s.1 := by
  obtain ⟨x, y, rfl, hx⟩ := exists_of_head_opens hm
  have hlast : (opens (u ++ .serve :: x)).getLast? = some r := by
    rw [opens_append, ← hu]
    show (opens u ++ opens x).getLast? = _
    rw [hx, List.append_nil]
  have hask : ev = (u ++ .serve :: x) ++ .ask s.1 s.2 true :: (y ++ .serve :: v) := by
    rw [hev]
    simp
  exact (h.ask hask hlast).mp rfl

/-- **One request is served per window in just the runs in which the positions wrap together.** -/
theorem oncePerWindow_iff (h : g.Accepts ev) (hg : g.pending = false) :
    OncePerWindow ev ↔ WrapsTogether ev := by
  constructor
  · intro ho
    refine ⟨fun u m v r s hev hm hu hs => ?_, fun u pos width opened v r hev hu => ?_⟩
    · exact (early_late_iff r.1 r.2 s.1).1.mp fun _ => ho.apart u m v r s hev hm hu hs
    · refine (early_late_iff r.1 r.2 pos).2.mp fun hmoved => ?_
      exact (h.ask hev hu).mp (ho.due u pos width opened v r hev hu hmoved)
  · intro hw
    refine ⟨fun u m v hev _ => ?_, fun u m v r s hev hm hu hs => ?_,
      fun u pos width opened v r hev hu => ?_⟩
    · subst hev
      obtain ⟨-, hserve, hrest⟩ := accepts_append.mp h
      obtain ⟨-, hserve', -⟩ := accepts_append.mp hrest
      exact ⟨after_pending hg hserve, after_pending rfl hserve'⟩
    · exact (early_late_iff r.1 r.2 s.1).1.mpr (hw.apart u m v r s hev hm hu hs) (h.first hev hu hs)
    · intro hmoved
      have hwrap := hw.due u pos width opened v r hev hu
      exact (h.ask hev hu).mpr ((early_late_iff r.1 r.2 pos).2.mpr hwrap hmoved)

end Gate

end LibvmaTlt
