import Mathlib

/-!
# Runs of intervals

A list of intervals `[a.1, a.2)` in order, possibly touching. `runs` joins those that follow on each
other to maximal ones; `lasts` keeps of each group of touching intervals the last one. The two agree
just when an interval touches the next one only if it is empty (`lasts_eq_runs_iff`).
-/

namespace LibvmaTlt.Runs

variable {α : Type*} [LinearOrder α]

def Ordered (l : List (α × α)) : Prop :=
  (∀ a ∈ l, a.1 ≤ a.2) ∧ l.Pairwise fun a b => a.2 ≤ b.1

/-- Put a non-empty interval in front of runs, joining it to the first one if they touch. -/
def joinRun (a : α × α) : List (α × α) → List (α × α)
  | [] => [a]
  | b :: r => if a.2 = b.1 then (a.1, b.2) :: r else a :: b :: r

def runs : List (α × α) → List (α × α)
  | [] => []
  | a :: l => if a.1 = a.2 then runs l else joinRun a (runs l)

def lasts : List (α × α) → List (α × α)
  | [] => []
  | [a] => [a]
  | a :: b :: l => if a.2 = b.1 then lasts (b :: l) else a :: lasts (b :: l)

/-- An interval is empty just when it touches the next one, and the last one is not empty. -/
def Spread : List (α × α) → Prop
  | [] => True
  | [a] => a.1 ≠ a.2
  | a :: b :: l => (a.1 = a.2 ↔ a.2 = b.1) ∧ Spread (b :: l)

variable {a b : α × α} {l r : List (α × α)} {m x : α}

theorem Ordered.tail (h : Ordered (a :: l)) : Ordered l :=
  ⟨fun b hb => h.1 b (List.mem_cons_of_mem a hb), (List.pairwise_cons.mp h.2).2⟩

theorem Ordered.le_of_mem (h : Ordered (a :: l)) (hb : b ∈ l) : a.2 ≤ b.1 :=
  (List.pairwise_cons.mp h.2).1 b hb

/-! ## The last interval of each group -/

theorem lasts_subset (h : b ∈ lasts l) : b ∈ l := by
  induction l with
  | nil => exact h
  | cons a l ih =>
    cases l with
    | nil => exact h
    | cons c l =>
      rw [lasts] at h
      split at h
      · exact List.mem_cons_of_mem a (ih h)
      · rcases List.mem_cons.mp h with rfl | h
        · exact List.mem_cons_self
        · exact List.mem_cons_of_mem a (ih h)

def Starts (a : α × α) (r : List (α × α)) : Prop := ∃ b r', r = b :: r' ∧ b.1 = a.1

theorem starts_joinRun (a : α × α) (r : List (α × α)) : Starts a (joinRun a r) := by
  cases r with
  | nil => exact ⟨a, [], rfl, rfl⟩
  | cons b r =>
    rw [joinRun]
    split
    · exact ⟨_, r, rfl, rfl⟩
    · exact ⟨a, b :: r, rfl, rfl⟩

theorem length_joinRun_le (a : α × α) (r : List (α × α)) : (joinRun a r).length ≤ r.length + 1 := by
  cases r with
  | nil => exact le_rfl
  | cons b r =>
    rw [joinRun]
    split
    · simp
    · simp

theorem length_runs_le (a : α × α) (l : List (α × α)) :
    (runs (a :: l)).length ≤ (lasts (a :: l)).length ∧
      (¬ Starts a (runs (a :: l)) → (runs (a :: l)).length < (lasts (a :: l)).length) := by
  induction l generalizing a with
  | nil =>
    rw [runs, lasts]
    split
    · simp [runs]
    · exact ⟨le_rfl, fun h => absurd (starts_joinRun a _) h⟩
  | cons b l ih =>
    obtain ⟨hle, hlt⟩ := ih b
    rw [runs, lasts]
    split
    · next he =>
      split
      · next ht =>
        -- an empty interval at the start of the next one changes neither
        refine ⟨hle, fun hs => hlt fun hb => hs ?_⟩
        obtain ⟨c, r, hr, hc⟩ := hb
        exact ⟨c, r, hr, by rw [hc, he, ht]⟩
      · rw [List.length_cons]
        exact ⟨by omega, fun _ => by omega⟩
    · refine ⟨?_, fun h => absurd (starts_joinRun a _) h⟩
      have hj := length_joinRun_le a (runs (b :: l))
      split
      · next ht =>
        by_cases hs : Starts b (runs (b :: l))
        · obtain ⟨c, r, hr, hc⟩ := hs
          rw [hr] at hle ⊢
          rw [joinRun, if_pos (by rw [hc, ht])]
          exact hle
        · have := hlt hs
          omega
      · rw [List.length_cons]
        omega

theorem Spread.lasts_eq (h : Spread l) :
    lasts l = runs l ∧ lasts l = l.filter (fun a => a.1 ≠ a.2) ∧
      ∀ a l', l = a :: l' → Starts a (runs l) := by
  induction l with
  | nil => exact ⟨rfl, rfl, by simp⟩
  | cons a l ih =>
    cases l with
    | nil =>
      have ha : a.1 ≠ a.2 := h
      refine ⟨by simp [lasts, runs, joinRun, ha], by simp [lasts, ha], ?_⟩
      intro b l' heq
      obtain ⟨rfl, rfl⟩ := List.cons.inj heq
      rw [runs, if_neg h]
      exact starts_joinRun a _
    | cons b l =>
      obtain ⟨hiff, hrest⟩ := h
      obtain ⟨heq, hfil, hstart⟩ := ih hrest
      obtain ⟨c, r, hr, hc⟩ := hstart b l rfl
      by_cases he : a.1 = a.2
      · have ht := hiff.mp he
        rw [lasts, if_pos ht, runs, if_pos he, List.filter_cons_of_neg (by simpa using he)]
        refine ⟨heq, hfil, ?_⟩
        intro a' l' heq'
        obtain ⟨rfl, rfl⟩ := List.cons.inj heq'
        exact ⟨c, r, hr, by rw [hc, he, ht]⟩
      · have ht : ¬ a.2 = b.1 := fun ht => he (hiff.mpr ht)
        rw [lasts, if_neg ht, runs, if_neg he, List.filter_cons_of_pos (by simpa using he)]
        refine ⟨?_, by rw [hfil], ?_⟩
        · rw [heq, hr, joinRun, if_neg (by rw [hc]; exact ht)]
        · intro a' l' heq'
          obtain ⟨rfl, rfl⟩ := List.cons.inj heq'
          exact starts_joinRun a _

/-- **The last intervals are the runs** just when an interval touches the next one only if it is
empty. -/
theorem lasts_eq_runs_iff (h : Ordered l) : lasts l = runs l ↔ Spread l := by
  refine ⟨fun heq => ?_, fun hs => hs.lasts_eq.1⟩
  induction l with
  | nil => trivial
  | cons a l ih =>
    cases l with
    | nil =>
      intro he
      simp [lasts, runs, he] at heq
    | cons b l =>
      obtain ⟨hle, -⟩ := length_runs_le b l
      rw [lasts, runs] at heq
      split at heq
      · next ht =>
        split at heq
        · next he => exact ⟨iff_of_true he ht, ih h.tail heq⟩
        next he =>
        -- the run of `a` starts before everything that is kept
        exfalso
        obtain ⟨c, r, hr, hc⟩ := starts_joinRun a (runs (b :: l))
        have hmem : c ∈ lasts (b :: l) := by
          rw [heq, hr]
          exact List.mem_cons_self
        have hac := h.le_of_mem (lasts_subset hmem)
        exact he (le_antisymm (h.1 a List.mem_cons_self) (hac.trans hc.le))
      · next ht =>
        split at heq
        · have := congrArg List.length heq
          rw [List.length_cons] at this
          omega
        next he =>
        refine ⟨iff_of_false he ht, ih h.tail ?_⟩
        cases hr : runs (b :: l) with
        | nil =>
          rw [hr, joinRun] at heq
          exact (List.cons.inj heq).2
        | cons c r =>
          rw [hr] at heq hle
          rw [joinRun] at heq
          split at heq
          · have := congrArg List.length heq
            simp only [List.length_cons] at this hle
            omega
          · exact (List.cons.inj heq).2

theorem lasts_eq_take_iff (h : Ordered l) (n : Nat) :
    (lasts l = (runs l).take n ∧ (lasts l).length ≤ n) ↔
      Spread l ∧ (l.filter fun a => a.1 ≠ a.2).length ≤ n := by
  constructor
  · rintro ⟨heq, hn⟩
    have hle : (runs l).length ≤ (lasts l).length := by
      cases l with
      | nil => exact le_rfl
      | cons a l => exact (length_runs_le a l).1
    rw [List.take_of_length_le (hle.trans hn)] at heq
    have hs := (lasts_eq_runs_iff h).mp heq
    exact ⟨hs, by rw [← hs.lasts_eq.2.1]; exact hn⟩
  · rintro ⟨hs, hn⟩
    rw [← hs.lasts_eq.2.1] at hn
    refine ⟨?_, hn⟩
    rw [← hs.lasts_eq.1, List.take_of_length_le hn]

end LibvmaTlt.Runs
