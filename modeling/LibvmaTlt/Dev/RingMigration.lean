import Mathlib.Tactic.Common
import LibvmaTlt.Dev.RingMap

/-!
# Ring migration (`ring_allocation_logic::should_migrate_ring`)

A socket moves to another ring when the key of its allocation logic has changed and stays so. The try
count first spaces out the looks at the key, by the migration ratio, and then counts the calls at which
a candidate was found again. The candidate is also the flag that there is one, so the key 0, which the
first core has, can not be one.
-/

namespace LibvmaTlt.Dev

abbrev candidateStabilityRounds : Nat := 20

/-- What the key of a call is computed from; the descriptor and the core are converted to 64 bits. -/
structure KeySource where
  ctlThread : Bool := false
  ip : BitVec 64 := 0
  fd : BitVec 64 := 0
  thread : BitVec 64 := 0
  cpu : BitVec 64 := 0

def calcResKeyByLogic (logic : RingLogic) (userIdKey : BitVec 64) (src : KeySource) : BitVec 64 :=
  match logic with
  | .perInterface => if src.ctlThread then 1 else 0
  | .perIp => src.ip
  | .perSocket => src.fd
  | .perUserId => userIdKey
  | .perThread => src.thread
  | .perCore | .perCoreAttachThreads => src.cpu

structure RingAllocationLogic where
  ringMigrationRatio : Nat
  userIdKey : BitVec 64
  migrationTryCount : Nat := ringMigrationRatio
  migrationCandidate : BitVec 64 := 0
  active : Bool := true
  deriving DecidableEq

namespace RingAllocationLogic

/-- `should_migrate_ring`, with the key that the logic computes. -/
def shouldMigrateRing (s : RingAllocationLogic) (internalThreadId newId : BitVec 64) :
    RingAllocationLogic × Bool :=
  let countMax :=
    if s.migrationCandidate ≠ 0 then candidateStabilityRounds else s.ringMigrationRatio
  if s.active = false then (s, false)
  else if s.migrationCandidate ≠ 0 ∧ s.migrationCandidate ≠ newId then
    ({ s with migrationCandidate := 0, migrationTryCount := 0 }, false)
  else if s.migrationTryCount < countMax then
    ({ s with migrationTryCount := s.migrationTryCount + 1 }, false)
  else if s.migrationCandidate = 0 then
    if newId = s.userIdKey ∨ internalThreadId = s.userIdKey then
      ({ s with migrationTryCount := 0 }, false)
    else ({ s with migrationTryCount := 0, migrationCandidate := newId }, false)
  else ({ s with migrationTryCount := 0, migrationCandidate := 0 }, true)

def answers (t : BitVec 64) : RingAllocationLogic → List (BitVec 64) → List Bool
  | _, [] => []
  | s, k :: ks => (s.shouldMigrateRing t k).2 :: answers t (s.shouldMigrateRing t k).1 ks

end RingAllocationLogic

structure MigrationRun where
  logic : RingAllocationLogic
  keys : List (BitVec 64) := []

def MigrationRun.step (t : BitVec 64) (s : MigrationRun) (k : BitVec 64) : MigrationRun :=
  ⟨(s.logic.shouldMigrateRing t k).1, k :: s.keys⟩

/-- The try count says at how many of the last calls the candidate was found again. -/
structure MigrationRun.Inv (r : Nat) (c : BitVec 64) (s : MigrationRun) : Prop where
  ratio : s.logic.ringMigrationRatio = r
  key : s.logic.userIdKey = c
  active : s.logic.active = true
  waits : s.logic.migrationCandidate = 0 → s.logic.migrationTryCount ≤ r
  rounds : s.logic.migrationCandidate ≠ 0 →
    s.logic.migrationTryCount ≤ candidateStabilityRounds ∧ s.logic.migrationCandidate ≠ c ∧
      s.keys.take s.logic.migrationTryCount =
        List.replicate s.logic.migrationTryCount s.logic.migrationCandidate

section Runs

variable {r n : Nat} {c t k : BitVec 64} {s : MigrationRun} {l : RingAllocationLogic}

inductive MigrationCall (l : RingAllocationLogic) (t k : BitVec 64) : RingAllocationLogic × Bool → Prop
  | gone (h0 : l.migrationCandidate ≠ 0) (hk : l.migrationCandidate ≠ k) :
    MigrationCall l t k ({ l with migrationCandidate := 0, migrationTryCount := 0 }, false)
  | waits (h0 : l.migrationCandidate = 0) (hlt : l.migrationTryCount < l.ringMigrationRatio) :
    MigrationCall l t k ({ l with migrationTryCount := l.migrationTryCount + 1 }, false)
  | same (h0 : l.migrationCandidate = 0) (hk : k = l.userIdKey ∨ t = l.userIdKey) :
    MigrationCall l t k ({ l with migrationTryCount := 0 }, false)
  | found (h0 : l.migrationCandidate = 0) (hk : k ≠ l.userIdKey) :
    MigrationCall l t k ({ l with migrationTryCount := 0, migrationCandidate := k }, false)
  | again (h0 : k ≠ 0) (hk : l.migrationCandidate = k)
    (hlt : l.migrationTryCount < candidateStabilityRounds) :
    MigrationCall l t k ({ l with migrationTryCount := l.migrationTryCount + 1 }, false)
  | migrates (h0 : k ≠ 0) (hk : l.migrationCandidate = k)
    (hge : candidateStabilityRounds ≤ l.migrationTryCount) :
    MigrationCall l t k ({ l with migrationTryCount := 0, migrationCandidate := 0 }, true)

theorem shouldMigrateRing_call (ha : l.active = true) (t k : BitVec 64) :
    MigrationCall l t k (l.shouldMigrateRing t k) := by
  unfold RingAllocationLogic.shouldMigrateRing
  simp only
  rw [if_neg (by simp [ha])]
  by_cases h0 : l.migrationCandidate = 0
  · rw [if_neg fun h => h.1 h0, if_neg (not_not_intro h0), if_pos h0]
    split
    · exact .waits h0 ‹_›
    · split
      · exact .same h0 ‹_›
      · rename_i hk
        exact .found h0 fun h => hk (.inl h)
  · by_cases hk : l.migrationCandidate = k
    · rw [if_neg fun h => h.2 hk, if_pos h0, if_neg h0]
      split
      · exact .again (hk ▸ h0) hk ‹_›
      · exact .migrates (hk ▸ h0) hk (Nat.not_lt.mp ‹_›)
    · rw [if_pos ⟨h0, hk⟩]
      exact .gone h0 hk

theorem MigrationRun.Inv.step (h : s.Inv r c) (t k : BitVec 64) : (s.step t k).Inv r c := by
  obtain ⟨hr, hc, ha, hw, hs⟩ := h
  unfold MigrationRun.step
  have hcall := shouldMigrateRing_call ha t k
  generalize s.logic.shouldMigrateRing t k = x at hcall ⊢
  cases hcall with
  | gone => exact ⟨hr, hc, ha, fun _ => Nat.zero_le _, fun h => absurd rfl h⟩
  | waits h0 hlt => exact ⟨hr, hc, ha, fun _ => hr ▸ hlt, fun h => absurd h0 h⟩
  | same h0 => exact ⟨hr, hc, ha, fun _ => Nat.zero_le _, fun h => absurd h0 h⟩
  | found h0 hk =>
    exact ⟨hr, hc, ha, fun _ => Nat.zero_le _, fun _ => ⟨Nat.zero_le _, hc ▸ hk, rfl⟩⟩
  | again h0 hk hlt =>
    obtain ⟨-, hne, hkeys⟩ := hs (hk ▸ h0)
    refine ⟨hr, hc, ha, fun h => absurd (hk.symm.trans h) h0, fun _ => ⟨hlt, hne, ?_⟩⟩
    rw [List.take_succ_cons, hkeys, hk, List.replicate_succ]
  | migrates => exact ⟨hr, hc, ha, fun _ => Nat.zero_le _, fun h => absurd rfl h⟩

/-- The calls with key `k` that are needed until one returns true. -/
def callsNeeded (r : Nat) (k : BitVec 64) (l : RingAllocationLogic) : Nat :=
  if l.migrationCandidate = 0 then r - l.migrationTryCount + candidateStabilityRounds + 2
  else if l.migrationCandidate = k then candidateStabilityRounds - l.migrationTryCount + 1
  else r + candidateStabilityRounds + 3

theorem answers_of_callsNeeded (h : s.Inv r c) (hk : k ≠ c) (ht : t ≠ c) (h0 : k ≠ 0)
    (hn : callsNeeded r k s.logic ≤ n) :
    true ∈ RingAllocationLogic.answers t s.logic (List.replicate n k) := by
  induction n generalizing s with
  | zero =>
    unfold callsNeeded at hn
    split at hn
    · omega
    · split at hn <;> omega
  | succ n ih =>
    have hstep := @ih (s.step t k) (h.step t k)
    obtain ⟨hr, hc, ha, -, -⟩ := h
    have hcall := shouldMigrateRing_call ha t k
    rw [List.replicate_succ, RingAllocationLogic.answers]
    unfold MigrationRun.step at hstep
    unfold callsNeeded at hn hstep
    -- the call returns true, or the potential is one lower after it
    generalize s.logic.shouldMigrateRing t k = x at hcall hstep ⊢
    cases hcall with
    | gone hc0 hck =>
      rw [if_neg hc0, if_neg hck] at hn
      exact List.mem_cons_of_mem _ (hstep (by rw [if_pos rfl]; simp only; omega))
    | waits hc0 hlt =>
      rw [if_pos hc0] at hn
      exact List.mem_cons_of_mem _ (hstep (by rw [if_pos hc0]; simp only; omega))
    | same _ hkt => exact absurd (hc ▸ hkt) (not_or.mpr ⟨hk, ht⟩)
    | found hc0 _ =>
      rw [if_pos hc0] at hn
      exact List.mem_cons_of_mem _ (hstep (by rw [if_neg h0, if_pos rfl]; omega))
    | again _ hck hlt =>
      rw [if_neg (hck ▸ h0), if_pos hck] at hn
      exact List.mem_cons_of_mem _ (hstep (by rw [if_neg (hck ▸ h0), if_pos hck]; simp only; omega))
    | migrates => exact List.mem_cons_self

theorem not_answers_zero (t : BitVec 64) (l : RingAllocationLogic) (n : Nat) :
    true ∉ RingAllocationLogic.answers t l (List.replicate n 0) := by
  induction n generalizing l with
  | zero => exact List.not_mem_nil
  | succ n ih =>
    rw [List.replicate_succ, RingAllocationLogic.answers, List.mem_cons, not_or]
    refine ⟨?_, ih _⟩
    cases ha : l.active with
    | false => simp [RingAllocationLogic.shouldMigrateRing, ha]
    | true =>
      have hcall := shouldMigrateRing_call ha t 0
      generalize l.shouldMigrateRing t 0 = x at hcall ⊢
      cases hcall with
      | migrates h0 => exact absurd rfl h0
      | _ => simp

/-- **Migration is stable, and responsive to every key but 0.** A call that returns true found the key
it moves to at the 20 calls before as well; and a key that stays is moved to, exactly if it is not 0. -/
theorem migration_responsive_iff
    (h : Reach (MigrationRun.step t) (fun _ _ => True)
      { logic := { ringMigrationRatio := r, userIdKey := c } } s) :
    (∀ k, (s.logic.shouldMigrateRing t k).2 = true →
      k ≠ c ∧ s.keys.take candidateStabilityRounds = List.replicate candidateStabilityRounds k) ∧
    (∀ k ≠ c, t ≠ c →
      (true ∈ RingAllocationLogic.answers t s.logic
        (List.replicate (r + candidateStabilityRounds + 4) k) ↔ k ≠ 0)) := by
  have hinv : s.Inv r c := h.inv (I := MigrationRun.Inv r c)
    ⟨rfl, rfl, rfl, fun _ => Nat.le_refl _, fun h => absurd rfl h⟩ fun s k hs _ => hs.step t k
  refine ⟨fun k htrue => ?_, fun k hk ht => ⟨?_, fun h0 => ?_⟩⟩
  · have hcall := shouldMigrateRing_call hinv.active t k
    generalize s.logic.shouldMigrateRing t k = x at hcall htrue
    cases hcall with
    | migrates h0 hck hge =>
      obtain ⟨hle, hne, hkeys⟩ := hinv.rounds (hck ▸ h0)
      rw [Nat.le_antisymm hle hge, hck] at hkeys
      exact ⟨hck ▸ hne, hkeys⟩
    | _ => cases htrue
  · rintro hmem rfl
    exact not_answers_zero t s.logic _ hmem
  · refine answers_of_callsNeeded hinv hk ht h0 ?_
    unfold callsNeeded
    split
    · omega
    · split <;> omega

end Runs

/-- A thread of core 3 moves to core 5. -/
theorem migration_responsive_core :
    true ∈ RingAllocationLogic.answers 9 { ringMigrationRatio := 2, userIdKey := 3 }
      (List.replicate (2 + candidateStabilityRounds + 4) (calcResKeyByLogic .perCore 3 { cpu := 5 })) :=
  (((migration_responsive_iff .start).2 _ (by decide) (by decide)).mpr (by decide))

/-- A thread of core 3 moves to core 0, and stays there. -/
theorem migration_not_to_core_zero :
    let k := calcResKeyByLogic .perCore 3 { cpu := 0 }
    k ≠ 3 ∧ true ∉ RingAllocationLogic.answers 9 { ringMigrationRatio := 2, userIdKey := 3 }
      (List.replicate (2 + candidateStabilityRounds + 4) k) := by
  decide

end LibvmaTlt.Dev
