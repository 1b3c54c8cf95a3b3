import LibvmaTlt.Lib.Scan
import LibvmaTlt.Lwip.ParseOpt

/-!
# `tcp_parseopt` returns

`parseoptNext` is the index arithmetic of the loop alone: where the pass after the one at `c` starts,
or `none` where the function returns. A SACK option whose length byte is zero moves the index by
nothing, which no other option does.
-/

namespace LibvmaTlt.Lwip

open Scan

def optsEnd (hdrlen : Nat) : Nat := (hdrlen - 5) * 4

/-- One pass of the loop of `tcp_parseopt`: the index, a `u16_t`, after the option at `c`. -/
def parseoptNext (m : Nat → U8) (maxC c : Nat) : Option Nat :=
  let len := (m (c + 1)).toNat
  if c < maxC then
    match (m c).toNat with
    | 0 => none
    | 1 => some (u16 (c + 1))
    | 2 => if len ≠ 4 ∨ c + 4 > maxC then none else some (u16 (c + 4))
    | 3 => if len ≠ 3 ∨ c + 3 > maxC then none else some (u16 (c + 3))
    | 4 => some (u16 (c + 2))
    | 5 => if len ≥ 10 then some (u16 (c + 2 + 8 * ((len - 2) / 8))) else some (u16 (c + len))
    | 8 => if len ≠ 10 ∨ c + 10 > maxC then none else some (u16 (c + 10))
    | _ => if len = 0 then none else some (u16 (c + len))
  else none

/-- The option at `c` is a SACK option that gives its own length as zero. -/
def EmptySack (m : Nat → U8) (c : Nat) : Prop := (m c).toNat = 5 ∧ (m (c + 1)).toNat = 0

instance (m : Nat → U8) (c : Nat) : Decidable (EmptySack m c) := inferInstanceAs (Decidable (_ ∧ _))

section Pass

variable {m : Nat → U8} {maxC c e : Nat}

theorem parseoptNext_of_le (h : maxC ≤ c) : parseoptNext m maxC c = none := if_neg (by omega)

theorem parseoptNext_some (hmax : maxC ≤ 65280) (h : parseoptNext m maxC c = some e) :
    c < maxC ∧ (e = c ∧ EmptySack m c ∨ c < e ∧ ¬ EmptySack m c) := by
  have hlen := (m (c + 1)).isLt
  simp only [parseoptNext] at h
  unfold EmptySack u16 at *
  split at h
  · rename_i hc
    refine ⟨hc, ?_⟩
    split at h <;> (try split at h) <;> simp only [Option.some.injEq, reduceCtorEq] at h <;> omega
  · cases h

theorem parseoptNext_emptySack (hmax : maxC ≤ 65280) (hc : c < maxC) (h : EmptySack m c) :
    parseoptNext m maxC c = some c := by
  obtain ⟨h5, h0⟩ := h
  simp only [parseoptNext, if_pos hc, h5, h0]
  rw [if_neg (by omega)]
  congr 1
  unfold u16
  omega

end Pass

/-! ## The loop of the model follows the index -/

theorem parseoptLoop_isSome_congr (env : Env) (m : Nat → U8) {maxC : Nat} (d : InData) (f c : Nat)
    (s s' : Gathered) : (parseoptLoop env m maxC d f c s.1 s.2).isSome =
      (parseoptLoop env m maxC d f c s'.1 s'.2).isSome := by
  induction f generalizing c s s' with
  | zero =>
    rw [parseoptLoop, parseoptLoop]
    split <;> rfl
  | succ f ih =>
    by_cases hc : c < maxC
    · rw [parseoptLoop_succ env m d f s hc, parseoptLoop_succ env m d f s' hc]
      cases parsePass env m maxC d c with
      | done | overflow => rfl
      | next e F => exact ih e (F s) (F s')
    · rw [parseoptLoop, parseoptLoop, if_neg hc, if_neg hc]
      rfl

theorem tcpParseopt_isSome_congr (env : Env) (m : Nat → U8) (pcb pcb' : Pcb) (d : InData) :
    (tcpParseopt env m pcb d).isSome = (tcpParseopt env m pcb' d).isSome :=
  parseoptLoop_isSome_congr env m d _ 0 (pcb, []) (pcb', [])

section Inv

variable {env : Env} {m : Nat → U8} {maxC c : Nat} {d : InData} {I : Pcb → Prop}
  (hmss : ∀ n p, I p → I (parseMss d n p)) (hscale : ∀ n p, I p → I (parseWndScale env d n p))
  (hperm : ∀ p, I p → I (parseSackPerm d p)) (hts : ∀ t p, I p → I (parseTs d t p))

include hmss hscale hperm hts

theorem parsePass_inv {e : Nat} {F : Gathered → Gathered} (h : parsePass env m maxC d c = .next e F)
    {s : Gathered} (hs : I s.1) : I (F s).1 := by
  unfold parsePass at h
  dsimp only at h
  split at h
  · cases h
  · cases h
    exact hs
  · split at h
    · cases h
    · cases h
      exact hmss _ _ hs
  · split at h
    · cases h
    · cases h
      exact hscale _ _ hs
  · cases h
    exact hperm _ hs
  · split at h
    · split at h
      · cases h
      · cases h
        exact hs
    · cases h
      exact hs
  · split at h
    · cases h
    · cases h
      exact hts _ _ hs
  · split at h
    · cases h
    · cases h
      exact hs

/-- What reading each option keeps, the loop keeps. -/
theorem parseoptLoop_inv {f : Nat} {s r : Gathered}
    (h : parseoptLoop env m maxC d f c s.1 s.2 = some r) (hs : I s.1) : I r.1 := by
  induction f generalizing c s with
  | zero =>
    rw [parseoptLoop] at h
    split at h
    · cases h
    · cases h
      exact hs
  | succ f ih =>
    by_cases hc : c < maxC
    · rw [parseoptLoop_succ env m d f s hc] at h
      split at h
      · cases h
        exact hs
      · cases h
      · rename_i e F hp
        exact ih h (parsePass_inv hmss hscale hperm hts hp hs)
    · rw [parseoptLoop_end env m d (by omega)] at h
      cases h
      exact hs

end Inv

/-! ## Every pass moves the index -/

/-- `tcp_parseopt` returns after finitely many passes, and the index grows in each pass that does not
return. -/
def ParseoptReturns (m : Nat → U8) (hdrlen : Nat) : Prop :=
  Ends (parseoptNext m (optsEnd hdrlen)) 0 ∧
    ∀ c e, Visits (parseoptNext m (optsEnd hdrlen)) 0 c →
      parseoptNext m (optsEnd hdrlen) c = some e → c < e

/-- **`tcp_parseopt` returns on just the options in which it arrives at no SACK option of length
zero.** -/
theorem parseoptReturns_iff (m : Nat → U8) {hdrlen : Nat} (h : hdrlen ≤ 15) :
    ParseoptReturns m hdrlen ↔ ∀ c, Visits (parseoptNext m (optsEnd hdrlen)) 0 c → c < optsEnd hdrlen →
      ¬ EmptySack m c := by
  have hmax : optsEnd hdrlen ≤ 65280 := by
    unfold optsEnd
    omega
  constructor
  · intro hr c hv hc he
    exact not_ends_of_stuck hv (parseoptNext_emptySack hmax hc he) hr.1
  · intro hn
    have hgrows : ∀ c e, Visits (parseoptNext m (optsEnd hdrlen)) 0 c →
        parseoptNext m (optsEnd hdrlen) c = some e → c < e := by
      intro c e hv he
      obtain ⟨hc, ⟨rfl, hempty⟩ | ⟨hlt, -⟩⟩ := parseoptNext_some hmax he
      · exact absurd hempty (hn e hv hc)
      · exact hlt
    exact ⟨ends_of_grows (fun d => parseoptNext_of_le) hgrows, hgrows⟩

/-- A header of six words whose options are a single end mark. -/
theorem parseoptReturns_endMark :
    6 ≤ 15 ∧ ParseoptReturns (fun _ => 0) 6 := by
  refine ⟨by decide, (parseoptReturns_iff (fun _ => 0) (by decide)).mpr ?_⟩
  rintro c - - ⟨h5, -⟩
  cases h5

/-- One packet with the option bytes `05 00 00 00` never leaves `tcp_parseopt`. -/
theorem parseopt_hangs : ¬ ParseoptReturns (fun i => if i = 0 then 5 else 0) 6 := by
  intro h
  have hstuck : parseoptNext (fun i => if i = 0 then 5 else 0) (optsEnd 6) 0 = some 0 := by decide
  exact not_ends_of_stuck (Visits.refl _ 0) hstuck h.1

end LibvmaTlt.Lwip
