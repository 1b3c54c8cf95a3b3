import Mathlib.Logic.Relation

/-!
# Reachable states

A system takes steps `step s a` for actions `a`; `ok s a` restricts which of them are looked at.
`Reach` is the set of states reached from a start by steps that are all admitted, and `Reach.inv` the
induction over runs that every safety result uses.
-/

namespace LibvmaTlt

variable {S A : Type} {step : S → A → S} {ok : S → A → Prop} {s₀ s : S}

/-- The states reached from `s₀` by admitted steps. -/
inductive Reach (step : S → A → S) (ok : S → A → Prop) (s₀ : S) : S → Prop where
  | start : Reach step ok s₀ s₀
  | next {s : S} (h : Reach step ok s₀ s) (a : A) (ha : ok s a) : Reach step ok s₀ (step s a)

theorem Reach.inv {I : S → Prop} (h : Reach step ok s₀ s) (h0 : I s₀)
    (hs : ∀ s a, I s → ok s a → I (step s a)) : I s := by
  induction h with
  | start => exact h0
  | next _ a ha ih => exact hs _ a ih ha

theorem Reach.mono {ok' : S → A → Prop} (h : Reach step ok s₀ s) (hle : ∀ s a, ok s a → ok' s a) :
    Reach step ok' s₀ s := by
  induction h with
  | start => exact .start
  | next _ a ha ih => exact .next ih a (hle _ a ha)

end LibvmaTlt
