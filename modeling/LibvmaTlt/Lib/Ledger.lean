import LibvmaTlt.Lib.Chain
import Mathlib.Data.List.Perm.Basic
import Mathlib.Data.List.Nodup

/-!
# Ledgers

What a call obtains and what it releases. `Holds` is the conservation law: everything obtained is
released or held, in one place only. A call that holds nothing at its end has released each thing it
obtained exactly once. `ChainHeap` has the links of chained cells beside a ledger; releasing a chain
releases whatever is linked to its head.
-/

namespace LibvmaTlt

/-- What was obtained and what was released, oldest first. -/
structure Ledger (α : Type) where
  got : List α := []
  freed : List α := []
  deriving DecidableEq

namespace Ledger

variable {α : Type} {g : Ledger α} {held xs : List α} {x : α}

def get (g : Ledger α) (x : α) : Ledger α := { g with got := g.got ++ [x] }

def free (g : Ledger α) (xs : List α) : Ledger α := { g with freed := g.freed ++ xs }

@[simp] theorem got_get (g : Ledger α) (x : α) : (g.get x).got = g.got ++ [x] := rfl

@[simp] theorem got_free (g : Ledger α) (xs : List α) : (g.free xs).got = g.got := rfl

@[simp] theorem freed_free (g : Ledger α) (xs : List α) : (g.free xs).freed = g.freed ++ xs := rfl

/-- Everything obtained was obtained once and is released or held. -/
structure Holds (g : Ledger α) (held : List α) : Prop where
  perm : (g.freed ++ held).Perm g.got
  nodup : g.got.Nodup

theorem holds_empty : Holds ({} : Ledger α) [] := ⟨.nil, .nil⟩

theorem Holds.get (h : g.Holds held) (hx : x ∉ g.got) : (g.get x).Holds (held ++ [x]) := by
  refine ⟨?_, List.Nodup.append h.nodup (List.nodup_singleton x) ?_⟩
  · show (g.freed ++ (held ++ [x])).Perm (g.got ++ [x])
    rw [← List.append_assoc]
    exact h.perm.append_right [x]
  · rw [List.disjoint_singleton]
    exact hx

theorem Holds.free (h : g.Holds (xs ++ held)) : (g.free xs).Holds held := by
  refine ⟨?_, h.nodup⟩
  show (g.freed ++ xs ++ held).Perm g.got
  rw [List.append_assoc]
  exact h.perm

theorem Holds.swap {held' : List α} (h : g.Holds held) (hp : held'.Perm held) : g.Holds held' :=
  ⟨(hp.append_left g.freed).trans h.perm, h.nodup⟩

/-- Each thing obtained was released exactly once, and nothing else was. -/
structure Settled [DecidableEq α] (g : Ledger α) : Prop where
  once : ∀ x ∈ g.got, g.freed.count x = 1
  only : ∀ x ∈ g.freed, x ∈ g.got

theorem Holds.settled [DecidableEq α] (h : g.Holds []) : g.Settled := by
  have hp : g.freed.Perm g.got := by simpa using h.perm
  refine ⟨fun x hx => ?_, fun x hx => hp.mem_iff.mp hx⟩
  rw [hp.count_eq]
  exact List.count_eq_one_of_mem h.nodup hx

end Ledger

/-! ## Chains -/

/-- Cells that are linked into chains, with what was obtained and released of them. -/
structure ChainHeap where
  next : Nat → Option Nat
  mem : Ledger Nat := {}

namespace ChainHeap

/-- `x->next = y`. -/
def link (h : ChainHeap) (x : Nat) (y : Option Nat) : ChainHeap :=
  { h with next := fun z => if z = x then y else h.next z }

/-- The cells from a pointer on are unlinked and released one after the other; the bound is on their
number. -/
def freeChain : Nat → Option Nat → ChainHeap → ChainHeap
  | 0, _, h => h
  | _, none, h => h
  | f + 1, some x, h => freeChain f (h.next x) { h.link x none with mem := h.mem.free [x] }

theorem freeChain_spec : ∀ {l : List Nat} {f : Nat} {a : Option Nat} {h : ChainHeap},
    Chain h.next a l → l.Nodup → l.length ≤ f →
    (freeChain f a h).mem = h.mem.free l ∧ ∀ x, x ∉ l → (freeChain f a h).next x = h.next x := by
  intro l
  induction l with
  | nil =>
    intro f a h hc _ _
    rw [Chain.nil_iff] at hc
    subst hc
    have hmem : h.mem.free [] = h.mem := by
      show { h.mem with freed := h.mem.freed ++ [] } = h.mem
      rw [List.append_nil]
    cases f with
    | zero | succ => exact ⟨hmem.symm, fun _ _ => rfl⟩
  | cons b l ih =>
    intro f a h hc hnd hf
    obtain ⟨rfl, hc'⟩ := Chain.cons_iff.mp hc
    obtain ⟨hb, hnd'⟩ := List.nodup_cons.mp hnd
    cases f with
    | zero => exact absurd hf (Nat.not_succ_le_zero _)
    | succ f =>
      have hc'' : Chain (h.link b none).next (h.next b) l :=
        hc'.transport fun c hm => if_neg fun he : c = b => hb (he ▸ hm)
      obtain ⟨hm, hn⟩ := @ih f (h.next b) { h.link b none with mem := h.mem.free [b] } hc'' hnd'
        (Nat.le_of_succ_le_succ hf)
      refine ⟨?_, fun x hx => ?_⟩
      · show (freeChain f (h.next b) _).mem = _
        rw [hm]
        show ({ h.mem with freed := h.mem.freed ++ [b] ++ l } : Ledger Nat) = _
        rw [List.append_assoc]
        rfl
      · rw [List.mem_cons, not_or] at hx
        exact (hn x hx.2).trans (if_neg hx.1)

end ChainHeap

end LibvmaTlt
