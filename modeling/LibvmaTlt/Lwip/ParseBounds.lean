import LibvmaTlt.Lwip.ParseEnd

/-!
# What `tcp_parseopt` reads and stores

`parseoptReads` lists the option bytes a pass of the loop looks at, `ParseoptStores` says when it
takes anything from its option.
-/

namespace LibvmaTlt.Lwip

open Scan

/-! ## One pass -/

/-- The indices at which the pass at `c` may read `opts`. -/
def parseoptReads (m : Nat → U8) (maxC c : Nat) : List Nat :=
  let len := (m (c + 1)).toNat
  match (m c).toNat with
  | 0 | 1 | 4 => [c]
  | 2 => if len ≠ 4 ∨ c + 4 > maxC then [c, c + 1] else [c, c + 1, c + 2, c + 3]
  | 3 => if len ≠ 3 ∨ c + 3 > maxC then [c, c + 1] else [c, c + 1, c + 2]
  | 5 => if len ≥ 10 then c :: (c + 1) :: List.range' (c + 2) (8 * ((len - 2) / 8)) else [c, c + 1]
  | 8 => if len ≠ 10 ∨ c + 10 > maxC then [c, c + 1] else [c, c + 1, c + 2, c + 3, c + 4, c + 5]
  | _ => [c, c + 1]

/-- The entries of `sack_block` that the pass at `c` writes. -/
def sackWrites (m : Nat → U8) (c : Nat) : Nat :=
  let len := (m (c + 1)).toNat
  if (m c).toNat = 5 ∧ len ≥ 10 then (len - 2) / 8 else 0

/-- The pass at `c` takes something from its option. -/
def ParseoptStores (syn : Bool) (m : Nat → U8) (maxC c : Nat) : Prop :=
  let len := (m (c + 1)).toNat
  match (m c).toNat with
  | 2 => syn = true ∧ len = 4 ∧ c + 4 ≤ maxC
  | 3 => syn = true ∧ len = 3 ∧ c + 3 ≤ maxC
  | 4 => syn = true
  | 5 => len ≥ 10
  | 8 => len = 10 ∧ c + 10 ≤ maxC
  | _ => False

/-- The option at `c` has no length byte, or one that is among the options and does not go beyond
them. -/
def DeclaredFits (m : Nat → U8) (maxC c : Nat) : Prop :=
  (m c).toNat = 0 ∨ (m c).toNat = 1 ∨ c + 1 < maxC ∧ c + (m (c + 1)).toNat ≤ maxC

/-- `tcp_parseopt` keeps to the option bytes and to `sack_block`, and takes nothing from an option that
does not fit. -/
structure ParseoptInBounds (syn : Bool) (m : Nat → U8) (hdrlen : Nat) : Prop where
  reads : ∀ c, Visits (parseoptNext m (optsEnd hdrlen)) 0 c → c < optsEnd hdrlen →
    ∀ i ∈ parseoptReads m (optsEnd hdrlen) c, i < optsEnd hdrlen
  writes : ∀ c, Visits (parseoptNext m (optsEnd hdrlen)) 0 c → c < optsEnd hdrlen → sackWrites m c ≤ 4
  fits : ∀ c, Visits (parseoptNext m (optsEnd hdrlen)) 0 c → c < optsEnd hdrlen →
    ¬ DeclaredFits m (optsEnd hdrlen) c → ¬ ParseoptStores syn m (optsEnd hdrlen) c

/-! ## Options that stay in bounds -/

/-- The option at `c` keeps the parser in bounds: it has its length byte among the options, unless it is
an end mark, a NOP or SACK-permitted; a SACK option with blocks fits, and so does a SACK-permitted
option of a SYN. -/
def OptionInBounds (syn : Bool) (m : Nat → U8) (maxC c : Nat) : Prop :=
  let len := (m (c + 1)).toNat
  match (m c).toNat with
  | 0 | 1 => True
  | 4 => syn = true → c + 1 < maxC ∧ c + len ≤ maxC
  | 5 => c + 1 < maxC ∧ (len < 10 ∨ c + len ≤ maxC)
  | _ => c + 1 < maxC

theorem optionInBounds_iff {syn : Bool} {m : Nat → U8} {maxC c : Nat} (hmax : maxC ≤ 40)
    (hc : c < maxC) :
    (∀ i ∈ parseoptReads m maxC c, i < maxC) ∧ sackWrites m c ≤ 4 ∧
        (¬ DeclaredFits m maxC c → ¬ ParseoptStores syn m maxC c) ↔
      OptionInBounds syn m maxC c := by
  unfold parseoptReads sackWrites DeclaredFits ParseoptStores OptionInBounds
  generalize (m c).toNat = k
  rcases parseoptKind k with rfl | rfl | rfl | rfl | rfl | rfl | rfl | ⟨h0, h1, h2, h3, h4, h5, h8⟩
  · simp [hc]
  · simp [hc]
  iterate 2
    · simp only
      refine ⟨fun h => h.1 (c + 1) (by split <;> simp), fun h => ⟨?_, by simp, fun hn hs => hn ?_⟩⟩
      · split <;> simp <;> omega
      · omega
  · simp only
    refine ⟨fun h hs => ?_, fun h => ⟨by simpa using hc, by simp, fun hn hs => hn ?_⟩⟩
    · by_contra hn
      exact h.2.2 (by omega) hs
    · have := h hs
      omega
  · simp only
    constructor
    · intro ⟨hreads, hwrites, hfits⟩
      refine ⟨hreads (c + 1) (by split <;> simp), ?_⟩
      by_contra hn
      exact hfits (by omega) (by omega)
    · intro ⟨hlen, hfits⟩
      refine ⟨?_, ?_, fun hn hs => hn (by omega)⟩
      · intro i hi
        split at hi <;>
          simp only [List.mem_cons, List.mem_range'_1, List.not_mem_nil, or_false] at hi <;> omega
      · split <;> omega
  · simp only
    refine ⟨fun h => h.1 (c + 1) (by split <;> simp), fun h => ⟨?_, by simp, fun hn hs => hn ?_⟩⟩
    · split <;> simp <;> omega
    · omega
  · simp [hc, h5]

/-- **`tcp_parseopt` keeps in bounds on just the options in which every one it arrives at does.** -/
theorem parseoptInBounds_iff (syn : Bool) (m : Nat → U8) {hdrlen : Nat} (h : hdrlen ≤ 15) :
    ParseoptInBounds syn m hdrlen ↔ ∀ c, Visits (parseoptNext m (optsEnd hdrlen)) 0 c →
      c < optsEnd hdrlen → OptionInBounds syn m (optsEnd hdrlen) c := by
  have hmax : optsEnd hdrlen ≤ 40 := by
    unfold optsEnd
    omega
  constructor
  · intro hb c hv hc
    exact (optionInBounds_iff hmax hc).mp ⟨hb.reads c hv hc, hb.writes c hv hc, hb.fits c hv hc⟩
  · intro ho
    exact {
      reads := fun c hv hc => ((optionInBounds_iff hmax hc).mpr (ho c hv hc)).1
      writes := fun c hv hc => ((optionInBounds_iff hmax hc).mpr (ho c hv hc)).2.1
      fits := fun c hv hc => ((optionInBounds_iff hmax hc).mpr (ho c hv hc)).2.2 }

/-- The MSS option of a SYN. -/
theorem parseoptInBounds_mss : 6 ≤ 15 ∧ ParseoptInBounds true
    (fun i => if i = 0 then 2 else if i = 1 then 4 else if i = 2 then 5 else 180) 6 := by
  refine ⟨by decide, (parseoptInBounds_iff true _ (by decide)).mpr fun c hv hc => ?_⟩
  rcases hv.cases_head with rfl | ⟨e, he, hv⟩
  · exact (by decide : 0 + 1 < optsEnd 6)
  · obtain rfl : 4 = e := Option.some.inj (Eq.trans (by decide) he)
    rcases hv.cases_head with rfl | ⟨e, he, -⟩
    · exact absurd hc (by decide)
    · exact absurd he (by rw [parseoptNext_of_le (by decide)]; simp)

/-- A SACK option of five blocks in four bytes of options: blocks are read beyond the header, and the
fifth is written beyond `sack_block`. -/
theorem parseoptInBounds_fails :
    ¬ ParseoptInBounds false (fun i => if i = 0 then 5 else if i = 1 then 42 else 0) 6 := by
  intro h
  exact absurd (h.writes 0 (Visits.refl _ 0) (by decide)) (by decide)

end LibvmaTlt.Lwip
