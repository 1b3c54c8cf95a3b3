import LibvmaTlt.Proto.Routing

/-!
# Source addresses of gateway routes

`rt_mgr_update_source_ip` gives a route through a gateway the source address of the route that leads to the
gateway. It goes over the table until a pass leaves as many routes without a source as the pass before.
-/

namespace LibvmaTlt.Proto

/-- The route still has to get its source from its gateway. -/
def RouteVal.unresolved (p : RouteVal) : Bool := p.gw ≠ 0 && p.srcAddr = 0

/-- What the loop makes of the route at place `i`; `ips i` are the local addresses of its interface. -/
def resolveSrc (ips : Nat → List (BitVec 32)) (routes : List RouteVal) (i : Nat) (p : RouteVal) :
    RouteVal :=
  match findRouteVal routes p.gw (p.tableId.setWidth 8) with
  | none => p
  | some v =>
    let p :=
      if v.srcAddr ≠ 0 then { p with srcAddr := v.srcAddr }
      -- the route that is found is the first in the table that looks like this
      else if routes.idxOf v = i ∧ p.gw ∈ ips i then { p with gw := 0, srcAddr := p.gw }
      else p
    if p.srcAddr = p.gw then { p with gw := 0 } else p

/-- One round of the inner loop, with `num_unresolved_src`. -/
def visit (ips : Nat → List (BitVec 32)) (s : List RouteVal × Nat) (i : Nat) : List RouteVal × Nat :=
  match s.1[i]? with
  | none => s
  | some p =>
    if p.unresolved then
      let p := resolveSrc ips s.1 i p
      (s.1.set i p, if p.srcAddr = 0 then s.2 + 1 else s.2)
    else s

def resolvePass (ips : Nat → List (BitVec 32)) (routes : List RouteVal) : List RouteVal × Nat :=
  (List.range routes.length).foldl (visit ips) (routes, 0)

/-- The do-while loop; the bound is on the number of passes. -/
def resolveLoop (ips : Nat → List (BitVec 32)) : Nat → Nat → List RouteVal → Option (List RouteVal)
  | 0, _, _ => none
  | f + 1, prev, routes =>
    let r := resolvePass ips routes
    if r.2 ≠ 0 ∧ r.2 < prev then resolveLoop ips f r.2 r.1 else some r.1

def updateSourceIp (ips : Nat → List (BitVec 32)) (passes : Nat) (routes : List RouteVal) :
    Option (List RouteVal) :=
  resolveLoop ips passes routes.length routes

def Stuck (ips : Nat → List (BitVec 32)) (k : Nat) (routes : List RouteVal) : Prop :=
  ∀ i < k, ∀ p, routes[i]? = some p → p.unresolved → (resolveSrc ips routes i p).srcAddr = 0

variable {ips : Nat → List (BitVec 32)} {routes : List RouteVal} {k i : Nat} {p : RouteVal}

theorem unresolved_iff : p.unresolved = true ↔ p.gw ≠ 0 ∧ p.srcAddr = 0 := by
  simp [RouteVal.unresolved]

theorem resolveSrc_same (hp : p.unresolved) (h : (resolveSrc ips routes i p).srcAddr = 0) :
    resolveSrc ips routes i p = p := by
  obtain ⟨hgw, hsrc⟩ := unresolved_iff.mp hp
  unfold resolveSrc at h ⊢
  cases hv : findRouteVal routes p.gw (p.tableId.setWidth 8) with
  | none => rfl
  | some v =>
    simp only [hv] at h ⊢
    split_ifs at h ⊢ <;> simp_all

theorem Stuck.succ (h : Stuck ips k routes) (hk : routes[k]? = some p)
    (hp : p.unresolved → (resolveSrc ips routes k p).srcAddr = 0) : Stuck ips (k + 1) routes := by
  intro i hi q hq
  rcases Nat.lt_succ_iff_lt_or_eq.mp hi with hi | rfl
  · exact h i hi q hq
  · obtain rfl := Option.some.inj (hk.symm.trans hq)
    exact hp

theorem countP_take {l : List RouteVal} (hk : l[k]? = some p) :
    (l.take (k + 1)).countP RouteVal.unresolved =
      (l.take k).countP RouteVal.unresolved + if p.unresolved then 1 else 0 := by
  rw [List.take_add_one, hk, List.countP_append]
  simp [List.countP_cons]

/-- What has become of the routes before place `k`: either nothing, as none of them could be resolved, or
fewer of them are unresolved. -/
structure Passed (ips : Nat → List (BitVec 32)) (routes : List RouteVal) (k : Nat)
    (s : List RouteVal × Nat) : Prop where
  rest : s.1.drop k = routes.drop k
  count : s.2 = (s.1.take k).countP RouteVal.unresolved
  effect : s.1 = routes ∧ Stuck ips k routes ∨ s.2 < (routes.take k).countP RouteVal.unresolved

theorem Passed.visit {s : List RouteVal × Nat} (h : Passed ips routes k s) (hk : k < routes.length) :
    Passed ips routes (k + 1) (visit ips s k) := by
  have hr : routes[k]? = some routes[k] := List.getElem?_eq_getElem hk
  have hs : s.1[k]? = some routes[k] := by
    have := congrArg (fun l : List RouteVal => l[0]?) h.rest
    simpa [List.getElem?_drop, hr] using this
  have hrest : s.1.drop (k + 1) = routes.drop (k + 1) := by
    rw [← List.drop_drop, h.rest, List.drop_drop]
  generalize routes[k] = p at hr hs
  have hcount := h.count
  simp only [Proto.visit, hs]
  by_cases hp : p.unresolved = true
  · rw [if_pos hp]
    have hroutes := countP_take hr
    rw [if_pos hp] at hroutes
    by_cases h0 : (resolveSrc ips s.1 k p).srcAddr = 0
    · -- it stays as it was
      have hset : s.1.set k p = s.1 := by
        obtain ⟨hlen, hget⟩ := List.getElem?_eq_some_iff.mp hs
        rw [← hget, List.set_getElem_self]
      rw [if_pos h0, resolveSrc_same hp h0, hset]
      refine ⟨hrest, by rw [hcount, countP_take hs, if_pos hp], ?_⟩
      rcases h.effect with ⟨he, hst⟩ | hlt
      · exact .inl ⟨he, hst.succ hr fun _ => he ▸ h0⟩
      · exact .inr (by simp only; omega)
    · rw [if_neg h0]
      have hlen : k < s.1.length := (List.getElem?_eq_some_iff.mp hs).1
      have hnot : (resolveSrc ips s.1 k p).unresolved = false := by
        simpa [RouteVal.unresolved] using fun _ => h0
      refine ⟨by simpa [List.drop_set] using hrest, ?_, .inr ?_⟩
      · rw [countP_take (List.getElem?_set_self hlen), hnot, List.take_set, hcount]
        simp [List.set_eq_of_length_le]
      · rcases h.effect with ⟨he, -⟩ | hlt
        · simp only
          rw [hroutes, hcount, he]
          omega
        · simp only
          omega
  · rw [if_neg hp]
    refine ⟨hrest, by rw [hcount, countP_take hs, if_neg hp, Nat.add_zero], ?_⟩
    rw [countP_take hr, if_neg hp, Nat.add_zero]
    exact h.effect.imp_left fun ⟨he, hst⟩ => ⟨he, hst.succ hr fun h' => absurd h' hp⟩

theorem resolvePass_spec (ips : Nat → List (BitVec 32)) (routes : List RouteVal) :
    (resolvePass ips routes).2 = (resolvePass ips routes).1.countP RouteVal.unresolved ∧
    ((resolvePass ips routes).1 = routes ∧ Stuck ips routes.length routes ∨
      (resolvePass ips routes).2 < routes.countP RouteVal.unresolved) := by
  have hpass : ∀ k ≤ routes.length,
      Passed ips routes k ((List.range k).foldl (visit ips) (routes, 0)) := by
    intro k hk
    induction k with
    | zero => exact ⟨rfl, rfl, .inl ⟨rfl, fun i hi => absurd hi (Nat.not_lt_zero i)⟩⟩
    | succ k ih =>
      rw [List.range_succ, List.foldl_append]
      exact (ih (Nat.le_of_succ_le hk)).visit hk
  obtain ⟨hrest, hcount, heffect⟩ := hpass routes.length (Nat.le_refl _)
  rw [List.drop_length, List.drop_eq_nil_iff] at hrest
  rw [List.take_of_length_le hrest] at hcount
  rw [List.take_length] at heffect
  exact ⟨hcount, heffect⟩

theorem resolveLoop_spec {f prev : Nat} (hf : prev < f) (hprev : routes.countP RouteVal.unresolved ≤ prev) :
    ∃ r, resolveLoop ips f prev routes = some r ∧ (resolvePass ips r).1 = r := by
  induction f generalizing prev routes with
  | zero => exact absurd hf (Nat.not_lt_zero _)
  | succ f ih =>
    obtain ⟨hcount, heffect⟩ := resolvePass_spec ips routes
    unfold resolveLoop
    by_cases hgo : (resolvePass ips routes).2 ≠ 0 ∧ (resolvePass ips routes).2 < prev
    · simp only [if_pos hgo]
      exact ih (by omega) (Nat.le_of_eq hcount.symm)
    simp only [if_neg hgo]
    refine ⟨_, rfl, ?_⟩
    rcases heffect with ⟨he, -⟩ | hlt
    · rw [he, he]
    -- nothing is left to resolve
    have h0 : (resolvePass ips routes).1.countP RouteVal.unresolved = 0 := by omega
    rcases (resolvePass_spec ips (resolvePass ips routes).1).2 with ⟨he, -⟩ | hlt'
    · exact he
    · omega

/-- **The loop ends at a fixpoint** after at most one pass more than there are routes: another pass would
change nothing, and a route whose gateway is reached over a route with a source has one itself. -/
theorem gateway_sources_fixpoint (ips : Nat → List (BitVec 32)) (routes : List RouteVal) :
    ∃ r, updateSourceIp ips (routes.length + 1) routes = some r ∧ (resolvePass ips r).1 = r ∧
      ∀ p ∈ r, p.gw ≠ 0 → ∀ v, findRouteVal r p.gw (p.tableId.setWidth 8) = some v → v.srcAddr ≠ 0 →
        p.srcAddr ≠ 0 := by
  obtain ⟨r, hr, hfix⟩ := @resolveLoop_spec ips routes _ _ (Nat.lt_succ_self _) routes.countP_le_length
  refine ⟨r, hr, hfix, fun p hp hgw v hv hsrc h0 => ?_⟩
  obtain ⟨hcount, ⟨-, hstuck⟩ | hlt⟩ := resolvePass_spec ips r
  · obtain ⟨i, hi, rfl⟩ := List.getElem_of_mem hp
    have := hstuck i hi _ (List.getElem?_eq_getElem hi) (unresolved_iff.mpr ⟨hgw, h0⟩)
    unfold resolveSrc at this
    simp only [hv] at this
    split_ifs at this <;> simp_all
  · rw [hfix] at hcount
    omega

end LibvmaTlt.Proto
