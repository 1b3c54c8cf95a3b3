import Mathlib.Data.List.MinMax
import Mathlib.Tactic.Common

/-!
# Policy routing (`rule_table_mgr`, `route_table_mgr`)

A destination is resolved in two tables. The rules that match a key name routing tables, in order
(`rule_resolve`); the first of these tables with a live route to the destination gives its route with
the longest prefix (`find_route_val`, `route_resolve`). Rules and routes keep 32-bit table ids. Between
the two the ids travel in a `std::deque<unsigned char>`, so a route is compared with the low byte of
the id that the rule names.
-/

namespace LibvmaTlt.Proto

/-! ## The tables -/

structure RouteRuleKey where
  dstIp : BitVec 32
  srcIp : BitVec 32 := 0
  tos : BitVec 8 := 0
  deriving DecidableEq

structure RuleVal where
  dstAddr : BitVec 32 := 0
  srcAddr : BitVec 32 := 0
  tos : BitVec 8 := 0
  iifName : String := ""
  oifName : String := ""
  tableId : BitVec 32
  isValid : Bool := true
  deriving DecidableEq

structure RouteVal where
  dstAddr : BitVec 32
  dstMask : BitVec 32
  dstPrefLen : Nat
  srcAddr : BitVec 32
  gw : BitVec 32
  tableId : BitVec 32
  bDeleted : Bool := false
  bIfUp : Bool := true
  mtu : BitVec 32 := 0
  deriving DecidableEq

structure RouteResult where
  src : BitVec 32
  gw : BitVec 32
  mtu : BitVec 32
  deriving DecidableEq

def RouteVal.result (v : RouteVal) : RouteResult where
  src := v.srcAddr
  gw := v.gw
  mtu := v.mtu

/-! ## The functions -/

def isMatchingRule (key : RouteRuleKey) (r : RuleVal) : Bool :=
  (r.dstAddr = 0 || r.dstAddr = key.dstIp) && (r.srcAddr = 0 || r.srcAddr = key.srcIp) &&
    (r.tos = 0 || r.tos = key.tos) && r.iifName = "" && r.oifName = ""

def RuleVal.isUsed (key : RouteRuleKey) (r : RuleVal) : Bool := r.isValid && isMatchingRule key r

def findRuleVal (rules : List RuleVal) (key : RouteRuleKey) : List RuleVal :=
  rules.filter (·.isUsed key)

/-- `rule_resolve`: the ids, as the `unsigned char` they are kept in. -/
def ruleResolve (rules : List RuleVal) (key : RouteRuleKey) : List (BitVec 8) :=
  (findRuleVal rules key).map fun r => r.tableId.setWidth 8

/-- A live route of a table to a destination: the tests of `find_route_val`. -/
def RouteVal.leads (dst tableId : BitVec 32) (v : RouteVal) : Bool :=
  !v.bDeleted && v.bIfUp && v.tableId = tableId && v.dstAddr = (dst &&& v.dstMask)

/-- The loop of `find_route_val`, with `longest_prefix` and `correct_route_val`. -/
def findRouteLoop (dst tableId : BitVec 32) : List RouteVal → Int → Option RouteVal → Option RouteVal
  | [], _, correct => correct
  | v :: rest, longest, correct =>
    if v.leads dst tableId ∧ longest < v.dstPrefLen then
      findRouteLoop dst tableId rest v.dstPrefLen (some v)
    else findRouteLoop dst tableId rest longest correct

def findRouteVal (routes : List RouteVal) (dst : BitVec 32) (tableId : BitVec 8) : Option RouteVal :=
  findRouteLoop dst (tableId.setWidth 32) routes (-1) none

/-- `route_resolve`: the route that is found and what is taken from it. -/
def routeResolve (rules : List RuleVal) (routes : List RouteVal) (key : RouteRuleKey) :
    Option (RouteVal × RouteResult) :=
  (ruleResolve rules key).findSome? fun id =>
    (findRouteVal routes key.dstIp id).map fun v => (v, v.result)

/-! ## The search for a route -/

def reaches (routes : List RouteVal) (dst tableId : BitVec 32) : Bool :=
  routes.any (·.leads dst tableId)

theorem findRouteLoop_eq (dst tableId : BitVec 32) (routes : List RouteVal) (longest : Int)
    (correct : Option RouteVal) (h : longest = (correct.map fun v => (v.dstPrefLen : Int)).getD (-1)) :
    findRouteLoop dst tableId routes longest correct =
      (routes.filter (·.leads dst tableId)).foldl
        (List.argAux fun v c => c.dstPrefLen < v.dstPrefLen) correct := by
  induction routes generalizing longest correct with
  | nil => rfl
  | cons v rest ih =>
    unfold findRouteLoop
    by_cases hv : v.leads dst tableId = true
    · rw [List.filter_cons_of_pos hv, List.foldl_cons]
      cases correct with
      | none =>
        have hlt : longest < v.dstPrefLen := by
          rw [h]
          exact Int.lt_of_lt_of_le (by decide) (Int.natCast_nonneg _)
        rw [if_pos ⟨hv, hlt⟩]
        exact ih _ _ rfl
      | some c =>
        have hc : longest = c.dstPrefLen := h
        subst hc
        by_cases hlt : c.dstPrefLen < v.dstPrefLen
        · rw [if_pos ⟨hv, Int.ofNat_lt.mpr hlt⟩, ih v.dstPrefLen (some v) rfl]
          simp [List.argAux, hlt]
        · rw [if_neg fun hh => hlt (Int.ofNat_lt.mp hh.2), ih c.dstPrefLen (some c) rfl]
          simp [List.argAux, hlt]
    · rw [List.filter_cons_of_neg hv, if_neg fun hh => hv hh.1]
      exact ih _ _ h

theorem findRouteVal_eq (routes : List RouteVal) (dst : BitVec 32) (id : BitVec 8) :
    findRouteVal routes dst id =
      (routes.filter (·.leads dst (id.setWidth 32))).argmax RouteVal.dstPrefLen :=
  findRouteLoop_eq _ _ _ _ _ rfl

theorem findRouteVal_isSome (routes : List RouteVal) (dst : BitVec 32) (id : BitVec 8) :
    (findRouteVal routes dst id).isSome = reaches routes dst (id.setWidth 32) := by
  rw [findRouteVal_eq, Bool.eq_iff_iff, reaches, List.any_eq_true, Option.isSome_iff_ne_none, ne_eq,
    List.argmax_eq_none, List.filter_eq_nil_iff]
  simp

/-- The route that is found is a live route of the table that the low byte names, and none of them has
a longer prefix. -/
structure Longest (routes : List RouteVal) (dst tableId : BitVec 32) (v : RouteVal) : Prop where
  mem : v ∈ routes
  leads : v.leads dst tableId = true
  le : ∀ w ∈ routes, w.leads dst tableId = true → w.dstPrefLen ≤ v.dstPrefLen

theorem findRouteVal_longest {routes : List RouteVal} {dst : BitVec 32} {id : BitVec 8} {v : RouteVal}
    (h : findRouteVal routes dst id = some v) : Longest routes dst (id.setWidth 32) v := by
  rw [findRouteVal_eq] at h
  obtain ⟨hmem, hleads⟩ := List.mem_filter.mp (List.argmax_mem h)
  exact ⟨hmem, hleads, fun w hw hl => List.le_of_mem_argmax (List.mem_filter.mpr ⟨hw, hl⟩) h⟩

theorem RouteVal.leads_table {v : RouteVal} {dst t t' : BitVec 32} (h : v.leads dst t = true)
    (h' : v.leads dst t' = true) : t = t' := by
  simp only [RouteVal.leads, Bool.and_eq_true, decide_eq_true_eq] at h h'
  exact h.1.2.symm.trans h'.1.2

/-! ## Resolution -/

/-- The first matching rule whose table reaches the destination. -/
def namingRule (rules : List RuleVal) (routes : List RouteVal) (key : RouteRuleKey) : Option RuleVal :=
  rules.find? fun r => isMatchingRule key r && reaches routes key.dstIp r.tableId

/-- What is left of a table id in an `unsigned char`, compared as a 32-bit number. -/
def lowByte (tableId : BitVec 32) : BitVec 32 := (tableId.setWidth 8).setWidth 32

def namingRuleByByte (rules : List RuleVal) (routes : List RouteVal) (key : RouteRuleKey) :
    Option RuleVal :=
  rules.find? fun r => r.isUsed key && reaches routes key.dstIp (lowByte r.tableId)

/-- No route if no matching rule names a table that reaches the destination, otherwise a longest-prefix
live route of the table of the first rule that does. -/
def ResolvedTo (rules : List RuleVal) (routes : List RouteVal) (key : RouteRuleKey) :
    Option (RouteVal × RouteResult) → Prop
  | none => namingRule rules routes key = none
  | some (v, res) => res = v.result ∧
      ∃ r, namingRule rules routes key = some r ∧ Longest routes key.dstIp r.tableId v

theorem routeResolve_eq (rules : List RuleVal) (routes : List RouteVal) (key : RouteRuleKey) :
    routeResolve rules routes key = (namingRuleByByte rules routes key).bind fun r =>
      (findRouteVal routes key.dstIp (r.tableId.setWidth 8)).map fun v => (v, v.result) := by
  unfold routeResolve ruleResolve findRuleVal namingRuleByByte
  induction rules with
  | nil => rfl
  | cons r rest ih =>
    have hsome := findRouteVal_isSome routes key.dstIp (r.tableId.setWidth 8)
    by_cases hused : r.isUsed key = true
    · rw [List.filter_cons_of_pos hused, List.map_cons, List.findSome?_cons]
      cases hv : findRouteVal routes key.dstIp (r.tableId.setWidth 8) with
      | some v =>
        rw [hv] at hsome
        rw [List.find?_cons_of_pos (by rw [hused, lowByte, ← hsome]; rfl)]
        simp [hv]
      | none =>
        rw [hv] at hsome
        rw [List.find?_cons_of_neg (by rw [hused, lowByte, ← hsome]; simp)]
        exact ih
    · rw [List.filter_cons_of_neg hused, List.find?_cons_of_neg (by simp [hused])]
      exact ih

/-- Resolution is right exactly if the low bytes lead to the table that the ids name: the first
matching rule whose table reaches the destination names the table that the first used rule names by its
low byte, or there is no rule of either kind. -/
theorem routeResolve_iff (rules : List RuleVal) (routes : List RouteVal) (key : RouteRuleKey) :
    ResolvedTo rules routes key (routeResolve rules routes key) ↔
      (namingRule rules routes key).map RuleVal.tableId =
        (namingRuleByByte rules routes key).map fun r => lowByte r.tableId := by
  rw [routeResolve_eq]
  cases hb : namingRuleByByte rules routes key with
  | none => simp [ResolvedTo]
  | some r =>
    have hfound : (r.isUsed key && reaches routes key.dstIp (lowByte r.tableId)) = true := by
      rw [namingRuleByByte] at hb
      have hr := List.find?_some hb
      exact hr
    have hreach := (Bool.and_eq_true_iff.mp hfound).2
    rw [lowByte, ← findRouteVal_isSome, Option.isSome_iff_exists] at hreach
    obtain ⟨v, hv⟩ := hreach
    have hlong : Longest routes key.dstIp (lowByte r.tableId) v := findRouteVal_longest hv
    rw [Option.bind_some, hv, Option.map_some, Option.map_some, Option.map_eq_some_iff]
    constructor
    · rintro ⟨-, r₁, hr₁, hlong₁⟩
      exact ⟨r₁, hr₁, RouteVal.leads_table hlong₁.leads hlong.leads⟩
    · rintro ⟨r₁, hr₁, heq⟩
      exact ⟨rfl, r₁, hr₁, heq ▸ hlong⟩

def defaultRoute (tableId : BitVec 32) : RouteVal where
  dstAddr := 0
  dstMask := 0
  dstPrefLen := 0
  srcAddr := 0x0A000001
  gw := 0x0A0000FE
  tableId := tableId

/-- A rule for table 356 is answered from table 100, and a rule for table 1000 does not find the route
that table 1000 has. -/
theorem routeResolve_wrong_table :
    (routeResolve [{ tableId := 356 }] [defaultRoute 100] { dstIp := 1 } =
          some (defaultRoute 100, (defaultRoute 100).result) ∧
        ¬ResolvedTo [{ tableId := 356 }] [defaultRoute 100] { dstIp := 1 }
          (some (defaultRoute 100, (defaultRoute 100).result))) ∧
      routeResolve [{ tableId := 1000 }] [defaultRoute 1000] { dstIp := 1 } = none ∧
        ¬ResolvedTo [{ tableId := 1000 }] [defaultRoute 1000] { dstIp := 1 } none := by
  have hnone : namingRule [{ tableId := 356 }] [defaultRoute 100] { dstIp := 1 } = none := by
    decide +kernel
  have hsome : namingRule [{ tableId := 1000 }] [defaultRoute 1000] { dstIp := 1 } ≠ none := by
    decide +kernel
  refine ⟨⟨by decide +kernel, ?_⟩, by decide +kernel, hsome⟩
  rintro ⟨-, r, hr, -⟩
  rw [hnone] at hr
  cases hr

end LibvmaTlt.Proto
