import Mathlib

/-!
# Which sockets are offloaded

`libvma.conf` is a list of instances, one per `application-id` line, each with an ordered list of
rules for every role a socket can play. The first instance that fits the program and its id decides,
and within a list the first rule that matches the addresses (`match.cpp`). Before a socket has
addresses, `fd_collection::addsocket` asks `__vma_match_by_program` for a verdict from a summary of the
lists.
-/

namespace LibvmaTlt.Util

/-! ## The configuration -/

inductive Transport where
  | os | vma | sdp | sa | ulp | default
  deriving DecidableEq

inductive InProtocol where
  | undefined | udp | tcp | all
  deriving DecidableEq

inductive Role where
  | tcpServer | tcpClient | udpReceiver | udpSender | udpConnect
  deriving DecidableEq

def Role.protocol : Role → InProtocol
  | .tcpServer | .tcpClient => .tcp
  | .udpReceiver | .udpSender | .udpConnect => .udp

/-- `struct address_port_rule`, the address in host order. -/
structure AddressPortRule where
  matchByAddr : Bool := false
  ipv4 : BitVec 32 := 0
  prefixlen : Nat := 32
  matchByPort : Bool := false
  sport : Nat := 0
  eport : Nat := 0
  deriving DecidableEq

structure UseFamilyRule where
  first : AddressPortRule
  second : AddressPortRule := {}
  useSecond : Bool := false
  targetTransport : Transport
  protocol : InProtocol
  deriving DecidableEq

/-- The rules of one role, as the parser leaves them: of the role's protocol, and with one of the
transports a rule can name. -/
structure RuleList (p : InProtocol) where
  rules : List UseFamilyRule := []
  proto : ∀ r ∈ rules, r.protocol = p := by simp
  named : ∀ r ∈ rules, r.targetTransport ≠ .default := by simp

structure Instance where
  progNameExpr : String
  userDefinedId : String
  tcpSrvRulesLst : RuleList .tcp := {}
  tcpCltRulesLst : RuleList .tcp := {}
  udpSndRulesLst : RuleList .udp := {}
  udpRcvRulesLst : RuleList .udp := {}
  udpConRulesLst : RuleList .udp := {}

def Instance.rulesLst (i : Instance) : (role : Role) → RuleList role.protocol
  | .tcpServer => i.tcpSrvRulesLst
  | .tcpClient => i.tcpCltRulesLst
  | .udpSender => i.udpSndRulesLst
  | .udpReceiver => i.udpRcvRulesLst
  | .udpConnect => i.udpConRulesLst

/-! ## Addresses -/

/-- The parts of a `sockaddr` the code reads, with its `addrlen`: `sin_family`, `sin_port` and
`sin_addr` (in host order), and the sixteen bytes of `sin6_addr`, which lie behind `sin_addr`. -/
structure Sockaddr where
  family : Nat
  port : Nat
  sinAddr : BitVec 32
  sin6Addr : Fin 16 → BitVec 8 := fun _ => 0
  addrlen : Nat := 16

abbrev afInet : Nat := 2
abbrev afInet6 : Nat := 10

def isIpv4EmbeddedInIpv6 (b : Fin 16 → BitVec 8) : Bool :=
  (List.finRange 16).all (fun i => 10 ≤ i.val || b i == 0) &&
    ((b 10 == 0 && b 11 == 0) || (b 10 == 0xff && b 11 == 0xff))

def embeddedAddr (b : Fin 16 → BitVec 8) : BitVec 32 := b 12 ++ b 13 ++ b 14 ++ b 15

/-- `__vma_sockaddr_to_vma`: the IPv4 address, if there is one. -/
def sockaddrToVma (a : Sockaddr) : Option (BitVec 32) :=
  if a.family = afInet then
    if a.addrlen < 16 then none else some a.sinAddr
  else if a.family = afInet6 then
    if a.addrlen < 24 then none
    else if !isIpv4EmbeddedInIpv6 a.sin6Addr then none
    else if embeddedAddr a.sin6Addr = 1 then some 0x7f000001
    else some (embeddedAddr a.sin6Addr)
  else if a.family = 0 then some a.sinAddr
  else none

def vmaNetmask (n : Nat) : BitVec 32 :=
  if n = 0 then 0 else ~~~(BitVec.ofNat 32 (2 ^ (32 - n) - 1))

def matchIpv4Addr (rule : AddressPortRule) (addr : BitVec 32) : Bool :=
  rule.ipv4 &&& vmaNetmask rule.prefixlen == addr &&& vmaNetmask rule.prefixlen

def AddressPortRule.matches (rule : AddressPortRule) (a : Sockaddr) : Bool :=
  (!rule.matchByPort || (rule.sport ≤ a.port && a.port ≤ rule.eport)) &&
    (!rule.matchByAddr || (sockaddrToVma a).any (matchIpv4Addr rule))

/-! ## First match -/

def matchIpAddrAndPort (my : Transport) (rule : UseFamilyRule) (first : Sockaddr)
    (second : Option Sockaddr) : Bool :=
  rule.first.matches first && (!rule.useSecond || second.all rule.second.matches) &&
    (rule.targetTransport == .os || rule.targetTransport == .ulp || rule.targetTransport == my)

def getFamilyByFirstMatchingRule (my : Transport) (rules : List UseFamilyRule) (first : Sockaddr)
    (second : Option Sockaddr) : Transport :=
  match rules.find? fun r => matchIpAddrAndPort my r first second with
  | some r => r.targetTransport
  | none => .vma

/-- The running program: whether `fnmatch` accepts its name for an expression. -/
structure Program where
  fnmatch : String → Bool

def matchUserDefinedId (i : Instance) (appId : String) : Bool :=
  appId == "*" || i.userDefinedId == "*" || appId == i.userDefinedId

/-- `__vma_match_program_name` and `__vma_match_user_defined_id`. -/
def Program.fits (prog : Program) (appId : String) (i : Instance) : Bool :=
  prog.fnmatch i.progNameExpr && matchUserDefinedId i appId

def Role.second : Role → Option Sockaddr → Option Sockaddr
  | .tcpClient, b | .udpConnect, b => b
  | _, _ => none

/-- The loop of `get_family_by_instance_first_matching_rule`. -/
def instanceLoop (prog : Program) (my : Transport) (role : Role) (appId : String) (first : Sockaddr)
    (second : Option Sockaddr) : List Instance → Transport
  | [] => .vma
  | i :: rest =>
    if prog.fits appId i then
      let target :=
        getFamilyByFirstMatchingRule my (i.rulesLst role).rules first (role.second second)
      if target = .default then instanceLoop prog my role appId first second rest else target
    else instanceLoop prog my role appId first second rest

/-- `get_family_by_instance_first_matching_rule`; `conf` is `__instance_list`. -/
def getFamilyByInstanceFirstMatchingRule (prog : Program) (conf : List Instance) (my : Transport)
    (role : Role) (appId : String) (first : Sockaddr) (second : Option Sockaddr) : Transport :=
  if conf.isEmpty then .vma else instanceLoop prog my role appId first second conf

def matchTcpServer (prog : Program) (conf : List Instance) (my : Transport) (appId : String)
    (sin : Sockaddr) : Transport :=
  getFamilyByInstanceFirstMatchingRule prog conf my .tcpServer appId sin none

def matchTcpClient (prog : Program) (conf : List Instance) (my : Transport) (appId : String)
    (first second : Sockaddr) : Transport :=
  getFamilyByInstanceFirstMatchingRule prog conf my .tcpClient appId first (some second)

def matchUdpSender (prog : Program) (conf : List Instance) (my : Transport) (appId : String)
    (sin : Sockaddr) : Transport :=
  getFamilyByInstanceFirstMatchingRule prog conf my .udpSender appId sin none

def matchUdpReceiver (prog : Program) (conf : List Instance) (my : Transport) (appId : String)
    (sin : Sockaddr) : Transport :=
  getFamilyByInstanceFirstMatchingRule prog conf my .udpReceiver appId sin none

def matchUdpConnect (prog : Program) (conf : List Instance) (my : Transport) (appId : String)
    (first second : Sockaddr) : Transport :=
  getFamilyByInstanceFirstMatchingRule prog conf my .udpConnect appId first (some second)

/-! ## The summary -/

def UseFamilyRule.specific (r : UseFamilyRule) : Bool :=
  r.first.matchByAddr || r.first.matchByPort ||
    (r.useSecond && (r.second.matchByAddr || r.second.matchByPort))

def UseFamilyRule.takes (r : UseFamilyRule) : Bool :=
  r.targetTransport == .vma || r.targetTransport == .ulp

/-- The loop of `match_by_all_rules_program`: `anyVma` and `anyOs` count the rules passed that look at
an address or a port; `any_sdp` stays 0. -/
def allRulesLoop (my : InProtocol) : (anyVma anyOs : Nat) → List UseFamilyRule → Transport
  | _, _, [] => .default
  | anyVma, anyOs, r :: rest =>
    if (r.protocol = my ∨ my = .all) ∧ r.specific then
      if r.takes then allRulesLoop my (anyVma + 1) anyOs rest
      else if r.targetTransport = .os then allRulesLoop my anyVma (anyOs + 1) rest
      else allRulesLoop my anyVma anyOs rest
    else if r.protocol = my ∧ ¬r.specific then
      if r.takes ∧ anyOs = 0 then .vma
      else if r.targetTransport = .os ∧ anyVma = 0 then .os
      else allRulesLoop my anyVma anyOs rest
    else allRulesLoop my anyVma anyOs rest

def matchByAllRulesProgram (my : InProtocol) (rules : List UseFamilyRule) : Transport :=
  if allRulesLoop my 0 0 rules = .default then .vma else allRulesLoop my 0 0 rules

/-- `server_target_family` and `client_target_family` of an instance. -/
def Instance.families (i : Instance) : InProtocol → Transport × Transport
  | .tcp => (matchByAllRulesProgram .tcp i.tcpSrvRulesLst.rules,
      matchByAllRulesProgram .tcp i.tcpCltRulesLst.rules)
  | .udp => (matchByAllRulesProgram .udp i.udpRcvRulesLst.rules,
      matchByAllRulesProgram .udp i.udpSndRulesLst.rules)
  | _ => (.default, .default)

def byProgramLoop (prog : Program) (my : InProtocol) (appId : String) : List Instance → Transport
  | [] => .default
  | i :: rest =>
    if prog.fits appId i ∧ (i.families my).1 = (i.families my).2 ∧ (i.families my).1 ≠ .default then
      (i.families my).1
    else byProgramLoop prog my appId rest

def matchByProgram (prog : Program) (conf : List Instance) (my : InProtocol) (appId : String) :
    Transport :=
  if conf.isEmpty then .vma else byProgramLoop prog my appId conf

/-! ## What first match says about all addresses -/

/-- The address pairs a rule speaks about, whatever its transport. -/
def UseFamilyRule.covers (r : UseFamilyRule) (first : Sockaddr) (second : Option Sockaddr) : Bool :=
  r.first.matches first && (!r.useSecond || second.all r.second.matches)

def UseFamilyRule.offloads (my : Transport) (r : UseFamilyRule) : Bool :=
  r.targetTransport != .os && (r.targetTransport == .ulp || r.targetTransport == my)

def OsCovered (l : List UseFamilyRule) (first : Sockaddr) (second : Option Sockaddr) : Prop :=
  ∃ q ∈ l, q.targetTransport = .os ∧ q.covers first second

/-- Every rule that offloads only covers addresses that an OS rule in front of it covers too. -/
def Guarded (my : Transport) (role : Role) (l : List UseFamilyRule) : Prop :=
  ∀ pre r post, l = pre ++ r :: post → r.offloads my → ∀ a b,
    r.covers a (role.second (some b)) → OsCovered pre a (role.second (some b))

def Total (role : Role) (l : List UseFamilyRule) : Prop :=
  ∀ a b, OsCovered l a (role.second (some b))

theorem matchIpAddrAndPort_iff {my : Transport} {r : UseFamilyRule} {a : Sockaddr}
    {b : Option Sockaddr} :
    matchIpAddrAndPort my r a b ↔
      r.covers a b ∧ (r.targetTransport = .os ∨ r.offloads my) := by
  unfold matchIpAddrAndPort UseFamilyRule.covers UseFamilyRule.offloads
  cases r.targetTransport <;> simp

theorem firstMatchingRule_os_iff (my : Transport) (role : Role) (l : List UseFamilyRule) :
    (∀ a b, getFamilyByFirstMatchingRule my l a (role.second (some b)) = .os) ↔
      Guarded my role l ∧ Total role l := by
  unfold getFamilyByFirstMatchingRule
  constructor
  · intro h
    refine ⟨?_, fun a b => ?_⟩
    · rintro pre r post rfl hr a b hc
      have hab := h a b
      have hm : matchIpAddrAndPort my r a (role.second (some b)) :=
        matchIpAddrAndPort_iff.mpr ⟨hc, .inr hr⟩
      rw [List.find?_append, List.find?_cons, hm] at hab
      cases hq : pre.find? fun r => matchIpAddrAndPort my r a (role.second (some b)) with
      | none =>
        -- the offloading rule itself is the first match
        simp only [hq, Option.none_or] at hab
        simp [UseFamilyRule.offloads, hab] at hr
      | some q =>
        simp only [hq, Option.some_or] at hab
        have hm := matchIpAddrAndPort_iff.mp (by simpa using List.find?_some hq)
        exact ⟨q, List.mem_of_find?_eq_some hq, hab, hm.1⟩
    · have hab := h a b
      cases hq : l.find? fun r => matchIpAddrAndPort my r a (role.second (some b)) with
      | none => simp [hq] at hab
      | some q =>
        simp only [hq] at hab
        have hm := matchIpAddrAndPort_iff.mp (by simpa using List.find?_some hq)
        exact ⟨q, List.mem_of_find?_eq_some hq, hab, hm.1⟩
  · rintro ⟨hg, ht⟩ a b
    obtain ⟨q, hq, hos, hc⟩ := ht a b
    cases hf : l.find? fun r => matchIpAddrAndPort my r a (role.second (some b)) with
    | none =>
      have := List.find?_eq_none.mp hf q hq
      exact absurd (matchIpAddrAndPort_iff.mpr ⟨hc, .inl hos⟩) (by simpa using this)
    | some r =>
      obtain ⟨hm, pre, post, rfl, hpre⟩ := List.find?_eq_some_iff_append.mp hf
      obtain ⟨hrc, hr | hr⟩ := matchIpAddrAndPort_iff.mp hm
      · exact hr
      · obtain ⟨q, hq, hos, hc⟩ := hg pre r post rfl hr a b hrc
        have := hpre q hq
        rw [matchIpAddrAndPort_iff.mpr ⟨hc, .inl hos⟩] at this
        exact absurd this (by decide)

theorem UseFamilyRule.covers_of_not_specific {r : UseFamilyRule} (h : r.specific = false)
    (a : Sockaddr) (b : Option Sockaddr) : r.covers a b := by
  simp only [UseFamilyRule.specific, Bool.or_eq_false_iff, Bool.and_eq_false_iff] at h
  obtain ⟨⟨h1, h2⟩, h3⟩ := h
  have hf : r.first.matches a := by simp [AddressPortRule.matches, h1, h2]
  rcases h3 with h3 | ⟨h3, h4⟩
  · simp [UseFamilyRule.covers, hf, h3]
  · have hs : ∀ x, r.second.matches x := fun x => by simp [AddressPortRule.matches, h3, h4]
    cases b <;> simp [UseFamilyRule.covers, hf, hs]

/-! ## What the summary says -/

variable {my : InProtocol}

theorem allRulesLoop_os {l : List UseFamilyRule} {anyVma anyOs : Nat} (hp : ∀ r ∈ l, r.protocol = my)
    (h : allRulesLoop my anyVma anyOs l = .os) :
    anyVma = 0 ∧ ∃ pre g post, l = pre ++ g :: post ∧ g.specific = false ∧
      g.targetTransport = .os ∧ ∀ r ∈ pre, r.takes → r.specific = false := by
  induction l generalizing anyVma anyOs with
  | nil => simp [allRulesLoop] at h
  | cons r rest ih =>
    have hr := hp r (by simp)
    -- a rule that is passed over joins the front part
    have pass : ∀ m n, (r.takes → r.specific = false) → allRulesLoop my m n rest = .os →
        m = 0 ∧ ∃ pre g post, r :: rest = pre ++ g :: post ∧ g.specific = false ∧
          g.targetTransport = .os ∧ ∀ r ∈ pre, r.takes → r.specific = false := by
      intro m n hpass hm
      obtain ⟨h0, pre, g, post, rfl, hg, hos, hpre⟩ := ih (fun q hq => hp q (by simp [hq])) hm
      refine ⟨h0, r :: pre, g, post, rfl, hg, hos, fun q hq => ?_⟩
      rcases List.mem_cons.mp hq with rfl | hq
      · exact hpass
      · exact hpre q hq
    unfold allRulesLoop at h
    simp only [hr, true_or, true_and] at h
    split at h
    · split at h
      · obtain ⟨h0, -⟩ := ih (fun q hq => hp q (by simp [hq])) h
        omega
      · rename_i ht
        split at h <;> exact pass _ _ (fun ht' => absurd ht' ht) h
    · rename_i hns
      have hs : r.specific = false := by simpa using hns
      split at h
      · cases h
      · split at h
        · rename_i hos
          exact ⟨hos.2, [], r, rest, rfl, hs, hos.1, by simp⟩
        · exact pass _ _ (fun _ => hs) h

theorem total_of_summary (role : Role) {l : List UseFamilyRule} (hp : ∀ r ∈ l, r.protocol = my)
    (h : matchByAllRulesProgram my l = .os) : Total role l := by
  have h : allRulesLoop my 0 0 l = .os := by
    unfold matchByAllRulesProgram at h
    split at h
    · cases h
    · exact h
  obtain ⟨-, pre, g, post, rfl, hg, hos, -⟩ := allRulesLoop_os hp h
  exact fun a b => ⟨g, by simp, hos, g.covers_of_not_specific hg a _⟩

/-! ## The verdict against the rules -/

def rolesOf : InProtocol → List Role
  | .tcp => [.tcpServer, .tcpClient]
  | .udp => [.udpReceiver, .udpSender, .udpConnect]
  | _ => []

def matchRole (prog : Program) (conf : List Instance) (my : Transport) (role : Role) (appId : String)
    (a b : Sockaddr) : Transport :=
  match role with
  | .tcpServer => matchTcpServer prog conf my appId a
  | .tcpClient => matchTcpClient prog conf my appId a b
  | .udpReceiver => matchUdpReceiver prog conf my appId a
  | .udpSender => matchUdpSender prog conf my appId a
  | .udpConnect => matchUdpConnect prog conf my appId a b

variable {appId : String}

variable {conf : List Instance} {prog : Program} {i : Instance}

theorem instanceLoop_first (h : conf.find? (prog.fits appId) = some i) (my : Transport) (role : Role)
    (a : Sockaddr) (b : Option Sockaddr) :
    instanceLoop prog my role appId a b conf =
      getFamilyByFirstMatchingRule my (i.rulesLst role).rules a (role.second b) := by
  have named : ∀ j : Instance,
      getFamilyByFirstMatchingRule my (j.rulesLst role).rules a (role.second b) ≠ .default := by
    intro j
    unfold getFamilyByFirstMatchingRule
    split
    · rename_i r hr
      exact (j.rulesLst role).named r (List.mem_of_find?_eq_some hr)
    · decide
  induction conf with
  | nil => simp at h
  | cons j rest ih =>
    rw [List.find?_cons] at h
    unfold instanceLoop
    cases hj : prog.fits appId j with
    | true =>
      simp only [hj, Option.some.injEq] at h
      subst h
      simp [named j]
    | false =>
      simp only [hj] at h
      simpa using ih h

theorem matchRole_eq (h : conf.find? (prog.fits appId) = some i) (my : Transport) (role : Role)
    (a b : Sockaddr) :
    matchRole prog conf my role appId a b =
      getFamilyByFirstMatchingRule my (i.rulesLst role).rules a (role.second (some b)) := by
  have hne : conf.isEmpty = false := by
    cases conf with
    | nil => simp at h
    | cons j rest => rfl
  cases role <;>
    simp only [matchRole, matchTcpServer, matchTcpClient, matchUdpReceiver, matchUdpSender,
      matchUdpConnect, getFamilyByInstanceFirstMatchingRule, hne, Bool.false_eq_true, if_false,
      instanceLoop_first h] <;> rfl

theorem exists_first_of_byProgram (h : matchByProgram prog conf my appId = .os) :
    ∃ i, conf.find? (prog.fits appId) = some i := by
  replace h : byProgramLoop prog my appId conf = .os := by
    unfold matchByProgram at h
    split at h
    · cases h
    · exact h
  rw [← Option.isSome_iff_exists, List.find?_isSome]
  induction conf with
  | nil => simp [byProgramLoop] at h
  | cons j rest ih =>
    unfold byProgramLoop at h
    split at h
    · rename_i hj
      exact ⟨j, by simp, hj.1⟩
    · obtain ⟨i, hi, hf⟩ := ih h
      exact ⟨i, by simp [hi], hf⟩

/-- The instance's summarised lists both say OS, and the role's list is one of them. -/
def Instance.vouches (i : Instance) (role : Role) : Prop :=
  i.families role.protocol = (.os, .os) ∧ role ≠ .udpConnect

theorem Instance.total_of_vouches {role : Role} (h : i.vouches role) :
    Total role (i.rulesLst role).rules := by
  obtain ⟨hf, hc⟩ := h
  cases role with
  | tcpServer => exact total_of_summary _ i.tcpSrvRulesLst.proto (congrArg Prod.fst hf)
  | tcpClient => exact total_of_summary _ i.tcpCltRulesLst.proto (congrArg Prod.snd hf)
  | udpReceiver => exact total_of_summary _ i.udpRcvRulesLst.proto (congrArg Prod.fst hf)
  | udpSender => exact total_of_summary _ i.udpSndRulesLst.proto (congrArg Prod.snd hf)
  | udpConnect => exact absurd rfl hc

/-- A verdict for the OS is right for every role and every address pair exactly if the lists of the
first instance that fits are guarded, and total where its own summary does not vouch for that. -/
theorem byProgram_os_iff {prog : Program} {conf : List Instance} {proto : InProtocol}
    {appId : String} (h : matchByProgram prog conf proto appId = .os) (my : Transport) :
    (∀ role ∈ rolesOf proto, ∀ a b, matchRole prog conf my role appId a b = .os) ↔
      ∃ i, conf.find? (prog.fits appId) = some i ∧ ∀ role ∈ rolesOf proto,
        Guarded my role (i.rulesLst role).rules ∧
          (¬i.vouches role → Total role (i.rulesLst role).rules) := by
  obtain ⟨i, hi⟩ := exists_first_of_byProgram h
  simp only [matchRole_eq hi, firstMatchingRule_os_iff, hi, Option.some.injEq, exists_eq_left']
  refine forall₂_congr fun role _ => and_congr_right fun _ => ⟨fun ht _ => ht, fun ht => ?_⟩
  by_cases hv : i.vouches role
  · exact i.total_of_vouches hv
  · exact ht hv

def globalRule (t : Transport) (p : InProtocol) : UseFamilyRule where
  first := {}
  targetTransport := t
  protocol := p

/-- A rule for the OS, and one that offloads what it leaves: nothing. -/
def osFirst (p : InProtocol) : RuleList p where
  rules := [globalRule .os p, globalRule .vma p]
  proto := by simp [globalRule]
  named := by simp [globalRule]

theorem osFirst_guarded (my : Transport) (role : Role) (p : InProtocol) :
    Guarded my role (osFirst p).rules := by
  intro pre r post hl hr a b hcov
  cases pre with
  | nil =>
    obtain ⟨rfl, -⟩ := List.cons.inj hl
    exact absurd hr (by simp [UseFamilyRule.offloads, globalRule])
  | cons q pre =>
    obtain ⟨rfl, htail⟩ := List.cons.inj hl
    obtain rfl : r = globalRule .vma p := by
      have : r ∈ [globalRule .vma p] := htail ▸ List.mem_append_right pre List.mem_cons_self
      exact List.mem_singleton.mp this
    exact ⟨_, List.mem_cons_self, rfl, hcov⟩

def anyProgram : Program := ⟨fun _ => true⟩

def plainInstance : Instance where
  progNameExpr := "*"
  userDefinedId := "*"
  tcpSrvRulesLst := osFirst .tcp
  tcpCltRulesLst := osFirst .tcp

theorem byProgram_os_plain :
    matchByProgram anyProgram [plainInstance] .tcp "*" = .os ∧
      ∀ role ∈ rolesOf .tcp, ∀ a b,
        matchRole anyProgram [plainInstance] .vma role "*" a b = .os := by
  refine ⟨by decide, (byProgram_os_iff (by decide) .vma).mpr ⟨plainInstance, rfl, ?_⟩⟩
  intro role hrole
  rcases List.mem_pair.mp hrole with rfl | rfl
  · exact ⟨osFirst_guarded .vma .tcpServer .tcp, fun h => absurd ⟨by decide, by decide⟩ h⟩
  · exact ⟨osFirst_guarded .vma .tcpClient .tcp, fun h => absurd ⟨by decide, by decide⟩ h⟩

/-- OS for the address 10.0.0.1, else VMA, and a last rule that no address reaches. -/
def passedOver : RuleList .tcp where
  rules := [{ globalRule .os .tcp with first := { matchByAddr := true, ipv4 := 0x0a000001 } },
    globalRule .vma .tcp, globalRule .os .tcp]
  proto := by simp [globalRule]
  named := by simp [globalRule]

/-- Three configurations with the verdict OS and a socket the rules offload: a global VMA rule behind
a specific OS rule and in front of a global OS rule; a first instance whose lists disagree, with a
second one that the rules never consult; UDP lists for the OS without rules for `udp_connect`. -/
theorem byProgram_os_unsound :
    let order : Instance := { plainInstance with tcpSrvRulesLst := passedOver }
    let split : Instance := { plainInstance with tcpCltRulesLst := {} }
    let connect : Instance :=
      { plainInstance with udpRcvRulesLst := osFirst .udp, udpSndRulesLst := osFirst .udp }
    let addr : Sockaddr := { family := afInet, port := 80, sinAddr := 0x0a000002 }
    (matchByProgram anyProgram [order] .tcp "*" = .os ∧
      matchTcpServer anyProgram [order] .vma "*" addr = .vma) ∧
    (matchByProgram anyProgram [split, plainInstance] .tcp "*" = .os ∧
      matchTcpClient anyProgram [split, plainInstance] .vma "*" addr addr = .vma) ∧
    (matchByProgram anyProgram [connect] .udp "*" = .os ∧
      matchUdpConnect anyProgram [connect] .vma "*" addr addr = .vma) := by
  decide

end LibvmaTlt.Util
