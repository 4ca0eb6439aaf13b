import NlinkLab.Data.Fallible
import NlinkLab.Net
import NlinkLab.Types.Firewall

/-! The tracked flows that a change of a node's NAT rules makes stale: `conntrack.rs`, and
the rules as the planner installs them (`deploy/plan/nftables.rs`). The kernel translates a
flow once, by the first rule of each chain that acts on its first packet. An entry does not
record interfaces, so a packet has them beside its entry. Deletions that fail are left out. -/

namespace NlinkLab

/-- A bare address, which is a host prefix, or a CIDR. -/
def parseIpOrCidr (s : String) : Except Error (IpAddr × Nat) :=
  if '/' ∈ s.toList then parseCidr s
  else match IpAddr.parse s with
    | none => .error (.invalidTopology ("invalid IP address '" ++ s ++ "': invalid IP address syntax"))
    | some ip => .ok (ip, addrBits ip)

namespace Conntrack

open Fallible

/-! ### The rules as they are installed -/

inductive Chain where
  | prerouting | postrouting
  deriving DecidableEq

inductive Dir where
  | saddr | daddr
  deriving DecidableEq

inductive NatKind where
  | masquerade | redirect | snat | dnat
  deriving DecidableEq

/-- A NAT statement: its addresses, its ports, its flags. -/
structure NatStatement where
  kind : NatKind
  addr : Option IpAddr := none
  addrEnd : Option IpAddr := none
  ports : Option (UInt16 × UInt16) := none
  flags : List NatFlag := []

/-- The matches and the statement of an installed rule. -/
structure RuleSpec where
  addr : Option (Dir × IpAddr × Nat) := none
  iif : Option String := none
  oif : Option String := none
  l4 : Option (NatProto × Option UInt16) := none
  statement : Option NatStatement := none

def isPrerouting : NatAction → Bool
  | .dnat => true
  | .redirect => true
  | _ => false

/-- What is wrong with a NAT rule's interface or port match, if anything. -/
def natMatchProblem (nat : NatRule) : Option String :=
  if nat.dport.isSome ∧ nat.proto.isNone then some "a NAT `dport` needs its protocol (`tcp dport 80`)"
  else if nat.dport.isSome ∧ !isPrerouting nat.action then some "only dnat and redirect match a destination port"
  else if nat.iif.isSome ∧ !isPrerouting nat.action then
    some "`iif` applies to dnat and redirect (prerouting): masquerade and snat see `oif`"
  else if nat.oif.isSome ∧ isPrerouting nat.action then
    some "`oif` applies to masquerade and snat (postrouting): dnat and redirect see `iif`"
  else if nat.action ∈ [.masquerade, .redirect] ∧ nat.target.isSome then
    some "masquerade and redirect take a port (`to :3128`), not an address"
  else if nat.targetEnd.isSome ∧ nat.action ∉ [.snat, .dnat] then some "only snat and dnat take an address range"
  else if nat.targetPortEnd.isSome ∧ nat.targetPort.isNone then some "a port range needs its first port"
  else match nat.targetPort, nat.targetPortEnd with
    | some first, some last =>
      if last < first then some ("port range " ++ toString first ++ "-" ++ toString last ++ " runs backwards")
      else if nat.action = .redirect then some "redirect takes one port"
      else nameProblem
    | _, _ => nameProblem
where
  nameProblem : Option String :=
    ([nat.iif, nat.oif].filterMap id).findSome? fun name =>
      if 15 < name.utf8ByteSize then some ("interface name '" ++ name ++ "' is longer than 15 characters") else none

def familyName (ip : IpAddr) : String := if ip.isIpv6 then "IPv6" else "IPv4"

/-- An order of addresses: IPv4 before IPv6, then by their bits. -/
def ipLt : IpAddr → IpAddr → Bool
  | .v4 a, .v4 b => a < b
  | .v6 a, .v6 b => a < b
  | .v4 _, .v6 _ => true
  | .v6 _, .v4 _ => false

/-- The address a rule's match is in. -/
def matchFamily (what cidr : String) : Except Error IpAddr :=
  match parseIpOrCidr cidr with
  | .ok (ip, _) => .ok ip
  | .error e => .error (.deployFailed ("invalid " ++ what ++ " CIDR '" ++ cidr ++ "' in NAT rule: " ++ e.display))

/-- Check a NAT rule's literals: families that differ, ranges that run backwards, an
interface or a port on the wrong chain. -/
def validateNatRule (nat : NatRule) : Except Error Unit := do
  if let some msg := natMatchProblem nat then throw (.deployFailed msg)
  let mut family : Option (String × String × IpAddr) := none
  if let some src := nat.src then
    family := some ("src", src, ← matchFamily "src" src)
  if let some dst := nat.dst then
    family := some ("dst", dst, ← matchFamily "dst" dst)
  if let (some target, some last) := (nat.target, nat.targetEnd) then
    let range := "NAT range '" ++ target ++ "-" ++ last ++ "'"
    match IpAddr.parse target, IpAddr.parse last with
    | some a, some b =>
      if a.isIpv6 ≠ b.isIpv6 then throw (.deployFailed (range ++ " mixes address families"))
      if ipLt b a then throw (.deployFailed (range ++ " runs backwards"))
    | _, none => throw (.deployFailed ("invalid NAT range end '" ++ last ++ "': invalid IP address syntax"))
    | none, some _ => pure ()
  if let some target := nat.target then
    match IpAddr.parse target with
    | none => throw (.deployFailed ("invalid NAT target '" ++ target ++ "': invalid IP address syntax"))
    | some ip =>
      if let some (field, value, matched) := family then
        if matched.isIpv6 ≠ ip.isIpv6 then
          throw (.deployFailed ("NAT rule " ++ field ++ " '" ++ value ++ "' (" ++ familyName matched ++ ") and target '" ++
            target ++ "' (" ++ familyName ip ++ ") are different address families"))

/-- A NAT target address. -/
def natTargetAddr (target : String) : Except Error IpAddr :=
  match IpAddr.parse target with
  | some ip => .ok ip
  | none => .error (.deployFailed ("invalid NAT target '" ++ target ++ "': invalid IP address syntax"))

/-- The address match of a rule: a CIDR or a bare address. -/
def addrMatch (dir : Dir) (cidr : String) : Except Error (Dir × IpAddr × Nat) :=
  match parseIpOrCidr cidr with
  | .ok (addr, len) => .ok (dir, addr, len)
  | .error e => .error (.deployFailed ("invalid CIDR '" ++ cidr ++ "' in NAT rule: " ++ e.display))

/-- A rule with a range or a flag, or a masquerade with a port. -/
def isExtended (nat : NatRule) : Bool :=
  nat.targetEnd.isSome || nat.targetPortEnd.isSome || !nat.flags.isEmpty ||
    (nat.action = .masquerade && nat.targetPort.isSome)

/-- The ports of a statement. -/
def portsOf (nat : NatRule) : Option (UInt16 × UInt16) :=
  nat.targetPort.map fun first => (first, nat.targetPortEnd.getD first)

/-- The statement of a snat or a dnat rule; a plain one without a target has none. -/
def translateTo (kind : NatKind) (name : String) (nat : NatRule) : Except Error (Option NatStatement) :=
  match nat.target with
  | none => if isExtended nat then .error (.deployFailed ("a " ++ name ++ " rule needs a target")) else .ok none
  | some target => do
    let first ← natTargetAddr target
    if isExtended nat then
      let last ← nat.targetEnd.mapM natTargetAddr
      return some { kind, addr := some first, addrEnd := last, ports := portsOf nat, flags := nat.flags }
    else
      return some { kind, addr := some first, ports := nat.targetPort.map fun port => (port, port) }

/-- The chain and the body of a NAT rule. -/
def natRuleSpec (idx : Nat) (nat : NatRule) : Except Error (Chain × RuleSpec) := do
  let addr ← match nat.action with
    | .dnat => nat.dst.mapM (addrMatch .daddr)
    | .redirect => nat.dst.mapM (addrMatch .daddr)
    | _ => nat.src.mapM (addrMatch .saddr)
  let spec := { addr, iif := nat.iif, oif := nat.oif, l4 := nat.proto.map (·, nat.dport) : RuleSpec }
  match nat.action with
  | .masquerade =>
    let extended := isExtended nat
    return (.postrouting, { spec with statement := some { kind := .masquerade, ports := if extended then portsOf nat else none
                                                          flags := if extended then nat.flags else [] } })
  | .redirect => return (.prerouting, { spec with statement := some { kind := .redirect, ports := portsOf nat, flags := nat.flags } })
  | .snat => return (.postrouting, { spec with statement := ← translateTo .snat "Snat" nat })
  | .dnat => return (.prerouting, { spec with statement := ← translateTo .dnat "Dnat" nat })
  | .translate => throw (.deployFailed ("NAT rule " ++ toString idx ++ ": a Translate rule reached the planner unexpanded"))

/-- The NAT rules of a node as they are installed: checked, then built. -/
def natRules (rules : List NatRule) : Except Error (List (NatRule × Chain × RuleSpec)) := do
  rules.forM validateNatRule
  rules.zipIdx.mapM fun (rule, idx) => (natRuleSpec idx rule).map (rule, ·)

/-! ### Tracked flows -/

/-- One direction of a flow; the kernel sends what the protocol has. -/
structure ConntrackTuple where
  srcIp : Option IpAddr := none
  dstIp : Option IpAddr := none
  srcPort : Option UInt16 := none
  dstPort : Option UInt16 := none
  deriving DecidableEq

structure ConntrackEntry where
  id : UInt32
  /-- The protocol by its number. -/
  proto : UInt8
  orig : ConntrackTuple
  deriving DecidableEq

def ipProtocol : NatProto → UInt8
  | .tcp => 6
  | .udp => 17

/-- The rules one of the lists has and the other does not. -/
def changedRules (old new : List NatRule) : List NatRule :=
  old.filter (fun r => r ∉ new) ++ new.filter (fun r => r ∉ old)

/-- Whether an address is in a CIDR; a bare address is a host prefix. -/
def inCidr (addr : IpAddr) (cidr : String) : Bool :=
  match parseIpOrCidr cidr with
  | .error _ => false
  | .ok (net, len) =>
    len ≤ addrBits net ∧ addr.isIpv4 = net.isIpv4 ∧ networkAddress addr len = networkAddress net len

/-- The CIDR of a rule that its flows are matched by, and their address. -/
def ruleAddr (rule : NatRule) (entry : ConntrackEntry) : Option String × Option IpAddr :=
  match rule.action with
  | .dnat => (rule.dst, entry.orig.dstIp)
  | .redirect => (rule.dst, entry.orig.dstIp)
  | .translate => (rule.dst, entry.orig.dstIp)
  | .snat => (rule.src, entry.orig.srcIp)
  | .masquerade => (rule.src, entry.orig.srcIp)

/-- Whether a rule matches a tracked flow, by the flow's original tuple. -/
def ruleMatches (rule : NatRule) (entry : ConntrackEntry) : Bool :=
  let (cidr, addr) := ruleAddr rule entry
  cidr.all (fun cidr => addr.any fun a => inCidr a cidr) &&
    rule.proto.all (fun proto => entry.proto = ipProtocol proto) &&
    rule.dport.all fun port => entry.orig.dstPort = some port

/-- What the kernel is asked for. -/
structure ConntrackFilter where
  proto : Option UInt8 := none
  origDstPort : Option UInt16 := none
  origDst : Option IpAddr := none
  origSrc : Option IpAddr := none

/-- A filter that narrows the dump to what a rule can match. -/
def coarseFilter (rule : NatRule) : ConntrackFilter :=
  let filter : ConntrackFilter := match rule.proto with
    | some proto => { proto := some (ipProtocol proto), origDstPort := rule.dport }
    | none => {}
  let host := fun (cidr : Option String) => cidr.bind fun c =>
    match parseIpOrCidr c with
    | .ok (addr, len) => if len = addrBits addr then some addr else none
    | .error _ => none
  match rule.action with
  | .snat => { filter with origSrc := host rule.src }
  | .masquerade => { filter with origSrc := host rule.src }
  | _ => { filter with origDst := host rule.dst }

/-- Whether an entry has every field a filter names. -/
def ConntrackFilter.Names (filter : ConntrackFilter) (entry : ConntrackEntry) : Prop :=
  (∀ p, filter.proto = some p → entry.proto = p) ∧
    (∀ p, filter.origDstPort = some p → entry.orig.dstPort = some p) ∧
    (∀ a, filter.origDst = some a → entry.orig.dstIp = some a) ∧
    ∀ a, filter.origSrc = some a → entry.orig.srcIp = some a

/-- Delete the tracked flows that any of the rules matches; `passes` is the kernel's filter. -/
def forgetFlows (passes : ConntrackFilter → ConntrackEntry → Bool) (rules : List NatRule)
    (table : List ConntrackEntry) : List ConntrackEntry :=
  rules.foldl (fun table rule => table.filter fun e => !(passes (coarseFilter rule) e && ruleMatches rule e)) table

/-! ### What a chain does to a packet -/

/-- The first packet of a flow, with the interfaces it comes in and goes out on. -/
structure Packet where
  entry : ConntrackEntry
  iif : String
  oif : String

def RuleSpec.matches (spec : RuleSpec) (p : Packet) : Bool :=
  spec.addr.all (fun (dir, net, len) =>
      (match dir with
        | .saddr => p.entry.orig.srcIp
        | .daddr => p.entry.orig.dstIp).any fun (a : IpAddr) =>
          a.isIpv4 = net.isIpv4 ∧ networkAddress a len = networkAddress net len) &&
    spec.iif.all (· = p.iif) && spec.oif.all (· = p.oif) &&
    spec.l4.all fun (proto, port) =>
      p.entry.proto = ipProtocol proto && port.all fun port => p.entry.orig.dstPort = some port

/-- A statement with an address acts on packets of its family. -/
def NatStatement.acts (statement : NatStatement) (p : Packet) : Bool :=
  statement.addr.all fun a => p.entry.orig.dstIp.any fun d => d.isIpv4 = a.isIpv4

/-- Whether an installed rule translates a packet that comes to it in a chain. -/
def RuleSpec.translates (chain : Chain) (p : Packet) (c : Chain) (spec : RuleSpec) : Bool :=
  c = chain && spec.matches p && spec.statement.any (·.acts p)

/-- The rule a chain translates a packet by: the first that does. -/
def translation (chain : Chain) (installed : List (NatRule × Chain × RuleSpec)) (p : Packet) : Option NatRule :=
  (installed.find? fun (_, c, spec) => spec.translates chain p c).map Prod.fst

/-- Whether a rule, once installed, translates a packet. -/
def translates (chain : Chain) (p : Packet) (rule : NatRule) : Bool :=
  match natRuleSpec 0 rule with
  | .ok (c, spec) => spec.translates chain p c
  | .error _ => false

theorem natRuleSpec_eq_ok {idx : Nat} {rule : NatRule} {x : Chain × RuleSpec} (h : natRuleSpec idx rule = .ok x) :
    natRuleSpec 0 rule = .ok x := by
  unfold natRuleSpec at h ⊢
  cases haction : rule.action with
  | translate =>
    rw [haction] at h
    obtain ⟨_, -, hthrow⟩ := bind_eq_ok.mp h
    cases hthrow
  | _ => simp_all

/-- What is installed translates a packet by the first rule that translates it. -/
theorem translation_eq {rules : List NatRule} {installed : List (NatRule × Chain × RuleSpec)}
    (h : natRules rules = .ok installed) (chain : Chain) (p : Packet) :
    translation chain installed p = rules.find? (translates chain p) := by
  obtain ⟨_, -, hmap⟩ := bind_eq_ok.mp h
  have hbuilt := mapM_eq_ok.mp hmap
  generalize 0 = k at hbuilt
  clear h hmap
  induction rules generalizing k installed with
  | nil =>
    cases hbuilt
    rfl
  | cons rule rules ih =>
    rw [List.zipIdx_cons] at hbuilt
    cases hbuilt with
    | cons hrule hrest =>
      obtain ⟨⟨c, spec⟩, hspec, rfl⟩ := map_eq_ok.mp hrule
      have htranslates : translates chain p rule = spec.translates chain p c := by
        rw [translates, natRuleSpec_eq_ok hspec]
      have htail := ih _ hrest
      unfold translation at htail ⊢
      rw [List.find?_cons, List.find?_cons, htranslates]
      cases htr : spec.translates chain p c with
      | true => simp only [htr, Option.map_some]
      | false => simpa only [htr] using htail

theorem natMatchProblem_of_natRules {rules : List NatRule} {installed : List (NatRule × Chain × RuleSpec)}
    (h : natRules rules = .ok installed) {rule : NatRule} (hrule : rule ∈ rules) : natMatchProblem rule = none := by
  obtain ⟨_, hvalid, -⟩ := bind_eq_ok.mp h
  have hone : ∀ rule, validateNatRule rule = .ok () → natMatchProblem rule = none := by
    intro rule hok
    cases hproblem : natMatchProblem rule with
    | none => rfl
    | some msg =>
      unfold validateNatRule at hok
      rw [hproblem] at hok
      cases hok
  clear h
  induction rules with
  | nil => cases hrule
  | cons first rest ih =>
    change (validateNatRule first >>= fun _ => rest.forM validateNatRule) = _ at hvalid
    obtain ⟨_, hfirst, hrest⟩ := bind_eq_ok.mp hvalid
    rcases List.mem_cons.mp hrule with rfl | hmem
    · exact hone _ hfirst
    · exact ih hmem hrest

theorem len_of_parseIpOrCidr {s : String} {ip : IpAddr} {len : Nat} (h : parseIpOrCidr s = .ok (ip, len)) :
    len ≤ addrBits ip := by
  unfold parseIpOrCidr at h
  split_ifs at h
  · unfold parseCidr at h
    grind
  · cases hip : IpAddr.parse s with
    | none =>
      rw [hip] at h
      cases h
    | some ip =>
      rw [hip] at h
      cases h
      exact le_rfl

/-- The CIDR an installed rule matches addresses of, and whose. -/
theorem spec_of_natRuleSpec {rule : NatRule} {c : Chain} {spec : RuleSpec} (h : natRuleSpec 0 rule = .ok (c, spec)) :
    rule.action ≠ .translate ∧ spec.l4 = rule.proto.map (·, rule.dport) ∧
      (if isPrerouting rule.action then rule.dst.mapM (addrMatch .daddr) else rule.src.mapM (addrMatch .saddr)) =
        .ok spec.addr := by
  unfold natRuleSpec at h
  cases haction : rule.action with
  | translate =>
    rw [haction] at h
    obtain ⟨_, -, hthrow⟩ := bind_eq_ok.mp h
    cases hthrow
  | masquerade =>
    rw [haction] at h
    obtain ⟨addr, haddr, hspec⟩ := bind_eq_ok.mp h
    cases hspec
    exact ⟨nofun, rfl, haddr⟩
  | redirect =>
    rw [haction] at h
    obtain ⟨addr, haddr, hspec⟩ := bind_eq_ok.mp h
    cases hspec
    exact ⟨nofun, rfl, haddr⟩
  | _ =>
    rw [haction] at h
    obtain ⟨addr, haddr, hspec⟩ := bind_eq_ok.mp h
    obtain ⟨statement, -, hspec⟩ := bind_eq_ok.mp hspec
    cases hspec
    exact ⟨nofun, rfl, haddr⟩

/-- An address match that is installed is of the addresses in its CIDR. -/
theorem all_inCidr {dir : Dir} {cidr : Option String} {addr : Option (Dir × IpAddr × Nat)} {a : Option IpAddr}
    (h : cidr.mapM (addrMatch dir) = .ok addr)
    (hmatch : ∀ m, addr = some m → m.1 = dir → a.any (fun (a : IpAddr) =>
      a.isIpv4 = m.2.1.isIpv4 ∧ networkAddress a m.2.2 = networkAddress m.2.1 m.2.2) = true) :
    cidr.all (fun cidr => a.any fun a => inCidr a cidr) = true := by
  cases cidr with
  | none => rfl
  | some cidr =>
    obtain ⟨m, hm, hsome⟩ := bind_eq_ok.mp h
    cases hsome
    unfold addrMatch at hm
    cases hparse : parseIpOrCidr cidr with
    | error e =>
      rw [hparse] at hm
      cases hm
    | ok x =>
      rw [hparse] at hm
      cases hm
      have hany := hmatch _ rfl rfl
      cases a with
      | none => cases hany
      | some a =>
        have hin : a.isIpv4 = x.1.isIpv4 ∧ networkAddress a x.2 = networkAddress x.1 x.2 := of_decide_eq_true hany
        have hlen := len_of_parseIpOrCidr hparse
        simp [inCidr, hparse, hlen, hin]

theorem proto_of_dport {rule : NatRule} (h : natMatchProblem rule = none) {port : UInt16}
    (hport : rule.dport = some port) : ∃ proto, rule.proto = some proto := by
  cases hproto : rule.proto with
  | some proto => exact ⟨proto, rfl⟩
  | none =>
    unfold natMatchProblem at h
    rw [hport, hproto] at h
    cases h

/-- A packet that an installed rule translates is of a flow that the rule matches. -/
theorem ruleMatches_of_translates {rule : NatRule} (hproblem : natMatchProblem rule = none) {chain : Chain}
    {p : Packet} (h : translates chain p rule = true) : ruleMatches rule p.entry = true := by
  unfold translates at h
  cases hspec : natRuleSpec 0 rule with
  | error e =>
    rw [hspec] at h
    cases h
  | ok x =>
    obtain ⟨c, spec⟩ := x
    rw [hspec] at h
    obtain ⟨haction, hl4, haddr⟩ := spec_of_natRuleSpec hspec
    simp only [RuleSpec.translates, RuleSpec.matches, Bool.and_eq_true] at h
    obtain ⟨⟨-, ⟨⟨hmatch, -⟩, -⟩, hports⟩, -⟩ := h
    rw [hl4] at hports
    have hproto : rule.proto.all (fun proto => p.entry.proto = ipProtocol proto) = true := by
      cases hp : rule.proto with
      | none => rfl
      | some proto =>
        rw [hp] at hports
        exact (Bool.and_eq_true_iff.mp hports).1
    have hport : rule.dport.all (fun port => p.entry.orig.dstPort = some port) = true := by
      cases hd : rule.dport with
      | none => rfl
      | some port =>
        obtain ⟨proto, hp⟩ := proto_of_dport hproblem hd
        rw [hp, hd] at hports
        exact (Bool.and_eq_true_iff.mp hports).2
    have hcidr : (ruleAddr rule p.entry).1.all (fun cidr => (ruleAddr rule p.entry).2.any fun a => inCidr a cidr) = true := by
      unfold ruleAddr
      cases hact : rule.action with
      | translate => exact absurd hact haction
      | dnat =>
        rw [hact] at haddr
        apply all_inCidr haddr
        rintro ⟨_, m⟩ hm rfl
        rw [hm] at hmatch
        exact hmatch
      | redirect =>
        rw [hact] at haddr
        apply all_inCidr haddr
        rintro ⟨_, m⟩ hm rfl
        rw [hm] at hmatch
        exact hmatch
      | snat =>
        rw [hact] at haddr
        apply all_inCidr haddr
        rintro ⟨_, m⟩ hm rfl
        rw [hm] at hmatch
        exact hmatch
      | masquerade =>
        rw [hact] at haddr
        apply all_inCidr haddr
        rintro ⟨_, m⟩ hm rfl
        rw [hm] at hmatch
        exact hmatch
    simp only [ruleMatches, hproto, hport, Bool.and_true]
    exact hcidr

/-- An address that is in a host prefix is the host. -/
theorem eq_of_inCidr {a : IpAddr} {cidr : String} {net : IpAddr} (h : inCidr a cidr = true)
    (hparse : parseIpOrCidr cidr = .ok (net, addrBits net)) : a = net := by
  have hmask : ∀ {w : Nat} (x : BitVec w), x &&& BitVec.allOnes w <<< (w - w) = x := fun x => by simp
  unfold inCidr at h
  rw [hparse] at h
  obtain ⟨-, hfamily, hnet⟩ := of_decide_eq_true h
  cases a with
  | v4 x =>
    cases net with
    | v4 y =>
      simp only [networkAddress, addrBits, IpAddr.isIpv4, if_true, hmask] at hnet
      exact hnet
    | v6 y => cases hfamily
  | v6 x =>
    cases net with
    | v4 y => cases hfamily
    | v6 y =>
      simp only [networkAddress, addrBits, IpAddr.isIpv4, Bool.false_eq_true, if_false, hmask] at hnet
      exact hnet

/-- A host that a rule is for. -/
def hostOf (cidr : Option String) : Option IpAddr :=
  cidr.bind fun c =>
    match parseIpOrCidr c with
    | .ok (addr, len) => if len = addrBits addr then some addr else none
    | .error _ => none

theorem eq_of_hostOf {cidr : Option String} {a : Option IpAddr} {host : IpAddr} (hhost : hostOf cidr = some host)
    (h : cidr.all (fun cidr => a.any fun a => inCidr a cidr) = true) : a = some host := by
  obtain ⟨c, rfl, hc⟩ := Option.bind_eq_some_iff.mp hhost
  cases hparse : parseIpOrCidr c with
  | error e =>
    rw [hparse] at hc
    cases hc
  | ok x =>
    obtain ⟨net, len⟩ := x
    rw [hparse] at hc
    dsimp only at hc
    split_ifs at hc with hlen
    cases hc
    subst hlen
    cases a with
    | none => cases h
    | some a => exact congrArg some (eq_of_inCidr h hparse)

theorem coarseFilter_eq (rule : NatRule) :
    (coarseFilter rule).proto = rule.proto.map ipProtocol ∧
      (coarseFilter rule).origDstPort = rule.proto.bind (fun _ => rule.dport) ∧
      (∀ a, (coarseFilter rule).origDst = some a → hostOf rule.dst = some a ∧
        (rule.action = .snat ∨ rule.action = .masquerade → False)) ∧
      ∀ a, (coarseFilter rule).origSrc = some a → hostOf rule.src = some a ∧
        (rule.action = .snat ∨ rule.action = .masquerade) := by
  unfold coarseFilter
  cases rule.action <;> cases rule.proto <;> exact ⟨rfl, rfl, by simp [hostOf], by simp [hostOf]⟩

/-- The filter names nothing that the rule's flows do not have. -/
theorem coarseFilter_names {rule : NatRule} {entry : ConntrackEntry} (h : ruleMatches rule entry = true) :
    (coarseFilter rule).Names entry := by
  obtain ⟨hp, hd, hdst, hsrc⟩ := coarseFilter_eq rule
  simp only [ruleMatches, Bool.and_eq_true] at h
  obtain ⟨⟨hcidr, hproto⟩, hport⟩ := h
  refine ⟨fun n hn => ?_, fun port hn => ?_, fun a ha => ?_, fun a ha => ?_⟩
  · obtain ⟨proto, hrule, rfl⟩ := Option.map_eq_some_iff.mp (hp.symm.trans hn)
    rw [hrule] at hproto
    exact of_decide_eq_true hproto
  · obtain ⟨proto, -, hrule⟩ := Option.bind_eq_some_iff.mp (hd.symm.trans hn)
    rw [hrule] at hport
    exact of_decide_eq_true hport
  · obtain ⟨hhost, hnot⟩ := hdst a ha
    unfold ruleAddr at hcidr
    cases haction : rule.action with
    | snat => exact (hnot (.inl haction)).elim
    | masquerade => exact (hnot (.inr haction)).elim
    | _ =>
      rw [haction] at hcidr
      exact eq_of_hostOf hhost hcidr
  · obtain ⟨hhost, haction⟩ := hsrc a ha
    unfold ruleAddr at hcidr
    rcases haction with haction | haction <;> rw [haction] at hcidr <;> exact eq_of_hostOf hhost hcidr

theorem mem_forgetFlows {passes : ConntrackFilter → ConntrackEntry → Bool} {rules : List NatRule}
    {table : List ConntrackEntry} {entry : ConntrackEntry} :
    entry ∈ forgetFlows passes rules table ↔
      entry ∈ table ∧ ∀ rule ∈ rules, (passes (coarseFilter rule) entry && ruleMatches rule entry) = false := by
  induction rules generalizing table with
  | nil => simp [forgetFlows]
  | cons rule rules ih =>
    have hstep := @ih (table.filter fun e => !(passes (coarseFilter rule) e && ruleMatches rule e))
    rw [forgetFlows, List.foldl_cons]
    rw [forgetFlows] at hstep
    rw [hstep, List.mem_filter, List.forall_mem_cons, Bool.not_eq_true', and_assoc]

/-! ### Stale flows -/

/-- The rules of a list that the other has too. -/
def kept (rules other : List NatRule) : List NatRule := rules.filter (· ∈ other)

/-- Either a rule that only one of the lists has matches the packet's flow, or the rules that
both have translate the packet alike in the two orders. -/
def KeptAlike (old new : List NatRule) (p : Packet) : Prop :=
  (∃ rule, (rule ∈ old ∧ rule ∉ new ∨ rule ∈ new ∧ rule ∉ old) ∧ ruleMatches rule p.entry = true) ∨
    ∀ chain, (kept old new).find? (translates chain p) = (kept new old).find? (translates chain p)

theorem mem_changedRules {old new : List NatRule} {rule : NatRule} :
    rule ∈ changedRules old new ↔ rule ∈ old ∧ rule ∉ new ∨ rule ∈ new ∧ rule ∉ old := by
  simp [changedRules]

/-- Where no rule that the other list lacks translates a packet, the rules that both have
decide. -/
theorem find?_kept {rules other : List NatRule} {f : NatRule → Bool}
    (h : ∀ rule ∈ rules, f rule = true → rule ∈ other) : (kept rules other).find? f = rules.find? f := by
  unfold kept
  induction rules with
  | nil => rfl
  | cons rule rules ih =>
    obtain ⟨hrule, hrules⟩ := List.forall_mem_cons.mp h
    by_cases hmem : rule ∈ other
    · simp only [List.filter_cons, hmem, decide_true, if_true, List.find?_cons, ih hrules]
    · have hno : f rule = false := Bool.eq_false_iff.mpr fun hf => hmem (hrule hf)
      simp only [List.filter_cons, hmem, decide_false, Bool.false_eq_true, if_false, List.find?_cons, hno, ih hrules]

/-- A flow that a change of the rules translates differently is forgotten exactly when a rule
that only one side has matches it, or the rules that both sides have translate it alike. -/
theorem stale_flow_forgotten_iff {passes : ConntrackFilter → ConntrackEntry → Bool}
    (hpasses : ∀ filter entry, filter.Names entry → passes filter entry = true) {old new : List NatRule}
    {oldInstalled newInstalled : List (NatRule × Chain × RuleSpec)} (hold : natRules old = .ok oldInstalled)
    (hnew : natRules new = .ok newInstalled) (p : Packet) :
    ((∃ chain, translation chain oldInstalled p ≠ translation chain newInstalled p) →
      ∀ table, p.entry ∉ forgetFlows passes (changedRules old new) table) ↔ KeptAlike old new p := by
  have hgone : (∀ table, p.entry ∉ forgetFlows passes (changedRules old new) table) ↔
      ∃ rule, (rule ∈ old ∧ rule ∉ new ∨ rule ∈ new ∧ rule ∉ old) ∧ ruleMatches rule p.entry = true := by
    constructor
    · intro h
      by_contra hno
      apply h [p.entry]
      refine mem_forgetFlows.mpr ⟨List.mem_cons_self, fun rule hrule => ?_⟩
      apply Bool.eq_false_iff.mpr
      intro hmatch
      exact hno ⟨rule, mem_changedRules.mp hrule, (Bool.and_eq_true_iff.mp hmatch).2⟩
    · rintro ⟨rule, hrule, hmatch⟩ table hmem
      have hkept := (mem_forgetFlows.mp hmem).2 rule (mem_changedRules.mpr hrule)
      rw [hpasses _ _ (coarseFilter_names hmatch), hmatch] at hkept
      cases hkept
  rw [hgone, KeptAlike]
  by_cases hchanged : ∃ rule, (rule ∈ old ∧ rule ∉ new ∨ rule ∈ new ∧ rule ∉ old) ∧ ruleMatches rule p.entry = true
  · exact ⟨fun _ => .inl hchanged, fun _ _ => hchanged⟩
  · -- no rule of one side alone decides
    have hfirst : ∀ chain, (kept old new).find? (translates chain p) = translation chain oldInstalled p := by
      intro chain
      rw [translation_eq hold]
      apply find?_kept
      intro rule hrule htranslates
      by_contra hmem
      exact hchanged ⟨rule, .inl ⟨hrule, hmem⟩,
        ruleMatches_of_translates (natMatchProblem_of_natRules hold hrule) htranslates⟩
    have hsecond : ∀ chain, (kept new old).find? (translates chain p) = translation chain newInstalled p := by
      intro chain
      rw [translation_eq hnew]
      apply find?_kept
      intro rule hrule htranslates
      by_contra hmem
      exact hchanged ⟨rule, .inr ⟨hrule, hmem⟩,
        ruleMatches_of_translates (natMatchProblem_of_natRules hnew hrule) htranslates⟩
    simp only [hfirst, hsecond, hchanged, false_or, imp_false, not_exists, not_not, ne_eq]

/-- One host of a network, sent to a server of its own. -/
def hostRule : NatRule := { action := .dnat, dst := some "10.0.2.1", target := some "10.0.1.10" }

/-- The network, sent to another server. -/
def networkRule : NatRule := { action := .dnat, dst := some "10.0.2.0/24", target := some "10.0.1.20" }

/-- A UDP flow to the host. -/
def hostFlow : Packet where
  entry := { id := 1, proto := 17, orig :=
    { srcIp := some (.v4 0x0a000909), dstIp := some (.v4 0x0a000201), srcPort := some 40000, dstPort := some 53 } }
  iif := "eth0"
  oif := "eth1"

/-- What nlink's filter lets through. -/
def namesAll (filter : ConntrackFilter) (entry : ConntrackEntry) : Bool :=
  filter.proto.all (entry.proto = ·) && filter.origDstPort.all (entry.orig.dstPort = some ·) &&
    filter.origDst.all (entry.orig.dstIp = some ·) && filter.origSrc.all (entry.orig.srcIp = some ·)

theorem namesAll_of_names (filter : ConntrackFilter) (entry : ConntrackEntry) (h : filter.Names entry) :
    namesAll filter entry = true := by
  obtain ⟨hproto, hport, hdst, hsrc⟩ := h
  simp only [namesAll, Bool.and_eq_true, Option.all_eq_true, decide_eq_true_eq]
  exact ⟨⟨⟨hproto, hport⟩, hdst⟩, hsrc⟩

theorem stale_flow_forgotten_removed :
    hostFlow.entry ∉ forgetFlows namesAll (changedRules [hostRule, networkRule] [networkRule]) [hostFlow.entry] := by
  obtain ⟨oldInstalled, hold⟩ : ∃ installed, natRules [hostRule, networkRule] = .ok installed := ⟨_, rfl⟩
  obtain ⟨newInstalled, hnew⟩ : ∃ installed, natRules [networkRule] = .ok installed := ⟨_, rfl⟩
  refine (stale_flow_forgotten_iff namesAll_of_names hold hnew hostFlow).mpr ?_ ⟨.prerouting, ?_⟩ [hostFlow.entry]
  · exact .inl ⟨hostRule, .inl ⟨List.mem_cons_self, by decide⟩, by decide +kernel⟩
  · rw [translation_eq hold, translation_eq hnew]
    decide +kernel

/-- Two rules change places: the flow is translated by the other, and nothing is deleted. -/
theorem reordered_flow_kept : ∃ oldInstalled newInstalled,
    natRules [hostRule, networkRule] = .ok oldInstalled ∧ natRules [networkRule, hostRule] = .ok newInstalled ∧
      translation .prerouting oldInstalled hostFlow ≠ translation .prerouting newInstalled hostFlow ∧
      hostFlow.entry ∈ forgetFlows namesAll (changedRules [hostRule, networkRule] [networkRule, hostRule])
        [hostFlow.entry] := by
  obtain ⟨oldInstalled, hold⟩ : ∃ installed, natRules [hostRule, networkRule] = .ok installed := ⟨_, rfl⟩
  obtain ⟨newInstalled, hnew⟩ : ∃ installed, natRules [networkRule, hostRule] = .ok installed := ⟨_, rfl⟩
  refine ⟨oldInstalled, newInstalled, hold, hnew, ?_, by decide +kernel⟩
  rw [translation_eq hold, translation_eq hnew]
  decide +kernel

end Conntrack

end NlinkLab
