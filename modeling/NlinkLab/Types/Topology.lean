import NlinkLab.Types.Node

/-! The topology of a lab: its nodes, links, networks, traffic control and
tests (`types.rs`), and what each node effectively runs once its profiles are
laid under it. -/

namespace NlinkLab

/-! ### Links and networks -/

/-- Point-to-point link; `endpoints` are in `node:interface` form. -/
@[ext] structure Link where
  endpoints : String × String
  addresses : Option (String × String) := none
  mtu : Option UInt32 := none
  deriving DecidableEq

/-- Network impairment (netem). -/
@[ext] structure Impairment where
  delay : Option String := none
  jitter : Option String := none
  loss : Option String := none
  rate : Option String := none
  corrupt : Option String := none
  reorder : Option String := none
  duplicate : Option String := none
  delayCorrelation : Option String := none
  lossCorrelation : Option String := none
  limit : Option String := none
  seed : Option String := none
  deriving DecidableEq

/-- Per-pair impairment within a network; `src` and `dst` are node names. -/
@[ext] structure NetworkImpairment where
  src : String := ""
  dst : String := ""
  impairment : Impairment := {}
  rateCap : Option String := none
  deriving DecidableEq

@[ext] structure VlanConfig where
  name : Option String := none
  deriving DecidableEq

@[ext] structure PortConfig where
  interface : Option String := none
  vlans : List UInt16 := []
  tagged : Option Bool := none
  pvid : Option UInt16 := none
  untagged : Option Bool := none
  addresses : List String := []
  deriving DecidableEq

/-- Shared L2 segment (bridge network). -/
@[ext] structure Network where
  kind : Option String := none
  vlanFiltering : Option Bool := none
  mtu : Option UInt32 := none
  subnet : Option String := none
  members : List String := []
  vlans : BTreeMap UInt16 VlanConfig := ∅
  ports : BTreeMap String PortConfig := ∅
  impairments : List NetworkImpairment := []
  deriving DecidableEq

@[ext] structure RateLimit where
  egress : Option String := none
  ingress : Option String := none
  burst : Option String := none
  deriving DecidableEq

/-- A root qdisc other than netem, with its parameters. -/
inductive QdiscKind where
  | tbf (rate burst : String) (limit peakrate : Option String) (mtu : Option UInt32)
  | fqCodel (target interval : Option String) (limit flows quantum : Option UInt32)
      (ecn : Option Bool)
  | sfq (perturb : Option String) (limit quantum : Option UInt32)
  | prio (bands : Option UInt8)
  deriving DecidableEq

@[ext] structure QdiscConfig where
  kind : QdiscKind
  deriving DecidableEq

/-! ### Tests -/

inductive CompareOp where
  | gt | lt | gte | lte | eq | ne
  deriving DecidableEq

@[ext] structure BenchmarkAssertion where
  metric : String
  op : CompareOp
  value : String
  deriving DecidableEq

inductive BenchmarkTest where
  | iperf3 (from' to' : String) (duration : Option String) (streams : Option UInt32) (udp : Bool)
      (rate : Option String) (assertions : List BenchmarkAssertion)
  | ping (from' to' : String) (count : Option UInt32) (assertions : List BenchmarkAssertion)
  deriving DecidableEq

@[ext] structure Benchmark where
  name : String
  tests : List BenchmarkTest
  deriving DecidableEq

/-- What a counter assertion reads. -/
inductive CounterMetric where
  | packets | bytes
  deriving DecidableEq

/-- Post-deploy reachability assertion. -/
inductive Assertion where
  | reach (from' to' : String)
  | noReach (from' to' : String)
  | tcpConnect (from' to' : String) (port : UInt16) (timeout : Option String)
      (retries : Option UInt32) (interval : Option String)
  | latencyUnder (from' to' max : String) (samples : Option UInt32)
  | routeHas (node destination : String) (via dev : Option String)
  | dnsResolves (from' name expectedIp : String)
  | counter (node name : String) (metric : CounterMetric) (op : CompareOp) (value : UInt64)
  deriving DecidableEq

/-- Which way an impairment acts on an endpoint's link. -/
inductive Direction where
  | out | in' | both
  deriving DecidableEq

/-- Where a trace is played. -/
inductive ReplayTarget where
  | endpoint (endpoint : String) (dir : Direction)
  | pair (network src dst : String)
  deriving DecidableEq

/-- An action within a scenario step. -/
inductive ScenarioAction where
  | down (endpoint : String)
  | up (endpoint : String)
  | clear (endpoint : String)
  | validate (assertions : List Assertion)
  | exec (node : String) (cmd : List String)
  | log (message : String)
  | impair (endpoint : String) (impairment : Impairment)
  | partition (endpoint : String) (both : Bool)
  | heal (endpoint : String) (both : Bool)
  | pairImpair (network src dst : String) (impairment : Impairment) (rateCap : Option String)
  | replay (target : ReplayTarget) (file : String) (stepMs : UInt64) (looped : Bool)
  deriving DecidableEq

@[ext] structure ScenarioStep where
  timeMs : UInt64
  actions : List ScenarioAction
  deriving DecidableEq

@[ext] structure Scenario where
  name : String
  steps : List ScenarioStep
  keep : Bool := false
  deriving DecidableEq

/-! ### The lab -/

inductive DnsMode where
  | off | hosts
  deriving DecidableEq

inductive RoutingMode where
  | manual | frr | auto
  deriving DecidableEq

inductive ContainerRuntime where
  | auto | docker | podman
  deriving DecidableEq

/-- Lab metadata. -/
@[ext] structure LabConfig where
  name : String := ""
  description : Option String := none
  labPrefix : Option String := none
  runtime : Option ContainerRuntime := none
  version : Option String := none
  author : Option String := none
  tags : List String := []
  mgmtSubnet : Option String := none
  mgmtHostReachable : Bool := false
  dns : DnsMode := .off
  routing : RoutingMode := .manual
  frr : Option FrrConfig := none
  seed : Option UInt64 := none
  deriving DecidableEq

/-- Complete topology definition. `directionalImpairments` is not persisted. -/
@[ext] structure Topology where
  lab : LabConfig := {}
  profiles : BTreeMap String Profile := ∅
  nodes : BTreeMap String Node := ∅
  links : List Link := []
  networks : BTreeMap String Network := ∅
  impairments : BTreeMap String Impairment := ∅
  directionalImpairments : List String := []
  rateLimits : BTreeMap String RateLimit := ∅
  qdiscs : BTreeMap String QdiscConfig := ∅
  assertions : List Assertion := []
  assertionRetries : Option UInt32 := none
  assertionInterval : Option String := none
  scenarios : List Scenario := []
  benchmarks : List Benchmark := []
  sites : BTreeMap String (List String) := ∅
  sourceDir : Option String := none
  deriving DecidableEq

namespace Topology

/-- The firewall layers of a node: its profiles', in order, then its own. -/
def firewallLayers (t : Topology) (node : Node) : List FirewallConfig :=
  node.profiles.filterMap (fun name => (t.profiles[name]?).bind (·.firewall))
    ++ node.firewall.toList

/-- The firewall a node runs: its profiles' and its own, merged chain by chain. -/
def effectiveFirewall (t : Topology) (node : Node) : Option FirewallConfig :=
  match t.firewallLayers node with
  | [] => none
  | first :: rest => some (rest.foldl FirewallConfig.mergeFrom first)

/-- A node's sysctls: its profiles', in order, then its own. -/
def effectiveSysctls (t : Topology) (node : Node) : BTreeMap String String :=
  let extend (m new : BTreeMap String String) := new.foldl (fun m k v => m.insert k v) m
  extend ((node.profiles.filterMap (t.profiles[·]?)).foldl (fun m p => extend m p.sysctls) ∅)
    node.sysctls

end Topology

end NlinkLab
