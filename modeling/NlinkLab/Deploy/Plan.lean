import NlinkLab.Deploy.Plan.Routes
import NlinkLab.Deploy.Plan.Tc
import NlinkLab.Deploy.Plan.Topology
import NlinkLab.Deploy.Plan.Wireguard

/-! The complete plan of a topology (`deploy/plan/mod.rs`): every op a deploy
performs, in stage order. -/

namespace NlinkLab

/-- What a plan needs that is not in the topology: key material, and the
endpoints a live partition cuts off. -/
structure PlanInputs where
  wgKeys : Option WgKeys := none
  partitions : List String := []

/-- The name of the management network in a plan. -/
def MGMT_NETWORK : String := "@mgmt"

/-- The implicit network of every node's `mgmt0`, numbered as the host-reachable
one is. -/
def mgmtNetwork (t : Topology) (subnet : String) (mgmt : MgmtAddrs) : Network :=
  let members := (t.nodes.toList.zip mgmt.nodes).filterMap fun ((name, node), ip) =>
    if node.isForeign then none
    else some (name ++ ":mgmt0",
      { addresses := [toString ip ++ "/" ++ toString mgmt.prefixLen] : PortConfig })
  { kind := some "bridge"
    subnet := some subnet
    members := members.map (·.1)
    ports := members.foldl (fun ports (ep, port) => ports.insert ep port) ∅ }

/-- The topology with a management subnet that is not host-reachable as a bridge
network. -/
def withMgmtNetwork (t : Topology) : Except Error Topology :=
  match t.lab.mgmtSubnet with
  | some subnet =>
    if t.lab.mgmtHostReachable then .ok t
    else do
      let mgmt ← mgmtAddresses subnet t.nodes.size
      return { t with networks := t.networks.insert MGMT_NETWORK (mgmtNetwork t subnet mgmt) }
  | none => .ok t

namespace Plan

/-- The parts the planner is given: the netlink library and how values are read. -/
structure Env where
  nl : Nlink
  vals : Values

/-- A netlink library that takes every well-formed address and any route, for runs
on a given topology; it reads no values. -/
def Env.sample : Env where
  nl :=
    { address := fun addr => if (parseCidr addr).toOption.isSome then none else some "invalid address"
      route := fun _ => none
      perPair := fun _ _ _ => none
      ipv4Devconf := fun name => name ∈ ["forwarding", "rp_filter"]
      ipv6Devconf := fun name => name ∈ ["forwarding", "accept_ra"]
      lossModel := fun _ => .ok none }
  vals :=
    { parseDuration := fun _ => .error (.invalidTopology "bad duration")
      parsePercent := fun _ => .error (.invalidTopology "bad percentage")
      parseRateBps := fun _ => .error (.invalidTopology "bad rate")
      parseSize := fun _ => .error (.invalidTopology "bad size") }

variable (env : Env)

/-! ### Stacks -/

/-- The stack of a foreign node: only what it asked to be managed. -/
def foreignStack (t : Topology) (inputs : PlanInputs) (autoRoutes : Option (BTreeMap String RouteConfig))
    (name : String) (node : Node) (f : Foreign) : Except Error StackConfig := do
  let net ← if f.manageAddresses then topologyToNetworkConfig env.nl name node t autoRoutes
    else pure {}
  let network ← if f.manageTc then declareNodeTc env.nl env.vals net name t inputs.partitions
    else pure net
  return { network }

/-- The stack of a node of the lab's own. -/
def ownStack (t : Topology) (inputs : PlanInputs) (autoRoutes : Option (BTreeMap String RouteConfig))
    (name : String) (node : Node) : Except Error StackConfig := do
  let net ← topologyToNetworkConfig env.nl name node t autoRoutes
  let network ← declareNodeTc env.nl env.vals net name t inputs.partitions
  let wireguard ← match inputs.wgKeys with
    | some keys =>
      if node.wireguard.isEmpty then pure none
      else (Wireguard.topologyToWireguardConfig name node t keys).map some
    | none => pure none
  return { network, firewall := t.effectiveFirewall node, nat := node.nat, wireguard }

def stackOp (t : Topology) (inputs : PlanInputs) (autoRoutes : Option (BTreeMap String RouteConfig))
    (name : String) (node : Node) : Except Error (Option Op) :=
  match node.foreign with
  | some f =>
    if f.manageAddresses ∨ f.manageTc then
      (foreignStack env t inputs autoRoutes name node f).map fun cfg => some (.stack name cfg)
    else .ok none
  | none => (ownStack env t inputs autoRoutes name node).map fun cfg => some (.stack name cfg)

def stackOps (declared t : Topology) (inputs : PlanInputs) : Except Error (List Op) :=
  let autoRoutes := autoRoutesFor declared
  collect (fun (name, node) => stackOp env t inputs autoRoutes[name]? name node) t.nodes.toList

/-! ### Processes -/

def frrOps (declared : Topology) : Except Error (List Op) :=
  collect (fun (name, node) =>
    match declared.effectiveFrr node with
    | none => .ok none
    | some cfg => (Frr.buildSpec declared name node cfg).map fun spec => some (.frrDaemons name spec))
    declared.nodes.toList

/-- The commands of a node; a container block's `exec` follows the node's own. -/
def execOps (name : String) (node : Node) : List Op :=
  (node.exec.zipIdx.filterMap fun (exec, index) =>
    if exec.cmd = [] then none else some (.exec name index exec)) ++
  node.containerExec.zipIdx.filterMap fun (cmd, offset) =>
    if trim cmd = "" then none
    else some (.exec name (node.exec.length + offset)
      { cmd := ["sh", "-c", trim cmd], background := false })

/-- What a node runs: its delay, its commands and its health check. -/
def nodeProcessOps (name : String) (node : Node) : List Op :=
  (node.startupDelay.map (.startupDelay name)).toList ++ execOps name node ++
  (node.healthcheck.map fun cmd => .healthcheck name cmd node.healthcheckInterval
    node.healthcheckTimeout node.healthcheckRetries).toList

def processOps (t : Topology) : List Op :=
  (topoSortNodes t.nodes).flatMap fun name =>
    (t.nodes[name]?.map (nodeProcessOps name)).getD []

def wifiOps (t : Topology) : List Op :=
  t.nodes.toList.flatMap fun (name, node) => node.wifi.map (.wifiDaemon name)

end Plan

/-! ### The plan -/

/-- Each hosts entry of the lab as a container's extra host. -/
def dnsExtraHosts (declared : Topology) : List String :=
  if declared.lab.dns = .hosts then
    (generateHostsEntries declared).flatMap fun entry =>
      entry.names.map fun name => name ++ ":" ++ entry.ip
  else []

/-- The ops of a plan, in the order they are made. Routing and DNS see the
topology as declared, without the management network. -/
def planOps (env : Plan.Env) (declared : Topology) (inputs : PlanInputs) : Except Error (List Op) := do
  let t ← withMgmtNetwork declared
  let ops ← Plan.planTopology env.nl t (dnsExtraHosts declared)
  let declaredStacks ← Plan.stackOps env declared t inputs
  let frr ← Plan.frrOps declared
  return ops ++ declaredStacks ++ frr ++ Plan.processOps t ++ Plan.wifiOps t

/-- The complete plan of a topology. -/
def plan (env : Plan.Env) (t : Topology) (inputs : PlanInputs) : Except Error Plan :=
  (planOps env t inputs).map fun ops => (Plan.mk ops).sorted

/-- The plan of a topology by the sample parts; no op where there is no plan. -/
def samplePlan (t : Topology) : Plan := ((plan Plan.Env.sample t {}).toOption).getD {}

end NlinkLab
