import NlinkLab.Deploy.Plan.Network

/-! The ops of a deploy up to the DNS stage (`deploy/plan/topology.rs`), one list
for each stage: namespaces, containers and radios, the bridges and veths of
networks, links, host-side links, bringing links up, sysctls and DNS. -/

namespace NlinkLab

/-! ### DNS -/

/-- An address and the names it has. -/
structure HostsEntry where
  ip : String
  names : List String

/-- The hosts entries of the nodes: a node's first address gets its bare name,
and all get a name for the interface (`dns.rs`). -/
def generateHostsEntries (t : Topology) : List HostsEntry :=
  let entry := fun (ep addr : String) =>
    (EndpointRef.parse ep).bind fun ep =>
      let ip := before '/' addr
      if ip = "" then none else some (ep.node, ip, ep.iface)
  let onLinks := t.links.flatMap fun link =>
    match link.addresses with
    | none => []
    | some (a, b) => (entry link.endpoints.1 a).toList ++ (entry link.endpoints.2 b).toList
  let onNetworks := t.networks.toList.flatMap fun (_, network) =>
    network.ports.toList.flatMap fun (key, port) => port.addresses.filterMap (entry key)
  (BTreeMap.group (onLinks ++ onNetworks)).toList.flatMap fun (node, ips) =>
    ips.zipIdx.map fun ((ip, iface), i) =>
      { ip, names := (if i = 0 then [node] else []) ++ [node ++ "-" ++ iface] }

namespace Plan

section

variable (t : Topology)

/-! ### Namespaces and radios -/

/-- The op that makes a node's namespace or container, or finds a foreign one. -/
def nodeOp (extraHosts : List String) (name : String) (node : Node) : Op :=
  match node.foreign with
  | some f =>
    let bridge := match f.target with
      | .tap _ => some (t.lab.tapBridgeName name)
      | _ => none
    .attachForeign name f.target bridge
  | none =>
    match node.image with
    | some image => .createContainer name (t.lab.effectivePrefix ++ "-" ++ name) image node.pull
        (buildCreateOpts name node extraHosts t.sourceDir)
    | none => .createNamespace name (t.namespaceName name)

def nodeOps (extraHosts : List String) : List Op :=
  (topoSortNodes t.nodes).filterMap fun name =>
    t.nodes[name]?.map (nodeOp t extraHosts name)

/-- The radios, all made in the first Wi-Fi node's namespace. -/
def radioOps : List Op :=
  match t.nodes.toList.find? fun (_, n) => n.wifi ≠ [] with
  | none => []
  | some (maker, _) => t.nodes.toList.flatMap fun (name, node) => node.wifi.map fun wifi =>
      .createRadio name wifi.name (radioName (t.namespaceName name) wifi.name) wifi.mode maker

/-! ### Bridges -/

/-- The host-reachable management bridge and each node's veth to it. -/
def mgmtOps : Except Error (List Op) :=
  match t.lab.mgmtSubnet with
  | some subnet =>
    if t.lab.mgmtHostReachable then do
      let mgmt ← mgmtAddresses subnet t.nodes.size
      let bridge := t.lab.mgmtBridgeName
      let veths := (t.nodes.toList.zipIdx.zip mgmt.nodes).filterMap fun (((name, node), idx), ip) =>
        if node.isForeign then none
        else some (.createMgmtVeth name (t.lab.mgmtPeerName idx) bridge ip mgmt.prefixLen)
      return .createMgmtBridge bridge mgmt.bridge mgmt.prefixLen :: veths
    else .ok []
  | none => .ok []

/-- The VLAN settings of a member's port, found by the member or its node. -/
def portVlans (network : Network) (member : String) (ep : EndpointRef) : Option PortVlans :=
  let port := network.ports[member]? <|> network.ports[ep.node]?
  (port.filter fun p => p.vlans ≠ [] ∨ p.pvid.isSome).map fun p =>
    { vlans := p.vlans, pvid := p.pvid, untagged := p.untagged = some true }

/-- The namespace the lab's bridges are in. -/
def mgmtNs : String := t.lab.effectivePrefix ++ "-mgmt"

/-- The veth of a network's `k`th member. -/
def memberOp (netName : String) (network : Network) (member : String) (k : Nat) : Except Error Op :=
  match EndpointRef.parse member with
  | none => .error (.invalidEndpoint member)
  | some ep =>
    if t.nodes.contains ep.node then
      .ok (.createNetworkVeth ep.node ep.iface (networkPeerNameFor netName k) (mgmtNs t)
        (networkBridgeNameFor netName) (portVlans network member ep) network.mtu)
    else .error (.nodeNotFound ep.node)

/-- A network's bridge and its members' veths. -/
def networkOps (netName : String) (network : Network) : Except Error (List Op) := do
  let veths ← network.members.zipIdx.mapM fun (member, k) => memberOp t netName network member k
  return .createBridge (mgmtNs t) netName (networkBridgeNameFor netName)
    (network.vlanFiltering = some true) network.mtu :: veths

def bridgeOps : Except Error (List Op) :=
  if t.networks.isEmpty then .ok []
  else do
    let ops ← t.networks.toList.mapM fun (name, network) => networkOps t name network
    return .createMgmtNamespace (mgmtNs t) :: ops.flatten

/-! ### Links -/

/-- The tap a node is, if it is a foreign one. -/
def isTap (name : String) : Bool :=
  (t.nodes[name]?.bind (·.foreign)).any fun f =>
    match f.target with
    | .tap _ => true
    | _ => false

/-- The op of a link. `taps` counts the links to each foreign tap node so far;
the lab's end is the one made, never a foreign node's. -/
def linkOp (taps : BTreeMap String Nat) (link : Link) : Except Error (BTreeMap String Nat × Op) :=
  match EndpointRef.parse link.endpoints.1, EndpointRef.parse link.endpoints.2 with
  | none, _ => .error (.invalidEndpoint link.endpoints.1)
  | some _, none => .error (.invalidEndpoint link.endpoints.2)
  | some a, some b =>
    if !t.nodes.contains a.node then .error (.nodeNotFound a.node)
    else if !t.nodes.contains b.node then .error (.nodeNotFound b.node)
    else
      let (a, b) := if (t.nodes[a.node]?.bind (·.foreign)).isSome then (b, a) else (a, b)
      if isTap t b.node then
        let k := taps[b.node]?.getD 0
        .ok (taps.insert b.node (k + 1),
          .createTapVeth a (t.lab.tapPortName b.node k) (t.lab.tapBridgeName b.node) link.mtu)
      else .ok (taps, .createVeth a b link.mtu)

/-- The ops of the links, with the taps counted along the way. -/
def linkOpsFrom (taps : BTreeMap String Nat) : List Link → Except Error (List Op)
  | [] => .ok []
  | link :: links => do
    let (taps, op) ← linkOp t taps link
    return op :: (← linkOpsFrom taps links)

def linkOps : Except Error (List Op) := linkOpsFrom t ∅ t.links

/-- macvlan and ipvlan links, made on the host. -/
def hostLinkOps : List Op :=
  t.nodes.toList.flatMap fun (name, node) =>
    node.macvlans.map (.createMacvlan name) ++ node.ipvlans.map (.createIpvlan name)

/-! ### Settings -/

/-- The interface an endpoint is on a node. -/
def ifaceOn (name ep : String) : Option String :=
  ((EndpointRef.parse ep).filter (·.node = name)).map (·.iface)

/-- The interfaces of a node to bring up; bond members stay down. -/
def ifacesUp (name : String) (node : Node) : List String :=
  let bondMembers := node.interfaces.toList.flatMap fun (_, c) =>
    if c.kind = some .bond then c.members else []
  let ifaces := (if node.isForeign then [] else ["lo"]) ++
    (t.links.flatMap fun link => [link.endpoints.1, link.endpoints.2].filterMap (ifaceOn name)) ++
    (t.networks.toList.flatMap fun (_, network) => network.members.filterMap (ifaceOn name)) ++
    (if t.lab.mgmtHostReachable ∧ t.lab.mgmtSubnet.isSome ∧ !node.isForeign then ["mgmt0"] else []) ++
    node.macvlans.map (·.name) ++ node.ipvlans.map (·.name) ++ node.wifi.map (·.name)
  ((ifaces.filter (· ∉ bondMembers)).dedup).insertionSort (· ≤ ·)

def linksUpOps : List Op :=
  t.nodes.toList.filterMap fun (name, node) =>
    if isTap t name then none
    else
      let ifaces := ifacesUp t name node
      if ifaces = [] then none else some (.linksUp name ifaces)

/-- The sysctls of a node that no declared link carries. -/
def sysctlEntries (nl : Nlink) (node : Node) : BTreeMap String String :=
  (t.effectiveSysctls node).filter fun k v => (linkDevconf nl node k v).isNone

def sysctlOps (nl : Nlink) : List Op :=
  t.nodes.toList.filterMap fun (name, node) =>
    let entries := sysctlEntries t nl node
    if node.isForeign ∨ entries = ∅ then none else some (.sysctls name entries)

def dnsOps : List Op :=
  if t.lab.dns = .hosts ∧ generateHostsEntries t ≠ [] then
    .dnsInject t.lab.name :: t.nodes.toList.filterMap fun (name, node) =>
      if node.image.isNone ∧ !node.isForeign then some (.dnsNetnsEtc name (t.namespaceName name))
      else none
  else []

end

/-- The ops of the stages up to DNS, the stack left out. -/
def planTopology (nl : Nlink) (t : Topology) (extraHosts : List String) : Except Error (List Op) := do
  let mgmt ← mgmtOps t
  let bridges ← bridgeOps t
  let links ← linkOps t
  return nodeOps t extraHosts ++ radioOps t ++ mgmt ++ bridges ++ links ++ hostLinkOps t ++
    linksUpOps t ++ sysctlOps t nl ++ dnsOps t

end Plan

end NlinkLab
