import NlinkLab.Data.Bfs
import NlinkLab.Deploy.Frr

/-! Static routes from the topology's graph (`deploy/plan/network.rs`), each
address family on its own: a default route for a node with one neighbour or
that does not forward, and for a router a route to each network that a
breadth-first search finds, via the neighbour it was found through. -/

namespace NlinkLab

/-! ### The graph -/

def isFamily (addr : String) (v6 : Bool) : Bool := (hostPart addr).any (·.isIpv6 = v6)

/-- The network of a CIDR, as text. -/
def networkCidr (addr : String) : Option String :=
  (parseCidr addr).toOption.map fun (ip, len) =>
    (networkAddress ip len).display ++ "/" ++ toString len

namespace Routes

/-- A neighbour and its address. -/
abbrev Hop := String × String

section

variable (t : Topology) (v6 : Bool)

/-- A link's ends with their addresses, when it has both in the family. -/
def linkEnds (link : Link) : Option ((EndpointRef × String) × EndpointRef × String) := do
  let (addrA, addrB) ← link.addresses
  if isFamily addrA v6 ∧ isFamily addrB v6 then
    let a ← EndpointRef.parse link.endpoints.1
    let b ← EndpointRef.parse link.endpoints.2
    some ((a, addrA), b, addrB)
  else none

/-- The members of a network with an address in the family, each with its first. -/
def netMembers (network : Network) : List Hop :=
  network.ports.toList.filterMap fun (key, port) =>
    (EndpointRef.parse key).bind fun ep =>
      (port.addresses.find? (isFamily · v6)).map fun addr => (ep.node, before '/' addr)

/-- Each node's neighbours: over links, and on the networks it is a member of. -/
def hops : List (String × Hop) :=
  (t.links.flatMap fun link =>
    match linkEnds v6 link with
    | none => []
    | some ((a, addrA), b, addrB) =>
      [(a.node, b.node, before '/' addrB), (b.node, a.node, before '/' addrA)]) ++
  t.networks.toList.flatMap fun (_, network) =>
    let members := (netMembers v6 network).zipIdx
    members.flatMap fun ((node, _), i) =>
      members.filterMap fun (hop, j) => if i ≠ j then some (node, hop) else none

/-- The addresses of the family each node has, in CIDR form. -/
def addresses : List (String × String) :=
  (t.links.flatMap fun link =>
    match linkEnds v6 link with
    | none => []
    | some ((a, addrA), b, addrB) => [(a.node, addrA), (b.node, addrB)]) ++
  t.networks.toList.flatMap fun (_, network) =>
    network.ports.toList.flatMap fun (key, port) =>
      match EndpointRef.parse key with
      | none => []
      | some ep => (port.addresses.filter (isFamily · v6)).map fun addr => (ep.node, addr)

def adjacency : BTreeMap String (List Hop) := BTreeMap.group (hops t v6)

def neighbors (name : String) : List Hop := (adjacency t v6)[name]?.getD []

def nodeSubnets : BTreeMap String (List String) := BTreeMap.group (addresses t v6)

/-- A node's addresses, without repeats, in order. -/
def subnets (name : String) : List String :=
  (((nodeSubnets t v6)[name]?.getD []).dedup).insertionSort (· ≤ ·)

def forwardSysctl (v6 : Bool) : String :=
  if v6 then "net.ipv6.conf.all.forwarding" else "net.ipv4.ip_forward"

def defaultKey (v6 : Bool) : String := if v6 then "::/0" else "default"

/-- Whether a node forwards the family. -/
def forwards (name : String) : Bool :=
  (t.nodes[name]?).any fun n => n.sysctls[forwardSysctl v6]? = some "1"

end

/-- Whether the routes have a default of the family. -/
def hasDefault (existing : BTreeMap String RouteConfig) (v6 : Bool) : Bool :=
  existing.toList.any fun (dest, cfg) =>
    let viaV6 := (cfg.via.bind IpAddr.parse).map (·.isIpv6)
    if dest = "::/0" then v6
    else if dest = "0.0.0.0/0" then !v6
    else if dest = "default" then viaV6.elim (!v6) (· = v6)
    else false

def routeVia (gw : String) : RouteConfig := { via := some gw }

section

variable (t : Topology) (v6 : Bool)

/-! ### A node's routes -/

/-- A default route, unless the node has one. -/
def defaultVia (node : Node) (gw : String) : BTreeMap String RouteConfig :=
  if hasDefault node.routes v6 then ∅
  else (∅ : BTreeMap String RouteConfig).insert (defaultKey v6) (routeVia gw)

/-- The nodes a router reaches, in the order it finds them, each with the
address of the neighbour it is found through. -/
def reached (name : String) : List Hop :=
  let next := fun (x hop : String) => (neighbors t v6 x).map fun (y, _) => (y, hop)
  let seeds := (neighbors t v6 name).foldl Bfs.enqueue ([name], [])
  -- a node is reached over one of the hops, and queued once
  Bfs.loop next (hops t v6).length seeds.1 seeds.2

/-- The network of an address that a router needs a route to: it is not on it,
and has no manual route to it. -/
def remoteNetwork (name : String) (node : Node) (subnet : String) : Option String :=
  let myNetworks := (subnets t v6 name).filterMap networkCidr
  if node.routes.contains subnet then none
  else (networkCidr subnet).filter fun net => net ∉ myNetworks ∧ !node.routes.contains net

/-- The networks of a node a router reaches, each with the route to it. -/
def offers (name : String) (node : Node) (current : Hop) : List (String × RouteConfig) :=
  ((subnets t v6 current.1).filterMap (remoteNetwork t v6 name node)).map fun net =>
    (net, routeVia current.2)

/-- A router's routes: to each network, the first found. -/
def routerRoutes (name : String) (node : Node) : BTreeMap String RouteConfig :=
  ((reached t v6 name).flatMap (offers t v6 name node)).foldl
    (fun routes (net, route) => routes.insertIfNew net route) ∅

def nodeRoutes (name : String) (node : Node) : BTreeMap String RouteConfig :=
  match neighbors t v6 name with
  | [] => ∅
  | first :: rest =>
    -- a stub: one neighbour only
    if (first :: rest).all (·.1 = first.1) then defaultVia v6 node first.2
    else if !forwards t v6 name then
      defaultVia v6 node (((first :: rest).find? fun (n, _) => forwards t v6 n).getD first).2
    else routerRoutes t v6 name node

end

end Routes

/-! ### The routes of a topology -/

def autoRoutesForFamily (t : Topology) (v6 : Bool) : BTreeMap String (BTreeMap String RouteConfig) :=
  t.nodes.filterMap fun name node => some (Routes.nodeRoutes t v6 name node) |>.filter (· ≠ ∅)

def autoGenerateRoutes (t : Topology) : BTreeMap String (BTreeMap String RouteConfig) :=
  (autoRoutesForFamily t true).toList.foldl (fun routes (node, v6) =>
    routes.insert node (v6.toList.foldl (fun m (k, v) => m.insert k v) (routes[node]?.getD ∅)))
    (autoRoutesForFamily t false)

/-- The static routes the lab's routing mode adds; with FRR, those of the nodes
that run no daemons. -/
def autoRoutesFor (t : Topology) : BTreeMap String (BTreeMap String RouteConfig) :=
  match t.lab.routing with
  | .manual => ∅
  | .auto => autoGenerateRoutes t
  | .frr => (autoGenerateRoutes t).filter fun n _ => n ∉ frrNodes t

end NlinkLab
