import NlinkLab.Edit

/-! What a topology mentions: nodes and interfaces, as plain texts in many places of its
data, in three spellings (`node`, `node:iface`, and an interface on the node that names
it). A removal drops some of them and passes over others. -/

namespace NlinkLab

/-- A node, or an interface of one. -/
inductive Ref where
  | node (name : String)
  | iface (node iface : String)
  deriving DecidableEq

namespace Ref

/-- What a `node:iface` text mentions. -/
def ofEndpoint (s : String) : Option Ref := (EndpointRef.parse s).map fun ep => iface ep.node ep.iface

/-- What a text mentions that is `node:iface` or a bare node. -/
def ofName (s : String) : Ref := (ofEndpoint s).getD (node s)

end Ref

def Link.refs (l : Link) : List Ref := [l.endpoints.1, l.endpoints.2].filterMap Ref.ofEndpoint

def NetworkImpairment.refs (i : NetworkImpairment) : List Ref := [.node i.src, .node i.dst]

/-- A port is named by an endpoint, or by a node and then has an interface of its own. -/
def PortConfig.refs (key : String) (port : PortConfig) : List Ref :=
  .ofName key :: if (EndpointRef.parse key).isNone then port.interface.toList.map (.iface key) else []

def Network.refs (net : Network) : List Ref :=
  net.members.filterMap Ref.ofEndpoint ++ (net.ports.toList.flatMap fun (key, port) => port.refs key) ++
  net.impairments.flatMap (·.refs)

/-! ### Nodes -/

/-- The BGP neighbours of a routing daemon. -/
def FrrConfig.refs (frr : FrrConfig) : List Ref := frr.bgp.toList.flatMap fun b => b.neighbors.map fun n => .node n.node

/-- The interfaces of its node that a routing daemon only listens on. A lab's or a profile's
daemon names them on no node in particular. -/
def FrrConfig.passives (frr : FrrConfig) : List String := frr.ospf.toList.flatMap (·.passive)

namespace Node

/-- The nodes that a node depends on and its WireGuard peers. -/
def peerRefs (node : Node) : List Ref :=
  node.dependsOn.map .node ++ node.wireguard.toList.flatMap fun (_, wg) => wg.peers.map .node

/-- What a node mentions besides: bond members, VLAN parents, VXLAN underlays, VRF
interfaces, devices of routes, passive interfaces and those of NAT rules, all its own;
settings of peers and BGP neighbours. -/
def ownRefs (name : String) (node : Node) : List Ref :=
  let devs := fun (routes : BTreeMap String RouteConfig) => routes.toList.filterMap fun (_, r) => r.dev
  (node.interfaces.toList.flatMap fun (_, c) => (c.members ++ c.parent.toList ++ c.underlay.toList).map (.iface name)) ++
  (node.vrfs.toList.flatMap fun (_, v) => (v.interfaces ++ devs v.routes).map (.iface name)) ++
  (devs node.routes).map (.iface name) ++
  (node.nat.toList.flatMap fun nat => nat.rules.flatMap fun r => (r.iif.toList ++ r.oif.toList).map (.iface name)) ++
  (node.wireguard.toList.flatMap fun (_, wg) => wg.peerSettings.keys.map .node) ++
  node.frr.toList.flatMap fun frr => frr.passives.map (.iface name) ++ frr.refs

def refs (name : String) (node : Node) : List Ref := .node name :: node.peerRefs ++ node.ownRefs name

end Node

/-! ### Tests -/

def Assertion.refs : Assertion → List Ref
  | reach from' to' | noReach from' to' | tcpConnect from' to' .. | latencyUnder from' to' .. =>
      [.ofName from', .ofName to']
  | routeHas node _ _ dev => .node node :: (dev.map (.iface node)).toList
  | dnsResolves from' .. => [.ofName from']
  | counter node .. => [.node node]

def ReplayTarget.refs : ReplayTarget → List Ref
  | endpoint ep _ => (Ref.ofEndpoint ep).toList
  | pair _ src dst => [.node src, .node dst]

def ScenarioAction.refs : ScenarioAction → List Ref
  | down ep | up ep | clear ep | impair ep _ | partition ep _ | heal ep _ => (Ref.ofEndpoint ep).toList
  | validate assertions => assertions.flatMap (·.refs)
  | exec node _ => [.node node]
  | log _ => []
  | pairImpair _ src dst .. => [.node src, .node dst]
  | replay target .. => target.refs

def BenchmarkTest.refs : BenchmarkTest → List Ref
  | iperf3 from' to' .. | ping from' to' .. => [.ofName from', .ofName to']

namespace Topology

/-- What the lab mentions outside its nodes, links, networks and traffic control: neighbours
of the lab's and of the profiles' routing daemons, impairments declared in one direction,
assertions, scenarios, benchmarks and sites. -/
def labRefs (t : Topology) : List Ref :=
  t.lab.frr.toList.flatMap (·.refs) ++
  (t.profiles.toList.flatMap fun (_, p) => p.frr.toList.flatMap (·.refs)) ++
  t.directionalImpairments.filterMap Ref.ofEndpoint ++
  t.assertions.flatMap (·.refs) ++
  (t.scenarios.flatMap fun s => s.steps.flatMap fun step => step.actions.flatMap (·.refs)) ++
  (t.benchmarks.flatMap fun b => b.tests.flatMap (·.refs)) ++
  t.sites.toList.flatMap fun (_, nodes) => nodes.map .node

/-- Everything a topology mentions. -/
def refs (t : Topology) : List Ref :=
  (t.nodes.toList.flatMap fun (name, node) => node.refs name) ++ t.links.flatMap (·.refs) ++
  (t.networks.toList.flatMap fun (_, net) => net.refs) ++
  (t.impairments.keys ++ t.rateLimits.keys ++ t.qdiscs.keys).filterMap Ref.ofEndpoint ++ t.labRefs

end Topology

/-! ### What is removed -/

/-- A removed node, and the ends of the removed links. -/
structure Removed where
  node : Option String
  ends : List String

namespace Removed

/-- Whether a mention is of what is removed. -/
def hits (R : Removed) : Ref → Bool
  | .node n => R.node = some n
  | .iface n i => R.node = some n ∨ n ++ ":" ++ i ∈ R.ends

/-- Whether a text mentions an endpoint that is removed. -/
def hitsEndpoint (R : Removed) (s : String) : Bool := (Ref.ofEndpoint s).any R.hits

/-- Whether a port is dropped: it is named by an endpoint of the removed node. -/
def dropsPort (R : Removed) (key : String) : Bool := (EndpointRef.parse key).any fun ep => R.node = some ep.node

end Removed

namespace Edit

/-- What a removal removes of a topology. -/
def removed (t : Topology) : Edit → Removed
  | .removeNode name => { node := some name, ends := linkEnds t.links (Edit.touches name) }
  | .removeLink ep => { node := none, ends := (key ep).toOption.elim [] fun k => linkEnds t.links (·.has k) }
  | _ => { node := none, ends := [] }

/-- Whether an edit removes a node or a link. -/
def isRemoval : Edit → Bool
  | .removeNode _ | .removeLink _ => true
  | _ => false

end Edit

namespace Topology

/-- What a topology mentions in the places that a removal passes over: ports that are not
named by an endpoint of the removed node, and what remaining nodes and the lab mention. -/
def passedRefs (R : Removed) (t : Topology) : List Ref :=
  (t.networks.toList.flatMap fun (_, net) =>
    net.ports.toList.flatMap fun (key, port) => if R.dropsPort key then [] else port.refs key) ++
  (t.nodes.toList.flatMap fun (name, node) => if R.node = some name then [] else node.ownRefs name) ++ t.labRefs

end Topology

/-- A node without the entries that a removal drops. -/
def Node.without (R : Removed) (node : Node) : Node :=
  { node with
    dependsOn := node.dependsOn.filter fun d => !R.hits (.node d)
    wireguard := node.wireguard.map fun _ wg => { wg with peers := wg.peers.filter fun p => !R.hits (.node p) } }

/-- A network without the entries that a removal drops. -/
def Network.without (R : Removed) (net : Network) : Network :=
  { net with
    members := net.members.filter fun m => !R.hitsEndpoint m
    ports := net.ports.filter fun k _ => !R.dropsPort k
    impairments := net.impairments.filter fun i => !i.refs.any R.hits }

namespace Topology

/-- A removal drops the entries that mention what is removed, and leaves the rest. -/
structure Unchanged (R : Removed) (t t' : Topology) : Prop where
  /-- The rest of the topology is as it was. -/
  lab : t' = { t with
    nodes := t'.nodes, links := t'.links, networks := t'.networks, impairments := t'.impairments,
    rateLimits := t'.rateLimits, qdiscs := t'.qdiscs }
  nodes : ∀ m : String, t'.nodes[m]? = if R.node = some m then none else t.nodes[m]?.map (Node.without R)
  links : t'.links = t.links.filter fun l => !l.refs.any R.hits
  networks : ∀ k : String, t'.networks[k]? = t.networks[k]?.map (Network.without R)
  impairments : ∀ k : String, t'.impairments[k]? = if R.hitsEndpoint k then none else t.impairments[k]?
  rateLimits : ∀ k : String, t'.rateLimits[k]? = if R.hitsEndpoint k then none else t.rateLimits[k]?
  qdiscs : ∀ k : String, t'.qdiscs[k]? = if R.hitsEndpoint k then none else t.qdiscs[k]?

/-- A removal leaves no mention of what it removes and all else as it was, so that a node
added later under the removed name is mentioned by nothing. -/
structure CleanRemoval (R : Removed) (t t' : Topology) : Prop where
  mentions : ∀ ref ∈ t'.refs, R.hits ref = false
  unchanged : Unchanged R t t'
  addedAgain : ∀ name profile t'', R.node = some name → t'.addNode name profile = .ok t'' →
    t''.nodes[name]? = some { profiles := profile.toList } ∧ ∀ ref ∈ t''.refs, R.hits ref → ref = .node name

end Topology

end NlinkLab
