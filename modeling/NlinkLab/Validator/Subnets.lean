import NlinkLab.Validator.Interfaces

/-! The validator's rule on overlapping subnets (`validator.rs`): what owns each
subnet of the topology, and which two of them may meet. -/

namespace NlinkLab.Validator

/-- Who owns a subnet; addresses of one owner share it. Node-level interfaces are
one owner: their segments are joined by other means. -/
inductive SubnetOwner where
  | mgmt | link (i : Nat) | network (name : String) | interface
  deriving DecidableEq

/-- A subnet and the nodes its segment ends in, each with the VRF it has there. -/
structure SubnetEntry where
  net : IpAddr
  prefixLen : Nat
  owner : SubnetOwner
  location : String
  ends : List (String × Option String)

def SubnetEntry.cidr (e : SubnetEntry) : String := toString e.net ++ "/" ++ toString e.prefixLen

/-- The VRF an interface of a node is enslaved to, if any. -/
def vrfOf (t : Topology) (node iface : String) : Option String :=
  t.nodes[node]?.bind fun n =>
    (n.vrfs.toList.find? fun (_, v) => iface ∈ v.interfaces).map (·.1)

/-- An address as it is declared: what it belongs to and where it is. -/
structure Declared where
  addr : String
  owner : SubnetOwner
  location : String
  ends : List (String × Option String)

/-- Where endpoints end. -/
def endsOf (t : Topology) (endpoints : List String) : List (String × Option String) :=
  endpoints.filterMap fun e => (splitOnce e ':').bind fun (node, iface) =>
    if t.nodes.contains node then some (node, vrfOf t node iface) else none

/-- The addresses of a node's own interfaces. -/
def declaredOnNode (t : Topology) (name : String) (node : Node) : List Declared :=
  let on := fun (at' iface : String) (addresses : List String) =>
    addresses.zipIdx.map fun (addr, k) =>
      { addr, owner := .interface, location := at' ++ ".addresses[" ++ toString k ++ "]"
        ends := [(name, vrfOf t name iface)] : Declared }
  let at' := "nodes." ++ name ++ "."
  let indexed := fun (field : String) (l : List (String × List String)) =>
    l.zipIdx.flatMap fun ((iface, addresses), i) =>
      on (at' ++ field ++ "[" ++ toString i ++ "]") iface addresses
  (node.interfaces.toList.flatMap fun (iface, c) => on (at' ++ "interfaces." ++ iface) iface c.addresses) ++
  (node.wireguard.toList.flatMap fun (wg, c) => on (at' ++ "wireguard." ++ wg) wg c.addresses) ++
  indexed "macvlans" (node.macvlans.map fun m => (m.name, m.addresses)) ++
  indexed "ipvlans" (node.ipvlans.map fun i => (i.name, i.addresses)) ++
  indexed "wifi" (node.wifi.map fun w => (w.name, w.addresses))

/-- Every subnet and address the topology declares, in order. -/
def declaredSubnets (t : Topology) : List Declared :=
  (t.lab.mgmtSubnet.map fun mgmt =>
    { addr := mgmt, owner := .mgmt, location := "lab.mgmt", ends := [] : Declared }).toList ++
  (t.links.zipIdx.flatMap fun (link, i) =>
    match link.addresses with
    | none => []
    | some (a, b) => [a, b].zipIdx.map fun (addr, j) =>
        { addr, owner := .link i
          location := "links[" ++ toString i ++ "].addresses[" ++ toString j ++ "]"
          ends := endsOf t [link.endpoints.1, link.endpoints.2] }) ++
  (t.networks.toList.flatMap fun (name, network) =>
    let at' := "networks." ++ name
    let ends := endsOf t network.members
    (network.subnet.map fun subnet =>
      { addr := subnet, owner := .network name, location := at' ++ ".subnet", ends : Declared }).toList ++
    network.ports.toList.flatMap fun (port, c) => c.addresses.zipIdx.map fun (addr, k) =>
      { addr, owner := .network name, ends
        location := at' ++ ".ports." ++ port ++ ".addresses[" ++ toString k ++ "]" }) ++
  t.nodes.toList.flatMap fun (name, node) => declaredOnNode t name node

/-- One entry for each subnet and owner; what is no address is left out. -/
def pushSubnet (out : List SubnetEntry) (d : Declared) : List SubnetEntry :=
  match parseCidr d.addr with
  | .error _ => out
  | .ok (ip, prefixLen) =>
    let net := networkAddress ip prefixLen
    if out.any fun e => e.net = net ∧ e.prefixLen = prefixLen ∧ e.owner = d.owner then out
    else out ++ [{ net, prefixLen, owner := d.owner, location := d.location, ends := d.ends }]

def collectSubnets (t : Topology) : List SubnetEntry := (declaredSubnets t).foldl pushSubnet []

/-- The routing tables a segment has at a node. -/
def tablesAt (e : SubnetEntry) (node : String) : List (Option String) :=
  (e.ends.filter (·.1 = node)).map (·.2)

/-- Two segments with nodes in common, in other routing tables at each of them. -/
def apart (a b : SubnetEntry) : Bool :=
  let shared := (a.ends.map (·.1)).filter fun n => n ∈ b.ends.map (·.1)
  shared ≠ [] ∧ ∀ n ∈ shared, ∀ table ∈ tablesAt a n, table ∉ tablesAt b n

/-- Whether two subnets conflict. -/
def overlaps (a b : SubnetEntry) : Bool :=
  let own := SubnetOwner.interface
  !(a.owner ≠ own ∧ a.owner = b.owner) ∧
  networkAddress b.net (min a.prefixLen b.prefixLen) =
    networkAddress a.net (min a.prefixLen b.prefixLen) ∧
  !(a.prefixLen = b.prefixLen ∧ (a.owner = own ∨ b.owner = own)) ∧ !apart a b

/-- No two subnets of different owners meet. -/
def validateOverlappingSubnets (t : Topology) : List ValidationIssue :=
  let rec pairs : List SubnetEntry → List ValidationIssue
    | [] => []
    | a :: rest => (rest.filterMap fun b =>
        if overlaps a b then
          some (error "overlapping-subnets" ("subnet " ++ b.cidr ++ " overlaps " ++ a.cidr ++
            " (declared at " ++ a.location ++ ")") b.location)
        else none) ++ pairs rest
  pairs (collectSubnets t)

end NlinkLab.Validator
