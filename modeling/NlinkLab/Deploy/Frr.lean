import NlinkLab.Data.Text
import NlinkLab.Deploy.Op

/-! FRR routing daemons for router nodes (`frr.rs`): which nodes run them, and
the texts of their configuration. -/

namespace NlinkLab

/-- The FRR configuration a node runs: its own, else its last profile's with
one, else the lab's when the node forwards IPv4. -/
def Topology.effectiveFrr (t : Topology) (node : Node) : Option FrrConfig :=
  if t.lab.routing ≠ .frr ∨ node.isContainer then none
  else match node.frr with
    | some f => some f
    | none =>
      match node.profiles.reverse.findSome? fun name => (t.profiles[name]?).bind (·.frr) with
      | some f => some f
      | none => if (t.effectiveSysctls node)["net.ipv4.ip_forward"]? = some "1" then t.lab.frr else none

namespace Daemon

def name : Daemon → String
  | zebra => "zebra"
  | ospfd => "ospfd"
  | bgpd => "bgpd"

end Daemon

/-- The first part of a CIDR, as an address. -/
def hostPart (cidr : String) : Option IpAddr := IpAddr.parse (before '/' cidr)

def isV4 (cidr : String) : Bool := (hostPart cidr).any (·.isIpv4)

/-- The nodes that run FRR. -/
def frrNodes (t : Topology) : List String :=
  t.nodes.toList.filterMap fun (name, node) => if (t.effectiveFrr node).isSome then some name else none

namespace Frr

/-! ### Names and segments -/

/-- A lab's and node's own directory of sockets, short enough for their paths. -/
def pathspace (namespaceName : String) : String :=
  let cleaned := namespaceName.toList.map fun c =>
    if isAsciiAlphanumeric c ∨ c = '-' ∨ c = '_' then c else '_'
  let full := "nl-" ++ String.ofList cleaned
  if full.utf8ByteSize ≤ 60 then full
  else
    let h := namespaceName.toUTF8.data.toList.foldl (fun h b => h * 33 ^^^ b.toUInt32)
      (5381 : UInt32)
    "nl-" ++ String.ofList ((IpAddr.digits 16 8 h.toNat).map Nat.digitChar) ++ "-" ++
      String.ofList (cleaned.take 40)

/-- One segment a node is attached to; `p2p` is a link of two nodes. -/
structure IfaceAddrs where
  name : String
  addrs : List String
  peers : List String
  p2p : Bool

/-- The node's interfaces with their IPv4 addresses and segment peers. -/
def nodeInterfaces (t : Topology) (nodeName : String) : List IfaceAddrs :=
  let onLinks := t.links.flatMap fun link =>
    match link.addresses, EndpointRef.parse link.endpoints.1, EndpointRef.parse link.endpoints.2 with
    | some (addrA, addrB), some a, some b =>
      [(a, b, addrA), (b, a, addrB)].filterMap fun (me, other, addr) =>
        if me.node = nodeName ∧ isV4 addr then
          some { name := me.iface, addrs := [addr], peers := [other.node], p2p := true }
        else none
    | _, _, _ => []
  let onNetworks := t.networks.toList.flatMap fun (_, network) =>
    let members := network.ports.keys.filterMap EndpointRef.parse
    network.ports.toList.filterMap fun (key, port) =>
      match EndpointRef.parse key with
      | none => none
      | some ep =>
        let addrs := port.addresses.filter isV4
        if ep.node ≠ nodeName ∨ addrs = [] then none
        else some
          { name := ep.iface, addrs, p2p := false
            peers := (members.filter (·.node ≠ nodeName)).map (·.node) }
  (onLinks ++ onNetworks).insertionSort fun a b => a.name ≤ b.name

/-- An address of one lies in a prefix of the other. -/
def sameSegment (a b : IfaceAddrs) : Bool :=
  a.addrs.any fun x =>
    match parseCidr x with
    | .error _ => false
    | .ok (net, len) => b.addrs.any fun y => (hostPart y).any fun ip => ipInSubnet ip net len

/-- A BGP neighbour's address and AS number. -/
def resolveBgpNeighbor (t : Topology) (nodeName : String) (nb : BgpNeighbor) :
    Except Error (IpAddr × UInt32) := do
  let neighbor := "bgp neighbor '" ++ nb.node ++ "' of '" ++ nodeName ++ "'"
  let some peer := t.nodes[nb.node]? | throw (.invalidTopology (neighbor ++ " is not a node"))
  if nb.node = nodeName then
    throw (.invalidTopology ("bgp neighbor of '" ++ nodeName ++ "' cannot be the node itself"))
  let remoteAs ← match nb.remoteAs with
    | some asn => pure asn
    | none =>
      match (t.effectiveFrr peer).bind (·.bgp) with
      | some bgp => pure bgp.asn
      | none => throw (.invalidTopology (neighbor ++ " has no `bgp { as … }`; give `as N` explicitly"))
  match nb.remote with
  | some ip =>
    match IpAddr.parse ip with
    | some addr => return (addr, remoteAs)
    | none => throw (.invalidTopology
        (neighbor ++ ": bad remote address '" ++ ip ++ "': invalid IP address syntax"))
  | none =>
    let mine := (nodeInterfaces t nodeName).filter fun m => nb.node ∈ m.peers
    let theirs := (nodeInterfaces t nb.node).filter fun i => nodeName ∈ i.peers
    let candidates := mine.flatMap fun m => theirs.flatMap fun i =>
      if sameSegment m i then i.addrs.filterMap hostPart else []
    match candidates.destutter (· ≠ ·) with
    | [addr] => return (addr, remoteAs)
    | [] => throw (.invalidTopology (neighbor ++ " shares no addressed segment; give `remote IP`"))
    | _ => throw (.invalidTopology
        (neighbor ++ " is reachable on several segments; give `remote IP`"))

/-- The first `lo` address, else the lowest IPv4 address of the node. -/
def defaultRouterId (node : Node) (ifaces : List IfaceAddrs) : Option String :=
  let lo := (node.interfaces["lo"]?.map (·.addresses)).getD []
  match lo.find? isV4 with
  | some addr => some (before '/' addr)
  | none =>
    let ips := (ifaces.flatMap (·.addrs)).filterMap fun addr =>
      match hostPart addr with
      | some (.v4 bits) => some bits.toNat
      | _ => none
    (ips.insertionSort (· ≤ ·)).head?.map IpAddr.displayV4

/-! ### Texts -/

def header (hostname : String) : String := "frr defaults traditional\nhostname " ++ hostname ++ "\n!\n"

def generateZebraConf (hostname : String) : String := header hostname ++ "line vty\n"

/-- The interface lines have a name, whether it is passive and whether point-to-point. -/
def generateOspfdConf (hostname : String) (ifaceLines : List (String × Bool × Bool))
    (ospf : OspfConfig) (routerId : Option String) : String :=
  let area := ospf.area.getD "0.0.0.0"
  let ifaces := ifaceLines.map fun (name, passive, p2p) =>
    "interface " ++ name ++ "\n ip ospf area " ++ area ++ "\n" ++
    (if p2p then " ip ospf network point-to-point\n" else "") ++
    (if passive then " ip ospf passive\n" else "") ++
    (ospf.hello.elim "" fun h => " ip ospf hello-interval " ++ toString h ++ "\n") ++
    (ospf.dead.elim "" fun d => " ip ospf dead-interval " ++ toString d ++ "\n") ++ "!\n"
  header hostname ++ String.join ifaces ++ "router ospf\n" ++
    (routerId.elim "" fun id => " ospf router-id " ++ id ++ "\n") ++
    String.join (ospf.redistribute.map fun r => " redistribute " ++ r ++ "\n") ++ "!\nline vty\n"

def generateBgpdConf (hostname : String) (bgp : BgpConfig) (neighbors : List (IpAddr × UInt32))
    (routerId : Option String) : String :=
  let family := fun (nets : List String) (addrs : List IpAddr) =>
    String.join (nets.map fun n => "  network " ++ n ++ "\n") ++
    String.join (bgp.redistribute.map fun r => "  redistribute " ++ r ++ "\n") ++
    String.join (addrs.map fun addr => "  neighbor " ++ toString addr ++ " activate\n") ++
    " exit-address-family\n"
  let nets6 := bgp.networks.filter (':' ∈ ·.toList)
  let nets4 := bgp.networks.filter (':' ∉ ·.toList)
  let neighbors6 := (neighbors.map (·.1)).filter (·.isIpv6)
  header hostname ++ "router bgp " ++ toString bgp.asn ++ "\n" ++
    (routerId.elim "" fun id => " bgp router-id " ++ id ++ "\n") ++
    " no bgp ebgp-requires-policy\n" ++
    (if bgp.networks = [] then "" else " no bgp network import-check\n") ++
    String.join (neighbors.map fun (addr, asn) =>
      " neighbor " ++ toString addr ++ " remote-as " ++ toString asn ++ "\n") ++
    " !\n address-family ipv4 unicast\n" ++
    family nets4 ((neighbors.map (·.1)).filter (·.isIpv4)) ++
    (if nets6 ≠ [] ∨ neighbors6 ≠ [] then
      " !\n address-family ipv6 unicast\n" ++ family nets6 neighbors6
    else "") ++ "!\nline vty\n"

/-- One file with every daemon's section. -/
def generateIntegrated (hostname : String) (confs : List (Daemon × String)) : String :=
  let kept := fun (line : String) =>
    (stripPrefix "frr defaults" line).isNone ∧ (stripPrefix "hostname " line).isNone ∧
      line ≠ "line vty"
  header hostname ++ String.join (confs.map fun (d, text) =>
    "! ---- " ++ d.name ++ "\n" ++
      String.join (((lines text).filter (kept ·)).map (· ++ "\n"))) ++ "line vty\n"

/-! ### A node's daemons -/

/-- The OSPF interface lines of a node and the adjacencies it is expected to
bring up; an interface is passive when no OSPF router sits on its segment. -/
def ospfLines (t : Topology) (node : Node) (ospf : OspfConfig) (ifaces : List IfaceAddrs) :
    List (String × Bool × Bool) × Nat :=
  let speaksOspf := fun (r : String) =>
    ((t.nodes[r]?.bind t.effectiveFrr).bind (·.ospf)).isSome
  let ospfRouters := (frrNodes t).filter speaksOspf
  let onSegments := ifaces.map fun i =>
    let peers := (i.peers.filter (· ∈ ospfRouters)).length
    let passive := i.name ∈ ospf.passive ∨ peers = 0
    ((i.name, decide passive, i.p2p), if passive then 0 else if i.p2p then peers else min peers 2)
  let segmentLines := onSegments.map (·.1)
  -- then the node's own interfaces; loopbacks and dummies are passive
  let own := node.interfaces.toList.filterMap fun (name, c) =>
    if (segmentLines.any (·.1 = name)) ∨ ¬ c.addresses.any isV4 then none
    else
      let stub := name = "lo" ∨ c.kind = some .dummy ∨ c.kind = some .loopback
      some (name, decide (stub ∨ name ∈ ospf.passive), false)
  (segmentLines ++ own, (onSegments.map (·.2)).sum)

/-- The daemon configurations of a node. -/
def buildSpec (t : Topology) (nodeName : String) (node : Node) (cfg : FrrConfig) :
    Except Error FrrNodeSpec := do
  let ifaces := nodeInterfaces t nodeName
  let routerId := fun (own : Option String) => own <|> defaultRouterId node ifaces
  let (ospfConf, expectedOspfNeighbors) := match cfg.ospf with
    | none => ([], 0)
    | some ospf =>
      let (ifaceLines, expected) := ospfLines t node ospf ifaces
      ([(Daemon.ospfd, generateOspfdConf nodeName ifaceLines ospf (routerId ospf.routerId))], expected)
  let (bgpConf, expectedBgpPeers) ← match cfg.bgp with
    | none => pure ([], 0)
    | some bgp => do
      let neighbors ← bgp.neighbors.mapM (resolveBgpNeighbor t nodeName)
      pure ([(Daemon.bgpd, generateBgpdConf nodeName bgp neighbors (routerId bgp.routerId))],
        neighbors.length)
  let confs := (Daemon.zebra, generateZebraConf nodeName) :: ospfConf ++ bgpConf
  return {
    pathspace := pathspace (t.namespaceName nodeName)
    daemons := confs.map (·.1)
    confs
    integrated := generateIntegrated nodeName confs
    expectedOspfNeighbors
    expectedBgpPeers }

end Frr

end NlinkLab
