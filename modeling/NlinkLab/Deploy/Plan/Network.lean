import NlinkLab.Deploy.Plan.Process

/-! A node's links, interfaces, addresses and routes as a `NetworkConfig`
(`deploy/plan/network.rs`). -/

namespace NlinkLab

/-- What the netlink library makes of the texts it is given: why it refuses an
address, a route or the rules of a per-pair tree, which per-device settings it
knows, and how it reads a loss model. -/
structure Nlink where
  address : String → Option String
  route : DeclaredRoute → Option String
  perPair : (iface : String) → List PeerImpairment → Option NetemConfig → Option String
  ipv4Devconf : String → Bool
  ipv6Devconf : String → Bool
  lossModel : List String → Except String (Option LossModel)

namespace InterfaceConfig

/-- Whether the interface is a link the node's stack declares. -/
def isDeclaredKind (c : InterfaceConfig) : Bool :=
  c.kind ∈ [some .dummy, some .bond, some .vxlan, some .vlan]

end InterfaceConfig

/-- Who enslaves whom: bond members, then VRF interfaces, which win. -/
def Node.masters (node : Node) : BTreeMap String String :=
  let masters := node.interfaces.toList.foldl (fun m (bond, c) =>
    if c.kind = some .bond then c.members.foldl (fun m member => m.insert member bond) m else m) ∅
  node.vrfs.toList.foldl (fun m (vrf, c) =>
    c.interfaces.foldl (fun m iface => m.insert iface vrf) m) masters

/-! ### Links -/

/-- A parentless link an interface declares, if it is one. -/
def declareParentless (nodeName : String) (masters : BTreeMap String String) (name : String)
    (c : InterfaceConfig) : Except Error (Option DeclaredLink) :=
  let master := masters[name]?
  match c.kind with
  | some .dummy => .ok (some { name, kind := .dummy, mtu := c.mtu, master })
  | some .bond => .ok (some { name, kind := .bond c.bond, mtu := c.mtu, master })
  | some .vxlan => do
    let some vni := c.vni
      | throw (.invalidTopology
          ("vxlan interface '" ++ name ++ "' on node '" ++ nodeName ++ "' missing vni"))
    let parseUnderlay := fun (what v : String) =>
      match IpAddr.parse v with
      | some ip => Except.ok ip
      | none => .error (.invalidTopology ("bad vxlan " ++ what ++ " address '" ++ v ++ "' on '" ++
          nodeName ++ ":" ++ name ++ "': invalid IP address syntax"))
    let local' ← c.local'.mapM (parseUnderlay "local")
    let remote ← c.remote.mapM (parseUnderlay "remote")
    return some
      { name, kind := .vxlan vni local' remote c.port c.underlay, mtu := c.mtu, master }
  | _ => .ok none

/-- The VLAN an interface declares, if it is one. -/
def declareVlan (nodeName : String) (masters : BTreeMap String String) (name : String)
    (c : InterfaceConfig) : Except Error (Option DeclaredLink) :=
  let missing := fun (what : String) => Error.invalidTopology
    ("vlan interface '" ++ name ++ "' on node '" ++ nodeName ++ "' missing " ++ what)
  match c.kind with
  | some .vlan =>
    match c.parent, c.vni with
    | none, _ => .error (missing "parent")
    | some _, none => .error (missing "vni (VLAN ID)")
    | some parent, some vni => .ok (some
        { name, kind := .vlan parent vni.toUInt16 c.vlanProtocol, mtu := c.mtu,
          master := masters[name]? })
  | _ => .ok none

/-- Collect what each entry of a list declares, in order; the first error ends it. -/
def collect {A B : Type} (f : A → Except Error (Option B)) (l : List A) : Except Error (List B) :=
  (l.mapM f).map (·.filterMap id)

/-- The links of a node: the parentless ones, the VRFs, the VLANs, then members
declared nowhere else. -/
def declareLinks (nodeName : String) (node : Node) : Except Error (List DeclaredLink) := do
  let masters := node.masters
  let parentless ← collect (fun (name, c) => declareParentless nodeName masters name c)
    node.interfaces.toList
  let vrfs := node.vrfs.toList.map fun (name, c) =>
    { name, kind := .vrf c.table : DeclaredLink }
  let vlans ← collect (fun (name, c) => declareVlan nodeName masters name c) node.interfaces.toList
  let declared := fun (iface : String) =>
    (node.interfaces[iface]?.any (·.isDeclaredKind)) || node.vrfs.contains iface
  let members := masters.toList.filterMap fun (iface, master) =>
    if declared iface then none else some { name := iface, kind := .enslaved, master := some master }
  return parentless ++ vrfs ++ vlans ++ members

/-! ### Settings of declared links -/

/-- The link and setting a sysctl names, when it is a per-interface key of an
interface the node declares and can be set with it. -/
def linkDevconf (nl : Nlink) (node : Node) (key value : String) : Option (String × LinkDevconf) := do
  let (v6, rest) ← [("net.ipv4.conf.", false), ("net/ipv4/conf/", false),
      ("net.ipv6.conf.", true), ("net/ipv6/conf/", true)].findSome?
    fun (lead, v6) => (stripPrefix lead key).map fun rest => (v6, rest)
  let sep := if '/' ∈ key.toList then '/' else '.'
  let (iface, name) ← rsplitOnce rest sep
  if node.vrfs.contains iface ∨ node.interfaces[iface]?.any (·.isDeclaredKind) then
    let value := trim value
    if v6 then
      if nl.ipv6Devconf name then (parseI32 value).map fun v => (iface, { v6, name, value := v })
      else none
    else
      if nl.ipv4Devconf name then
        (parseUnsigned (2 ^ 32) value).toOption.map fun v => (iface, { v6, name, value := v })
      else none
  else none

/-! ### Addresses -/

/-- The addresses of a node, each with its interface and what an error calls it. -/
def declaredAddresses (t : Topology) (nodeName : String) (node : Node) :
    List (String × String × String) :=
  let onLinks := t.links.flatMap fun link =>
    match link.addresses with
    | none => []
    | some (a, b) => [(link.endpoints.1, a), (link.endpoints.2, b)].filterMap fun (ep, addr) =>
        (EndpointRef.parse ep).bind fun ep =>
          if ep.node = nodeName then some ("", ep.iface, addr) else none
  let onPorts := t.networks.toList.flatMap fun (_, network) =>
    network.ports.toList.flatMap fun (key, port) =>
      let owner := match EndpointRef.parse key with
        | some ep => some (ep.node, ep.iface)
        | none => port.interface.map fun iface => (key, iface)
      match owner with
      | none => []
      | some (portNode, iface) =>
        if portNode = nodeName then port.addresses.map fun addr => ("", iface, addr) else []
  let on := fun (what name : String) (addresses : List String) =>
    addresses.map fun addr => (what, name, addr)
  onLinks ++
    (node.interfaces.toList.flatMap fun (name, c) => on "" name c.addresses) ++
    onPorts ++
    (node.wireguard.toList.flatMap fun (name, c) => on "WireGuard " name c.addresses) ++
    (node.wifi.flatMap fun w => on "WiFi " w.name w.addresses) ++
    (node.macvlans.flatMap fun m => on "macvlan " m.name m.addresses) ++
    (node.ipvlans.flatMap fun i => on "ipvlan " i.name i.addresses)

def declareAddresses (nl : Nlink) (t : Topology) (nodeName : String) (node : Node) :
    Except Error (List (String × String)) :=
  (declaredAddresses t nodeName node).mapM fun (what, iface, addr) =>
    match nl.address addr with
    | none => .ok (iface, addr)
    | some e => .error (.deployFailed ("invalid address '" ++ addr ++ "' on " ++ what ++ "'" ++
        nodeName ++ ":" ++ iface ++ "': " ++ e))

/-! ### Routes -/

/-- `default` is `0.0.0.0/0` or `::/0`, a bare address a host route; the family
is taken from the destination or the gateway. -/
def normalizeDest (dest : String) (route : RouteConfig) : String :=
  let viaV6 := (route.via.bind IpAddr.parse).any (·.isIpv6)
  let isV6 := viaV6 || (dest ≠ "default" && ':' ∈ dest.toList)
  if dest = "default" then if isV6 then "::/0" else "0.0.0.0/0"
  else if '/' ∉ dest.toList then dest ++ (if isV6 then "/128" else "/32")
  else dest

theorem normalizeDest_of_slash {dest : String} (h : '/' ∈ dest.toList) (route : RouteConfig) :
    normalizeDest dest route = dest := by
  have hne : dest ≠ "default" := by
    rintro rfl
    exact absurd h (by decide)
  unfold normalizeDest
  rw [if_neg hne, if_neg (not_not.mpr h)]

def pushRoute (nl : Nlink) (nodeName dest : String) (route : RouteConfig) (table : Option UInt32) :
    Except Error DeclaredRoute :=
  let declared : DeclaredRoute :=
    { dst := normalizeDest dest route, via := route.via, dev := route.dev, metric := route.metric,
      table }
  match nl.route declared with
  | none => .ok declared
  | some e => .error (.deployFailed
      ("invalid route '" ++ dest ++ "' on node '" ++ nodeName ++ "': " ++ e))

/-- A node's own routes, the automatic ones that fill gaps, and those of its VRFs. -/
def declareRoutes (nl : Nlink) (nodeName : String) (node : Node)
    (autoRoutes : Option (BTreeMap String RouteConfig)) : Except Error (List DeclaredRoute) := do
  let push := fun (table : Option UInt32) ((dest, route) : String × RouteConfig) =>
    pushRoute nl nodeName dest route table
  let own ← node.routes.toList.mapM (push none)
  let auto ← ((autoRoutes.getD ∅).toList.filter fun (dest, _) => !node.routes.contains dest).mapM
    (push none)
  let vrfs ← node.vrfs.toList.mapM fun (_, c) => c.routes.toList.mapM (push (some c.table))
  return own ++ auto ++ vrfs.flatten

/-- Everything a node's stack declares except traffic control. -/
def topologyToNetworkConfig (nl : Nlink) (nodeName : String) (node : Node) (t : Topology)
    (autoRoutes : Option (BTreeMap String RouteConfig)) : Except Error NetworkConfig := do
  let links ← declareLinks nodeName node
  let devconf := (t.effectiveSysctls node).toList.filterMap fun (k, v) => linkDevconf nl node k v
  let addresses ← declareAddresses nl t nodeName node
  let routes ← declareRoutes nl nodeName node autoRoutes
  return { links, devconf, addresses, routes }

end NlinkLab
