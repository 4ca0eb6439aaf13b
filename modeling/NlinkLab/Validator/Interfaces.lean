import NlinkLab.Data.Text
import NlinkLab.Names

/-! Topology validation (`validator.rs`): what an issue is, where a node's
interfaces come from, and the rules on names, references and addresses. Each
rule returns the issues it finds. -/

namespace NlinkLab

inductive Severity where
  | error | warning
  deriving DecidableEq

/-- A validation issue. -/
structure ValidationIssue where
  severity : Severity
  rule : String
  message : String
  location : Option String
  deriving DecidableEq

namespace Validator

def error (rule message location : String) : ValidationIssue :=
  { severity := .error, rule, message, location := some location }

def warning (rule message location : String) : ValidationIssue :=
  { severity := .warning, rule, message, location := some location }

/-! ### Interfaces -/

/-- Where an interface of a node comes from. -/
inductive InterfaceSource where
  | explicit | link (i : Nat) | network (name : String) | wireguard | macvlan | ipvlan | wifi | vrf
  | mgmt
  deriving DecidableEq

def InterfaceSource.display : InterfaceSource → String
  | explicit => "interfaces"
  | link i => "links[" ++ toString i ++ "]"
  | network n => "networks." ++ n
  | wireguard => "wireguard"
  | macvlan => "macvlans"
  | ipvlan => "ipvlans"
  | wifi => "wifi"
  | vrf => "vrfs"
  | mgmt => "mgmt"

/-- An interface: its node, its name and where it comes from. -/
abbrev Sourced := String × String × InterfaceSource

/-- The interfaces a node declares. -/
def nodeSources (node : Node) : List (String × InterfaceSource) :=
  node.interfaces.keys.map (·, .explicit) ++ node.wireguard.keys.map (·, .wireguard) ++
  node.macvlans.map (fun m => (m.name, .macvlan)) ++ node.ipvlans.map (fun i => (i.name, .ipvlan)) ++
  node.wifi.map (fun w => (w.name, .wifi)) ++ node.vrfs.keys.map (·, .vrf)

/-- The ends of links. -/
def linkSources (t : Topology) : List Sourced :=
  t.links.zipIdx.flatMap fun (link, i) =>
    [link.endpoints.1, link.endpoints.2].filterMap fun ep =>
      (EndpointRef.parse ep).map fun ep => (ep.node, ep.iface, .link i)

/-- The members of networks. -/
def networkSources (t : Topology) : List Sourced :=
  t.networks.toList.flatMap fun (name, network) =>
    network.members.filterMap fun member =>
      (EndpointRef.parse member).map fun ep => (ep.node, ep.iface, .network name)

/-- All interfaces of all nodes; of several of one name, the first. -/
def collectInterfaces (t : Topology) : BTreeMap String (BTreeMap String InterfaceSource) :=
  let declared := t.nodes.toList.flatMap fun (name, node) => (nodeSources node).map (name, ·)
  (declared ++ linkSources t ++ networkSources t).foldl
    (fun m (node, iface, source) => m.insert node ((m[node]?.getD ∅).insertIfNew iface source))
    (t.nodes.map fun _ _ => ∅)

/-- Whether a node has an interface. -/
def hasIface (t : Topology) (node iface : String) : Bool :=
  (collectInterfaces t)[node]?.any (·.contains iface)

/-! ### Names -/

/-- A literal `${…}` left in a value. -/
def isUnresolved (value : String) : Bool := ['$', '{'] <:+: value.toList

def checkUnresolved (value location : String) : Option ValidationIssue :=
  if isUnresolved value then
    some (error "unresolved-interpolation"
      ("'" ++ value ++ "' contains an unresolved $\x7b…\x7d interpolation") location)
  else none

/-- `[A-Za-z0-9_][A-Za-z0-9_.-]*`. -/
def isValidName (name : String) : Bool :=
  match name.toList with
  | [] => false
  | c :: cs => (isAsciiAlphanumeric c ∨ c = '_') ∧
    cs.all fun c => isAsciiAlphanumeric c ∨ c = '_' ∨ c = '.' ∨ c = '-'

def checkName (kind name location : String) : Option ValidationIssue :=
  match checkUnresolved name location with
  | some issue => some issue
  | none =>
    if isValidName name then none
    else some (error "invalid-name"
      (kind ++ " name '" ++ name ++ "' is invalid: must match [A-Za-z0-9_][A-Za-z0-9_.-]*") location)

/-- Lab, prefix, profile, node, VRF, network and interface names. -/
def validateNames (t : Topology) : List ValidationIssue :=
  (checkName "lab" t.lab.name "lab.name").toList ++
  (t.lab.labPrefix.bind fun p => checkName "prefix" p "lab.prefix").toList ++
  (t.profiles.keys.filterMap fun name => checkName "profile" name ("profiles." ++ name)) ++
  (t.nodes.toList.flatMap fun (name, node) =>
    (checkName "node" name ("nodes." ++ name)).toList ++
      node.vrfs.keys.filterMap fun vrf =>
        checkName "VRF" vrf ("nodes." ++ name ++ ".vrfs." ++ vrf)) ++
  (t.networks.keys.filterMap fun name => checkName "network" name ("networks." ++ name)) ++
  (collectInterfaces t).toList.flatMap fun (node, ifaces) =>
    ifaces.keys.filterMap fun iface => checkName "interface" iface ("nodes." ++ node ++ "." ++ iface)

/-- The rules of an interface name: 1 to 15 bytes, no slash or white space, not a dot or two. -/
def validateInterfaceName (name : String) : Option String :=
  if name = "" then some "interface name is empty"
  else if 15 < name.utf8ByteSize then
    some ("interface name '" ++ name ++ "' is " ++ toString name.utf8ByteSize ++ " chars (max 15)")
  else if name = "." ∨ name = ".." then some ("interface name '" ++ name ++ "' is reserved")
  else if '/' ∈ name.toList ∨ name.toList.any isWhitespace then
    some ("interface name '" ++ name ++ "' contains invalid characters")
  else none

def validateInterfaceNameLength (t : Topology) : List ValidationIssue :=
  (collectInterfaces t).toList.flatMap fun (node, ifaces) =>
    ifaces.keys.filterMap fun iface =>
      (validateInterfaceName iface).map fun why => error "interface-name-length"
        ("on node '" ++ node ++ "': " ++ why) ("nodes." ++ node ++ "." ++ iface)

/-! ### References -/

def checkEndpoint (ep location : String) : Option ValidationIssue :=
  if (EndpointRef.parse ep).isNone then
    some (error "endpoint-format"
      ("invalid endpoint '" ++ ep ++ "': expected 'node:interface' format") location)
  else none

/-- The endpoints of links, each with where it is. -/
def linkEndpoints (t : Topology) : List (String × String) :=
  t.links.zipIdx.flatMap fun (link, i) =>
    [(link.endpoints.1, "links[" ++ toString i ++ "].endpoints[0]"),
     (link.endpoints.2, "links[" ++ toString i ++ "].endpoints[1]")]

/-- The keys of impairments and rate limits. -/
def tcEndpoints (t : Topology) : List (String × String) :=
  t.impairments.keys.map (fun key => (key, "impairments.\"" ++ key ++ "\"")) ++
    t.rateLimits.keys.map fun key => (key, "rate_limits.\"" ++ key ++ "\"")

/-- The members of networks. -/
def memberEndpoints (t : Topology) : List (String × String) :=
  t.networks.toList.flatMap fun (name, network) => network.members.zipIdx.map fun (member, k) =>
    (member, "networks." ++ name ++ ".members[" ++ toString k ++ "]")

def validateEndpointFormat (t : Topology) : List ValidationIssue :=
  (linkEndpoints t ++ tcEndpoints t ++ memberEndpoints t).filterMap fun (ep, location) =>
    checkEndpoint ep location

def checkNode (t : Topology) (node location : String) : Option ValidationIssue :=
  if t.nodes.contains node then none
  else some (error "dangling-node-ref" ("node '" ++ node ++ "' does not exist") location)

def checkEndpointNode (t : Topology) (ep location : String) : Option ValidationIssue :=
  (EndpointRef.parse ep).bind fun ep => checkNode t ep.node location

def validateDanglingNodeRefs (t : Topology) : List ValidationIssue :=
  ((linkEndpoints t ++ tcEndpoints t).filterMap fun (ep, location) => checkEndpointNode t ep location) ++
  t.networks.toList.flatMap fun (name, network) =>
    (network.members.zipIdx.filterMap fun (member, k) =>
      checkEndpointNode t member ("networks." ++ name ++ ".members[" ++ toString k ++ "]")) ++
    network.ports.keys.filterMap fun port =>
      -- a port is named by its node or its endpoint
      checkNode t (((EndpointRef.parse port).map (·.node)).getD port)
        ("networks." ++ name ++ ".ports." ++ port)

def validateDanglingProfileRefs (t : Topology) : List ValidationIssue :=
  t.nodes.toList.flatMap fun (name, node) => node.profiles.zipIdx.filterMap fun (profile, idx) =>
    if t.profiles.contains profile then none
    else some (error "dangling-profile-ref"
      ("profile '" ++ profile ++ "' referenced by node '" ++ name ++ "' does not exist")
      ("nodes." ++ name ++ ".profiles[" ++ toString idx ++ "]"))

/-- Every device a node gets, the management one too. -/
def allSources (t : Topology) : List Sourced :=
  (t.nodes.toList.flatMap fun (name, node) =>
    (nodeSources node ++ if t.lab.mgmtSubnet.isSome then [("mgmt0", InterfaceSource.mgmt)] else []).map (name, ·)) ++
  linkSources t ++ networkSources t

def validateInterfaceUniqueness (t : Topology) : List ValidationIssue :=
  (BTreeMap.group (allSources t)).toList.flatMap fun (node, ifaces) =>
    (BTreeMap.group ifaces).toList.filterMap fun (iface, sources) =>
      match sources with
      | a :: b :: _ => some (error "interface-uniqueness"
          ("duplicate interface '" ++ iface ++ "' on node '" ++ node ++ "' (from " ++ a.display ++
            " and " ++ b.display ++ ")") ("nodes." ++ node))
      | _ => none

/-- No endpoint in two links. -/
def validateDuplicateLinkEndpoints (t : Topology) : List ValidationIssue :=
  let endpoints := t.links.zipIdx.flatMap fun (link, i) => [(link.endpoints.1, i), (link.endpoints.2, i)]
  (endpoints.foldl (fun (issues, seen) (ep, i) =>
    match (seen : BTreeMap String Nat)[ep]? with
    | some prev => (issues ++ [error "duplicate-link-endpoint"
        ("endpoint '" ++ ep ++ "' used in both link " ++ toString prev ++ " and link " ++ toString i)
        ("links[" ++ toString i ++ "]")], seen.insert ep i)
    | none => (issues, seen.insert ep i)) (([] : List ValidationIssue), (∅ : BTreeMap String Nat))).1

/-! ### Addresses -/

/-- `auto[/N]`, the placeholder of a subnet allocated at deploy. -/
def parseAutoPlaceholder (s : String) : Option Nat :=
  if s = "auto" then some 24
  else (stripPrefix "auto/" s).bind fun rest => (parseUnsigned 256 rest).toOption

def checkCidr (addr location : String) : Option ValidationIssue :=
  match parseCidr addr with
  | .ok _ => none
  | .error e => some (error "valid-cidr" ("invalid CIDR '" ++ addr ++ "': " ++ e.display) location)

/-- The addresses of a field, each with where it is. -/
def located (field : String) (addresses : List String) : List (String × String) :=
  addresses.zipIdx.map fun (addr, k) => (addr, field ++ ".addresses[" ++ toString k ++ "]")

/-- Every address declared on a node. -/
def nodeAddresses (name : String) (node : Node) : List (String × String) :=
  let at' := "nodes." ++ name
  let indexed := fun (field : String) (addresses : List (List String)) =>
    addresses.zipIdx.flatMap fun (as, i) =>
      located (at' ++ "." ++ field ++ "[" ++ toString i ++ "]") as
  (node.interfaces.toList.flatMap fun (iface, c) => located (at' ++ ".interfaces." ++ iface) c.addresses) ++
  (node.wireguard.toList.flatMap fun (wg, c) => located (at' ++ ".wireguard." ++ wg) c.addresses) ++
  indexed "macvlans" (node.macvlans.map (·.addresses)) ++
  indexed "ipvlans" (node.ipvlans.map (·.addresses)) ++ indexed "wifi" (node.wifi.map (·.addresses))

def checkSubnet (subnet location : String) : Option ValidationIssue :=
  match parseAutoPlaceholder subnet with
  | some len => if len = 24 then none
    else some (error "valid-cidr"
      ("subnet '" ++ subnet ++ "': only auto/24 is allocated today") location)
  | none => checkCidr subnet location

def validateCidrs (t : Topology) : List ValidationIssue :=
  ((t.links.zipIdx.flatMap fun (link, i) =>
    (link.addresses.map fun (a, b) => located ("links[" ++ toString i ++ "]") [a, b]).getD []) ++
  t.nodes.toList.flatMap fun (name, node) => nodeAddresses name node).filterMap
    (fun (addr, location) => checkCidr addr location) ++
  t.networks.toList.flatMap fun (name, network) =>
    (network.ports.toList.flatMap fun (port, c) =>
      (located ("networks." ++ name ++ ".ports." ++ port) c.addresses).filterMap
        fun (addr, location) => checkCidr addr location) ++
    (network.subnet.bind fun subnet => checkSubnet subnet ("networks." ++ name ++ ".subnet")).toList

/-- Both ends of an addressed link sit in one subnet. -/
def validateLinkEndpointSubnets (t : Topology) : List ValidationIssue :=
  t.links.zipIdx.filterMap fun (link, i) =>
    link.addresses.bind fun (addrA, addrB) =>
      match parseCidr addrA, parseCidr addrB with
      | .ok (a, lenA), .ok (b, lenB) =>
        if lenA ≠ lenB ∨ networkAddress a lenA ≠ networkAddress b lenB then
          some (error "link-endpoints-same-subnet"
            ("link endpoints '" ++ addrA ++ "' and '" ++ addrB ++ "' are not in the same subnet")
            ("links[" ++ toString i ++ "].addresses"))
        else none
      | _, _ => none

/-- The management subnet has room for every node and the bridge. -/
def validateMgmtSubnet (t : Topology) : List ValidationIssue :=
  match t.lab.mgmtSubnet with
  | none => []
  | some mgmt =>
    match checkUnresolved mgmt "lab.mgmt", parseCidr mgmt with
    | some issue, _ => [issue]
    | none, .error e => [error "valid-cidr" ("invalid CIDR '" ++ mgmt ++ "': " ++ e.display) "lab.mgmt"]
    | none, .ok (ip, len) =>
      let needed := t.nodes.size + 1
      let usable := mgmtUsableHosts ip len
      let network := networkAddress ip len
      (if usable < needed then
        [error "mgmt-subnet-capacity"
          ("management subnet '" ++ mgmt ++ "' has " ++ toString usable ++
            " usable host addresses but " ++ toString needed ++ " are needed (" ++
            toString t.nodes.size ++ " nodes + bridge)") "lab.mgmt"]
      else []) ++
      if network ≠ ip then
        [warning "mgmt-subnet-not-network-address"
          ("management subnet '" ++ mgmt ++ "' is not a network address (expected " ++
            toString network ++ "/" ++ toString len ++ ")") "lab.mgmt"]
      else []

end Validator

end NlinkLab
