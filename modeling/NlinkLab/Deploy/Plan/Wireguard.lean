import NlinkLab.Deploy.Plan.Network

/-! The WireGuard devices of a node (`deploy/plan/wireguard.rs`). Key material
is an input of the plan. -/

namespace NlinkLab

/-- The private and public key of each WireGuard interface of each node. -/
abbrev WgKeys := BTreeMap String (BTreeMap String (WgKey × WgKey))

namespace Wireguard

/-! ### Endpoints -/

/-- The address `peer` has on a link or network it shares with `node`. -/
def sharedSegmentEndpoint (t : Topology) (node peer : String) : Option IpAddr :=
  let cidr := fun (addr : String) => (parseCidr addr).toOption.map (·.1)
  let onLink := t.links.findSome? fun link => do
    let a ← EndpointRef.parse link.endpoints.1
    let b ← EndpointRef.parse link.endpoints.2
    let (addrA, addrB) ← link.addresses
    if a.node = node ∧ b.node = peer then cidr addrB
    else if a.node = peer ∧ b.node = node then cidr addrA
    else none
  let onNetwork := t.networks.toList.findSome? fun (_, network) => do
    let on := fun (n : String) =>
      network.members.find? fun m => (EndpointRef.parse m).any (·.node = n)
    let _ ← on node
    let port ← network.ports[← on peer]?
    cidr (← port.addresses.head?)
  onLink <|> onNetwork

/-- A reachable address of a node: the first on a link, else on an interface. -/
def findPeerEndpoint (t : Topology) (peer : String) : Option IpAddr :=
  let cidr := fun (addr : String) => (parseCidr addr).toOption.map (·.1)
  let onLink := t.links.findSome? fun link =>
    link.addresses.bind fun (addrA, addrB) =>
      [(link.endpoints.1, addrA), (link.endpoints.2, addrB)].findSome? fun (ep, addr) =>
        (EndpointRef.parse ep).bind fun ep => if ep.node = peer then cidr addr else none
  onLink <|> (t.nodes[peer]?).bind fun node =>
    node.interfaces.toList.findSome? fun (_, c) => c.addresses.findSome? cidr

/-- A port: a number after a colon that ends the text. -/
def readPort (cs : List Char) : Option Nat := do
  let cs ← IpAddr.readChar ':' cs
  let (port, rest) ← IpAddr.readNumber 10 cs.length true cs
  if rest = [] ∧ port < 2 ^ 16 then some port else none

/-- `IPv4:PORT` or `[IPv6%SCOPE]:PORT`, the scope optional. -/
def parseSocketAddr (s : String) : Option SocketAddr :=
  let v4 := do
    let (bits, cs) ← IpAddr.readIpv4 s.toList
    return { ip := .v4 bits, port := ← readPort cs }
  v4 <|> do
    let cs ← IpAddr.readChar '[' s.toList
    let (bits, cs) ← IpAddr.readIpv6 cs
    let (scope, cs) := (do
      let cs ← IpAddr.readChar '%' cs
      let (scope, cs) ← IpAddr.readNumber 10 cs.length true cs
      if scope < 2 ^ 32 then some (scope, cs) else none).getD (0, cs)
    let cs ← IpAddr.readChar ']' cs
    return { ip := .v6 bits, port := ← readPort cs, scope }

/-- A longhand peer's endpoint; without a port it has the default one. -/
def parseEndpoint (s : String) (defaultPort : Option UInt16) : Except Error SocketAddr :=
  match parseSocketAddr s with
  | some addr => .ok addr
  | none =>
    let inner := ((s.toList.dropWhile (· = '[')).reverse.dropWhile (· = ']')).reverse
    match IpAddr.parse (String.ofList inner), defaultPort with
    | none, _ => .error (.invalidTopology
        ("WireGuard endpoint '" ++ s ++ "': invalid IP address syntax"))
    | some _, none => .error (.invalidTopology ("WireGuard endpoint '" ++ s ++
        "' has no port, and the peer interface no `listen` port"))
    | some ip, some port => .ok { ip, port := port.toNat }

/-! ### Allowed IPs -/

/-- A prefix as an allowed IP: its network address; a bare address is a host route. -/
def allowedIp (pfx : String) : Option (IpAddr × Nat) :=
  let parsed := if pfx = "default" then some (.v4 0, 0) else
    (parseCidr pfx).toOption <|> (IpAddr.parse pfx).map fun ip => (ip, addrBits ip)
  parsed.map fun (ip, len) => (networkAddress ip len, len)

/-- The routes of a node into a tunnel, with their gateways. -/
def tunnelRoutes (node : Node) (wgName : String) : List (String × Option String) :=
  ((node.routes.toList ++ node.vrfs.toList.flatMap fun (_, v) => v.routes.toList).filter
    fun (_, r) => r.dev = some wgName).map fun (dst, r) => (dst, r.via)

/-- What a peer may send: its tunnel addresses, each as a host, and what this
node routes into the tunnel towards it. -/
def tunnelAllowedIps (peer : WireguardConfig) (routes : List (String × Option String))
    (onlyPeer : Bool) : List (IpAddr × Nat) :=
  let tunnelIps := peer.addresses.filterMap fun addr => (parseCidr addr).toOption.map (·.1)
  let routed := routes.filterMap fun (dst, via) =>
    let toThisPeer := match via with
      | some via => (IpAddr.parse via).any (· ∈ tunnelIps)
      | none => onlyPeer
    if toThisPeer then allowedIp dst else none
  (tunnelIps.filterMap fun ip => allowedIp (toString ip)) ++ routed

/-! ### Devices -/

section

variable (nodeName : String) (node : Node) (t : Topology) (keys : WgKeys) (wgName : String)
  (wg : WireguardConfig)

/-- The peers a device has on one node: its interfaces that peer back, of several
the one of the same name. -/
def declarePeers (peerName : String) : Except Error (List DeclaredPeer) := do
  let referenced := "WireGuard peer '" ++ peerName ++ "' referenced by '" ++ nodeName ++ "'." ++ wgName
  let some peerKeys := keys[peerName]?
    | throw (.invalidTopology (referenced ++ " has no WireGuard interfaces"))
  let some peerNode := t.nodes[peerName]?
    | throw (.invalidTopology (referenced ++ " is not a topology node"))
  let ends := peerNode.wireguard.toList.filter fun (_, c) => nodeName ∈ c.peers
  let ends := if ends.any (·.1 = wgName) then ends.filter (·.1 = wgName) else ends
  let onlyPeer := wg.peers.length = 1 ∧ ends.length = 1
  let longhand := wg.peerSettings[peerName]?
  ends.mapM fun (peerWgName, peerWg) => do
    let some (_, publicKey) := peerKeys[peerWgName]?
      | throw (.deployFailed ("missing public key for '" ++ peerName ++ "'." ++ peerWgName))
    let endpoint ← match longhand.bind (·.endpoint) with
      | some ep => (parseEndpoint ep peerWg.listenPort).map some
      | none =>
        let ip := sharedSegmentEndpoint t nodeName peerName <|> findPeerEndpoint t peerName
        let addr := fun (port : UInt16) (ip : IpAddr) => { ip, port := port.toNat : SocketAddr }
        pure (peerWg.listenPort.bind fun port => ip.map (addr port))
    let allowedIps ← match longhand.filter (·.allowedIps ≠ []) with
      | some l => l.allowedIps.mapM fun pfx =>
          match allowedIp pfx with
          | some ip => Except.ok ip
          | none => .error (.invalidTopology ("WireGuard peer '" ++ peerName ++ "' of '" ++
              nodeName ++ "'." ++ wgName ++ ": allowed-ips '" ++ pfx ++ "' is not a prefix"))
      | none => pure (tunnelAllowedIps peerWg (tunnelRoutes node wgName) onlyPeer)
    let unique := allowedIps.foldl (fun u ai => if ai ∈ u then u else u ++ [ai]) []
    return { publicKey, endpoint, allowedIps := unique : DeclaredPeer }

def declareDevice (ownKeys : BTreeMap String (WgKey × WgKey)) : Except Error DeclaredDevice := do
  let some (privateKey, _) := ownKeys[wgName]?
    | throw (.deployFailed ("internal: no key for '" ++ nodeName ++ "'." ++ wgName))
  let peers ← wg.peers.mapM (declarePeers nodeName node t keys wgName wg)
  return { name := wgName, privateKey, listenPort := wg.listenPort, fwmark := wg.fwmark,
           peers := peers.flatten }

end

/-- The devices of a node. -/
def topologyToWireguardConfig (nodeName : String) (node : Node) (t : Topology) (keys : WgKeys) :
    Except Error (List DeclaredDevice) := do
  let some ownKeys := keys[nodeName]?
    | throw (.deployFailed ("internal: no key map for WireGuard node '" ++ nodeName ++ "'"))
  node.wireguard.toList.mapM fun (wgName, wg) =>
    declareDevice nodeName node t keys wgName wg ownKeys

end Wireguard

end NlinkLab
