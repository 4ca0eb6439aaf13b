import NlinkLab.Types.Firewall

/-! A node and everything declared on it (`types.rs`). The fields of a record
keep the source's order and defaults. -/

namespace NlinkLab

/-! ### Routing daemons -/

/-- `ospf { area … router-id … passive [...] hello … dead … redistribute [...] }`. -/
@[ext] structure OspfConfig where
  area : Option String := none
  routerId : Option String := none
  passive : List String := []
  hello : Option UInt32 := none
  dead : Option UInt32 := none
  redistribute : List String := []
  deriving DecidableEq

@[ext] structure BgpNeighbor where
  node : String := ""
  remoteAs : Option UInt32 := none
  remote : Option String := none
  deriving DecidableEq

@[ext] structure BgpConfig where
  asn : UInt32 := 0
  routerId : Option String := none
  neighbors : List BgpNeighbor := []
  networks : List String := []
  redistribute : List String := []
  deriving DecidableEq

/-- FRR routing daemons for one node. -/
@[ext] structure FrrConfig where
  ospf : Option OspfConfig := none
  bgp : Option BgpConfig := none
  deriving DecidableEq

/-! ### Declared interfaces -/

inductive InterfaceKind where
  | dummy | vxlan | vlan | bond | loopback
  deriving DecidableEq

inductive BondMode where
  | balanceRr | activeBackup | balanceXor | broadcast | lacp | balanceTlb | balanceAlb
  deriving DecidableEq

inductive LacpRate where
  | slow | fast
  deriving DecidableEq

inductive XmitHashPolicy where
  | layer2 | layer34 | layer23 | encap23 | encap34
  deriving DecidableEq

@[ext] structure BondOptions where
  mode : Option BondMode := none
  miimon : Option UInt32 := none
  lacpRate : Option LacpRate := none
  xmitHash : Option XmitHashPolicy := none
  minLinks : Option UInt32 := none
  updelay : Option UInt32 := none
  downdelay : Option UInt32 := none
  deriving DecidableEq

inductive VlanProtocol where
  | dot1q | dot1ad
  deriving DecidableEq

/-- An interface not created by a link. -/
@[ext] structure InterfaceConfig where
  kind : Option InterfaceKind := none
  addresses : List String := []
  vni : Option UInt32 := none
  local' : Option String := none
  remote : Option String := none
  port : Option UInt16 := none
  underlay : Option String := none
  mtu : Option UInt32 := none
  parent : Option String := none
  members : List String := []
  bond : Option BondOptions := none
  vlanProtocol : Option VlanProtocol := none
  deriving DecidableEq

@[ext] structure RouteConfig where
  via : Option String := none
  dev : Option String := none
  metric : Option UInt32 := none
  deriving DecidableEq

@[ext] structure VrfConfig where
  table : UInt32 := 0
  interfaces : List String := []
  routes : BTreeMap String RouteConfig := ∅
  deriving DecidableEq

/-- What a longhand `peer` block sets for one WireGuard peer. -/
@[ext] structure WireguardPeer where
  endpoint : Option String := none
  allowedIps : List String := []
  deriving DecidableEq

@[ext] structure WireguardConfig where
  privateKey : Option String := none
  listenPort : Option UInt16 := none
  fwmark : Option UInt32 := none
  addresses : List String := []
  peers : List String := []
  peerSettings : BTreeMap String WireguardPeer := ∅
  deriving DecidableEq

inductive MacvlanMode where
  | bridge | private' | vepa | passthru
  deriving DecidableEq

@[ext] structure MacvlanConfig where
  name : String
  parent : String
  mode : MacvlanMode := .bridge
  addresses : List String := []
  deriving DecidableEq

inductive IpvlanMode where
  | l2 | l3 | l3s
  deriving DecidableEq

@[ext] structure IpvlanConfig where
  name : String
  parent : String
  mode : IpvlanMode := .l3
  addresses : List String := []
  deriving DecidableEq

inductive WifiMode where
  | ap | station | mesh
  deriving DecidableEq

@[ext] structure WifiConfig where
  name : String
  mode : WifiMode
  ssid : Option String := none
  channel : Option UInt32 := none
  passphrase : Option String := none
  meshId : Option String := none
  addresses : List String := []
  deriving DecidableEq

/-! ### Nodes -/

/-- A process to run in a node. -/
@[ext] structure ExecConfig where
  cmd : List String := []
  background : Bool := false
  deriving DecidableEq

/-- What a foreign node is: a network namespace, a container or a tap that
another tool made. -/
inductive ForeignTarget where
  | netns (name : String) | container (name : String) | tap (name : String)
  deriving DecidableEq

@[ext] structure Foreign where
  target : ForeignTarget
  manageAddresses : Bool := false
  manageTc : Bool := false
  deriving DecidableEq

/-- Reusable node template. -/
@[ext] structure Profile where
  sysctls : BTreeMap String String := ∅
  firewall : Option FirewallConfig := none
  frr : Option FrrConfig := none
  deriving DecidableEq

/-- A node: a network namespace, a container (`image`) or `foreign`. -/
@[ext] structure Node where
  profiles : List String := []
  image : Option String := none
  cmd : Option (List String) := none
  env : Option (BTreeMap String String) := none
  volumes : Option (List String) := none
  cpu : Option String := none
  memory : Option String := none
  privileged : Bool := false
  capAdd : List String := []
  capDrop : List String := []
  entrypoint : Option String := none
  hostname : Option String := none
  workdir : Option String := none
  labels : List String := []
  pull : Option String := none
  containerExec : List String := []
  healthcheck : Option String := none
  healthcheckInterval : Option String := none
  healthcheckTimeout : Option String := none
  healthcheckRetries : Option UInt32 := none
  startupDelay : Option String := none
  envFile : Option String := none
  configs : List (String × String) := []
  overlay : Option String := none
  dependsOn : List String := []
  frr : Option FrrConfig := none
  sysctls : BTreeMap String String := ∅
  interfaces : BTreeMap String InterfaceConfig := ∅
  routes : BTreeMap String RouteConfig := ∅
  firewall : Option FirewallConfig := none
  nat : Option NatConfig := none
  exec : List ExecConfig := []
  vrfs : BTreeMap String VrfConfig := ∅
  wireguard : BTreeMap String WireguardConfig := ∅
  macvlans : List MacvlanConfig := []
  ipvlans : List IpvlanConfig := []
  wifi : List WifiConfig := []
  foreign : Option Foreign := none
  deriving DecidableEq

namespace Node

def isContainer (n : Node) : Bool := n.image.isSome

def isForeign (n : Node) : Bool := n.foreign.isSome

end Node

end NlinkLab
