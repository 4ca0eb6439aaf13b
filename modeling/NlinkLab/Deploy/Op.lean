import NlinkLab.Names

/-! The operations a deploy is made of (`deploy/op.rs`), as data: the stage each
runs in, the key by which two plans are compared, its inverse, and the
difference of two plans as the plan that takes the first to the second. -/

namespace NlinkLab

/-! ### Payloads -/

/-- Deploy stages, in execution order. -/
inductive Stage where
  | namespaces | hwsim | mgmtBridge | networks | links | hostLinks | linksUp | sysctls | stack
  | dns | routingDaemons | processes | wifi
  deriving DecidableEq

namespace Stage

def rank : Stage → Nat
  | namespaces => 0
  | hwsim => 1
  | mgmtBridge => 2
  | networks => 3
  | links => 4
  | hostLinks => 5
  | linksUp => 6
  | sysctls => 7
  | stack => 8
  | dns => 9
  | routingDaemons => 10
  | processes => 11
  | wifi => 12

/-- The stage's name as Rust prints the variant. -/
def debug : Stage → String
  | namespaces => "Namespaces"
  | hwsim => "Hwsim"
  | mgmtBridge => "MgmtBridge"
  | networks => "Networks"
  | links => "Links"
  | hostLinks => "HostLinks"
  | linksUp => "LinksUp"
  | sysctls => "Sysctls"
  | stack => "Stack"
  | dns => "Dns"
  | routingDaemons => "RoutingDaemons"
  | processes => "Processes"
  | wifi => "Wifi"

end Stage

/-- Options for container creation. -/
structure CreateOpts where
  cmd : Option (List String) := none
  env : BTreeMap String String := ∅
  volumes : List String := []
  cpu : Option String := none
  memory : Option String := none
  privileged : Bool := false
  capAdd : List String := []
  capDrop : List String := []
  entrypoint : Option String := none
  hostname : Option String := none
  workdir : Option String := none
  labels : List String := []
  extraHosts : List String := []
  configs : List (String × String) := []
  envFile : Option String := none
  overlay : Option String := none
  deriving DecidableEq

/-- Bridge-port VLAN settings of a network member. -/
structure PortVlans where
  vlans : List UInt16
  pvid : Option UInt16
  untagged : Bool
  deriving DecidableEq

inductive Daemon where
  | zebra | ospfd | bgpd
  deriving DecidableEq

/-- A node's FRR daemons and their configuration; one text for each daemon. -/
structure FrrNodeSpec where
  pathspace : String
  daemons : List Daemon
  confs : List (Daemon × String)
  integrated : String
  expectedOspfNeighbors : Nat
  expectedBgpPeers : Nat
  deriving DecidableEq

/-- The kind of a link that a node's stack declares. `enslaved` is a link made
elsewhere that gets a master. -/
inductive LinkKind where
  | dummy
  | bond (options : Option BondOptions)
  | vxlan (vni : UInt32) (local' remote : Option IpAddr) (port : Option UInt16)
      (underlay : Option String)
  | vrf (table : UInt32)
  | vlan (parent : String) (vid : UInt16) (protocol : Option VlanProtocol)
  | enslaved
  deriving DecidableEq

/-- A per-device setting: its name and value, and whether it is an IPv6 one. -/
structure LinkDevconf where
  v6 : Bool
  name : String
  value : Int
  deriving DecidableEq

/-- A link a node's stack declares. -/
structure DeclaredLink where
  name : String
  kind : LinkKind
  mtu : Option UInt32 := none
  master : Option String := none
  deriving DecidableEq

/-- A route a node's stack declares. -/
structure DeclaredRoute where
  dst : String
  via : Option String
  dev : Option String
  metric : Option UInt32
  table : Option UInt32
  deriving DecidableEq

/-- A loss model of netem. -/
structure LossModel where
  name : String
  params : List ℚ
  deriving DecidableEq

inductive Loss where
  | random (percent : ℚ)
  | model (model : LossModel)
  deriving DecidableEq

/-- A netem qdisc; delays in nanoseconds, rates in bits per second. -/
structure NetemConfig where
  seed : Option UInt64 := none
  delay : Option Nat := none
  jitter : Option Nat := none
  loss : Option Loss := none
  rate : Option Nat := none
  corrupt : Option ℚ := none
  reorder : Option ℚ := none
  duplicate : Option ℚ := none
  delayCorrelation : Option ℚ := none
  lossCorrelation : Option ℚ := none
  limit : Option Nat := none
  deriving DecidableEq

/-- A root qdisc other than netem; sizes in bytes. -/
inductive QdiscSpec where
  | tbf (rate burst : Nat) (limit peakrate : Option Nat) (mtu : Option UInt32)
  | fqCodel (target interval : Option Nat) (limit flows quantum : Option UInt32)
      (ecn : Option Bool)
  | sfq (perturb : Option Int) (limit quantum : Option UInt32)
  | prio (bands : Option Int)
  deriving DecidableEq

/-- A rule of a per-pair tree. -/
structure PeerImpairment where
  dst : IpAddr
  netem : NetemConfig
  rateCap : Option Nat
  deriving DecidableEq

/-- What is declared on an interface's queues. `partition` is the two filters
that drop all its traffic. -/
inductive TcSpec where
  | clsact
  | netem (netem : NetemConfig)
  | qdisc (spec : QdiscSpec)
  | rateLimit (egress ingress burst : Option Nat)
  | perPair (rules : List PeerImpairment) (default : Option NetemConfig)
  | partition
  deriving DecidableEq

structure DeclaredTc where
  iface : String
  spec : TcSpec
  deriving DecidableEq

/-- A node's declared links, addresses, routes and traffic control, in order. -/
structure NetworkConfig where
  links : List DeclaredLink := []
  devconf : List (String × LinkDevconf) := []
  addresses : List (String × String) := []
  routes : List DeclaredRoute := []
  tc : List DeclaredTc := []
  deriving DecidableEq

/-- A WireGuard key. -/
abbrev WgKey := BitVec 256

/-- An address and port; `scope` is of an IPv6 address. -/
structure SocketAddr where
  ip : IpAddr
  port : Nat
  scope : Nat := 0
  deriving DecidableEq

structure DeclaredPeer where
  publicKey : WgKey
  endpoint : Option SocketAddr
  allowedIps : List (IpAddr × Nat)
  deriving DecidableEq

structure DeclaredDevice where
  name : String
  privateKey : WgKey
  listenPort : Option UInt16
  fwmark : Option UInt32
  peers : List DeclaredPeer
  deriving DecidableEq

/-- A node's declarative stack. -/
structure StackConfig where
  network : NetworkConfig := {}
  firewall : Option FirewallConfig := none
  nat : Option NatConfig := none
  wireguard : Option (List DeclaredDevice) := none
  deriving DecidableEq

/-- The WireGuard interfaces the config declares. -/
def StackConfig.wireguardIfnames (c : StackConfig) : List String :=
  (c.wireguard.getD []).map (·.name)

/-! ### Operations -/

/-- One unit of work in a deploy or apply plan. -/
inductive Op where
  | createNamespace (node ns : String)
  | createContainer (node name image : String) (pull : Option String) (opts : CreateOpts)
  | attachForeign (node : String) (target : ForeignTarget) (bridge : Option String)
  | createRadio (node iface radio : String) (mode : WifiMode) (maker : String)
  | createMgmtBridge (name : String) (ip : IpAddr) (prefixLen : Nat)
  | createMgmtVeth (node peer bridge : String) (nodeIp : IpAddr) (prefixLen : Nat)
  | createMgmtNamespace (ns : String)
  | createBridge (ns network name : String) (vlanFiltering : Bool) (mtu : Option UInt32)
  | createNetworkVeth (node iface peer mgmtNs bridge : String) (vlans : Option PortVlans)
      (mtu : Option UInt32)
  | createVeth (a b : EndpointRef) (mtu : Option UInt32)
  | createTapVeth (a : EndpointRef) (port bridge : String) (mtu : Option UInt32)
  | createMacvlan (node : String) (cfg : MacvlanConfig)
  | createIpvlan (node : String) (cfg : IpvlanConfig)
  | linksUp (node : String) (ifaces : List String)
  | sysctls (node : String) (entries : BTreeMap String String)
  | stack (node : String) (cfg : StackConfig)
  | dnsInject (lab : String)
  | dnsNetnsEtc (node ns : String)
  | startupDelay (node delay : String)
  | exec (node : String) (index : Nat) (exec : ExecConfig)
  | healthcheck (node cmd : String) (interval timeout : Option String) (retries : Option UInt32)
  | wifiDaemon (node : String) (wifi : WifiConfig)
  | frrDaemons (node : String) (spec : FrrNodeSpec)
  -- inverses, of a difference only
  | deleteNamespace (node ns : String)
  | detachForeign (node : String) (bridge : Option String)
  | removeContainer (node id : String)
  | deleteLink (node iface : String)
  | deleteHostLink (name : String)
  | deleteBridge (ns name : String)
  | killNodeProcesses (node : String)
  | killExec (node : String) (index : Nat)
  | killWifiDaemon (node name : String) (mode : WifiMode)
  | killFrrDaemons (node pathspace : String) (daemons : List Daemon)
  | removeDns (lab : String)
  | deleteRadio (node iface radio : String)
  deriving DecidableEq

namespace Op

/-- Stage the op executes in. -/
def stage : Op → Stage
  | createNamespace .. | createContainer .. | attachForeign .. | deleteNamespace ..
  | detachForeign .. | removeContainer .. => .namespaces
  | createRadio .. | deleteRadio .. => .hwsim
  | createMgmtBridge .. | createMgmtVeth .. | deleteHostLink .. => .mgmtBridge
  | createMgmtNamespace .. | createBridge .. | deleteBridge .. | createNetworkVeth .. => .networks
  | createVeth .. | createTapVeth .. | deleteLink .. => .links
  | createMacvlan .. | createIpvlan .. => .hostLinks
  | linksUp .. => .linksUp
  | sysctls .. => .sysctls
  | stack .. => .stack
  | dnsInject .. | dnsNetnsEtc .. | removeDns .. => .dns
  | startupDelay .. | exec .. | healthcheck .. | killNodeProcesses .. | killExec .. => .processes
  | frrDaemons .. | killFrrDaemons .. => .routingDaemons
  | wifiDaemon .. | killWifiDaemon .. => .wifi

/-- Stable identity used to diff two plans. -/
def key : Op → String
  | createNamespace _ ns | deleteNamespace _ ns => "ns:" ++ ns
  | createContainer node .. | removeContainer node _ => "container:" ++ node
  | attachForeign node .. | detachForeign node _ => "foreign:" ++ node
  | createRadio node iface .. | deleteRadio node iface _ => "radio:" ++ node ++ ":" ++ iface
  | createMgmtBridge name .. => "hostlink:" ++ name
  | createMgmtVeth _ peer .. => "hostlink:" ++ peer
  | deleteHostLink name => "hostlink:" ++ name
  | createMgmtNamespace ns => "ns:" ++ ns
  | createBridge ns _ name .. | deleteBridge ns name => "bridge:" ++ ns ++ ":" ++ name
  | createNetworkVeth node iface .. | deleteLink node iface => "link:" ++ node ++ ":" ++ iface
  | createVeth a .. | createTapVeth a .. => "link:" ++ a.node ++ ":" ++ a.iface
  | createMacvlan node cfg => "link:" ++ node ++ ":" ++ cfg.name
  | createIpvlan node cfg => "link:" ++ node ++ ":" ++ cfg.name
  | linksUp node _ => "linksup:" ++ node
  | sysctls node _ => "sysctls:" ++ node
  | stack node _ => "stack:" ++ node
  | dnsInject lab | removeDns lab => "dns:" ++ lab
  | dnsNetnsEtc _ ns => "dns-etc:" ++ ns
  | startupDelay node _ => "delay:" ++ node
  | exec node index _ | killExec node index => "exec:" ++ node ++ ":" ++ toString index
  | healthcheck node .. => "healthcheck:" ++ node
  | frrDaemons node _ | killFrrDaemons node .. => "frr:" ++ node
  | wifiDaemon node wifi => "wifi:" ++ node ++ ":" ++ wifi.name
  | killWifiDaemon node name _ => "wifi:" ++ node ++ ":" ++ name
  | killNodeProcesses node => "procs:" ++ node

/-- The op that undoes this one when its resource disappears from the desired
topology. `none` where another inverse implies it, or there is none. -/
def inverse : Op → Option Op
  | createNamespace node ns => some (.deleteNamespace node ns)
  | createMgmtNamespace ns => some (.deleteNamespace "" ns)
  | createContainer node name .. => some (.removeContainer node name)
  | attachForeign node _ bridge => some (.detachForeign node bridge)
  | createMgmtBridge name .. => some (.deleteHostLink name)
  | createBridge ns _ name .. => some (.deleteBridge ns name)
  | frrDaemons node spec => some (.killFrrDaemons node spec.pathspace spec.daemons)
  | createRadio node iface radio .. => some (.deleteRadio node iface radio)
  | wifiDaemon node wifi => some (.killWifiDaemon node wifi.name wifi.mode)
  | createMgmtVeth _ peer .. => some (.deleteHostLink peer)
  | createNetworkVeth node iface .. => some (.deleteLink node iface)
  | createVeth a .. | createTapVeth a .. => some (.deleteLink a.node a.iface)
  | createMacvlan node cfg => some (.deleteLink node cfg.name)
  | createIpvlan node cfg => some (.deleteLink node cfg.name)
  | dnsInject lab => some (.removeDns lab)
  | exec node index e => if e.background then some (.killExec node index) else none
  | _ => none

/-- Whether the op creates something inside a node's network namespace (or a
veth with an end there), or runs a process in it: what a new namespace for the
node needs again. -/
def livesInNode (node : String) : Op → Bool
  | createVeth a b _ => a.node = node ∨ b.node = node
  | createTapVeth a .. => a.node = node
  | createNetworkVeth n .. | createMgmtVeth n .. | createMacvlan n _ | createIpvlan n _
  | sysctls n _ | exec n .. | healthcheck n .. | wifiDaemon n _ => n = node
  | _ => false

/-- True for the ops of a difference that remove. -/
def isRemoval : Op → Bool
  | deleteNamespace .. | detachForeign .. | removeContainer .. | deleteLink .. | deleteHostLink ..
  | deleteBridge .. | killNodeProcesses .. | killExec .. | killWifiDaemon .. | killFrrDaemons ..
  | removeDns .. | deleteRadio .. => true
  | _ => false

/-- Two containers that differ at most in their `extraHosts`. -/
def sameContainer : Op → Op → Bool
  | createContainer node name image pull opts, createContainer node' name' image' pull' opts' =>
    (node, name, image, pull, { opts with extraHosts := [] }) =
      (node', name', image', pull', { opts' with extraHosts := [] })
  | createContainer .., _ | _, createContainer .. => false
  | _, _ => true

end Op

/-! ### Plans -/

/-- An ordered list of ops. -/
structure Plan where
  ops : List Op := []
  deriving DecidableEq

namespace Plan

/-- Sort by stage, keeping the order within a stage. -/
def sorted (p : Plan) : Plan :=
  ⟨p.ops.insertionSort fun a b => a.stage.rank ≤ b.stage.rank⟩

def sortedReverse (ops : List Op) : List Op :=
  ops.insertionSort fun a b => b.stage.rank ≤ a.stage.rank

/-- The ops by key; of several with one key, the last. -/
def index (p : Plan) : BTreeMap String Op :=
  p.ops.foldl (fun m o => m.insert o.key o) ∅

/-- What a pass over the desired ops has found so far. -/
structure Pass where
  removals : List Op
  changes : List Op := []
  restarted : List String := []
  recreated : List String := []
  radios : List (String × String) := []

/-- An op whose payload changed: its predecessor is removed and it runs. -/
def Pass.recreate (s : Pass) (existing op : Op) : Pass :=
  { s with removals := s.removals ++ existing.inverse.toList, changes := s.changes ++ [op] }

/-- One desired op against the op `existing` has under its key. -/
def Pass.step (cur : BTreeMap String Op) (s : Pass) (op : Op) : Pass :=
  match cur[op.key]? with
  | none => { s with changes := s.changes ++ [op] }
  | some existing =>
    match op with
    -- always re-run: they change nothing when nothing changed
    | .stack .. | .linksUp .. | .dnsInject .. | .dnsNetnsEtc .. =>
      { s with changes := s.changes ++ [op] }
    | .exec node .. =>
      if existing ≠ op then { s.recreate existing op with restarted := s.restarted ++ [node] } else s
    | .healthcheck node .. =>
      if node ∈ s.restarted ∨ existing ≠ op then { s with changes := s.changes ++ [op] } else s
    | .startupDelay .. => s
    | .createBridge .. => s
    | .createContainer node .. =>
      if !existing.sameContainer op then
        { s.recreate existing op with recreated := s.recreated ++ [node] }
      else s
    | .createRadio node iface .. =>
      if existing ≠ op then
        { s.recreate existing op with radios := s.radios ++ [(node, iface)] }
      else s
    | _ => if existing ≠ op then s.recreate existing op else s

/-- What lived in the namespace of a re-created container runs again. -/
def Pass.rerun (s : Pass) (op : Op) : Pass :=
  if (s.recreated.any fun n => op.livesInNode n) ∧ op ∉ s.changes then
    { s with changes := s.changes ++ [op] }
  else s

/-- The daemon of a re-created radio is restarted. -/
def Pass.restartWifi (cur : BTreeMap String Op) (s : Pass) (op : Op) : Pass :=
  match op with
  | .wifiDaemon node wifi =>
    if (node, wifi.name) ∈ s.radios ∧ op ∉ s.changes then
      { s with
        removals := s.removals ++ (cur[op.key]?.bind Op.inverse).toList
        changes := s.changes ++ [op] }
    else s
  | _ => s

/-- The WireGuard interfaces of a node that its desired stack drops. -/
def droppedWireguard (cur des : BTreeMap String Op) : List Op :=
  cur.toList.flatMap fun (key, op) =>
    match op, des[key]? with
    | .stack node cfg, some (.stack _ wanted) =>
      (cfg.wireguardIfnames.filter (· ∉ wanted.wireguardIfnames)).map (.deleteLink node)
    | _, _ => []

/-- Keep the first op of each key and stage. -/
def dedupe (ops : List Op) : List Op :=
  ops.foldl (fun kept o =>
    if (kept.any fun k => k.key ++ k.stage.debug = o.key ++ o.stage.debug) then kept
    else kept ++ [o]) []

/-- The inverses of what the desired plan drops, less those another removal
implies, in reverse stage order. -/
def dropped (current desired : Plan) : List Op :=
  let cur := current.index
  let des := desired.index
  let removals := (current.ops.filter fun o => !des.contains o.key).filterMap Op.inverse
  let removals := removals ++ droppedWireguard cur des
  let dying := removals.filterMap fun
    | .deleteNamespace node _ | .removeContainer node _ => some node
    | _ => none
  let dyingNs := removals.filterMap fun
    | .deleteNamespace _ ns => some ns
    | _ => none
  -- the set of dying nodes is walked in order
  let removals := removals ++ ((dying.dedup.insertionSort (· ≤ ·)).map .killNodeProcesses)
  let removals := removals.filter fun
    | .deleteBridge ns _ => ns ∉ dyingNs
    | .deleteLink node _ | .killExec node _ | .killWifiDaemon node .. => node ∉ dying
    | _ => true
  dedupe (sortedReverse removals)

/-- The passes over the desired ops. -/
def passes (current desired : Plan) : Pass :=
  let cur := current.index
  let s := desired.ops.foldl (Pass.step cur) { removals := dropped current desired }
  let s := desired.ops.foldl Pass.rerun s
  desired.ops.foldl (Pass.restartWifi cur) s

/-- `desired − current` as an executable plan: removals first, in reverse stage
order, then every op that is new, changed or has to run again, in stage order. -/
def diff (current desired : Plan) : Plan :=
  let s := passes current desired
  ⟨sortedReverse s.removals ++ (Plan.sorted ⟨s.changes⟩).ops⟩

end Plan

end NlinkLab
