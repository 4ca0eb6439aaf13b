import NlinkLab.Data.Traverse
import NlinkLab.Deploy.Ctx
import NlinkLab.Running

/-! What an apply works out before it runs anything (`deploy/mod.rs`): the desired
topology as it would run in the lab, the runtime changes it keeps laid over it, and
the plans of both sides. -/

namespace NlinkLab

open SubnetPool

/-! ### The running lab -/

/-- Every endpoint named in a topology: ends of links, members of networks, and what
has an impairment. -/
def topologyEndpoints (t : Topology) : List String :=
  let endpoints := (t.links.flatMap fun link => [link.endpoints.1, link.endpoints.2]) ++
    (t.networks.toList.flatMap fun (_, network) => network.members) ++ t.impairments.keys
  endpoints.dedup.insertionSort (· ≤ ·)

/-- Live impairments laid over the declared ones; an empty one clears. -/
def layOver (declared live : BTreeMap String Impairment) : BTreeMap String Impairment :=
  live.toList.foldl (fun m (ep, imp) => if imp = {} then m.erase ep else m.insert ep imp) declared

namespace RunningLab

/-- The partitioned endpoints. -/
def partitions (lab : RunningLab) : List String := lab.savedImpairments.keys

/-- The lab's topology with its live impairments, and its partitions: what its traffic
control really is. -/
def liveView (lab : RunningLab) : Topology × List String :=
  ({ lab.topology with impairments := layOver lab.topology.impairments lab.liveImpairments },
    lab.partitions)

end RunningLab

/-! ### The overlay -/

/-- The options of an apply that say what it plans. -/
structure ApplyOptions where
  resetImpairments : Bool := false

/-- The two sides of an apply. -/
structure Overlay where
  current : Topology
  currentPartitions : List String
  desired : Topology
  desiredPartitions : List String
  kept : BTreeMap String Impairment

/-- A live impairment is dropped by a reset, when the topology changed its endpoint's
declaration, and when its endpoint is gone. -/
def overlayLiveImpairments (running : RunningLab) (desired : Topology) (opts : ApplyOptions) : Overlay :=
  let endpoints := topologyEndpoints desired
  let unchanged := fun (ep : String) => running.topology.impairments[ep]? = desired.impairments[ep]?
  let kept := running.liveImpairments.filter fun ep _ =>
    !(opts.resetImpairments ∨ ¬ unchanged ep ∨ ep ∉ endpoints)
  { current := running.liveView.1
    currentPartitions := running.liveView.2
    desired := { desired with impairments := layOver desired.impairments kept }
    desiredPartitions :=
      if opts.resetImpairments then [] else running.liveView.2.filter (· ∈ endpoints)
    kept }

/-! ### The desired topology in the lab -/

/-- The subnet a network of the running lab has. -/
def runningSubnet (running : Topology) (name : String) : Option String :=
  (running.networks[name]?.bind (·.subnet)).filter fun s => (Validator.parseAutoPlaceholder s).isNone

/-- A network with the running lab's subnet where its own is a placeholder. -/
def resolveAutoSubnet (running : Topology) (name : String) (net : Network) : Except Error Network :=
  match net.subnet with
  | none => .ok net
  | some s =>
    if (Validator.parseAutoPlaceholder s).isNone then .ok net
    else match runningSubnet running name with
      | none => .error (.invalidTopology ("network '" ++ name ++ "': `subnet " ++ s ++
          "` is allocated when the lab is deployed; give a network an apply adds a subnet of its own"))
      | some cidr => setSubnet net cidr

/-- The placeholders of the desired topology's networks resolved. -/
def resolveAutoSubnets (running desired : Topology) : Except Error Topology := do
  let networks ← desired.networks.traverse (resolveAutoSubnet running)
  return { desired with networks }

/-- The seed a topology plans with: its own, else the running lab's. A lab without one
gets one only where the kernel honours it. -/
def Seed.settledForApply (kernelHonours : Bool) (desired running : Topology) : Option UInt64 :=
  match desired.lab.seed, running.lab.seed with
  | none, seed => seed
  | some s, some _ => some s
  | some s, none => if kernelHonours then some s else none

/-- The desired topology as it would run in the lab. -/
def withRunningSubnets (kernelHonours : Bool) (running desired : Topology) : Except Error Topology :=
  let hasAuto := desired.networks.toList.any fun (_, n) => (autoPrefix n).isSome
  let seed := Seed.settledForApply kernelHonours desired running
  if !hasAuto ∧ seed = desired.lab.seed then .ok desired
  else
    let owned := { desired with lab := { desired.lab with seed } }
    if hasAuto then resolveAutoSubnets running owned else .ok owned

/-! ### Keys -/

/-- How a written WireGuard key reads, and the public key of a private one. -/
structure KeyReader where
  decode : String → Except String WgKey
  publicKey : WgKey → WgKey

def invalidKey (node iface why : String) : Error :=
  .invalidTopology ("invalid WireGuard private key for '" ++ iface ++ "' on '" ++ node ++ "': " ++ why)

/-- The private key of a WireGuard interface: as written, or `drawn`. -/
def wgPrivateKey (reader : KeyReader) (drawn : WgKey) (node iface : String) (wg : WireguardConfig) :
    Except Error WgKey :=
  match wg.privateKey with
  | none => .ok drawn
  | some text => if text = "auto" then .ok drawn else (reader.decode text).mapError (invalidKey node iface)

/-- The keys of a topology's WireGuard interfaces; `fresh` are those drawn. -/
def buildWgPublicKeyMap (reader : KeyReader) (fresh : String → String → WgKey) (t : Topology) :
    Except Error WgKeys :=
  BTreeMap.traverse (fun name node => node.wireguard.traverse fun iface wg =>
    (wgPrivateKey reader (fresh name iface) name iface wg).map fun key => (key, reader.publicKey key))
    (t.nodes.filter fun _ node => !node.wireguard.isEmpty)

/-- Whether a WireGuard interface's key is drawn, not written. -/
def WireguardConfig.autoKey (wg : WireguardConfig) : Bool :=
  wg.privateKey = none ∨ wg.privateKey = some "auto"

/-- A saved key takes the place of one drawn. -/
def withSavedKeys (saved : Option WgKeys) (t : Topology) (keys : WgKeys) : WgKeys :=
  keys.map fun node target => target.map fun iface drawn =>
    match saved.bind fun saved => saved[node]?.bind (·[iface]?) with
    | some kept =>
      if ((t.nodes[node]?).bind (·.wireguard[iface]?)).any (·.autoKey) then kept else drawn
    | none => drawn

/-- The keys to plan a topology with. -/
def keysWithSaved (reader : KeyReader) (fresh : String → String → WgKey) (saved : Option WgKeys)
    (t : Topology) : Except Error (Option WgKeys) :=
  if t.nodes.toList.any fun (_, node) => !node.wireguard.isEmpty then
    (buildWgPublicKeyMap reader fresh t).map fun keys => some (withSavedKeys saved t keys)
  else .ok none

/-! ### The plans -/

/-- What the plans of an apply depend on besides the lab: the planner's parts, how keys
read, and whether the kernel honours netem seeds. -/
structure ApplyParts where
  env : Plan.Env
  reader : KeyReader
  kernelHonours : Bool

/-- What an apply has worked out: the topology it saves, the overlay, the inputs of the
desired side and the plans of both sides. -/
structure Prepared where
  desired : Topology
  overlay : Overlay
  inputs : PlanInputs
  current : Plan
  planned : Plan

/-- `apply` up to the difference it runs. Each side draws its own fresh keys. -/
def prepareApply (parts : ApplyParts) (fresh freshCurrent : String → String → WgKey)
    (saved : Option WgKeys) (running : RunningLab) (desired : Topology) (opts : ApplyOptions) :
    Except Failure Prepared := do
  let desired ← (withRunningSubnets parts.kernelHonours running.topology desired).mapError Failure.other
  if !desired.valid parts.env.nl parts.env.vals then
    throw (.invalid (desired.validate parts.env.nl parts.env.vals))
  let overlay := overlayLiveImpairments running desired opts
  let keys ← (keysWithSaved parts.reader fresh saved overlay.desired).mapError Failure.other
  let currentKeys ← (keysWithSaved parts.reader freshCurrent saved overlay.current).mapError Failure.other
  let inputs := { wgKeys := keys, partitions := overlay.desiredPartitions : PlanInputs }
  let current ← (plan parts.env overlay.current
    { wgKeys := currentKeys, partitions := overlay.currentPartitions }).mapError Failure.other
  let planned ← (plan parts.env overlay.desired inputs).mapError Failure.other
  return { desired, overlay, inputs, current, planned }

/-! ### What it leaves -/

/-- What executing the plan leaves of the lab's namespaces and processes. -/
structure ApplyLeft where
  namespaceNames : BTreeMap String String
  containers : BTreeMap String ContainerState
  pids : List (String × UInt32)
  starttimes : BTreeMap UInt32 UInt64
  execPids : BTreeMap String UInt32
  processLogs : BTreeMap UInt32 (String × String)
  processTags : BTreeMap UInt32 String
  mgmtPeers : BTreeMap String String
  dnsInjected : Bool
  wifiLoaded : Bool

/-- The handle after the plan has been executed. -/
def RunningLab.applied (lab : RunningLab) (p : Prepared) (left : ApplyLeft) : RunningLab :=
  { lab with
    topology := p.desired
    liveImpairments := p.overlay.kept
    savedImpairments := lab.savedImpairments.filter fun ep _ => ep ∈ p.overlay.desiredPartitions
    namespaceNames := left.namespaceNames
    containers := left.containers
    pids := left.pids
    starttimes := left.starttimes
    execPids := left.execPids
    processLogs := left.processLogs
    processTags := left.processTags
    mgmtPeers := left.mgmtPeers
    dnsInjected := left.dnsInjected
    wifiLoaded := left.wifiLoaded }

/-- The saved keys once the plan has been executed. -/
def Prepared.savedKeys (p : Prepared) (saved : Option WgKeys) : Option WgKeys := p.inputs.wgKeys <|> saved

end NlinkLab
