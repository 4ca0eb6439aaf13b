import NlinkLab.Deploy.Plan.Network

/-! A node's traffic control as declarations in its `NetworkConfig`
(`deploy/plan/tc.rs`, `deploy/plan/qdisc.rs`, `seed.rs`): impairments, `qdisc`
blocks, rate limits, the per-pair trees of the networks it is a source in, and
partitions. -/

namespace NlinkLab

/-- How `helpers.rs` reads values with a unit; its arithmetic is floating point.
A duration is in nanoseconds, a rate in bits per second, a size in bytes. -/
structure Values where
  parseDuration : String → Except Error Nat
  parsePercent : String → Except Error ℚ
  parseRateBps : String → Except Error Nat
  parseSize : String → Except Error Nat

/-! ### Seeds -/

namespace Seed

/-- The largest seed. -/
def max : Nat := 2 ^ 63 - 1

def parse (s : String) : Except String UInt64 :=
  match parseUnsigned (2 ^ 64) (trim s) with
  | .error _ => .error ("expected a seed (an integer 0..=" ++ toString max ++ "), got " ++ s.quote)
  | .ok n => if max < n then .error ("seed " ++ toString n ++ " is above " ++ toString max)
    else .ok (UInt64.ofNat n)

/-- FNV-1a over the key, started from the lab's seed, then splitmix64's finaliser. -/
def derive (labSeed : UInt64) (key : String) : UInt64 :=
  let h := key.toUTF8.data.toList.foldl (fun h b => (h ^^^ b.toUInt64) * 0x100000001b3)
    (0xcbf29ce484222325 ^^^ labSeed)
  let z := h + 0x9e3779b97f4a7c15
  let z := (z ^^^ (z >>> 30)) * 0xbf58476d1ce4e5b9
  let z := (z ^^^ (z >>> 27)) * 0x94d049bb133111eb
  z ^^^ (z >>> 31)

def endpointKey (node iface : String) : String := node ++ ":" ++ iface

def pairKey (network src dst node iface : String) : String :=
  network ++ "/" ++ src ++ "->" ++ dst ++ "@" ++ node ++ ":" ++ iface

/-- The seed an impairment's netem gets: its own, else one derived from the lab's. -/
def netemSeed (t : Topology) (impairment : Impairment) (key : String) :
    Except Error (Option UInt64) :=
  match t.lab.seed with
  | none => .ok none
  | some labSeed =>
    match impairment.seed with
    | some own =>
      match parse own with
      | .ok seed => .ok (some seed)
      | .error e => .error (.invalidTopology ("impairment at '" ++ key ++ "': " ++ e))
    | none => .ok (some (derive labSeed key))

end Seed

/-! ### Qdiscs -/

section

variable (nl : Nlink) (vals : Values)

/-- A percent of independent loss, or one of netem's loss models. -/
def parseLoss (loss : String) : Except Error Loss :=
  let words := (loss.toList.splitOnP isWhitespace).filterMap fun w =>
    if w = [] then none else some (String.ofList w)
  match words.head? with
  | some "gemodel" | some "state" =>
    match nl.lossModel ("loss" :: words) with
    | .error e => .error (.invalidTopology ("loss " ++ loss.quote ++ ": " ++ e))
    | .ok none => .error (.invalidTopology ("loss " ++ loss.quote ++ ": no loss model parsed"))
    | .ok (some model) => .ok (.model model)
  | _ => (vals.parsePercent loss).map .random

/-- The netem of an impairment. -/
def buildNetem (impairment : Impairment) (seed : Option UInt64) : Except Error NetemConfig := do
  let delay ← impairment.delay.mapM vals.parseDuration
  let jitter ← impairment.jitter.mapM vals.parseDuration
  let loss ← impairment.loss.mapM (parseLoss nl vals)
  let rate ← impairment.rate.mapM vals.parseRateBps
  let corrupt ← impairment.corrupt.mapM vals.parsePercent
  let reorder ← impairment.reorder.mapM vals.parsePercent
  let duplicate ← impairment.duplicate.mapM vals.parsePercent
  let delayCorrelation ← impairment.delayCorrelation.mapM vals.parsePercent
  let lossCorrelation ← impairment.lossCorrelation.mapM vals.parsePercent
  let limit ← impairment.limit.mapM fun limit =>
    match parseUnsigned (2 ^ 32) (trim limit) with
    | .ok n => Except.ok n
    | .error _ => .error (.invalidTopology ("limit " ++ limit.quote ++ ": expected a packet count"))
  return { seed, delay, jitter, loss, rate, corrupt, reorder, duplicate, delayCorrelation,
           lossCorrelation, limit : NetemConfig }

/-- The qdisc of a `qdisc` block. -/
def buildQdisc (cfg : QdiscConfig) : Except Error QdiscSpec :=
  match cfg.kind with
  | .tbf rate burst limit peakrate mtu => do
    let rate ← vals.parseRateBps rate
    let burst ← vals.parseSize burst
    let limit ← limit.mapM vals.parseSize
    let peakrate ← peakrate.mapM vals.parseRateBps
    return .tbf rate burst limit peakrate mtu
  | .fqCodel target interval limit flows quantum ecn => do
    let target ← target.mapM vals.parseDuration
    let interval ← interval.mapM vals.parseDuration
    return .fqCodel target interval limit flows quantum ecn
  | .sfq perturb limit quantum => do
    let perturb ← perturb.mapM vals.parseDuration
    -- whole seconds, in an `i32`
    return .sfq (perturb.map fun ns => min (ns / 10 ^ 9) (2 ^ 31 - 1)) limit quantum
  | .prio bands => .ok (.prio (bands.map fun b => (b.toNat : Int)))

/-- The rate limiter of an endpoint. -/
def rateLimiter (ep : String) (limit : RateLimit) : Except Error TcSpec := do
  let rate := fun (dir v : String) =>
    (vals.parseRateBps v).mapError fun e => bad (dir ++ " rate") e
  let egress ← limit.egress.mapM (rate "egress")
  let ingress ← limit.ingress.mapM (rate "ingress")
  let burst ← limit.burst.mapM fun v => (vals.parseSize v).mapError (bad "burst")
  return .rateLimit egress ingress burst
where
  bad (what : String) (e : Error) : Error :=
    .deployFailed ("bad " ++ what ++ " on '" ++ ep ++ "': " ++ e.display)

/-! ### Per-pair trees -/

/-- Each node's interface in a network: its first member. -/
def networkIfaces (network : Network) : BTreeMap String String :=
  (network.members.filterMap EndpointRef.parse).foldl
    (fun m ep => m.insertIfNew ep.node ep.iface) ∅

/-- Each node's address in a network: the first address of a member's port. -/
def networkIps (network : Network) : BTreeMap String IpAddr :=
  network.members.foldl (fun m member =>
    let ip := (network.ports[member]?.bind (·.addresses.head?)).bind fun addr =>
      (splitOnce addr '/').bind fun (ip, _) => IpAddr.parse ip
    match EndpointRef.parse member, ip with
    | some ep, some ip => m.insertIfNew ep.node ip
    | _, _ => m) ∅

/-- The rules of one network a node is the source of, on its interface there. -/
def perPairRules (nodeName : String) (t : Topology) (netName : String) (network : Network)
    (rules : List NetworkImpairment) : Except Error (String × List PeerImpairment) := do
  let ips := networkIps network
  let some iface := (networkIfaces network)[nodeName]?
    | throw (.deployFailed ("network '" ++ netName ++ "': src node '" ++ nodeName ++
        "' has no interface in this network"))
  let peers ← rules.mapM fun rule => do
    let named := "network '" ++ netName ++ "' impair " ++ rule.src ++ " -- " ++ rule.dst
    let some dst := ips[rule.dst]?
      | throw (.deployFailed (named ++ ": cannot resolve IP for dst node '" ++ rule.dst ++
          "' (network needs a subnet, or the dst must have an explicit address)"))
    let seed ← Seed.netemSeed t rule.impairment
      (Seed.pairKey netName rule.src rule.dst nodeName iface)
    let netem ← buildNetem nl vals rule.impairment seed
    let rateCap ← rule.rateCap.mapM fun rc => (vals.parseRateBps rc).mapError fun e =>
      .deployFailed (named ++ ": bad rate-cap '" ++ rc ++ "': " ++ e.display)
    return { dst, netem, rateCap : PeerImpairment }
  return (iface, peers)

/-- The per-pair trees of a node, by interface; of two networks on one, the last. -/
def perPairSources (nodeName : String) (t : Topology) :
    Except Error (BTreeMap String (List PeerImpairment)) :=
  t.networks.toList.foldlM (fun out (netName, network) => do
    let rules := network.impairments.filter (·.src = nodeName)
    if rules = [] then return out
    else
      let (iface, peers) ← perPairRules nl vals nodeName t netName network rules
      return out.insert iface peers) ∅

/-! ### A node's traffic control -/

/-- What is declared on one interface: the per-pair tree, else the impairment,
else the `qdisc` block, else the rate limit; and a partition's filters. -/
def declareIfaceTc (nodeName : String) (t : Topology) (partitions : List String)
    (perPair : BTreeMap String (List PeerImpairment)) (iface : String) :
    Except Error (List DeclaredTc) := do
  let ep := nodeName ++ ":" ++ iface
  let impairment := t.impairments[ep]?
  let netem := fun (imp : Impairment) => do
    let seed ← Seed.netemSeed t imp (Seed.endpointKey nodeName iface)
    buildNetem nl vals imp seed
  let root ← match perPair[iface]? with
    | some rules => do
      let default ← impairment.mapM netem
      match nl.perPair iface rules default with
      | some e => throw (.nlink ("per-pair impairments on '" ++ ep ++ "'") e)
      | none => pure [TcSpec.perPair rules default]
    | none =>
      match impairment, t.qdiscs[ep]?, t.rateLimits[ep]? with
      | some imp, _, _ => do pure [TcSpec.netem (← netem imp)]
      | none, some qdisc, _ => do pure [TcSpec.qdisc (← buildQdisc vals qdisc)]
      | none, none, some limit => do pure [← rateLimiter vals ep limit]
      | none, none, none => pure []
  let (clsact, filters) := if ep ∈ partitions then ([TcSpec.clsact], [TcSpec.partition]) else ([], [])
  return (clsact ++ root ++ filters).map fun spec => { iface, spec }

/-- The interfaces of a node with traffic control, in order. -/
def tcIfaces (nodeName : String) (t : Topology) (partitions : List String)
    (perPair : BTreeMap String (List PeerImpairment)) : List String :=
  let onNode := fun (ep : String) =>
    ((EndpointRef.parse ep).filter (·.node = nodeName)).map (·.iface)
  let endpoints := t.impairments.keys ++ t.qdiscs.keys ++ t.rateLimits.keys ++ partitions
  ((endpoints.filterMap onNode ++ perPair.keys).dedup).insertionSort (· ≤ ·)

/-- A node's traffic control, added to its configuration. -/
def declareNodeTc (cfg : NetworkConfig) (nodeName : String) (t : Topology)
    (partitions : List String) : Except Error NetworkConfig := do
  let perPair ← perPairSources nl vals nodeName t
  let tc ← (tcIfaces nodeName t partitions perPair).mapM
    (declareIfaceTc nl vals nodeName t partitions perPair)
  return { cfg with tc := cfg.tc ++ tc.flatten }

end

end NlinkLab
