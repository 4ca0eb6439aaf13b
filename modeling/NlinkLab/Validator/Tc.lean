import NlinkLab.Deploy.Plan.Tc
import NlinkLab.Validator.Interfaces

/-! The validator's rules on traffic control (`validator.rs`): what impairments,
rate limits, `qdisc` blocks and per-pair rules refer to, and their values. -/

namespace NlinkLab.Validator

/-! ### References -/

/-- An endpoint whose node has no such interface; a node that does not exist is
another rule's. -/
def checkIface (t : Topology) (rule key location : String) : Option ValidationIssue :=
  (EndpointRef.parse key).bind fun ep => (collectInterfaces t)[ep.node]?.bind fun ifaces =>
    if ifaces.contains ep.iface then none
    else some (error rule ("node '" ++ ep.node ++ "' has no interface '" ++ ep.iface ++ "'") location)

/-- The name of a qdisc's kind. -/
def qdiscName : QdiscKind → String
  | .tbf .. => "tbf"
  | .fqCodel .. => "fq_codel"
  | .sfq .. => "sfq"
  | .prio .. => "prio"

/-- One per-pair rule: two members of the network. -/
def checkPairRule (t : Topology) (netName : String) (network : Network) (i : Nat)
    (rule : NetworkImpairment) : List ValidationIssue :=
  let location := "networks." ++ netName ++ ".impairments[" ++ toString i ++ "]"
  if rule.src = rule.dst then
    [error "network-impair-self-pair" ("network '" ++ netName ++ "' impair " ++ rule.src ++ " -- " ++
      rule.dst ++ ": src and dst must differ") location]
  else [("src", rule.src), ("dst", rule.dst)].filterMap fun (which, who) =>
    if !t.nodes.contains who then
      some (error "dangling-node-ref" ("node '" ++ who ++ "' does not exist") (location ++ "." ++ which))
    else if who ∈ (network.members.filterMap EndpointRef.parse).map (·.node) then none
    else some (error "network-impair-member" ("node '" ++ who ++ "' is not a member of network '" ++
      netName ++ "' (cannot impair traffic on a network the node is not on)")
      (location ++ "." ++ which))

/-- The root qdisc of a source's interface is its per-pair tree. -/
def checkPairRoots (t : Topology) (netName : String) (network : Network) : List ValidationIssue :=
  let sources := ((network.impairments.map (·.src)).dedup).insertionSort (· ≤ ·)
  sources.filterMap fun src =>
    (network.members.find? fun m => (EndpointRef.parse m).any (·.node = src)).bind fun ep =>
      let other := match t.qdiscs[ep]? with
        | some q => some ("a `qdisc " ++ qdiscName q.kind ++ "`")
        | none => if t.rateLimits.contains ep then some "a `rate`" else none
      other.map fun other => error "network-impair-conflicts" ("'" ++ ep ++
        "' is the source of network '" ++ netName ++ "''s per-pair impairments and has " ++ other ++
        ": an interface has one root qdisc") ("networks." ++ netName ++ ".impairments")

def validateImpairmentRefs (t : Topology) : List ValidationIssue :=
  (t.impairments.keys.filterMap fun key =>
    checkIface t "impairment-ref-valid" key ("impairments.\"" ++ key ++ "\"")) ++
  t.networks.toList.flatMap fun (name, network) =>
    (if network.impairments ≠ [] ∧ network.subnet.isNone then
      [error "network-impair-needs-subnet" ("network '" ++ name ++
        "' has per-pair impairments but no subnet — a subnet is required so destination IPs can be resolved")
        ("networks." ++ name ++ ".subnet")]
    else []) ++
    (network.impairments.zipIdx.flatMap fun (rule, i) => checkPairRule t name network i rule) ++
    checkPairRoots t name network

def validateRateLimitRefs (t : Topology) : List ValidationIssue :=
  t.rateLimits.keys.filterMap fun key =>
    checkIface t "rate-limit-ref-valid" key ("rate_limits.\"" ++ key ++ "\"")

/-! ### Values -/

/-- The kinds of values, each with its own check. -/
inductive ValueKind where
  | duration | percent | rate | packets | size | loss | seed
  deriving DecidableEq

section

variable (nl : Nlink) (vals : Values)

/-- Why a value is none of its kind. -/
def valueError (kind : ValueKind) (value : String) : Option String :=
  let failed := fun {A : Type} (r : Except Error A) =>
    match r with
    | .error e => some e.display
    | .ok _ => none
  let outOfRange := fun (p : ℚ) =>
    if 0 ≤ p ∧ p ≤ 100 then none
    else some (Error.invalidTopology ("percentage " ++ toString p ++ " out of range (0-100)")).display
  match kind with
  | .duration => failed (vals.parseDuration value)
  | .percent => match vals.parsePercent value with
    | .ok p => outOfRange p
    | .error e => some e.display
  | .rate => failed (vals.parseRateBps value)
  | .loss => match parseLoss nl vals value with
    | .ok (.random p) => outOfRange p
    | .ok (.model _) => none
    | .error e => some e.display
  | .size => failed (vals.parseSize value)
  | .packets => match parseUnsigned (2 ^ 32) value with
    | .ok 0 | .error _ => some (Error.invalidTopology "expected a positive packet count").display
    | .ok _ => none
  | .seed => match Seed.parse value with
    | .ok _ => none
    | .error e => some (Error.invalidTopology e).display

def checkValue (rule : String) (kind : ValueKind) (value location : String) : Option ValidationIssue :=
  checkUnresolved value location <|>
    (valueError nl vals kind value).map fun e =>
      error rule ("invalid value '" ++ value ++ "': " ++ e) location

/-- The values of a record that are set. -/
def checkValues (rule location : String) (fields : List (String × Option String × ValueKind)) :
    List ValidationIssue :=
  fields.filterMap fun (name, value, kind) =>
    value.bind fun v => checkValue nl vals rule kind v (location ++ "." ++ name)

def checkImpairment (imp : Impairment) (location : String) : List ValidationIssue :=
  checkValues nl vals "invalid-impairment-value" location
    [("delay", imp.delay, .duration), ("jitter", imp.jitter, .duration), ("loss", imp.loss, .loss),
      ("corrupt", imp.corrupt, .percent), ("reorder", imp.reorder, .percent),
      ("rate", imp.rate, .rate), ("duplicate", imp.duplicate, .percent),
      ("delay-correlation", imp.delayCorrelation, .percent),
      ("loss-correlation", imp.lossCorrelation, .percent), ("limit", imp.limit, .packets),
      ("seed", imp.seed, .seed)] ++
  match imp.loss, imp.lossCorrelation with
  | some loss, some _ =>
    match parseLoss nl vals loss with
    | .ok (.model _) => [error "loss-model-excludes-correlation" ("loss " ++ loss.quote ++
        " is a loss model, which replaces random loss: loss-correlation does not apply to it; " ++
        "remove loss-correlation") (location ++ ".loss-correlation")]
    | _ => []
  | _, _ => []

/-- An impairment with a rate cap. -/
def checkCapped (imp : Impairment) (rateCap : Option String) (impAt capAt : String) :
    List ValidationIssue :=
  checkImpairment nl vals imp impAt ++
    (rateCap.bind fun cap => checkValue nl vals "invalid-impairment-value" .rate cap capAt).toList

def validateImpairmentValues (t : Topology) : List ValidationIssue :=
  (t.impairments.toList.flatMap fun (key, imp) =>
    checkImpairment nl vals imp ("impairments.\"" ++ key ++ "\"")) ++
  (t.networks.toList.flatMap fun (name, network) =>
    network.impairments.zipIdx.flatMap fun (pair, i) =>
      let location := "networks." ++ name ++ ".impairments[" ++ toString i ++ "]"
      checkCapped nl vals pair.impairment pair.rateCap location (location ++ ".rate_cap")) ++
  (t.scenarios.zipIdx.flatMap fun (scenario, s) => scenario.steps.zipIdx.flatMap fun (step, i) =>
    step.actions.zipIdx.flatMap fun (action, k) =>
      let location := "scenarios[" ++ toString s ++ "].steps[" ++ toString i ++ "].actions[" ++
        toString k ++ "]"
      match action with
      | .impair _ imp => checkImpairment nl vals imp (location ++ ".impairment")
      | .pairImpair _ _ _ imp cap =>
        checkCapped nl vals imp cap (location ++ ".impairment") (location ++ ".rate_cap")
      | _ => []) ++
  t.rateLimits.toList.flatMap fun (key, limit) =>
    checkValues nl vals "invalid-impairment-value" ("rate_limits.\"" ++ key ++ "\"")
      [("egress", limit.egress, .rate), ("ingress", limit.ingress, .rate),
        ("burst", limit.burst, .size)]

/-! ### Qdisc blocks -/

/-- A TBF has a queue. -/
def checkTbfLimit (key location : String) : Option String → List ValidationIssue
  | none => [error "invalid-qdisc-value" ("'" ++ key ++
      "': qdisc tbf needs a 'limit' (a byte size, e.g. 64kb): without one the kernel gives it no queue and it drops every packet")
      (location ++ ".limit")]
  | some limit =>
    checkValues nl vals "invalid-qdisc-value" location [("limit", some limit, .size)] ++
    if (vals.parseSize limit).toOption = some 0 then
      [error "invalid-qdisc-value" ("'" ++ key ++ "': qdisc tbf limit '" ++ limit ++
        "' is zero bytes: the TBF would have no queue and drop every packet") (location ++ ".limit")]
    else []

def checkQdiscKind (key location : String) : QdiscKind → List ValidationIssue
  | .tbf rate burst limit peakrate _ =>
    values [("rate", some rate, .rate), ("burst", some burst, .size)] ++
      checkTbfLimit nl vals key location limit ++ values [("peakrate", peakrate, .rate)]
  | .fqCodel target interval .. =>
    values [("target", target, .duration), ("interval", interval, .duration)]
  | .sfq perturb .. => values [("perturb", perturb, .duration)]
  | .prio bands => (bands.bind fun b =>
      if 2 ≤ b ∧ b ≤ 16 then none
      else some (error "invalid-qdisc-value" ("prio bands " ++ toString b ++ " out of range 2..=16")
        (location ++ ".bands"))).toList
where
  values (fields : List (String × Option String × ValueKind)) : List ValidationIssue :=
    checkValues nl vals "invalid-qdisc-value" location fields

def validateQdiscs (t : Topology) : List ValidationIssue :=
  t.qdiscs.toList.flatMap fun (key, qdisc) =>
    let location := "qdiscs.\"" ++ key ++ "\""
    let other := if t.impairments.contains key then some "impair"
      else if t.rateLimits.contains key then some "rate" else none
    (checkIface t "qdisc-ref-valid" key location).toList ++
    (other.map fun other => error "qdisc-conflicts" ("'" ++ key ++ "' has both a `qdisc " ++
      qdiscName qdisc.kind ++ "` and an `" ++ other ++ "`: an interface has one root qdisc") location).toList ++
    checkQdiscKind nl vals key location qdisc.kind

end

end NlinkLab.Validator
