import NlinkLab.Validator

/-! Live topology edits (`edit.rs`): nodes and links are added and removed,
impairments, qdiscs and the MTUs of links set and cleared. A list of edits is made
to a copy of a topology. -/

namespace NlinkLab

/-- One change to a topology. Endpoints are `node:iface`. -/
inductive Edit where
  | addNode (name : String) (profile : Option String)
  | removeNode (name : String)
  | addLink (a b : String) (addresses : Option (String × String))
  | removeLink (endpoint : String)
  | setImpairment (endpoint : String) (impairment : Impairment)
  | clearImpairment (endpoint : String)
  | setQdisc (endpoint : String) (qdisc : QdiscKind)
  | clearQdisc (endpoint : String)
  | setPairImpairment (network src dst : String) (impairment : Option Impairment) (rateCap : Option String)
  | setMtu (endpoint : String) (mtu : UInt32)
  deriving DecidableEq

/-- Why an edit is refused. -/
inductive EditError where
  | invalidArgument (message : String)
  | invalidEndpoint (endpoint : String)
  | nodeNotFound (name : String)
  | validationErrors (issues : List ValidationIssue)
  deriving DecidableEq

/-- A one-line `delay 50ms loss 1%` rendering, empty when nothing is set. -/
def Impairment.summary (i : Impairment) : String :=
  let parts := [("delay", i.delay), ("jitter", i.jitter), ("loss", i.loss), ("rate", i.rate), ("corrupt", i.corrupt),
    ("reorder", i.reorder), ("duplicate", i.duplicate), ("delay-correlation", i.delayCorrelation),
    ("loss-correlation", i.lossCorrelation), ("limit", i.limit), ("seed", i.seed)]
  " ".intercalate (parts.filterMap fun (key, value) => value.map fun v => key ++ " " ++ v)

/-- Whether a link ends at an endpoint. -/
def Link.has (l : Link) (ep : String) : Bool := l.endpoints.1 = ep ∨ l.endpoints.2 = ep

/-- Set the MTU of a link that ends at an endpoint. -/
def Link.setMtuAt (key : String) (mtu : UInt32) (l : Link) : Link :=
  if l.has key then { l with mtu := some mtu } else l

namespace Edit

/-! ### Endpoints -/

def endpoint (s : String) : Except EditError EndpointRef :=
  match EndpointRef.parse s with
  | some ep => .ok ep
  | none => .error (.invalidEndpoint s)

/-- `node:iface`, normalized. -/
def key (s : String) : Except EditError String := do
  let ep ← endpoint (trim s)
  return ep.node ++ ":" ++ ep.iface

/-- Whether an endpoint is on a node. -/
def onNode (name e : String) : Bool := (endpoint e).toOption.any (·.node = name)

/-- Whether a link touches a node. -/
def touches (name : String) (l : Link) : Bool := onNode name l.endpoints.1 || onNode name l.endpoints.2

/-- Both ends of each link that is removed. -/
def linkEnds (links : List Link) (removed : Link → Bool) : List String :=
  (links.filter removed).flatMap fun l => [l.endpoints.1, l.endpoints.2]

/-- The link an edit adds. -/
def newLink (a b : String) (addresses : Option (String × String)) : Except EditError Link := do
  let a ← key a
  let b ← key b
  return { endpoints := (a, b), addresses := addresses.map fun (x, y) => (trim x, trim y), mtu := none }

/-- What removing a node leaves of a network. -/
def networkWithout (name : String) (net : Network) : Network :=
  { net with
    members := net.members.filter fun m => !onNode name m
    ports := net.ports.filter fun k _ => !onNode name k
    impairments := net.impairments.filter fun i => i.src ≠ name ∧ i.dst ≠ name }

/-- What removing a node leaves of another. -/
def nodeWithout (name : String) (node : Node) : Node :=
  { node with
    dependsOn := node.dependsOn.filter (· ≠ name)
    wireguard := node.wireguard.map fun _ wg => { wg with peers := wg.peers.filter (· ≠ name) } }

/-! ### Kinds of edits -/

/-- Whether an edit sets an MTU. -/
def isMtu : Edit → Bool
  | .setMtu _ _ => true
  | _ => false

/-- The edits other than MTU changes. -/
def structuralEdits (edits : List Edit) : List Edit := edits.filter fun e => !e.isMtu

end Edit

/-- A copy of a topology with edits applied. -/
structure Edited where
  topology : Topology
  log : List String
  warnings : List String
  /-- MTU edits: endpoint, its link's other end, MTU. -/
  mtus : List (String × String × UInt32)
  /-- Whether an edit other than an MTU change is in it. -/
  structural : Bool

def ValidationIssue.display (issue : ValidationIssue) : String :=
  "[" ++ issue.rule ++ "] " ++ issue.message ++ (issue.location.elim "" fun loc => " at " ++ loc)

namespace Topology

open Edit

/-! ### The edits -/

def addNode (t : Topology) (name : String) (profile : Option String) : Except EditError Topology :=
  if t.nodes.contains name then .error (.invalidArgument ("node '" ++ name ++ "' already exists"))
  else match profile with
    | none => .ok { t with nodes := t.nodes.insert name {} }
    | some p =>
      if t.profiles.contains p then .ok { t with nodes := t.nodes.insert name { profiles := [p] } }
      else .error (.invalidArgument ("profile '" ++ p ++ "' does not exist"))

/-- Drop what the ends of removed links carried. -/
def dropLinkEnds (t : Topology) (ends : List String) : Topology :=
  ends.foldl (fun t e => { t with
    impairments := t.impairments.erase e
    rateLimits := t.rateLimits.erase e
    qdiscs := t.qdiscs.erase e }) t

def removeNode (t : Topology) (name : String) : Except EditError Topology :=
  if !t.nodes.contains name then .error (.nodeNotFound name)
  else
    let ends := linkEnds t.links (Edit.touches name)
    let t := { t with nodes := t.nodes.erase name, links := t.links.filter fun l => !Edit.touches name l }
    let t := dropLinkEnds t ends
    .ok { t with
      impairments := t.impairments.filter fun k _ => !onNode name k
      rateLimits := t.rateLimits.filter fun k _ => !onNode name k
      qdiscs := t.qdiscs.filter fun k _ => !onNode name k
      networks := t.networks.map fun _ net => networkWithout name net
      nodes := t.nodes.map fun _ node => nodeWithout name node }

def checkNode (t : Topology) (e : String) : Except EditError Unit := do
  let ep ← endpoint e
  if t.nodes.contains ep.node then return () else throw (.nodeNotFound ep.node)

def addLink (t : Topology) (a b : String) (addresses : Option (String × String)) :
    Except EditError (Topology × String) := do
  let link ← newLink a b addresses
  checkNode t link.endpoints.1
  checkNode t link.endpoints.2
  return ({ t with links := t.links ++ [link] },
    "add link " ++ link.endpoints.1 ++ " -- " ++ link.endpoints.2)

def removeLink (t : Topology) (ep : String) : Except EditError (Topology × String) := do
  let key ← key ep
  let ends := linkEnds t.links (·.has key)
  if ends.isEmpty then throw (.invalidArgument ("no link has endpoint '" ++ key ++ "'"))
  return (dropLinkEnds { t with links := t.links.filter fun l => !l.has key } ends, "remove link at " ++ key)

def clearImpairment (t : Topology) (ep : String) : Except EditError (Topology × String) := do
  let key ← key ep
  if !t.impairments.contains key then throw (.invalidArgument ("no impairment on '" ++ key ++ "'"))
  return ({ t with impairments := t.impairments.erase key }, "clear impairment on " ++ key)

def clearQdisc (t : Topology) (ep : String) : Except EditError (Topology × String) := do
  let key ← key ep
  if !t.qdiscs.contains key then throw (.invalidArgument ("no qdisc on '" ++ key ++ "'"))
  return ({ t with qdiscs := t.qdiscs.erase key }, "clear qdisc on " ++ key)

/-- A network's impairment from one node to another, or none. -/
def setPairImpairment (t : Topology) (network src dst : String) (impairment : Option Impairment)
    (rateCap : Option String) : Except EditError (Topology × String) :=
  match t.networks[network]? with
  | none => .error (.invalidArgument ("network '" ++ network ++ "' does not exist"))
  | some net =>
    let at' := net.impairments.findIdx? fun i => i.src = src ∧ i.dst = dst
    let put := fun (impairments : List NetworkImpairment) =>
      { t with networks := t.networks.insert network { net with impairments } }
    let pair := { src, dst, impairment := impairment.getD {}, rateCap : NetworkImpairment }
    let set := "set impairment from " ++ src ++ " to " ++ dst ++ " on network " ++ network
    match impairment.isNone && rateCap.isNone, at' with
    | true, none => .error (.invalidArgument
        ("no impairment from '" ++ src ++ "' to '" ++ dst ++ "' on network '" ++ network ++ "'"))
    | true, some i => .ok (put (net.impairments.eraseIdx i),
        "clear impairment from " ++ src ++ " to " ++ dst ++ " on network " ++ network)
    | false, some i => .ok (put (net.impairments.set i pair), set)
    | false, none => .ok (put (net.impairments ++ [pair]), set)

def setMtu (t : Topology) (ep : String) (mtu : UInt32) : Except EditError (Topology × String) := do
  let key ← key ep
  if !t.links.any (·.has key) then throw (.invalidArgument ("no link has endpoint '" ++ key ++ "'"))
  return ({ t with links := t.links.map (Link.setMtuAt key mtu) },
    "set mtu " ++ toString mtu ++ " on the link at " ++ key)

/-- What an edit makes of a topology, and its line. -/
def applyEdit (t : Topology) : Edit → Except EditError (Topology × String)
  | .addNode name profile => (addNode t name profile).map (·, "add node " ++ name)
  | .removeNode name => (removeNode t name).map
      (·, "remove node " ++ name ++ " (and its links, impairments, memberships)")
  | .addLink a b addresses => addLink t a b addresses
  | .removeLink ep => removeLink t ep
  | .setImpairment ep impairment => (key ep).map fun key =>
      ({ t with impairments := t.impairments.insert key impairment },
        "set impairment on " ++ key ++ ": " ++ impairment.summary)
  | .clearImpairment ep => clearImpairment t ep
  | .setQdisc ep qdisc => (key ep).map fun key =>
      ({ t with qdiscs := t.qdiscs.insert key { kind := qdisc } }, "set qdisc on " ++ key ++ ": " ++ Validator.qdiscName qdisc)
  | .clearQdisc ep => clearQdisc t ep
  | .setPairImpairment network src dst impairment rateCap =>
      setPairImpairment t network src dst impairment rateCap
  | .setMtu ep mtu => setMtu t ep mtu

/-- The edits one after another, without validation, and one line for each. -/
def applyEdits (t : Topology) (edits : List Edit) : Except EditError (Topology × List String) :=
  edits.foldlM (fun (t, log) edit => (applyEdit t edit).map fun (t, line) => (t, log ++ [line])) (t, [])

/-! ### A list of edits, validated -/

/-- The other end of the link an endpoint is on. -/
def linkPeer (t : Topology) (endpoint : String) : Except EditError String :=
  let peer := t.links.findSome? fun l =>
    if l.endpoints.1 = endpoint then some l.endpoints.2
    else if l.endpoints.2 = endpoint then some l.endpoints.1
    else none
  match peer with
  | some peer => .ok peer
  | none => .error (.invalidArgument ("no link has endpoint '" ++ endpoint ++ "'"))

/-- The topology, the MTU changes and the lines so far. -/
abbrev MtuPass := Topology × List (String × String × UInt32) × List String

/-- The MTU changes of a list of edits; the other edits wait. -/
def mtuStep : MtuPass → Edit → Except EditError MtuPass
  | (desired, mtus, log), .setMtu ep mtu => do
    if ¬(68 ≤ mtu ∧ mtu ≤ 65535) then
      throw (.invalidArgument ("MTU " ++ toString mtu ++ " is outside 68..=65535"))
    let ep ← key ep
    let peer ← linkPeer desired ep
    return ({ desired with links := desired.links.map (Link.setMtuAt ep mtu) }, mtus ++ [(ep, peer, mtu)],
      log ++ ["set mtu " ++ toString mtu ++ " on " ++ ep ++ " and " ++ peer])
  | pass, _ => .ok pass

/-- What the validator finds: the issues of its rules, `others` those of the rules
that are not written out. -/
def issues (nl : Nlink) (vals : Values) (others : Topology → List ValidationIssue) (t : Topology) :
    List ValidationIssue := t.validate nl vals ++ others t

/-- Whether the validator accepts a topology. -/
def accepts (nl : Nlink) (vals : Values) (others : Topology → List ValidationIssue) (t : Topology) : Bool :=
  (issues nl vals others t).all fun issue => issue.severity ≠ .error

/-- The topology that edits make of another, validated. -/
def edited (nl : Nlink) (vals : Values) (others : Topology → List ValidationIssue) (t : Topology)
    (edits : List Edit) : Except EditError Edited := do
  if edits.isEmpty then throw (.invalidArgument "nothing to do: no edits")
  let (desired, mtus, log) ← edits.foldlM mtuStep (t, [], [])
  let structural := structuralEdits edits
  if structural.isEmpty then
    return { topology := desired, log, warnings := [], mtus, structural := false }
  let (desired, lines) ← applyEdits desired structural
  let found := issues nl vals others desired
  let errors := found.filter (·.severity = .error)
  if !errors.isEmpty then throw (.validationErrors errors)
  return { topology := desired, log := log ++ lines,
           warnings := (found.filter (·.severity = .warning)).map (·.display), mtus, structural := true }

end Topology

end NlinkLab
