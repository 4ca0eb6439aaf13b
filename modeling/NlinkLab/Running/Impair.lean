import NlinkLab.Data.Binary64
import NlinkLab.Deploy.Overlay
import NlinkLab.Deploy.Rollback

/-! Impairments and partitions of a running lab (`running.rs`, `ops/mutate.rs`). An
operation takes the lab's lock, reads the state file again, changes what it says of one
endpoint or of both ends of a link, has the endpoint's node reconciled from the old view of
the lab to the new one, and saves. One that fails saves nothing. -/

namespace NlinkLab

/-- Why an operation on a running lab fails. -/
inductive OpError where
  | unsupported (detail : String)
  | invalidArgument (detail : String)
  | lab (e : Error)
  deriving DecidableEq

/-- The host as one operation finds it. -/
structure Host where
  starttime : UInt32 → Option UInt64
  /-- The namespace of a foreign node of the lab's runtime, when it is there. -/
  resolve : String → Foreign → Option String → Option NsRef
  /-- Why a node's traffic control cannot be brought from one view of the lab to another. -/
  reconcile : NsRef → String → Topology × List String → Topology × List String → Option OpError
  /-- Why the root qdisc of an interface cannot be deleted. -/
  delRoot : NsRef → String → Option OpError

namespace RunningLab

/-! ### Nodes and endpoints -/

def tcIsOurs (lab : RunningLab) (node : String) : Except OpError Unit :=
  match lab.topology.nodes[node]?.bind (·.foreign) with
  | some f =>
    if f.manageTc then .ok ()
    else .error (.unsupported ("node '" ++ node ++ "' is foreign: nlink-lab does not " ++
      "change traffic control (without `manage tc`) in a node it did not create"))
  | none => .ok ()

def nsResolverOf (host : Host) (lab : RunningLab) (node : String) : Option NsRef :=
  match lab.topology.nodes[node]?.bind (·.foreign) with
  | some f => host.resolve node f lab.runtimeBinary
  | none =>
    match lab.namespaceNames[node]? with
    | some name => some (.named name)
    | none => lab.containers[node]?.map fun c => .container c.id c.pid

def parseEndpoint (endpoint : String) : Except OpError EndpointRef :=
  match EndpointRef.parse endpoint with
  | some ep => .ok ep
  | none => .error (.lab (.invalidEndpoint endpoint))

def nsOf (host : Host) (lab : RunningLab) (node : String) : Except OpError NsRef :=
  match lab.nsResolverOf host node with
  | some ns => .ok ns
  | none => .error (.lab (.nodeNotFound node))

/-- The other end of an endpoint's link: of the first link that has the endpoint. -/
def peerEndpoint (lab : RunningLab) (endpoint : String) : Except OpError String := do
  let ep ← parseEndpoint endpoint
  let needle := ep.node ++ ":" ++ ep.iface
  match lab.topology.links.findSome? fun link =>
      if link.endpoints.1 = needle then some link.endpoints.2
      else if link.endpoints.2 = needle then some link.endpoints.1 else none with
  | some peer => .ok peer
  | none => .error (.invalidArgument ("no link found for endpoint '" ++ endpoint ++ "'"))

/-! ### Changes of an endpoint -/

def impaired (endpoint : String) (impairment : Impairment) (lab : RunningLab) : RunningLab :=
  { lab with
    savedImpairments :=
      if endpoint ∈ lab.savedImpairments then lab.savedImpairments.insert endpoint impairment
      else lab.savedImpairments
    liveImpairments := lab.liveImpairments.insert endpoint impairment }

def cleared (endpoint : String) (lab : RunningLab) : RunningLab :=
  { lab with
    savedImpairments := lab.savedImpairments.erase endpoint
    liveImpairments :=
      -- the empty impairment keeps a declared one from coming back
      if endpoint ∈ lab.topology.impairments then lab.liveImpairments.insert endpoint {}
      else lab.liveImpairments.erase endpoint }

/-- The impairment in effect on an endpoint. -/
def effective (lab : RunningLab) (endpoint : String) : Impairment :=
  (lab.liveImpairments[endpoint]? <|> lab.topology.impairments[endpoint]?).getD {}

def cut (endpoint : String) (lab : RunningLab) : RunningLab :=
  { lab with savedImpairments := lab.savedImpairments.insert endpoint (lab.effective endpoint) }

def mended (endpoint : String) (lab : RunningLab) : RunningLab :=
  { lab with savedImpairments := lab.savedImpairments.erase endpoint }

/-! ### Changes under the lab's lock -/

section

variable (host : Host)

/-- Change what the lab says of an endpoint and have its node reconciled. -/
def changeTc (endpoint : String) (change : RunningLab → RunningLab) (lab : RunningLab) :
    Except OpError RunningLab := do
  let ep ← parseEndpoint endpoint
  lab.tcIsOurs ep.node
  let handle ← lab.nsOf host ep.node
  match host.reconcile handle ep.node lab.liveView (change lab).liveView with
  | some e => .error e
  | none => .ok (change lab)

/-- A partitioned endpoint stays partitioned, and its partition keeps the new impairment. -/
def setImpairmentLocked (endpoint : String) (impairment : Impairment) (lab : RunningLab) :
    Except OpError RunningLab :=
  lab.changeTc host endpoint (impaired endpoint impairment)

def clearImpairmentLocked (endpoint : String) (lab : RunningLab) : Except OpError RunningLab := do
  let ep ← parseEndpoint endpoint
  lab.tcIsOurs ep.node
  let handle ← lab.nsOf host ep.node
  match host.delRoot handle ep.iface with
  | some e => .error e
  | none => lab.changeTc host endpoint (cleared endpoint)

/-- Nothing to save when the endpoint is partitioned. -/
def partitionLocked (endpoint : String) (lab : RunningLab) : Except OpError (Option RunningLab) :=
  if endpoint ∈ lab.savedImpairments then .ok none
  else some <$> lab.changeTc host endpoint (cut endpoint)

def healLocked (endpoint : String) (lab : RunningLab) : Except OpError RunningLab :=
  if endpoint ∈ lab.savedImpairments then lab.changeTc host endpoint (mended endpoint)
  else .error (.lab (.deployFailed ("endpoint '" ++ endpoint ++ "' is not partitioned")))

end

end RunningLab

/-! ### Requests -/

/-- The impairment of a request; its fields are those of the lab's. -/
abbrev ImpairmentSpec := Impairment

/-- A request to the daemon that changes impairments or partitions. -/
inductive Request where
  | impair (endpoint : String) (direction : Direction) (spec : ImpairmentSpec)
  | clearImpairment (endpoint : String)
  | partition (endpoint : String)
  | heal (endpoint : String)
  deriving DecidableEq

/-- What a request does once it has the lab's lock: the impairments it sets in order, or the
one operation. -/
inductive Task where
  | set (impairments : List (String × Impairment))
  | clear (endpoint : String)
  | partition (endpoint : String)
  | heal (endpoint : String)
  deriving DecidableEq

namespace Impairment

variable (vals : Values)

/-- Why a percentage is none: `%` at its end may be left out. -/
def percentError (key value : String) : Option String :=
  match readDecimal (String.ofList ((value.toList.reverse.dropWhile (· = '%')).reverse)) with
  | none => some (key.quote ++ ": expected a percentage, got " ++ value.quote)
  | some n =>
    if Binary64.le (.ofRat 0) n.toBinary64 ∧ Binary64.le n.toBinary64 (.ofRat 100) then none
    else some (key.quote ++ ": " ++ value ++ " is outside 0%..100%")

/-- Why a value is wrong whatever tc's own rules are. -/
def validateProperty (key value : String) : Option String :=
  if value = "" then some (key.quote ++ ": empty value")
  else match key with
    | "delay" | "jitter" => match vals.parseDuration value with
      | .ok _ => none
      | .error e => some (key.quote ++ ": " ++ e.display)
    | "limit" => match parseUnsigned (2 ^ 32) value with
      | .ok _ => none
      | .error _ => some (key.quote ++ ": expected a packet count, got " ++ value.quote)
    | "seed" => match Seed.parse value with
      | .ok _ => none
      | .error e => some (key.quote ++ ": " ++ e)
    | "loss" =>
      -- the parameters of a Markov model are percentages
      if (stripPrefix "gemodel " value).isSome ∨ (stripPrefix "state " value).isSome then
        (((value.toList.splitOnP isWhitespace).filter (· ≠ [])).drop 1).findSome? fun word =>
          percentError key (String.ofList word)
      else percentError key value
    | "corrupt" | "reorder" | "duplicate" | "delay-correlation" | "loss-correlation" =>
      percentError key value
    | _ => none

/-- The impairment a request asks for: its values are checked, and it sets something. -/
def ofSpec (spec : ImpairmentSpec) : Except OpError Impairment :=
  let pairs := [("delay", spec.delay), ("jitter", spec.jitter), ("loss", spec.loss), ("rate", spec.rate),
    ("corrupt", spec.corrupt), ("reorder", spec.reorder), ("duplicate", spec.duplicate),
    ("delay-correlation", spec.delayCorrelation), ("loss-correlation", spec.lossCorrelation),
    ("limit", spec.limit), ("seed", spec.seed)]
  match pairs.findSome? fun (key, value) =>
      value.bind fun v => (validateProperty vals key v).map fun e => key ++ " " ++ v ++ ": " ++ e with
  | some e => .error (.invalidArgument e)
  | none =>
    if spec = {} then
      .error (.invalidArgument
        "an impairment sets something (delay, loss, rate, …); clear_impairment clears one")
    else .ok spec

end Impairment

/-- What an impairment in a direction is set on: the endpoint, its peer, or both. The peer is
looked up before the lab's lock is taken. -/
def RunningLab.directed (lab : RunningLab) (endpoint : String) (impairment : Impairment) :
    Direction → Except OpError (List (String × Impairment))
  | .out => .ok [(endpoint, impairment)]
  | .in' => do return [(← lab.peerEndpoint endpoint, impairment)]
  | .both => do return [(endpoint, impairment), (← lab.peerEndpoint endpoint, impairment)]

namespace Request

/-- What a request does before it waits for the lock, on the lab as it loaded it. -/
def task (vals : Values) (loaded : RunningLab) : Request → Except OpError Task
  | .impair endpoint direction spec => do
    let impairment ← Impairment.ofSpec vals spec
    return .set (← loaded.directed endpoint impairment direction)
  | .clearImpairment endpoint => .ok (.clear endpoint)
  | .partition endpoint => .ok (.partition endpoint)
  | .heal endpoint => .ok (.heal endpoint)

end Request

namespace Task

variable (host : Host)

/-- The change to a handle that has the lock, or `none` when there is nothing to save. -/
def run (lab : RunningLab) : Task → Except OpError (Option RunningLab)
  | .set impairments =>
    some <$> impairments.foldlM (fun lab (ep, imp) => lab.setImpairmentLocked host ep imp) lab
  | .clear endpoint => some <$> lab.clearImpairmentLocked host endpoint
  | .partition endpoint => lab.partitionLocked host endpoint
  | .heal endpoint => some <$> lab.healLocked host endpoint

end Task

namespace RunningLab

/-- With the lab's lock: take in the file, and do the task. -/
def begin (host : Host) (loaded : RunningLab) (task : Task) (file : LabFile) :
    Except OpError (Option RunningLab) :=
  task.run host (loaded.refresh host.starttime file)

/-- Save what a mutation changed, and let go of the lock. -/
def commit (lab : RunningLab) (file : LabFile) : Except OpError LabFile :=
  match lab.saveMerged file none with
  | some (file, _) => .ok file
  | none => .error (.invalidArgument ("lab '" ++ lab.topology.lab.name ++
      "' was deployed by a newer nlink-lab (state schema " ++ toString file.state.schemaVersion ++
      ", this one writes " ++ toString SCHEMA_VERSION ++ "): use that version to change it"))

/-- The end of a mutation, which may have nothing to save. -/
def finish (file : LabFile) : Option RunningLab → Except OpError LabFile
  | none => .ok file
  | some lab => lab.commit file

end RunningLab

/-- A request on a lab that nobody else changes: the lab's file after it. -/
def serve (host : Host) (vals : Values) (file : LabFile) (request : Request) : Except OpError LabFile := do
  let loaded := RunningLab.load host.starttime file
  let task ← request.task vals loaded
  RunningLab.finish file (← loaded.begin host task file)

end NlinkLab
