import NlinkLab.Types.Serialize

/-! The state file of a running lab (`state.rs`) and the part of it that a handle
tracks. Each field of the tracked part is a set of entries (`entries`): a map's
are its keys, the process list's are its processes, and the topology's are the
parts of its serialized form. -/

namespace NlinkLab

open Json

/-- The schema version this program writes. -/
def SCHEMA_VERSION : UInt32 := 2

/-- A container's identity, its init PID and the start time of that process. -/
structure ContainerState where
  id : String
  name : String
  image : String
  pid : UInt32
  starttime : Option UInt64 := none
  deriving DecidableEq

/-- Where a lab came from. -/
structure LabSource where
  path : Option String := none
  params : List (String × String) := []
  suffix : Option String := none
  dir : Option String := none

/-- The state file, less the topology saved beside it. -/
structure LabState where
  schemaVersion : UInt32 := SCHEMA_VERSION
  name : String
  createdAt : String
  namespaces : BTreeMap String String := ∅
  pids : List (String × UInt32) := []
  starttimes : BTreeMap UInt32 UInt64 := ∅
  mgmtPeers : BTreeMap String String := ∅
  wgPublicKeys : BTreeMap String (BTreeMap String String) := ∅
  containers : BTreeMap String ContainerState := ∅
  runtime : Option String := none
  dnsInjected : Bool := false
  wifiLoaded : Bool := false
  savedImpairments : BTreeMap String Impairment := ∅
  liveImpairments : BTreeMap String Impairment := ∅
  processLogs : BTreeMap UInt32 (String × String) := ∅
  execPids : BTreeMap String UInt32 := ∅
  processTags : BTreeMap UInt32 String := ∅
  source : Option LabSource := none

/-- The persisted part of a handle, as of its last load or save; the topology
is kept serialized. -/
structure Baseline where
  namespaces : BTreeMap String String := ∅
  containers : BTreeMap String ContainerState := ∅
  runtime : Option String := none
  dnsInjected : Bool := false
  wifiLoaded : Bool := false
  pids : List (String × UInt32) := []
  starttimes : BTreeMap UInt32 UInt64 := ∅
  execPids : BTreeMap String UInt32 := ∅
  mgmtPeers : BTreeMap String String := ∅
  savedImpairments : BTreeMap String Impairment := ∅
  liveImpairments : BTreeMap String Impairment := ∅
  processLogs : BTreeMap UInt32 (String × String) := ∅
  processTags : BTreeMap UInt32 String := ∅
  topology : Value := .null

/-- The baseline of a handle that has just read `st` and `topology`. -/
def Baseline.ofState (st : LabState) (topology : Topology) : Baseline where
  namespaces := st.namespaces
  containers := st.containers
  runtime := st.runtime
  dnsInjected := st.dnsInjected
  wifiLoaded := st.wifiLoaded
  pids := st.pids
  starttimes := st.starttimes
  execPids := st.execPids
  mgmtPeers := st.mgmtPeers
  savedImpairments := st.savedImpairments
  liveImpairments := st.liveImpairments
  processLogs := st.processLogs
  processTags := st.processTags
  topology := toValue topology

/-! ### Entries -/

/-- The things that are inserted, removed or updated one at a time. A part of
the topology is a section, or a key of a section that is a map. -/
inductive Entry where
  | ns (node : String)
  | container (node : String)
  | runtime
  | dnsInjected
  | wifiLoaded
  | pid (node : String) (pid : UInt32)
  | starttime (pid : UInt32)
  | execPid (block : String)
  | mgmtPeer (node : String)
  | savedImpairment (endpoint : String)
  | liveImpairment (endpoint : String)
  | processLog (pid : UInt32)
  | processTag (pid : UInt32)
  | topology (section' : String) (key : Option String)

/-- What an entry holds. -/
def Entry.Content : Entry → Type
  | .ns _ | .runtime | .mgmtPeer _ | .processTag _ => Option String
  | .container _ => Option ContainerState
  | .dnsInjected | .wifiLoaded | .pid _ _ => Bool
  | .starttime _ => Option UInt64
  | .execPid _ => Option UInt32
  | .savedImpairment _ | .liveImpairment _ => Option Impairment
  | .processLog _ => Option (String × String)
  | .topology _ _ => Option Value

instance : (e : Entry) → DecidableEq e.Content
  | .ns _ | .runtime | .mgmtPeer _ | .processTag _ => inferInstanceAs (DecidableEq (Option String))
  | .container _ => inferInstanceAs (DecidableEq (Option ContainerState))
  | .dnsInjected | .wifiLoaded | .pid _ _ => inferInstanceAs (DecidableEq Bool)
  | .starttime _ => inferInstanceAs (DecidableEq (Option UInt64))
  | .execPid _ => inferInstanceAs (DecidableEq (Option UInt32))
  | .savedImpairment _ | .liveImpairment _ => inferInstanceAs (DecidableEq (Option Impairment))
  | .processLog _ => inferInstanceAs (DecidableEq (Option (String × String)))
  | .topology _ _ => inferInstanceAs (DecidableEq (Option Value))

/-- A part of a serialized topology. -/
def topologyPart (topology : Value) (section' : String) (key : Option String) : Option Value :=
  match topology with
  | .obj sections =>
    match get sections section' with
    | some (.obj parts) => key.bind (get parts)
    | whole => if key.isNone then whole else none
  | _ => none

/-- The entries of what a handle tracks. -/
def Baseline.entries (b : Baseline) : (e : Entry) → e.Content
  | .ns node => b.namespaces[node]?
  | .container node => b.containers[node]?
  | .runtime => b.runtime
  | .dnsInjected => b.dnsInjected
  | .wifiLoaded => b.wifiLoaded
  | .pid node pid => decide ((node, pid) ∈ b.pids)
  | .starttime pid => b.starttimes[pid]?
  | .execPid block => b.execPids[block]?
  | .mgmtPeer node => b.mgmtPeers[node]?
  | .savedImpairment endpoint => b.savedImpairments[endpoint]?
  | .liveImpairment endpoint => b.liveImpairments[endpoint]?
  | .processLog pid => b.processLogs[pid]?
  | .processTag pid => b.processTags[pid]?
  | .topology section' key => topologyPart b.topology section' key

end NlinkLab
