import NlinkLab.State
import NlinkLab.Data.Merge

/-! Handles on a running lab (`running.rs`). A handle works on a copy of the
lab's state and saves by merging what it changed into the state file as it is
then. Some fields are merged entry by entry, the others as a whole
(`takeChanged`): a handle that changed one entry of such a field overwrites the
others with what it last read. -/

namespace NlinkLab

open Json

/-- A handle on a running lab. `baseline` is what it last read or wrote. -/
structure RunningLab where
  topology : Topology
  namespaceNames : BTreeMap String String := ∅
  containers : BTreeMap String ContainerState := ∅
  runtimeBinary : Option String := none
  pids : List (String × UInt32) := []
  dnsInjected : Bool := false
  wifiLoaded : Bool := false
  savedImpairments : BTreeMap String Impairment := ∅
  liveImpairments : BTreeMap String Impairment := ∅
  processLogs : BTreeMap UInt32 (String × String) := ∅
  processTags : BTreeMap UInt32 String := ∅
  starttimes : BTreeMap UInt32 UInt64 := ∅
  execPids : BTreeMap String UInt32 := ∅
  mgmtPeers : BTreeMap String String := ∅
  baseline : Baseline := {}

/-- What `state.json` and the topology beside it hold. -/
structure LabFile where
  state : LabState
  topology : Topology

def LabFile.tracked (f : LabFile) : Baseline := .ofState f.state f.topology

/-! ### Merging -/

/-- `fresh` becomes `mine` where this handle changed it since `base`. -/
def takeChanged {T : Type} [DecidableEq T] (fresh base mine : T) : T :=
  if mine ≠ base then mine else fresh

section Maps

variable {K V : Type} [Ord K] [Std.TransOrd K] [Std.LawfulEqOrd K] [DecidableEq V]

/-- This handle's own insertions, changes and removals since `base`, applied to
the file's `fresh` map. -/
def mergeMap (fresh base mine : BTreeMap K V) : BTreeMap K V :=
  let fresh := mine.toList.foldl
    (fun fresh (k, v) => if base[k]? ≠ some v then fresh.insert k v else fresh) fresh
  base.keys.foldl (fun fresh k => if !mine.contains k then fresh.erase k else fresh) fresh

end Maps

/-- `mergeMap` for the tracked `(node, pid)` list. -/
def mergePids (fresh base mine : List (String × UInt32)) : List (String × UInt32) :=
  mine.foldl (fun fresh p => if p ∉ base ∧ p ∉ fresh then fresh ++ [p] else fresh)
    (fresh.filter fun p => p ∈ mine ∨ p ∉ base)

/-- `fresh` (the state file) with this handle's changes since `base` applied. -/
def mergeInto (fresh : LabState) (base mine : Baseline) : LabState :=
  { fresh with
    namespaces := takeChanged fresh.namespaces base.namespaces mine.namespaces
    containers := takeChanged fresh.containers base.containers mine.containers
    runtime := takeChanged fresh.runtime base.runtime mine.runtime
    dnsInjected := takeChanged fresh.dnsInjected base.dnsInjected mine.dnsInjected
    wifiLoaded := takeChanged fresh.wifiLoaded base.wifiLoaded mine.wifiLoaded
    mgmtPeers := takeChanged fresh.mgmtPeers base.mgmtPeers mine.mgmtPeers
    pids := mergePids fresh.pids base.pids mine.pids
    starttimes := mergeMap fresh.starttimes base.starttimes mine.starttimes
    execPids := mergeMap fresh.execPids base.execPids mine.execPids
    savedImpairments := mergeMap fresh.savedImpairments base.savedImpairments mine.savedImpairments
    liveImpairments := mergeMap fresh.liveImpairments base.liveImpairments mine.liveImpairments
    processLogs := mergeMap fresh.processLogs base.processLogs mine.processLogs
    processTags := mergeMap fresh.processTags base.processTags mine.processTags }

/-! ### The handle -/

/-- Containers whose init PID now names another process have PID 0. -/
def zeroStaleContainerPids (hostStarttime : UInt32 → Option UInt64)
    (containers : BTreeMap String ContainerState) : BTreeMap String ContainerState :=
  containers.map fun _ c =>
    if c.pid ≠ 0 ∧ c.starttime.isSome ∧ hostStarttime c.pid ≠ c.starttime then { c with pid := 0 }
    else c

namespace RunningLab

def snapshot (lab : RunningLab) : Baseline where
  namespaces := lab.namespaceNames
  containers := lab.containers
  runtime := lab.runtimeBinary
  dnsInjected := lab.dnsInjected
  wifiLoaded := lab.wifiLoaded
  pids := lab.pids
  starttimes := lab.starttimes
  execPids := lab.execPids
  mgmtPeers := lab.mgmtPeers
  savedImpairments := lab.savedImpairments
  liveImpairments := lab.liveImpairments
  processLogs := lab.processLogs
  processTags := lab.processTags
  topology := toValue lab.topology

/-- A handle whose memory is the state `st` and `topology`. -/
def ofState (st : LabState) (topology : Topology) (baseline : Baseline) : RunningLab where
  topology
  namespaceNames := st.namespaces
  containers := st.containers
  runtimeBinary := st.runtime
  pids := st.pids
  dnsInjected := st.dnsInjected
  wifiLoaded := st.wifiLoaded
  savedImpairments := st.savedImpairments
  liveImpairments := st.liveImpairments
  processLogs := st.processLogs
  processTags := st.processTags
  starttimes := st.starttimes
  execPids := st.execPids
  mgmtPeers := st.mgmtPeers
  baseline

/-- A new handle, its state as it reads it taken as saved. -/
def load (hostStarttime : UInt32 → Option UInt64) (file : LabFile) : RunningLab :=
  let st := { file.state with
    containers := zeroStaleContainerPids hostStarttime file.state.containers }
  ofState st file.topology (.ofState st file.topology)

/-- The topology a merge keeps: this handle's when it changed one, else the file's. -/
def mergedTopology (lab : RunningLab) (file : LabFile) : Topology :=
  if lab.snapshot.topology = lab.baseline.topology then file.topology else lab.topology

/-- Take in the state file as it is now, keeping what this handle changed since
its baseline; the baseline becomes the file. -/
def refresh (hostStarttime : UInt32 → Option UInt64) (lab : RunningLab) (file : LabFile) :
    RunningLab :=
  let fresh := mergeInto file.state lab.baseline lab.snapshot
  ofState { fresh with containers := zeroStaleContainerPids hostStarttime fresh.containers }
    (lab.mergedTopology file) file.tracked

/-- Merge this handle's changes into the state file. `topology` is written as
given. A file of a newer schema is left alone. -/
def saveMerged (lab : RunningLab) (file : LabFile) (topology : Option Topology) :
    Option (LabFile × RunningLab) :=
  if file.state.schemaVersion > SCHEMA_VERSION then none
  else
    let fresh := mergeInto { file.state with schemaVersion := SCHEMA_VERSION }
      lab.baseline lab.snapshot
    let topology := topology.getD (lab.mergedTopology file)
    -- `directionalImpairments` is not written
    some ({ state := fresh, topology := { topology with directionalImpairments := [] } },
      { lab with baseline := lab.snapshot })

/-- Record a container node's new init PID; `none` when it is not a container node. -/
def setContainerPid (hostStarttime : UInt32 → Option UInt64) (lab : RunningLab) (node : String)
    (pid : UInt32) : Option RunningLab :=
  lab.containers[node]?.map fun c =>
    { lab with containers :=
        lab.containers.insert node { c with pid := pid, starttime := hostStarttime pid } }

end RunningLab

/-! ### The handles of one lab -/

/-- The state file, the lab's lock and the handles on the lab. -/
structure World (H : Type) where
  file : LabFile
  lock : Option H := none
  handles : H → Option RunningLab := fun _ => none

/-- What a handle does. The two reads of a `load` are made without the lock, so
what they return is left open; `f` changes the handle's memory. -/
inductive Event (H : Type) where
  | load (h : H) (read : LabFile) (hostStarttime : UInt32 → Option UInt64)
  | edit (h : H) (f : RunningLab → RunningLab)
  | begin (h : H) (hostStarttime : UInt32 → Option UInt64)
  | commit (h : H)
  | abandon (h : H)
  | saveState (h : H)

namespace World

variable {H : Type} [DecidableEq H]

def setHandle (w : World H) (h : H) (lab : RunningLab) : World H :=
  { w with handles := Function.update w.handles h (some lab) }

/-- The merge a save does, for a caller that holds the lab's lock. -/
def save (w : World H) (h : H) (lab : RunningLab) : World H :=
  match lab.saveMerged w.file none with
  | none => w
  | some (file, lab) => { w with file }.setHandle h lab

/-- The handle, when the lab's lock is free for it. -/
def free (w : World H) (h : H) : Option RunningLab := if w.lock = none then w.handles h else none

/-- The handle, when it holds the lab's lock. -/
def holder (w : World H) (h : H) : Option RunningLab := if w.lock = some h then w.handles h else none

/-- One step; a handle that has to wait for the lock, or has none to let go of,
does nothing. -/
def step (w : World H) : Event H → World H
  | .load h read hostStarttime => w.setHandle h (.load hostStarttime read)
  | .edit h f =>
    match w.handles h with
    | none => w
    | some lab => w.setHandle h { f lab with baseline := lab.baseline }
  | .begin h hostStarttime =>
    match w.free h with
    | none => w
    | some lab => { w with lock := some h }.setHandle h (lab.refresh hostStarttime w.file)
  | .commit h =>
    match w.holder h with
    | none => w
    | some lab => { w with lock := none }.save h lab
  | .abandon h => if w.lock = some h then { w with lock := none } else w
  | .saveState h =>
    match w.free h with
    | none => w
    | some lab => w.save h lab

def run (w : World H) (es : List (Event H)) : World H := es.foldl step w

end World

end NlinkLab
