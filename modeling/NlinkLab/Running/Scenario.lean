import NlinkLab.Running.Runs

/-! Scenarios on a running lab (`scenario.rs`, `running.rs`): actions on its traffic control
and interfaces, one after the other, and what is put back at the end. Each change takes the
lab's lock for itself, so that other clients change the lab between any two of them. -/

namespace NlinkLab

/-- The elements of a list in order, each once. -/
def btreeSet (l : List String) : List String := l.dedup.insertionSort (· ≤ ·)

@[simp] theorem mem_btreeSet {l : List String} {s : String} : s ∈ btreeSet l ↔ s ∈ l := by
  rw [btreeSet, List.mem_insertionSort, List.mem_dedup]

/-- A lab's live impairments and partitions, as a scenario found them. -/
structure RuntimeTc where
  live : BTreeMap String Impairment := ∅
  partitions : BTreeMap String Impairment := ∅

/-- A host whose interfaces can be taken down. -/
structure ScenarioHost extends Host where
  /-- Why an interface cannot be set up or down. -/
  setLink : NsRef → String → Bool → Option OpError
  /-- A change that is refused may have been made all the same. -/
  setAnyway : NsRef → String → Bool → Bool

namespace RunningLab

def runtimeTc (lab : RunningLab) : RuntimeTc where
  live := lab.liveImpairments
  partitions := lab.savedImpairments

/-! ### One change of a handle -/

/-- One change of a handle that stays open: take the lock, take in the file, do the task and
save. A task of one operation that fails leaves the handle as it was read. -/
def mutate (host : Host) (task : Task) (lab : RunningLab) (file : LabFile) : Option OpError × RunningLab × LabFile :=
  let lab := lab.refresh host.starttime file
  match task.run host lab with
  | .error e => (some e, lab, file)
  | .ok none => (none, lab, file)
  | .ok (some lab) =>
    match lab.commit file with
    | .ok file => (none, { lab with baseline := lab.snapshot }, file)
    | .error e => (some e, lab, file)

/-! ### Putting traffic control back -/

/-- Put one entry of a map back to what it was in another. -/
def restoreEntry (now was : BTreeMap String Impairment) (ep : String) : BTreeMap String Impairment :=
  match was[ep]? with
  | some imp => now.insert ep imp
  | none => now.erase ep

theorem getElem?_restoreEntry (now was : BTreeMap String Impairment) (e ep : String) :
    (restoreEntry now was e)[ep]? = if e = ep then was[ep]? else now[ep]? := by
  unfold restoreEntry
  by_cases hep : e = ep
  · subst hep
    cases h : was[e]? <;> simp
  · cases was[e]? <;> simp [Std.ExtTreeMap.getElem?_erase, Std.ExtTreeMap.getElem?_insert, hep]

/-- With `only`, the endpoints outside it keep what they have now. -/
def restoreTarget (only : Option (List String)) (now was : BTreeMap String Impairment) : BTreeMap String Impairment :=
  match only with
  | none => was
  | some eps => eps.foldl (restoreEntry · was ·) now

/-- The endpoints whose impairment or partition differs; what a partition recorded does not count. -/
def restoreChanges (lab : RunningLab) (live partitions : BTreeMap String Impairment) : List String :=
  btreeSet (((lab.liveImpairments.keys ++ live.keys).filter fun ep => lab.liveImpairments[ep]? ≠ live[ep]?) ++
    ((lab.savedImpairments.keys ++ partitions.keys).filter fun ep =>
      lab.savedImpairments.contains ep ≠ partitions.contains ep))

/-- Put the runtime traffic control back to `state`: the endpoints that changed, or why a node
of theirs cannot be reconciled. -/
def restoreRuntimeTc (host : Host) (state : RuntimeTc) (only : Option (List String)) (lab : RunningLab)
    (file : LabFile) : Except OpError (List String) × RunningLab × LabFile :=
  let lab := lab.refresh host.starttime file
  let live := restoreTarget only lab.liveImpairments state.live
  let partitions := restoreTarget only lab.savedImpairments state.partitions
  let changed := lab.restoreChanges live partitions
  if changed = [] then (.ok [], lab, file)
  else
    let nodes := btreeSet (changed.filterMap fun ep => (EndpointRef.parse ep).map (·.node))
    let after := lab.withTc live partitions
    match nodes.findSome? fun node =>
        match after.nsResolverOf host node with
        | none => some (.lab (.nodeNotFound node))
        | some ns => host.reconcile ns node lab.liveView after.liveView with
    | some e => (.error e, lab, file)
    | none =>
      match after.commit file with
      | .ok file => (.ok changed, { after with baseline := after.snapshot }, file)
      | .error e => (.error e, after, file)

/-! ### Interfaces -/

/-- The interface of an endpoint. -/
def linkOf (host : ScenarioHost) (lab : RunningLab) (endpoint : String) : Except OpError (NsRef × String) := do
  let ep ← parseEndpoint endpoint
  return (← lab.nsOf host.toHost ep.node, ep.iface)

/-- Set an interface up or down; `down` says which are down. -/
def setLinkState (host : ScenarioHost) (lab : RunningLab) (endpoint : String) (up : Bool) (down : String → Bool) :
    Option OpError × (String → Bool) :=
  match lab.linkOf host endpoint with
  | .error e => (some e, down)
  | .ok (ns, iface) =>
    let set := Function.update down endpoint !up
    match host.setLink ns iface up with
    | none => (none, set)
    | some e => (some e, if host.setAnyway ns iface up then set else down)

/-- Bring interfaces up one after the other, whichever fails. -/
def bringUp (host : ScenarioHost) (lab : RunningLab) :
    List String → (String → Bool) → List (String × Option OpError) × (String → Bool)
  | [], down => ([], down)
  | ep :: eps, down =>
    let (failed, down) := lab.setLinkState host ep true down
    let (ups, down) := lab.bringUp host eps down
    ((ep, failed) :: ups, down)

end RunningLab

/-! ### Actions -/

namespace Scenario

/-- The actions of a scenario on interfaces, impairments and partitions. Of the others, one that
checks, logs or runs a command leaves the lab as it is, one on a pair of a network is an apply,
and a replay has a handle of its own. -/
inductive LiveAction where
  | down (endpoint : String)
  | up (endpoint : String)
  | clear (endpoint : String)
  | impair (endpoint : String) (impairment : Impairment)
  | partition (endpoint : String) (both : Bool)
  | heal (endpoint : String) (both : Bool)
  deriving DecidableEq

/-- What a scenario changed, kept to put back when it ends. -/
structure Undo where
  tc : RuntimeTc
  /-- The endpoints whose impairment or partition it changed. -/
  touched : List String := []
  /-- The interfaces it took down and did not bring back. -/
  down : List String := []

namespace Undo

def of (lab : RunningLab) : Undo where
  tc := lab.runtimeTc

/-- Note what an action is about to change. -/
def note (undo : Undo) (lab : RunningLab) : LiveAction → Undo
  | .down endpoint => { undo with down := btreeSet (endpoint :: undo.down) }
  | .up _ => undo
  | .clear endpoint | .impair endpoint _ => { undo with touched := btreeSet (endpoint :: undo.touched) }
  | .partition endpoint both | .heal endpoint both =>
    let peer := if both then (lab.peerEndpoint endpoint).toOption.toList else []
    { undo with touched := btreeSet (endpoint :: peer ++ undo.touched) }

/-- Track what an action that succeeded did. -/
def done (undo : Undo) : LiveAction → Undo
  | .up endpoint => { undo with down := undo.down.filter (· ≠ endpoint) }
  | _ => undo

end Undo

namespace LiveAction

/-- An endpoint, and with `both` the other end of its link. -/
def ends (lab : RunningLab) (endpoint : String) (both : Bool) : Except OpError (List String) :=
  if both then do return [endpoint, ← lab.peerEndpoint endpoint] else .ok [endpoint]

/-- The changes an action makes, each under the lock. Healing what the handle does not know as
partitioned is left out. -/
def tasks (lab : RunningLab) : LiveAction → Except OpError (List Task)
  | .down _ | .up _ => .ok []
  | .clear endpoint => .ok [.clear endpoint]
  | .impair endpoint impairment => .ok [.set [(endpoint, impairment)]]
  | .partition endpoint both => do return (← ends lab endpoint both).map .partition
  | .heal endpoint both => do
    return ((← ends lab endpoint both).filter (· ∈ lab.savedImpairments)).map .heal

end LiveAction

/-! ### Runs -/

/-- The file, the scenario's handle and what it will undo, the interfaces that are down, and
what is left of the action under way. -/
structure Run where
  file : LabFile
  lab : RunningLab
  undo : Undo
  down : String → Bool
  pending : List Task := []

/-- What happens while a scenario runs, each on the host as it then is: it starts an action,
makes the next change of the one under way, or another client's request is served. -/
inductive Event where
  | act (host : ScenarioHost) (action : LiveAction)
  | change (host : Host)
  | other (host : Host) (request : Request)

/-- What putting back reports: of each interface it brings up why it could not, and of traffic
control the endpoints that changed. -/
structure Report where
  ups : List (String × Option OpError)
  tc : Except OpError (List String)

/-- Nothing failed. -/
structure Report.Succeeds (r : Report) : Prop where
  ups : ∀ u ∈ r.ups, u.2 = none
  tc : ∃ changed, r.tc = .ok changed

namespace Run

variable (vals : Values)

def start (lab : RunningLab) (file : LabFile) (down : String → Bool) : Run where
  file
  lab
  undo := .of lab
  down

/-- An action on an interface is made at once; one on traffic control leaves its changes to be
made. -/
def act (host : ScenarioHost) (s : Run) (action : LiveAction) : Run :=
  let undo := s.undo.note s.lab action
  match action with
  | .down endpoint =>
    let (failed, down) := s.lab.setLinkState host endpoint false s.down
    { s with undo := if failed.isNone then undo.done action else undo, down }
  | .up endpoint =>
    let (failed, down) := s.lab.setLinkState host endpoint true s.down
    { s with undo := if failed.isNone then undo.done action else undo, down }
  | action =>
    match action.tasks s.lab with
    | .error _ => { s with undo }
    | .ok pending => { s with undo, pending }

/-- An action whose change fails makes no other. -/
def step (s : Run) : Event → Run
  | .act host action => if s.pending = [] then s.act host action else s
  | .change host =>
    match s.pending with
    | [] => s
    | task :: pending =>
      match s.lab.mutate host task s.file with
      | (none, lab, file) => { s with lab, file, pending }
      | (some _, lab, file) => { s with lab, file, pending := [] }
  | .other host request => { s with file := served vals s.file (host, request) }

def run (s : Run) (es : List Event) : Run := es.foldl (step vals) s

/-- The end of a scenario that does not keep what it did: the interfaces up, then the traffic
control. -/
def putBack (host : ScenarioHost) (s : Run) : Report × Run :=
  let (ups, down) := s.lab.bringUp host s.undo.down s.down
  let (tc, lab, file) := s.lab.restoreRuntimeTc host.toHost s.undo.tc (some s.undo.touched) s.file
  (⟨ups, tc⟩, { s with lab, file, down })

end Run

end Scenario

end NlinkLab
