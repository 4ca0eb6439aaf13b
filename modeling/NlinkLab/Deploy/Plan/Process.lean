import NlinkLab.Data.Text
import NlinkLab.Deploy.Op

/-! Container options and the order of nodes by what they depend on
(`deploy/plan/process.rs`). -/

namespace NlinkLab

/-- An RFC 1123 host name label. -/
def isHostname (name : String) : Bool :=
  name ≠ "" ∧ name.utf8ByteSize ≤ 63 ∧ name.toList.head? ≠ some '-' ∧
    name.toList.getLast? ≠ some '-' ∧ name.toList.all fun c => isAsciiAlphanumeric c ∨ c = '-'

/-- Container options from a node's fields; relative host paths are put under
`base`, the topology's source directory. -/
def buildCreateOpts (name : String) (node : Node) (extraHosts : List String)
    (base : Option String) : CreateOpts :=
  let host := fun (p : String) =>
    match base with
    | some b => if p.toList.head? = some '/' then p else joinPath b p
    | none => p
  { cmd := node.cmd
    env := node.env.getD ∅
    volumes := node.volumes.getD []
    cpu := node.cpu
    memory := node.memory
    privileged := node.privileged
    capAdd := node.capAdd
    capDrop := node.capDrop
    entrypoint := node.entrypoint
    hostname := node.hostname <|> if isHostname name then some name else none
    workdir := node.workdir
    labels := node.labels
    extraHosts
    configs := node.configs.map fun (h, c) => (host h, c)
    envFile := node.envFile.map host
    overlay := node.overlay.map host }

/-! ### Dependency order -/

/-- The walk of `topoSortNodes`: how many dependencies each node still waits
for, and the nodes that wait for none, the next to visit first. -/
structure Kahn where
  inDegree : BTreeMap String Nat
  stack : List String
  result : List String := []

/-- One dependent of a visited node waits for one node less. -/
def Kahn.release (s : BTreeMap String Nat × List String) (dep : String) :
    BTreeMap String Nat × List String :=
  match s.1[dep]? with
  | none => s
  | some d => (s.1.insert dep (d - 1), if d - 1 = 0 then s.2 ++ [dep] else s.2)

/-- Visit the next node, as long as there is one. -/
def Kahn.loop (adj : BTreeMap String (List String)) : (fuel : Nat) → Kahn → Kahn
  | 0, s => s
  | fuel + 1, s =>
    match s.stack with
    | [] => s
    | n :: stack =>
      let (inDegree, ready) := (adj[n]?.getD []).foldl Kahn.release (s.inDegree, [])
      Kahn.loop adj fuel
        { inDegree, stack := ready.insertionSort (· ≤ ·) ++ stack, result := s.result ++ [n] }

/-- The nodes, each after the nodes it depends on, in name order where that
leaves a choice; nodes on a cycle come last. -/
def topoSortNodes (nodes : BTreeMap String Node) : List String :=
  let deps := nodes.toList.flatMap fun (name, node) => node.dependsOn.map fun dep => (dep, name)
  let adj := BTreeMap.group deps
  let inDegree := nodes.map fun _ node => node.dependsOn.length
  let ready := inDegree.toList.filterMap fun (n, d) => if d = 0 then some n else none
  -- every node is put on the stack at most once, so that many visits empty it
  let sorted := (Kahn.loop adj nodes.size { inDegree, stack := ready }).result
  sorted ++ nodes.keys.filter (· ∉ sorted)

end NlinkLab
