import NlinkLab.Deploy.Op.Diff
import NlinkLab.Deploy.Plan.Ops

/-! Reattaching a node whose container was restarted (`deploy/mod.rs`): the lab's
plan against the plan without the node's links, and all that lived in the node's
namespace. -/

namespace NlinkLab

/-- Whether an endpoint is on a node. -/
def touches (node ep : String) : Bool := before ':' ep = node

namespace Topology

/-- The ends of a node's links, which went with its namespace. -/
def lostEnds (t : Topology) (node : String) : List String :=
  (t.links.filter fun l => touches node l.endpoints.1 ∨ touches node l.endpoints.2).flatMap fun l =>
    [l.endpoints.1, l.endpoints.2]

/-- The topology without a node's links, and without the impairments of their ends. -/
def withoutLinks (t : Topology) (node : String) : Topology :=
  { t with
    links := t.links.filter fun l => !(touches node l.endpoints.1 ∨ touches node l.endpoints.2)
    impairments := t.impairments.filter fun ep _ => ep ∉ t.lostEnds node }

end Topology

namespace Plan

/-- The difference with all that lives in the node, in stage order. -/
def reattach (cur des : Plan) (node : String) : Plan :=
  (Plan.mk (des.ops.foldl (fun ops op =>
    if op.livesInNode node ∧ op ∉ ops then ops ++ [op] else ops) (diff cur des).ops)).sorted

end Plan

/-- What a reattach of a node executes: the lab as it is against the lab without
the node's links. A partition of a lost link end is gone. -/
def reattachPlan (env : Plan.Env) (t : Topology) (node : String) (inputs : PlanInputs) :
    Except Error Plan := do
  let inputs := { inputs with partitions := inputs.partitions.filter (· ∉ t.lostEnds node) }
  let cur ← plan env (t.withoutLinks node) inputs
  let des ← plan env t inputs
  return cur.reattach des node

end NlinkLab
