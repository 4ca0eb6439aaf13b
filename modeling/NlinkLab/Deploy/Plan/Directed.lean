import NlinkLab.Data.Fallible
import NlinkLab.Deploy.Plan

/-! A plan does not depend on which impairments were written for one direction: what is
read back from the state file, which does not hold them, is planned as before. -/

namespace NlinkLab

open Fallible

/-- A topology with other directional impairments. -/
def Topology.directed (t : Topology) (endpoints : List String) : Topology :=
  { t with directionalImpairments := endpoints }

theorem withMgmtNetwork_directed (t : Topology) (endpoints : List String) :
    withMgmtNetwork (t.directed endpoints) = (withMgmtNetwork t).map (·.directed endpoints) := by
  unfold withMgmtNetwork Topology.directed
  cases t.lab.mgmtSubnet with
  | none => rfl
  | some subnet =>
    dsimp only
    split_ifs
    · rfl
    · cases mgmtAddresses subnet t.nodes.size <;> rfl

namespace Plan

theorem linkOpsFrom_directed (t : Topology) (endpoints : List String) (taps : BTreeMap String Nat)
    (links : List Link) : linkOpsFrom (t.directed endpoints) taps links = linkOpsFrom t taps links := by
  induction links generalizing taps with
  | nil => rfl
  | cons link links ih =>
    have hlink : linkOp (t.directed endpoints) taps link = linkOp t taps link := rfl
    simp only [linkOpsFrom, hlink, ih]

theorem planTopology_directed (nl : Nlink) (t : Topology) (endpoints extraHosts : List String) :
    planTopology nl (t.directed endpoints) extraHosts = planTopology nl t extraHosts := by
  have hlinks : linkOps (t.directed endpoints) = linkOps t := linkOpsFrom_directed t endpoints ∅ t.links
  unfold planTopology
  rw [hlinks]
  rfl

end Plan

theorem plan_directed (env : Plan.Env) (t : Topology) (endpoints : List String) (inputs : PlanInputs) :
    plan env (t.directed endpoints) inputs = plan env t inputs := by
  have hprocesses : ∀ topo : Topology, Plan.processOps (topo.directed endpoints) = Plan.processOps topo :=
    fun _ => rfl
  have hstacks : ∀ topo : Topology, Plan.stackOps env (t.directed endpoints) (topo.directed endpoints) inputs =
      Plan.stackOps env t topo inputs := fun _ => rfl
  have hfrr : Plan.frrOps (t.directed endpoints) = Plan.frrOps t := rfl
  have hhosts : dnsExtraHosts (t.directed endpoints) = dnsExtraHosts t := rfl
  unfold plan planOps
  rw [withMgmtNetwork_directed]
  cases withMgmtNetwork t with
  | error e => rfl
  | ok topo =>
    have hwifi : Plan.wifiOps (topo.directed endpoints) = Plan.wifiOps topo := rfl
    simp only [Except.map, bind, Except.bind, hhosts, Plan.planTopology_directed, hstacks, hfrr,
      hprocesses, hwifi]

end NlinkLab
