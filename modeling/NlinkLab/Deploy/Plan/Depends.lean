import NlinkLab.Deploy.Plan.Subjects

/-! Dependencies between nodes in a plan. Where the nodes depend on each other without a
cycle, the walk visits each of them once and after all it depends on, and the stable sort
by stages keeps what they run in that order. -/

namespace NlinkLab

open TopoSort

/-- The node `n` names `dep` among those it depends on. -/
def DependsOn (nodes : BTreeMap String Node) (n dep : String) : Prop :=
  ∃ node, nodes[n]? = some node ∧ dep ∈ node.dependsOn

theorem mem_depsOf {nodes : BTreeMap String Node} {n dep : String} :
    dep ∈ depsOf nodes n ↔ DependsOn nodes n dep := by
  unfold depsOf DependsOn
  cases nodes[n]? <;> simp

/-! ### The walk as it runs -/

/-- The walk with its subtractions checked: none where one overflows, or where nodes are
pending after so many visits. -/
def Kahn.loop? (adj : BTreeMap String (List String)) : (fuel : Nat) → Kahn → Option Kahn
  | 0, s => if s.stack = [] then some s else none
  | fuel + 1, s =>
    match s.stack with
    | [] => some s
    | n :: stack => do
      let (inDegree, ready) ← (adj[n]?.getD []).foldlM release? (s.inDegree, [])
      Kahn.loop? adj fuel
        { inDegree, stack := ready.insertionSort (· ≤ ·) ++ stack, result := s.result ++ [n] }

/-- The order of nodes, where the walk comes to its end. -/
def topoSortNodes? (nodes : BTreeMap String Node) : Option (List String) := do
  let deps := nodes.toList.flatMap fun (name, node) => node.dependsOn.map fun dep => (dep, name)
  let inDegree := nodes.map fun _ node => node.dependsOn.length
  let ready := inDegree.toList.filterMap fun (n, d) => if d = 0 then some n else none
  let s ← Kahn.loop? (BTreeMap.group deps) nodes.size { inDegree, stack := ready }
  some (s.result ++ nodes.keys.filter (· ∉ s.result))

theorem Kahn.loop?_eq {nodes : BTreeMap String Node} {adj : BTreeMap String (List String)}
    (hadj : ∀ n k, nodes[k]?.isSome → (adj[n]?.getD []).count k = (depsOf nodes k).count n) (fuel : Nat) (s : Kahn)
    (h : Walk (depsOf nodes) (fun n => nodes[n]?.isSome) s.inDegree s.stack s.result)
    (hfuel : nodes.size ≤ s.result.length + fuel) : Kahn.loop? adj fuel s = some (Kahn.loop adj fuel s) := by
  induction fuel generalizing s with
  | zero =>
    have hle := length_le_size h
    exact if_pos (List.length_eq_zero_iff.mp (by omega))
  | succ fuel ih =>
    cases hstack : s.stack with
    | nil => simp only [Kahn.loop?, Kahn.loop, hstack]
    | cons n stack =>
      rw [hstack] at h
      have hrelease := foldlM_release? (adj[n]?.getD []) s.inDegree [] fun k d hk =>
        Nat.le.intro (h.count_add (hadj n) k d hk)
      have hvisit := h.visit _ (hadj n)
      rw [← List.append_nil stack, foldl_release_append] at hvisit
      have hrest := ih
        { inDegree := ((adj[n]?.getD []).foldl release (s.inDegree, [])).1
          stack := ((adj[n]?.getD []).foldl release (s.inDegree, [])).2.insertionSort (· ≤ ·) ++ stack
          result := s.result ++ [n] }
        (hvisit.perm (List.perm_append_comm.trans ((List.perm_insertionSort _ _).symm.append_right _))) (by
          rw [List.length_append, List.length_singleton]
          omega)
      simp only [Kahn.loop?, Kahn.loop, hstack, hrelease]
      exact hrest

theorem topoSortNodes?_eq (nodes : BTreeMap String Node) : topoSortNodes? nodes = some (topoSortNodes nodes) := by
  have h := Kahn.loop?_eq (fun n k _ => count_adj nodes (·.dependsOn) n k) nodes.size
    { inDegree := nodes.map fun _ node => node.dependsOn.length
      stack := (nodes.map fun _ node => node.dependsOn.length).toList.filterMap fun (n, d) =>
        if d = 0 then some n else none } (walk_start nodes (·.dependsOn)) (Nat.le_add_left _ _)
  unfold topoSortNodes?
  dsimp only at h ⊢
  rw [h]
  rfl

section Acyclic

variable {nodes : BTreeMap String Node} (hexists : ∀ n dep, DependsOn nodes n dep → nodes[dep]?.isSome)
  (hacyclic : ∀ n, ¬Relation.TransGen (DependsOn nodes) n n)
include hexists hacyclic

/-- The walk visits every node. -/
theorem exists_walk_topoSortNodes : ∃ inDegree,
    Walk (depsOf nodes) (fun n => nodes[n]?.isSome) inDegree [] (topoSortNodes nodes) := by
  obtain ⟨inDegree, sorted, hwalk, heq⟩ := exists_walk nodes
  have hfinite : Set.Finite {n | nodes[n]?.isSome} :=
    (List.finite_toSet nodes.keys).subset fun n hn =>
      Std.ExtTreeMap.mem_keys.mpr (Std.ExtTreeMap.mem_iff_isSome_getElem?.mpr hn)
  have hall := hwalk.complete_of_acyclic (fun n _ d hd => hexists n d (mem_depsOf.mp hd)) hfinite
    (fun n _ d hd => mem_depsOf.mp hd) hacyclic
  have hrest : nodes.keys.filter (· ∉ sorted) = [] := List.filter_eq_nil_iff.mpr fun n hn => by
    have hmem := hall n (Std.ExtTreeMap.mem_iff_isSome_getElem?.mp (Std.ExtTreeMap.mem_keys.mp hn))
    simpa using hmem
  rw [heq, hrest, List.append_nil]
  exact ⟨inDegree, hwalk⟩

/-- No node comes before one it depends on. -/
theorem pairwise_topoSortNodes :
    (topoSortNodes nodes).Pairwise fun a b => ¬Relation.TransGen (DependsOn nodes) a b := by
  obtain ⟨inDegree, hwalk⟩ := exists_walk_topoSortNodes hexists hacyclic
  refine List.pairwise_iff_forall_sublist.mpr fun {a b} hab hdep => ?_
  obtain ⟨before, after, heq, ha, hb⟩ := List.cons_sublist_iff.mp hab
  obtain ⟨pre, post, rfl⟩ := List.append_of_mem ha
  rw [List.append_assoc] at heq
  have hpre := hwalk.mem_of_transGen (fun _ _ => mem_depsOf.mpr) heq hdep
  have hnodup := nodup_topoSortNodes nodes
  rw [heq, ← List.append_assoc] at hnodup
  exact (List.nodup_append.mp hnodup).2.2 b (List.mem_append_left _ hpre) b (List.singleton_sublist.mp hb) rfl

end Acyclic

theorem perm_topoSortNodes (nodes : BTreeMap String Node) : (topoSortNodes nodes).Perm nodes.keys :=
  (List.perm_ext_iff_of_nodup (nodup_topoSortNodes nodes) Std.ExtTreeMap.nodup_keys).mpr fun n => by
    rw [mem_topoSortNodes, Std.ExtTreeMap.mem_keys, Std.ExtTreeMap.mem_iff_isSome_getElem?]

/-! ### What the nodes run -/

/-- The node whose delay, command or health check the op is. -/
def Op.process : Op → Option String
  | startupDelay node _ | exec node .. | healthcheck node .. => some node
  | _ => none

theorem stage_of_process {op : Op} {n : String} (h : op.process = some n) : op.stage = .processes := by
  cases op <;> first | rfl | cases h

theorem part_of_process {op : Op} {n : String} (h : op.process = some n) :
    op.subject.part = 9 ∧ op.subject.owner = some n := by
  cases op <;> first | exact ⟨rfl, h⟩ | cases h

namespace Parts

variable {env : Plan.Env} {t : Topology} {inputs : PlanInputs} (q : Parts env t inputs)

/-- What a plan starts in the nodes is one of its parts. -/
theorem filter_process : q.ops.filter (·.process.isSome) = (Plan.processOps q.topo).filter (·.process.isSome) := by
  have hother : ∀ l : List Op, (∀ op ∈ l, op.subject.part ≠ 9) → l.filter (·.process.isSome) = [] := fun l hl =>
    List.filter_eq_nil_iff.mpr fun op hop hsome => by
      obtain ⟨n, hn⟩ := Option.isSome_iff_exists.mp hsome
      exact hl op hop (part_of_process hn).1
  have hnodes := hother (Plan.nodeOps q.topo (dnsExtraHosts t)) fun op hop => by
    obtain ⟨name, node, -, rfl⟩ := Plan.mem_nodeOps hop
    unfold Plan.nodeOp
    split
    · nofun
    · split <;> nofun
  have hradios := hother (Plan.radioOps q.topo) fun op hop => by
    obtain ⟨_, _, _, _, -, -, rfl⟩ := Plan.mem_radioOps hop
    nofun
  have hmgmt := hother q.mgmt fun op hop => by
    rw [Plan.part_of_mem_mgmtOps q.mgmt_eq hop]
    nofun
  have hinterfaces := hother (q.bridges ++ q.links ++ Plan.hostLinkOps q.topo) fun op hop => by
    rw [q.part_interfaces op hop]
    nofun
  have hlinksUp := hother (Plan.linksUpOps q.topo) fun op hop => by
    obtain ⟨_, _, -, rfl⟩ := Plan.mem_linksUpOps hop
    nofun
  have hsysctls := hother (Plan.sysctlOps q.topo env.nl) fun op hop => by
    obtain ⟨_, _, -, rfl⟩ := Plan.mem_sysctlOps hop
    nofun
  have hdns := hother (Plan.dnsOps q.topo) fun op hop => by
    obtain rfl | ⟨_, _, -, rfl⟩ := Plan.mem_dnsOps hop <;> nofun
  have hdeclared := hother q.declared fun op hop => by
    obtain ⟨_, _, _, -, rfl⟩ := Plan.mem_stackOps q.declared_eq hop
    nofun
  have hfrr := hother q.frr fun op hop => by
    obtain ⟨_, _, _, -, rfl⟩ := Plan.mem_frrOps q.frr_eq hop
    nofun
  have hwifi := hother (Plan.wifiOps q.topo) fun op hop => by
    obtain ⟨_, _, -, _, -, rfl⟩ := Plan.mem_wifiOps.mp hop
    nofun
  simp only [List.filter_append] at hinterfaces
  simp only [ops, List.filter_append, hnodes, hradios, hmgmt, hlinksUp, hsysctls, hdns, hdeclared, hfrr, hwifi,
    List.append_assoc, List.nil_append, List.append_nil] at hinterfaces ⊢
  rw [← List.append_assoc (q.links.filter _), ← List.append_assoc, hinterfaces, List.nil_append]

end Parts

namespace Plan

theorem subject_of_mem_processOps {t : Topology} {n : String} {op : Op}
    (h : op ∈ (t.nodes[n]?.map (nodeProcessOps n)).getD []) : op.subject.owner = some n := by
  cases hnode : t.nodes[n]? with
  | none =>
    rw [hnode] at h
    exact absurd h List.not_mem_nil
  | some node =>
    rw [hnode] at h
    exact (subject_of_mem_nodeProcessOps h).1

/-- Whether an op of one node may stand before one of another. -/
def MayPrecede (nodes : BTreeMap String Node) (x y : Op) : Prop :=
  ∀ a b, x.process = some a → y.process = some b → ¬Relation.TransGen (DependsOn nodes) a b

theorem pairwise_processOps {t : Topology} (hexists : ∀ n dep, DependsOn t.nodes n dep → t.nodes[dep]?.isSome)
    (hacyclic : ∀ n, ¬Relation.TransGen (DependsOn t.nodes) n n) :
    (processOps t).Pairwise (MayPrecede t.nodes) := by
  have howner : ∀ n, ∀ op ∈ (t.nodes[n]?.map (nodeProcessOps n)).getD [], ∀ a, op.process = some a → a = n :=
    fun n op hop a ha => Option.some.inj ((part_of_process ha).2.symm.trans (subject_of_mem_processOps hop))
  refine List.pairwise_flatMap.mpr ⟨fun n _ => ?_, ?_⟩
  · refine List.pairwise_of_forall_mem_list fun x hx y hy a b ha hb => ?_
    rw [howner n x hx a ha, howner n y hy b hb]
    exact hacyclic n
  · refine (pairwise_topoSortNodes hexists hacyclic).imp fun {m n} hmn x hx y hy a b ha hb => ?_
    rw [howner m x hx a ha, howner n y hy b hb]
    exact hmn

/-- The sort by stages keeps the order of the ops of one stage. -/
theorem filter_sorted {ops : List Op} {p : Op → Bool} {stage : Stage} (h : ∀ op, p op → op.stage = stage) :
    (Plan.mk ops).sorted.ops.filter p = ops.filter p := by
  have : Std.Total fun x y : Op => x.stage.rank ≤ y.stage.rank := ⟨fun x y => le_total _ _⟩
  have : IsTrans Op fun x y => x.stage.rank ≤ y.stage.rank := ⟨fun _ _ _ => le_trans⟩
  have hsame : (ops.filter p).Pairwise fun x y => x.stage.rank ≤ y.stage.rank :=
    List.pairwise_of_forall_mem_list fun x hx y hy => by
      rw [h x (List.mem_filter.mp hx).2, h y (List.mem_filter.mp hy).2]
  have hsub := (List.sublist_insertionSort hsame List.filter_sublist).filter p
  rw [List.filter_filter] at hsub
  simp only [Bool.and_self] at hsub
  exact (hsub.eq_of_length ((List.perm_insertionSort _ _).filter p).length_eq.symm).symm

theorem pairwise_plan {env : Env} {t : Topology} {inputs : PlanInputs} {p : Plan} (hp : plan env t inputs = .ok p)
    (hexists : ∀ n dep, DependsOn t.nodes n dep → t.nodes[dep]?.isSome)
    (hacyclic : ∀ n, ¬Relation.TransGen (DependsOn t.nodes) n n) : p.ops.Pairwise (MayPrecede t.nodes) := by
  obtain ⟨q, rfl⟩ := plan_eq_ok.mp hp
  have hnodes := (withMgmtNetwork_eq q.topo_eq).1
  have hfilter : (Plan.mk q.ops).sorted.ops.filter (·.process.isSome) =
      (processOps q.topo).filter (·.process.isSome) := by
    rw [@filter_sorted q.ops _ .processes fun op hop => ?_, q.filter_process]
    obtain ⟨n, hn⟩ := Option.isSome_iff_exists.mp hop
    exact stage_of_process hn
  have hpairwise := (@pairwise_processOps q.topo (hnodes ▸ hexists) (hnodes ▸ hacyclic)).filter
    fun op : Op => op.process.isSome
  rw [hnodes, ← hfilter, List.pairwise_filter] at hpairwise
  refine hpairwise.imp fun {x y} h a b ha hb => h ?_ ?_ a b ha hb
  · rw [ha]
    rfl
  · rw [hb]
    rfl

end Plan

/-- Where the nodes depend only on nodes and on none in a cycle, the walk ends without an
overflow, gives every node once and after all it depends on, and the plan keeps what the
nodes start in that order. -/
theorem topoSortNodes_dependencies {nodes : BTreeMap String Node}
    (hexists : ∀ n dep, DependsOn nodes n dep → nodes[dep]?.isSome)
    (hacyclic : ∀ n, ¬Relation.TransGen (DependsOn nodes) n n) :
    topoSortNodes? nodes = some (topoSortNodes nodes) ∧ (topoSortNodes nodes).Perm nodes.keys ∧
      (∀ pre n post, topoSortNodes nodes = pre ++ n :: post →
        ∀ dep, Relation.TransGen (DependsOn nodes) n dep → dep ∈ pre) ∧
      ∀ env t inputs p, t.nodes = nodes → plan env t inputs = .ok p →
        ∀ (i j : Nat) (hi : i < p.ops.length) (hj : j < p.ops.length) (n dep : String),
          p.ops[i].process = some dep → p.ops[j].process = some n →
            Relation.TransGen (DependsOn nodes) n dep → i < j := by
  refine ⟨topoSortNodes?_eq nodes, perm_topoSortNodes nodes, fun pre n post heq dep hdep => ?_, ?_⟩
  · obtain ⟨inDegree, hwalk⟩ := exists_walk_topoSortNodes hexists hacyclic
    exact hwalk.mem_of_transGen (fun _ _ => mem_depsOf.mpr) heq hdep
  · rintro env t inputs p rfl hp i j hi hj n dep hdep hn hdepends
    by_contra hle
    rcases (not_lt.mp hle).eq_or_lt with rfl | hlt
    · obtain rfl := Option.some.inj (hdep.symm.trans hn)
      exact hacyclic dep hdepends
    · exact List.pairwise_iff_getElem.mp (Plan.pairwise_plan hp hexists hacyclic) j i hj hi hlt n dep hn hdep hdepends

/-- A node that names the one it depends on twice, each with a command. -/
def servedNodes : BTreeMap String Node :=
  ((∅ : BTreeMap String Node).insert "app" { dependsOn := ["db", "db"], exec := [{ cmd := ["serve"] }] }).insert "db"
    { exec := [{ cmd := ["store"] }] }

def servedLab : Topology := { lab := { name := "lab" }, nodes := servedNodes }

theorem dependsOn_servedNodes {n dep : String} : DependsOn servedNodes n dep ↔ n = "app" ∧ dep = "db" := by
  constructor
  · rintro ⟨node, hnode, hdep⟩
    unfold servedNodes at hnode
    rw [getElem?_insert_eq, getElem?_insert_eq] at hnode
    split_ifs at hnode with hdb happ
    · cases hnode
      cases hdep
    · cases hnode
      exact ⟨happ, by simpa using hdep⟩
    · simp at hnode
  · rintro ⟨rfl, rfl⟩
    exact ⟨{ dependsOn := ["db", "db"], exec := [{ cmd := ["serve"] }] }, by decide +kernel, List.mem_cons_self⟩

theorem topoSortNodes_dependencies_served :
    topoSortNodes servedNodes = ["db", "app"] ∧ topoSortNodes? servedNodes = some (topoSortNodes servedNodes) ∧
      (topoSortNodes servedNodes).Perm servedNodes.keys ∧
      (∀ pre n post, topoSortNodes servedNodes = pre ++ n :: post →
        ∀ dep, Relation.TransGen (DependsOn servedNodes) n dep → dep ∈ pre) ∧
      (samplePlan servedLab).ops.filterMap Op.process = ["db", "app"] ∧
      ∀ (i j : Nat) (hi : i < (samplePlan servedLab).ops.length) (hj : j < (samplePlan servedLab).ops.length),
        (samplePlan servedLab).ops[i].process = some "db" → (samplePlan servedLab).ops[j].process = some "app" → i < j := by
  have h := @topoSortNodes_dependencies servedNodes
    (fun n dep hdep => by rw [(dependsOn_servedNodes.mp hdep).2]; rfl) fun n hcycle => by
      obtain ⟨_, hhead, -⟩ := Relation.TransGen.head'_iff.mp hcycle
      obtain ⟨_, -, htail⟩ := Relation.TransGen.tail'_iff.mp hcycle
      have heq := (dependsOn_servedNodes.mp hhead).1.symm.trans (dependsOn_servedNodes.mp htail).2
      exact absurd heq (by decide)
  have hplan : plan Plan.Env.sample servedLab {} = .ok (samplePlan servedLab) := by decide +kernel
  have hdepends : Relation.TransGen (DependsOn servedNodes) "app" "db" := .single (dependsOn_servedNodes.mpr ⟨rfl, rfl⟩)
  exact ⟨by decide +kernel, h.1, h.2.1, h.2.2.1, by decide +kernel, fun i j hi hj hdb happ =>
    h.2.2.2 _ servedLab {} _ rfl hplan i j hi hj "app" "db" hdb happ hdepends⟩

end NlinkLab
