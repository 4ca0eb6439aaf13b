import NlinkLab.Data.Fallible
import NlinkLab.Deploy.Plan

/-! What ops a plan has: the lists it is put together from, and what each of them
holds. -/

namespace NlinkLab

open Fallible

/-- The parts of a plan that can be made. -/
structure Parts (env : Plan.Env) (t : Topology) (inputs : PlanInputs) where
  /-- The topology with its management network. -/
  topo : Topology
  mgmt : List Op
  bridges : List Op
  links : List Op
  declared : List Op
  frr : List Op
  topo_eq : withMgmtNetwork t = .ok topo
  mgmt_eq : Plan.mgmtOps topo = .ok mgmt
  bridges_eq : Plan.bridgeOps topo = .ok bridges
  links_eq : Plan.linkOps topo = .ok links
  declared_eq : Plan.stackOps env t topo inputs = .ok declared
  frr_eq : Plan.frrOps t = .ok frr

namespace Parts

variable {env : Plan.Env} {t : Topology} {inputs : PlanInputs} (q : Parts env t inputs)

/-- The ops in the order they are made. -/
def ops : List Op :=
  Plan.nodeOps q.topo (dnsExtraHosts t) ++ Plan.radioOps q.topo ++ q.mgmt ++ q.bridges ++ q.links ++
    Plan.hostLinkOps q.topo ++ Plan.linksUpOps q.topo ++ Plan.sysctlOps q.topo env.nl ++
    Plan.dnsOps q.topo ++ q.declared ++ q.frr ++ Plan.processOps q.topo ++ Plan.wifiOps q.topo

end Parts

theorem plan_eq_ok {env : Plan.Env} {t : Topology} {inputs : PlanInputs} {p : Plan} :
    plan env t inputs = .ok p ↔ ∃ q : Parts env t inputs, (Plan.mk q.ops).sorted = p := by
  unfold plan planOps Plan.planTopology
  simp only [map_eq_ok, bind_eq_ok, pure_eq_ok]
  constructor
  · rintro ⟨ops, ⟨topo, htopo, _, ⟨mgmt, hmgmt, bridges, hbridges, links, hlinks, rfl⟩, declared,
      hdeclared, frr, hfrr, rfl⟩, rfl⟩
    exact ⟨⟨topo, mgmt, bridges, links, declared, frr, htopo, hmgmt, hbridges, hlinks, hdeclared, hfrr⟩,
      rfl⟩
  · rintro ⟨q, rfl⟩
    exact ⟨q.ops, ⟨q.topo, q.topo_eq, _, ⟨q.mgmt, q.mgmt_eq, q.bridges, q.bridges_eq, q.links, q.links_eq,
      rfl⟩, q.declared, q.declared_eq, q.frr, q.frr_eq, rfl⟩, rfl⟩

theorem Plan.mem_sorted {p : Plan} {op : Op} : op ∈ p.sorted.ops ↔ op ∈ p.ops :=
  List.mem_insertionSort _

namespace Plan

/-! ### The kinds of ops in each part -/

theorem mem_collect {A B : Type} {f : A → Except Error (Option B)} {l : List A} {r : List B}
    (h : collect f l = .ok r) {b : B} (hb : b ∈ r) : ∃ a ∈ l, f a = .ok (some b) := by
  obtain ⟨r', hr', rfl⟩ := map_eq_ok.mp h
  obtain ⟨b', hb', heq⟩ := List.mem_filterMap.mp hb
  cases heq
  exact mem_of_mapM_eq_ok hr' hb'

variable {t : Topology}

theorem isRemoval_nodeOp (extraHosts : List String) (name : String) (node : Node) :
    (nodeOp t extraHosts name node).isRemoval = false := by
  unfold nodeOp
  split
  · rfl
  · split <;> rfl

theorem isRemoval_mgmtOps {ops : List Op} (h : mgmtOps t = .ok ops) : ∀ op ∈ ops, op.isRemoval = false := by
  unfold mgmtOps at h
  split at h
  · split_ifs at h
    · simp only [bind_eq_ok, pure_eq_ok] at h
      obtain ⟨mgmt, -, rfl⟩ := h
      intro op hop
      rcases List.mem_cons.mp hop with rfl | hop
      · rfl
      · obtain ⟨e, -, he⟩ := List.mem_filterMap.mp hop
        split_ifs at he
        cases he
        rfl
    · cases h
      exact fun _ hop => absurd hop List.not_mem_nil
  · cases h
    exact fun _ hop => absurd hop List.not_mem_nil

/-- The op of a member of a network. -/
theorem memberOp_eq_ok {netName member : String} {network : Network} {k : Nat} {op : Op}
    (h : memberOp t netName network member k = .ok op) :
    ∃ ep, EndpointRef.parse member = some ep ∧ ep.node ∈ t.nodes ∧
      op = .createNetworkVeth ep.node ep.iface (networkPeerNameFor netName k) (mgmtNs t)
        (networkBridgeNameFor netName) (portVlans network member ep) network.mtu := by
  unfold memberOp at h
  split at h
  · cases h
  · rename_i ep hep
    split_ifs at h with hnode
    cases h
    exact ⟨ep, hep, Std.ExtTreeMap.contains_iff_mem.mp hnode, rfl⟩

/-- The ops of networks: the bridge namespace, the bridges and the members' veths. -/
theorem mem_bridgeOps {ops : List Op} (h : bridgeOps t = .ok ops) {op : Op} (hop : op ∈ ops) :
    op = .createMgmtNamespace (mgmtNs t) ∨ ∃ name network, (name, network) ∈ t.networks.toList ∧
      (op = .createBridge (mgmtNs t) name (networkBridgeNameFor name)
          (network.vlanFiltering = some true) network.mtu ∨
        ∃ member k, (member, k) ∈ network.members.zipIdx ∧
          memberOp t name network member k = .ok op) := by
  unfold bridgeOps at h
  split_ifs at h
  · cases h
    exact absurd hop List.not_mem_nil
  · simp only [bind_eq_ok, pure_eq_ok] at h
    obtain ⟨parts, hparts, rfl⟩ := h
    rcases List.mem_cons.mp hop with rfl | hop
    · exact .inl rfl
    · obtain ⟨part, hpart, hop⟩ := List.mem_flatten.mp hop
      obtain ⟨⟨name, network⟩, hmem, hpart⟩ := mem_of_mapM_eq_ok hparts hpart
      refine .inr ⟨name, network, hmem, ?_⟩
      simp only [networkOps, bind_eq_ok, pure_eq_ok] at hpart
      obtain ⟨veths, hveths, rfl⟩ := hpart
      rcases List.mem_cons.mp hop with rfl | hop
      · exact .inl rfl
      · obtain ⟨⟨member, k⟩, hmember, hop⟩ := mem_of_mapM_eq_ok hveths hop
        exact .inr ⟨member, k, hmember, hop⟩

theorem isRemoval_bridgeOps {ops : List Op} (h : bridgeOps t = .ok ops) :
    ∀ op ∈ ops, op.isRemoval = false := by
  intro op hop
  rcases mem_bridgeOps h hop with rfl | ⟨name, network, -, rfl | ⟨member, k, -, hop⟩⟩
  · rfl
  · rfl
  · obtain ⟨ep, -, -, rfl⟩ := memberOp_eq_ok hop
    rfl

/-- The op of a link joins its two endpoints, in either order. -/
theorem linkOp_eq_ok {taps taps' : BTreeMap String Nat} {link : Link} {op : Op}
    (h : linkOp t taps link = .ok (taps', op)) :
    ∃ a b, EndpointRef.parse link.endpoints.1 = some a ∧ EndpointRef.parse link.endpoints.2 = some b ∧
      a.node ∈ t.nodes ∧ b.node ∈ t.nodes ∧
      ∃ c d, ((c, d) = (a, b) ∨ (c, d) = (b, a)) ∧
        ((taps' = taps ∧ op = .createVeth c d link.mtu) ∨
          (isTap t d.node ∧ taps' = taps.insert d.node (taps[d.node]?.getD 0 + 1) ∧
            op = .createTapVeth c (t.lab.tapPortName d.node (taps[d.node]?.getD 0))
              (t.lab.tapBridgeName d.node) link.mtu)) := by
  unfold linkOp at h
  split at h
  · cases h
  · cases h
  · rename_i a b ha hb
    split_ifs at h with hna hnb hforeign
    · refine ⟨a, b, ha, hb, by simpa using hna, by simpa using hnb, b, a, .inr rfl, ?_⟩
      dsimp only at h
      split_ifs at h with htap
      · cases h
        exact .inr ⟨htap, rfl, rfl⟩
      · cases h
        exact .inl ⟨rfl, rfl⟩
    · refine ⟨a, b, ha, hb, by simpa using hna, by simpa using hnb, a, b, .inl rfl, ?_⟩
      dsimp only at h
      split_ifs at h with htap
      · cases h
        exact .inr ⟨htap, rfl, rfl⟩
      · cases h
        exact .inl ⟨rfl, rfl⟩

theorem isRemoval_linkOps {ops : List Op} (h : linkOps t = .ok ops) : ∀ op ∈ ops, op.isRemoval = false := by
  suffices hl : ∀ (links : List Link) (taps : BTreeMap String Nat) (ops : List Op),
      linkOpsFrom t taps links = .ok ops → ∀ op ∈ ops, op.isRemoval = false from hl _ _ _ h
  intro links
  induction links with
  | nil =>
    rintro taps ops ⟨⟩ op hop
    exact absurd hop List.not_mem_nil
  | cons link links ih =>
    intro taps ops h op hop
    simp only [linkOpsFrom, bind_eq_ok, pure_eq_ok] at h
    obtain ⟨⟨taps', op'⟩, hop', rest, hrest, rfl⟩ := h
    rcases List.mem_cons.mp hop with rfl | hop
    · obtain ⟨-, -, -, -, -, -, c, d, -, ⟨-, rfl⟩ | ⟨-, -, rfl⟩⟩ := linkOp_eq_ok hop' <;> rfl
    · exact ih taps' rest hrest op hop

/-- The stack op of a node, if it has one. -/
theorem mem_stackOps {env : Env} {declared : Topology} {inputs : PlanInputs} {ops : List Op}
    (h : stackOps env declared t inputs = .ok ops) {op : Op} (hop : op ∈ ops) :
    ∃ name node cfg, t.nodes[name]? = some node ∧ op = .stack name cfg := by
  obtain ⟨⟨name, node⟩, hmem, h⟩ := mem_collect h hop
  have hnode := Std.ExtTreeMap.mem_toList_iff_getElem?_eq_some.mp hmem
  dsimp only [stackOp] at h
  split at h
  · split_ifs at h
    · obtain ⟨cfg, -, heq⟩ := map_eq_ok.mp h
      exact ⟨name, node, cfg, hnode, (Option.some.inj heq).symm⟩
    · cases h
  · obtain ⟨cfg, -, heq⟩ := map_eq_ok.mp h
    exact ⟨name, node, cfg, hnode, (Option.some.inj heq).symm⟩

theorem mem_frrOps {ops : List Op} (h : frrOps t = .ok ops) {op : Op} (hop : op ∈ ops) :
    ∃ name node spec, t.nodes[name]? = some node ∧ op = .frrDaemons name spec := by
  obtain ⟨⟨name, node⟩, hmem, h⟩ := mem_collect h hop
  have hnode := Std.ExtTreeMap.mem_toList_iff_getElem?_eq_some.mp hmem
  dsimp only at h
  split at h
  · cases h
  · obtain ⟨spec, -, heq⟩ := map_eq_ok.mp h
    exact ⟨name, node, spec, hnode, (Option.some.inj heq).symm⟩

theorem mem_nodeOps {extraHosts : List String} {op : Op} (h : op ∈ nodeOps t extraHosts) :
    ∃ name node, t.nodes[name]? = some node ∧ op = nodeOp t extraHosts name node := by
  obtain ⟨name, -, hname⟩ := List.mem_filterMap.mp h
  obtain ⟨node, hnode, rfl⟩ := Option.map_eq_some_iff.mp hname
  exact ⟨name, node, hnode, rfl⟩

/-- All radios are made in one node. -/
theorem mem_radioOps {op : Op} (h : op ∈ radioOps t) :
    ∃ maker name node wifi, t.nodes[name]? = some node ∧ wifi ∈ node.wifi ∧
      op = .createRadio name wifi.name (radioName (t.namespaceName name) wifi.name) wifi.mode maker := by
  unfold radioOps at h
  split at h
  · exact absurd h List.not_mem_nil
  · obtain ⟨⟨name, node⟩, hmem, h⟩ := List.mem_flatMap.mp h
    obtain ⟨wifi, hwifi, rfl⟩ := List.mem_map.mp h
    exact ⟨_, name, node, wifi, Std.ExtTreeMap.mem_toList_iff_getElem?_eq_some.mp hmem, hwifi, rfl⟩

theorem mem_hostLinkOps {op : Op} : op ∈ hostLinkOps t ↔ ∃ name node, t.nodes[name]? = some node ∧
    ((∃ cfg ∈ node.macvlans, op = .createMacvlan name cfg) ∨
      ∃ cfg ∈ node.ipvlans, op = .createIpvlan name cfg) := by
  simp [hostLinkOps, eq_comm]

theorem mem_linksUpOps {op : Op} (h : op ∈ linksUpOps t) :
    ∃ name node, t.nodes[name]? = some node ∧ op = .linksUp name (ifacesUp t name node) := by
  obtain ⟨⟨name, node⟩, hmem, h⟩ := List.mem_filterMap.mp h
  have hnode := Std.ExtTreeMap.mem_toList_iff_getElem?_eq_some.mp hmem
  dsimp only at h
  split_ifs at h
  cases h
  exact ⟨name, node, hnode, rfl⟩

theorem mem_sysctlOps {nl : Nlink} {op : Op} (h : op ∈ sysctlOps t nl) :
    ∃ name node, t.nodes[name]? = some node ∧ op = .sysctls name (sysctlEntries t nl node) := by
  obtain ⟨⟨name, node⟩, hmem, h⟩ := List.mem_filterMap.mp h
  have hnode := Std.ExtTreeMap.mem_toList_iff_getElem?_eq_some.mp hmem
  dsimp only at h
  split_ifs at h
  cases h
  exact ⟨name, node, hnode, rfl⟩

theorem mem_dnsOps {op : Op} (h : op ∈ dnsOps t) :
    op = .dnsInject t.lab.name ∨ ∃ name node, t.nodes[name]? = some node ∧
      op = .dnsNetnsEtc name (t.namespaceName name) := by
  unfold dnsOps at h
  split_ifs at h
  · rcases List.mem_cons.mp h with rfl | h
    · exact .inl rfl
    · obtain ⟨⟨name, node⟩, hmem, h⟩ := List.mem_filterMap.mp h
      dsimp only at h
      split_ifs at h
      cases h
      exact .inr ⟨name, node, Std.ExtTreeMap.mem_toList_iff_getElem?_eq_some.mp hmem, rfl⟩
  · exact absurd h List.not_mem_nil

/-- The ops a node's processes are run by. -/
theorem mem_processOps {op : Op} (hop : op ∈ processOps t) :
    ∃ name, ((∃ delay, op = .startupDelay name delay) ∨ (∃ i e, op = .exec name i e) ∨
      ∃ cmd interval timeout retries, op = .healthcheck name cmd interval timeout retries) := by
  obtain ⟨name, -, hop⟩ := List.mem_flatMap.mp hop
  refine ⟨name, ?_⟩
  rcases hnode : t.nodes[name]? with - | node
  · simp [hnode] at hop
  · rw [hnode] at hop
    simp only [Option.map_some, Option.getD_some, nodeProcessOps, execOps, List.mem_append,
      Option.mem_toList, Option.map_eq_some_iff, List.mem_filterMap] at hop
    rcases hop with (⟨delay, -, rfl⟩ | ⟨⟨e, i⟩, -, he⟩ | ⟨⟨c, i⟩, -, hc⟩) | ⟨cmd, -, rfl⟩
    · exact .inl ⟨delay, rfl⟩
    · split_ifs at he
      cases he
      exact .inr (.inl ⟨_, _, rfl⟩)
    · split_ifs at hc
      cases hc
      exact .inr (.inl ⟨_, _, rfl⟩)
    · exact .inr (.inr ⟨_, _, _, _, rfl⟩)

theorem mem_wifiOps {op : Op} : op ∈ wifiOps t ↔ ∃ name node, t.nodes[name]? = some node ∧
    ∃ wifi ∈ node.wifi, op = .wifiDaemon name wifi := by
  simp [wifiOps, eq_comm]

end Plan

/-- A plan removes nothing. -/
theorem isRemoval_plan {env : Plan.Env} {t : Topology} {inputs : PlanInputs} {p : Plan}
    (h : plan env t inputs = .ok p) : ∀ op ∈ p.ops, op.isRemoval = false := by
  obtain ⟨q, rfl⟩ := plan_eq_ok.mp h
  intro op hop
  have hop : op ∈ q.ops := Plan.mem_sorted.mp hop
  simp only [Parts.ops, List.mem_append, or_assoc] at hop
  rcases hop with h | h | h | h | h | h | h | h | h | h | h | h | h
  · obtain ⟨name, node, -, rfl⟩ := Plan.mem_nodeOps h
    exact Plan.isRemoval_nodeOp _ _ _
  · obtain ⟨_, _, _, _, -, -, rfl⟩ := Plan.mem_radioOps h
    rfl
  · exact Plan.isRemoval_mgmtOps q.mgmt_eq op h
  · exact Plan.isRemoval_bridgeOps q.bridges_eq op h
  · exact Plan.isRemoval_linkOps q.links_eq op h
  · obtain ⟨_, _, -, ⟨_, -, rfl⟩ | ⟨_, -, rfl⟩⟩ := Plan.mem_hostLinkOps.mp h <;> rfl
  · obtain ⟨_, _, -, rfl⟩ := Plan.mem_linksUpOps h
    rfl
  · obtain ⟨_, _, -, rfl⟩ := Plan.mem_sysctlOps h
    rfl
  · obtain rfl | ⟨_, _, -, rfl⟩ := Plan.mem_dnsOps h <;> rfl
  · obtain ⟨_, _, _, -, rfl⟩ := Plan.mem_stackOps q.declared_eq h
    rfl
  · obtain ⟨_, _, _, -, rfl⟩ := Plan.mem_frrOps q.frr_eq h
    rfl
  · obtain ⟨_, ⟨_, rfl⟩ | ⟨_, _, rfl⟩ | ⟨_, _, _, _, rfl⟩⟩ := Plan.mem_processOps h <;> rfl
  · obtain ⟨_, _, -, _, -, rfl⟩ := Plan.mem_wifiOps.mp h
    rfl

end NlinkLab
