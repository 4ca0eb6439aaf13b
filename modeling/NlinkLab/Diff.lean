import NlinkLab.Types.Serialize

/-! Topology diff engine (`diff.rs`): the change set between two topologies,
collected by one comparison for each part plus a comparison of serialized fields
for what the others leave out. Each comparison is empty exactly when its part is
equal; together they cover every serialized field of a topology, a node's
firewall through the one the node runs (`isEmpty_iff_agree`). -/

namespace NlinkLab

open Json

/-! ### The change set -/

/-- Something present on both sides with some of its fields changed. -/
structure FieldsChange where
  name : String
  fields : List String

/-- A change to a node's nftables ruleset; `none` for both means to remove it. -/
structure NftablesChange where
  node : String
  desiredFirewall : Option FirewallConfig
  desiredNat : Option NatConfig
  wasPresent : Bool

/-- A change to the rate limit of an endpoint; `none` removes it. -/
structure RateLimitChange where
  endpoint : String
  desired : Option RateLimit
  wasPresent : Bool

/-- A change to the `qdisc` block of an endpoint; `none` removes it. -/
structure QdiscChange where
  endpoint : String
  desired : Option QdiscConfig
  wasPresent : Bool

/-- A change to a static route of a node; `none` removes it. -/
structure RouteChange where
  node : String
  dest : String
  desired : Option RouteConfig
  wasPresent : Bool

/-- Sysctl changes of a node; a changed one has its old and its new value. -/
structure SysctlChange where
  node : String
  added : List (String × String)
  changed : List (String × String × String)
  removed : List String

def SysctlChange.isEmpty (c : SysctlChange) : Bool :=
  c.added.isEmpty && c.changed.isEmpty && c.removed.isEmpty

structure ImpairmentChange where
  endpoint : String
  old : Impairment
  new : Impairment

/-- A change to the per-peer impairer of a source in a network; `none` removes it. -/
structure NetworkImpairerChange where
  network : String
  srcNode : String
  desired : Option (List NetworkImpairment)

/-- A structured diff between two topologies. -/
structure TopologyDiff where
  nodesAdded : List String
  nodesRemoved : List String
  linksAdded : List Link
  linksRemoved : List Link
  impairmentsChanged : List ImpairmentChange
  impairmentsAdded : List (String × Impairment)
  impairmentsRemoved : List String
  networkImpairsChanged : List NetworkImpairerChange
  routesChanged : List RouteChange
  sysctlsChanged : List SysctlChange
  rateLimitsChanged : List RateLimitChange
  qdiscsChanged : List QdiscChange
  nftablesChanged : List NftablesChange
  networksAdded : List String
  networksRemoved : List String
  networksChanged : List FieldsChange
  linksChanged : List FieldsChange
  nodesChanged : List FieldsChange
  labChanged : List String
  sectionsChanged : List String

namespace TopologyDiff

/-- True if there are no differences. -/
def isEmpty (d : TopologyDiff) : Bool :=
  d.nodesAdded.isEmpty && d.nodesRemoved.isEmpty && d.linksAdded.isEmpty && d.linksRemoved.isEmpty
    && d.impairmentsChanged.isEmpty && d.impairmentsAdded.isEmpty && d.impairmentsRemoved.isEmpty
    && d.networkImpairsChanged.isEmpty && d.routesChanged.isEmpty && d.sysctlsChanged.isEmpty
    && d.rateLimitsChanged.isEmpty && d.qdiscsChanged.isEmpty && d.nftablesChanged.isEmpty
    && d.networksAdded.isEmpty && d.networksRemoved.isEmpty && d.networksChanged.isEmpty
    && d.linksChanged.isEmpty && d.nodesChanged.isEmpty && d.labChanged.isEmpty
    && d.sectionsChanged.isEmpty

/-- Total number of changes. -/
def changeCount (d : TopologyDiff) : Nat :=
  d.nodesAdded.length + d.nodesRemoved.length + d.linksAdded.length + d.linksRemoved.length
    + d.impairmentsChanged.length + d.impairmentsAdded.length + d.impairmentsRemoved.length
    + d.networkImpairsChanged.length + d.routesChanged.length + d.sysctlsChanged.length
    + d.rateLimitsChanged.length + d.qdiscsChanged.length + d.nftablesChanged.length
    + d.networksAdded.length + d.networksRemoved.length + d.networksChanged.length
    + d.linksChanged.length + d.nodesChanged.length + d.labChanged.length
    + d.sectionsChanged.length

theorem changeCount_eq_zero (d : TopologyDiff) : d.changeCount = 0 ↔ d.isEmpty := by
  simp only [changeCount, isEmpty, Nat.add_eq_zero_iff, List.length_eq_zero_iff,
    Bool.and_eq_true, List.isEmpty_iff]

end TopologyDiff

/-! ### The comparisons -/

/-- Sort by a key, keeping the order of equal ones. -/
def sortByKey {α κ : Type} [Ord κ] (key : α → κ) (l : List α) : List α :=
  l.mergeSort fun a b => (compare (key a) (key b)).isLE

@[simp] theorem sortByKey_eq_nil {α κ : Type} [Ord κ] {key : α → κ} {l : List α} :
    sortByKey key l = [] ↔ l = [] := by
  simp only [sortByKey, ← List.length_eq_zero_iff, List.length_mergeSort]

/-- The top-level keys whose values differ between two serialized values
(missing on one side counts as a difference), minus `skip`. -/
def changedFields {ρ : Type} [Record ρ] (a b : ρ) (skip : List String) : List String :=
  Json.changedFields (object (fields a)) (object (fields b)) skip

/-- The changes that turn one map into another, each reported as `change key
desired wasPresent`. -/
def entryChanges {K V γ : Type} [Ord K] [Std.TransOrd K] [Std.LawfulEqOrd K] [DecidableEq V]
    (change : K → Option V → Bool → γ) (current desired : BTreeMap K V) : List γ :=
  (current.upserts desired).map (fun (k, old, v) => change k (some v) old.isSome)
    ++ (current.removed desired).map fun k => change k none true

theorem entryChanges_eq_nil {K V γ : Type} [Ord K] [Std.TransOrd K] [Std.LawfulEqOrd K]
    [DecidableEq V] {change : K → Option V → Bool → γ} {current desired : BTreeMap K V} :
    entryChanges change current desired = [] ↔ current = desired := by
  rw [← BTreeMap.upserts_removed_eq_nil]
  simp [entryChanges]

/-- Compare the nodes that exist on both sides, in name order. -/
def onBoth {V γ : Type} (current desired : BTreeMap String V) (f : String → V → V → List γ) :
    List γ :=
  desired.toList.flatMap fun (name, new) =>
    match current[name]? with
    | none => []
    | some old => f name old new

theorem onBoth_eq_nil {V γ : Type} {current desired : BTreeMap String V}
    {f : String → V → V → List γ} : onBoth current desired f = [] ↔
      ∀ (name : String) (old new : V), current[name]? = some old → desired[name]? = some new →
        f name old new = [] := by
  simp only [onBoth, List.flatMap_eq_nil_iff, Prod.forall,
    Std.ExtTreeMap.mem_toList_iff_getElem?_eq_some]
  constructor
  · intro h name old new hc hd
    simpa only [hc] using h name new hd
  · intro h name new hd
    cases hc : current[name]? with
    | none => rfl
    | some old => exact h name old new hc hd

/-- The per-pair impairments of every network, by network and source: the unit
a per-peer impairer reconciles. -/
def groupBySrc (topo : Topology) : BTreeMap (String ×ₗ String) (List NetworkImpairment) :=
  BTreeMap.group (topo.networks.toList.flatMap fun (netName, net) =>
    net.impairments.map fun imp => (toLex (netName, imp.src), imp))

def sysctlChange (name : String) (current desired : Node) : SysctlChange where
  node := name
  added := sortByKey toLex <| (current.sysctls.upserts desired.sysctls).filterMap fun (k, old, v) =>
    if old.isNone then some (k, v) else none
  changed := sortByKey (fun c => toLex (c.1, toLex c.2)) <|
    (current.sysctls.upserts desired.sysctls).filterMap fun (k, old, v) =>
      old.map fun old => (k, old, v)
  removed := sortByKey id (current.sysctls.removed desired.sysctls)

def nftablesChange (current desired : Topology) (name : String) (old new : Node) :
    List NftablesChange :=
  -- what the node runs, profiles merged in
  let currentFw := current.effectiveFirewall old
  let desiredFw := desired.effectiveFirewall new
  if currentFw = desiredFw ∧ old.nat = new.nat then []
  else [{ node := name, desiredFirewall := desiredFw, desiredNat := new.nat,
          wasPresent := currentFw.isSome || old.nat.isSome }]

/-- The fields of something on both sides that differ, if any do. -/
def fieldsChange {ρ : Type} [Record ρ] (skip : List String) (name : String) (old new : ρ) :
    List FieldsChange :=
  let fields := changedFields old new skip
  if fields.isEmpty then [] else [{ name, fields }]

/-- Compare two topologies and produce a diff. -/
def diffTopologies (current desired : Topology) : TopologyDiff where
  nodesAdded := sortByKey id (desired.nodes.removed current.nodes)
  nodesRemoved := sortByKey id (current.nodes.removed desired.nodes)
  linksAdded := desired.links.filter (·.endpoints ∉ current.links.map (·.endpoints))
  linksRemoved := current.links.filter (·.endpoints ∉ desired.links.map (·.endpoints))
  impairmentsChanged := (current.impairments.upserts desired.impairments).filterMap
    fun (endpoint, old, new) => old.map fun old => { endpoint, old, new }
  impairmentsAdded := (current.impairments.upserts desired.impairments).filterMap
    fun (ep, old, new) => if old.isNone then some (ep, new) else none
  impairmentsRemoved := sortByKey id (current.impairments.removed desired.impairments)
  networkImpairsChanged := sortByKey (fun c => toLex (c.network, c.srcNode)) <|
    entryChanges (fun key desired _ => { network := (ofLex key).1, srcNode := (ofLex key).2, desired })
      (groupBySrc current) (groupBySrc desired)
  routesChanged := sortByKey (fun c => toLex (c.node, c.dest)) <|
    onBoth current.nodes desired.nodes fun node old new =>
      entryChanges (fun dest desired wasPresent => { node, dest, desired, wasPresent })
        old.routes new.routes
  sysctlsChanged := sortByKey (·.node) <|
    onBoth current.nodes desired.nodes fun node old new =>
      let change := sysctlChange node old new
      if change.isEmpty then [] else [change]
  rateLimitsChanged := sortByKey (·.endpoint) <|
    entryChanges (fun endpoint desired wasPresent => { endpoint, desired, wasPresent })
      current.rateLimits desired.rateLimits
  qdiscsChanged := sortByKey (·.endpoint) <|
    entryChanges (fun endpoint desired wasPresent => { endpoint, desired, wasPresent })
      current.qdiscs desired.qdiscs
  nftablesChanged := sortByKey (·.node) <|
    onBoth current.nodes desired.nodes (nftablesChange current desired)
  networksAdded := desired.networks.removed current.networks
  networksRemoved := current.networks.removed desired.networks
  networksChanged := onBoth current.networks desired.networks (fieldsChange ["impairments"])
  linksChanged := desired.links.flatMap fun link =>
    match current.links.find? (·.endpoints = link.endpoints) with
    | none => []
    | some old => fieldsChange ["endpoints"] (link.endpoints.1 ++ " -- " ++ link.endpoints.2) old link
  nodesChanged := onBoth current.nodes desired.nodes
    (fieldsChange ["routes", "sysctls", "firewall", "nat"])
  labChanged := changedFields current.lab desired.lab []
  sectionsChanged := changedFields current desired ["lab", "nodes", "links", "networks",
    "impairments", "rate_limits", "qdiscs"]

/-! ### What each comparison covers -/

theorem fieldsChange_eq_nil {ρ : Type} [Record ρ] {skip : List String} {name : String}
    {old new : ρ} : fieldsChange skip name old new = [] ↔ changedFields old new skip = [] := by
  unfold fieldsChange
  cases changedFields old new skip <;> simp

theorem changedFields_node {m n : Node} :
    changedFields m n ["routes", "sysctls", "firewall", "nat"] = [] ↔
      { m with routes := ∅, sysctls := ∅, firewall := none, nat := none } =
        { n with routes := ∅, sysctls := ∅, firewall := none, nat := none } := by
  rw [changedFields, changedFields_fields]
  simp [fields, Node.ext_iff]

theorem changedFields_network {m n : Network} : changedFields m n ["impairments"] = [] ↔
    { m with impairments := [] } = { n with impairments := [] } := by
  rw [changedFields, changedFields_fields]
  simp [fields, Network.ext_iff]

theorem changedFields_link {l m : Link} : changedFields l m ["endpoints"] = [] ↔
    l.addresses = m.addresses ∧ l.mtu = m.mtu := by
  rw [changedFields, changedFields_fields]
  simp [fields]

theorem changedFields_lab {a b : LabConfig} : changedFields a b [] = [] ↔ a = b := by
  rw [changedFields, changedFields_fields]
  simp [fields, LabConfig.ext_iff]

/-- A topology's other sections are compared whole. -/
theorem changedFields_topology {a b : Topology} :
    changedFields a b ["lab", "nodes", "links", "networks", "impairments", "rate_limits", "qdiscs"]
        = [] ↔
      a.profiles = b.profiles ∧ a.assertions = b.assertions ∧
        a.assertionRetries = b.assertionRetries ∧ a.assertionInterval = b.assertionInterval ∧
        a.scenarios = b.scenarios ∧ a.benchmarks = b.benchmarks ∧ a.sites = b.sites ∧
        a.sourceDir = b.sourceDir := by
  have hk : (fields a).map (·.1) = (fields b).map (·.1) := rfl
  have hn : ((fields a).map (·.1)).Nodup := (by decide : (Record.names Topology).Nodup)
  rw [changedFields, changedFields_object hk hn]
  simp [fields]

/-- An upsert adds or changes an entry, and is listed either way. -/
theorem split_upserts {K V α β : Type} {us : List (K × Option V × V)} {f : K → V → α}
    {g : K → V → V → β} :
    us.filterMap (fun (k, old, v) => old.map fun old => g k old v) = [] ∧
      us.filterMap (fun (k, old, v) => if old.isNone then some (f k v) else none) = [] ↔
      us = [] := by
  cases us with
  | nil => simp
  | cons u us =>
    obtain ⟨k, old, v⟩ := u
    cases old <;> simp

theorem sysctlChange_isEmpty (name : String) (m n : Node) :
    (sysctlChange name m n).isEmpty ↔ m.sysctls = n.sysctls := by
  rw [← BTreeMap.upserts_removed_eq_nil, ← split_upserts (f := Prod.mk) (g := fun k old v => (k, old, v))]
  simp only [SysctlChange.isEmpty, sysctlChange, Bool.and_eq_true, List.isEmpty_iff,
    sortByKey_eq_nil]
  tauto

theorem nftablesChange_eq_nil {a b : Topology} {name : String} {m n : Node} :
    nftablesChange a b name m n = [] ↔
      a.effectiveFirewall m = b.effectiveFirewall n ∧ m.nat = n.nat := by
  simp [nftablesChange]

/-- The per-pair impairments of a network; none when there is no such network. -/
def Topology.impairmentsOf (t : Topology) (net : String) : List NetworkImpairment :=
  (t.networks[net]?).elim [] (·.impairments)

theorem itemsAt_groupBySrc (t : Topology) (net src : String) :
    BTreeMap.itemsAt (t.networks.toList.flatMap fun (netName, net) =>
        net.impairments.map fun imp => (toLex (netName, imp.src), imp)) (toLex (net, src)) =
      (t.impairmentsOf net).filter (·.src = src) := by
  have hitems (name : String) (l : List NetworkImpairment) :
      BTreeMap.itemsAt (l.map fun imp => (toLex (name, imp.src), imp)) (toLex (net, src)) =
        if name = net then l.filter (·.src = src) else [] := by
    split_ifs with h <;> simp [BTreeMap.itemsAt, List.filter_map, Function.comp_def, h]
  simp only [BTreeMap.itemsAt, List.filter_flatMap, List.map_flatMap] at hitems ⊢
  rw [BTreeMap.flatMap_toList_eq (k := net) fun l v hl => by simp only [hitems, if_neg hl]]
  simp only [hitems, if_true, Topology.impairmentsOf]
  cases t.networks[net]? <;> rfl

/-- Impairments are compared source by source. -/
theorem groupBySrc_eq {a b : Topology} : groupBySrc a = groupBySrc b ↔
    ∀ net src, (a.impairmentsOf net).filter (·.src = src) =
      (b.impairmentsOf net).filter (·.src = src) := by
  rw [groupBySrc, groupBySrc, BTreeMap.group_eq_group]
  constructor
  · intro h net src
    rw [← itemsAt_groupBySrc, ← itemsAt_groupBySrc, h]
  · intro h k
    rw [← toLex_ofLex k, itemsAt_groupBySrc, itemsAt_groupBySrc, h]

/-- The three link lists together compare the links as a set. -/
theorem links_perm {a b : Topology} (ha : (a.links.map (·.endpoints)).Nodup)
    (hb : (b.links.map (·.endpoints)).Nodup) :
    (diffTopologies a b).linksAdded = [] ∧ (diffTopologies a b).linksRemoved = [] ∧
      (diffTopologies a b).linksChanged = [] ↔ a.links.Perm b.links := by
  have hadd : (diffTopologies a b).linksAdded = [] ↔
      ∀ l ∈ b.links, ∃ m ∈ a.links, m.endpoints = l.endpoints := by
    simp [diffTopologies]
  have hrem : (diffTopologies a b).linksRemoved = [] ↔
      ∀ l ∈ a.links, ∃ m ∈ b.links, m.endpoints = l.endpoints := by
    simp [diffTopologies]
  have hchg : (diffTopologies a b).linksChanged = [] ↔
      ∀ l ∈ b.links, ∀ m ∈ a.links, m.endpoints = l.endpoints → m = l := by
    simp only [diffTopologies, List.flatMap_eq_nil_iff]
    refine forall₂_congr fun l hl => ?_
    cases hf : a.links.find? (·.endpoints = l.endpoints) with
    | none =>
      simp only [true_iff]
      intro m hm he
      simpa [he] using List.find?_eq_none.mp hf m hm
    | some old =>
      have hold : old ∈ a.links := List.mem_of_find?_eq_some hf
      have heq : old.endpoints = l.endpoints := by simpa using List.find?_some hf
      simp only [fieldsChange_eq_nil, changedFields_link]
      constructor
      · rintro ⟨haddr, hmtu⟩ m hm he
        obtain rfl : m = old := List.inj_on_of_nodup_map ha hm hold (he.trans heq.symm)
        exact Link.ext heq haddr hmtu
      · intro h
        exact h old hold heq ▸ ⟨rfl, rfl⟩
  rw [hadd, hrem, hchg, List.perm_ext_iff_of_nodup (ha.of_map _) (hb.of_map _)]
  constructor
  · rintro ⟨hadd, hrem, hchg⟩ l
    constructor
    · intro hl
      obtain ⟨m, hm, he⟩ := hrem l hl
      exact hchg m hm l hl he.symm ▸ hm
    · intro hl
      obtain ⟨m, hm, he⟩ := hadd l hl
      exact hchg l hl m hm he ▸ hm
  · intro h
    refine ⟨fun l hl => ⟨l, (h l).mpr hl, rfl⟩, fun l hl => ⟨l, (h l).mp hl, rfl⟩, ?_⟩
    intro l hl m hm he
    exact List.inj_on_of_nodup_map ha hm ((h l).mpr hl) he

/-! ### The diff is exact -/

/-- Two nodes agree in every field, their firewalls as `firewall` gives them. -/
def Node.Agree (firewall : Topology → Node → Option FirewallConfig) (a b : Topology)
    (m n : Node) : Prop :=
  firewall a m = firewall b n ∧ { m with firewall := none } = { n with firewall := none }

/-- Two networks agree in every field, their per-pair impairments source by source. -/
def Network.Agree (m n : Network) : Prop :=
  (∀ src, m.impairments.filter (·.src = src) = n.impairments.filter (·.src = src)) ∧
    { m with impairments := [] } = { n with impairments := [] }

/-- Two topologies agree in every serialized field, up to the order of links
and the interleaving of a network's impairments of different sources. -/
structure Topology.Agree (firewall : Topology → Node → Option FirewallConfig)
    (a b : Topology) : Prop where
  nodes (name : String) : Option.Rel (Node.Agree firewall a b) a.nodes[name]? b.nodes[name]?
  links : a.links.Perm b.links
  networks (name : String) : Option.Rel Network.Agree a.networks[name]? b.networks[name]?
  rest : { a with nodes := ∅, links := [], networks := ∅, directionalImpairments := [] } =
    { b with nodes := ∅, links := [], networks := ∅, directionalImpairments := [] }

theorem isSome_of_rel {α β : Type} {R : α → β → Prop} {o : Option α} {p : Option β}
    (h : Option.Rel R o p) : o.isSome = p.isSome := by
  cases h <;> rfl

/-- Two maps agree entry by entry when neither has a key of its own and the
values they share agree. -/
theorem rel_getElem? {V : Type} {R : V → V → Prop} {a b : BTreeMap String V} :
    (∀ name : String, Option.Rel R a[name]? b[name]?) ↔
      b.removed a = [] ∧ a.removed b = [] ∧
        ∀ (name : String) (old new : V), a[name]? = some old → b[name]? = some new → R old new := by
  simp only [BTreeMap.removed_eq_nil, Std.ExtTreeMap.mem_iff_isSome_getElem?]
  constructor
  · intro h
    refine ⟨fun k hk => ?_, fun k hk => ?_, fun k old new ha hb => ?_⟩
    · rwa [isSome_of_rel (h k)]
    · rwa [← isSome_of_rel (h k)]
    · have hr := h k
      rw [ha, hb] at hr
      cases hr with
      | some hr => exact hr
  · rintro ⟨hba, hab, h⟩ k
    cases ha : a[k]? with
    | none =>
      cases hb : b[k]? with
      | none => exact .none
      | some new => simpa [ha, hb] using hba k
    | some old =>
      cases hb : b[k]? with
      | none => simpa [ha, hb] using hab k
      | some new => exact .some (h k old new ha hb)

/-- The node lists of the diff together compare the nodes. -/
theorem nodes_agree {a b : Topology} :
    ((diffTopologies a b).nodesAdded = [] ∧ (diffTopologies a b).nodesRemoved = [] ∧
      (diffTopologies a b).routesChanged = [] ∧ (diffTopologies a b).sysctlsChanged = [] ∧
      (diffTopologies a b).nftablesChanged = [] ∧ (diffTopologies a b).nodesChanged = []) ↔
    ∀ name : String, Option.Rel (Node.Agree Topology.effectiveFirewall a b)
      a.nodes[name]? b.nodes[name]? := by
  have hnode (m n : Node) : m.routes = n.routes ∧ m.sysctls = n.sysctls ∧ m.nat = n.nat ∧
      { m with routes := ∅, sysctls := ∅, firewall := none, nat := none } =
        { n with routes := ∅, sysctls := ∅, firewall := none, nat := none } ↔
      { m with firewall := none } = { n with firewall := none } := by
    simp only [Node.ext_iff]; tauto
  have hsysctl (name : String) (m n : Node) :
      (if (sysctlChange name m n).isEmpty then [] else [sysctlChange name m n]) = [] ↔
        m.sysctls = n.sysctls := by
    rw [← sysctlChange_isEmpty name]; simp
  simp only [rel_getElem?, diffTopologies, sortByKey_eq_nil, onBoth_eq_nil, entryChanges_eq_nil,
    hsysctl, nftablesChange_eq_nil, fieldsChange_eq_nil, changedFields_node, Node.Agree, ← hnode]
  refine and_congr_right fun _ => and_congr_right fun _ => ?_
  constructor
  · rintro ⟨hr, hs, hf, hn⟩ name m n ha hb
    obtain ⟨hfw, hnat⟩ := hf name m n ha hb
    exact ⟨hfw, hr name m n ha hb, hs name m n ha hb, hnat, hn name m n ha hb⟩
  · intro h
    refine ⟨fun name m n ha hb => ?_, fun name m n ha hb => ?_, fun name m n ha hb => ?_,
      fun name m n ha hb => ?_⟩ <;> obtain ⟨hfw, hr, hs, hnat, hn⟩ := h name m n ha hb
    exacts [hr, hs, ⟨hfw, hnat⟩, hn]

/-- The network lists of the diff together compare the networks. -/
theorem networks_agree {a b : Topology} :
    ((diffTopologies a b).networkImpairsChanged = [] ∧ (diffTopologies a b).networksAdded = [] ∧
      (diffTopologies a b).networksRemoved = [] ∧ (diffTopologies a b).networksChanged = []) ↔
    ∀ name : String, Option.Rel Network.Agree a.networks[name]? b.networks[name]? := by
  simp only [rel_getElem?, diffTopologies, sortByKey_eq_nil, onBoth_eq_nil, entryChanges_eq_nil,
    fieldsChange_eq_nil, changedFields_network, groupBySrc_eq, Network.Agree]
  constructor
  · rintro ⟨hi, hba, hab, hn⟩
    refine ⟨hba, hab, fun name m n ha hb => ⟨fun src => ?_, hn name m n ha hb⟩⟩
    simpa [Topology.impairmentsOf, ha, hb] using hi name src
  · rintro ⟨hba, hab, h⟩
    refine ⟨fun net src => ?_, hba, hab, fun name m n ha hb => (h name m n ha hb).2⟩
    rw [BTreeMap.removed_eq_nil] at hba hab
    cases ha : a.networks[net]? with
    | none =>
      cases hb : b.networks[net]? with
      | none => simp [Topology.impairmentsOf, ha, hb]
      | some n => simpa [Std.ExtTreeMap.mem_iff_isSome_getElem?, ha, hb] using hba net
    | some m =>
      cases hb : b.networks[net]? with
      | none => simpa [Std.ExtTreeMap.mem_iff_isSome_getElem?, ha, hb] using hab net
      | some n => simpa [Topology.impairmentsOf, ha, hb] using (h net m n ha hb).1 src

/-- The impairment lists of the diff together compare the impairments. -/
theorem impairments_eq {a b : Topology} :
    ((diffTopologies a b).impairmentsChanged = [] ∧ (diffTopologies a b).impairmentsAdded = [] ∧
      (diffTopologies a b).impairmentsRemoved = []) ↔ a.impairments = b.impairments := by
  rw [← BTreeMap.upserts_removed_eq_nil, ← split_upserts (f := Prod.mk) (g := ImpairmentChange.mk),
    and_assoc]
  simp only [diffTopologies, sortByKey_eq_nil]

/-- A topology is compared part by part. -/
theorem isEmpty_iff_agree {a b : Topology} (ha : (a.links.map (·.endpoints)).Nodup)
    (hb : (b.links.map (·.endpoints)).Nodup) :
    (diffTopologies a b).isEmpty ↔ Topology.Agree Topology.effectiveFirewall a b := by
  have hsections : (diffTopologies a b).sectionsChanged = [] ↔ _ := changedFields_topology
  have hlab : (diffTopologies a b).labChanged = [] ↔ _ := changedFields_lab
  have hlimits : (diffTopologies a b).rateLimitsChanged = [] ↔ a.rateLimits = b.rateLimits := by
    simp only [diffTopologies, sortByKey_eq_nil, entryChanges_eq_nil]
  have hqdiscs : (diffTopologies a b).qdiscsChanged = [] ↔ a.qdiscs = b.qdiscs := by
    simp only [diffTopologies, sortByKey_eq_nil, entryChanges_eq_nil]
  have hparts : (diffTopologies a b).isEmpty ↔
      (∀ name : String, Option.Rel (Node.Agree Topology.effectiveFirewall a b)
        a.nodes[name]? b.nodes[name]?) ∧ a.links.Perm b.links ∧
      (∀ name : String, Option.Rel Network.Agree a.networks[name]? b.networks[name]?) ∧
      a.lab = b.lab ∧ a.impairments = b.impairments ∧ a.rateLimits = b.rateLimits ∧
      a.qdiscs = b.qdiscs ∧ (diffTopologies a b).sectionsChanged = [] := by
    rw [← nodes_agree, ← links_perm ha hb, ← networks_agree, ← hlab, ← impairments_eq, ← hlimits,
      ← hqdiscs]
    simp only [TopologyDiff.isEmpty, Bool.and_eq_true, List.isEmpty_iff]
    tauto
  rw [hparts, hsections]
  constructor
  · rintro ⟨hn, hl, hw, h1, h2, h3, h4, h5, h6, h7, h8, h9, h10, h11, h12⟩
    exact ⟨hn, hl, hw, Topology.ext h1 h5 rfl rfl rfl h2 rfl h3 h4 h6 h7 h8 h9 h10 h11 h12⟩
  · rintro ⟨hn, hl, hw, h⟩
    simp only [Topology.ext_iff, true_and] at h
    tauto

/-- `diffTopologies` reports a change exactly when the topologies differ in a
serialized field, a node's firewall counting as what the node runs; and the
number of changes is zero exactly then. -/
theorem diffTopologies_exact (a b : Topology) (ha : (a.links.map (·.endpoints)).Nodup)
    (hb : (b.links.map (·.endpoints)).Nodup) :
    ((diffTopologies a b).isEmpty ↔ Topology.Agree Topology.effectiveFirewall a b) ∧
      ((diffTopologies a b).changeCount = 0 ↔ (diffTopologies a b).isEmpty) :=
  ⟨isEmpty_iff_agree ha hb, TopologyDiff.changeCount_eq_zero _⟩

/-- A firewall that drops what it does not accept. -/
def dropFirewall : FirewallConfig where
  policy := some "drop"
  rules := [{ matchExpr := some "ct state established,related", action := some "accept" }]

/-- One node whose profile has a firewall, with the firewall of its own given. -/
def profiledLab (own : Option FirewallConfig) : Topology where
  lab := { name := "lab" }
  profiles := (∅ : BTreeMap String Profile).insert "edge" { firewall := some dropFirewall }
  nodes := (∅ : BTreeMap String Node).insert "hq" { profiles := ["edge"], firewall := own }

theorem diffTopologies_exact_two_links :
    let l : Link := { endpoints := ("a:eth0", "b:eth0") }
    let m : Link := { endpoints := ("a:eth1", "b:eth1") }
    let a : Topology := { links := [l, m] }
    let b : Topology := { links := [m, l] }
    ((diffTopologies a b).isEmpty ↔ Topology.Agree Topology.effectiveFirewall a b) ∧
      ((diffTopologies a b).changeCount = 0 ↔ (diffTopologies a b).isEmpty) :=
  diffTopologies_exact _ _ (by decide) (by decide)

/-- A node's own firewall that repeats its profile's makes no difference: the
diff compares the firewall the node runs. -/
theorem diffTopologies_misses_own_firewall :
    ¬ ∀ a b : Topology, (a.links.map (·.endpoints)).Nodup → (b.links.map (·.endpoints)).Nodup →
      ((diffTopologies a b).isEmpty ↔ Topology.Agree (fun _ n => n.firewall) a b) ∧
        ((diffTopologies a b).changeCount = 0 ↔ (diffTopologies a b).isEmpty) := by
  intro h
  let a := profiledLab none
  let b := profiledLab (some dropFirewall)
  have hnodes (own : Option FirewallConfig) (name : String) :
      (profiledLab own).nodes[name]? =
        if "hq" = name then some { profiles := ["edge"], firewall := own } else none := by
    simp [profiledLab, Std.ExtTreeMap.getElem?_insert]
  have hagree : Topology.Agree Topology.effectiveFirewall a b := by
    refine ⟨fun name => ?_, .nil, fun name => ?_, rfl⟩
    · rw [hnodes, hnodes]
      split_ifs
      · exact .some ⟨by decide, rfl⟩
      · exact .none
    · rw [show a.networks[name]? = none from Std.ExtTreeMap.getElem?_empty,
        show b.networks[name]? = none from Std.ExtTreeMap.getElem?_empty]
      exact .none
  have hempty := (isEmpty_iff_agree (a := a) (b := b) (by decide) (by decide)).mpr hagree
  have hrel := ((h a b (by decide) (by decide)).1.mp hempty).nodes "hq"
  rw [hnodes, hnodes, if_pos rfl, if_pos rfl] at hrel
  cases hrel with
  | some hrel => exact absurd hrel.1 (by decide)

end NlinkLab
