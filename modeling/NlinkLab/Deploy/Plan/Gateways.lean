import NlinkLab.Data.Inserts
import NlinkLab.Deploy.Plan.Forwarding
import NlinkLab.Deploy.Plan.Subjects
import NlinkLab.Net.Text
import NlinkLab.Validator.Endpoints

/-! Whether the gateways of the automatic routes are on the node's own networks. A node's
neighbours are the other ends of its links and, on a network, the first address of every
other port, whose node it is and whichever subnet it is in; and the search leaves out only
the networks of a node's links and ports. The routes resolve exactly when the neighbours
they go through do (`routesResolve_iff`). -/

namespace NlinkLab.Routes

open Bfs

variable (t : Topology) (v6 : Bool)

/-! ### Addresses -/

/-- The topology as it is planned, its management network included. -/
def plannedTopology : Topology := (withMgmtNetwork t).toOption.getD t

/-- The addresses the planner puts on a node. -/
def plannedAddresses (name : String) : List String :=
  match (plannedTopology t).nodes[name]? with
  | none => []
  | some node => (declaredAddresses (plannedTopology t) name node).map (·.2.2)

/-- A node has an address. -/
def HasAddress (name ip : String) : Prop :=
  ∃ addr ∈ plannedAddresses t name, ∃ a, IpAddr.parse ip = some a ∧ hostPart addr = some a

/-- An address lies in a network the node has an address on. -/
def OnNetwork (name ip : String) : Prop :=
  ∃ addr ∈ plannedAddresses t name, ∃ a net len, IpAddr.parse ip = some a ∧ parseCidr addr = .ok (net, len) ∧
    ipInSubnet a net len = true

/-- A route's gateway is an address of another node in a network of the node, and its
destination is no network of the node. -/
structure Resolves (name dest : String) (route : RouteConfig) : Prop where
  gateway : ∃ gw, route.via = some gw ∧ (∃ other, other ≠ name ∧ HasAddress t other gw) ∧ OnNetwork t name gw
  remote : ∀ addr ∈ plannedAddresses t name, networkCidr addr ≠ some (normalizeDest dest route)

/-- Every automatic route resolves. -/
def RoutesResolve : Prop :=
  ∀ name dest route, ((autoGenerateRoutes t)[name]?).bind (·[dest]?) = some route → Resolves t name dest route

/-! ### The neighbours that routes go through -/

/-- The two ends of a link with addresses of the family. -/
def OverLink (name : String) (hop : Hop) : Prop :=
  ∃ link ∈ t.links, ∃ a b, linkEnds v6 link = some (a, b) ∧
    ((a.1.node = name ∧ hop = (b.1.node, before '/' b.2)) ∨ (b.1.node = name ∧ hop = (a.1.node, before '/' a.2)))

/-- A neighbour that is the node itself has another node's address; and one on a network
has a first address in a network of the node. -/
structure HopResolves (name : String) (hop : Hop) : Prop where
  apart : hop.1 = name → ∃ other, other ≠ name ∧ HasAddress t other hop.2
  onNetwork : ¬ OverLink t v6 name hop → OnNetwork t name hop.2

/-- The neighbours that the nodes' routes go through resolve, and the networks of the routes
are not those of a node's other addresses. -/
structure NextHopsResolve : Prop where
  /-- A stub's or a host's gateway, where it has no default. -/
  default : ∀ name node, t.nodes[name]? = some node → ¬ hasDefault node.routes v6 →
    Stub t v6 name ∨ ¬ forwards t v6 name → ∀ hop, gateway t v6 name = some hop →
      HopResolves t v6 name hop ∧
        ∀ addr ∈ plannedAddresses t name, networkCidr addr ≠ some (if v6 then "::/0" else "0.0.0.0/0")
  /-- The first neighbour of the first path to each network a router gets a route to. -/
  search : ∀ name node, t.nodes[name]? = some node → forwards t v6 name → ¬ Stub t v6 name →
    ∀ net, ¬ Attached t v6 name net → net ∉ node.routes →
      ∀ i p x, IsFirst (adj t v6) name (Offers t v6 node net) (i :: p) x →
        ∀ hop, (neighbors t v6 name)[i]? = some hop → HopResolves t v6 name hop ∧
          ∀ addr ∈ plannedAddresses t name, addr ∉ subnets t v6 name → networkCidr addr ≠ some net

/-! ### What the planner puts on a node -/

theorem linkEnds_eq_some {link : Link} {a b : EndpointRef × String} (h : linkEnds v6 link = some (a, b)) :
    link.addresses = some (a.2, b.2) ∧ EndpointRef.parse link.endpoints.1 = some a.1 ∧
      EndpointRef.parse link.endpoints.2 = some b.1 ∧ isFamily a.2 v6 ∧ isFamily b.2 v6 := by
  unfold linkEnds at h
  simp only [Option.bind_eq_bind, Option.bind_eq_some_iff] at h
  obtain ⟨⟨addrA, addrB⟩, haddr, h⟩ := h
  split_ifs at h with hfamily
  simp only [Option.bind_eq_some_iff] at h
  obtain ⟨epA, hA, epB, hB, h⟩ := h
  cases h
  exact ⟨haddr, hA, hB, hfamily⟩

variable {t v6} {nl : Nlink} {vals : Values}

theorem plannedTopology_eq : (plannedTopology t).nodes = t.nodes ∧ (plannedTopology t).links = t.links := by
  unfold plannedTopology
  cases htopo : withMgmtNetwork t with
  | error e => exact ⟨rfl, rfl⟩
  | ok topo =>
    obtain ⟨hnodes, hlinks, -⟩ := Plan.withMgmtNetwork_eq htopo
    exact ⟨hnodes, hlinks⟩

/-- The management network has a name of its own. -/
theorem network_planned (h : t.valid nl vals) {name : String} {network : Network}
    (hnet : t.networks[name]? = some network) : (plannedTopology t).networks[name]? = some network := by
  have hname : ¬ compare MGMT_NETWORK name = .eq := by
    intro heq
    obtain rfl := Std.LawfulEqOrd.eq_of_compare heq
    have hmem : MGMT_NETWORK ∈ t.networks := Std.ExtTreeMap.mem_iff_isSome_getElem?.mpr (by rw [hnet]; rfl)
    exact absurd (Validator.isValidName_network h hmem) (by decide)
  unfold plannedTopology withMgmtNetwork
  split
  · split_ifs
    · exact hnet
    · rename_i subnet _ _
      cases mgmtAddresses subnet t.nodes.size with
      | error e => exact hnet
      | ok mgmt =>
        refine Eq.trans (Std.ExtTreeMap.getElem?_insert ..) ?_
        rw [if_neg hname]
        exact hnet
  · exact hnet

theorem mem_plannedAddresses_of_link {link : Link} (hlink : link ∈ t.links) {addrA addrB ep addr : String}
    (haddr : link.addresses = some (addrA, addrB))
    (hmem : (ep, addr) ∈ [(link.endpoints.1, addrA), (link.endpoints.2, addrB)]) {e : EndpointRef}
    (he : EndpointRef.parse ep = some e) {node : Node} (hnode : t.nodes[e.node]? = some node) :
    addr ∈ plannedAddresses t e.node := by
  obtain ⟨hnodes, hlinks⟩ := plannedTopology_eq (t := t)
  unfold plannedAddresses
  rw [hnodes, hnode]
  refine List.mem_map.mpr ⟨("", e.iface, addr), ?_, rfl⟩
  unfold declaredAddresses
  simp only [List.append_assoc]
  refine List.mem_append_left _ (List.mem_flatMap.mpr ⟨link, hlinks ▸ hlink, ?_⟩)
  rw [haddr]
  exact List.mem_filterMap.mpr ⟨(ep, addr), hmem, by simp [he]⟩

theorem mem_plannedAddresses_of_port (h : t.valid nl vals) {name key addr : String} {network : Network}
    {port : PortConfig} (hnet : t.networks[name]? = some network) (hport : network.ports[key]? = some port)
    (haddr : addr ∈ port.addresses) {e : EndpointRef} (he : EndpointRef.parse key = some e) {node : Node}
    (hnode : t.nodes[e.node]? = some node) : addr ∈ plannedAddresses t e.node := by
  unfold plannedAddresses
  rw [plannedTopology_eq.1, hnode]
  refine List.mem_map.mpr ⟨("", e.iface, addr), ?_, rfl⟩
  unfold declaredAddresses
  simp only [List.mem_append]
  refine .inl (.inl (.inl (.inl (.inr ?_))))
  refine List.mem_flatMap.mpr ⟨_, Std.ExtTreeMap.mem_toList_iff_getElem?_eq_some.mpr (network_planned h hnet), ?_⟩
  refine List.mem_flatMap.mpr ⟨_, Std.ExtTreeMap.mem_toList_iff_getElem?_eq_some.mpr hport, ?_⟩
  rw [he]
  simp [haddr]

/-- A port of a valid topology is on a node of it. -/
theorem exists_node_of_port (h : t.valid nl vals) {name key : String} {network : Network}
    (hnet : t.networks[name]? = some network) (hkey : key ∈ network.ports) {e : EndpointRef}
    (he : EndpointRef.parse key = some e) : ∃ node, t.nodes[e.node]? = some node := by
  by_contra hnone
  have hcheck : Validator.checkNode t (((EndpointRef.parse key).map (·.node)).getD key)
      ("networks." ++ name ++ ".ports." ++ key) = some (Validator.error "dangling-node-ref"
        ("node '" ++ e.node ++ "' does not exist") ("networks." ++ name ++ ".ports." ++ key)) := by
    rw [he]
    refine if_neg fun hcontains => hnone ?_
    rw [Std.ExtTreeMap.contains_eq_isSome_getElem?] at hcontains
    exact Option.isSome_iff_exists.mp hcontains
  have hmem : Validator.error "dangling-node-ref" ("node '" ++ e.node ++ "' does not exist")
      ("networks." ++ name ++ ".ports." ++ key) ∈ Validator.validateDanglingNodeRefs t :=
    List.mem_append_right _ (List.mem_flatMap.mpr
      ⟨_, Std.ExtTreeMap.mem_toList_iff_getElem?_eq_some.mpr hnet,
        List.mem_append_right _ (List.mem_filterMap.mpr ⟨key, Std.ExtTreeMap.mem_keys.mpr hkey, hcheck⟩)⟩)
  exact absurd rfl (Topology.severity_of_valid h (Validator.mem_validate_of_nodeRefs hmem))

/-- An end of a link of a valid topology is on a node of it. -/
theorem exists_node_of_link (h : t.valid nl vals) {link : Link} (hlink : link ∈ t.links) {ep : String}
    (hep : ep ∈ [link.endpoints.1, link.endpoints.2]) {e : EndpointRef} (he : EndpointRef.parse ep = some e) :
    ∃ node, t.nodes[e.node]? = some node := by
  by_contra hnone
  obtain ⟨i, hi⟩ := Validator.exists_mem_zipIdx hlink
  obtain ⟨location, hmem⟩ : ∃ location, (ep, location) ∈ Validator.linkEndpoints t := by
    rcases List.mem_cons.mp hep with rfl | hep
    · exact ⟨_, List.mem_flatMap.mpr ⟨_, hi, List.mem_cons_self⟩⟩
    · obtain rfl := List.mem_singleton.mp hep
      exact ⟨_, List.mem_flatMap.mpr ⟨_, hi, List.mem_cons_of_mem _ List.mem_cons_self⟩⟩
  have hcheck : Validator.checkEndpointNode t ep location = some (Validator.error "dangling-node-ref"
      ("node '" ++ e.node ++ "' does not exist") location) := by
    unfold Validator.checkEndpointNode Validator.checkNode
    rw [he, Option.bind_some, if_neg]
    intro hcontains
    rw [Std.ExtTreeMap.contains_eq_isSome_getElem?] at hcontains
    exact hnone (Option.isSome_iff_exists.mp hcontains)
  exact absurd rfl (Topology.severity_of_valid h (Validator.mem_validate_of_nodeRefs
    (List.mem_append_left _ (List.mem_filterMap.mpr ⟨_, List.mem_append_left _ hmem, hcheck⟩))))

/-- The addresses the routes are made from are addresses the planner puts on the nodes. -/
theorem planned_of_mem_addresses (h : t.valid nl vals) {name addr : String} (hmem : (name, addr) ∈ addresses t v6) :
    isFamily addr v6 ∧ addr ∈ plannedAddresses t name := by
  rcases List.mem_append.mp hmem with hmem | hmem
  · obtain ⟨link, hlink, hmem⟩ := List.mem_flatMap.mp hmem
    split at hmem
    · cases hmem
    · rename_i a addrA b addrB hends
      obtain ⟨haddr, ha, hb, hfa, hfb⟩ := linkEnds_eq_some v6 hends
      rcases List.mem_cons.mp hmem with heq | hmem
      · cases heq
        obtain ⟨node, hnode⟩ := exists_node_of_link h hlink List.mem_cons_self ha
        exact ⟨hfa, mem_plannedAddresses_of_link hlink haddr List.mem_cons_self ha hnode⟩
      · cases List.mem_singleton.mp hmem
        have hep : link.endpoints.2 ∈ [link.endpoints.1, link.endpoints.2] :=
          List.mem_cons_of_mem _ List.mem_cons_self
        obtain ⟨node, hnode⟩ := exists_node_of_link h hlink hep hb
        exact ⟨hfb, mem_plannedAddresses_of_link hlink haddr (List.mem_cons_of_mem _ List.mem_cons_self) hb hnode⟩
  · obtain ⟨⟨netName, network⟩, hnet, hmem⟩ := List.mem_flatMap.mp hmem
    obtain ⟨⟨key, port⟩, hport, hmem⟩ := List.mem_flatMap.mp hmem
    have hnet := Std.ExtTreeMap.mem_toList_iff_getElem?_eq_some.mp hnet
    have hport := Std.ExtTreeMap.mem_toList_iff_getElem?_eq_some.mp hport
    dsimp only at hmem
    split at hmem
    · cases hmem
    · rename_i ep hep
      obtain ⟨addr', haddr', heq⟩ := List.mem_map.mp hmem
      cases heq
      obtain ⟨hin, hfamily⟩ := List.mem_filter.mp haddr'
      have hkey : key ∈ network.ports := Std.ExtTreeMap.mem_iff_isSome_getElem?.mpr (by rw [hport]; rfl)
      obtain ⟨node, hnode⟩ := exists_node_of_port h hnet hkey hep
      exact ⟨hfamily, mem_plannedAddresses_of_port h hnet hport hin hep hnode⟩

/-! ### The neighbours -/

theorem mem_neighbors {name : String} {hop : Hop} : hop ∈ neighbors t v6 name ↔ (name, hop) ∈ hops t v6 := by
  rw [neighbors_eq]
  unfold BTreeMap.itemsAt
  simp

/-- A neighbour's address is one of its node, without the prefix. -/
theorem exists_address_of_neighbor {name : String} {hop : Hop} (h : hop ∈ neighbors t v6 name) :
    ∃ addr, (hop.1, addr) ∈ addresses t v6 ∧ before '/' addr = hop.2 := by
  rcases List.mem_append.mp (mem_neighbors.mp h) with h | h
  · obtain ⟨link, hlink, hmem⟩ := List.mem_flatMap.mp h
    split at hmem
    · cases hmem
    · rename_i a addrA b addrB hends
      have haddresses : ∀ e ∈ [(a.node, addrA), (b.node, addrB)], e ∈ addresses t v6 := fun e he =>
        List.mem_append_left _ (List.mem_flatMap.mpr ⟨link, hlink, by rw [hends]; exact he⟩)
      rcases List.mem_cons.mp hmem with heq | hmem
      · cases heq
        exact ⟨addrB, haddresses _ (List.mem_cons_of_mem _ List.mem_cons_self), rfl⟩
      · cases List.mem_singleton.mp hmem
        exact ⟨addrA, haddresses _ List.mem_cons_self, rfl⟩
  · obtain ⟨⟨netName, network⟩, hnet, hmem⟩ := List.mem_flatMap.mp h
    obtain ⟨⟨⟨node, addr⟩, i⟩, -, hmem⟩ := List.mem_flatMap.mp hmem
    obtain ⟨⟨hop', j⟩, hj, heq⟩ := List.mem_filterMap.mp hmem
    dsimp only at heq
    split_ifs at heq
    cases heq
    have hmember : hop ∈ netMembers v6 network := by
      have hmem := List.mem_map_of_mem (f := Prod.fst) hj
      rwa [List.zipIdx_map_fst] at hmem
    obtain ⟨⟨key, port⟩, hport, hmember⟩ := List.mem_filterMap.mp hmember
    obtain ⟨ep, hep, hfind⟩ := Option.bind_eq_some_iff.mp hmember
    obtain ⟨first, hfirst, rfl⟩ := Option.map_eq_some_iff.mp hfind
    refine ⟨first, List.mem_append_right _ (List.mem_flatMap.mpr ⟨_, hnet, List.mem_flatMap.mpr ⟨_, hport, ?_⟩⟩), rfl⟩
    dsimp only
    rw [hep]
    refine List.mem_map.mpr ⟨first, List.mem_filter.mpr ⟨List.mem_of_find?_eq_some hfirst, ?_⟩, rfl⟩
    exact List.find?_some (p := (isFamily · v6)) hfirst

/-- A neighbour's address is an address of its node, of the family. -/
theorem exists_ip_of_neighbor (h : t.valid nl vals) {name : String} {hop : Hop} (hn : hop ∈ neighbors t v6 name) :
    HasAddress t hop.1 hop.2 ∧ ∃ ip, IpAddr.parse hop.2 = some ip ∧ ip.isIpv6 = v6 := by
  obtain ⟨addr, haddr, heq⟩ := exists_address_of_neighbor hn
  obtain ⟨hfamily, hplanned⟩ := planned_of_mem_addresses h haddr
  obtain ⟨ip, hip, hv6⟩ := (Option.any_eq_true _ _).mp hfamily
  have hparse : IpAddr.parse hop.2 = some ip := by rwa [← heq]
  exact ⟨⟨addr, hplanned, ip, hparse, hip⟩, ip, hparse, of_decide_eq_true hv6⟩

theorem mem_validate_of_cidrs {issue : ValidationIssue} (h : issue ∈ Validator.validateCidrs t) :
    issue ∈ t.validate nl vals := by
  unfold Topology.validate
  generalize Validator.validateCidrs t = l at h
  simp only [List.mem_append, h, true_or, or_true]

theorem mem_validate_of_linkSubnets {issue : ValidationIssue} (h : issue ∈ Validator.validateLinkEndpointSubnets t) :
    issue ∈ t.validate nl vals := by
  unfold Topology.validate
  generalize Validator.validateLinkEndpointSubnets t = l at h
  simp only [List.mem_append, h, true_or, or_true]

theorem exists_cidr_of_link (h : t.valid nl vals) {link : Link} (hlink : link ∈ t.links) {addrA addrB : String}
    (haddr : link.addresses = some (addrA, addrB)) {addr : String} (hmem : addr ∈ [addrA, addrB]) :
    ∃ ip len, parseCidr addr = .ok (ip, len) := by
  obtain ⟨i, hi⟩ := Validator.exists_mem_zipIdx hlink
  obtain ⟨k, hk⟩ := Validator.exists_mem_zipIdx hmem
  cases hcidr : parseCidr addr with
  | ok e => exact ⟨e.1, e.2, rfl⟩
  | error e =>
    let location := "links[" ++ toString i ++ "]" ++ ".addresses[" ++ toString k ++ "]"
    have hissue : Validator.error "valid-cidr" ("invalid CIDR '" ++ addr ++ "': " ++ e.display) location ∈
        Validator.validateCidrs t := by
      refine List.mem_append_left _ (List.mem_filterMap.mpr ⟨(addr, location), List.mem_append_left _
        (List.mem_flatMap.mpr ⟨(link, i), hi, ?_⟩), ?_⟩)
      · simp only [haddr, Option.map_some, Option.getD_some]
        exact List.mem_map.mpr ⟨(addr, k), hk, rfl⟩
      · simp only [Validator.checkCidr, hcidr]
    exact absurd rfl (Topology.severity_of_valid h (mem_validate_of_cidrs hissue))

/-- A valid topology has both ends of a link in one network. -/
theorem networkAddress_of_link (h : t.valid nl vals) {link : Link} (hlink : link ∈ t.links) {addrA addrB : String}
    (haddr : link.addresses = some (addrA, addrB)) :
    ∃ a b len, parseCidr addrA = .ok (a, len) ∧ parseCidr addrB = .ok (b, len) ∧
      networkAddress a len = networkAddress b len := by
  obtain ⟨a, lenA, hA⟩ := exists_cidr_of_link h hlink haddr List.mem_cons_self
  obtain ⟨b, lenB, hB⟩ := exists_cidr_of_link h hlink haddr (List.mem_cons_of_mem _ List.mem_cons_self)
  have hsame : ¬ (lenA ≠ lenB ∨ networkAddress a lenA ≠ networkAddress b lenB) := by
    intro hne
    obtain ⟨i, hi⟩ := Validator.exists_mem_zipIdx hlink
    have hissue : Validator.error "link-endpoints-same-subnet"
        ("link endpoints '" ++ addrA ++ "' and '" ++ addrB ++ "' are not in the same subnet")
        ("links[" ++ toString i ++ "].addresses") ∈ Validator.validateLinkEndpointSubnets t := by
      refine List.mem_filterMap.mpr ⟨(link, i), hi, ?_⟩
      simp only [haddr, Option.bind_some, hA, hB]
      exact if_pos hne
    exact absurd rfl (Topology.severity_of_valid h (mem_validate_of_linkSubnets hissue))
  simp only [not_or, not_not] at hsame
  obtain ⟨rfl, hnet⟩ := hsame
  exact ⟨a, b, lenA, hA, hB, hnet⟩

/-- A neighbour over a link is in a network of the node. -/
theorem onNetwork_of_overLink (h : t.valid nl vals) {name : String} {hop : Hop} (hover : OverLink t v6 name hop) :
    OnNetwork t name hop.2 := by
  obtain ⟨link, hlink, a, b, hends, hcase⟩ := hover
  obtain ⟨haddr, ha, hb, hfa, hfb⟩ := linkEnds_eq_some v6 hends
  obtain ⟨ipA, ipB, len, hA, hB, hnet⟩ := networkAddress_of_link h hlink haddr
  have hepB : link.endpoints.2 ∈ [link.endpoints.1, link.endpoints.2] := List.mem_cons_of_mem _ List.mem_cons_self
  rcases hcase with ⟨rfl, rfl⟩ | ⟨rfl, rfl⟩
  · obtain ⟨node, hnode⟩ := exists_node_of_link h hlink List.mem_cons_self ha
    refine ⟨a.2, mem_plannedAddresses_of_link hlink haddr List.mem_cons_self ha hnode, ipB, ipA, len,
      hostPart_of_parseCidr hB, hA, ?_⟩
    exact (ipInSubnet_iff (parseCidr_le hA)).mpr hnet.symm
  · obtain ⟨node, hnode⟩ := exists_node_of_link h hlink hepB hb
    refine ⟨b.2, mem_plannedAddresses_of_link hlink haddr (List.mem_cons_of_mem _ List.mem_cons_self) hb hnode,
      ipA, ipB, len, hostPart_of_parseCidr hA, hB, ?_⟩
    exact (ipInSubnet_iff (parseCidr_le hB)).mpr hnet

/-- A neighbour resolves when its address is another node's, in a network of the node. -/
theorem hopResolves_iff (h : t.valid nl vals) {name : String} {hop : Hop} (hn : hop ∈ neighbors t v6 name) :
    HopResolves t v6 name hop ↔ (∃ other, other ≠ name ∧ HasAddress t other hop.2) ∧ OnNetwork t name hop.2 := by
  constructor
  · intro hr
    constructor
    · by_cases hself : hop.1 = name
      · exact hr.apart hself
      · exact ⟨hop.1, hself, (exists_ip_of_neighbor h hn).1⟩
    · by_cases hover : OverLink t v6 name hop
      · exact onNetwork_of_overLink h hover
      · exact hr.onNetwork hover
  · rintro ⟨hother, hon⟩
    exact ⟨fun _ => hother, fun _ => hon⟩

/-! ### Destinations -/

theorem normalizeDest_default {gw : String} {ip : IpAddr} (hip : IpAddr.parse gw = some ip)
    (hv6 : ip.isIpv6 = v6) :
    normalizeDest (defaultKey v6) (routeVia gw) = if v6 then "::/0" else "0.0.0.0/0" := by
  cases v6 with
  | true => exact normalizeDest_of_slash (by decide) _
  | false =>
    unfold normalizeDest defaultKey routeVia
    simp [hip, hv6]

theorem slash_mem_of_networkCidr {addr net : String} (h : networkCidr addr = some net) : '/' ∈ net.toList := by
  obtain ⟨⟨ip, len⟩, -, rfl⟩ := Option.map_eq_some_iff.mp h
  simp

/-- A network is written with a colon when it is of IPv6. -/
theorem colon_mem_networkCidr {addr net : String} (h : networkCidr addr = some net) :
    ':' ∈ net.toList ↔ isFamily addr true := by
  obtain ⟨⟨ip, len⟩, hcidr, rfl⟩ := Option.map_eq_some_iff.mp h
  have hcidr : parseCidr addr = .ok (ip, len) := by
    cases hp : parseCidr addr with
    | error e => rw [hp] at hcidr; cases hcidr
    | ok e => rw [hp] at hcidr; cases hcidr; rfl
  have hlen := notMem_toString (c := ':') (by decide) len
  have hfamily : (networkAddress ip len).isIpv6 = ip.isIpv6 := by cases ip <;> rfl
  unfold isFamily
  rw [hostPart_of_parseCidr hcidr]
  simp only [String.toList_append, List.mem_append, colon_mem_display, hlen, or_false, hfamily]
  simp

/-! ### The routes of one family -/

theorem autoRoute_of_none {name : String} (h : t.nodes[name]? = none) (dest : String) :
    autoRoute t v6 name dest = none := by
  unfold autoRoute autoRoutesForFamily
  rw [Std.ExtTreeMap.getElem?_filterMap', h]
  rfl

theorem gateway_mem {name : String} {hop : Hop} (h : gateway t v6 name = some hop) : hop ∈ neighbors t v6 name := by
  unfold gateway at h
  cases hfind : (neighbors t v6 name).find? (fun hop => forwards t v6 hop.1) with
  | none =>
    rw [hfind] at h
    exact List.mem_of_head? h
  | some gw =>
    rw [hfind] at h
    cases h
    exact List.mem_of_find?_eq_some hfind

/-- A stub's neighbours all forward or none does, so its gateway is the first. -/
theorem gateway_of_stub {name : String} {first : Hop} {rest : List Hop} (hs : Stub t v6 name)
    (hn : neighbors t v6 name = first :: rest) : gateway t v6 name = some first := by
  have hsame : ∀ hop ∈ neighbors t v6 name, forwards t v6 hop.1 = forwards t v6 first.1 := fun hop hhop =>
    congrArg _ (hs hop hhop first (hn ▸ List.mem_cons_self))
  unfold gateway
  rw [hn] at hsame ⊢
  cases hf : forwards t v6 first.1 with
  | true => simp [hf]
  | false =>
    have hnone : (first :: rest).find? (fun hop => forwards t v6 hop.1) = none := by
      refine List.find?_eq_none.mpr fun hop hhop => ?_
      rw [hsame hop hhop, hf]
      exact Bool.false_ne_true
    rw [hnone]
    rfl

/-- The only route of a stub or a host is the default via its gateway. -/
theorem nodeRoutes_of_default {name : String} {node : Node} (hd : Stub t v6 name ∨ ¬ forwards t v6 name) :
    nodeRoutes t v6 name node = (gateway t v6 name).elim ∅ fun hop => defaultVia v6 node hop.2 := by
  by_cases hs : Stub t v6 name
  · rcases hn : neighbors t v6 name with - | ⟨first, rest⟩
    · have hnone : gateway t v6 name = none := by
        unfold gateway
        rw [hn]
        rfl
      rw [nodeRoutes_of_isolated t v6 hn, hnone]
      rfl
    · rw [nodeRoutes_of_stub t v6 hs hn, gateway_of_stub hs hn]
      rfl
  · obtain ⟨gw, hgw, hroutes⟩ := nodeRoutes_of_host t v6 node (hd.resolve_left hs) hs
    rw [hroutes, hgw]
    rfl

theorem firstAddr_cons {name : String} {i : Nat} {hop : Hop} (h : (neighbors t v6 name)[i]? = some hop)
    (p : List Nat) : firstAddr t v6 name (i :: p) = hop.2 := by
  simp [firstAddr, h]

/-- A node's route is the default of a stub or a host via its gateway, or a router's via
the first neighbour of the first path to the network. -/
theorem autoRoute_eq_some {name dest : String} {node : Node} {route : RouteConfig} (hnode : t.nodes[name]? = some node) :
    autoRoute t v6 name dest = some route ↔
      (Stub t v6 name ∨ ¬ forwards t v6 name) ∧ ¬ hasDefault node.routes v6 ∧ dest = defaultKey v6 ∧
        (∃ hop, gateway t v6 name = some hop ∧ route = routeVia hop.2) ∨
      (forwards t v6 name ∧ ¬ Stub t v6 name) ∧ ¬ Attached t v6 name dest ∧ dest ∉ node.routes ∧
        ∃ i p x hop, IsFirst (adj t v6) name (Offers t v6 node dest) (i :: p) x ∧
          (neighbors t v6 name)[i]? = some hop ∧ route = routeVia hop.2 := by
  rw [autoRoute_eq t v6 hnode]
  by_cases hd : Stub t v6 name ∨ ¬ forwards t v6 name
  · have hnot : ¬ (forwards t v6 name ∧ ¬ Stub t v6 name) := fun ⟨hf, hs⟩ => hd.elim hs fun hn => hn hf
    rw [nodeRoutes_of_default hd]
    simp only [hnot, false_and, or_false, hd, true_and]
    cases hgw : gateway t v6 name with
    | none => simp
    | some hop =>
      constructor
      · intro h
        have hno : ¬ hasDefault node.routes v6 := by
          intro hdef
          unfold defaultVia at h
          rw [Option.elim_some, if_pos hdef] at h
          simp at h
        obtain ⟨rfl, rfl⟩ := getElem?_defaultVia v6 h
        exact ⟨hno, rfl, hop, rfl, rfl⟩
      · rintro ⟨hno, rfl, hop', heq, rfl⟩
        cases heq
        exact defaultVia_of_not_hasDefault v6 hno
  · obtain ⟨hs, hf⟩ := not_or.mp hd
    rw [not_not] at hf
    rw [nodeRoutes_of_router t v6 hf hs, routerRoutes_eq_some]
    simp only [hf, hs, not_true_eq_false, or_self, false_and, false_or, not_false_eq_true, and_self, true_and]
    refine and_congr_right fun hr => and_congr_right fun _ => ?_
    constructor
    · rintro ⟨p, x, hp, rfl⟩
      cases p with
      | nil =>
        -- the router offers itself no network that it is not on
        obtain ⟨addr, haddr, hnet, -⟩ := hp.mem
        cases hp.follow
        exact absurd ⟨addr, haddr, hnet⟩ hr
      | cons i p =>
        obtain ⟨y, hy, -⟩ := Option.bind_eq_some_iff.mp hp.follow
        obtain ⟨hop, hhop, -⟩ := Option.map_eq_some_iff.mp (List.getElem?_map .. ▸ hy)
        exact ⟨i, p, x, hop, hp, hhop, congrArg routeVia (firstAddr_cons hhop p)⟩
    · rintro ⟨i, p, x, hop, hp, hhop, rfl⟩
      exact ⟨i :: p, x, hp, congrArg routeVia (firstAddr_cons hhop p).symm⟩

/-- The destinations of the two families are apart. -/
theorem colon_mem_of_autoRoute (h : t.valid nl vals) {name dest : String} {route : RouteConfig}
    (hroute : autoRoute t v6 name dest = some route) : ':' ∈ dest.toList ↔ v6 = true := by
  cases hnode : t.nodes[name]? with
  | none =>
    rw [autoRoute_of_none hnode] at hroute
    cases hroute
  | some node =>
    rcases (autoRoute_eq_some hnode).mp hroute with ⟨-, -, rfl, -⟩ | ⟨-, -, -, i, p, x, hop, hp, -⟩
    · cases v6 <;> decide
    · obtain ⟨addr, haddr, hnet, -⟩ := hp.mem
      rw [colon_mem_networkCidr hnet]
      obtain ⟨hfamily, -⟩ := planned_of_mem_addresses h ((mem_subnets t v6).mp haddr)
      obtain ⟨ip, hip, hv6⟩ := (Option.any_eq_true _ _).mp hfamily
      unfold isFamily
      rw [hip, Option.any_some, ← of_decide_eq_true hv6]
      simp

/-- A route is one of either family. -/
theorem getElem?_autoGenerateRoutes (name dest : String) :
    ((autoGenerateRoutes t)[name]?).bind (·[dest]?) =
      (autoRoute t true name dest).or (autoRoute t false name dest) := by
  have hmerge := BTreeMap.getElem?_foldl_merge_toList (fun (v6 : BTreeMap String RouteConfig) old =>
    v6.toList.foldl (fun m e => m.insert e.1 e.2) (old.getD ∅)) (autoRoutesForFamily t true)
    (autoRoutesForFamily t false) name
  have hget : (autoGenerateRoutes t)[name]? = _ := hmerge
  unfold autoRoute
  rw [hget]
  cases h6 : (autoRoutesForFamily t true)[name]? with
  | none => simp
  | some routes =>
    rw [Option.elim_some, Option.bind_some, BTreeMap.getElem?_foldl_insert_toList]
    cases h4 : (autoRoutesForFamily t false)[name]? <;> simp

theorem routesResolve_iff_families (h : t.valid nl vals) : RoutesResolve t ↔
    ∀ v6 name dest route, autoRoute t v6 name dest = some route → Resolves t name dest route := by
  constructor
  · intro hr v6 name dest route hroute
    refine hr name dest route ?_
    rw [getElem?_autoGenerateRoutes]
    cases v6 with
    | true => rw [hroute, Option.some_or]
    | false =>
      have hnone : autoRoute t true name dest = none := by
        cases h6 : autoRoute t true name dest with
        | none => rfl
        | some other =>
          have hcolon := (colon_mem_of_autoRoute h h6).mpr rfl
          cases (colon_mem_of_autoRoute h hroute).mp hcolon
      rw [hnone, Option.none_or, hroute]
  · intro hr name dest route hroute
    rw [getElem?_autoGenerateRoutes] at hroute
    rcases Option.or_eq_some_iff.mp hroute with h6 | ⟨-, h4⟩
    · exact hr true name dest route h6
    · exact hr false name dest route h4

/-- A route via a neighbour resolves when the neighbour does and the destination is none of
the node's networks. -/
theorem resolves_routeVia_iff (h : t.valid nl vals) {name dest : String} {hop : Hop}
    (hn : hop ∈ neighbors t v6 name) : Resolves t name dest (routeVia hop.2) ↔ HopResolves t v6 name hop ∧
      ∀ addr ∈ plannedAddresses t name, networkCidr addr ≠ some (normalizeDest dest (routeVia hop.2)) := by
  rw [hopResolves_iff h hn]
  constructor
  · rintro ⟨⟨gw, hgw, hother, hon⟩, hremote⟩
    cases hgw
    exact ⟨⟨hother, hon⟩, hremote⟩
  · rintro ⟨⟨hother, hon⟩, hremote⟩
    exact ⟨⟨hop.2, rfl, hother, hon⟩, hremote⟩

theorem family_resolves_of (h : t.valid nl vals) (hn : NextHopsResolve t v6) {name dest : String}
    {route : RouteConfig} (hroute : autoRoute t v6 name dest = some route) : Resolves t name dest route := by
  cases hnode : t.nodes[name]? with
  | none =>
    rw [autoRoute_of_none hnode] at hroute
    cases hroute
  | some node =>
    rcases (autoRoute_eq_some hnode).mp hroute with
      ⟨hd, hno, rfl, hop, hgw, rfl⟩ | ⟨⟨hf, hs⟩, hr, hdest, i, p, x, hop, hp, hhop, rfl⟩
    · have hmem := gateway_mem hgw
      obtain ⟨-, ip, hip, hv6⟩ := exists_ip_of_neighbor h hmem
      obtain ⟨hresolves, hremote⟩ := hn.default name node hnode hno hd hop hgw
      refine (resolves_routeVia_iff h hmem).mpr ⟨hresolves, ?_⟩
      rwa [normalizeDest_default hip hv6]
    · obtain ⟨hresolves, hremote⟩ := hn.search name node hnode hf hs dest hr hdest i p x hp hop hhop
      obtain ⟨own, -, hnet, -⟩ := hp.mem
      refine (resolves_routeVia_iff h (List.mem_of_getElem? hhop)).mpr ⟨hresolves, fun addr haddr heq => ?_⟩
      rw [normalizeDest_of_slash (slash_mem_of_networkCidr hnet)] at heq
      by_cases hsub : addr ∈ subnets t v6 name
      · exact hr ⟨addr, hsub, heq⟩
      · exact hremote addr haddr hsub heq

theorem nextHopsResolve_of (h : t.valid nl vals)
    (hr : ∀ name dest route, autoRoute t v6 name dest = some route → Resolves t name dest route) :
    NextHopsResolve t v6 where
  default name node hnode hno hd hop hgw := by
    have hmem := gateway_mem hgw
    obtain ⟨-, ip, hip, hv6⟩ := exists_ip_of_neighbor h hmem
    have hroute := hr name (defaultKey v6) (routeVia hop.2)
      ((autoRoute_eq_some hnode).mpr (.inl ⟨hd, hno, rfl, hop, hgw, rfl⟩))
    obtain ⟨hresolves, hremote⟩ := (resolves_routeVia_iff h hmem).mp hroute
    rw [normalizeDest_default hip hv6] at hremote
    exact ⟨hresolves, hremote⟩
  search name node hnode hf hs net hnot hdest i p x hp hop hhop := by
    have hroute := hr name net (routeVia hop.2)
      ((autoRoute_eq_some hnode).mpr (.inr ⟨⟨hf, hs⟩, hnot, hdest, i, p, x, hop, hp, hhop, rfl⟩))
    obtain ⟨hresolves, hremote⟩ := (resolves_routeVia_iff h (List.mem_of_getElem? hhop)).mp hroute
    obtain ⟨own, -, hnet, -⟩ := hp.mem
    rw [normalizeDest_of_slash (slash_mem_of_networkCidr hnet)] at hremote
    exact ⟨hresolves, fun addr haddr _ => hremote addr haddr⟩

/-- The automatic routes of a valid topology resolve exactly when the neighbours they go
through do. -/
theorem routesResolve_iff (h : t.valid nl vals) : RoutesResolve t ↔ ∀ v6, NextHopsResolve t v6 := by
  rw [routesResolve_iff_families h]
  constructor
  · exact fun hr v6 => nextHopsResolve_of h (hr v6)
  · exact fun hn v6 name dest route hroute => family_resolves_of h (hn v6) hroute

theorem mem_keys_of_planned {name addr : String} (h : addr ∈ plannedAddresses t name) : name ∈ t.nodes.keys := by
  unfold plannedAddresses at h
  rw [plannedTopology_eq.1] at h
  refine Std.ExtTreeMap.mem_keys.mpr (Std.ExtTreeMap.mem_iff_isSome_getElem?.mpr ?_)
  cases hnode : t.nodes[name]? with
  | none =>
    rw [hnode] at h
    cases h
  | some node => rfl

/-- Two hosts on a link. -/
def pairLab : Topology :=
  { lab := { name := "lab", routing := .auto }
    nodes := .ofList [("a", {}), ("b", {})] compare
    links := [{ endpoints := ("a:eth0", "b:eth0"), addresses := some ("10.0.0.1/24", "10.0.0.2/24") }] }

theorem overLink_pairLab : OverLink pairLab false "a" ("b", "10.0.0.2") ∧ OverLink pairLab false "b" ("a", "10.0.0.1") := by
  have hends : linkEnds false { endpoints := ("a:eth0", "b:eth0"), addresses := some ("10.0.0.1/24", "10.0.0.2/24") } =
      some ((⟨"a", "eth0"⟩, "10.0.0.1/24"), ⟨"b", "eth0"⟩, "10.0.0.2/24") := by decide +kernel
  constructor
  · exact ⟨_, List.mem_cons_self, _, _, hends, .inl ⟨rfl, by decide +kernel⟩⟩
  · exact ⟨_, List.mem_cons_self, _, _, hends, .inr ⟨rfl, by decide +kernel⟩⟩

theorem routesResolve_pairLab : RoutesResolve pairLab := by
  have hvalid : pairLab.valid Plan.Env.sample.nl Plan.Env.sample.vals := by decide +kernel
  have hkeys : pairLab.nodes.keys = ["a", "b"] := by decide +kernel
  have hstub : ∀ v6, ∀ name ∈ ["a", "b"], Stub pairLab v6 name := by
    unfold Stub
    decide +kernel
  have hcases : ∀ {name node}, pairLab.nodes[name]? = some node → name ∈ ["a", "b"] := fun {name node} hnode =>
    hkeys ▸ Std.ExtTreeMap.mem_keys.mpr (Std.ExtTreeMap.mem_iff_isSome_getElem?.mpr (by rw [hnode]; rfl))
  refine (routesResolve_iff hvalid).mpr fun v6 => ⟨?_, ?_⟩
  · intro name node hnode _ _ hop hgw
    have hremote : ∀ v6 : Bool, ∀ name ∈ ["a", "b"], ∀ addr ∈ plannedAddresses pairLab name,
        networkCidr addr ≠ some (if v6 then "::/0" else "0.0.0.0/0") := by decide +kernel
    have hover : ∀ name ∈ ["a", "b"], ∀ hop, gateway pairLab v6 name = some hop →
        hop.1 ≠ name ∧ OverLink pairLab v6 name hop := by
      have h6 : ∀ name ∈ ["a", "b"], gateway pairLab true name = none := by decide +kernel
      have ha : gateway pairLab false "a" = some ("b", "10.0.0.2") := by decide +kernel
      have hb : gateway pairLab false "b" = some ("a", "10.0.0.1") := by decide +kernel
      intro name hname hop hgw
      cases v6 with
      | true =>
        rw [h6 name hname] at hgw
        cases hgw
      | false =>
        simp only [List.mem_cons, List.not_mem_nil, or_false] at hname
        rcases hname with rfl | rfl
        · cases ha.symm.trans hgw
          exact ⟨by decide, overLink_pairLab.1⟩
        · cases hb.symm.trans hgw
          exact ⟨by decide, overLink_pairLab.2⟩
    obtain ⟨hne, hover⟩ := hover name (hcases hnode) hop hgw
    exact ⟨⟨fun hself => absurd hself hne, fun hnot => absurd hover hnot⟩, hremote v6 name (hcases hnode)⟩
  · exact fun name node hnode _ hs => absurd (hstub v6 name (hcases hnode)) hs

/-- A host with two ports on the network it shares with another. -/
def twoPorts : Topology :=
  { lab := { name := "lab", routing := .auto }
    nodes := .ofList [("a", {}), ("b", {})] compare
    networks := .ofList [("lan",
      { members := ["a:eth0", "a:eth1", "b:eth0"]
        ports := .ofList [("a:eth0", { addresses := ["10.0.0.1/24"] }), ("a:eth1", { addresses := ["10.0.0.2/24"] }),
          ("b:eth0", { addresses := ["10.0.0.3/24"] })] compare })] compare }

/-- The host's default route is via its own other address. -/
theorem default_via_self : twoPorts.valid Plan.Env.sample.nl Plan.Env.sample.vals ∧ ¬ RoutesResolve twoPorts := by
  refine ⟨by decide +kernel, fun h => ?_⟩
  have hroute : ((autoGenerateRoutes twoPorts)["a"]?).bind (·["default"]?) = some (routeVia "10.0.0.2") := by
    decide +kernel
  have hkeys : twoPorts.nodes.keys = ["a", "b"] := by decide +kernel
  have hapart : ∀ addr ∈ plannedAddresses twoPorts "b", hostPart addr ≠ IpAddr.parse "10.0.0.2" := by
    decide +kernel
  obtain ⟨gw, hgw, ⟨other, hother, addr, haddr, ip, hip, hhost⟩, -⟩ := (h "a" "default" _ hroute).gateway
  cases hgw
  have hname := mem_keys_of_planned haddr
  rw [hkeys] at hname
  have hb : other = "b" := by simpa [hother] using hname
  subst hb
  exact hapart addr haddr (hhost.trans hip.symm)

end NlinkLab.Routes
