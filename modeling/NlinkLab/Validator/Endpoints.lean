import NlinkLab.Deploy.Overlay
import NlinkLab.Validator.Sound

/-! Which endpoints exist in a topology. Those a valid topology names all do; the
converse does not hold, for interfaces that only their node declares. -/

namespace NlinkLab

/-- Whether an endpoint is an interface that the topology gives a node. -/
def Topology.hasEndpoint (t : Topology) (ep : String) : Bool :=
  (EndpointRef.parse ep).any fun e => (Validator.allSources t).any fun s => s.1 = e.node ∧ s.2.1 = e.iface

theorem Topology.hasEndpoint_iff {t : Topology} {ep : String} : t.hasEndpoint ep ↔
    ∃ e s, EndpointRef.parse ep = some e ∧ (e.node, e.iface, s) ∈ Validator.allSources t := by
  unfold hasEndpoint
  simp only [Option.any_eq_true, List.any_eq_true, decide_eq_true_eq]
  constructor
  · rintro ⟨e, he, ⟨node, iface, s⟩, hs, rfl, rfl⟩
    exact ⟨e, s, he, hs⟩
  · rintro ⟨e, s, he, hs⟩
    exact ⟨e, he, _, hs, rfl, rfl⟩

namespace Validator

variable {nl : Nlink} {vals : Values} {t : Topology}

/-- The interfaces collected are those of the list, beside those there were. -/
theorem mem_foldl_collect {l : List Sourced} {m : BTreeMap String (BTreeMap String InterfaceSource)}
    {node iface : String} {ifaces : BTreeMap String InterfaceSource}
    (h : (l.foldl (fun m (node, iface, source) =>
      m.insert node ((m[node]?.getD ∅).insertIfNew iface source)) m)[node]? = some ifaces)
    (hmem : iface ∈ ifaces) :
    iface ∈ m[node]?.getD ∅ ∨ ∃ s, (node, iface, s) ∈ l := by
  induction l generalizing m with
  | nil =>
    refine .inl ?_
    rw [List.foldl_nil] at h
    rwa [h]
  | cons a l ih =>
    obtain ⟨node', iface', source⟩ := a
    rcases ih h with hm | ⟨s, hs⟩
    · rw [Std.ExtTreeMap.getElem?_insert] at hm
      split_ifs at hm with hnode
      · obtain rfl := Std.LawfulEqOrd.eq_of_compare hnode
        rw [Option.getD_some, Std.ExtTreeMap.mem_insertIfNew] at hm
        rcases hm with hiface | hm
        · obtain rfl := Std.LawfulEqOrd.eq_of_compare hiface
          exact .inr ⟨source, List.mem_cons_self⟩
        · exact .inl hm
      · exact .inl hm
    · exact .inr ⟨s, List.mem_cons_of_mem _ hs⟩

theorem isSome_foldl_collect {l : List Sourced} {m : BTreeMap String (BTreeMap String InterfaceSource)}
    {node : String} (h : (m[node]?).isSome) :
    ((l.foldl (fun m (node, iface, source) =>
      m.insert node ((m[node]?.getD ∅).insertIfNew iface source)) m)[node]?).isSome := by
  induction l generalizing m with
  | nil => exact h
  | cons a l ih =>
    refine ih ?_
    rw [Std.ExtTreeMap.getElem?_insert]
    split_ifs
    · rfl
    · exact h

/-- An interface that is collected is one a node gets. -/
theorem exists_source_of_collected {node iface : String} {ifaces : BTreeMap String InterfaceSource}
    (h : (collectInterfaces t)[node]? = some ifaces) (hmem : iface ∈ ifaces) :
    ∃ s, (node, iface, s) ∈ allSources t := by
  rcases mem_foldl_collect h hmem with hm | ⟨s, hs⟩
  · rw [Std.ExtTreeMap.getElem?_map] at hm
    cases hnode : t.nodes[node]? <;> rw [hnode] at hm <;> simp at hm
  · refine ⟨s, ?_⟩
    rcases List.mem_append.mp hs with hs | hs
    · rcases List.mem_append.mp hs with hs | hs
      · refine List.mem_append_left _ (List.mem_append_left _ ?_)
        obtain ⟨e, he, hs⟩ := List.mem_flatMap.mp hs
        obtain ⟨i, hi, heq⟩ := List.mem_map.mp hs
        exact List.mem_flatMap.mpr ⟨e, he, List.mem_map.mpr ⟨i, List.mem_append_left _ hi, heq⟩⟩
      · exact List.mem_append_left _ (List.mem_append_right _ hs)
    · exact List.mem_append_right _ hs

theorem isSome_collectInterfaces {node : String} (h : t.nodes.contains node) :
    ((collectInterfaces t)[node]?).isSome := by
  refine isSome_foldl_collect ?_
  rwa [Std.ExtTreeMap.getElem?_map, Option.isSome_map, ← Std.ExtTreeMap.contains_eq_isSome_getElem?]

theorem mem_validate_of_format {issue : ValidationIssue} (h : issue ∈ validateEndpointFormat t) :
    issue ∈ t.validate nl vals := by
  unfold Topology.validate
  generalize validateEndpointFormat t = l at h
  simp only [List.mem_append, h, true_or, or_true]

theorem mem_validate_of_nodeRefs {issue : ValidationIssue} (h : issue ∈ validateDanglingNodeRefs t) :
    issue ∈ t.validate nl vals := by
  unfold Topology.validate
  generalize validateDanglingNodeRefs t = l at h
  simp only [List.mem_append, h, true_or, or_true]

theorem mem_validate_of_impairmentRefs {issue : ValidationIssue} (h : issue ∈ validateImpairmentRefs t) :
    issue ∈ t.validate nl vals := by
  unfold Topology.validate
  generalize validateImpairmentRefs t = l at h
  simp only [List.mem_append, h, true_or, or_true]

/-- Every endpoint a valid topology names has the form of one. -/
theorem isSome_parse_of_endpoint (h : t.valid nl vals) {ep location : String}
    (hep : (ep, location) ∈ linkEndpoints t ++ tcEndpoints t ++ memberEndpoints t) :
    (EndpointRef.parse ep).isSome := by
  by_contra hnone
  have hcheck : checkEndpoint ep location =
      some (error "endpoint-format" ("invalid endpoint '" ++ ep ++ "': expected 'node:interface' format")
        location) := if_pos (by simpa using hnone)
  exact absurd rfl (Topology.severity_of_valid h (mem_validate_of_format
    (List.mem_filterMap.mpr ⟨_, hep, hcheck⟩)))

theorem exists_mem_zipIdx {A : Type} {l : List A} {a : A} (h : a ∈ l) : ∃ i, (a, i) ∈ l.zipIdx := by
  obtain ⟨i, hi⟩ := List.getElem?_of_mem h
  exact ⟨i, List.mk_mem_zipIdx_iff_getElem?.mpr hi⟩

theorem exists_source_of_link (h : t.valid nl vals) {link : Link} (hlink : link ∈ t.links) {ep : String}
    (hep : ep ∈ [link.endpoints.1, link.endpoints.2]) :
    ∃ e s, EndpointRef.parse ep = some e ∧ (e.node, e.iface, s) ∈ allSources t := by
  obtain ⟨i, hi⟩ := exists_mem_zipIdx hlink
  have hmem : ∃ location, (ep, location) ∈ linkEndpoints t := by
    rcases List.mem_cons.mp hep with rfl | hep
    · exact ⟨_, List.mem_flatMap.mpr ⟨_, hi, List.mem_cons_self⟩⟩
    · obtain rfl := List.mem_singleton.mp hep
      exact ⟨_, List.mem_flatMap.mpr ⟨_, hi, List.mem_cons_of_mem _ List.mem_cons_self⟩⟩
  obtain ⟨location, hmem⟩ := hmem
  obtain ⟨e, he⟩ := Option.isSome_iff_exists.mp (isSome_parse_of_endpoint h
    (List.mem_append_left _ (List.mem_append_left _ hmem)))
  refine ⟨e, .link i, he, List.mem_append_left _ (List.mem_append_right _ ?_)⟩
  exact List.mem_flatMap.mpr ⟨_, hi, List.mem_filterMap.mpr ⟨ep, hep, by rw [he]; rfl⟩⟩

theorem exists_source_of_member (h : t.valid nl vals) {name : String} {network : Network}
    (hnet : (name, network) ∈ t.networks.toList) {ep : String} (hep : ep ∈ network.members) :
    ∃ e s, EndpointRef.parse ep = some e ∧ (e.node, e.iface, s) ∈ allSources t := by
  obtain ⟨k, hk⟩ := exists_mem_zipIdx hep
  obtain ⟨e, he⟩ := Option.isSome_iff_exists.mp (isSome_parse_of_endpoint h
    (List.mem_append_right _ (List.mem_flatMap.mpr ⟨_, hnet, List.mem_map.mpr ⟨_, hk, rfl⟩⟩)))
  refine ⟨e, .network name, he, List.mem_append_right _ ?_⟩
  exact List.mem_flatMap.mpr ⟨_, hnet, List.mem_filterMap.mpr ⟨ep, hep, by rw [he]; rfl⟩⟩

theorem exists_source_of_impairment (h : t.valid nl vals) {ep : String} (hep : ep ∈ t.impairments.keys) :
    ∃ e s, EndpointRef.parse ep = some e ∧ (e.node, e.iface, s) ∈ allSources t := by
  have hmem : (ep, "impairments.\"" ++ ep ++ "\"") ∈ tcEndpoints t :=
    List.mem_append_left _ (List.mem_map.mpr ⟨ep, hep, rfl⟩)
  obtain ⟨e, he⟩ := Option.isSome_iff_exists.mp (isSome_parse_of_endpoint h
    (List.mem_append_left _ (List.mem_append_right _ hmem)))
  have hnode : t.nodes.contains e.node := by
    by_contra hnone
    have hcheck : checkEndpointNode t ep ("impairments.\"" ++ ep ++ "\"") = some (error "dangling-node-ref"
        ("node '" ++ e.node ++ "' does not exist") ("impairments.\"" ++ ep ++ "\"")) := by
      unfold checkEndpointNode checkNode
      rw [he, Option.bind_some, if_neg hnone]
    exact absurd rfl (Topology.severity_of_valid h (mem_validate_of_nodeRefs
      (List.mem_append_left _ (List.mem_filterMap.mpr ⟨_, List.mem_append_right _ hmem, hcheck⟩))))
  obtain ⟨ifaces, hifaces⟩ := Option.isSome_iff_exists.mp (isSome_collectInterfaces hnode)
  have hiface : e.iface ∈ ifaces := by
    by_contra hnone
    have hcheck : checkIface t "impairment-ref-valid" ep ("impairments.\"" ++ ep ++ "\"") =
        some (error "impairment-ref-valid" ("node '" ++ e.node ++ "' has no interface '" ++ e.iface ++ "'")
          ("impairments.\"" ++ ep ++ "\"")) := by
      unfold checkIface
      rw [he, Option.bind_some, hifaces, Option.bind_some, if_neg]
      rwa [Std.ExtTreeMap.contains_iff_mem]
    exact absurd rfl (Topology.severity_of_valid h (mem_validate_of_impairmentRefs
      (List.mem_append_left _ (List.mem_filterMap.mpr ⟨_, hep, hcheck⟩))))
  obtain ⟨s, hs⟩ := exists_source_of_collected hifaces hiface
  exact ⟨e, s, he, hs⟩

/-- Every endpoint a valid topology names is an interface of it. -/
theorem hasEndpoint_of_mem (h : t.valid nl vals) {ep : String} (hep : ep ∈ topologyEndpoints t) :
    t.hasEndpoint ep := by
  unfold topologyEndpoints at hep
  simp only [List.mem_insertionSort, List.mem_dedup, List.mem_append] at hep
  rw [Topology.hasEndpoint_iff]
  rcases hep with (hep | hep) | hep
  · obtain ⟨link, hlink, hep⟩ := List.mem_flatMap.mp hep
    exact exists_source_of_link h hlink hep
  · obtain ⟨⟨name, network⟩, hnet, hep⟩ := List.mem_flatMap.mp hep
    exact exists_source_of_member h hnet hep
  · exact exists_source_of_impairment h hep

end Validator

end NlinkLab
