import NlinkLab.Validator

/-! What the validator's silence says: of a topology without errors, that no two
interfaces of a node have one name. -/

namespace NlinkLab

open Validator

theorem Topology.severity_of_valid {nl : Nlink} {vals : Values} {t : Topology} (h : t.valid nl vals)
    {issue : ValidationIssue} (hi : issue ∈ t.validate nl vals) : issue.severity ≠ .error :=
  of_decide_eq_true (List.all_eq_true.mp h issue hi)

namespace Validator

variable {nl : Nlink} {vals : Values} {t : Topology}

/-! ### Names -/

theorem isValidName_of_checkName (kind location : String) {name : String}
    (h : ∀ issue ∈ checkName kind name location, issue.severity ≠ .error) : isValidName name := by
  unfold checkName checkUnresolved at h
  by_contra hname
  split_ifs at h
  · exact h _ rfl rfl
  · exact h _ rfl rfl

theorem mem_validate_of_names {issue : ValidationIssue} (h : issue ∈ validateNames t) :
    issue ∈ t.validate nl vals := by
  unfold Topology.validate
  generalize validateNames t = l at h
  simp only [List.mem_append, h, true_or]

theorem isValidName_node (h : t.valid nl vals) {name : String} {node : Node}
    (hnode : t.nodes[name]? = some node) : isValidName name := by
  refine isValidName_of_checkName "node" ("nodes." ++ name) fun issue hi => ?_
  refine Topology.severity_of_valid h (mem_validate_of_names ?_)
  have hmem : issue ∈ t.nodes.toList.flatMap fun e =>
      (checkName "node" e.1 ("nodes." ++ e.1)).toList ++ e.2.vrfs.keys.filterMap fun vrf =>
        checkName "VRF" vrf ("nodes." ++ e.1 ++ ".vrfs." ++ vrf) :=
    List.mem_flatMap.mpr ⟨_, Std.ExtTreeMap.mem_toList_iff_getElem?_eq_some.mpr hnode,
      List.mem_append_left _ (Option.mem_toList.mpr hi)⟩
  unfold validateNames
  simp only [List.mem_append, hmem, true_or, or_true]

theorem isValidName_network (h : t.valid nl vals) {name : String} (hmem : name ∈ t.networks) :
    isValidName name := by
  refine isValidName_of_checkName "network" ("networks." ++ name) fun issue hi => ?_
  refine Topology.severity_of_valid h (mem_validate_of_names ?_)
  have hmem : issue ∈ t.networks.keys.filterMap fun name =>
      checkName "network" name ("networks." ++ name) :=
    List.mem_filterMap.mpr ⟨name, Std.ExtTreeMap.mem_keys.mpr hmem, hi⟩
  unfold validateNames
  simp only [List.mem_append, hmem, true_or, or_true]

/-- A valid name has no colon. -/
theorem colon_notMem_of_isValidName {name : String} (h : isValidName name) : ':' ∉ name.toList := by
  unfold isValidName at h
  split at h
  · cases h
  · rename_i c cs heq
    rw [heq]
    obtain ⟨hc, hcs⟩ := of_decide_eq_true h
    intro hmem
    rcases List.mem_cons.mp hmem with rfl | hmem
    · exact absurd hc (by decide)
    · have hcolon := List.all_eq_true.mp hcs _ hmem
      exact absurd (of_decide_eq_true hcolon) (by decide)

/-- A valid name is some text. -/
theorem ne_empty_of_isValidName {name : String} (h : isValidName name) : name ≠ "" := by
  rintro rfl
  exact absurd h (by decide)

/-! ### Interfaces -/

theorem mem_validate_of_uniqueness {issue : ValidationIssue}
    (h : issue ∈ validateInterfaceUniqueness t) : issue ∈ t.validate nl vals := by
  unfold Topology.validate
  generalize validateInterfaceUniqueness t = l at h
  simp only [List.mem_append, h, true_or, or_true]

/-- Where an interface of a name on a node comes from, each time it is declared. -/
def sourcesOf (t : Topology) (node iface : String) : List InterfaceSource :=
  BTreeMap.itemsAt (BTreeMap.itemsAt (allSources t) node) iface

/-- No interface is declared twice. -/
theorem length_sourcesOf_le_one (h : t.valid nl vals) (node iface : String) :
    (sourcesOf t node iface).length ≤ 1 := by
  rcases hs : sourcesOf t node iface with - | ⟨a, - | ⟨b, rest⟩⟩
  · exact Nat.zero_le 1
  · exact le_rfl
  · have hmem : error "interface-uniqueness" ("duplicate interface '" ++ iface ++ "' on node '" ++ node ++
        "' (from " ++ a.display ++ " and " ++ b.display ++ ")") ("nodes." ++ node) ∈
          validateInterfaceUniqueness t := by
      have hifaces : (BTreeMap.group (allSources t))[node]? =
          some (BTreeMap.itemsAt (allSources t) node) := by
        rw [BTreeMap.getElem?_group, if_neg]
        intro hnil
        rw [sourcesOf, hnil] at hs
        cases hs
      have hsources : (BTreeMap.group (BTreeMap.itemsAt (allSources t) node))[iface]? =
          some (a :: b :: rest) := by
        rw [BTreeMap.getElem?_group, if_neg]
        · exact congrArg some hs
        · intro hnil
          rw [sourcesOf, hnil] at hs
          cases hs
      exact List.mem_flatMap.mpr ⟨_, Std.ExtTreeMap.mem_toList_iff_getElem?_eq_some.mpr hifaces,
        List.mem_filterMap.mpr ⟨_, Std.ExtTreeMap.mem_toList_iff_getElem?_eq_some.mpr hsources, rfl⟩⟩
    exact absurd rfl (Topology.severity_of_valid h (mem_validate_of_uniqueness hmem))

end Validator

/-- What the names in a plan rest on. -/
structure Topology.WellNamed (t : Topology) : Prop where
  /-- No interface is declared twice. -/
  sources : ((allSources t).map fun s => (s.1, s.2.1)).Nodup
  node : ∀ {name : String} {node : Node}, t.nodes[name]? = some node → isValidName name
  network : ∀ {name : String}, name ∈ t.networks → isValidName name

namespace Topology

theorem wellNamed {nl : Nlink} {vals : Values} {t : Topology} (h : t.valid nl vals) : t.WellNamed where
  sources := by
    refine List.nodup_iff_count_le_one.mpr fun p => ?_
    rw [BTreeMap.count_pair]
    exact length_sourcesOf_le_one h p.1 p.2
  node := isValidName_node h
  network := isValidName_network h

theorem WellNamed.source_unique {t : Topology} (h : t.WellNamed) {node iface : String}
    {s s' : InterfaceSource} (hs : (node, iface, s) ∈ allSources t)
    (hs' : (node, iface, s') ∈ allSources t) : s = s' := by
  have heq := List.inj_on_of_nodup_map h.sources hs hs' rfl
  exact (Prod.mk.inj (Prod.mk.inj heq).2).2

/-- The names of a topology do not depend on its impairments. -/
theorem WellNamed.withImpairments {t : Topology} (h : t.WellNamed) (imps : BTreeMap String Impairment) :
    { t with impairments := imps }.WellNamed :=
  ⟨h.sources, h.node, h.network⟩

end Topology

end NlinkLab
