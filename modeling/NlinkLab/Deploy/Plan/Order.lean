import NlinkLab.Data.TopoSort
import NlinkLab.Deploy.Plan.Process
import NlinkLab.Validator.Sound

/-! The order of nodes in a plan: every node once, and in a topology the validator
accepts each after the nodes it depends on. The validator's own walk over the
dependencies is what shows that there is such an order. -/

namespace NlinkLab

open TopoSort

/-- The nodes a node depends on. -/
def depsOf (nodes : BTreeMap String Node) (name : String) : List String :=
  nodes[name]?.elim [] (·.dependsOn)

/-- The dependents of a node, by their dependencies: each as often as it names the node. -/
theorem count_dependents (nodes : BTreeMap String Node) (f : String × Node → List String)
    (n k : String) :
    (BTreeMap.itemsAt (nodes.toList.flatMap fun e => (f e).map fun d => (d, e.1)) n).count k =
      (nodes[k]?.elim [] fun node => f (k, node)).count n := by
  have hpair : ∀ l : List (String × String), (BTreeMap.itemsAt l n).count k =
      (l.filter fun p => p.1 = n ∧ p.2 = k).length := by
    intro l
    simp only [BTreeMap.itemsAt, List.count_eq_length_filter, List.filter_map, List.length_map,
      List.filter_filter]
    congr 1
    refine List.filter_congr fun p _ => ?_
    by_cases h1 : p.1 = n <;> by_cases h2 : p.2 = k <;> simp [h1, h2]
  rw [hpair, List.filter_flatMap, BTreeMap.flatMap_toList_eq (k := k) fun l v hl => by
    simp [List.filter_map, hl]]
  cases nodes[k]? with
  | none => rfl
  | some node =>
    simp only [Option.elim_some, List.filter_map, List.length_map, List.count_eq_length_filter]
    congr 1
    refine List.filter_congr fun d _ => ?_
    by_cases hd : d = n <;> simp [hd]

/-- The nodes whose in-degree is zero. -/
theorem mem_ready {m : BTreeMap String Nat} {n : String} :
    n ∈ (m.toList.filterMap fun (n, d) => if d = 0 then some n else none) ↔ m[n]? = some 0 := by
  simp only [List.mem_filterMap, Prod.exists, Std.ExtTreeMap.mem_toList_iff_getElem?_eq_some]
  constructor
  · rintro ⟨k, d, h, heq⟩
    split_ifs at heq with hd
    cases heq
    rwa [← hd]
  · exact fun h => ⟨n, 0, h, if_pos rfl⟩

theorem nodup_ready (m : BTreeMap String Nat) :
    (m.toList.filterMap fun (n, d) => if d = 0 then some n else none).Nodup := by
  have hd := Std.ExtTreeMap.distinct_keys_toList (t := m)
  refine List.Pairwise.filterMap _ ?_ hd
  rintro ⟨k, d⟩ ⟨k', d'⟩ hne b hb b' hb'
  dsimp only at hb hb'
  split_ifs at hb hb'
  cases hb
  cases hb'
  exact fun h => hne (by rw [h]; exact Std.ReflCmp.compare_self)

/-- The walk before the first visit. -/
theorem walk_start (nodes : BTreeMap String Node) (f : Node → List String) :
    Walk (fun n => nodes[n]?.elim [] f) (fun n => nodes[n]?.isSome)
      (nodes.map fun _ node => (f node).length)
      ((nodes.map fun _ node => (f node).length).toList.filterMap fun (n, d) =>
        if d = 0 then some n else none) [] := by
  refine Walk.start _ (fun n => ?_) (fun n d h => ?_) (nodup_ready _) fun n => mem_ready
  · rw [Std.ExtTreeMap.getElem?_map, Option.isSome_map]
  · rw [Std.ExtTreeMap.getElem?_map] at h
    obtain ⟨node, hnode, rfl⟩ := Option.map_eq_some_iff.mp h
    rw [hnode]
    rfl

theorem count_adj (nodes : BTreeMap String Node) (f : Node → List String) (n k : String) :
    ((BTreeMap.group (nodes.toList.flatMap fun e => (f e.2).map fun d => (d, e.1)))[n]?.getD []).count k =
      (nodes[k]?.elim [] f).count n := by
  rw [BTreeMap.getD_group, count_dependents nodes (fun e => f e.2)]

/-! ### The order of a plan -/

/-- A walk settles no more nodes than there are. -/
theorem length_le_size {nodes : BTreeMap String Node} {deps : String → List String}
    {inDegree : BTreeMap String Nat} {pending visited : List String}
    (h : Walk deps (fun n => nodes[n]?.isSome) inDegree pending visited) :
    visited.length + pending.length ≤ nodes.size := by
  have hsub : visited ++ pending ⊆ nodes.keys := fun n hn => by
    have hnode := (h.node n).mp (by rw [(h.settled n).mp hn]; rfl)
    exact Std.ExtTreeMap.mem_keys.mpr (Std.ExtTreeMap.mem_iff_isSome_getElem?.mpr hnode)
  have hle := (h.nodup.subperm hsub).length_le
  rwa [List.length_append, Std.ExtTreeMap.length_keys] at hle

/-- The walk visits until nothing is pending. -/
theorem Kahn.walk_loop {nodes : BTreeMap String Node} (fuel : Nat) (s : Kahn)
    (h : Walk (depsOf nodes) (fun n => nodes[n]?.isSome) s.inDegree s.stack s.result)
    (hfuel : nodes.size ≤ s.result.length + fuel) :
    ∃ inDegree, Walk (depsOf nodes) (fun n => nodes[n]?.isSome) inDegree []
      (Kahn.loop (BTreeMap.group (nodes.toList.flatMap fun (name, node) =>
        node.dependsOn.map fun dep => (dep, name))) fuel s).result := by
  induction fuel generalizing s with
  | zero =>
    have hle := length_le_size h
    have hnil : s.stack = [] := List.length_eq_zero_iff.mp (by omega)
    exact ⟨s.inDegree, hnil ▸ h⟩
  | succ fuel ih =>
    unfold Kahn.loop
    split
    · rename_i hnil
      exact ⟨s.inDegree, hnil ▸ h⟩
    · rename_i n stack hstack
      rw [hstack] at h
      have hvisit := h.visit ((BTreeMap.group (nodes.toList.flatMap fun (name, node) =>
        node.dependsOn.map fun dep => (dep, name)))[n]?.getD []) fun k _ =>
          count_adj nodes (·.dependsOn) n k
      -- what becomes ready goes before the stack, in name order
      rw [← List.append_nil stack, foldl_release_append] at hvisit
      refine ih _ (hvisit.perm (List.perm_append_comm.trans
        ((List.perm_insertionSort _ _).symm.append_right _))) ?_
      rw [List.length_append, List.length_singleton]
      omega

/-- The sorted part of the order. -/
theorem exists_walk (nodes : BTreeMap String Node) :
    ∃ inDegree sorted, Walk (depsOf nodes) (fun n => nodes[n]?.isSome) inDegree [] sorted ∧
      topoSortNodes nodes = sorted ++ nodes.keys.filter (· ∉ sorted) := by
  obtain ⟨inDegree, h⟩ := Kahn.walk_loop nodes.size
    { inDegree := nodes.map fun _ node => node.dependsOn.length
      stack := (nodes.map fun _ node => node.dependsOn.length).toList.filterMap fun (n, d) =>
        if d = 0 then some n else none } (walk_start nodes (·.dependsOn)) (Nat.le_add_left _ _)
  exact ⟨inDegree, _, h, rfl⟩

theorem nodup_topoSortNodes (nodes : BTreeMap String Node) : (topoSortNodes nodes).Nodup := by
  obtain ⟨inDegree, sorted, h, heq⟩ := exists_walk nodes
  rw [heq]
  have hsorted : sorted.Nodup := by simpa using h.nodup
  refine List.nodup_append.mpr ⟨hsorted, List.Nodup.filter _ Std.ExtTreeMap.nodup_keys, ?_⟩
  rintro a ha b hb rfl
  exact absurd ha (by simpa using (List.mem_filter.mp hb).2)

theorem mem_topoSortNodes {nodes : BTreeMap String Node} {n : String} :
    n ∈ topoSortNodes nodes ↔ nodes[n]?.isSome := by
  obtain ⟨inDegree, sorted, h, heq⟩ := exists_walk nodes
  rw [heq, List.mem_append, List.mem_filter, Std.ExtTreeMap.mem_keys,
    Std.ExtTreeMap.mem_iff_isSome_getElem?]
  constructor
  · rintro (hn | hn)
    · exact (h.node n).mp (by rw [(h.settled n).mp (List.mem_append_left _ hn)]; rfl)
    · exact hn.1
  · intro hn
    by_cases hs : n ∈ sorted
    · exact .inl hs
    · exact .inr ⟨hn, by simpa using hs⟩

/-! ### The order the validator finds -/

namespace Validator

/-- The dependencies of a node that are nodes. -/
def knownDeps (t : Topology) (name : String) : List String :=
  t.nodes[name]?.elim [] fun node => node.dependsOn.filter t.nodes.contains

theorem walk_dependsOnCycle {t : Topology} (fuel : Nat) (inDegree : BTreeMap String Nat)
    (queue visited : List String)
    (h : Walk (knownDeps t) (fun n => t.nodes[n]?.isSome) inDegree queue visited) :
    ∃ queue' visited', Walk (knownDeps t) (fun n => t.nodes[n]?.isSome)
      (dependsOnCycle.walk (t.nodes.toList.flatMap fun (name, node) =>
        (node.dependsOn.filter t.nodes.contains).map fun dep => (dep, name)) release fuel inDegree queue)
      queue' visited' := by
  induction fuel generalizing inDegree queue visited with
  | zero => exact ⟨queue, visited, h⟩
  | succ fuel ih =>
    unfold dependsOnCycle.walk
    split
    · exact ⟨queue, visited, h⟩
    · rename_i n hn
      have hqueue : queue.Perm (n :: queue.dropLast) := by
        obtain ⟨init, rfl⟩ := List.getLast?_eq_some_iff.mp hn
        rw [List.dropLast_concat]
        exact List.perm_append_singleton n init
      exact ih _ _ _ ((h.perm hqueue).visit _ fun k _ =>
        count_adj t.nodes (fun node => node.dependsOn.filter t.nodes.contains) n k)

theorem mem_validate_of_container {nl : Nlink} {vals : Values} {t : Topology} {issue : ValidationIssue}
    (h : issue ∈ validateContainerFields t) : issue ∈ t.validate nl vals := by
  unfold Topology.validate
  generalize validateContainerFields t = l at h
  simp only [List.mem_append, h, true_or, or_true]

/-- An order of all nodes, each after those it depends on. -/
theorem exists_order {nl : Nlink} {vals : Values} {t : Topology} (h : t.valid nl vals) :
    ∃ order : List String, (∀ n, t.nodes[n]?.isSome → n ∈ order) ∧
      ∀ pre n post, order = pre ++ n :: post → ∀ d ∈ knownDeps t n, d ∈ pre := by
  have hcycle : dependsOnCycle t = [] := by
    by_contra hne
    have hissue : validateDependsOnCycle t = [{ severity := .error, rule := "depends-on-cycle"
                                                location := none
                                                message := _ }] := if_neg hne
    have hmem : _ ∈ validateContainerFields t :=
      List.mem_append_right _ (hissue ▸ List.mem_singleton_self _)
    exact absurd rfl (Topology.severity_of_valid h (mem_validate_of_container hmem))
  obtain ⟨queue, visited, hwalk⟩ := walk_dependsOnCycle t.nodes.size _ _ _
    (walk_start t.nodes fun node => node.dependsOn.filter t.nodes.contains)
  refine ⟨visited ++ queue, hwalk.exists_order fun n d hd => ?_⟩
  by_contra hpos
  have hmem : n ∈ dependsOnCycle t := List.mem_filterMap.mpr
    ⟨(n, d), Std.ExtTreeMap.mem_toList_iff_getElem?_eq_some.mpr hd, if_pos (Nat.pos_of_ne_zero hpos)⟩
  rw [hcycle] at hmem
  exact absurd hmem List.not_mem_nil

/-- Every dependency is a node. -/
theorem isSome_of_mem_dependsOn {nl : Nlink} {vals : Values} {t : Topology} (h : t.valid nl vals)
    {name dep : String} {node : Node} (hnode : t.nodes[name]? = some node) (hdep : dep ∈ node.dependsOn) :
    t.nodes[dep]?.isSome := by
  by_contra hnone
  have hcontains : t.nodes.contains dep = false := by
    rwa [Std.ExtTreeMap.contains_eq_isSome_getElem?, ← Bool.not_eq_true]
  have hissue : error "depends-on-exists" ("depends-on references undefined node '" ++ dep ++ "'")
      ("nodes." ++ name ++ ".depends-on") ∈
        t.nodes.toList.flatMap fun (name, node) => node.dependsOn.filterMap fun dep =>
          if t.nodes.contains dep then none
          else some (error "depends-on-exists" ("depends-on references undefined node '" ++ dep ++ "'")
            ("nodes." ++ name ++ ".depends-on")) :=
    List.mem_flatMap.mpr ⟨_, Std.ExtTreeMap.mem_toList_iff_getElem?_eq_some.mpr hnode,
      List.mem_filterMap.mpr ⟨dep, hdep, by simp [hcontains]⟩⟩
  have hmem : _ ∈ validateContainerFields t :=
    List.mem_append_left _ (List.mem_append_right _ hissue)
  exact absurd rfl (Topology.severity_of_valid h (mem_validate_of_container hmem))

end Validator

/-- In a topology the validator accepts, nodes come after those they depend on. -/
theorem pair_sublist_topoSortNodes {nl : Nlink} {vals : Values} {t : Topology} (h : t.valid nl vals)
    {name dep : String} {node : Node} (hnode : t.nodes[name]? = some node) (hdep : dep ∈ node.dependsOn) :
    [dep, name].Sublist (topoSortNodes t.nodes) := by
  have hdeps : ∀ n, depsOf t.nodes n = Validator.knownDeps t n := fun n => by
    unfold depsOf Validator.knownDeps
    cases hn : t.nodes[n]? with
    | none => rfl
    | some node =>
      refine (List.filter_eq_self.mpr fun d hd => ?_).symm
      rw [Std.ExtTreeMap.contains_eq_isSome_getElem?]
      exact Validator.isSome_of_mem_dependsOn h hn hd
  obtain ⟨order, hall, horder⟩ := Validator.exists_order h
  obtain ⟨inDegree, sorted, hwalk, heq⟩ := exists_walk t.nodes
  have hsorted : name ∈ sorted := by
    refine hwalk.complete (fun n _ d hd => ?_) hall (fun pre n post ho d hd => ?_)
      name (by rw [hnode]; rfl)
    · unfold depsOf at hd
      cases hn : t.nodes[n]? with
      | none =>
        rw [hn] at hd
        exact absurd hd List.not_mem_nil
      | some node =>
        rw [hn] at hd
        exact Validator.isSome_of_mem_dependsOn h hn hd
    · exact horder pre n post ho d (hdeps n ▸ hd)
  obtain ⟨pre, post, rfl⟩ := List.append_of_mem hsorted
  have hpre : dep ∈ pre := by
    refine hwalk.order pre name post rfl dep ?_
    unfold depsOf
    rw [hnode]
    exact hdep
  rw [heq]
  refine List.Sublist.trans ?_ (List.sublist_append_left _ _)
  exact (List.singleton_sublist.mpr hpre).append (List.singleton_sublist.mpr List.mem_cons_self)

end NlinkLab
