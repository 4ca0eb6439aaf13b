import NlinkLab.Deploy.Op.Diff
import NlinkLab.Deploy.Plan.Keys

/-! The difference of a plan to itself: nothing but what always runs, unless the node
`mgmt` has a namespace beside the lab's bridges. -/

namespace NlinkLab

open Fallible

namespace Op

theorem sameContainer_self (op : Op) : op.sameContainer op := by
  cases op <;> simp [sameContainer]

theorem differs_self (op : Op) : op.differs op = false := by
  cases op <;> simp [differs, sameContainer_self]

end Op

namespace Plan

/-- A difference of ops that run in every one. -/
def Idle (p : Plan) : Prop := ∀ op ∈ p.ops, op.isRemoval = false ∧ op.alwaysRuns

theorem dropped_self (p : Plan) : dropped p p = [] := by
  have hgone : (p.ops.filter fun o => !p.index.contains o.key) = [] := by
    refine List.filter_eq_nil_iff.mpr fun o ho => ?_
    rw [Std.ExtTreeMap.contains_eq_isSome_getElem?, index_isSome.mpr ⟨o, ho, rfl⟩]
    exact Bool.false_ne_true
  have hwireguard : droppedWireguard p.index p.index = [] := by
    refine List.flatMap_eq_nil_iff.mpr fun ⟨key, op⟩ hmem => ?_
    have hop := Std.ExtTreeMap.mem_toList_iff_getElem?_eq_some.mp hmem
    dsimp only
    rw [hop]
    cases op
    case stack node cfg =>
      have hnone : cfg.wireguardIfnames.filter (· ∉ cfg.wireguardIfnames) = [] :=
        List.filter_eq_nil_iff.mpr fun a ha => by simpa using ha
      exact congrArg (List.map (Op.deleteLink node)) hnone
    all_goals rfl
  unfold dropped
  simp only [hgone, hwireguard]
  rfl

theorem foldl_restartWifi_of_nil (cur : Plan) (l : List Op) (s : Pass) (h : s.radios = []) :
    l.foldl (Pass.restartWifi cur.index) s = s := by
  induction l with
  | nil => rfl
  | cons a l ih =>
    rw [List.foldl_cons, restartWifi_eq, if_neg, ih]
    rintro ⟨⟨i, hi, -⟩, -⟩
    rw [h] at hi
    exact absurd hi List.not_mem_nil

theorem ofEdited_eq_nil {A : Type} {p : Plan} (f : Op → Option A)
    (h : ∀ op ∈ p.ops, edited p op = false) : ofEdited p f p.ops = [] := by
  refine List.eq_nil_iff_forall_not_mem.mpr fun a ha => ?_
  obtain ⟨op, hop, hedited, -⟩ := mem_ofEdited.mp ha
  rw [h op hop] at hedited
  exact absurd hedited Bool.false_ne_true

/-- When no op of a plan counts as changed from its own plan, only what always runs does. -/
theorem idle_diff_self {p : Plan} (hplan : ∀ op ∈ p.ops, op.isRemoval = false)
    (h : ∀ op ∈ p.ops, edited p op = false) : (diff p p).Idle := by
  have hremovals : (passes p p).removals = [] := by
    obtain ⟨hstep, -, hradios⟩ := foldl_step p p.ops { removals := dropped p p }
    obtain ⟨hrerun, hradios', -, -⟩ := foldl_rerun p.ops
      (p.ops.foldl (Pass.step p.index) { removals := dropped p p })
    unfold passes
    rw [foldl_restartWifi_of_nil _ _ _ (by rw [hradios', hradios, ofEdited_eq_nil _ h]; rfl), hrerun,
      hstep, dropped_self, List.nil_append]
    refine List.flatMap_eq_nil_iff.mpr fun op hop => ?_
    rw [undone, if_neg (by rw [h op hop]; exact Bool.false_ne_true)]
  intro op hop
  rcases mem_diff.mp hop with hop | hop
  · rw [hremovals] at hop
    exact absurd hop List.not_mem_nil
  · obtain ⟨hop, hruns⟩ := mem_changes.mp hop
    have hnot : ∀ x ∈ p.ops, ¬ edited p x := fun x hx => by rw [h x hx]; exact Bool.false_ne_true
    refine ⟨hplan op hop, ?_⟩
    cases hruns with
    | new hnew =>
      have hsome := index_isSome.mpr ⟨op, hop, rfl⟩
      rw [hnew] at hsome
      cases hsome
    | always halways => exact halways
    | edited hedited => exact absurd hedited (hnot op hop)
    | checked x _ _ _ hedited hbefore => exact absurd hedited (hnot x (hbefore.subset List.mem_cons_self))
    | rerun x _ hx hedited => exact absurd hedited (hnot x hx)
    | wifi x _ hx hedited => exact absurd hedited (hnot x hx)

/-- What an op that counts as changed is undone by is in the difference. -/
theorem not_idle_of_edited {cur des : Plan} {op e r : Op} (hop : op ∈ des.ops)
    (he : cur.index[op.key]? = some e) (hd : e.differs op) (hr : e.inverse = some r)
    (hremoval : r.isRemoval) : ¬ (diff cur des).Idle := by
  intro hidle
  have hmem : r ∈ undone cur op := by
    rw [undone, if_pos (edited_iff.mpr ⟨e, he, hd⟩), he]
    exact Option.mem_toList.mpr hr
  have hdiff := mem_diff.mpr (.inl (mem_removals_of (.inr ⟨op, hop, hmem⟩)))
  rw [(hidle r hdiff).1] at hremoval
  exact absurd hremoval Bool.false_ne_true

end Plan

/-! ### Things that share a key -/

theorem Subject.Clash.cases {s s' : Subject} (h : s.Clash s') :
    (∃ n n', s = .bridge n ∧ s' = .bridge n') ∨ s = .node "mgmt" ∧ s' = .mgmtNs ∨
      s = .mgmtNs ∧ s' = .node "mgmt" := by
  unfold Clash at h
  split at h
  · exact .inl ⟨_, _, rfl, rfl⟩
  · exact .inr (.inl ⟨congrArg _ h, rfl⟩)
  · exact .inr (.inr ⟨rfl, congrArg _ h⟩)
  · exact h.elim

namespace Op

theorem differs_of_bridge {e o : Op} {n : String} (h : o.subject = .bridge n) : e.differs o = false := by
  cases o <;> first | rfl | cases h

theorem eq_createMgmtNamespace {o : Op} (h : o.subject = .mgmtNs) : ∃ ns, o = createMgmtNamespace ns := by
  cases o <;> first | exact ⟨_, rfl⟩ | cases h

/-- An op about a node with the key of a namespace makes the node's namespace. -/
theorem eq_createNamespace {o : Op} {n : String} (h : o.subject = .node n) (hk : o.kind = "ns") :
    ∃ ns, o = createNamespace n ns := by
  cases o <;> first | (cases h; exact ⟨_, rfl⟩) | (simp [kind] at hk; done) | cases h

end Op

/-! ### The node `mgmt` -/

/-- The node `mgmt` has a namespace, and there are bridges to put in the namespace of
the same name. -/
def Topology.MgmtClash (t : Topology) : Prop :=
  (∃ node, t.nodes["mgmt"]? = some node ∧ node.foreign = none ∧ node.image = none) ∧
    (t.networks ≠ ∅ ∨ t.lab.mgmtSubnet.isSome ∧ t.lab.mgmtHostReachable = false)

namespace Parts

variable {env : Plan.Env} {t : Topology} {inputs : PlanInputs} (q : Parts env t inputs)

theorem isEmpty_networks : q.topo.networks.isEmpty = false ↔
    t.networks ≠ ∅ ∨ t.lab.mgmtSubnet.isSome ∧ t.lab.mgmtHostReachable = false := by
  have htopo := q.topo_eq
  have hempty : t.networks.isEmpty = false ↔ t.networks ≠ ∅ := by
    rw [Ne, ← Std.ExtTreeMap.isEmpty_iff, Bool.not_eq_true]
  unfold withMgmtNetwork at htopo
  split at htopo
  · rename_i subnet hsubnet
    split_ifs at htopo with hreach
    · rw [← Except.ok.inj htopo, hempty, hreach]
      simp
    · simp only [bind_eq_ok, pure_eq_ok] at htopo
      obtain ⟨mgmt, -, heq⟩ := htopo
      rw [← heq, hsubnet]
      simp [hreach]
  · rename_i hsubnet
    rw [← Except.ok.inj htopo, hempty, hsubnet]
    simp

/-- The first part of a plan makes the nodes, the fourth the links. -/
theorem part_cases {op : Op} (hop : op ∈ q.ops) :
    (op ∈ Plan.nodeOps q.topo (dnsExtraHosts t) ∧ op.subject.part = 0) ∨
      (op ∈ q.bridges ++ q.links ++ Plan.hostLinkOps q.topo ∧ op.subject.part = 3) ∨
      op.subject.part ≠ 0 ∧ op.subject.part ≠ 3 := by
  have hlinks : ∀ {op : Op}, op ∈ q.bridges ++ q.links ++ Plan.hostLinkOps q.topo →
      op ∈ q.bridges ++ q.links ++ Plan.hostLinkOps q.topo ∧ op.subject.part = 3 :=
    fun h => ⟨h, q.part_interfaces _ h⟩
  simp only [Parts.ops, List.mem_append, or_assoc] at hop
  rcases hop with hop | hop | hop | hop | hop | hop | hop | hop | hop | hop | hop | hop | hop
  · refine .inl ⟨hop, ?_⟩
    obtain ⟨name, node, -, rfl⟩ := Plan.mem_nodeOps hop
    unfold Plan.nodeOp
    split
    · rfl
    · split <;> rfl
  · obtain ⟨_, _, _, _, -, -, rfl⟩ := Plan.mem_radioOps hop
    exact .inr (.inr ⟨by rintro ⟨⟩, by rintro ⟨⟩⟩)
  · have hpart := Plan.part_of_mem_mgmtOps q.mgmt_eq hop
    exact .inr (.inr (by rw [hpart]; decide))
  · exact .inr (.inl (hlinks (List.mem_append_left _ (List.mem_append_left _ hop))))
  · exact .inr (.inl (hlinks (List.mem_append_left _ (List.mem_append_right _ hop))))
  · exact .inr (.inl (hlinks (List.mem_append_right _ hop)))
  · obtain ⟨_, _, -, rfl⟩ := Plan.mem_linksUpOps hop
    exact .inr (.inr ⟨by rintro ⟨⟩, by rintro ⟨⟩⟩)
  · obtain ⟨_, _, -, rfl⟩ := Plan.mem_sysctlOps hop
    exact .inr (.inr ⟨by rintro ⟨⟩, by rintro ⟨⟩⟩)
  · obtain rfl | ⟨_, _, -, rfl⟩ := Plan.mem_dnsOps hop <;> exact .inr (.inr ⟨by rintro ⟨⟩, by rintro ⟨⟩⟩)
  · obtain ⟨_, _, _, -, rfl⟩ := Plan.mem_stackOps q.declared_eq hop
    exact .inr (.inr ⟨by rintro ⟨⟩, by rintro ⟨⟩⟩)
  · obtain ⟨_, _, _, -, rfl⟩ := Plan.mem_frrOps q.frr_eq hop
    exact .inr (.inr ⟨by rintro ⟨⟩, by rintro ⟨⟩⟩)
  · obtain ⟨_, _, -, hop⟩ := Plan.exists_of_mem_processOps hop
    have hpart := (Plan.subject_of_mem_nodeProcessOps hop).2
    exact .inr (.inr (by rw [hpart]; decide))
  · obtain ⟨_, _, -, _, -, rfl⟩ := Plan.mem_wifiOps.mp hop
    exact .inr (.inr ⟨by rintro ⟨⟩, by rintro ⟨⟩⟩)

/-- A node that is neither foreign nor a container has a namespace. -/
theorem mem_createNamespace {name ns : String} : .createNamespace name ns ∈ q.ops ↔
    ns = t.namespaceName name ∧
      ∃ node, t.nodes[name]? = some node ∧ node.foreign = none ∧ node.image = none := by
  obtain ⟨hnodes, -, hlab⟩ := Plan.withMgmtNetwork_eq q.topo_eq
  have hns : ∀ name, q.topo.namespaceName name = t.namespaceName name := fun name => by
    unfold Topology.namespaceName
    rw [hlab]
  constructor
  · intro hop
    rcases q.part_cases hop with ⟨hop, -⟩ | ⟨-, hpart⟩ | ⟨hpart, -⟩
    · obtain ⟨name', node, hnode, heq⟩ := Plan.mem_nodeOps hop
      rw [hnodes] at hnode
      unfold Plan.nodeOp at heq
      split at heq
      · cases heq
      · rename_i hforeign
        split at heq
        · cases heq
        · rename_i himage
          cases heq
          exact ⟨hns name, node, hnode, hforeign, himage⟩
    · cases hpart
    · exact absurd rfl hpart
  · rintro ⟨rfl, node, hnode, hforeign, himage⟩
    have hop : .createNamespace name (t.namespaceName name) ∈ Plan.nodeOps q.topo (dnsExtraHosts t) := by
      refine List.mem_filterMap.mpr ⟨name, mem_topoSortNodes.mpr (by rw [hnodes, hnode]; rfl), ?_⟩
      rw [hnodes, hnode]
      unfold Plan.nodeOp
      simp only [hforeign, himage, Option.map_some, hns]
    simp only [ops, List.mem_append, hop, true_or]

/-- The bridge namespace is made when there are networks. -/
theorem mem_createMgmtNamespace {ns : String} : .createMgmtNamespace ns ∈ q.ops ↔
    ns = Plan.mgmtNs q.topo ∧ q.topo.networks.isEmpty = false := by
  have hbridges := q.bridges_eq
  unfold Plan.bridgeOps at hbridges
  constructor
  · intro hop
    rcases q.part_cases hop with ⟨-, hpart⟩ | ⟨hop, -⟩ | ⟨-, hpart⟩
    · cases hpart
    · rcases List.mem_append.mp hop with hop | hop
      · rcases List.mem_append.mp hop with hop | hop
        · refine ⟨?_, ?_⟩
          · rcases Plan.mem_bridgeOps q.bridges_eq hop with heq | ⟨_, _, -, heq | ⟨_, _, -, hop⟩⟩
            · exact Op.createMgmtNamespace.inj heq
            · cases heq
            · obtain ⟨_, -, -, heq⟩ := Plan.memberOp_eq_ok hop
              cases heq
          · split_ifs at hbridges with hempty
            · rw [← Except.ok.inj hbridges] at hop
              exact absurd hop List.not_mem_nil
            · exact Bool.not_eq_true _ ▸ hempty
        · have hmem := (Plan.subjects_linkOps _ q.links_eq).subset (List.mem_map_of_mem hop)
          obtain ⟨p, -, hp⟩ := List.mem_map.mp hmem
          cases hp
      · obtain ⟨_, _, -, ⟨_, -, heq⟩ | ⟨_, -, heq⟩⟩ := Plan.mem_hostLinkOps.mp hop <;> cases heq
    · exact absurd rfl hpart
  · rintro ⟨rfl, hempty⟩
    rw [if_neg (by rw [hempty]; exact Bool.false_ne_true)] at hbridges
    simp only [bind_eq_ok, pure_eq_ok] at hbridges
    obtain ⟨parts, -, heq⟩ := hbridges
    have hop : .createMgmtNamespace (Plan.mgmtNs q.topo) ∈ q.bridges := heq ▸ List.mem_cons_self
    simp only [ops, List.mem_append, hop, true_or, or_true]

end Parts

namespace Plan

/-- An op with the key of a namespace is undone by deleting it. -/
theorem exists_inverse_of_ns {e : Op} (hk : e.kind = "ns") (hr : e.isRemoval = false) :
    ∃ r, e.inverse = some r ∧ r.isRemoval := by
  cases e <;> first | exact ⟨_, rfl, rfl⟩ | (simp [Op.kind] at hk; done) | cases hr

/-- Planned twice, a topology's plan changes nothing, unless the node `mgmt` has a namespace
beside bridges. -/
theorem idle_diff_self_iff {env : Env} {t : Topology} {inputs : PlanInputs} {p : Plan}
    (h : t.WellNamed) (hp : plan env t inputs = .ok p) : (diff p p).Idle ↔ ¬ t.MgmtClash := by
  have hplan := isRemoval_plan hp
  constructor
  · rintro hidle ⟨hnode, hnets⟩
    obtain ⟨q, rfl⟩ := plan_eq_ok.mp hp
    have hnode := mem_sorted.mpr (q.mem_createNamespace.mpr ⟨rfl, hnode⟩)
    have hmgmt := mem_sorted.mpr (q.mem_createMgmtNamespace.mpr ⟨rfl, q.isEmpty_networks.mpr hnets⟩)
    have hkey : (Op.createMgmtNamespace (mgmtNs q.topo)).key =
        (Op.createNamespace "mgmt" (t.namespaceName "mgmt")).key := by
      unfold Op.key mgmtNs Topology.namespaceName
      have hsuffix : "-mgmt" = "-" ++ "mgmt" := by decide
      rw [(withMgmtNetwork_eq q.topo_eq).2.2, hsuffix, ← String.append_assoc]
    obtain ⟨e, he⟩ := Option.isSome_iff_exists.mp (index_isSome.mpr ⟨_, hnode, rfl⟩)
    obtain ⟨hmem, hek⟩ := index_eq_some he
    obtain ⟨r, hr, hremoval⟩ := exists_inverse_of_ns (Op.key_inj.mp hek).1 (hplan e hmem)
    by_cases hne : e = .createNamespace "mgmt" (t.namespaceName "mgmt")
    · exact not_idle_of_edited hmgmt (hkey ▸ he) (by rw [hne]; rfl) hr hremoval hidle
    · exact not_idle_of_edited hnode he (by simpa [Op.differs] using hne) hr hremoval hidle
  · intro hclash
    refine idle_diff_self hplan fun op hop => ?_
    by_contra hedited
    obtain ⟨e, he, hd⟩ := edited_iff.mp (Bool.not_eq_false _ ▸ hedited)
    obtain ⟨hmem, hk⟩ := index_eq_some he
    rcases eq_of_key h hp hmem hop hk with rfl | hs
    · rw [Op.differs_self] at hd
      exact absurd hd Bool.false_ne_true
    · have hkind := (Op.key_inj.mp hk).1
      obtain ⟨q, rfl⟩ := plan_eq_ok.mp hp
      have hboth : ∀ {o o' : Op}, o ∈ (mk q.ops).sorted.ops → o' ∈ (mk q.ops).sorted.ops →
          o.kind = o'.kind → o.subject = .node "mgmt" → o'.subject = .mgmtNs → t.MgmtClash := by
        intro o o' ho ho' hkind hnode hmgmt
        obtain ⟨ns', rfl⟩ := Op.eq_createMgmtNamespace hmgmt
        obtain ⟨ns, rfl⟩ := Op.eq_createNamespace hnode hkind
        exact ⟨(q.mem_createNamespace.mp (mem_sorted.mp ho)).2,
          q.isEmpty_networks.mp (q.mem_createMgmtNamespace.mp (mem_sorted.mp ho')).2⟩
      rcases hs.cases with ⟨n, n', -, hb⟩ | ⟨hnode, hmgmt⟩ | ⟨hmgmt, hnode⟩
      · rw [Op.differs_of_bridge hb] at hd
        exact absurd hd Bool.false_ne_true
      · exact hclash (hboth hmem hop hkind hnode hmgmt)
      · exact hclash (hboth hop hmem hkind.symm hnode hmgmt)

end Plan

end NlinkLab
