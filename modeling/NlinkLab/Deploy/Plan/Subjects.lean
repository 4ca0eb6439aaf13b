import NlinkLab.Deploy.Plan.Ops
import NlinkLab.Deploy.Plan.Order

/-! What each op of a plan is about: no two ops of a well named topology's plan are
about the same thing. -/

namespace NlinkLab

open Fallible

/-- What an op makes or sets. -/
inductive Subject where
  | node (name : String)
  | radio (node iface : String)
  | mgmtBridge
  | mgmtVeth (node : String)
  | mgmtNs
  | bridge (network : String)
  | iface (node iface : String)
  | linksUp (node : String)
  | sysctls (node : String)
  | stack (node : String)
  | dns
  | dnsEtc (node : String)
  | delay (node : String)
  | exec (node : String) (index : Nat)
  | healthcheck (node : String)
  | frr (node : String)
  | wifi (node iface : String)
  | removal
  deriving DecidableEq

/-- What the op is about; the removals are about nothing in particular. -/
def Op.subject : Op → Subject
  | createNamespace node _ | createContainer node .. | attachForeign node .. => .node node
  | createRadio node iface .. => .radio node iface
  | createMgmtBridge .. => .mgmtBridge
  | createMgmtVeth node .. => .mgmtVeth node
  | createMgmtNamespace _ => .mgmtNs
  | createBridge _ network .. => .bridge network
  | createNetworkVeth node iface .. => .iface node iface
  | createVeth a .. | createTapVeth a .. => .iface a.node a.iface
  | createMacvlan node cfg => .iface node cfg.name
  | createIpvlan node cfg => .iface node cfg.name
  | linksUp node _ => .linksUp node
  | sysctls node _ => .sysctls node
  | stack node _ => .stack node
  | dnsInject _ => .dns
  | dnsNetnsEtc node _ => .dnsEtc node
  | startupDelay node _ => .delay node
  | exec node index _ => .exec node index
  | healthcheck node .. => .healthcheck node
  | frrDaemons node _ => .frr node
  | wifiDaemon node wifi => .wifi node wifi.name
  | _ => .removal

/-- The node that has the subject. -/
def Subject.owner : Subject → Option String
  | node n | radio n _ | mgmtVeth n | iface n _ | linksUp n | sysctls n | stack n | dnsEtc n | delay n
  | exec n _ | healthcheck n | frr n | wifi n _ => some n
  | _ => none

/-- The part of a plan that has ops about the subject. -/
def Subject.part : Subject → Nat
  | node _ => 0
  | radio .. => 1
  | mgmtBridge | mgmtVeth _ => 2
  | mgmtNs | bridge _ | iface .. => 3
  | linksUp _ => 4
  | sysctls _ => 5
  | dns | dnsEtc _ => 6
  | stack _ => 7
  | frr _ => 8
  | delay _ | exec .. | healthcheck _ => 9
  | wifi .. => 10
  | removal => 11

namespace Plan

/-! ### Lists of ops -/

/-- The ops of the first `k` parts, no two about the same. -/
def Below (k : Nat) (l : List Op) : Prop :=
  (l.map Op.subject).Nodup ∧ ∀ op ∈ l, op.subject.part < k

theorem Below.append {k : Nat} {l : List Op} (h : Below k l) (l' : List Op) (h' : (l'.map Op.subject).Nodup)
    (hpart : ∀ op ∈ l', op.subject.part = k) : Below (k + 1) (l ++ l') := by
  refine ⟨?_, fun op hop => ?_⟩
  · rw [List.map_append]
    refine List.nodup_append.mpr ⟨h.1, h', ?_⟩
    rintro a ha b hb rfl
    obtain ⟨o, ho, rfl⟩ := List.mem_map.mp ha
    obtain ⟨o', ho', heq⟩ := List.mem_map.mp hb
    have hlt := h.2 o ho
    rw [← heq, hpart o' ho'] at hlt
    exact lt_irrefl _ hlt
  · rcases List.mem_append.mp hop with hop | hop
    · exact Nat.lt_succ_of_lt (h.2 op hop)
    · rw [hpart op hop]
      exact Nat.lt_succ_self k

/-- Ops made for one node after the other. -/
theorem nodup_flatMap_owner {A : Type} {l : List A} (name : A → String) {g : A → List Op}
    (hl : (l.map name).Nodup) (hg : ∀ a ∈ l, ((g a).map Op.subject).Nodup)
    (howner : ∀ a ∈ l, ∀ op ∈ g a, op.subject.owner = some (name a)) :
    ((l.flatMap g).map Op.subject).Nodup := by
  rw [List.map_flatMap]
  refine List.nodup_flatMap.mpr ⟨hg, (List.pairwise_map.mp hl).imp_of_mem ?_⟩
  intro a b ha hb hne s hs hs'
  obtain ⟨o, ho, rfl⟩ := List.mem_map.mp hs
  obtain ⟨o', ho', heq⟩ := List.mem_map.mp hs'
  have howner' := howner b hb o' ho'
  rw [heq, howner a ha o ho] at howner'
  exact hne (Option.some.inj howner')

/-- At most one op made for each node. -/
theorem nodup_filterMap_owner {A : Type} {l : List A} (name : A → String) {f : A → Option Op}
    (hl : (l.map name).Nodup)
    (howner : ∀ a ∈ l, ∀ op, f a = some op → op.subject.owner = some (name a)) :
    ((l.filterMap f).map Op.subject).Nodup := by
  rw [List.filterMap_eq_flatMap_toList]
  refine nodup_flatMap_owner name hl (fun a _ => ?_) fun a ha op hop => howner a ha op (Option.mem_toList.mp hop)
  cases f a <;> simp

theorem exists_of_collect {A B : Type} {f : A → Except Error (Option B)} {l : List A} {r : List B}
    (h : collect f l = .ok r) : ∃ g : A → Option B, r = l.filterMap g ∧ ∀ a ∈ l, f a = .ok (g a) := by
  obtain ⟨r', hr', rfl⟩ := map_eq_ok.mp h
  refine ⟨fun a => (f a).toOption.join, ?_⟩
  have hall := mapM_eq_ok.mp hr'
  clear h hr'
  induction hall with
  | nil => exact ⟨rfl, fun _ ha => absurd ha List.not_mem_nil⟩
  | @cons a b l r ha hr ih =>
    obtain ⟨heq, hok⟩ := ih
    refine ⟨?_, fun x hx => ?_⟩
    · rw [List.filterMap_cons, List.filterMap_cons, heq, ha]
      rfl
    · rcases List.mem_cons.mp hx with rfl | hx
      · dsimp only
        rw [ha]
        rfl
      · exact hok x hx

theorem nodup_names (m : BTreeMap String Node) : (m.toList.map (·.1)).Nodup := by
  rw [Std.ExtTreeMap.map_fst_toList_eq_keys]
  exact Std.ExtTreeMap.nodup_keys

section

variable {t : Topology}

/-! ### Each part -/

theorem nodup_nodeOps (extraHosts : List String) : ((nodeOps t extraHosts).map Op.subject).Nodup := by
  refine nodup_filterMap_owner id (by simpa using nodup_topoSortNodes t.nodes) fun n _ op hop => ?_
  obtain ⟨node, -, rfl⟩ := Option.map_eq_some_iff.mp hop
  unfold nodeOp
  split
  · rfl
  · split <;> rfl

theorem nodup_linksUpOps : ((linksUpOps t).map Op.subject).Nodup := by
  refine nodup_filterMap_owner _ (nodup_names t.nodes) fun e _ op hop => ?_
  dsimp only at hop
  split_ifs at hop
  cases hop
  rfl

theorem nodup_sysctlOps (nl : Nlink) : ((sysctlOps t nl).map Op.subject).Nodup := by
  refine nodup_filterMap_owner _ (nodup_names t.nodes) fun e _ op hop => ?_
  dsimp only at hop
  split_ifs at hop
  cases hop
  rfl

theorem nodup_stackOps {env : Env} {declared : Topology} {inputs : PlanInputs} {ops : List Op}
    (h : stackOps env declared t inputs = .ok ops) : (ops.map Op.subject).Nodup := by
  obtain ⟨g, rfl, hg⟩ := exists_of_collect h
  refine nodup_filterMap_owner _ (nodup_names t.nodes) fun e he op hop => ?_
  have heq := hg e he
  dsimp only at heq
  rw [hop] at heq
  unfold stackOp at heq
  split at heq
  · split_ifs at heq
    · obtain ⟨cfg, -, hcfg⟩ := map_eq_ok.mp heq
      cases hcfg
      rfl
    · cases heq
  · obtain ⟨cfg, -, hcfg⟩ := map_eq_ok.mp heq
    cases hcfg
    rfl

theorem nodup_frrOps {ops : List Op} (h : frrOps t = .ok ops) : (ops.map Op.subject).Nodup := by
  obtain ⟨g, rfl, hg⟩ := exists_of_collect h
  refine nodup_filterMap_owner _ (nodup_names t.nodes) fun e he op hop => ?_
  have heq := hg e he
  dsimp only at heq
  rw [hop] at heq
  split at heq
  · cases heq
  · obtain ⟨cfg, -, hcfg⟩ := map_eq_ok.mp heq
    cases hcfg
    rfl

/-- Ops numbered by where they come from in a list. -/
theorem sublist_zipIdx_subjects {A : Type} {s : Nat → Subject} {f : A × Nat → Option Op} (l : List A)
    (k : Nat) (hf : ∀ e op, f e = some op → op.subject = s e.2) :
    (((l.zipIdx k).filterMap f).map Op.subject).Sublist ((List.range' k l.length).map s) := by
  induction l generalizing k with
  | nil => exact List.Sublist.refl _
  | cons a l ih =>
    rw [List.zipIdx_cons, List.filterMap_cons, List.length_cons, List.range'_succ, List.map_cons]
    cases ha : f (a, k) with
    | none => exact (ih (k + 1)).cons _
    | some op =>
      rw [List.map_cons, hf _ op ha]
      exact (ih (k + 1)).cons_cons _

/-- The commands of a node have different indexes: those of its container block follow
its own. -/
theorem nodup_execOps (name : String) (node : Node) :
    ((execOps name node).map Op.subject).Nodup := by
  have hown := sublist_zipIdx_subjects (s := .exec name) (f := fun e =>
    if e.1.cmd = [] then none else some (.exec name e.2 e.1)) node.exec 0 fun e op h => by
      split_ifs at h
      cases h
      rfl
  have hblock := sublist_zipIdx_subjects (s := fun i => .exec name (node.exec.length + i))
    (f := fun e => if trim e.1 = "" then none
      else some (.exec name (node.exec.length + e.2)
        { cmd := ["sh", "-c", trim e.1], background := false })) node.containerExec 0 fun e op h => by
      split_ifs at h
      cases h
      rfl
  unfold execOps
  rw [List.map_append]
  refine (hown.append hblock).nodup (List.nodup_append.mpr ⟨?_, ?_, ?_⟩)
  · refine List.Nodup.map (fun i j h => ?_) (List.nodup_range' 1)
    exact (Subject.exec.inj h).2
  · refine List.Nodup.map (fun i j h => ?_) (List.nodup_range' 1)
    have := (Subject.exec.inj h).2
    omega
  · rintro x hx y hy rfl
    obtain ⟨i, hi, rfl⟩ := List.mem_map.mp hx
    obtain ⟨j, -, heq⟩ := List.mem_map.mp hy
    have hij := (Subject.exec.inj heq).2
    have hlt := (List.mem_range'_1.mp hi).2
    omega

/-- What a node runs, by subject. -/
theorem subject_of_mem_execOps {name : String} {node : Node} {op : Op} (h : op ∈ execOps name node) :
    ∃ index, op.subject = .exec name index := by
  rcases List.mem_append.mp h with h | h
  all_goals
    obtain ⟨e, -, he⟩ := List.mem_filterMap.mp h
    dsimp only at he
    split_ifs at he
    cases he
    exact ⟨_, rfl⟩

theorem nodup_nodeProcessOps (name : String) (node : Node) :
    ((nodeProcessOps name node).map Op.subject).Nodup := by
  unfold nodeProcessOps
  rw [List.map_append, List.map_append]
  refine List.nodup_append.mpr ⟨List.nodup_append.mpr ⟨?_, nodup_execOps name node, ?_⟩, ?_, ?_⟩
  · cases node.startupDelay <;> simp
  · intro x hx y hy heq
    obtain ⟨o, ho, rfl⟩ := List.mem_map.mp hx
    obtain ⟨o', ho', rfl⟩ := List.mem_map.mp hy
    obtain ⟨delay, -, rfl⟩ := Option.map_eq_some_iff.mp (Option.mem_toList.mp ho)
    obtain ⟨index, hindex⟩ := subject_of_mem_execOps ho'
    rw [hindex] at heq
    cases heq
  · cases node.healthcheck <;> simp
  · intro x hx y hy heq
    obtain ⟨o', ho', rfl⟩ := List.mem_map.mp hy
    obtain ⟨cmd, -, rfl⟩ := Option.map_eq_some_iff.mp (Option.mem_toList.mp ho')
    rcases List.mem_append.mp hx with hx | hx
    all_goals obtain ⟨o, ho, rfl⟩ := List.mem_map.mp hx
    · obtain ⟨delay, -, rfl⟩ := Option.map_eq_some_iff.mp (Option.mem_toList.mp ho)
      cases heq
    · obtain ⟨index, hindex⟩ := subject_of_mem_execOps ho
      rw [hindex] at heq
      cases heq

theorem subject_of_mem_nodeProcessOps {name : String} {node : Node} {op : Op}
    (h : op ∈ nodeProcessOps name node) : op.subject.owner = some name ∧ op.subject.part = 9 := by
  rcases List.mem_append.mp h with h | h
  · rcases List.mem_append.mp h with h | h
    · obtain ⟨delay, -, rfl⟩ := Option.map_eq_some_iff.mp (Option.mem_toList.mp h)
      exact ⟨rfl, rfl⟩
    · obtain ⟨index, hindex⟩ := subject_of_mem_execOps h
      rw [hindex]
      exact ⟨rfl, rfl⟩
  · obtain ⟨cmd, -, rfl⟩ := Option.map_eq_some_iff.mp (Option.mem_toList.mp h)
    exact ⟨rfl, rfl⟩

/-- What runs is run by a node. -/
theorem exists_of_mem_processOps {op : Op} (h : op ∈ processOps t) :
    ∃ name node, t.nodes[name]? = some node ∧ op ∈ nodeProcessOps name node := by
  obtain ⟨name, -, hop⟩ := List.mem_flatMap.mp h
  cases hnode : t.nodes[name]? with
  | none =>
    rw [hnode] at hop
    exact absurd hop List.not_mem_nil
  | some node =>
    rw [hnode] at hop
    exact ⟨name, node, hnode, hop⟩

theorem nodup_processOps : ((processOps t).map Op.subject).Nodup := by
  refine nodup_flatMap_owner id (by simpa using nodup_topoSortNodes t.nodes)
    (fun n _ => ?_) fun n _ op hop => ?_
  · cases t.nodes[n]? with
    | none => exact List.nodup_nil
    | some node => exact nodup_nodeProcessOps n node
  · cases hnode : t.nodes[n]? with
    | none =>
      rw [hnode] at hop
      exact absurd hop List.not_mem_nil
    | some node =>
      rw [hnode] at hop
      exact (subject_of_mem_nodeProcessOps hop).1

theorem nodup_dnsOps : ((dnsOps t).map Op.subject).Nodup := by
  unfold dnsOps
  split_ifs
  · rw [List.map_cons]
    refine List.nodup_cons.mpr ⟨fun hmem => ?_, ?_⟩
    · obtain ⟨o, ho, heq⟩ := List.mem_map.mp hmem
      obtain ⟨e, -, he⟩ := List.mem_filterMap.mp ho
      dsimp only at he
      split_ifs at he
      cases he
      cases heq
    · refine nodup_filterMap_owner _ (nodup_names t.nodes) fun e _ op hop => ?_
      dsimp only at hop
      split_ifs at hop
      cases hop
      rfl
  · exact List.nodup_nil

theorem sublist_map_fst_zip {A B : Type} (l : List A) (l' : List B) :
    ((l.zip l').map (·.1)).Sublist l := by
  induction l generalizing l' with
  | nil => exact List.nil_sublist _
  | cons a l ih =>
    cases l' with
    | nil => exact List.nil_sublist _
    | cons b l' => exact (ih l').cons_cons a

theorem nodup_mgmtOps {ops : List Op} (h : mgmtOps t = .ok ops) : (ops.map Op.subject).Nodup := by
  unfold mgmtOps at h
  split at h
  · split_ifs at h
    · simp only [bind_eq_ok, pure_eq_ok] at h
      obtain ⟨mgmt, -, rfl⟩ := h
      rw [List.map_cons]
      refine List.nodup_cons.mpr ⟨fun hmem => ?_, ?_⟩
      · obtain ⟨o, ho, heq⟩ := List.mem_map.mp hmem
        obtain ⟨e, -, he⟩ := List.mem_filterMap.mp ho
        split_ifs at he
        cases he
        cases heq
      · refine nodup_filterMap_owner (fun e => e.1.1.1) ?_ fun e _ op hop => ?_
        · have hsub := (sublist_map_fst_zip t.nodes.toList.zipIdx mgmt.nodes).map fun e => e.1.1
          rw [List.map_map] at hsub
          refine hsub.nodup ?_
          have hnames := nodup_names t.nodes
          rwa [← List.zipIdx_map_fst 0 t.nodes.toList, List.map_map] at hnames
        · split_ifs at hop
          cases hop
          rfl
    · cases h
      exact List.nodup_nil
  · cases h
    exact List.nodup_nil

end

theorem part_of_mem_mgmtOps {t : Topology} {ops : List Op} (h : mgmtOps t = .ok ops) {op : Op}
    (hop : op ∈ ops) : op.subject.part = 2 := by
  unfold mgmtOps at h
  split at h
  · split_ifs at h
    · simp only [bind_eq_ok, pure_eq_ok] at h
      obtain ⟨mgmt, -, rfl⟩ := h
      rcases List.mem_cons.mp hop with rfl | hop
      · rfl
      · obtain ⟨e, -, he⟩ := List.mem_filterMap.mp hop
        split_ifs at he
        cases he
        rfl
    · cases h
      exact absurd hop List.not_mem_nil
  · cases h
    exact absurd hop List.not_mem_nil

/-! ### Interfaces -/

/-- The interfaces that members of a network are. -/
def memberIfaces (network : Network) : List (String × String) :=
  (network.members.filterMap EndpointRef.parse).map fun ep => (ep.node, ep.iface)

theorem parse_endpoint (node iface : String) (hcolon : ':' ∉ node.toList) (hnode : node ≠ "")
    (hiface : iface ≠ "") : EndpointRef.parse (node ++ ":" ++ iface) = some ⟨node, iface⟩ := by
  have htake : (node ++ ":" ++ iface).toList.takeWhile (· ≠ ':') = node.toList := by
    have hne : ∀ x ∈ node.toList, x ≠ ':' := fun x hx he => hcolon (he ▸ hx)
    rw [String.toList_append, String.toList_append, List.append_assoc,
      List.takeWhile_append_of_pos (by simpa using hne)]
    simp
  have hdrop : (node ++ ":" ++ iface).toList.drop node.toList.length = ':' :: iface.toList := by
    rw [String.toList_append, String.toList_append, List.append_assoc, List.drop_left]
    rfl
  unfold EndpointRef.parse splitOnce
  simp only [htake, hdrop]
  simp [hnode, hiface]

/-- Where the interface of a member of a network in a plan comes from. -/
def memberSource (name : String) : Validator.InterfaceSource :=
  if name = MGMT_NETWORK then .mgmt else .network name

theorem memberSource_inj {name name' : String} (h : memberSource name = memberSource name') : name = name' := by
  unfold memberSource at h
  split_ifs at h with h1 h2 h2
  · rw [h1, h2]
  · exact Validator.InterfaceSource.network.inj h

section

variable {t topo : Topology}

theorem memberIfaces_of_declared (h : t.WellNamed) {name : String} {network : Network}
    (hnet : t.networks[name]? = some network) :
    (memberIfaces network).Nodup ∧ ∀ p ∈ memberIfaces network,
      (p.1, p.2, memberSource name) ∈ Validator.allSources t := by
  have hname : name ≠ MGMT_NETWORK := by
    rintro rfl
    have hmem := Std.ExtTreeMap.mem_iff_isSome_getElem?.mpr (by rw [hnet]; rfl)
    exact absurd (h.network hmem) (by decide)
  have heq : (network.members.filterMap fun member => (EndpointRef.parse member).map fun ep =>
      (ep.node, ep.iface, Validator.InterfaceSource.network name)).map (fun s => (s.1, s.2.1)) =
      memberIfaces network := by
    unfold memberIfaces
    rw [List.map_filterMap, List.map_filterMap]
    refine List.filterMap_congr fun member _ => ?_
    cases EndpointRef.parse member <;> rfl
  have hsub : (network.members.filterMap fun member => (EndpointRef.parse member).map fun ep =>
      (ep.node, ep.iface, Validator.InterfaceSource.network name)).Sublist (Validator.allSources t) := by
    refine List.Sublist.trans ?_ (List.sublist_append_right _ _)
    exact List.sublist_flatten_of_mem (List.mem_map.mpr
      ⟨_, Std.ExtTreeMap.mem_toList_iff_getElem?_eq_some.mpr hnet, rfl⟩)
  refine ⟨?_, fun p hp => ?_⟩
  · rw [← heq]
    exact (hsub.map _).nodup h.sources
  · rw [← heq] at hp
    obtain ⟨s, hs, rfl⟩ := List.mem_map.mp hp
    obtain ⟨member, -, hmember⟩ := List.mem_filterMap.mp hs
    obtain ⟨ep, -, rfl⟩ := Option.map_eq_some_iff.mp hmember
    unfold memberSource
    rw [if_neg hname]
    exact hsub.subset hs

/-- The nodes with a management address, each once. -/
theorem memberIfaces_mgmtNetwork (h : t.WellNamed) (subnet : String) (mgmt : MgmtAddrs) :
    (memberIfaces (mgmtNetwork t subnet mgmt)).Sublist (t.nodes.toList.map fun e => (e.1, "mgmt0")) := by
  have hparse : ∀ e ∈ t.nodes.toList, EndpointRef.parse (e.1 ++ ":mgmt0") = some ⟨e.1, "mgmt0"⟩ := by
    intro e he
    have hvalid := h.node (Std.ExtTreeMap.mem_toList_iff_getElem?_eq_some.mp he)
    have hep := parse_endpoint e.1 "mgmt0" (Validator.colon_notMem_of_isValidName hvalid)
      (Validator.ne_empty_of_isValidName hvalid) (by decide)
    have hsuffix : ":" ++ "mgmt0" = ":mgmt0" := by decide
    rwa [String.append_assoc, hsuffix] at hep
  suffices hzip : ∀ (f : (String × Node) × IpAddr → Option (String × PortConfig)),
      (∀ e ip, f (e, ip) = none ∨ ∃ port, f (e, ip) = some (e.1 ++ ":mgmt0", port)) →
        ∀ (l : List (String × Node)) (ips : List IpAddr), l ⊆ t.nodes.toList →
          (((((l.zip ips).filterMap f).map (·.1)).filterMap EndpointRef.parse).map
            fun ep => (ep.node, ep.iface)).Sublist (l.map fun e => (e.1, "mgmt0")) by
    refine hzip _ (fun e ip => ?_) _ _ (List.Subset.refl _)
    dsimp only
    split_ifs
    · exact .inl rfl
    · exact .inr ⟨_, rfl⟩
  intro f hf l
  induction l with
  | nil => exact fun _ _ => List.nil_sublist _
  | cons e l ih =>
    intro ips hl
    cases ips with
    | nil => exact List.nil_sublist _
    | cons ip ips =>
      have ih := ih ips fun e he => hl (List.mem_cons_of_mem _ he)
      rw [List.zip_cons_cons, List.filterMap_cons, List.map_cons]
      rcases hf e ip with hnone | ⟨port, hport⟩
      · rw [hnone]
        exact ih.cons _
      · rw [hport, List.map_cons, List.filterMap_cons, hparse e (hl List.mem_cons_self)]
        exact ih.cons_cons _

theorem memberIfaces_of_planned (h : t.WellNamed) (htopo : withMgmtNetwork t = .ok topo)
    {name : String} {network : Network} (hnet : topo.networks[name]? = some network) :
    (memberIfaces network).Nodup ∧ ∀ p ∈ memberIfaces network,
      (p.1, p.2, memberSource name) ∈ Validator.allSources t := by
  unfold withMgmtNetwork at htopo
  split at htopo
  · rename_i subnet hsubnet
    split_ifs at htopo
    · cases htopo
      exact memberIfaces_of_declared h hnet
    · simp only [bind_eq_ok, pure_eq_ok] at htopo
      obtain ⟨mgmt, -, rfl⟩ := htopo
      rw [Std.ExtTreeMap.getElem?_insert] at hnet
      split_ifs at hnet with hname
      · cases hnet
        obtain rfl := Std.LawfulEqOrd.eq_of_compare hname
        have hsub := memberIfaces_mgmtNetwork h subnet mgmt
        refine ⟨hsub.nodup ?_, fun p hp => ?_⟩
        · refine List.Nodup.of_map (·.1) ?_
          rw [List.map_map]
          exact nodup_names t.nodes
        · obtain ⟨e, he, rfl⟩ := List.mem_map.mp (hsub.subset hp)
          refine List.mem_append_left _ (List.mem_append_left _ (List.mem_flatMap.mpr ⟨e, he, ?_⟩))
          refine List.mem_map.mpr ⟨("mgmt0", .mgmt), List.mem_append_right _ ?_, rfl⟩
          rw [hsubnet]
          exact List.mem_cons_self
      · exact memberIfaces_of_declared h hnet
  · cases htopo
    exact memberIfaces_of_declared h hnet

/-- What the members' veths are. -/
theorem subjects_memberOps {netName : String} {network : Network} (members : List String) (k : Nat)
    {ops : List Op}
    (h : (members.zipIdx k).mapM (fun (member, k) => memberOp topo netName network member k) = .ok ops) :
    ops.map Op.subject = ((members.filterMap EndpointRef.parse).map fun ep => (ep.node, ep.iface)).map
      fun p => .iface p.1 p.2 := by
  induction members generalizing k ops with
  | nil =>
    cases h
    rfl
  | cons member members ih =>
    rw [List.zipIdx_cons, List.mapM_cons] at h
    simp only [bind_eq_ok, pure_eq_ok] at h
    obtain ⟨op, hop, rest, hrest, rfl⟩ := h
    obtain ⟨ep, hep, -, rfl⟩ := memberOp_eq_ok hop
    rw [List.filterMap_cons, hep, List.map_cons, ih _ hrest]
    rfl

/-- What the ops of networks are about. -/
theorem subjects_networkOps (l : List (String × Network)) {parts : List (List Op)}
    (h : l.mapM (fun (name, network) => networkOps topo name network) = .ok parts) :
    parts.flatten.map Op.subject = l.flatMap fun e =>
      .bridge e.1 :: (memberIfaces e.2).map fun p => .iface p.1 p.2 := by
  induction l generalizing parts with
  | nil =>
    cases h
    rfl
  | cons e l ih =>
    rw [List.mapM_cons] at h
    simp only [bind_eq_ok, pure_eq_ok] at h
    obtain ⟨part, hpart, rest, hrest, rfl⟩ := h
    simp only [networkOps, bind_eq_ok, pure_eq_ok] at hpart
    obtain ⟨veths, hveths, rfl⟩ := hpart
    rw [List.flatten_cons, List.map_append, List.map_cons, ih hrest, subjects_memberOps _ _ hveths]
    rfl

theorem subjects_bridgeOps {ops : List Op} (hops : bridgeOps topo = .ok ops) :
    ops = [] ∨ ops.map Op.subject = .mgmtNs :: topo.networks.toList.flatMap fun e =>
      .bridge e.1 :: (memberIfaces e.2).map fun p => .iface p.1 p.2 := by
  unfold bridgeOps at hops
  split_ifs at hops
  · cases hops
    exact .inl rfl
  · simp only [bind_eq_ok, pure_eq_ok] at hops
    obtain ⟨parts, hparts, rfl⟩ := hops
    right
    rw [List.map_cons, subjects_networkOps _ hparts]
    rfl

theorem nodup_bridgeOps (h : t.WellNamed) (htopo : withMgmtNetwork t = .ok topo) {ops : List Op}
    (hops : bridgeOps topo = .ok ops) : (ops.map Op.subject).Nodup := by
  rcases subjects_bridgeOps hops with rfl | heq
  · exact List.nodup_nil
  · have hmem : ∀ {e}, e ∈ topo.networks.toList → topo.networks[e.1]? = some e.2 := fun he =>
      Std.ExtTreeMap.mem_toList_iff_getElem?_eq_some.mp he
    rw [heq]
    refine List.nodup_cons.mpr ⟨fun hns => ?_, List.nodup_flatMap.mpr ⟨fun e he => ?_, ?_⟩⟩
    · obtain ⟨e, -, he⟩ := List.mem_flatMap.mp hns
      rcases List.mem_cons.mp he with h | h
      · cases h
      · obtain ⟨p, -, hp⟩ := List.mem_map.mp h
        cases hp
    · refine List.nodup_cons.mpr ⟨fun hb => ?_, List.Nodup.map (fun p p' hp => ?_)
        (memberIfaces_of_planned h htopo (hmem he)).1⟩
      · obtain ⟨p, -, hp⟩ := List.mem_map.mp hb
        cases hp
      · obtain ⟨h1, h2⟩ := Subject.iface.inj hp
        exact Prod.ext h1 h2
    · refine (List.pairwise_map.mp (show (topo.networks.toList.map (·.1)).Pairwise (· ≠ ·) from ?_)).imp_of_mem ?_
      · have hkeys := Std.ExtTreeMap.nodup_keys (t := topo.networks)
        rwa [← Std.ExtTreeMap.map_fst_toList_eq_keys] at hkeys
      · intro e e' he he' hne s hs hs'
        rcases List.mem_cons.mp hs with rfl | hs
        · rcases List.mem_cons.mp hs' with hb | hs'
          · exact hne (Subject.bridge.inj hb)
          · obtain ⟨p, -, hp⟩ := List.mem_map.mp hs'
            cases hp
        · obtain ⟨p, hp, rfl⟩ := List.mem_map.mp hs
          rcases List.mem_cons.mp hs' with hb | hs'
          · cases hb
          · obtain ⟨p', hp', heq⟩ := List.mem_map.mp hs'
            obtain ⟨h1, h2⟩ := Subject.iface.inj heq
            have hsource := (memberIfaces_of_planned h htopo (hmem he)).2 p hp
            have hsource' := (memberIfaces_of_planned h htopo (hmem he')).2 p' hp'
            rw [h1, h2] at hsource'
            exact hne (memberSource_inj (h.source_unique hsource hsource'))

theorem withMgmtNetwork_eq (htopo : withMgmtNetwork t = .ok topo) :
    topo.nodes = t.nodes ∧ topo.links = t.links ∧ topo.lab = t.lab := by
  unfold withMgmtNetwork at htopo
  split at htopo
  · split_ifs at htopo
    · cases htopo
      exact ⟨rfl, rfl, rfl⟩
    · simp only [bind_eq_ok, pure_eq_ok] at htopo
      obtain ⟨mgmt, -, rfl⟩ := htopo
      exact ⟨rfl, rfl, rfl⟩
  · cases htopo
    exact ⟨rfl, rfl, rfl⟩

/-- The interfaces that ends of links are. -/
def linkIfaces (links : List Link) : List (String × String) :=
  links.flatMap fun link => ([link.endpoints.1, link.endpoints.2].filterMap EndpointRef.parse).map
    fun ep => (ep.node, ep.iface)

theorem linkIfaces_eq (t : Topology) :
    linkIfaces t.links = (Validator.linkSources t).map fun s => (s.1, s.2.1) := by
  unfold linkIfaces Validator.linkSources
  generalize t.links = links
  suffices hk : ∀ k, links.flatMap (fun link =>
      ([link.endpoints.1, link.endpoints.2].filterMap EndpointRef.parse).map fun ep => (ep.node, ep.iface)) =
        ((links.zipIdx k).flatMap fun l => [l.1.endpoints.1, l.1.endpoints.2].filterMap fun ep =>
          (EndpointRef.parse ep).map fun ep => (ep.node, ep.iface, Validator.InterfaceSource.link l.2)).map
            fun s => (s.1, s.2.1) from hk 0
  induction links with
  | nil => exact fun _ => rfl
  | cons link links ih =>
    intro k
    rw [List.flatMap_cons, List.zipIdx_cons, List.flatMap_cons, List.map_append, ← ih]
    refine congrArg (· ++ _) ?_
    rw [List.map_filterMap, List.map_filterMap]
    refine List.filterMap_congr fun ep _ => ?_
    cases EndpointRef.parse ep <;> rfl

theorem subjects_linkOps (links : List Link) {taps : BTreeMap String Nat} {ops : List Op}
    (hops : linkOpsFrom topo taps links = .ok ops) :
    (ops.map Op.subject).Sublist ((linkIfaces links).map fun p => .iface p.1 p.2) := by
  induction links generalizing taps ops with
  | nil =>
    cases hops
    exact List.nil_sublist _
  | cons link links ih =>
    simp only [linkOpsFrom, bind_eq_ok, pure_eq_ok] at hops
    obtain ⟨⟨taps', op⟩, hop, rest, hrest, rfl⟩ := hops
    have hone : [op.subject].Sublist
        ((([link.endpoints.1, link.endpoints.2].filterMap EndpointRef.parse).map
          fun ep => (ep.node, ep.iface)).map fun p => .iface p.1 p.2) := by
      obtain ⟨a, b, ha, hb, -, -, c, d, hcd, hop⟩ := linkOp_eq_ok hop
      have hsubject : op.subject = .iface c.node c.iface := by
        rcases hop with ⟨-, rfl⟩ | ⟨-, -, rfl⟩ <;> rfl
      rw [hsubject, List.singleton_sublist, List.filterMap_cons, ha, List.filterMap_cons, hb]
      rcases hcd with hcd | hcd <;> cases hcd <;> simp
    unfold linkIfaces
    rw [List.map_cons, List.flatMap_cons, List.map_append]
    exact hone.append (ih hrest)

theorem nodup_linkOps (h : t.WellNamed) (htopo : withMgmtNetwork t = .ok topo) {ops : List Op}
    (hops : linkOps topo = .ok ops) : (ops.map Op.subject).Nodup := by
  refine (subjects_linkOps _ hops).nodup (List.Nodup.map (fun p p' hp => ?_) ?_)
  · obtain ⟨h1, h2⟩ := Subject.iface.inj hp
    exact Prod.ext h1 h2
  · rw [(withMgmtNetwork_eq htopo).2.1, linkIfaces_eq]
    refine (List.Sublist.map _ ?_).nodup h.sources
    exact (List.sublist_append_right _ _).trans (List.sublist_append_left _ _)

theorem names_nodeSources (node : Node) : (Validator.nodeSources node).map (·.1) =
    node.interfaces.keys ++ node.wireguard.keys ++ node.macvlans.map (·.name) ++
      node.ipvlans.map (·.name) ++ node.wifi.map (·.name) ++ node.vrfs.keys := by
  unfold Validator.nodeSources
  simp only [List.map_append, List.map_map, Function.comp_def, List.map_id']

/-- Interfaces that nodes declare. -/
theorem sublist_declared {g : Node → List String}
    (hg : ∀ node, (g node).Sublist ((Validator.nodeSources node).map (·.1))) :
    (t.nodes.toList.flatMap fun e => (g e.2).map fun i => (e.1, i)).Sublist
      ((Validator.allSources t).map fun s => (s.1, s.2.1)) := by
  unfold Validator.allSources
  rw [List.map_append, List.map_append, List.map_flatMap]
  refine List.Sublist.trans ?_ ((List.sublist_append_left _ _).trans (List.sublist_append_left _ _))
  refine List.Sublist.flatMap_right _ fun e _ => ?_
  dsimp only
  rw [List.map_append, List.map_append, List.map_map, List.map_map]
  refine List.Sublist.trans ?_ (List.sublist_append_left _ _)
  have hsub := (hg e.2).map fun i => (e.1, i)
  rwa [List.map_map] at hsub

theorem nodup_declared (h : t.WellNamed) {g : Node → List String} {s : String → String → Subject}
    (hs : ∀ n i n' i', s n i = s n' i' → n = n' ∧ i = i')
    (hg : ∀ node, (g node).Sublist ((Validator.nodeSources node).map (·.1))) :
    (t.nodes.toList.flatMap fun e => (g e.2).map fun i => s e.1 i).Nodup := by
  have hnodup : ((t.nodes.toList.flatMap fun e => (g e.2).map fun i => (e.1, i)).map
      fun p => s p.1 p.2).Nodup := by
    refine List.Nodup.map (fun p p' hp => ?_) ((sublist_declared hg).nodup h.sources)
    obtain ⟨h1, h2⟩ := hs _ _ _ _ hp
    exact Prod.ext h1 h2
  rw [List.map_flatMap] at hnodup
  simpa only [List.map_map, Function.comp_def] using hnodup

theorem nodup_hostLinkOps (h : t.WellNamed) : ((hostLinkOps t).map Op.subject).Nodup := by
  have hnodup := nodup_declared h (s := .iface)
    (g := fun node => node.macvlans.map (·.name) ++ node.ipvlans.map (·.name))
    (fun _ _ _ _ h => Subject.iface.inj h) fun node => by
      rw [names_nodeSources]
      refine List.Sublist.trans ?_ ((List.sublist_append_left _ _).trans (List.sublist_append_left _ _))
      exact (List.sublist_append_right _ _).append (List.Sublist.refl _)
  unfold hostLinkOps
  rw [List.map_flatMap]
  convert hnodup using 3 with e
  simp [Function.comp_def, Op.subject]

theorem nodup_radioOps (h : t.WellNamed) : ((radioOps t).map Op.subject).Nodup := by
  have hnodup := nodup_declared h (s := .radio) (g := fun node => node.wifi.map (·.name))
    (fun _ _ _ _ h => Subject.radio.inj h) fun node => by
      rw [names_nodeSources]
      exact (List.sublist_append_right _ _).trans (List.sublist_append_left _ _)
  unfold radioOps
  split
  · exact List.nodup_nil
  · rw [List.map_flatMap]
    convert hnodup using 3 with e
    simp [Function.comp_def, Op.subject]

theorem nodup_wifiOps (h : t.WellNamed) : ((wifiOps t).map Op.subject).Nodup := by
  have hnodup := nodup_declared h (s := .wifi) (g := fun node => node.wifi.map (·.name))
    (fun _ _ _ _ h => Subject.wifi.inj h) fun node => by
      rw [names_nodeSources]
      exact (List.sublist_append_right _ _).trans (List.sublist_append_left _ _)
  unfold wifiOps
  rw [List.map_flatMap]
  convert hnodup using 3 with e
  simp [Function.comp_def, Op.subject]

/-! ### Where an interface that an op makes comes from -/

theorem source_of_bridgeOps (h : t.WellNamed) (htopo : withMgmtNetwork t = .ok topo) {ops : List Op}
    (hops : bridgeOps topo = .ok ops) {op : Op} (hop : op ∈ ops) {n i : String}
    (hs : op.subject = .iface n i) : ∃ name, (n, i, memberSource name) ∈ Validator.allSources t := by
  rcases subjects_bridgeOps hops with rfl | heq
  · exact absurd hop List.not_mem_nil
  · have hmem : Subject.iface n i ∈ ops.map Op.subject := hs ▸ List.mem_map_of_mem hop
    rw [heq] at hmem
    rcases List.mem_cons.mp hmem with hmem | hmem
    · cases hmem
    · obtain ⟨e, he, hmem⟩ := List.mem_flatMap.mp hmem
      rcases List.mem_cons.mp hmem with hmem | hmem
      · cases hmem
      · obtain ⟨p, hp, heq⟩ := List.mem_map.mp hmem
        obtain ⟨rfl, rfl⟩ := Subject.iface.inj heq
        exact ⟨e.1, (memberIfaces_of_planned h htopo
          (Std.ExtTreeMap.mem_toList_iff_getElem?_eq_some.mp he)).2 p hp⟩

theorem source_of_linkOps (htopo : withMgmtNetwork t = .ok topo) {ops : List Op}
    (hops : linkOps topo = .ok ops) {op : Op} (hop : op ∈ ops) {n i : String}
    (hs : op.subject = .iface n i) : ∃ k, (n, i, .link k) ∈ Validator.allSources t := by
  have hmem := (subjects_linkOps _ hops).subset (List.mem_map_of_mem hop)
  rw [hs, (withMgmtNetwork_eq htopo).2.1, linkIfaces_eq, List.map_map] at hmem
  obtain ⟨s, hsource, heq⟩ := List.mem_map.mp hmem
  obtain ⟨rfl, rfl⟩ := Subject.iface.inj heq
  obtain ⟨⟨link, k⟩, -, hlink⟩ := List.mem_flatMap.mp hsource
  obtain ⟨ep, -, hep⟩ := List.mem_filterMap.mp hlink
  obtain ⟨ref, -, rfl⟩ := Option.map_eq_some_iff.mp hep
  exact ⟨k, List.mem_append_left _ (List.mem_append_right _ hsource)⟩

theorem source_of_hostLinkOps {op : Op} (hop : op ∈ hostLinkOps t) {n i : String}
    (hs : op.subject = .iface n i) :
    (n, i, .macvlan) ∈ Validator.allSources t ∨ (n, i, .ipvlan) ∈ Validator.allSources t := by
  have hdeclared : ∀ {name : String} {node : Node} {i : String} {s : Validator.InterfaceSource},
      t.nodes[name]? = some node → (i, s) ∈ Validator.nodeSources node →
        (name, i, s) ∈ Validator.allSources t := by
    intro name node i s hnode hmem
    refine List.mem_append_left _ (List.mem_append_left _ (List.mem_flatMap.mpr
      ⟨(name, node), Std.ExtTreeMap.mem_toList_iff_getElem?_eq_some.mpr hnode, ?_⟩))
    exact List.mem_map.mpr ⟨(i, s), List.mem_append_left _ hmem, rfl⟩
  obtain ⟨name, node, hnode, ⟨cfg, hcfg, rfl⟩ | ⟨cfg, hcfg, rfl⟩⟩ := mem_hostLinkOps.mp hop
  · obtain ⟨rfl, rfl⟩ := Subject.iface.inj hs
    refine .inl (hdeclared hnode ?_)
    unfold Validator.nodeSources
    simp only [List.mem_append, List.mem_map]
    exact .inl (.inl (.inl (.inr ⟨cfg, hcfg, rfl⟩)))
  · obtain ⟨rfl, rfl⟩ := Subject.iface.inj hs
    refine .inr (hdeclared hnode ?_)
    unfold Validator.nodeSources
    simp only [List.mem_append, List.mem_map]
    exact .inl (.inl (.inr ⟨cfg, hcfg, rfl⟩))

/-- The links that a plan makes: bridges and their ports, links, and host-side links. -/
theorem nodup_interfaces (h : t.WellNamed) (htopo : withMgmtNetwork t = .ok topo)
    {bridges links : List Op} (hbridges : bridgeOps topo = .ok bridges) (hlinks : linkOps topo = .ok links) :
    ((bridges ++ links ++ hostLinkOps t).map Op.subject).Nodup := by
  have hiface : ∀ {op : Op}, op ∈ hostLinkOps t → ∃ n i, op.subject = .iface n i := by
    intro op hop
    obtain ⟨name, _, -, ⟨cfg, -, rfl⟩ | ⟨cfg, -, rfl⟩⟩ := mem_hostLinkOps.mp hop <;> exact ⟨_, _, rfl⟩
  rw [List.map_append, List.map_append]
  refine List.nodup_append.mpr ⟨List.nodup_append.mpr ⟨nodup_bridgeOps h htopo hbridges,
    nodup_linkOps h htopo hlinks, ?_⟩, nodup_hostLinkOps h, ?_⟩
  · rintro a ha b hb rfl
    obtain ⟨o, ho, rfl⟩ := List.mem_map.mp ha
    obtain ⟨p, -, hp⟩ := List.mem_map.mp ((subjects_linkOps _ hlinks).subset hb)
    obtain ⟨o', ho', heq⟩ := List.mem_map.mp hb
    obtain ⟨name, hsource⟩ := source_of_bridgeOps h htopo hbridges ho hp.symm
    obtain ⟨k, hsource'⟩ := source_of_linkOps htopo hlinks ho' (heq.trans hp.symm)
    have hne := h.source_unique hsource hsource'
    unfold memberSource at hne
    split_ifs at hne
  · rintro a ha b hb rfl
    obtain ⟨o, ho, rfl⟩ := List.mem_map.mp hb
    obtain ⟨n, i, hs⟩ := hiface ho
    have hhost := source_of_hostLinkOps ho hs
    rcases List.mem_append.mp ha with ha | ha
    · obtain ⟨o', ho', heq⟩ := List.mem_map.mp ha
      obtain ⟨name, hsource⟩ := source_of_bridgeOps h htopo hbridges ho' (heq.trans hs)
      rcases hhost with hsource' | hsource'
      all_goals
        have hne := h.source_unique hsource hsource'
        unfold memberSource at hne
        split_ifs at hne
    · obtain ⟨o', ho', heq⟩ := List.mem_map.mp ha
      obtain ⟨k, hsource⟩ := source_of_linkOps htopo hlinks ho' (heq.trans hs)
      rcases hhost with hsource' | hsource'
      all_goals exact nomatch h.source_unique hsource hsource'

end

end Plan

namespace Parts

variable {env : Plan.Env} {t : Topology} {inputs : PlanInputs} (q : Parts env t inputs)

theorem part_interfaces : ∀ op ∈ q.bridges ++ q.links ++ Plan.hostLinkOps q.topo, op.subject.part = 3 := by
  intro op hop
  rcases List.mem_append.mp hop with hop | hop
  · rcases List.mem_append.mp hop with hop | hop
    · rcases Plan.mem_bridgeOps q.bridges_eq hop with rfl | ⟨name, network, -, rfl | ⟨member, k, -, hop⟩⟩
      · rfl
      · rfl
      · obtain ⟨ep, -, -, rfl⟩ := Plan.memberOp_eq_ok hop
        rfl
    · have hmem := (Plan.subjects_linkOps _ q.links_eq).subset (List.mem_map_of_mem hop)
      obtain ⟨p, -, hp⟩ := List.mem_map.mp hmem
      rw [← hp]
      rfl
  · obtain ⟨name, _, -, ⟨cfg, -, rfl⟩ | ⟨cfg, -, rfl⟩⟩ := Plan.mem_hostLinkOps.mp hop <;> rfl

/-- Of the ops of a plan no two are about the same. -/
theorem nodup_subjects (h : t.WellNamed) : (q.ops.map Op.subject).Nodup := by
  have hnodes := (Plan.withMgmtNetwork_eq q.topo_eq).1
  have hhost : Plan.hostLinkOps q.topo = Plan.hostLinkOps t := by unfold Plan.hostLinkOps; rw [hnodes]
  have hradio : Plan.radioOps q.topo = Plan.radioOps t := by
    unfold Plan.radioOps Topology.namespaceName
    rw [hnodes, (Plan.withMgmtNetwork_eq q.topo_eq).2.2]
  have hwifi : Plan.wifiOps q.topo = Plan.wifiOps t := by unfold Plan.wifiOps; rw [hnodes]
  have h0 : Plan.Below 1 (Plan.nodeOps q.topo (dnsExtraHosts t)) := by
    refine ⟨Plan.nodup_nodeOps _, fun op hop => ?_⟩
    obtain ⟨name, node, -, rfl⟩ := Plan.mem_nodeOps hop
    unfold Plan.nodeOp
    split
    · exact Nat.one_pos
    · split <;> exact Nat.one_pos
  have h1 := h0.append (Plan.radioOps q.topo) (hradio ▸ Plan.nodup_radioOps h) fun op hop => by
    obtain ⟨_, _, _, _, -, -, rfl⟩ := Plan.mem_radioOps hop
    rfl
  have h2 := h1.append _ (Plan.nodup_mgmtOps q.mgmt_eq) fun op => Plan.part_of_mem_mgmtOps q.mgmt_eq
  have h3 := h2.append (q.bridges ++ q.links ++ Plan.hostLinkOps q.topo)
    (hhost ▸ Plan.nodup_interfaces h q.topo_eq q.bridges_eq q.links_eq) q.part_interfaces
  have h4 := h3.append (Plan.linksUpOps q.topo) Plan.nodup_linksUpOps fun op hop => by
    obtain ⟨_, _, -, rfl⟩ := Plan.mem_linksUpOps hop
    rfl
  have h5 := h4.append (Plan.sysctlOps q.topo env.nl) (Plan.nodup_sysctlOps _) fun op hop => by
    obtain ⟨_, _, -, rfl⟩ := Plan.mem_sysctlOps hop
    rfl
  have h6 := h5.append (Plan.dnsOps q.topo) Plan.nodup_dnsOps fun op hop => by
    obtain rfl | ⟨_, _, -, rfl⟩ := Plan.mem_dnsOps hop <;> rfl
  have h7 := h6.append _ (Plan.nodup_stackOps q.declared_eq) fun op hop => by
    obtain ⟨_, _, _, -, rfl⟩ := Plan.mem_stackOps q.declared_eq hop
    rfl
  have h8 := h7.append _ (Plan.nodup_frrOps q.frr_eq) fun op hop => by
    obtain ⟨_, _, _, -, rfl⟩ := Plan.mem_frrOps q.frr_eq hop
    rfl
  have h9 := h8.append (Plan.processOps q.topo) Plan.nodup_processOps fun op hop => by
    obtain ⟨_, _, -, hop⟩ := Plan.exists_of_mem_processOps hop
    exact (Plan.subject_of_mem_nodeProcessOps hop).2
  have h10 := h9.append (Plan.wifiOps q.topo) (hwifi ▸ Plan.nodup_wifiOps h) fun op hop => by
    obtain ⟨_, _, -, _, -, rfl⟩ := Plan.mem_wifiOps.mp hop
    rfl
  have heq : q.ops = Plan.nodeOps q.topo (dnsExtraHosts t) ++ Plan.radioOps q.topo ++ q.mgmt ++
      (q.bridges ++ q.links ++ Plan.hostLinkOps q.topo) ++ Plan.linksUpOps q.topo ++
        Plan.sysctlOps q.topo env.nl ++ Plan.dnsOps q.topo ++ q.declared ++ q.frr ++
          Plan.processOps q.topo ++ Plan.wifiOps q.topo := by
    unfold ops
    simp only [List.append_assoc]
  rw [heq]
  exact h10.1

end Parts

/-- Of the ops of a well named topology's plan no two are about the same. -/
theorem Plan.nodup_subjects {env : Plan.Env} {t : Topology} {inputs : PlanInputs} {p : Plan}
    (h : t.WellNamed) (hp : plan env t inputs = .ok p) : (p.ops.map Op.subject).Nodup := by
  obtain ⟨q, rfl⟩ := plan_eq_ok.mp hp
  exact (((List.perm_insertionSort _ _).map _).nodup_iff).mpr (q.nodup_subjects h)

end NlinkLab
