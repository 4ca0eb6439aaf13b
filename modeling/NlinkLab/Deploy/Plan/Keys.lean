import NlinkLab.Deploy.Op.Key
import NlinkLab.Deploy.Plan.Subjects

/-! Which ops of a plan have one key. An op's key names what it is about, so that in
a well named topology's plan two ops share a key in two cases only: two bridges whose names
have one hash, and the namespace of a node named `mgmt` beside the lab's bridge
namespace. -/

namespace NlinkLab

open Fallible

/-! ### Kinds -/

/-- The kinds of ops. -/
inductive Kind where
  | ns | container | foreign | radio | hostlink | bridge | link | linksup | sysctls | stack | dns
  | dnsEtc | delay | exec | healthcheck | frr | wifi | procs

def Kind.text : Kind → String
  | ns => "ns"
  | container => "container"
  | foreign => "foreign"
  | radio => "radio"
  | hostlink => "hostlink"
  | bridge => "bridge"
  | link => "link"
  | linksup => "linksup"
  | sysctls => "sysctls"
  | stack => "stack"
  | dns => "dns"
  | dnsEtc => "dns-etc"
  | delay => "delay"
  | exec => "exec"
  | healthcheck => "healthcheck"
  | frr => "frr"
  | wifi => "wifi"
  | procs => "procs"

theorem Kind.text_inj {a b : Kind} (h : a.text = b.text) : a = b := by
  cases a <;> cases b <;> first | rfl | exact absurd h (by decide)

/-- What the part of a key after its kind says of what an op of a lab is about, the
lab's nodes of these names. -/
def Kind.Names (lab : LabConfig) (names : List String) (k : Kind) (ident : String) (s : Subject) : Prop :=
  match k with
  | ns => (∃ n, s = .node n ∧ ident = lab.effectivePrefix ++ "-" ++ n) ∨
      s = .mgmtNs ∧ ident = lab.effectivePrefix ++ "-mgmt"
  | container | foreign => s = .node ident
  | radio => ∃ n i, s = .radio n i ∧ ':' ∉ n.toList ∧ ident = n ++ ":" ++ i
  | hostlink => (s = .mgmtBridge ∧ ident = lab.mgmtBridgeName) ∨
      ∃ n idx, s = .mgmtVeth n ∧ names[idx]? = some n ∧ ident = lab.mgmtPeerName idx
  | bridge => ∃ n, s = .bridge n ∧ ident = lab.effectivePrefix ++ "-mgmt:" ++ networkBridgeNameFor n
  | link => ∃ n i, s = .iface n i ∧ ':' ∉ n.toList ∧ ident = n ++ ":" ++ i
  | linksup => s = .linksUp ident
  | sysctls => s = .sysctls ident
  | stack => s = .stack ident
  | dns => s = .dns
  | dnsEtc => ∃ n, s = .dnsEtc n ∧ ident = lab.effectivePrefix ++ "-" ++ n
  | delay => s = .delay ident
  | exec => ∃ n i, s = .exec n i ∧ ':' ∉ n.toList ∧ ident = n ++ ":" ++ toString i
  | healthcheck => s = .healthcheck ident
  | frr => s = .frr ident
  | wifi => ∃ n i, s = .wifi n i ∧ ':' ∉ n.toList ∧ ident = n ++ ":" ++ i
  | procs => False

/-- Two things that share a key: bridges of networks with one hash, or the namespace of
the node `mgmt` and the lab's bridge namespace. -/
def Subject.Clash : Subject → Subject → Prop
  | bridge n, bridge n' => networkBridgeNameFor n = networkBridgeNameFor n'
  | node n, mgmtNs | mgmtNs, node n => n = "mgmt"
  | _, _ => False

theorem mgmtPeerName_inj {lab : LabConfig} {i j : Nat} (h : lab.mgmtPeerName i = lab.mgmtPeerName j) :
    i = j := by
  unfold LabConfig.mgmtPeerName at h
  exact Nat.repr_injective ((String.append_right_inj _).mp h)

theorem mgmtBridgeName_ne {lab : LabConfig} {i : Nat} : lab.mgmtBridgeName ≠ lab.mgmtPeerName i := by
  intro h
  unfold LabConfig.mgmtBridgeName LabConfig.mgmtPeerName at h
  have hchars := congrArg (fun s : String => s.toList[1]?) h
  simp [String.toList_append] at hchars

theorem eq_mgmt_of_ns {p n : String} (h : p ++ "-" ++ n = p ++ "-mgmt") : n = "mgmt" := by
  have hmgmt : "-mgmt" = "-" ++ "mgmt" := by decide
  rw [hmgmt, String.append_assoc, String.append_right_inj, String.append_right_inj] at h
  exact h

/-- What a kind and the rest of a key say is one thing, or two that clash. -/
theorem Kind.Names.inj {lab : LabConfig} {names : List String} {k : Kind} {ident : String} {s s' : Subject}
    (h : k.Names lab names ident s) (h' : k.Names lab names ident s') : s = s' ∨ s.Clash s' := by
  have hpair : ∀ {n n' i i' : String}, ':' ∉ n.toList → ':' ∉ n'.toList →
      n ++ ":" ++ i = n' ++ ":" ++ i' → n = n' ∧ i = i' := fun hn hn' heq =>
    append_inj_of_sep (c := ':') hn hn' heq
  cases k
  case ns =>
    rcases h with ⟨n, rfl, hi⟩ | ⟨rfl, hi⟩ <;> rcases h' with ⟨n', rfl, hi'⟩ | ⟨rfl, hi'⟩
    · rw [hi, String.append_right_inj] at hi'
      exact .inl (congrArg _ hi')
    · exact .inr (eq_mgmt_of_ns (hi.symm.trans hi'))
    · exact .inr (eq_mgmt_of_ns (hi'.symm.trans hi))
    · exact .inl rfl
  case hostlink =>
    rcases h with ⟨rfl, hi⟩ | ⟨n, idx, rfl, hn, hi⟩ <;> rcases h' with ⟨rfl, hi'⟩ | ⟨n', idx', rfl, hn', hi'⟩
    · exact .inl rfl
    · exact absurd (hi.symm.trans hi') mgmtBridgeName_ne
    · exact absurd (hi'.symm.trans hi) mgmtBridgeName_ne
    · obtain rfl := mgmtPeerName_inj (hi.symm.trans hi')
      rw [hn] at hn'
      exact .inl (congrArg _ (Option.some.inj hn'))
  case bridge =>
    obtain ⟨n, rfl, hi⟩ := h
    obtain ⟨n', rfl, hi'⟩ := h'
    rw [hi, String.append_right_inj] at hi'
    exact .inr hi'
  case dnsEtc =>
    obtain ⟨n, rfl, hi⟩ := h
    obtain ⟨n', rfl, hi'⟩ := h'
    rw [hi, String.append_right_inj] at hi'
    exact .inl (congrArg _ hi')
  case exec =>
    obtain ⟨n, i, rfl, hn, hi⟩ := h
    obtain ⟨n', i', rfl, hn', hi'⟩ := h'
    obtain ⟨rfl, heq⟩ := hpair hn hn' (hi.symm.trans hi')
    exact .inl (congrArg _ (Nat.repr_injective heq))
  case radio | link | wifi =>
    obtain ⟨n, i, rfl, hn, hi⟩ := h
    obtain ⟨n', i', rfl, hn', hi'⟩ := h'
    obtain ⟨rfl, rfl⟩ := hpair hn hn' (hi.symm.trans hi')
    exact .inl rfl
  case procs => exact h.elim
  all_goals exact .inl (Eq.trans h (Eq.symm h'))

namespace Op

/-- The op's kind, its key and its subject fit the lab. -/
def Named (lab : LabConfig) (names : List String) (o : Op) : Prop :=
  ∃ k : Kind, o.kind = k.text ∧ k.Names lab names o.ident o.subject

theorem Named.inj {lab : LabConfig} {names : List String} {o o' : Op} (h : o.Named lab names)
    (h' : o'.Named lab names) (hk : o.key = o'.key) : o.subject = o'.subject ∨ o.subject.Clash o'.subject := by
  obtain ⟨k, hkind, hnames⟩ := h
  obtain ⟨k', hkind', hnames'⟩ := h'
  obtain ⟨hkk, hident⟩ := key_inj.mp hk
  obtain rfl := Kind.text_inj (hkind.symm.trans (hkk.trans hkind'))
  rw [← hident] at hnames'
  exact hnames.inj hnames'

end Op

namespace Plan

/-- The ops of host-reachable management: the bridge, and a veth numbered as its node is. -/
theorem mem_mgmtOps {t : Topology} {ops : List Op} (h : mgmtOps t = .ok ops) {op : Op} (hop : op ∈ ops) :
    (∃ ip len, op = .createMgmtBridge t.lab.mgmtBridgeName ip len) ∨
      ∃ idx name ip len, t.nodes.keys[idx]? = some name ∧
        op = .createMgmtVeth name (t.lab.mgmtPeerName idx) t.lab.mgmtBridgeName ip len := by
  unfold mgmtOps at h
  split at h
  · split_ifs at h
    · simp only [bind_eq_ok, pure_eq_ok] at h
      obtain ⟨mgmt, -, rfl⟩ := h
      rcases List.mem_cons.mp hop with rfl | hop
      · exact .inl ⟨_, _, rfl⟩
      · obtain ⟨⟨⟨⟨name, node⟩, idx⟩, ip⟩, hmem, he⟩ := List.mem_filterMap.mp hop
        dsimp only at he
        split_ifs at he
        cases he
        have hidx := List.mk_mem_zipIdx_iff_getElem?.mp (List.of_mem_zip hmem).1
        refine .inr ⟨idx, name, ip, _, ?_, rfl⟩
        rw [← Std.ExtTreeMap.map_fst_toList_eq_keys, List.getElem?_map, hidx]
        rfl
    · cases h
      exact absurd hop List.not_mem_nil
  · cases h
    exact absurd hop List.not_mem_nil

/-- Each op of the links is a link's. -/
theorem exists_of_mem_linkOps {t : Topology} (links : List Link) {taps : BTreeMap String Nat}
    {ops : List Op} (h : linkOpsFrom t taps links = .ok ops) {op : Op} (hop : op ∈ ops) :
    ∃ link ∈ links, ∃ taps taps', linkOp t taps link = .ok (taps', op) := by
  induction links generalizing taps ops with
  | nil =>
    cases h
    exact absurd hop List.not_mem_nil
  | cons link links ih =>
    simp only [linkOpsFrom, bind_eq_ok, pure_eq_ok] at h
    obtain ⟨⟨taps', op'⟩, hop', rest, hrest, rfl⟩ := h
    rcases List.mem_cons.mp hop with rfl | hop
    · exact ⟨link, List.mem_cons_self, taps, taps', hop'⟩
    · obtain ⟨link', hmem, hlink⟩ := ih hrest hop
      exact ⟨link', List.mem_cons_of_mem _ hmem, hlink⟩

end Plan

namespace Parts

variable {env : Plan.Env} {t : Topology} {inputs : PlanInputs} (q : Parts env t inputs)

/-- Every op of a well named topology's plan has the lab's names. -/
theorem named (h : t.WellNamed) {op : Op} (hop : op ∈ q.ops) :
    op.Named t.lab t.nodes.keys := by
  obtain ⟨hnodes, hlinks, hlab⟩ := Plan.withMgmtNetwork_eq q.topo_eq
  have hcolon : ∀ {name : String} {node : Node}, q.topo.nodes[name]? = some node → ':' ∉ name.toList := by
    intro name node hnode
    rw [hnodes] at hnode
    exact Validator.colon_notMem_of_isValidName (h.node hnode)
  simp only [Parts.ops, List.mem_append, or_assoc] at hop
  rcases hop with hop | hop | hop | hop | hop | hop | hop | hop | hop | hop | hop | hop | hop
  · obtain ⟨name, node, -, rfl⟩ := Plan.mem_nodeOps hop
    unfold Plan.nodeOp Topology.namespaceName
    rw [hlab]
    split
    · exact ⟨.foreign, rfl, rfl⟩
    · split
      · exact ⟨.container, rfl, rfl⟩
      · exact ⟨.ns, rfl, .inl ⟨name, rfl, rfl⟩⟩
  · obtain ⟨_, name, node, wifi, hnode, -, rfl⟩ := Plan.mem_radioOps hop
    exact ⟨.radio, rfl, name, wifi.name, rfl, hcolon hnode, rfl⟩
  · rcases Plan.mem_mgmtOps q.mgmt_eq hop with ⟨ip, len, rfl⟩ | ⟨idx, name, ip, len, hidx, rfl⟩
    · exact ⟨.hostlink, rfl, .inl ⟨rfl, by rw [hlab]; rfl⟩⟩
    · rw [hnodes] at hidx
      exact ⟨.hostlink, rfl, .inr ⟨name, idx, rfl, hidx, by rw [hlab]; rfl⟩⟩
  · rcases Plan.mem_bridgeOps q.bridges_eq hop with rfl | ⟨name, network, -, rfl | ⟨member, k, -, hop⟩⟩
    · exact ⟨.ns, rfl, .inr ⟨rfl, by rw [← hlab]; rfl⟩⟩
    · refine ⟨.bridge, rfl, name, rfl, ?_⟩
      have hns : "-mgmt:" = "-mgmt" ++ ":" := by decide
      rw [hns, ← String.append_assoc, ← hlab]
      rfl
    · obtain ⟨ep, -, hmem, rfl⟩ := Plan.memberOp_eq_ok hop
      obtain ⟨node, hnode⟩ := Option.isSome_iff_exists.mp (Std.ExtTreeMap.mem_iff_isSome_getElem?.mp hmem)
      exact ⟨.link, rfl, ep.node, ep.iface, rfl, hcolon hnode, rfl⟩
  · obtain ⟨link, -, taps, taps', hlink⟩ := Plan.exists_of_mem_linkOps _ q.links_eq hop
    obtain ⟨a, b, -, -, ha, hb, c, d, hcd, hop⟩ := Plan.linkOp_eq_ok hlink
    have hc : c.node ∈ q.topo.nodes := by rcases hcd with hcd | hcd <;> cases hcd <;> assumption
    obtain ⟨node, hnode⟩ := Option.isSome_iff_exists.mp (Std.ExtTreeMap.mem_iff_isSome_getElem?.mp hc)
    rcases hop with ⟨-, rfl⟩ | ⟨-, -, rfl⟩
    · exact ⟨.link, rfl, c.node, c.iface, rfl, hcolon hnode, rfl⟩
    · exact ⟨.link, rfl, c.node, c.iface, rfl, hcolon hnode, rfl⟩
  · obtain ⟨name, node, hnode, ⟨cfg, -, rfl⟩ | ⟨cfg, -, rfl⟩⟩ := Plan.mem_hostLinkOps.mp hop
    · exact ⟨.link, rfl, name, cfg.name, rfl, hcolon hnode, rfl⟩
    · exact ⟨.link, rfl, name, cfg.name, rfl, hcolon hnode, rfl⟩
  · obtain ⟨name, _, -, rfl⟩ := Plan.mem_linksUpOps hop
    exact ⟨.linksup, rfl, rfl⟩
  · obtain ⟨name, _, -, rfl⟩ := Plan.mem_sysctlOps hop
    exact ⟨.sysctls, rfl, rfl⟩
  · obtain rfl | ⟨name, _, -, rfl⟩ := Plan.mem_dnsOps hop
    · exact ⟨.dns, rfl, rfl⟩
    · unfold Topology.namespaceName
      rw [hlab]
      exact ⟨.dnsEtc, rfl, name, rfl, rfl⟩
  · obtain ⟨name, _, _, -, rfl⟩ := Plan.mem_stackOps q.declared_eq hop
    exact ⟨.stack, rfl, rfl⟩
  · obtain ⟨name, _, _, -, rfl⟩ := Plan.mem_frrOps q.frr_eq hop
    exact ⟨.frr, rfl, rfl⟩
  · obtain ⟨name, node, hnode, hrun⟩ := Plan.exists_of_mem_processOps hop
    rcases List.mem_append.mp hrun with hrun | hrun
    · rcases List.mem_append.mp hrun with hrun | hrun
      · obtain ⟨delay, -, rfl⟩ := Option.map_eq_some_iff.mp (Option.mem_toList.mp hrun)
        exact ⟨.delay, rfl, rfl⟩
      · rcases List.mem_append.mp hrun with hrun | hrun
        all_goals
          obtain ⟨e, -, he⟩ := List.mem_filterMap.mp hrun
          dsimp only at he
          split_ifs at he
          cases he
          exact ⟨.exec, rfl, name, _, rfl, hcolon hnode, rfl⟩
    · obtain ⟨cmd, -, rfl⟩ := Option.map_eq_some_iff.mp (Option.mem_toList.mp hrun)
      exact ⟨.healthcheck, rfl, rfl⟩
  · obtain ⟨name, node, hnode, wifi, -, rfl⟩ := Plan.mem_wifiOps.mp hop
    exact ⟨.wifi, rfl, name, wifi.name, rfl, hcolon hnode, rfl⟩

end Parts

namespace Plan

/-- Two ops of a well named topology's plan with one key are one op, or are about two
things that clash. -/
theorem eq_of_key {env : Env} {t : Topology} {inputs : PlanInputs} {p : Plan} (h : t.WellNamed)
    (hp : plan env t inputs = .ok p) {o o' : Op} (ho : o ∈ p.ops) (ho' : o' ∈ p.ops)
    (hk : o.key = o'.key) : o = o' ∨ o.subject.Clash o'.subject := by
  have hnodup := nodup_subjects h hp
  obtain ⟨q, rfl⟩ := plan_eq_ok.mp hp
  rcases (q.named h (mem_sorted.mp ho)).inj (q.named h (mem_sorted.mp ho')) hk with hs | hs
  · exact .inl (List.inj_on_of_nodup_map hnodup ho ho' hs)
  · exact .inr hs

end Plan

end NlinkLab
