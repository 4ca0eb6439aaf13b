import NlinkLab.Deploy.Plan.Gateways
import NlinkLab.Validator.Values

/-! Whether a per-pair rule covers its pair. A source's tree is on its first member
interface in the network and knows a destination by one address, the first of the first
member's port that has one; the rules cover their pairs exactly when that is all the
source and the destination have there (`pairsCovered_iff`). -/

namespace NlinkLab.PerPair

open Fallible Plan Routes

/-- What a rule does to its packets: a netem, and a rate cap. -/
abbrev Effect := NetemConfig × Option Nat

/-- The rule of a tree for the packets to an address: the first with the address. -/
def peerFor (rules : List PeerImpairment) (ip : IpAddr) : Option PeerImpairment := rules.find? (·.dst = ip)

/-- The addresses a node has on a network. -/
def networkAddresses (network : Network) (name : String) : List String :=
  network.ports.toList.flatMap fun (key, port) =>
    let owner := match EndpointRef.parse key with
      | some ep => some ep.node
      | none => port.interface.map fun _ => key
    if owner = some name then port.addresses else []

/-- The rule of a source for an address: the first whose destination is found at it. -/
def ruleAt (network : Network) (src : String) (ip : IpAddr) : Option NetworkImpairment :=
  (network.impairments.filter (·.src = src)).find? fun r => (networkIps network)[r.dst]? = some ip

section

variable (nl : Nlink) (vals : Values) (t : Topology)

/-- What a rule does on an interface of its source. -/
def effect (netName iface : String) (rule : NetworkImpairment) : Except Error Effect := do
  let seed ← Seed.netemSeed t rule.impairment (Seed.pairKey netName rule.src rule.dst rule.src iface)
  let netem ← buildNetem nl vals rule.impairment seed
  let cap ← rule.rateCap.mapM vals.parseRateBps
  return (netem, cap)

/-- The netem of an interface's own impairment. -/
def ownNetem (name iface : String) : Except Error (Option NetemConfig) :=
  (t.impairments[name ++ ":" ++ iface]?).mapM fun imp => do
    let seed ← Seed.netemSeed t imp (Seed.endpointKey name iface)
    buildNetem nl vals imp seed

/-- The traffic control planned for a node. -/
def nodeTc (name : String) (partitions : List String) : Except Error (List DeclaredTc) :=
  (declareNodeTc nl vals {} name (plannedTopology t) partitions).map (·.tc)

/-- No rule of a source in any network names the node. -/
def Unnamed (src name : String) : Prop :=
  ∀ (netName : String) (network : Network), t.networks[netName]? = some network →
    ∀ r ∈ network.impairments, r.src = src → r.dst ≠ name

/-- A rule's packets meet its netem and rate cap on every interface of its source in the
network, at every address its destination has there; those to a node that no rule of the
source names meet the interface's own impairment. -/
structure Covered (netName : String) (network : Network) (rule : NetworkImpairment) (tc : List DeclaredTc) : Prop where
  pair : ∀ iface, (rule.src, iface) ∈ memberIfaces network → ∀ addr ∈ networkAddresses network rule.dst,
    ∀ ip, hostPart addr = some ip → ∃ rules default peer,
      { iface, spec := .perPair rules default : DeclaredTc } ∈ tc ∧ peerFor rules ip = some peer ∧
        effect nl vals t netName iface rule = .ok (peer.netem, peer.rateCap)
  others : ∀ iface, (rule.src, iface) ∈ memberIfaces network → ∀ name, Unnamed t rule.src name →
    ∀ addr ∈ plannedAddresses t name, ∀ ip, hostPart addr = some ip → ∃ rules default,
      { iface, spec := .perPair rules default : DeclaredTc } ∈ tc ∧ peerFor rules ip = none ∧
        ownNetem nl vals t rule.src iface = .ok default

/-- Every rule's source has its traffic control planned, and the rule covers its pair. -/
def PairsCovered (partitions : List String) : Prop :=
  ∀ netName network, t.networks[netName]? = some network → ∀ rule ∈ network.impairments,
    ∃ tc, nodeTc nl vals t rule.src partitions = .ok tc ∧ Covered nl vals t netName network rule tc

/-- The source and destination of a rule are in the network as the tree takes them to be. -/
structure Resolves (netName : String) (network : Network) (rule : NetworkImpairment) : Prop where
  /-- A member of the destination has an address at its port. -/
  found : ((networkIps network)[rule.dst]?).isSome
  /-- The source has one interface. -/
  once : ∀ iface, (rule.src, iface) ∈ memberIfaces network → (networkIfaces network)[rule.src]? = some iface
  /-- Every address of the destination is that of a rule of the source that does the same. -/
  addressed : ∀ addr ∈ networkAddresses network rule.dst, ∀ ip, hostPart addr = some ip →
    ∀ iface, (networkIfaces network)[rule.src]? = some iface → ∃ rule', ruleAt network rule.src ip = some rule' ∧
      effect nl vals t netName iface rule' = effect nl vals t netName iface rule
  /-- No node the source has no rule for has the destination's address. -/
  apart : ∀ name, Unnamed t rule.src name → ∀ addr ∈ plannedAddresses t name,
    hostPart addr ≠ (networkIps network)[rule.dst]?

end

/-! ### Interfaces and addresses -/

theorem mem_memberIfaces {network : Network} {name iface : String} :
    (name, iface) ∈ memberIfaces network ↔ ∃ ep ∈ network.members.filterMap EndpointRef.parse, ep.node = name ∧ ep.iface = iface := by
  unfold memberIfaces
  simp

theorem getElem?_networkIfaces (network : Network) (name : String) :
    (networkIfaces network)[name]? =
      ((network.members.filterMap EndpointRef.parse).find? (·.node = name)).map (·.iface) := by
  have hget := BTreeMap.getElem?_foldl_insertIfNew (memberIfaces network) ∅ name
  unfold networkIfaces
  rw [memberIfaces, List.foldl_map] at hget
  rw [hget, List.find?_map]
  simp [Function.comp_def]

theorem mem_of_networkIfaces {network : Network} {name iface : String} (h : (networkIfaces network)[name]? = some iface) :
    (name, iface) ∈ memberIfaces network := by
  rw [getElem?_networkIfaces] at h
  obtain ⟨ep, hep, rfl⟩ := Option.map_eq_some_iff.mp h
  exact mem_memberIfaces.mpr ⟨ep, List.mem_of_find?_eq_some hep, of_decide_eq_true (List.find?_some hep :), rfl⟩

theorem exists_networkIfaces {network : Network} {name : String}
    (h : name ∈ (network.members.filterMap EndpointRef.parse).map (·.node)) :
    ∃ iface, (networkIfaces network)[name]? = some iface := by
  obtain ⟨ep, hep, hname⟩ := List.mem_map.mp h
  rw [getElem?_networkIfaces]
  cases hfind : (network.members.filterMap EndpointRef.parse).find? (·.node = name) with
  | none => exact absurd hname (by simpa using List.find?_eq_none.mp hfind ep hep)
  | some ep' => exact ⟨ep'.iface, rfl⟩

/-- The address at a member's port that its node is found at. -/
def memberIp (network : Network) (member : String) : Option IpAddr :=
  (network.ports[member]?.bind (·.addresses.head?)).bind fun addr =>
    (splitOnce addr '/').bind fun (ip, _) => IpAddr.parse ip

theorem exists_member_of_networkIps {network : Network} {name : String} {ip : IpAddr}
    (h : (networkIps network)[name]? = some ip) :
    ∃ member ep, EndpointRef.parse member = some ep ∧ ep.node = name ∧ memberIp network member = some ip := by
  have hfold : ∀ {f : BTreeMap String IpAddr → String → BTreeMap String IpAddr} {P : Prop},
      (∀ m member, (f m member)[name]? = some ip → m[name]? = some ip ∨ P) →
        ∀ (members : List String) (m : BTreeMap String IpAddr),
          (members.foldl f m)[name]? = some ip → m[name]? = some ip ∨ P := by
    intro f P hf members
    induction members with
    | nil => exact fun m h => .inl h
    | cons member members ih => exact fun m h => (ih _ h).elim (hf m member) .inr
  unfold networkIps at h
  refine (hfold (fun m member hm => ?_) network.members ∅ h).resolve_left (by simp)
  dsimp only at hm
  split at hm
  · rename_i ep ip' hep hip
    rw [Std.ExtTreeMap.getElem?_insertIfNew] at hm
    split_ifs at hm with hnew
    · cases hm
      exact .inr ⟨member, ep, hep, Std.LawfulEqOrd.eq_of_compare hnew.1, hip⟩
    · exact .inl hm
  · exact .inl hm

/-- The address a node is found at is one it has on the network. -/
theorem exists_of_networkIps {network : Network} {name : String} {ip : IpAddr}
    (h : (networkIps network)[name]? = some ip) : ∃ addr ∈ networkAddresses network name, hostPart addr = some ip := by
  obtain ⟨member, ep, hep, rfl, hip⟩ := exists_member_of_networkIps h
  obtain ⟨addr, haddr, hip⟩ := Option.bind_eq_some_iff.mp hip
  obtain ⟨port, hport, hhead⟩ := Option.bind_eq_some_iff.mp haddr
  obtain ⟨⟨text, rest⟩, hcut, hip⟩ := Option.bind_eq_some_iff.mp hip
  refine ⟨addr, List.mem_flatMap.mpr ⟨_, Std.ExtTreeMap.mem_toList_iff_getElem?_eq_some.mpr hport, ?_⟩, ?_⟩
  · simp only [hep, if_true]
    exact List.mem_of_head? hhead
  · have htext : text = before '/' addr := by
      unfold splitOnce at hcut
      dsimp only at hcut
      split at hcut
      · cases hcut
      · cases hcut
        rfl
    rwa [htext] at hip

/-! ### Trees -/

section

variable {nl : Nlink} {vals : Values} {t u : Topology}

/-- A rule and the peer it becomes. -/
def IsPeer (nl : Nlink) (vals : Values) (t : Topology) (netName : String) (network : Network) (iface : String)
    (rule : NetworkImpairment) (peer : PeerImpairment) : Prop :=
  (networkIps network)[rule.dst]? = some peer.dst ∧ effect nl vals t netName iface rule = .ok (peer.netem, peer.rateCap)

theorem forall₂_congr_of_mem {A B : Type} {R S : A → B → Prop} {l : List A} (h : ∀ a ∈ l, ∀ b, R a b ↔ S a b)
    {l' : List B} : List.Forall₂ R l l' ↔ List.Forall₂ S l l' := by
  induction l generalizing l' with
  | nil => simp
  | cons a l ih =>
    have ih := fun {l'} => @ih (fun a' ha' => h a' (List.mem_cons_of_mem _ ha')) l'
    simp only [List.forall₂_cons_left_iff, ih, h a List.mem_cons_self]

theorem mapM_mapError {E E' A B : Type} {f : A → Except E B} {g : A → E → E'} {o : Option A} {r : Option B} :
    (o.mapM fun a => (f a).mapError (g a)) = .ok r ↔ o.mapM f = .ok r := by
  cases o with
  | none => exact ⟨fun h => by cases h; rfl, fun h => by cases h; rfl⟩
  | some a =>
    rw [Option.mapM_some, Option.mapM_some]
    cases f a with
    | error e => exact iff_of_false nofun nofun
    | ok b => exact ⟨fun h => by cases h; rfl, fun h => by cases h; rfl⟩

theorem perPairRules_eq_ok {name netName iface : String} {network : Network} {rules : List NetworkImpairment}
    (hsrc : ∀ r ∈ rules, r.src = name) {peers : List PeerImpairment} :
    perPairRules nl vals name t netName network rules = .ok (iface, peers) ↔
      (networkIfaces network)[name]? = some iface ∧
        List.Forall₂ (IsPeer nl vals t netName network iface) rules peers := by
  unfold perPairRules
  dsimp only
  cases hiface : (networkIfaces network)[name]? with
  | none =>
    refine iff_of_false ?_ ?_
    · rintro ⟨⟩
    · rintro ⟨⟨⟩, -⟩
  | some iface' =>
    simp only [bind_eq_ok, pure_eq_ok, mapM_eq_ok, Prod.mk.injEq, exists_eq_right_right, Option.some.injEq]
    rw [and_comm]
    refine and_congr_right fun heq => forall₂_congr_of_mem fun rule hrule peer => ?_
    subst heq
    unfold IsPeer effect
    rw [hsrc rule hrule]
    cases hip : (networkIps network)[rule.dst]? with
    | none =>
      refine iff_of_false ?_ ?_
      · rintro ⟨⟩
      · rintro ⟨⟨⟩, -⟩
    | some dst =>
      simp only [bind_eq_ok, pure_eq_ok, mapM_mapError, Option.some.injEq, Prod.mk.injEq]
      constructor
      · rintro ⟨seed, hseed, netem, hnetem, cap, hcap, rfl⟩
        exact ⟨rfl, seed, hseed, netem, hnetem, cap, hcap, rfl, rfl⟩
      · rintro ⟨rfl, seed, hseed, netem, hnetem, cap, hcap, rfl, rfl⟩
        exact ⟨seed, hseed, _, hnetem, _, hcap, rfl⟩

/-- The networks a node is the source of rules in. -/
def sourced (t : Topology) (name : String) : List (String × Network) :=
  t.networks.toList.filter fun (_, network) => network.impairments.filter (·.src = name) ≠ []

/-- A node's tree in a network. -/
def tree (nl : Nlink) (vals : Values) (t : Topology) (name : String) (e : String × Network) :
    Except Error (String × List PeerImpairment) :=
  perPairRules nl vals name t e.1 e.2 (e.2.impairments.filter (·.src = name))

theorem perPairSources_eq_ok {name : String} {out : BTreeMap String (List PeerImpairment)} :
    perPairSources nl vals name t = .ok out ↔ ∃ trees, (sourced t name).mapM (tree nl vals t name) = .ok trees ∧
      out = trees.foldl (fun m e => m.insert e.1 e.2) ∅ := by
  have hfold : ∀ (l : List (String × Network)) (base out : BTreeMap String (List PeerImpairment)),
      l.foldlM (fun out e => do
        let rules := e.2.impairments.filter (·.src = name)
        if rules = [] then return out
        else
          let tree ← perPairRules nl vals name t e.1 e.2 rules
          return out.insert tree.1 tree.2) base = (.ok out : Except Error _) ↔
      ∃ trees, (l.filter fun e => e.2.impairments.filter (·.src = name) ≠ []).mapM
        (tree nl vals t name) = .ok trees ∧ out = trees.foldl (fun m e => m.insert e.1 e.2) base := by
    intro l
    induction l with
    | nil =>
      intro base out
      rw [List.foldlM_nil, List.filter_nil, List.mapM_nil, pure_eq_ok]
      constructor
      · rintro rfl
        exact ⟨[], rfl, rfl⟩
      · rintro ⟨trees, htrees, rfl⟩
        cases htrees
        rfl
    | cons e l ih =>
      intro base out
      rw [List.foldlM_cons]
      by_cases hrules : e.2.impairments.filter (·.src = name) = []
      · rw [List.filter_cons_of_neg (by simpa using hrules)]
        simp only [hrules, if_true, bind_eq_ok, pure_eq_ok, exists_eq_left']
        exact ih base out
      · rw [List.filter_cons_of_pos (by simpa using hrules), List.mapM_cons]
        simp only [hrules, if_false, bind_eq_ok, pure_eq_ok, ih]
        constructor
        · rintro ⟨m, ⟨e', htree, rfl⟩, trees, htrees, rfl⟩
          exact ⟨e' :: trees, ⟨e', htree, trees, htrees, rfl⟩, rfl⟩
        · rintro ⟨_, ⟨e', htree, trees, htrees, rfl⟩, rfl⟩
          exact ⟨_, ⟨e', htree, rfl⟩, trees, htrees, rfl⟩
  exact hfold _ _ _

/-! ### The topology as it is planned -/

/-- Only the networks of a topology change before it is planned. -/
theorem planned_eq (t : Topology) : plannedTopology t = { t with networks := (plannedTopology t).networks } := by
  unfold plannedTopology withMgmtNetwork
  split
  · split_ifs
    · rfl
    · rename_i subnet _ _
      cases mgmtAddresses subnet t.nodes.size with
      | error e => rfl
      | ok mgmt => rfl
  · rfl

theorem planned_lab (t : Topology) : (plannedTopology t).lab = t.lab := by rw [planned_eq]

theorem planned_impairments (t : Topology) : (plannedTopology t).impairments = t.impairments := by rw [planned_eq]

theorem planned_qdiscs (t : Topology) : (plannedTopology t).qdiscs = t.qdiscs := by rw [planned_eq]

theorem planned_rateLimits (t : Topology) : (plannedTopology t).rateLimits = t.rateLimits := by rw [planned_eq]

theorem netemSeed_planned (t : Topology) (imp : Impairment) (key : String) :
    Seed.netemSeed (plannedTopology t) imp key = Seed.netemSeed t imp key := by
  unfold Seed.netemSeed
  rw [planned_lab]

theorem effect_planned (netName iface : String) (rule : NetworkImpairment) :
    effect nl vals (plannedTopology t) netName iface rule = effect nl vals t netName iface rule := by
  unfold effect
  rw [netemSeed_planned]

/-- The management network has no rules. -/
theorem mem_sourced (h : t.valid nl vals) {name netName : String} {network : Network} :
    (netName, network) ∈ sourced (plannedTopology t) name ↔
      t.networks[netName]? = some network ∧ network.impairments.filter (·.src = name) ≠ [] := by
  unfold sourced
  rw [List.mem_filter, Std.ExtTreeMap.mem_toList_iff_getElem?_eq_some, decide_eq_true_iff]
  refine and_congr_left fun hrules => ⟨fun hnet => ?_, network_planned h⟩
  unfold plannedTopology withMgmtNetwork at hnet
  split at hnet
  · split_ifs at hnet
    · exact hnet
    · rename_i subnet _ _
      cases hmgmt : mgmtAddresses subnet t.nodes.size with
      | error e =>
        rw [hmgmt] at hnet
        exact hnet
      | ok mgmt =>
        rw [hmgmt] at hnet
        have hnet := (Std.ExtTreeMap.getElem?_insert ..).symm.trans hnet
        split_ifs at hnet
        · cases hnet
          exact absurd rfl hrules
        · exact hnet
  · exact hnet

/-- A node's interface is in one network. -/
theorem network_unique (h : t.valid nl vals) {name iface n n' : String} {network network' : Network}
    (hnet : t.networks[n]? = some network) (hnet' : t.networks[n']? = some network')
    (hmem : (name, iface) ∈ memberIfaces network) (hmem' : (name, iface) ∈ memberIfaces network') :
    n = n' ∧ network = network' := by
  have hnamed := Topology.wellNamed h
  have hsource := (memberIfaces_of_declared hnamed hnet).2 _ hmem
  have hsource' := (memberIfaces_of_declared hnamed hnet').2 _ hmem'
  obtain rfl := memberSource_inj (hnamed.source_unique hsource hsource')
  exact ⟨rfl, Option.some.inj (hnet.symm.trans hnet')⟩

/-- A tree and the network it is of. -/
def IsTree (nl : Nlink) (vals : Values) (t : Topology) (name iface : String) (peers : List PeerImpairment)
    (netName : String) (network : Network) : Prop :=
  t.networks[netName]? = some network ∧ network.impairments.filter (·.src = name) ≠ [] ∧
    (networkIfaces network)[name]? = some iface ∧
    List.Forall₂ (IsPeer nl vals t netName network iface) (network.impairments.filter (·.src = name)) peers

theorem tree_eq_ok (h : t.valid nl vals) {name iface : String} {peers : List PeerImpairment} {e : String × Network}
    (he : e ∈ sourced (plannedTopology t) name) :
    tree nl vals (plannedTopology t) name e = .ok (iface, peers) ↔ IsTree nl vals t name iface peers e.1 e.2 := by
  obtain ⟨hnet, hrules⟩ := (mem_sourced h).mp he
  unfold tree
  rw [perPairRules_eq_ok fun r hr => of_decide_eq_true (List.mem_filter.mp hr).2]
  unfold IsTree IsPeer
  simp only [effect_planned, hnet, hrules, ne_eq, not_false_eq_true, true_and]

/-- The trees of a node are those of the networks it is the source of rules in. -/
theorem getElem?_perPairSources (h : t.valid nl vals) {name : String} {out : BTreeMap String (List PeerImpairment)}
    (hp : perPairSources nl vals name (plannedTopology t) = .ok out) {iface : String} {peers : List PeerImpairment} :
    out[iface]? = some peers ↔ ∃ netName network, IsTree nl vals t name iface peers netName network := by
  obtain ⟨trees, htrees, rfl⟩ := perPairSources_eq_ok.mp hp
  have hmem : ∀ {iface peers}, (iface, peers) ∈ trees →
      ∃ netName network, IsTree nl vals t name iface peers netName network := by
    intro iface peers hin
    obtain ⟨e, he, htree⟩ := mem_of_mapM_eq_ok htrees hin
    exact ⟨e.1, e.2, (tree_eq_ok h he).mp htree⟩
  constructor
  · intro hget
    rcases BTreeMap.mem_of_foldl_insert hget with hin | ⟨hempty, -⟩
    · exact hmem hin
    · simp at hempty
  · rintro ⟨netName, network, htree⟩
    have hin : (iface, peers) ∈ trees := by
      have he := (mem_sourced h).mpr ⟨htree.1, htree.2.1⟩
      obtain ⟨e', hin, he'⟩ := exists_of_mapM_eq_ok htrees he
      cases he'.symm.trans ((tree_eq_ok h he).mpr htree)
      exact hin
    obtain ⟨peers', hget⟩ := Option.isSome_iff_exists.mp
      (BTreeMap.isSome_foldl_insert (m := ∅) (.inl ⟨peers, hin⟩))
    rw [hget]
    rcases BTreeMap.mem_of_foldl_insert hget with hin' | ⟨hempty, -⟩
    · -- of two trees on an interface both are of the network it is in
      obtain ⟨netName', network', htree'⟩ := hmem hin'
      obtain ⟨rfl, rfl⟩ := network_unique h htree.1 htree'.1 (mem_of_networkIfaces htree.2.2.1)
        (mem_of_networkIfaces htree'.2.2.1)
      have he := (mem_sourced h).mpr ⟨htree.1, htree.2.1⟩
      cases ((tree_eq_ok h he).mpr htree).symm.trans ((tree_eq_ok h he).mpr htree')
      rfl
    · simp at hempty

/-! ### A node's traffic control -/

/-- The root of an interface. -/
def rootTc (nl : Nlink) (vals : Values) (name : String) (t : Topology)
    (perPair : BTreeMap String (List PeerImpairment)) (iface : String) : Except Error (List TcSpec) :=
  let ep := name ++ ":" ++ iface
  match perPair[iface]? with
  | some rules => do
    let default ← ownNetem nl vals t name iface
    match nl.perPair iface rules default with
    | some e => throw (.nlink ("per-pair impairments on '" ++ ep ++ "'") e)
    | none => pure [.perPair rules default]
  | none =>
    match t.impairments[ep]?, t.qdiscs[ep]?, t.rateLimits[ep]? with
    | some imp, _, _ => do
      let seed ← Seed.netemSeed t imp (Seed.endpointKey name iface)
      pure [.netem (← buildNetem nl vals imp seed)]
    | none, some qdisc, _ => do pure [.qdisc (← buildQdisc vals qdisc)]
    | none, none, some limit => do pure [← rateLimiter vals ep limit]
    | none, none, none => pure []

theorem bind_eq_map {E A B C : Type} {x : Except E A} {f : A → Except E B} {f' : A → Except E C} {g : C → B}
    (h : ∀ a, f a = (f' a).map g) : x >>= f = (x >>= f').map g := by
  cases x with
  | error e => rfl
  | ok a => exact h a

theorem declareIfaceTc_eq (name iface : String) (partitions : List String)
    (perPair : BTreeMap String (List PeerImpairment)) :
    declareIfaceTc nl vals name t partitions perPair iface = (rootTc nl vals name t perPair iface).map fun root =>
      ((if name ++ ":" ++ iface ∈ partitions then [TcSpec.clsact] else []) ++ root ++
        if name ++ ":" ++ iface ∈ partitions then [TcSpec.partition] else []).map fun spec => { iface, spec } := by
  have hsides : ∀ root : List TcSpec,
      ((if name ++ ":" ++ iface ∈ partitions then ([TcSpec.clsact], [TcSpec.partition]) else ([], [])).1 ++ root ++
        (if name ++ ":" ++ iface ∈ partitions then ([TcSpec.clsact], [TcSpec.partition]) else ([], [])).2) =
      (if name ++ ":" ++ iface ∈ partitions then [TcSpec.clsact] else []) ++ root ++
        if name ++ ":" ++ iface ∈ partitions then [TcSpec.partition] else [] := by
    intro root
    split_ifs <;> rfl
  unfold declareIfaceTc rootTc ownNetem
  dsimp only
  simp only [hsides]
  cases perPair[iface]? with
  | some rules =>
    refine bind_eq_map fun default => ?_
    cases nl.perPair iface rules default <;> rfl
  | none =>
    rcases t.impairments[name ++ ":" ++ iface]? with - | imp
    · rcases t.qdiscs[name ++ ":" ++ iface]? with - | qdisc
      · rcases t.rateLimits[name ++ ":" ++ iface]? with - | limit
        · rfl
        · exact bind_eq_map fun spec => rfl
      · exact bind_eq_map fun spec => rfl
    · dsimp only
      rw [bind_assoc]
      exact bind_eq_map fun seed => bind_eq_map fun netem => rfl

theorem perPair_ne_rateLimiter {ep : String} {limit : RateLimit} {spec : TcSpec} (h : rateLimiter vals ep limit = .ok spec)
    (rules : List PeerImpairment) (default : Option NetemConfig) : .perPair rules default ≠ spec := by
  unfold rateLimiter at h
  simp only [bind_eq_ok, pure_eq_ok] at h
  obtain ⟨egress, -, ingress, -, burst, -, rfl⟩ := h
  rintro ⟨⟩

theorem mem_rootTc {name iface : String} {perPair : BTreeMap String (List PeerImpairment)} {root : List TcSpec}
    (h : rootTc nl vals name t perPair iface = .ok root) {rules : List PeerImpairment} {default : Option NetemConfig} :
    .perPair rules default ∈ root ↔ perPair[iface]? = some rules ∧ ownNetem nl vals t name iface = .ok default := by
  unfold rootTc at h
  dsimp only at h
  split at h
  · rename_i rules' hrules
    obtain ⟨default', hdefault, h⟩ := bind_eq_ok.mp h
    split at h
    · cases h
    · cases h
      rw [hrules, hdefault, List.mem_singleton, TcSpec.perPair.injEq, Option.some.injEq, Except.ok.injEq, eq_comm,
        @eq_comm _ default]
  · rename_i hrules
    rw [hrules]
    refine iff_of_false (fun hmem => ?_) nofun
    split at h
    · simp only [bind_eq_ok, pure_eq_ok] at h
      obtain ⟨seed, -, netem, -, rfl⟩ := h
      cases List.mem_singleton.mp hmem
    · simp only [bind_eq_ok, pure_eq_ok] at h
      obtain ⟨spec, -, rfl⟩ := h
      cases List.mem_singleton.mp hmem
    · simp only [bind_eq_ok, pure_eq_ok] at h
      obtain ⟨spec, hspec, rfl⟩ := h
      exact perPair_ne_rateLimiter hspec rules default (List.mem_singleton.mp hmem)
    · cases h
      cases hmem

/-- What of an interface's declarations is a tree. -/
theorem mem_declareIfaceTc {name iface : String} {partitions : List String}
    {perPair : BTreeMap String (List PeerImpairment)} {l : List DeclaredTc}
    (h : declareIfaceTc nl vals name t partitions perPair iface = .ok l) {i : String} {rules : List PeerImpairment}
    {default : Option NetemConfig} :
    { iface := i, spec := .perPair rules default : DeclaredTc } ∈ l ↔
      i = iface ∧ perPair[iface]? = some rules ∧ ownNetem nl vals t name iface = .ok default := by
  rw [declareIfaceTc_eq] at h
  obtain ⟨root, hroot, rfl⟩ := map_eq_ok.mp h
  rw [← mem_rootTc hroot, List.mem_map]
  constructor
  · rintro ⟨spec, hmem, heq⟩
    cases heq
    refine ⟨rfl, ?_⟩
    rcases List.mem_append.mp hmem with hmem | hmem
    · rcases List.mem_append.mp hmem with hmem | hmem
      · split_ifs at hmem
        · cases List.mem_singleton.mp hmem
        · cases hmem
      · exact hmem
    · split_ifs at hmem
      · cases List.mem_singleton.mp hmem
      · cases hmem
  · rintro ⟨rfl, hmem⟩
    exact ⟨_, List.mem_append_left _ (List.mem_append_right _ hmem), rfl⟩

theorem nodeTc_eq_ok {name : String} {partitions : List String} {tc : List DeclaredTc} :
    nodeTc nl vals t name partitions = .ok tc ↔ ∃ perPair, perPairSources nl vals name (plannedTopology t) = .ok perPair ∧
      ∃ parts, (tcIfaces name (plannedTopology t) partitions perPair).mapM
        (declareIfaceTc nl vals name (plannedTopology t) partitions perPair) = .ok parts ∧ parts.flatten = tc := by
  unfold nodeTc declareNodeTc
  simp only [map_eq_ok, bind_eq_ok, pure_eq_ok]
  constructor
  · rintro ⟨cfg, ⟨perPair, hpp, parts, hparts, rfl⟩, rfl⟩
    exact ⟨perPair, hpp, parts, hparts, rfl⟩
  · rintro ⟨perPair, hpp, parts, hparts, rfl⟩
    exact ⟨_, ⟨perPair, hpp, parts, hparts, rfl⟩, rfl⟩

theorem ownNetem_planned (name iface : String) :
    ownNetem nl vals (plannedTopology t) name iface = ownNetem nl vals t name iface := by
  unfold ownNetem
  simp only [planned_impairments, netemSeed_planned]

/-- The trees of a node's traffic control. -/
theorem mem_nodeTc (h : t.valid nl vals) {name : String} {partitions : List String} {tc : List DeclaredTc}
    (htc : nodeTc nl vals t name partitions = .ok tc) {iface : String} {rules : List PeerImpairment}
    {default : Option NetemConfig} : { iface, spec := .perPair rules default : DeclaredTc } ∈ tc ↔
      (∃ netName network, IsTree nl vals t name iface rules netName network) ∧
        ownNetem nl vals t name iface = .ok default := by
  obtain ⟨perPair, hpp, parts, hparts, rfl⟩ := nodeTc_eq_ok.mp htc
  rw [← getElem?_perPairSources h hpp, ← ownNetem_planned, List.mem_flatten]
  constructor
  · rintro ⟨part, hpart, hmem⟩
    obtain ⟨iface', -, hiface⟩ := mem_of_mapM_eq_ok hparts hpart
    obtain ⟨rfl, htree⟩ := (mem_declareIfaceTc hiface).mp hmem
    exact htree
  · intro htree
    have hmem : iface ∈ tcIfaces name (plannedTopology t) partitions perPair := by
      unfold tcIfaces
      rw [List.mem_insertionSort, List.mem_dedup, List.mem_append, Std.ExtTreeMap.mem_keys,
        Std.ExtTreeMap.mem_iff_isSome_getElem?, htree.1]
      exact .inr rfl
    obtain ⟨part, hpart, hiface⟩ := exists_of_mapM_eq_ok hparts hmem
    exact ⟨part, hpart, (mem_declareIfaceTc hiface).mpr ⟨rfl, htree⟩⟩

/-! ### Planning succeeds -/

theorem exists_effect (h : t.valid nl vals) {netName : String} {network : Network}
    (hnet : t.networks[netName]? = some network) {rule : NetworkImpairment} (hrule : rule ∈ network.impairments)
    (iface : String) : ∃ e, effect nl vals t netName iface rule = .ok e := by
  obtain ⟨location, capAt, hsilent⟩ := Validator.silent_pair h hnet hrule
  unfold Validator.checkCapped at hsilent
  obtain ⟨himp, hcap⟩ := hsilent.append
  unfold effect
  refine exists_bind (Validator.exists_netemSeed himp _) fun seed _ => ?_
  refine exists_bind (Validator.exists_buildNetem himp seed) fun netem _ => ?_
  refine exists_bind (exists_option_mapM fun v hv => ?_) fun _ _ => ⟨_, rfl⟩
  rw [hv] at hcap
  exact Validator.read_of_valueError (Validator.valueError_of_checkValue hcap)

theorem exists_ownNetem (h : t.valid nl vals) (name iface : String) :
    ∃ netem, ownNetem nl vals t name iface = .ok netem := by
  unfold ownNetem
  refine exists_option_mapM fun imp himp => ?_
  have hsilent := Validator.silent_impairment h himp
  exact exists_bind (Validator.exists_netemSeed hsilent _) fun seed _ => Validator.exists_buildNetem hsilent seed

/-- The source of a rule is a member of the network. -/
theorem member_of_rule (h : t.valid nl vals) {netName : String} {network : Network}
    (hnet : t.networks[netName]? = some network) {rule : NetworkImpairment} (hrule : rule ∈ network.impairments) :
    rule.src ∈ (network.members.filterMap EndpointRef.parse).map (·.node) := by
  obtain ⟨i, hi⟩ := Validator.exists_mem_zipIdx hrule
  have hsilent : Validator.Silent (Validator.checkPairRule t netName network i rule) := by
    intro issue hissue
    refine Topology.severity_of_valid h (Validator.mem_validate_of_impairmentRefs ?_)
    refine List.mem_append_right _ (List.mem_flatMap.mpr
      ⟨_, Std.ExtTreeMap.mem_toList_iff_getElem?_eq_some.mpr hnet, ?_⟩)
    exact List.mem_append_left _ (List.mem_append_right _ (List.mem_flatMap.mpr ⟨_, hi, hissue⟩))
  by_contra hmem
  unfold Validator.checkPairRule at hsilent
  dsimp only at hsilent
  split_ifs at hsilent with hself
  · exact absurd rfl (hsilent _ List.mem_cons_self)
  · rw [List.filterMap_cons] at hsilent
    simp only [hmem, if_false] at hsilent
    split_ifs at hsilent
    · exact absurd rfl (hsilent _ List.mem_cons_self)
    · exact absurd rfl (hsilent _ List.mem_cons_self)

theorem exists_forall₂ {A B : Type} {R : A → B → Prop} {l : List A} (h : ∀ a ∈ l, ∃ b, R a b) :
    ∃ l', List.Forall₂ R l l' := by
  induction l with
  | nil => exact ⟨[], .nil⟩
  | cons a l ih =>
    obtain ⟨b, hb⟩ := h a List.mem_cons_self
    obtain ⟨l', hl'⟩ := ih fun a' ha' => h a' (List.mem_cons_of_mem _ ha')
    exact ⟨b :: l', .cons hb hl'⟩

theorem exists_isTree (h : t.valid nl vals) {name netName : String} {network : Network}
    (hnet : t.networks[netName]? = some network) (hrules : network.impairments.filter (·.src = name) ≠ [])
    (hfound : ∀ rule ∈ network.impairments, rule.src = name → ((networkIps network)[rule.dst]?).isSome) :
    ∃ iface peers, IsTree nl vals t name iface peers netName network := by
  obtain ⟨rule, hrule⟩ := List.exists_mem_of_ne_nil _ hrules
  obtain ⟨hrule, hsrc⟩ := List.mem_filter.mp hrule
  have hmember := member_of_rule h hnet hrule
  rw [of_decide_eq_true hsrc] at hmember
  obtain ⟨iface, hiface⟩ := exists_networkIfaces hmember
  obtain ⟨peers, hpeers⟩ := exists_forall₂ (R := IsPeer nl vals t netName network iface)
    (l := network.impairments.filter (·.src = name)) fun r hr => by
      obtain ⟨hr, hsrc⟩ := List.mem_filter.mp hr
      obtain ⟨ip, hip⟩ := Option.isSome_iff_exists.mp (hfound r hr (of_decide_eq_true hsrc))
      obtain ⟨⟨netem, cap⟩, heffect⟩ := exists_effect h hnet hr iface
      exact ⟨⟨ip, netem, cap⟩, hip, heffect⟩
  exact ⟨iface, peers, hnet, hrules, hiface, hpeers⟩

theorem exists_rootTc (h : t.valid nl vals) (hnl : ∀ iface rules default, nl.perPair iface rules default = none)
    (name iface : String) (perPair : BTreeMap String (List PeerImpairment)) :
    ∃ root, rootTc nl vals name (plannedTopology t) perPair iface = .ok root := by
  unfold rootTc
  dsimp only
  rw [ownNetem_planned, planned_impairments, planned_qdiscs, planned_rateLimits]
  cases perPair[iface]? with
  | some rules =>
    refine exists_bind (exists_ownNetem h name iface) fun default _ => ?_
    rw [hnl]
    exact ⟨_, rfl⟩
  | none =>
    rcases himp : t.impairments[name ++ ":" ++ iface]? with - | imp
    · rcases hq : t.qdiscs[name ++ ":" ++ iface]? with - | qdisc
      · rcases hl : t.rateLimits[name ++ ":" ++ iface]? with - | limit
        · exact ⟨_, rfl⟩
        · exact exists_bind (Validator.exists_rateLimiter (Validator.silent_rateLimit h hl)) fun _ _ => ⟨_, rfl⟩
      · exact exists_bind (Validator.exists_buildQdisc (Validator.silent_qdisc h hq)) fun _ _ => ⟨_, rfl⟩
    · have hsilent := Validator.silent_impairment h himp
      dsimp only
      rw [netemSeed_planned]
      refine exists_bind (Validator.exists_netemSeed hsilent _) fun seed _ => ?_
      exact exists_bind (Validator.exists_buildNetem hsilent seed) fun _ _ => ⟨_, rfl⟩

/-- A node whose rules' destinations are all found has its traffic control planned. -/
theorem exists_nodeTc (h : t.valid nl vals) (hnl : ∀ iface rules default, nl.perPair iface rules default = none)
    {name : String} (hfound : ∀ (netName : String) (network : Network), t.networks[netName]? = some network →
      ∀ rule ∈ network.impairments, rule.src = name → ((networkIps network)[rule.dst]?).isSome)
    (partitions : List String) : ∃ tc, nodeTc nl vals t name partitions = .ok tc := by
  obtain ⟨trees, htrees⟩ : ∃ trees, (sourced (plannedTopology t) name).mapM
      (tree nl vals (plannedTopology t) name) = .ok trees := by
    refine exists_mapM fun e he => ?_
    obtain ⟨hnet, hrules⟩ := (mem_sourced h).mp he
    obtain ⟨iface, peers, htree⟩ := exists_isTree h hnet hrules (hfound e.1 e.2 hnet)
    exact ⟨_, (tree_eq_ok h he).mpr htree⟩
  have hpp := perPairSources_eq_ok.mpr ⟨trees, htrees, rfl⟩
  obtain ⟨parts, hparts⟩ := exists_mapM (f := declareIfaceTc nl vals name (plannedTopology t) partitions
    (trees.foldl (fun m e => m.insert e.1 e.2) ∅)) (l := tcIfaces name (plannedTopology t) partitions
    (trees.foldl (fun m e => m.insert e.1 e.2) ∅)) fun iface _ => by
      obtain ⟨root, hroot⟩ := exists_rootTc h hnl name iface (trees.foldl (fun m e => m.insert e.1 e.2) ∅)
      rw [declareIfaceTc_eq, hroot]
      exact ⟨_, rfl⟩
  exact ⟨parts.flatten, nodeTc_eq_ok.mpr ⟨_, hpp, parts, hparts, rfl⟩⟩

/-! ### Which rule a packet meets -/

theorem peerFor_cases {netName iface : String} {network : Network} {rules : List NetworkImpairment}
    {peers : List PeerImpairment} (h : List.Forall₂ (IsPeer nl vals t netName network iface) rules peers) (ip : IpAddr) :
    (rules.find? (fun r => (networkIps network)[r.dst]? = some ip) = none ∧ peerFor peers ip = none) ∨
      ∃ rule peer, rules.find? (fun r => (networkIps network)[r.dst]? = some ip) = some rule ∧
        peerFor peers ip = some peer ∧ IsPeer nl vals t netName network iface rule peer := by
  unfold peerFor
  induction h with
  | nil => exact .inl ⟨rfl, rfl⟩
  | @cons rule peer rules peers hpeer _ ih =>
    by_cases hip : peer.dst = ip
    · refine .inr ⟨rule, peer, ?_, ?_, hpeer⟩
      · rw [List.find?_cons_of_pos (by simpa [hip] using hpeer.1)]
      · rw [List.find?_cons_of_pos (by simpa using hip)]
    · have hrule : ¬ (networkIps network)[rule.dst]? = some ip := fun heq =>
        hip (Option.some.inj (hpeer.1.symm.trans heq))
      rw [List.find?_cons_of_neg (by simpa using hrule), List.find?_cons_of_neg (by simpa using hip)]
      exact ih

/-- What a source's tree in a network does, whichever network it is found in. -/
theorem isTree_of_mem (h : t.valid nl vals) {netName : String} {network : Network}
    (hnet : t.networks[netName]? = some network) {src iface : String} (hmember : (src, iface) ∈ memberIfaces network)
    {partitions : List String} {tc : List DeclaredTc} (htc : nodeTc nl vals t src partitions = .ok tc)
    {rules : List PeerImpairment} {default : Option NetemConfig}
    (hmem : { iface, spec := .perPair rules default : DeclaredTc } ∈ tc) :
    IsTree nl vals t src iface rules netName network := by
  obtain ⟨⟨netName', network', htree⟩, -⟩ := (mem_nodeTc h htc).mp hmem
  obtain ⟨rfl, rfl⟩ := network_unique h hnet htree.1 hmember (mem_of_networkIfaces htree.2.2.1)
  exact htree

/-- A node's traffic control is planned only when the destinations of its rules are found. -/
theorem found_of_nodeTc (h : t.valid nl vals) {netName : String} {network : Network}
    (hnet : t.networks[netName]? = some network) {rule : NetworkImpairment} (hrule : rule ∈ network.impairments)
    {partitions : List String} {tc : List DeclaredTc} (htc : nodeTc nl vals t rule.src partitions = .ok tc) :
    ((networkIps network)[rule.dst]?).isSome := by
  obtain ⟨perPair, hpp, -⟩ := nodeTc_eq_ok.mp htc
  obtain ⟨trees, htrees, -⟩ := perPairSources_eq_ok.mp hpp
  have hmem : rule ∈ network.impairments.filter (·.src = rule.src) := List.mem_filter.mpr ⟨hrule, by simp⟩
  have he : (netName, network) ∈ sourced (plannedTopology t) rule.src :=
    (mem_sourced h).mpr ⟨hnet, List.ne_nil_of_mem hmem⟩
  obtain ⟨⟨iface, peers⟩, -, htree⟩ := exists_of_mapM_eq_ok htrees he
  obtain ⟨peer, -, hip, -⟩ := exists_right_of_forall₂ ((tree_eq_ok h he).mp htree).2.2.2 hmem
  rw [hip]
  rfl

theorem resolves_of_covered (h : t.valid nl vals) {netName : String} {network : Network}
    (hnet : t.networks[netName]? = some network) {rule : NetworkImpairment} (hrule : rule ∈ network.impairments)
    {partitions : List String} {tc : List DeclaredTc} (htc : nodeTc nl vals t rule.src partitions = .ok tc)
    (hc : Covered nl vals t netName network rule tc) : Resolves nl vals t netName network rule where
  found := found_of_nodeTc h hnet hrule htc
  once iface hmember := by
    obtain ⟨ip, hip⟩ := Option.isSome_iff_exists.mp (found_of_nodeTc h hnet hrule htc)
    obtain ⟨addr, haddr, hhost⟩ := exists_of_networkIps hip
    obtain ⟨rules, default, -, hmem, -⟩ := hc.pair iface hmember addr haddr ip hhost
    exact (isTree_of_mem h hnet hmember htc hmem).2.2.1
  addressed addr haddr ip hhost iface hiface := by
    have hmember := mem_of_networkIfaces hiface
    obtain ⟨rules, default, peer, hmem, hpeer, heffect⟩ := hc.pair iface hmember addr haddr ip hhost
    have htree := isTree_of_mem h hnet hmember htc hmem
    rcases peerFor_cases htree.2.2.2 ip with ⟨-, hnone⟩ | ⟨rule', peer', hfind, hpeer', heffect'⟩
    · cases hpeer.symm.trans hnone
    · cases hpeer.symm.trans hpeer'
      exact ⟨rule', hfind, heffect'.2.trans heffect.symm⟩
  apart name hname addr haddr heq := by
    obtain ⟨ip, hip⟩ := Option.isSome_iff_exists.mp (found_of_nodeTc h hnet hrule htc)
    obtain ⟨iface, hiface⟩ := exists_networkIfaces (member_of_rule h hnet hrule)
    have hmember := mem_of_networkIfaces hiface
    obtain ⟨rules, default, hmem, hnone, -⟩ := hc.others iface hmember name hname addr haddr ip (heq.trans hip)
    have htree := isTree_of_mem h hnet hmember htc hmem
    rcases peerFor_cases htree.2.2.2 ip with ⟨hfind, -⟩ | ⟨rule', peer', -, hpeer', -⟩
    · have hmem : rule ∈ network.impairments.filter (·.src = rule.src) := List.mem_filter.mpr ⟨hrule, by simp⟩
      exact List.find?_eq_none.mp hfind rule hmem (decide_eq_true hip)
    · cases hnone.symm.trans hpeer'

theorem covered_of_resolves (h : t.valid nl vals) {netName : String} {network : Network}
    (hnet : t.networks[netName]? = some network) {rule : NetworkImpairment} (hrule : rule ∈ network.impairments)
    (hr : ∀ r ∈ network.impairments, Resolves nl vals t netName network r)
    {partitions : List String} {tc : List DeclaredTc} (htc : nodeTc nl vals t rule.src partitions = .ok tc) :
    Covered nl vals t netName network rule tc := by
  have hmem : rule ∈ network.impairments.filter (·.src = rule.src) := List.mem_filter.mpr ⟨hrule, by simp⟩
  obtain ⟨first, peers, htree⟩ := exists_isTree h hnet (List.ne_nil_of_mem hmem) fun r hmem _ => (hr r hmem).found
  obtain ⟨default, hdefault⟩ := exists_ownNetem h rule.src first
  have hin := (mem_nodeTc h htc).mpr ⟨⟨netName, network, htree⟩, hdefault⟩
  have honce : ∀ iface, (rule.src, iface) ∈ memberIfaces network → iface = first := fun iface hmember =>
    Option.some.inj (((hr rule hrule).once iface hmember).symm.trans htree.2.2.1)
  constructor
  · intro iface hmember addr haddr ip hhost
    obtain rfl := honce iface hmember
    obtain ⟨rule', hat, heffect⟩ := (hr rule hrule).addressed addr haddr ip hhost iface htree.2.2.1
    rcases peerFor_cases htree.2.2.2 ip with ⟨hfind, -⟩ | ⟨rule'', peer, hfind, hpeer, heffect'⟩
    · cases hat.symm.trans hfind
    · cases hat.symm.trans hfind
      exact ⟨peers, default, peer, hin, hpeer, heffect ▸ heffect'.2⟩
  · intro iface hmember name hname addr haddr ip hhost
    obtain rfl := honce iface hmember
    refine ⟨peers, default, hin, ?_, hdefault⟩
    rcases peerFor_cases htree.2.2.2 ip with ⟨-, hnone⟩ | ⟨rule', peer, hfind, -, hpeer⟩
    · exact hnone
    · have hip := of_decide_eq_true (List.find?_some hfind :)
      obtain ⟨hrule', hsrc⟩ := List.mem_filter.mp (List.mem_of_find?_eq_some hfind)
      have hname' : Unnamed t rule'.src name := by rwa [of_decide_eq_true hsrc]
      exact absurd (hhost.trans hip.symm) ((hr rule' hrule').apart name hname' addr haddr)

/-- The rules of a valid topology cover their pairs exactly when their sources and
destinations are in their networks as the trees take them to be. -/
theorem pairsCovered_iff (h : t.valid nl vals) (hnl : ∀ iface rules default, nl.perPair iface rules default = none)
    (partitions : List String) : PairsCovered nl vals t partitions ↔
      ∀ netName network, t.networks[netName]? = some network →
        ∀ rule ∈ network.impairments, Resolves nl vals t netName network rule := by
  constructor
  · intro hc netName network hnet rule hrule
    obtain ⟨tc, htc, hcovered⟩ := hc netName network hnet rule hrule
    exact resolves_of_covered h hnet hrule htc hcovered
  · intro hr netName network hnet rule hrule
    obtain ⟨tc, htc⟩ := @exists_nodeTc _ _ _ h hnl rule.src
      (fun n net hn r hmem _ => (hr n net hn r hmem).found) partitions
    exact ⟨tc, htc, covered_of_resolves h hnet hrule (hr netName network hnet) htc⟩

end

/-- A network of two hosts, and a rule for what the first sends the second. -/
def pairNetwork (addresses : List String) : Network :=
  { members := ["a:eth0", "b:eth0"], subnet := some "10.0.0.0/24"
    ports := .ofList [("a:eth0", { addresses := ["10.0.0.1/24"] }), ("b:eth0", { addresses })] compare
    impairments := [{ src := "a", dst := "b", impairment := { limit := some "10" } }] }

def pairTopology (addresses : List String) : Topology :=
  { lab := { name := "lab" }
    nodes := .ofList [("a", {}), ("b", {})] compare
    networks := .ofList [("lan", pairNetwork addresses)] compare }

theorem pairsCovered_singleStack :
    PairsCovered Env.sample.nl Env.sample.vals (pairTopology ["10.0.0.2/24"]) [] := by
  have hvalid : (pairTopology ["10.0.0.2/24"]).valid Env.sample.nl Env.sample.vals := by decide +kernel
  refine (pairsCovered_iff hvalid (fun _ _ _ => rfl) []).mpr fun netName network hnet rule hrule => ?_
  have hlist : (pairTopology ["10.0.0.2/24"]).networks.toList = [("lan", pairNetwork ["10.0.0.2/24"])] := by
    decide +kernel
  have hmem := Std.ExtTreeMap.mem_toList_iff_getElem?_eq_some.mpr hnet
  rw [hlist] at hmem
  cases List.mem_singleton.mp hmem
  cases List.mem_singleton.mp hrule
  have hfound : (networkIps (pairNetwork ["10.0.0.2/24"]))["b"]? = some (.v4 0x0a000002) := by decide +kernel
  refine ⟨by rw [hfound]; rfl, ?_, ?_, ?_⟩
  · have honce : ∀ p ∈ memberIfaces (pairNetwork ["10.0.0.2/24"]), p.1 = "a" →
        (networkIfaces (pairNetwork ["10.0.0.2/24"]))["a"]? = some p.2 := by decide +kernel
    exact fun iface hmember => honce _ hmember rfl
  · have hb : ∀ addr ∈ networkAddresses (pairNetwork ["10.0.0.2/24"]) "b", hostPart addr = some (.v4 0x0a000002) := by
      decide +kernel
    have hat : ruleAt (pairNetwork ["10.0.0.2/24"]) "a" (.v4 0x0a000002) =
        some { src := "a", dst := "b", impairment := { limit := some "10" } } := by decide +kernel
    intro addr haddr ip hhost iface _
    cases (hb addr haddr).symm.trans hhost
    exact ⟨_, hat, rfl⟩
  · have ha : ∀ addr ∈ plannedAddresses (pairTopology ["10.0.0.2/24"]) "a", hostPart addr ≠ some (.v4 0x0a000002) := by
      decide +kernel
    have hkeys : (pairTopology ["10.0.0.2/24"]).nodes.keys = ["a", "b"] := by decide +kernel
    intro name hname addr haddr heq
    have hmem := mem_keys_of_planned haddr
    rw [hkeys] at hmem
    have hne : name ≠ "b" := fun hb => hname "lan" _ hnet _ List.mem_cons_self rfl hb.symm
    obtain rfl : name = "a" := by simpa [hne] using hmem
    exact ha addr haddr (heq.trans hfound)

/-- A destination of both families is covered at its first address only. -/
theorem second_address_uncovered :
    (pairTopology ["10.0.0.2/24", "fd00::2/64"]).valid Env.sample.nl Env.sample.vals ∧
      ¬ PairsCovered Env.sample.nl Env.sample.vals (pairTopology ["10.0.0.2/24", "fd00::2/64"]) [] := by
  have hvalid : (pairTopology ["10.0.0.2/24", "fd00::2/64"]).valid Env.sample.nl Env.sample.vals := by
    decide +kernel
  refine ⟨hvalid, fun hc => ?_⟩
  have hnet : (pairTopology ["10.0.0.2/24", "fd00::2/64"]).networks["lan"]? =
      some (pairNetwork ["10.0.0.2/24", "fd00::2/64"]) := by decide +kernel
  obtain ⟨tc, htc, hcovered⟩ := hc "lan" _ hnet _ List.mem_cons_self
  have hresolves := resolves_of_covered hvalid hnet List.mem_cons_self htc hcovered
  obtain ⟨ip, hip, hnone⟩ : ∃ ip, hostPart "fd00::2/64" = some ip ∧
      ruleAt (pairNetwork ["10.0.0.2/24", "fd00::2/64"]) "a" ip = none := ⟨_, rfl, by decide +kernel⟩
  have hmem : "fd00::2/64" ∈ networkAddresses (pairNetwork ["10.0.0.2/24", "fd00::2/64"]) "b" := by decide +kernel
  obtain ⟨rule', hat, -⟩ := hresolves.addressed _ hmem ip hip "eth0" (by decide +kernel)
  cases hat.symm.trans hnone

end NlinkLab.PerPair
