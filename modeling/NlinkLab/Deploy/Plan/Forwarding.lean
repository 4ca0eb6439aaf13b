import NlinkLab.Deploy.Plan
import NlinkLab.Validator

/-! Whether the routes of `routing auto` lead over nodes that forward. The search
walks through any node, so a router's route goes to the first node found on a
network, whoever is in between, and it takes a node for a router by the node's own
sysctls alone; the routes forward exactly when the first hops that come of this are
those of forwarding paths (`routesForward_iff`). -/

namespace NlinkLab.Routes

open Bfs

variable (t : Topology) (v6 : Bool)

/-! ### The graph the search walks -/

theorem neighbors_eq (name : String) :
    neighbors t v6 name = BTreeMap.itemsAt (hops t v6) name := BTreeMap.getD_group _ _

theorem mem_subnets {name addr : String} :
    addr ∈ subnets t v6 name ↔ (name, addr) ∈ addresses t v6 := by
  unfold subnets nodeSubnets
  rw [BTreeMap.getD_group, List.mem_insertionSort, List.mem_dedup]
  simp [BTreeMap.itemsAt]

/-- The neighbours of a node, without their addresses. -/
def adj (name : String) : List String := (neighbors t v6 name).map (·.1)

/-- The address of the first neighbour of a path from a node. -/
def firstAddr (name : String) : List Nat → String
  | [] => ""
  | i :: _ => ((neighbors t v6 name)[i]?.map (·.2)).getD ""

theorem firstAddr_snoc {name : String} {p : List Nat} (hp : p ≠ []) (i : Nat) :
    firstAddr t v6 name (p ++ [i]) = firstAddr t v6 name p := by
  cases p with
  | nil => exact absurd rfl hp
  | cons j p => rfl

/-- All nodes the search can come to. -/
def reachable : Finset String := ((hops t v6).map (·.2.1)).toFinset

theorem mem_reachable (name y : String) (h : y ∈ adj t v6 name) : y ∈ reachable t v6 := by
  rw [adj, neighbors_eq] at h
  obtain ⟨hop, hhop, rfl⟩ := List.mem_map.mp h
  obtain ⟨e, he, rfl⟩ := List.mem_map.mp hhop
  exact List.mem_toFinset.mpr (List.mem_map.mpr ⟨e, (List.mem_filter.mp he).1, rfl⟩)

theorem card_reachable_lt : (reachable t v6).card < (hops t v6).length + 1 := by
  have h := List.toFinset_card_le ((hops t v6).map (·.2.1))
  rw [List.length_map] at h
  exact Nat.lt_succ_of_le h

theorem extend_map_firstAddr {name x : String} {p : List Nat} (hp : p ≠ []) :
    (neighbors t v6 x).map (fun (y, _) => (y, firstAddr t v6 name p)) =
      (extend (adj t v6) x p).map (Prod.map id (firstAddr t v6 name)) := by
  unfold extend adj
  rw [List.map_map]
  apply List.ext_getElem
  · simp
  · intro i h₁ h₂
    simp [firstAddr_snoc t v6 hp]

theorem extend_nil_map_firstAddr (name : String) :
    (extend (adj t v6) name []).map (Prod.map id (firstAddr t v6 name)) = neighbors t v6 name := by
  unfold extend adj
  rw [List.map_map]
  apply List.ext_getElem
  · simp
  · intro i h₁ h₂
    have hi : i < (neighbors t v6 name).length := h₂
    simp [firstAddr, List.getElem?_eq_getElem hi]

/-- The router's search is the search by paths, each path's first address kept. -/
theorem visits_eq_cons_reached (name : String) :
    (visits (adj t v6) name ((hops t v6).length + 1)).map (Prod.map id (firstAddr t v6 name)) =
      (name, "") :: reached t v6 name := by
  have hseeds := foldl_enqueue_map (firstAddr t v6 name) (extend (adj t v6) name []) [name] []
  rw [extend_nil_map_firstAddr] at hseeds
  have hne : ∀ x p, p ≠ [] → ∀ e ∈ extend (adj t v6) x p, e.2 ≠ [] := by
    intro x p _ e he
    obtain ⟨⟨y, i⟩, -, rfl⟩ := List.mem_map.mp he
    simp
  have hloop := loop_map (firstAddr t v6 name) (· ≠ []) (extend (adj t v6))
    (fun x hop => (neighbors t v6 x).map fun (y, _) => (y, hop)) hne
    (fun x p hp => extend_map_firstAddr t v6 hp) (hops t v6).length
    ((extend (adj t v6) name []).foldl enqueue ([name], [])).1
    ((extend (adj t v6) name []).foldl enqueue ([name], [])).2
    (fun e he => (mem_foldl_enqueue he).elim (fun h => absurd h List.not_mem_nil) fun h => by
      obtain ⟨⟨y, i⟩, -, rfl⟩ := List.mem_map.mp h
      simp)
  unfold visits reached
  simp only [loop, List.map_cons, ← hloop]
  rw [List.map_nil] at hseeds
  rw [hseeds]
  rfl

/-! ### What a router's routes are -/

/-- A node has an address on a network. -/
def Attached (name net : String) : Prop :=
  ∃ addr ∈ subnets t v6 name, networkCidr addr = some net

/-- A node on a network whose address there is no manual route of the router. -/
def Offers (node : Node) (net name : String) : Prop :=
  ∃ addr ∈ subnets t v6 name, networkCidr addr = some net ∧ addr ∉ node.routes

instance (node : Node) (net : String) : DecidablePred (Offers t v6 node net) := fun name =>
  inferInstanceAs (Decidable (∃ addr ∈ subnets t v6 name, networkCidr addr = some net ∧
    addr ∉ node.routes))

theorem mem_remoteNetworks (name current net : String) (node : Node) :
    net ∈ (subnets t v6 current).filterMap (remoteNetwork t v6 name node) ↔
      Offers t v6 node net current ∧ ¬ Attached t v6 name net ∧ net ∉ node.routes := by
  have hmine : net ∉ (subnets t v6 name).filterMap networkCidr ↔ ¬ Attached t v6 name net := by
    rw [List.mem_filterMap]; rfl
  rw [← hmine, List.mem_filterMap]
  constructor
  · rintro ⟨addr, haddr, h⟩
    unfold remoteNetwork at h
    split_ifs at h with hm
    obtain ⟨hnet, hr⟩ := Option.filter_eq_some_iff.mp h
    have hr := of_decide_eq_true hr
    refine ⟨⟨addr, haddr, hnet, fun h => hm (Std.ExtTreeMap.contains_iff_mem.mpr h)⟩, hr.1, fun h => ?_⟩
    rw [Std.ExtTreeMap.contains_iff_mem.mpr h] at hr
    exact absurd hr.2 (by decide)
  · rintro ⟨⟨addr, haddr, hnet, hm⟩, hr, hd⟩
    refine ⟨addr, haddr, ?_⟩
    unfold remoteNetwork
    rw [if_neg fun h => hm (Std.ExtTreeMap.contains_iff_mem.mp h)]
    have hd : node.routes.contains net = false := by
      rwa [← Bool.not_eq_true, Std.ExtTreeMap.contains_iff_mem]
    exact Option.filter_eq_some_iff.mpr ⟨hnet, by rw [hd]; simpa using hr⟩

theorem findSome?_ite {A B : Type} (P : A → Prop) [DecidablePred P] (g : A → B) (l : List A) :
    l.findSome? (fun a => if P a then some (g a) else none) = (l.find? P).map g := by
  induction l with
  | nil => rfl
  | cons a l ih =>
    rw [List.findSome?_cons, List.find?_cons]
    by_cases h : P a
    · simp [h]
    · simpa [h] using ih

/-- A node's offer of a remote network, if it makes one. -/
theorem find?_offers {name net : String} {node : Node} (hr : ¬ Attached t v6 name net)
    (hd : net ∉ node.routes) (e : Hop) :
    (offers t v6 name node e).find? (·.1 = net) =
      if Offers t v6 node net e.1 then some (net, routeVia e.2) else none := by
  have hmem := mem_remoteNetworks t v6 name e.1 net node
  unfold offers
  rw [List.find?_map]
  split_ifs with h
  · obtain ⟨as, bs, hsplit, has⟩ := List.eq_append_cons_of_mem (hmem.mpr ⟨h, hr, hd⟩)
    rw [List.find?_eq_some_iff_append.mpr ⟨by simp, as, bs, hsplit, fun net' h' => ?_⟩]
    · rfl
    · have hne : net' ≠ net := fun heq => has (heq ▸ h')
      simpa using hne
  · rw [List.find?_eq_none.mpr]
    · rfl
    · intro net' h' heq
      have heq : net' = net := of_decide_eq_true heq
      exact h (hmem.mp (heq ▸ h')).1

/-- A router's route to a network is via the first address of the first path to
a node on it. -/
theorem routerRoutes_eq_some {name net : String} {node : Node} {route : RouteConfig} :
    (routerRoutes t v6 name node)[net]? = some route ↔
      ¬ Attached t v6 name net ∧ net ∉ node.routes ∧
        ∃ p x, IsFirst (adj t v6) name (Offers t v6 node net) p x ∧
          route = routeVia (firstAddr t v6 name p) := by
  have hget : (routerRoutes t v6 name node)[net]? =
      ((reached t v6 name).findSome? fun e => (offers t v6 name node e).find? (·.1 = net)).map (·.2) := by
    unfold routerRoutes
    rw [BTreeMap.getElem?_foldl_insertIfNew, List.find?_flatMap]
    simp
  by_cases hremote : ¬ Attached t v6 name net ∧ net ∉ node.routes
  · obtain ⟨hr, hd⟩ := hremote
    -- the router is not on the network, so its own entry in the search is passed over
    have hname : ¬ Offers t v6 node net name := fun ⟨addr, haddr, hnet, _⟩ => hr ⟨addr, haddr, hnet⟩
    have hreached : (reached t v6 name).find? (fun e => Offers t v6 node net e.1) =
        ((visits (adj t v6) name ((hops t v6).length + 1)).find?
          (fun e => Offers t v6 node net e.1)).map (Prod.map id (firstAddr t v6 name)) := by
      have hmap : ((visits (adj t v6) name ((hops t v6).length + 1)).map
          (Prod.map id (firstAddr t v6 name))).find? (fun e => Offers t v6 node net e.1) =
            ((visits (adj t v6) name ((hops t v6).length + 1)).find?
              (fun e => Offers t v6 node net e.1)).map (Prod.map id (firstAddr t v6 name)) :=
        List.find?_map
      rw [visits_eq_cons_reached, List.find?_cons] at hmap
      simpa [hname] using hmap
    have hfirst : ∀ x p, (visits (adj t v6) name ((hops t v6).length + 1)).find?
        (fun e => Offers t v6 node net e.1) = some (x, p) ↔
          IsFirst (adj t v6) name (Offers t v6 node net) p x :=
      visits_first (reachable t v6) (mem_reachable t v6) (card_reachable_lt t v6) (Offers t v6 node net)
    rw [hget]
    simp only [find?_offers t v6 hr hd]
    rw [findSome?_ite (fun e : Hop => Offers t v6 node net e.1) fun e => (net, routeVia e.2), hreached]
    constructor
    · intro h
      obtain ⟨⟨x, p⟩, hfind, rfl⟩ : ∃ e, (visits (adj t v6) name ((hops t v6).length + 1)).find?
          (fun e => Offers t v6 node net e.1) = some e ∧
          routeVia (firstAddr t v6 name e.2) = route := by
        simpa [Option.map_map] using h
      exact ⟨hr, hd, p, x, (hfirst x p).mp hfind, rfl⟩
    · rintro ⟨-, -, p, x, hp, rfl⟩
      rw [(hfirst x p).mpr hp]
      rfl
  · have hnone : (reached t v6 name).findSome?
        (fun e => (offers t v6 name node e).find? (·.1 = net)) = none := by
      rw [List.findSome?_eq_none_iff]
      intro e he
      rw [List.find?_eq_none]
      intro offer hoffer heq
      obtain ⟨net', hnet', rfl⟩ := List.mem_map.mp hoffer
      have heq : net' = net := of_decide_eq_true heq
      exact hremote ((mem_remoteNetworks t v6 _ _ _ _).mp (heq ▸ hnet')).2
    rw [hget, hnone]
    constructor
    · intro h
      cases h
    · rintro ⟨hr, hd, -⟩
      exact absurd ⟨hr, hd⟩ hremote

/-! ### Forwarding paths -/

/-- Whether a node forwards the family once its sysctls are set, its profiles' too. -/
def forwardsFamily (name : String) : Bool :=
  (t.nodes[name]?).any fun n => (t.effectiveSysctls n)[forwardSysctl v6]? = some "1"

/-- Each node of the path is a neighbour of the one before it. -/
def Walk : String → List Hop → Prop
  | _, [] => True
  | x, hop :: rest => hop ∈ neighbors t v6 x ∧ Walk hop.1 rest

/-- A path from a node to one on a network, whose first node and every node
before its last forward. -/
structure ForwardingPath (name net : String) (hop : Hop) (rest : List Hop) : Prop where
  walk : Walk t v6 name (hop :: rest)
  first : forwardsFamily t v6 hop.1
  inner : ∀ x ∈ (hop :: rest).dropLast, forwardsFamily t v6 x.1
  attached : Attached t v6 ((hop :: rest).getLast (List.cons_ne_nil hop rest)).1 net

/-- A walk is a path of the graph. -/
theorem Walk.follow {name : String} {hop : Hop} {rest : List Hop}
    (h : Walk t v6 name (hop :: rest)) :
    ∃ p, Bfs.follow (adj t v6) name p =
      some ((hop :: rest).getLast (List.cons_ne_nil hop rest)).1 := by
  induction rest generalizing name hop with
  | nil =>
    obtain ⟨i, hi⟩ := List.mem_iff_getElem?.mp h.1
    refine ⟨[i], ?_⟩
    simp [Bfs.follow, adj, hi]
  | cons next rest ih =>
    obtain ⟨i, hi⟩ := List.mem_iff_getElem?.mp h.1
    obtain ⟨p, hp⟩ := ih h.2
    refine ⟨i :: p, ?_⟩
    simpa [Bfs.follow, adj, hi] using hp

/-- A path may start at any address of its first node. -/
theorem ForwardingPath.of_first {name net : String} {hop hop' : Hop} {rest : List Hop}
    (h : ForwardingPath t v6 name net hop rest) (hmem : hop' ∈ neighbors t v6 name)
    (heq : hop'.1 = hop.1) : ForwardingPath t v6 name net hop' rest := by
  refine ⟨⟨hmem, heq ▸ h.walk.2⟩, heq ▸ h.first, ?_, ?_⟩
  · cases rest with
    | nil => exact fun x hx => absurd hx List.not_mem_nil
    | cons next rest =>
      intro x hx
      rcases List.mem_cons.mp hx with rfl | hx
      · exact heq ▸ h.first
      · exact h.inner x (List.mem_cons_of_mem _ hx)
  · cases rest with
    | nil => exact heq ▸ h.attached
    | cons next rest => exact h.attached

/-- A manual route to a network: under the network itself, one of its addresses,
or a default of the family. -/
def ManualRoute (node : Node) (net : String) : Prop :=
  (∃ dest ∈ node.routes, dest = net ∨ networkCidr dest = some net) ∨ hasDefault node.routes v6

/-- The route the planner adds on a node for a destination. -/
def autoRoute (name dest : String) : Option RouteConfig :=
  ((autoRoutesForFamily t v6)[name]?).bind (·[dest]?)

/-- A route's gateway is the first address of a forwarding path to a network. -/
def LeadsTo (name net : String) (route : RouteConfig) : Prop :=
  ∃ hop rest, ForwardingPath t v6 name net hop rest ∧ route.via = some hop.2

/-- The routes of every router lead over forwarding paths, and a network that a
forwarding path leads to has such a route: its own, or the default. -/
def RoutesForward : Prop :=
  ∀ name node, t.nodes[name]? = some node → forwardsFamily t v6 name → ∀ net, net ≠ defaultKey v6 →
    (∀ route, autoRoute t v6 name net = some route → LeadsTo t v6 name net route) ∧
    ∀ hop rest, ForwardingPath t v6 name net hop rest → ¬ Attached t v6 name net →
      ¬ ManualRoute v6 node net → ∃ dest route, (dest = net ∨ dest = defaultKey v6) ∧
        autoRoute t v6 name dest = some route ∧ LeadsTo t v6 name net route

/-- A node with neighbours, all its links and networks leading to one other. -/
def Stub (name : String) : Prop :=
  ∀ a ∈ neighbors t v6 name, ∀ b ∈ neighbors t v6 name, a.1 = b.1

/-- The neighbour a node without routes of its own sends to: the first whose own
sysctls let it forward, else the first. -/
def gateway (name : String) : Option Hop :=
  (neighbors t v6 name).find? (fun hop => forwards t v6 hop.1) <|> (neighbors t v6 name).head?

/-- The first hops of the routers that are not stubs are right. -/
structure FirstHopsForward : Prop where
  /-- The first path to each network that the router gets a route to starts at the
  same address as some forwarding path. -/
  search : ∀ name node, t.nodes[name]? = some node → forwardsFamily t v6 name → forwards t v6 name →
    ¬ Stub t v6 name → ∀ net, net ≠ defaultKey v6 → ¬ Attached t v6 name net → net ∉ node.routes →
      ∀ p x, IsFirst (adj t v6) name (Offers t v6 node net) p x →
        LeadsTo t v6 name net (routeVia (firstAddr t v6 name p))
  /-- A router by its profiles alone has a gateway that forwards to each network
  that it can reach and has no route to. -/
  profile : ∀ name node, t.nodes[name]? = some node → forwardsFamily t v6 name →
    ¬ forwards t v6 name → ¬ Stub t v6 name → ∀ net, net ≠ defaultKey v6 →
      ∀ hop rest, ForwardingPath t v6 name net hop rest → ¬ Attached t v6 name net →
        ¬ ManualRoute v6 node net → ∃ gw, gateway t v6 name = some gw ∧ LeadsTo t v6 name net (routeVia gw.2)

/-! ### A node's routes -/

theorem autoRoute_eq {name : String} {node : Node} (h : t.nodes[name]? = some node) (dest : String) :
    autoRoute t v6 name dest = (nodeRoutes t v6 name node)[dest]? := by
  unfold autoRoute autoRoutesForFamily
  rw [Std.ExtTreeMap.getElem?_filterMap', h]
  by_cases hempty : nodeRoutes t v6 name node = ∅
  · simp [hempty]
  · simp [Option.filter, hempty]

theorem getElem?_defaultVia {node : Node} {gw dest : String} {route : RouteConfig}
    (h : (defaultVia v6 node gw)[dest]? = some route) : dest = defaultKey v6 ∧ route = routeVia gw := by
  unfold defaultVia at h
  split_ifs at h
  · simp at h
  · rw [Std.ExtTreeMap.getElem?_insert] at h
    split_ifs at h with hk
    · exact ⟨(Std.LawfulEqOrd.eq_of_compare hk).symm, (Option.some.inj h).symm⟩
    · simp at h

theorem defaultVia_of_not_hasDefault {node : Node} {gw : String} (h : ¬ hasDefault node.routes v6) :
    (defaultVia v6 node gw)[defaultKey v6]? = some (routeVia gw) := by
  unfold defaultVia
  rw [if_neg h]
  simp

theorem nodeRoutes_of_isolated {name : String} {node : Node} (h : neighbors t v6 name = []) :
    nodeRoutes t v6 name node = ∅ := by
  unfold nodeRoutes
  rw [h]

/-- A stub's only route is the default via its first neighbour. -/
theorem nodeRoutes_of_stub {name : String} {node : Node} {first : Hop} {rest : List Hop}
    (hs : Stub t v6 name) (hn : neighbors t v6 name = first :: rest) :
    nodeRoutes t v6 name node = defaultVia v6 node first.2 := by
  unfold Stub at hs
  rw [hn] at hs
  have hall : (first :: rest).all (·.1 = first.1) :=
    List.all_eq_true.mpr fun a ha => decide_eq_true (hs a ha first List.mem_cons_self)
  unfold nodeRoutes
  rw [hn]
  simp only [hall, if_true]

/-- A node that is no stub has neighbours that are not all one. -/
theorem neighbors_of_not_stub {name : String} (hs : ¬ Stub t v6 name) :
    ∃ first rest, neighbors t v6 name = first :: rest ∧ ¬ (first :: rest).all (·.1 = first.1) := by
  rcases hn : neighbors t v6 name with - | ⟨first, rest⟩
  · exact absurd (fun a ha => absurd (hn ▸ ha) List.not_mem_nil) hs
  · refine ⟨first, rest, rfl, fun hall => hs fun a ha b hb => ?_⟩
    have h := List.all_eq_true.mp hall
    rw [of_decide_eq_true (h a (hn ▸ ha)), of_decide_eq_true (h b (hn ▸ hb))]

/-- The routes of a router that is no stub are those of its search. -/
theorem nodeRoutes_of_router {name : String} {node : Node} (hf : forwards t v6 name)
    (hs : ¬ Stub t v6 name) : nodeRoutes t v6 name node = routerRoutes t v6 name node := by
  obtain ⟨first, rest, hn, hall⟩ := neighbors_of_not_stub t v6 hs
  unfold nodeRoutes
  rw [hn]
  simp [hall, hf]

/-- The only route of a node that is neither is the default via its gateway. -/
theorem nodeRoutes_of_host {name : String} (node : Node) (hf : ¬ forwards t v6 name)
    (hs : ¬ Stub t v6 name) :
    ∃ gw, gateway t v6 name = some gw ∧ nodeRoutes t v6 name node = defaultVia v6 node gw.2 := by
  obtain ⟨first, rest, hn, hall⟩ := neighbors_of_not_stub t v6 hs
  refine ⟨((first :: rest).find? fun (n, _) => forwards t v6 n).getD first, ?_, ?_⟩
  · unfold gateway
    rw [hn]
    rcases hfind : (first :: rest).find? (fun hop => forwards t v6 hop.1) with - | gw <;>
      simp [hfind]
  · unfold nodeRoutes
    rw [hn]
    simp [hall, hf]

/-- Where a forwarding path leads, the search finds a first path. -/
theorem ForwardingPath.isFirst {name net : String} {hop : Hop} {rest : List Hop} {node : Node}
    (h : ForwardingPath t v6 name net hop rest) (hm : ¬ ManualRoute v6 node net) :
    ∃ p x, IsFirst (adj t v6) name (Offers t v6 node net) p x := by
  obtain ⟨q, hq⟩ := h.walk.follow
  obtain ⟨addr, haddr, hnet⟩ := h.attached
  have hoffers : Offers t v6 node net ((hop :: rest).getLast (List.cons_ne_nil hop rest)).1 :=
    ⟨addr, haddr, hnet, fun hd => hm (.inl ⟨addr, hd, .inr hnet⟩)⟩
  exact exists_isFirst (reachable t v6) (mem_reachable t v6) hq hoffers

/-! ### The routes of a topology -/

/-- The routes forward when the first hops do: those of a search, and defaults. -/
theorem routesForward_of (h : FirstHopsForward t v6) : RoutesForward t v6 := by
  intro name node hnode hf net hnet
  constructor
  · intro route hroute
    rw [autoRoute_eq t v6 hnode] at hroute
    by_cases hs : Stub t v6 name
    · rcases hn : neighbors t v6 name with - | ⟨first, rest⟩
      · rw [nodeRoutes_of_isolated t v6 hn] at hroute
        simp at hroute
      · rw [nodeRoutes_of_stub t v6 hs hn] at hroute
        exact absurd (getElem?_defaultVia v6 hroute).1 hnet
    · by_cases hown : forwards t v6 name
      · rw [nodeRoutes_of_router t v6 hown hs, routerRoutes_eq_some] at hroute
        obtain ⟨hr, hd, p, x, hp, rfl⟩ := hroute
        exact h.search name node hnode hf hown hs net hnet hr hd p x hp
      · obtain ⟨gw, -, hroutes⟩ := nodeRoutes_of_host t v6 node hown hs
        rw [hroutes] at hroute
        exact absurd (getElem?_defaultVia v6 hroute).1 hnet
  · intro hop rest hpath hr hm
    have hdefault : ¬ hasDefault node.routes v6 := fun hdef => hm (.inr hdef)
    by_cases hs : Stub t v6 name
    · rcases hn : neighbors t v6 name with - | ⟨first, others⟩
      · exact absurd (hn ▸ hpath.walk.1) List.not_mem_nil
      · have hfirst : first ∈ neighbors t v6 name := hn ▸ List.mem_cons_self
        refine ⟨defaultKey v6, routeVia first.2, .inr rfl, ?_, first, rest,
          hpath.of_first t v6 hfirst (hs first hfirst hop hpath.walk.1), rfl⟩
        rw [autoRoute_eq t v6 hnode, nodeRoutes_of_stub t v6 hs hn,
          defaultVia_of_not_hasDefault v6 hdefault]
    · by_cases hown : forwards t v6 name
      · obtain ⟨p, x, hp⟩ := hpath.isFirst t v6 hm
        have hd : net ∉ node.routes := fun hd => hm (.inl ⟨net, hd, .inl rfl⟩)
        refine ⟨net, routeVia (firstAddr t v6 name p), .inl rfl, ?_,
          h.search name node hnode hf hown hs net hnet hr hd p x hp⟩
        rw [autoRoute_eq t v6 hnode, nodeRoutes_of_router t v6 hown hs, routerRoutes_eq_some]
        exact ⟨hr, hd, p, x, hp, rfl⟩
      · obtain ⟨gw, hgw, hroutes⟩ := nodeRoutes_of_host t v6 node hown hs
        obtain ⟨gw', hgw', hleads⟩ := h.profile name node hnode hf hown hs net hnet hop rest hpath hr hm
        cases hgw.symm.trans hgw'
        refine ⟨defaultKey v6, routeVia gw.2, .inr rfl, ?_, hleads⟩
        rw [autoRoute_eq t v6 hnode, hroutes, defaultVia_of_not_hasDefault v6 hdefault]

theorem firstHopsForward_of (h : RoutesForward t v6) : FirstHopsForward t v6 where
  search name node hnode hf hown hs net hnet hr hd p x hp := by
    refine (h name node hnode hf net hnet).1 _ ?_
    rw [autoRoute_eq t v6 hnode, nodeRoutes_of_router t v6 hown hs, routerRoutes_eq_some]
    exact ⟨hr, hd, p, x, hp, rfl⟩
  profile name node hnode hf hown hs net hnet hop rest hpath hr hm := by
    obtain ⟨gw, hgw, hroutes⟩ := nodeRoutes_of_host t v6 node hown hs
    obtain ⟨dest, route, -, hroute, hleads⟩ := (h name node hnode hf net hnet).2 hop rest hpath hr hm
    rw [autoRoute_eq t v6 hnode, hroutes] at hroute
    obtain ⟨-, rfl⟩ := getElem?_defaultVia v6 hroute
    exact ⟨gw, hgw, hleads⟩

/-- The routes forward exactly when the first hops do. -/
theorem routesForward_iff : RoutesForward t v6 ↔ FirstHopsForward t v6 :=
  ⟨firstHopsForward_of t v6, routesForward_of t v6⟩

/-- A router with a neighbour on either side; the host `h` is on the way to `s` and
does not forward. -/
def silentHost : Topology :=
  { lab := { name := "lab", routing := .auto }
    nodes := .ofList [("h", {}), ("q", {}), ("s", {}),
      ("r", { sysctls := .ofList [("net.ipv4.ip_forward", "1")] compare })] compare
    links :=
      [{ endpoints := ("r:eth0", "h:eth0"), addresses := some ("10.0.1.1/24", "10.0.1.2/24") },
        { endpoints := ("h:eth1", "s:eth0"), addresses := some ("10.0.2.1/24", "10.0.2.2/24") },
        { endpoints := ("r:eth1", "q:eth0"), addresses := some ("10.0.3.1/24", "10.0.3.2/24") }] }

/-- The router's route to the network of `s` is via `h`, which drops what comes. -/
theorem route_via_silentHost :
    silentHost.valid Plan.Env.sample.nl Plan.Env.sample.vals ∧ silentHost.lab.routing = .auto ∧
      ¬ RoutesForward silentHost false := by
  refine ⟨by decide +kernel, rfl, fun h => ?_⟩
  have hnode : silentHost.nodes["r"]? =
      some { sysctls := .ofList [("net.ipv4.ip_forward", "1")] compare } := by decide +kernel
  have hroute : autoRoute silentHost false "r" "10.0.2.0/24" = some (routeVia "10.0.1.2") := by
    decide +kernel
  have hsilent : ∀ hop ∈ neighbors silentHost false "r", hop.2 = "10.0.1.2" →
      ¬ forwardsFamily silentHost false hop.1 := by decide +kernel
  obtain ⟨hop, rest, hpath, hvia⟩ := (h "r" _ hnode (by decide +kernel) _ (by decide)).1 _ hroute
  exact hsilent hop hpath.walk.1 (Option.some.inj hvia).symm hpath.first

end NlinkLab.Routes
