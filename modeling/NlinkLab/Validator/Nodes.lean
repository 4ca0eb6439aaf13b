import NlinkLab.Validator.Interfaces

/-! The validator's rules on what a node declares (`validator.rs`): VLANs, bonds,
VRFs, VXLANs, routes, host-side links, containers and foreign nodes. -/

namespace NlinkLab.Validator

/-! ### VLANs, bonds and VRFs -/

def isVlanId (vid : UInt16) : Bool := vid ≠ 0 ∧ vid ≤ 4094

def validateVlanRange (t : Topology) : List ValidationIssue :=
  t.networks.toList.flatMap fun (name, network) =>
    let at' := "networks." ++ name
    let outOfRange := fun (what : String) (vid : UInt16) (location : String) =>
      if isVlanId vid then none
      else some (error "vlan-range" (what ++ " " ++ toString vid ++ " out of range (1-4094)") location)
    (network.vlans.keys.filterMap fun vid =>
      outOfRange "VLAN ID" vid (at' ++ ".vlans." ++ toString vid)) ++
    network.ports.toList.flatMap fun (port, c) =>
      (c.vlans.filterMap fun vid => outOfRange "VLAN ID" vid (at' ++ ".ports." ++ port ++ ".vlans")) ++
      (c.pvid.bind fun pvid => outOfRange "PVID" pvid (at' ++ ".ports." ++ port ++ ".pvid")).toList

/-- The members of a bond: interfaces of the node, in no bond before it. `enslaved`
has the members so far with their bonds. -/
def checkBondMembers (t : Topology) (node bond : String) (enslaved : BTreeMap String String)
    (members : List String) : List ValidationIssue × BTreeMap String String :=
  let location := "nodes." ++ node ++ ".interfaces." ++ bond ++ ".members"
  members.foldl (fun (issues, enslaved) member =>
    if member = bond ∨ !hasIface t node member then
      (issues ++ [error "bond-member-exists" ("bond '" ++ bond ++ "' on node '" ++ node ++
        "': member '" ++ member ++ "' is not an interface of the node") location], enslaved)
    else
      let twice := (enslaved[member]?).map fun other => error "bond-member-exists"
        ("'" ++ member ++ "' on node '" ++ node ++ "' is a member of both '" ++ other ++ "' and '" ++
          bond ++ "'") location
      (issues ++ twice.toList, enslaved.insert member bond)) ([], enslaved)

def checkVlanParent (t : Topology) (node vlan : String) (c : InterfaceConfig) : Option ValidationIssue :=
  c.parent.bind fun parent =>
    if parent = vlan ∨ !hasIface t node parent then
      some (error "vlan-parent-exists" ("vlan '" ++ vlan ++ "' on node '" ++ node ++ "': parent '" ++
        parent ++ "' is not an interface of the node")
        ("nodes." ++ node ++ ".interfaces." ++ vlan ++ ".parent"))
    else none

def validateBondAndVlanRefs (t : Topology) : List ValidationIssue :=
  t.nodes.toList.flatMap fun (name, node) =>
    (node.interfaces.toList.foldl (fun (issues, enslaved) (iface, c) =>
      match c.kind with
      | some .bond =>
        let (found, enslaved) := checkBondMembers t name iface enslaved c.members
        (issues ++ found, enslaved)
      | some .vlan => (issues ++ (checkVlanParent t name iface c).toList, enslaved)
      | _ => (issues, enslaved)) (([] : List ValidationIssue), (∅ : BTreeMap String String))).1

/-- An interface has one master: a VRF or a bond. -/
def validateInterfaceMasters (t : Topology) : List ValidationIssue :=
  t.nodes.toList.flatMap fun (name, node) =>
    let vrfs := node.vrfs.toList.flatMap fun (vrf, c) => c.interfaces.map (·, "vrf " ++ vrf)
    let bonds := node.interfaces.toList.flatMap fun (bond, c) =>
      if c.kind = some .bond then c.members.map (·, "bond " ++ bond) else []
    (BTreeMap.group (vrfs ++ bonds)).toList.filterMap fun (iface, claimed) =>
      if 1 < claimed.length then
        some (error "interface-one-master" ("interface '" ++ iface ++ "' of node '" ++ name ++
          "' has more than one master: " ++ ", ".intercalate claimed) ("nodes." ++ name))
      else none

def validateVrfTableUnique (t : Topology) : List ValidationIssue :=
  t.nodes.toList.flatMap fun (name, node) =>
    (node.vrfs.toList.foldl (fun (issues, seen) (vrf, c) =>
      let shared := ((seen : BTreeMap UInt32 String)[c.table]?).map fun existing =>
        error "vrf-table-unique" ("VRF '" ++ vrf ++ "' and '" ++ existing ++ "' on node '" ++ name ++
          "' share table " ++ toString c.table) ("nodes." ++ name ++ ".vrfs." ++ vrf)
      (issues ++ shared.toList, seen.insert c.table vrf))
      (([] : List ValidationIssue), (∅ : BTreeMap UInt32 String))).1

def validateVrfInterfaces (t : Topology) : List ValidationIssue :=
  t.nodes.toList.flatMap fun (name, node) => node.vrfs.toList.flatMap fun (vrf, c) =>
    c.interfaces.zipIdx.filterMap fun (iface, i) =>
      let location := "nodes." ++ name ++ ".vrfs." ++ vrf ++ ".interfaces[" ++ toString i ++ "]"
      checkUnresolved iface location <|>
        if hasIface t name iface then none
        else some (error "vrf-interface-exists" ("VRF '" ++ vrf ++ "' lists interface '" ++ iface ++
          "' which does not exist on node '" ++ name ++ "'") location)

/-! ### VXLANs and host-side links -/

def validateVxlanVni (t : Topology) : List ValidationIssue :=
  t.nodes.toList.flatMap fun (name, node) => node.interfaces.toList.filterMap fun (iface, c) =>
    let location := "nodes." ++ name ++ ".interfaces." ++ iface ++ ".vni"
    if c.kind ≠ some .vxlan then none
    else match c.vni with
      | none => some (error "vxlan-vni-range" ("VXLAN interface '" ++ iface ++ "' has no VNI") location)
      | some vni =>
        if 1 ≤ vni ∧ vni ≤ 16777215 then none
        else some (error "vxlan-vni-range"
          ("VNI " ++ toString vni ++ " out of range (1-16777215)") location)

/-- A VXLAN's underlay device and the family of its two addresses. -/
def checkVxlanUnderlay (t : Topology) (node iface : String) (c : InterfaceConfig) :
    List ValidationIssue :=
  let issue := fun (message : String) =>
    error "vxlan-underlay-address" message ("nodes." ++ node ++ ".interfaces." ++ iface)
  let underlay := c.underlay.bind fun dev =>
    if !isUnresolved dev ∧ !hasIface t node dev then
      some (issue ("VXLAN underlay '" ++ dev ++ "' is not an interface of node '" ++ node ++ "'"))
    else none
  let check := fun (field : String) (value : Option String) =>
    (value.filter (!isUnresolved ·)).bind fun v =>
      if (IpAddr.parse v).isSome then none
      else some (issue ("VXLAN " ++ field ++ " address '" ++ v ++
        "' is invalid: invalid IP address syntax"))
  let mixed := match c.local'.bind IpAddr.parse, c.remote.bind IpAddr.parse with
    | some a, some b =>
      if a.isIpv6 ≠ b.isIpv6 then
        some (issue ("VXLAN local '" ++ toString a ++ "' and remote '" ++ toString b ++
          "' are different address families"))
      else none
    | _, _ => none
  underlay.toList ++ (check "local" c.local').toList ++ (check "remote" c.remote).toList ++ mixed.toList

def validateVxlanUnderlay (t : Topology) : List ValidationIssue :=
  t.nodes.toList.flatMap fun (name, node) => node.interfaces.toList.flatMap fun (iface, c) =>
    if c.kind = some .vxlan then checkVxlanUnderlay t name iface c else []

def validateMacvlanParents (t : Topology) : List ValidationIssue :=
  t.nodes.toList.flatMap fun (node, n) =>
    let check := fun (kind field : String) (i : Nat) (name parent : String) =>
      let location := "nodes." ++ node ++ "." ++ field ++ "[" ++ toString i ++ "].parent"
      checkUnresolved parent location <|>
        (if parent = "" then some "no parent interface set"
        else (validateInterfaceName parent).map ("validation error: " ++ ·)).map fun problem =>
          error "macvlan-parent-set" (kind ++ " '" ++ name ++ "': " ++ problem) location
    (n.macvlans.zipIdx.filterMap fun (m, i) => check "macvlan" "macvlans" i m.name m.parent) ++
      n.ipvlans.zipIdx.filterMap fun (v, i) => check "ipvlan" "ipvlans" i v.name v.parent

/-! ### Routes -/

def validateRouteConfig (t : Topology) : List ValidationIssue :=
  t.nodes.toList.flatMap fun (name, node) => node.routes.toList.filterMap fun (dest, route) =>
    if route.via.isNone ∧ route.dev.isNone then
      some (error "route-gateway-type" ("route '" ++ dest ++ "' has neither 'via' nor 'dev'")
        ("nodes." ++ name ++ ".routes." ++ dest))
    else none

def isIpOrCidr (s : String) : Bool := (IpAddr.parse s).isSome ∨ (parseCidr s).toOption.isSome

def checkRouteDest (dest location : String) : Option ValidationIssue :=
  checkUnresolved dest location <|>
    if dest = "default" ∨ isIpOrCidr dest then none
    else some (error "invalid-route-dest"
      ("route destination '" ++ dest ++ "' is not 'default', an IP or a CIDR") location)

def checkGateway (via location : String) : Option ValidationIssue :=
  checkUnresolved via location <|>
    if (IpAddr.parse via).isSome then none
    else some (error "invalid-route-dest"
      ("route gateway '" ++ via ++ "' is not an IP address") location)

/-- A destination and its gateway. -/
def checkRoute (dest : String) (via : Option String) (destAt viaAt : String) : List ValidationIssue :=
  (checkRouteDest dest destAt).toList ++ (via.bind fun via => checkGateway via viaAt).toList

/-- Every assertion with where it is: the topology's and those of scenario steps. -/
def assertions (t : Topology) : List (Assertion × String) :=
  (t.assertions.zipIdx.map fun (a, i) => (a, "assertions[" ++ toString i ++ "]")) ++
  t.scenarios.zipIdx.flatMap fun (scenario, s) => scenario.steps.zipIdx.flatMap fun (step, k) =>
    step.actions.zipIdx.flatMap fun (action, j) =>
      match action with
      | .validate list => list.zipIdx.map fun (a, i) =>
          (a, "scenarios[" ++ toString s ++ "].steps[" ++ toString k ++ "].actions[" ++ toString j ++
            "].validate[" ++ toString i ++ "]")
      | _ => []

def validateRouteAddresses (t : Topology) : List ValidationIssue :=
  (t.nodes.toList.flatMap fun (name, node) =>
    (node.routes.toList.flatMap fun (dest, route) =>
      let location := "nodes." ++ name ++ ".routes." ++ dest
      checkRoute dest route.via location (location ++ ".via")) ++
    node.vrfs.toList.flatMap fun (vrf, c) => c.routes.toList.flatMap fun (dest, route) =>
      let location := "nodes." ++ name ++ ".vrfs." ++ vrf ++ ".routes." ++ dest
      checkRoute dest route.via location (location ++ ".via")) ++
  (assertions t).flatMap fun (assertion, location) =>
    match assertion with
    | .routeHas _ destination via _ =>
      checkRoute destination via (location ++ ".destination") (location ++ ".via")
    | _ => []

/-! ### Containers -/

/-- The container properties a node without an image sets. -/
def containerProps (node : Node) : List (String × Bool) :=
  [("cmd", node.cmd.isSome), ("env", node.env.isSome), ("volumes", node.volumes.isSome),
    ("entrypoint", node.entrypoint.isSome), ("hostname", node.hostname.isSome),
    ("workdir", node.workdir.isSome), ("privileged", node.privileged), ("pull", node.pull.isSome),
    ("env-file", node.envFile.isSome), ("overlay", node.overlay.isSome),
    ("cap-add", node.capAdd ≠ []), ("cap-drop", node.capDrop ≠ []), ("labels", node.labels ≠ []),
    ("exec", node.containerExec ≠ []), ("configs", node.configs ≠ [])]

/-- The nodes that wait for each other: those a walk in dependency order leaves. -/
def dependsOnCycle (t : Topology) : List String :=
  let deps := t.nodes.toList.flatMap fun (name, node) =>
    (node.dependsOn.filter t.nodes.contains).map fun dep => (dep, name)
  let inDegree := t.nodes.map fun _ node => (node.dependsOn.filter t.nodes.contains).length
  let ready := inDegree.toList.filterMap fun (n, d) => if d = 0 then some n else none
  let release := fun (s : BTreeMap String Nat × List String) (dep : String) =>
    match s.1[dep]? with
    | none => s
    | some d => (s.1.insert dep (d - 1), if d - 1 = 0 then s.2 ++ [dep] else s.2)
  let rec walk : Nat → BTreeMap String Nat → List String → BTreeMap String Nat
    | 0, inDegree, _ => inDegree
    | fuel + 1, inDegree, queue =>
      match queue.getLast? with
      | none => inDegree
      | some n =>
        let (inDegree, queue) := ((BTreeMap.group deps)[n]?.getD []).foldl release
          (inDegree, queue.dropLast)
        walk fuel inDegree queue
  (walk t.nodes.size inDegree ready).toList.filterMap fun (n, d) => if 0 < d then some n else none

def validateDependsOnCycle (t : Topology) : List ValidationIssue :=
  let cycle := dependsOnCycle t
  if cycle = [] then []
  else [{ severity := .error, rule := "depends-on-cycle", location := none
          message := "depends-on cycle detected involving nodes: " ++ ", ".intercalate cycle }]

def validateContainerFields (t : Topology) : List ValidationIssue :=
  (t.nodes.toList.flatMap fun (name, node) =>
    match node.image with
    | none => (containerProps node).filterMap fun (prop, hasValue) =>
        if hasValue then
          some (error "container-requires-image" (prop ++ " requires image")
            ("nodes." ++ name ++ "." ++ prop))
        else none
    | some image =>
      if image = "" then
        [error "empty-image" "image must not be empty" ("nodes." ++ name ++ ".image")]
      else []) ++
  (t.nodes.toList.flatMap fun (name, node) =>
    (node.pull.bind fun pull =>
      if node.image.isNone ∨ pull ∈ ["always", "missing", "never"] then none
      else some (error "container-pull" ("pull '" ++ pull ++
        "' is not one of always, missing, never") ("nodes." ++ name ++ ".pull"))).toList) ++
  (t.nodes.toList.flatMap fun (name, node) => node.dependsOn.filterMap fun dep =>
    if t.nodes.contains dep then none
    else some (error "depends-on-exists" ("depends-on references undefined node '" ++ dep ++ "'")
      ("nodes." ++ name ++ ".depends-on"))) ++
  validateDependsOnCycle t

/-! ### Foreign nodes -/

/-- What a foreign node cannot have. -/
def foreignUnsupported (node : Node) : List (String × Bool) :=
  [("an `image`", node.image.isSome), ("profiles", node.profiles ≠ []),
    ("`run`/`exec`", node.exec ≠ []), ("sysctls", !node.sysctls.isEmpty),
    ("a firewall", node.firewall.isSome), ("`nat`", node.nat.isSome),
    ("FRR routing", node.frr.isSome), ("Wi-Fi", node.wifi ≠ []), ("VRFs", !node.vrfs.isEmpty),
    ("WireGuard", !node.wireguard.isEmpty),
    ("macvlan/ipvlan", node.macvlans ≠ [] ∨ node.ipvlans ≠ []),
    ("bond/vlan/vxlan interfaces", node.interfaces.toList.any fun (_, c) => c.kind.isSome),
    ("`cpu`/`memory`", node.cpu.isSome ∨ node.memory.isSome),
    ("a healthcheck", node.healthcheck.isSome), ("`startup-delay`", node.startupDelay.isSome),
    ("`depends-on`", node.dependsOn ≠ [])]

/-- The path of a network namespace: a bare name is under `/run/netns`. -/
def netnsPath (s : String) : String := if '/' ∈ s.toList then s else "/run/netns/" ++ s

/-- The name of a network namespace that is directly under `/run/netns`. -/
def netnsName (s : String) : Option String :=
  let path := netnsPath s
  let parts := (path.toList.splitOn '/').map String.ofList
  match path.toList.head?, parts.filter fun p => p ≠ "" ∧ p ≠ "." with
  | some '/', ["run", "netns", name] => if name = ".." then none else some name
  | _, _ => none

def checkForeign (t : Topology) (name : String) (node : Node) (f : Foreign) : List ValidationIssue :=
  let at' := "nodes." ++ name
  let pfx := t.lab.effectivePrefix ++ "-"
  ((foreignUnsupported node).filterMap fun (what, present) =>
    if present then
      some (error "foreign-unsupported-property" ("foreign node '" ++ name ++ "' cannot have " ++
        what ++ ": nlink-lab does not run or configure anything inside a node it did not create") at')
    else none) ++
  (if !node.routes.isEmpty ∧ !f.manageAddresses then
    [error "foreign-unsupported-property"
      ("foreign node '" ++ name ++ "' has routes but no `manage addresses`") (at' ++ ".routes")]
  else []) ++
  match f.target with
  | .tap _ =>
    if f.manageAddresses ∨ f.manageTc then
      [error "foreign-tap-link-only" ("foreign tap '" ++ name ++
        "' cannot take `manage`: its other end is a VM's own network stack") at']
    else []
  | .netns s =>
    if (netnsName s).any fun n => (stripPrefix pfx n).isSome then
      [error "foreign-name-under-prefix" ("foreign node '" ++ name ++ "': netns " ++ netnsPath s ++
        " is named under the lab's prefix '" ++ pfx ++ "', which a cleanup of this lab sweeps") at']
    else []
  | .container _ => []

/-- The foreign block of the node an endpoint is on. -/
def foreignOf (t : Topology) (ep : String) : Option (String × Foreign) :=
  (EndpointRef.parse ep).bind fun ep =>
    (t.nodes[ep.node]?.bind (·.foreign)).map fun f => (ep.node, f)

def isTapTarget : ForeignTarget → Bool
  | .tap _ => true
  | _ => false

/-- Links and networks that foreign nodes cannot be on, and traffic control that
would go inside one. -/
def checkForeignLinks (t : Topology) : List ValidationIssue :=
  (t.links.zipIdx.filterMap fun (link, i) =>
    if (foreignOf t link.endpoints.1).isSome ∧ (foreignOf t link.endpoints.2).isSome then
      some (error "foreign-link-needs-lab-side" ("link " ++ link.endpoints.1 ++ " -- " ++
        link.endpoints.2 ++ " joins two foreign nodes: nlink-lab creates a link from a node of its own")
        ("links[" ++ toString i ++ "]"))
    else none) ++
  (t.networks.toList.flatMap fun (name, network) =>
    (network.members.filterMap fun member => (foreignOf t member).bind fun (node, f) =>
      if isTapTarget f.target then
        some (error "foreign-tap-link-only" ("foreign tap '" ++ node ++ "' cannot join network '" ++
          name ++ "': a tap takes point-to-point links only") ("networks." ++ name ++ ".members"))
      else none) ++
    network.impairments.filterMap fun rule =>
      if (t.nodes[rule.src]?.bind (·.foreign)).any fun f => !f.manageTc then
        some (error "foreign-unmanaged-tc" ("network '" ++ name ++
          "': the impairment from foreign node '" ++ rule.src ++
          "' would go inside it; add `manage tc` to it, or impair the other way")
          ("networks." ++ name ++ ".impairments"))
      else none) ++
  ([("an impairment", t.impairments.keys), ("a rate limit", t.rateLimits.keys),
    ("a qdisc", t.qdiscs.keys)].flatMap fun (what, keys) => keys.filterMap fun key =>
      (foreignOf t key).bind fun (node, f) =>
        if f.manageTc then none
        else some (error "foreign-unmanaged-tc" (what ++ " on " ++ key ++
          " would go inside foreign node '" ++ node ++
          "': add `manage tc` to it, or put it on the lab side of the link (`->` from there)")
          ("impairments." ++ key)))

/-- Addresses on a foreign node that does not have them managed. -/
def checkForeignAddresses (t : Topology) : List ValidationIssue :=
  let unmanaged := fun (ep addr : String) =>
    (EndpointRef.parse ep).bind fun ep =>
      (t.nodes[ep.node]?.bind (·.foreign)).bind fun f =>
        if f.manageAddresses then none else some (ep.node, ep.iface, addr)
  let onLinks := t.links.flatMap fun link => (link.addresses.map fun (a, b) =>
    (unmanaged link.endpoints.1 a).toList ++ (unmanaged link.endpoints.2 b).toList).getD []
  let onNodes := t.nodes.toList.flatMap fun (name, node) =>
    if node.foreign.any fun f => !f.manageAddresses then
      node.interfaces.toList.flatMap fun (iface, c) => c.addresses.map fun addr => (name, iface, addr)
    else []
  let onPorts := t.networks.toList.flatMap fun (_, network) =>
    network.ports.toList.flatMap fun (key, port) => port.addresses.filterMap (unmanaged key)
  (onLinks ++ onNodes ++ onPorts).map fun (node, iface, addr) =>
    warning "foreign-address-unmanaged" (addr ++ " on " ++ node ++ ":" ++ iface ++
      " is not configured: '" ++ node ++
      "' is foreign; configure it there, or add `manage addresses`") ("nodes." ++ node)

def validateForeignNodes (t : Topology) : List ValidationIssue :=
  (t.nodes.toList.flatMap fun (name, node) =>
    (node.foreign.map (checkForeign t name node)).getD []) ++
  checkForeignLinks t ++ checkForeignAddresses t

end NlinkLab.Validator
