import NlinkLab.Data.Serialize
import NlinkLab.Types.Topology

/-! The serialized form of the topology types: the names, order, skips and
tagging of their `Serialize` implementations, and that each is recovered from
its serialized form. -/

namespace NlinkLab

open Json

/-! ### Firewall and NAT -/

instance : Serialize SetKey where
  toValue
    | .ipv4 => .str "ipv4"
    | .ipv6 => .str "ipv6"
    | .port => .str "port"
    | .mark => .str "mark"

instance : LawfulSerialize SetKey := ⟨by rintro ⟨⟩ ⟨⟩ <;> simp [toValue]⟩

instance : Record FirewallSet where
  names := ["key", "elements", "size", "timeout", "dynamic"]
  fields s := [field "key" s.key, field "elements" s.elements, skipNone "size" s.size,
    skipNone "timeout" s.timeout, skipIf false "dynamic" s.dynamic]

instance : LawfulRecord FirewallSet where
  names_eq _ := rfl
  nodup := by decide
  inj x y h := by simpa [fields, FirewallSet.ext_iff] using h

instance : Serialize RejectWith where
  toValue
    | .tcpReset => .str "tcp-reset"
    | .portUnreachable => .str "port-unreachable"
    | .hostUnreachable => .str "host-unreachable"
    | .noRoute => .str "no-route"
    | .adminProhibited => .str "admin-prohibited"

instance : LawfulSerialize RejectWith := ⟨by rintro ⟨⟩ ⟨⟩ <;> simp [toValue]⟩

instance : Serialize LimitPer where
  toValue
    | .second => .str "second"
    | .minute => .str "minute"
    | .hour => .str "hour"
    | .day => .str "day"

instance : LawfulSerialize LimitPer := ⟨by rintro ⟨⟩ ⟨⟩ <;> simp [toValue]⟩

instance : Record FirewallLimit where
  names := ["rate", "per", "burst", "over", "bytes"]
  fields l := [field "rate" l.rate, field "per" l.per, skipNone "burst" l.burst,
    skipIf false "over" l.over', skipIf false "bytes" l.bytes]

instance : LawfulRecord FirewallLimit where
  names_eq _ := rfl
  nodup := by decide
  inj x y h := by simpa [fields, FirewallLimit.ext_iff] using h

instance : Record FirewallLog where
  names := ["prefix", "group", "level"]
  fields l := [skipNone "prefix" l.logPrefix, skipNone "group" l.group, skipNone "level" l.level]

instance : LawfulRecord FirewallLog where
  names_eq _ := rfl
  nodup := by decide
  inj x y h := by simpa [fields, FirewallLog.ext_iff] using h

instance : Record MarkValue where
  names := ["value", "mask"]
  fields m := [field "value" m.value, skipNone "mask" m.mask]

instance : LawfulRecord MarkValue where
  names_eq _ := rfl
  nodup := by decide
  inj x y h := by simpa [fields, MarkValue.ext_iff] using h

def CtMarkAction.ser : CtMarkAction → Value
  | set v => newtypeVariant "set" v
  | save => .str "save"
  | restore => .str "restore"

instance : Serialize CtMarkAction := ⟨CtMarkAction.ser⟩

instance : LawfulSerialize CtMarkAction where
  inj a b (h : a.ser = b.ser) := by
    cases a <;> cases b <;> simp_all [CtMarkAction.ser, newtypeVariant]

def MssClamp.ser : MssClamp → Value
  | pmtu => .str "pmtu"
  | mss v => newtypeVariant "mss" v

instance : Serialize MssClamp := ⟨MssClamp.ser⟩

instance : LawfulSerialize MssClamp where
  inj a b (h : a.ser = b.ser) := by
    cases a <;> cases b <;> simp_all [MssClamp.ser, newtypeVariant]

instance : Record FirewallRule where
  names := ["match", "action", "reject_with", "limit", "counter", "counter_name", "log", "set_mark",
    "ct_mark", "classify", "clamp_mss"]
  fields r := [field "match" r.matchExpr, field "action" r.action,
    skipNone "reject_with" r.rejectWith, skipNone "limit" r.limit, skipIf false "counter" r.counter,
    skipNone "counter_name" r.counterName, skipNone "log" r.log, skipNone "set_mark" r.setMark,
    skipNone "ct_mark" r.ctMark, skipNone "classify" r.classify, skipNone "clamp_mss" r.clampMss]

instance : LawfulRecord FirewallRule where
  names_eq _ := rfl
  nodup := by decide
  inj x y h := by simpa [fields, FirewallRule.ext_iff] using h

instance : Record FirewallChain where
  names := ["policy", "rules"]
  fields c := [field "policy" c.policy, field "rules" c.rules]

instance : LawfulRecord FirewallChain where
  names_eq _ := rfl
  nodup := by decide
  inj x y h := by simpa [fields, FirewallChain.ext_iff] using h

instance : Record FirewallConfig where
  names := ["policy", "rules", "forward", "output", "sets"]
  fields c := [field "policy" c.policy, field "rules" c.rules, skipNone "forward" c.forward,
    skipNone "output" c.output, skipIf ∅ "sets" c.sets]

instance : LawfulRecord FirewallConfig where
  names_eq _ := rfl
  nodup := by decide
  inj x y h := by simpa [fields, FirewallConfig.ext_iff] using h

instance : Serialize NatFlag where
  toValue
    | .random => .str "random"
    | .fullyRandom => .str "fully-random"
    | .persistent => .str "persistent"

instance : LawfulSerialize NatFlag := ⟨by rintro ⟨⟩ ⟨⟩ <;> simp [toValue]⟩

instance : Serialize NatProto where
  toValue
    | .tcp => .str "tcp"
    | .udp => .str "udp"

instance : LawfulSerialize NatProto := ⟨by rintro ⟨⟩ ⟨⟩ <;> simp [toValue]⟩

instance : Serialize NatAction where
  toValue
    | .masquerade => .str "masquerade"
    | .snat => .str "snat"
    | .dnat => .str "dnat"
    | .translate => .str "translate"
    | .redirect => .str "redirect"

instance : LawfulSerialize NatAction := ⟨by rintro ⟨⟩ ⟨⟩ <;> simp [toValue]⟩

instance : Record NatRule where
  names := ["action", "src", "dst", "target", "target_port", "proto", "dport", "iif", "oif",
    "target_end", "target_port_end", "flags"]
  fields r := [field "action" r.action, field "src" r.src, field "dst" r.dst,
    field "target" r.target, field "target_port" r.targetPort, skipNone "proto" r.proto,
    skipNone "dport" r.dport, skipNone "iif" r.iif, skipNone "oif" r.oif,
    skipNone "target_end" r.targetEnd, skipNone "target_port_end" r.targetPortEnd,
    skipIf [] "flags" r.flags]

instance : LawfulRecord NatRule where
  names_eq _ := rfl
  nodup := by decide
  inj x y h := by simpa [fields, NatRule.ext_iff] using h

instance : Record NatConfig where
  names := ["rules"]
  fields c := [field "rules" c.rules]

instance : LawfulRecord NatConfig where
  names_eq _ := rfl
  nodup := by decide
  inj x y h := by simpa [fields, NatConfig.ext_iff] using h

/-! ### Nodes -/

instance : Record OspfConfig where
  names := ["area", "router_id", "passive", "hello", "dead", "redistribute"]
  fields o := [skipNone "area" o.area, skipNone "router_id" o.routerId,
    skipIf [] "passive" o.passive, skipNone "hello" o.hello, skipNone "dead" o.dead,
    skipIf [] "redistribute" o.redistribute]

instance : LawfulRecord OspfConfig where
  names_eq _ := rfl
  nodup := by decide
  inj x y h := by simpa [fields, OspfConfig.ext_iff] using h

instance : Record BgpNeighbor where
  names := ["node", "remote_as", "remote"]
  fields n := [field "node" n.node, skipNone "remote_as" n.remoteAs, skipNone "remote" n.remote]

instance : LawfulRecord BgpNeighbor where
  names_eq _ := rfl
  nodup := by decide
  inj x y h := by simpa [fields, BgpNeighbor.ext_iff] using h

instance : Record BgpConfig where
  names := ["asn", "router_id", "neighbors", "networks", "redistribute"]
  fields b := [field "asn" b.asn, skipNone "router_id" b.routerId,
    skipIf [] "neighbors" b.neighbors, skipIf [] "networks" b.networks,
    skipIf [] "redistribute" b.redistribute]

instance : LawfulRecord BgpConfig where
  names_eq _ := rfl
  nodup := by decide
  inj x y h := by simpa [fields, BgpConfig.ext_iff] using h

instance : Record FrrConfig where
  names := ["ospf", "bgp"]
  fields c := [skipNone "ospf" c.ospf, skipNone "bgp" c.bgp]

instance : LawfulRecord FrrConfig where
  names_eq _ := rfl
  nodup := by decide
  inj x y h := by simpa [fields, FrrConfig.ext_iff] using h

instance : Serialize InterfaceKind where
  toValue
    | .dummy => .str "dummy"
    | .vxlan => .str "vxlan"
    | .vlan => .str "vlan"
    | .bond => .str "bond"
    | .loopback => .str "loopback"

instance : LawfulSerialize InterfaceKind := ⟨by rintro ⟨⟩ ⟨⟩ <;> simp [toValue]⟩

instance : NonNull InterfaceKind := ⟨by rintro ⟨⟩ <;> simp [toValue]⟩

instance : Serialize BondMode where
  toValue
    | .balanceRr => .str "balance-rr"
    | .activeBackup => .str "active-backup"
    | .balanceXor => .str "balance-xor"
    | .broadcast => .str "broadcast"
    | .lacp => .str "802.3ad"
    | .balanceTlb => .str "balance-tlb"
    | .balanceAlb => .str "balance-alb"

instance : LawfulSerialize BondMode := ⟨by rintro ⟨⟩ ⟨⟩ <;> simp [toValue]⟩

instance : Serialize LacpRate where
  toValue
    | .slow => .str "slow"
    | .fast => .str "fast"

instance : LawfulSerialize LacpRate := ⟨by rintro ⟨⟩ ⟨⟩ <;> simp [toValue]⟩

instance : Serialize XmitHashPolicy where
  toValue
    | .layer2 => .str "layer2"
    | .layer34 => .str "layer3+4"
    | .layer23 => .str "layer2+3"
    | .encap23 => .str "encap2+3"
    | .encap34 => .str "encap3+4"

instance : LawfulSerialize XmitHashPolicy := ⟨by rintro ⟨⟩ ⟨⟩ <;> simp [toValue]⟩

instance : Record BondOptions where
  names := ["mode", "miimon", "lacp_rate", "xmit_hash", "min_links", "updelay", "downdelay"]
  fields o := [skipNone "mode" o.mode, skipNone "miimon" o.miimon, skipNone "lacp_rate" o.lacpRate,
    skipNone "xmit_hash" o.xmitHash, skipNone "min_links" o.minLinks, skipNone "updelay" o.updelay,
    skipNone "downdelay" o.downdelay]

instance : LawfulRecord BondOptions where
  names_eq _ := rfl
  nodup := by decide
  inj x y h := by simpa [fields, BondOptions.ext_iff] using h

instance : Serialize VlanProtocol where
  toValue
    | .dot1q => .str "802.1q"
    | .dot1ad => .str "802.1ad"

instance : LawfulSerialize VlanProtocol := ⟨by rintro ⟨⟩ ⟨⟩ <;> simp [toValue]⟩

instance : Record InterfaceConfig where
  names := ["kind", "addresses", "vni", "local", "remote", "port", "underlay", "mtu", "parent",
    "members", "bond", "vlan_protocol"]
  fields i := [field "kind" i.kind, field "addresses" i.addresses, field "vni" i.vni,
    field "local" i.local', field "remote" i.remote, field "port" i.port,
    field "underlay" i.underlay, field "mtu" i.mtu, field "parent" i.parent,
    field "members" i.members, skipNone "bond" i.bond, skipNone "vlan_protocol" i.vlanProtocol]

instance : LawfulRecord InterfaceConfig where
  names_eq _ := rfl
  nodup := by decide
  inj x y h := by simpa [fields, InterfaceConfig.ext_iff] using h

instance : Record RouteConfig where
  names := ["via", "dev", "metric"]
  fields r := [field "via" r.via, field "dev" r.dev, field "metric" r.metric]

instance : LawfulRecord RouteConfig where
  names_eq _ := rfl
  nodup := by decide
  inj x y h := by simpa [fields, RouteConfig.ext_iff] using h

instance : Record VrfConfig where
  names := ["table", "interfaces", "routes"]
  fields v := [field "table" v.table, field "interfaces" v.interfaces, field "routes" v.routes]

instance : LawfulRecord VrfConfig where
  names_eq _ := rfl
  nodup := by decide
  inj x y h := by simpa [fields, VrfConfig.ext_iff] using h

instance : Record WireguardPeer where
  names := ["endpoint", "allowed_ips"]
  fields p := [skipNone "endpoint" p.endpoint, skipIf [] "allowed_ips" p.allowedIps]

instance : LawfulRecord WireguardPeer where
  names_eq _ := rfl
  nodup := by decide
  inj x y h := by simpa [fields, WireguardPeer.ext_iff] using h

instance : Record WireguardConfig where
  names := ["private_key", "listen_port", "fwmark", "addresses", "peers", "peer_settings"]
  fields w := [field "private_key" w.privateKey, field "listen_port" w.listenPort,
    field "fwmark" w.fwmark, field "addresses" w.addresses, field "peers" w.peers,
    skipIf ∅ "peer_settings" w.peerSettings]

instance : LawfulRecord WireguardConfig where
  names_eq _ := rfl
  nodup := by decide
  inj x y h := by simpa [fields, WireguardConfig.ext_iff] using h

instance : Serialize MacvlanMode where
  toValue
    | .bridge => .str "bridge"
    | .private' => .str "private"
    | .vepa => .str "vepa"
    | .passthru => .str "passthru"

instance : LawfulSerialize MacvlanMode := ⟨by rintro ⟨⟩ ⟨⟩ <;> simp [toValue]⟩

instance : Record MacvlanConfig where
  names := ["name", "parent", "mode", "addresses"]
  fields m := [field "name" m.name, field "parent" m.parent, field "mode" m.mode,
    field "addresses" m.addresses]

instance : LawfulRecord MacvlanConfig where
  names_eq _ := rfl
  nodup := by decide
  inj x y h := by simpa [fields, MacvlanConfig.ext_iff] using h

instance : Serialize IpvlanMode where
  toValue
    | .l2 => .str "l2"
    | .l3 => .str "l3"
    | .l3s => .str "l3s"

instance : LawfulSerialize IpvlanMode := ⟨by rintro ⟨⟩ ⟨⟩ <;> simp [toValue]⟩

instance : Record IpvlanConfig where
  names := ["name", "parent", "mode", "addresses"]
  fields i := [field "name" i.name, field "parent" i.parent, field "mode" i.mode,
    field "addresses" i.addresses]

instance : LawfulRecord IpvlanConfig where
  names_eq _ := rfl
  nodup := by decide
  inj x y h := by simpa [fields, IpvlanConfig.ext_iff] using h

instance : Serialize WifiMode where
  toValue
    | .ap => .str "ap"
    | .station => .str "station"
    | .mesh => .str "mesh"

instance : LawfulSerialize WifiMode := ⟨by rintro ⟨⟩ ⟨⟩ <;> simp [toValue]⟩

instance : Record WifiConfig where
  names := ["name", "mode", "ssid", "channel", "passphrase", "mesh_id", "addresses"]
  fields w := [field "name" w.name, field "mode" w.mode, field "ssid" w.ssid,
    field "channel" w.channel, field "passphrase" w.passphrase, field "mesh_id" w.meshId,
    field "addresses" w.addresses]

instance : LawfulRecord WifiConfig where
  names_eq _ := rfl
  nodup := by decide
  inj x y h := by simpa [fields, WifiConfig.ext_iff] using h

instance : Record ExecConfig where
  names := ["cmd", "background"]
  fields e := [field "cmd" e.cmd, field "background" e.background]

instance : LawfulRecord ExecConfig where
  names_eq _ := rfl
  nodup := by decide
  inj x y h := by simpa [fields, ExecConfig.ext_iff] using h

/-- Adjacently tagged: the keyword and the name. -/
def ForeignTarget.ser : ForeignTarget → Value
  | netns n => .obj [("kind", .str "netns"), ("name", .str n)]
  | container n => .obj [("kind", .str "container"), ("name", .str n)]
  | tap n => .obj [("kind", .str "tap"), ("name", .str n)]

instance : Serialize ForeignTarget := ⟨ForeignTarget.ser⟩

instance : LawfulSerialize ForeignTarget where
  inj a b (h : a.ser = b.ser) := by
    cases a <;> cases b <;> simp_all [ForeignTarget.ser]

instance : Record Foreign where
  names := ["target", "manage_addresses", "manage_tc"]
  fields f := [field "target" f.target, skipIf false "manage_addresses" f.manageAddresses,
    skipIf false "manage_tc" f.manageTc]

instance : LawfulRecord Foreign where
  names_eq _ := rfl
  nodup := by decide
  inj x y h := by simpa [fields, Foreign.ext_iff] using h

instance : Record Profile where
  names := ["sysctls", "firewall", "frr"]
  fields p := [field "sysctls" p.sysctls, field "firewall" p.firewall, skipNone "frr" p.frr]

instance : LawfulRecord Profile where
  names_eq _ := rfl
  nodup := by decide
  inj x y h := by simpa [fields, Profile.ext_iff] using h

instance : Record Node where
  names := ["profiles", "image", "cmd", "env", "volumes", "cpu", "memory", "privileged", "cap_add",
    "cap_drop", "entrypoint", "hostname", "workdir", "labels", "pull", "container_exec",
    "healthcheck", "healthcheck_interval", "healthcheck_timeout", "healthcheck_retries",
    "startup_delay", "env_file", "configs", "overlay", "depends_on", "frr", "sysctls", "interfaces",
    "routes", "firewall", "nat", "exec", "vrfs", "wireguard", "macvlans", "ipvlans", "wifi",
    "foreign"]
  fields n := [skipIf [] "profiles" n.profiles, field "image" n.image, field "cmd" n.cmd,
    skipNone "env" n.env, skipNone "volumes" n.volumes, skipNone "cpu" n.cpu,
    skipNone "memory" n.memory, skipIf false "privileged" n.privileged,
    skipIf [] "cap_add" n.capAdd, skipIf [] "cap_drop" n.capDrop,
    skipNone "entrypoint" n.entrypoint, skipNone "hostname" n.hostname,
    skipNone "workdir" n.workdir, skipIf [] "labels" n.labels, skipNone "pull" n.pull,
    skipIf [] "container_exec" n.containerExec, skipNone "healthcheck" n.healthcheck,
    skipNone "healthcheck_interval" n.healthcheckInterval,
    skipNone "healthcheck_timeout" n.healthcheckTimeout,
    skipNone "healthcheck_retries" n.healthcheckRetries, skipNone "startup_delay" n.startupDelay,
    skipNone "env_file" n.envFile, skipIf [] "configs" n.configs, skipNone "overlay" n.overlay,
    skipIf [] "depends_on" n.dependsOn, skipNone "frr" n.frr, field "sysctls" n.sysctls,
    field "interfaces" n.interfaces, field "routes" n.routes, field "firewall" n.firewall,
    field "nat" n.nat, field "exec" n.exec, field "vrfs" n.vrfs, field "wireguard" n.wireguard,
    skipIf [] "macvlans" n.macvlans, skipIf [] "ipvlans" n.ipvlans, skipIf [] "wifi" n.wifi,
    skipNone "foreign" n.foreign]

instance : LawfulRecord Node where
  names_eq _ := rfl
  nodup := by decide
  inj x y h := by simpa [fields, Node.ext_iff] using h

/-! ### Links, networks and traffic control -/

instance : Record Link where
  names := ["endpoints", "addresses", "mtu"]
  fields l := [field "endpoints" l.endpoints, field "addresses" l.addresses, field "mtu" l.mtu]

instance : LawfulRecord Link where
  names_eq _ := rfl
  nodup := by decide
  inj x y h := by simpa [fields, Link.ext_iff] using h

instance : Record Impairment where
  names := ["delay", "jitter", "loss", "rate", "corrupt", "reorder", "duplicate",
    "delay_correlation", "loss_correlation", "limit", "seed"]
  fields i := [field "delay" i.delay, field "jitter" i.jitter, field "loss" i.loss,
    field "rate" i.rate, field "corrupt" i.corrupt, field "reorder" i.reorder,
    skipNone "duplicate" i.duplicate, skipNone "delay_correlation" i.delayCorrelation,
    skipNone "loss_correlation" i.lossCorrelation, skipNone "limit" i.limit, skipNone "seed" i.seed]

instance : LawfulRecord Impairment where
  names_eq _ := rfl
  nodup := by decide
  inj x y h := by simpa [fields, Impairment.ext_iff] using h

instance : Record NetworkImpairment where
  names := ["src", "dst", "impairment", "rate_cap"]
  fields i := [field "src" i.src, field "dst" i.dst, field "impairment" i.impairment,
    field "rate_cap" i.rateCap]

instance : LawfulRecord NetworkImpairment where
  names_eq _ := rfl
  nodup := by decide
  inj x y h := by simpa [fields, NetworkImpairment.ext_iff] using h

instance : Record VlanConfig where
  names := ["name"]
  fields v := [field "name" v.name]

instance : LawfulRecord VlanConfig where
  names_eq _ := rfl
  nodup := by decide
  inj x y h := by simpa [fields, VlanConfig.ext_iff] using h

instance : Record PortConfig where
  names := ["interface", "vlans", "tagged", "pvid", "untagged", "addresses"]
  fields p := [field "interface" p.interface, field "vlans" p.vlans, field "tagged" p.tagged,
    field "pvid" p.pvid, field "untagged" p.untagged, field "addresses" p.addresses]

instance : LawfulRecord PortConfig where
  names_eq _ := rfl
  nodup := by decide
  inj x y h := by simpa [fields, PortConfig.ext_iff] using h

instance : Record Network where
  names := ["kind", "vlan_filtering", "mtu", "subnet", "members", "vlans", "ports", "impairments"]
  fields n := [field "kind" n.kind, field "vlan_filtering" n.vlanFiltering, field "mtu" n.mtu,
    field "subnet" n.subnet, field "members" n.members, field "vlans" n.vlans,
    field "ports" n.ports, field "impairments" n.impairments]

instance : LawfulRecord Network where
  names_eq _ := rfl
  nodup := by decide
  inj x y h := by simpa [fields, Network.ext_iff] using h

instance : Record RateLimit where
  names := ["egress", "ingress", "burst"]
  fields r := [field "egress" r.egress, field "ingress" r.ingress, field "burst" r.burst]

instance : LawfulRecord RateLimit where
  names_eq _ := rfl
  nodup := by decide
  inj x y h := by simpa [fields, RateLimit.ext_iff] using h

/-- Internally tagged: the kind is one field among the qdisc's. -/
def QdiscKind.fields : QdiscKind → List Field
  | tbf rate burst limit peakrate mtu => [field "kind" "tbf", field "rate" rate,
    field "burst" burst, skipNone "limit" limit, skipNone "peakrate" peakrate, skipNone "mtu" mtu]
  | fqCodel target interval limit flows quantum ecn => [field "kind" "fq_codel",
    skipNone "target" target, skipNone "interval" interval, skipNone "limit" limit,
    skipNone "flows" flows, skipNone "quantum" quantum, skipNone "ecn" ecn]
  | sfq perturb limit quantum => [field "kind" "sfq", skipNone "perturb" perturb,
    skipNone "limit" limit, skipNone "quantum" quantum]
  | prio bands => [field "kind" "prio", skipNone "bands" bands]

/-- The kind is flattened into the block. -/
def QdiscConfig.ser (q : QdiscConfig) : Value := .obj (object q.kind.fields)

instance : Serialize QdiscConfig := ⟨QdiscConfig.ser⟩

/-! ### Tests -/

instance : Serialize CompareOp where
  toValue
    | .gt => .str "Gt"
    | .lt => .str "Lt"
    | .gte => .str "Gte"
    | .lte => .str "Lte"
    | .eq => .str "Eq"
    | .ne => .str "Ne"

instance : LawfulSerialize CompareOp := ⟨by rintro ⟨⟩ ⟨⟩ <;> simp [toValue]⟩

instance : Record BenchmarkAssertion where
  names := ["metric", "op", "value"]
  fields a := [field "metric" a.metric, field "op" a.op, field "value" a.value]

instance : LawfulRecord BenchmarkAssertion where
  names_eq _ := rfl
  nodup := by decide
  inj x y h := by simpa [fields, BenchmarkAssertion.ext_iff] using h

def BenchmarkTest.ser : BenchmarkTest → Value
  | iperf3 src dst duration streams udp rate assertions => variant "Iperf3" [field "from" src,
    field "to" dst, field "duration" duration, field "streams" streams, field "udp" udp,
    skipNone "rate" rate, field "assertions" assertions]
  | ping src dst count assertions => variant "Ping" [field "from" src, field "to" dst,
    field "count" count, field "assertions" assertions]

instance : Serialize BenchmarkTest := ⟨BenchmarkTest.ser⟩

instance : LawfulSerialize BenchmarkTest where
  inj a b (h : a.ser = b.ser) := by
    cases a <;> cases b <;> simp_all [BenchmarkTest.ser, variant_inj, variant_ne]

instance : Record Benchmark where
  names := ["name", "tests"]
  fields b := [field "name" b.name, field "tests" b.tests]

instance : LawfulRecord Benchmark where
  names_eq _ := rfl
  nodup := by decide
  inj x y h := by simpa [fields, Benchmark.ext_iff] using h

instance : Serialize CounterMetric where
  toValue
    | .packets => .str "packets"
    | .bytes => .str "bytes"

instance : LawfulSerialize CounterMetric := ⟨by rintro ⟨⟩ ⟨⟩ <;> simp [toValue]⟩

def Assertion.ser : Assertion → Value
  | reach src dst => variant "Reach" [field "from" src, field "to" dst]
  | noReach src dst => variant "NoReach" [field "from" src, field "to" dst]
  | tcpConnect src dst port timeout retries interval => variant "TcpConnect" [field "from" src,
    field "to" dst, field "port" port, field "timeout" timeout, field "retries" retries,
    field "interval" interval]
  | latencyUnder src dst max samples => variant "LatencyUnder" [field "from" src, field "to" dst,
    field "max" max, field "samples" samples]
  | routeHas node destination via dev => variant "RouteHas" [field "node" node,
    field "destination" destination, field "via" via, field "dev" dev]
  | dnsResolves src name expectedIp => variant "DnsResolves" [field "from" src, field "name" name,
    field "expected_ip" expectedIp]
  | counter node name metric op value => variant "Counter" [field "node" node, field "name" name,
    field "metric" metric, field "op" op, field "value" value]

instance : Serialize Assertion := ⟨Assertion.ser⟩

instance : LawfulSerialize Assertion where
  inj a b (h : a.ser = b.ser) := by
    cases a <;> cases b <;> simp_all [Assertion.ser, variant_inj, variant_ne]

instance : Serialize Direction where
  toValue
    | .out => .str "out"
    | .in' => .str "in"
    | .both => .str "both"

instance : LawfulSerialize Direction := ⟨by rintro ⟨⟩ ⟨⟩ <;> simp [toValue]⟩

def ReplayTarget.ser : ReplayTarget → Value
  | endpoint ep dir => variant "endpoint" [field "endpoint" ep, field "dir" dir]
  | pair network src dst => variant "pair" [field "network" network, field "src" src,
    field "dst" dst]

instance : Serialize ReplayTarget := ⟨ReplayTarget.ser⟩

instance : LawfulSerialize ReplayTarget where
  inj a b (h : a.ser = b.ser) := by
    cases a <;> cases b <;> simp_all [ReplayTarget.ser, variant_inj, variant_ne]

def ScenarioAction.ser : ScenarioAction → Value
  | down ep => newtypeVariant "Down" ep
  | up ep => newtypeVariant "Up" ep
  | clear ep => newtypeVariant "Clear" ep
  | validate assertions => newtypeVariant "Validate" assertions
  | exec node cmd => variant "Exec" [field "node" node, field "cmd" cmd]
  | log message => newtypeVariant "Log" message
  | impair ep impairment => variant "Impair" [field "endpoint" ep, field "impairment" impairment]
  | partition ep both => variant "Partition" [field "endpoint" ep, field "both" both]
  | heal ep both => variant "Heal" [field "endpoint" ep, field "both" both]
  | pairImpair network src dst impairment rateCap => variant "PairImpair" [field "network" network,
    field "src" src, field "dst" dst, field "impairment" impairment, skipNone "rate_cap" rateCap]
  | replay target file stepMs looped => variant "Replay" [field "target" target,
    field "file" file, field "step_ms" stepMs, skipIf false "looped" looped]

instance : Serialize ScenarioAction := ⟨ScenarioAction.ser⟩

instance : LawfulSerialize ScenarioAction where
  inj a b (h : a.ser = b.ser) := by
    cases a <;> cases b <;>
      simp_all [ScenarioAction.ser, newtypeVariant_ne, variant_inj, variant_ne,
        variant_ne_newtypeVariant, newtypeVariant_ne_variant]

instance : Record ScenarioStep where
  names := ["time_ms", "actions"]
  fields s := [field "time_ms" s.timeMs, field "actions" s.actions]

instance : LawfulRecord ScenarioStep where
  names_eq _ := rfl
  nodup := by decide
  inj x y h := by simpa [fields, ScenarioStep.ext_iff] using h

instance : Record Scenario where
  names := ["name", "steps", "keep"]
  fields s := [field "name" s.name, field "steps" s.steps, skipIf false "keep" s.keep]

instance : LawfulRecord Scenario where
  names_eq _ := rfl
  nodup := by decide
  inj x y h := by simpa [fields, Scenario.ext_iff] using h

/-! ### The lab -/

instance : Serialize DnsMode where
  toValue
    | .off => .str "off"
    | .hosts => .str "hosts"

instance : LawfulSerialize DnsMode := ⟨by rintro ⟨⟩ ⟨⟩ <;> simp [toValue]⟩

instance : Serialize RoutingMode where
  toValue
    | .manual => .str "manual"
    | .frr => .str "frr"
    | .auto => .str "auto"

instance : LawfulSerialize RoutingMode := ⟨by rintro ⟨⟩ ⟨⟩ <;> simp [toValue]⟩

instance : Serialize ContainerRuntime where
  toValue
    | .auto => .str "auto"
    | .docker => .str "docker"
    | .podman => .str "podman"

instance : LawfulSerialize ContainerRuntime := ⟨by rintro ⟨⟩ ⟨⟩ <;> simp [toValue]⟩

instance : NonNull ContainerRuntime := ⟨by rintro ⟨⟩ <;> simp [toValue]⟩

instance : Record LabConfig where
  names := ["name", "description", "prefix", "runtime", "version", "author", "tags", "mgmt_subnet",
    "mgmt_host_reachable", "dns", "routing", "frr", "seed"]
  fields l := [field "name" l.name, field "description" l.description, field "prefix" l.labPrefix,
    field "runtime" l.runtime, skipNone "version" l.version, skipNone "author" l.author,
    skipIf [] "tags" l.tags, skipNone "mgmt_subnet" l.mgmtSubnet,
    skipIf false "mgmt_host_reachable" l.mgmtHostReachable, skipIf .off "dns" l.dns,
    skipIf .manual "routing" l.routing, skipNone "frr" l.frr, skipNone "seed" l.seed]

instance : LawfulRecord LabConfig where
  names_eq _ := rfl
  nodup := by decide
  inj x y h := by simpa [fields, LabConfig.ext_iff] using h

/-- `directionalImpairments` is not written. -/
instance : Record Topology where
  names := ["lab", "profiles", "nodes", "links", "networks", "impairments", "rate_limits", "qdiscs",
    "assertions", "assertion_retries", "assertion_interval", "scenarios", "benchmarks", "sites",
    "source_dir"]
  fields t := [field "lab" t.lab, field "profiles" t.profiles, field "nodes" t.nodes,
    field "links" t.links, field "networks" t.networks, field "impairments" t.impairments,
    field "rate_limits" t.rateLimits, skipIf ∅ "qdiscs" t.qdiscs, skipIf [] "assertions" t.assertions,
    skipNone "assertion_retries" t.assertionRetries,
    skipNone "assertion_interval" t.assertionInterval, skipIf [] "scenarios" t.scenarios,
    skipIf [] "benchmarks" t.benchmarks, skipIf ∅ "sites" t.sites, skipNone "source_dir" t.sourceDir]

end NlinkLab
