import NlinkLab.Data.Text
import NlinkLab.Deploy.Op

/-! What a key says of an op: its kind, which has no colon, and what it names. -/

namespace NlinkLab

namespace Op

/-- The part of a key before its first colon. -/
def kind : Op → String
  | createNamespace .. | deleteNamespace .. | createMgmtNamespace .. => "ns"
  | createContainer .. | removeContainer .. => "container"
  | attachForeign .. | detachForeign .. => "foreign"
  | createRadio .. | deleteRadio .. => "radio"
  | createMgmtBridge .. | createMgmtVeth .. | deleteHostLink .. => "hostlink"
  | createBridge .. | deleteBridge .. => "bridge"
  | createNetworkVeth .. | deleteLink .. | createVeth .. | createTapVeth .. | createMacvlan ..
  | createIpvlan .. => "link"
  | linksUp .. => "linksup"
  | sysctls .. => "sysctls"
  | stack .. => "stack"
  | dnsInject .. | removeDns .. => "dns"
  | dnsNetnsEtc .. => "dns-etc"
  | startupDelay .. => "delay"
  | exec .. | killExec .. => "exec"
  | healthcheck .. => "healthcheck"
  | frrDaemons .. | killFrrDaemons .. => "frr"
  | wifiDaemon .. | killWifiDaemon .. => "wifi"
  | killNodeProcesses .. => "procs"

/-- The part of a key after its first colon. -/
def ident : Op → String
  | createNamespace _ ns | deleteNamespace _ ns | createMgmtNamespace ns | dnsNetnsEtc _ ns => ns
  | createContainer node .. | removeContainer node _ | attachForeign node .. | detachForeign node _
  | linksUp node _ | sysctls node _ | stack node _ | startupDelay node _ | healthcheck node ..
  | frrDaemons node _ | killFrrDaemons node .. | killNodeProcesses node => node
  | createRadio node iface .. | deleteRadio node iface _ | createNetworkVeth node iface ..
  | deleteLink node iface => node ++ ":" ++ iface
  | createMgmtBridge name .. | deleteHostLink name => name
  | createMgmtVeth _ peer .. => peer
  | createBridge ns _ name .. | deleteBridge ns name => ns ++ ":" ++ name
  | createVeth a .. | createTapVeth a .. => a.node ++ ":" ++ a.iface
  | createMacvlan node cfg => node ++ ":" ++ cfg.name
  | createIpvlan node cfg => node ++ ":" ++ cfg.name
  | dnsInject lab | removeDns lab => lab
  | exec node index _ | killExec node index => node ++ ":" ++ toString index
  | wifiDaemon node wifi => node ++ ":" ++ wifi.name
  | killWifiDaemon node name _ => node ++ ":" ++ name

theorem key_eq (o : Op) : o.key = o.kind ++ ":" ++ o.ident := by
  cases o <;> simp only [key, kind, ident, String.append_assoc] <;> rfl

theorem colon_notMem_kind (o : Op) : ':' ∉ o.kind.toList := by
  cases o <;> simp [kind]

theorem key_inj {o o' : Op} : o.key = o'.key ↔ o.kind = o'.kind ∧ o.ident = o'.ident := by
  rw [key_eq, key_eq]
  constructor
  · exact append_inj_of_sep (c := ':') (colon_notMem_kind o) (colon_notMem_kind o')
  · rintro ⟨hk, hi⟩
    rw [hk, hi]

end Op

end NlinkLab
