import NlinkLab.Net
import NlinkLab.Types.Topology

/-! The names a lab's objects get (`types.rs`, `wifi.rs`): namespaces after the
lab's prefix and the node, bridges and their ports after a 32-bit hash, so that
they fit an interface name. -/

namespace NlinkLab

/-! ### Endpoints -/

/-- A parsed `node:interface`. -/
structure EndpointRef where
  node : String
  iface : String
  deriving DecidableEq

def EndpointRef.parse (s : String) : Option EndpointRef :=
  match splitOnce s ':' with
  | none => none
  | some (node, iface) => if node = "" ∨ iface = "" then none else some { node, iface }

/-! ### Hashed names -/

def djb2 (bytes : List UInt8) : UInt32 :=
  bytes.foldl (fun hash b => hash * 33 + b.toUInt32) 5381

/-- DJB2 hash of a string, as 8 hex digits. -/
def nameHashStr (name : String) : String :=
  String.ofList ((IpAddr.digits 16 8 (djb2 name.toUTF8.data.toList).toNat).map Nat.digitChar)

/-- The bridge of a shared network, in the lab's bridge namespace. -/
def networkBridgeNameFor (netName : String) : String := "nb" ++ nameHashStr netName

/-- The bridge end of the veth of a network's `idx`th member. -/
def networkPeerNameFor (netName : String) (idx : Nat) : String :=
  "np" ++ nameHashStr netName ++ toString idx

namespace LabConfig

/-- The effective namespace prefix. -/
def effectivePrefix (lab : LabConfig) : String := lab.labPrefix.getD lab.name

/-- The host's management bridge. -/
def mgmtBridgeName (lab : LabConfig) : String := "nl" ++ nameHashStr lab.name

/-- The host's end of the management veth of the node at an index. -/
def mgmtPeerName (lab : LabConfig) (idx : Nat) : String :=
  "nm" ++ nameHashStr lab.name ++ toString idx

/-- The host's bridge that a foreign tap node's tap joins. -/
def tapBridgeName (lab : LabConfig) (node : String) : String :=
  "nt" ++ nameHashStr (lab.name ++ "/" ++ node)

/-- The host's end of the `k`th link to a foreign tap node. -/
def tapPortName (lab : LabConfig) (node : String) (k : Nat) : String :=
  lab.tapBridgeName node ++ "p" ++ toString k

end LabConfig

/-- The namespace of a node. -/
def Topology.namespaceName (t : Topology) (node : String) : String :=
  t.lab.effectivePrefix ++ "-" ++ node

/-- The radio of a Wi-Fi interface, named after its node's namespace. -/
def radioName (ns iface : String) : String := ns ++ "-" ++ iface

end NlinkLab
