import NlinkLab.Data.BTreeMap

/-! Firewall and NAT configuration of a node (`types.rs`). -/

namespace NlinkLab

/-- One field of a set key. -/
inductive SetKey where
  | ipv4 | ipv6 | port | mark
  deriving DecidableEq

/-- A named nftables set. -/
@[ext] structure FirewallSet where
  key : List SetKey := []
  elements : List String := []
  size : Option UInt32 := none
  timeout : Option String := none
  dynamic : Bool := false
  deriving DecidableEq

/-- The answer a `reject` rule sends. -/
inductive RejectWith where
  | tcpReset | portUnreachable | hostUnreachable | noRoute | adminProhibited
  deriving DecidableEq

/-- The unit of a limit's rate. -/
inductive LimitPer where
  | second | minute | hour | day
  deriving DecidableEq

@[ext] structure FirewallLimit where
  rate : UInt64
  per : LimitPer
  burst : Option UInt32 := none
  over' : Bool := false
  bytes : Bool := false
  deriving DecidableEq

@[ext] structure FirewallLog where
  logPrefix : Option String := none
  group : Option UInt16 := none
  level : Option String := none
  deriving DecidableEq

@[ext] structure MarkValue where
  value : UInt32
  mask : Option UInt32 := none
  deriving DecidableEq

/-- What a rule does to the connection mark. -/
inductive CtMarkAction where
  | set (value : UInt32) | save | restore
  deriving DecidableEq

inductive MssClamp where
  | pmtu | mss (value : UInt16)
  deriving DecidableEq

@[ext] structure FirewallRule where
  matchExpr : Option String := none
  action : Option String := none
  rejectWith : Option RejectWith := none
  limit : Option FirewallLimit := none
  counter : Bool := false
  counterName : Option String := none
  log : Option FirewallLog := none
  setMark : Option MarkValue := none
  ctMark : Option CtMarkAction := none
  classify : Option String := none
  clampMss : Option MssClamp := none
  deriving DecidableEq

/-- One firewall chain besides input. -/
@[ext] structure FirewallChain where
  policy : Option String := none
  rules : List FirewallRule := []
  deriving DecidableEq

/-- `policy` and `rules` are the input chain. -/
@[ext] structure FirewallConfig where
  policy : Option String := none
  rules : List FirewallRule := []
  forward : Option FirewallChain := none
  output : Option FirewallChain := none
  sets : BTreeMap String FirewallSet := ∅
  deriving DecidableEq

namespace FirewallConfig

/-- A profile's input chain is replaced only by a layer that declares one. -/
def inputDeclared (fw : FirewallConfig) : Bool :=
  fw.policy.isSome || !fw.rules.isEmpty

/-- Lay `other`'s declared chains over these, chain by chain, and its sets by name. -/
def mergeFrom (fw other : FirewallConfig) : FirewallConfig where
  policy := if other.inputDeclared then other.policy else fw.policy
  rules := if other.inputDeclared then other.rules else fw.rules
  forward := other.forward.or fw.forward
  output := other.output.or fw.output
  sets := other.sets.foldl (fun m name set => m.insert name set) fw.sets

end FirewallConfig

inductive NatFlag where
  | random | fullyRandom | persistent
  deriving DecidableEq

inductive NatProto where
  | tcp | udp
  deriving DecidableEq

inductive NatAction where
  | masquerade | snat | dnat | translate | redirect
  deriving DecidableEq

@[ext] structure NatRule where
  action : NatAction
  src : Option String := none
  dst : Option String := none
  target : Option String := none
  targetPort : Option UInt16 := none
  proto : Option NatProto := none
  dport : Option UInt16 := none
  iif : Option String := none
  oif : Option String := none
  targetEnd : Option String := none
  targetPortEnd : Option UInt16 := none
  flags : List NatFlag := []
  deriving DecidableEq

@[ext] structure NatConfig where
  rules : List NatRule := []
  deriving DecidableEq

end NlinkLab
