import NlinkLab.Validator.Nodes
import NlinkLab.Validator.Subnets
import NlinkLab.Validator.Tc

/-! The validator (`validator.rs`): its rules in order, and what it accepts. The
rules on FRR, WireGuard, NAT, firewalls, Wi-Fi, tests and benchmarks have nothing
to say about a topology without these and are not modelled, nor are the rules
that only warn. -/

namespace NlinkLab

namespace Topology

/-- The issues of a topology. -/
def validate (nl : Nlink) (vals : Values) (t : Topology) : List ValidationIssue :=
  open Validator in
  validateNames t ++ validateCidrs t ++ validateEndpointFormat t ++ validateDanglingNodeRefs t ++
  validateDanglingProfileRefs t ++ validateInterfaceUniqueness t ++ validateVlanRange t ++
  validateImpairmentRefs t ++ validateRateLimitRefs t ++ validateQdiscs nl vals t ++
  validateBondAndVlanRefs t ++ validateInterfaceMasters t ++ validateRouteConfig t ++
  validateInterfaceNameLength t ++ validateVrfTableUnique t ++ validateDuplicateLinkEndpoints t ++
  validateLinkEndpointSubnets t ++ validateOverlappingSubnets t ++ validateImpairmentValues nl vals t ++
  validateRouteAddresses t ++ validateMgmtSubnet t ++ validateVxlanVni t ++ validateVxlanUnderlay t ++
  validateMacvlanParents t ++ validateVrfInterfaces t ++ validateContainerFields t ++
  validateForeignNodes t

/-- Whether the validator accepts a topology: it finds no error. -/
def valid (nl : Nlink) (vals : Values) (t : Topology) : Bool :=
  (t.validate nl vals).all fun issue => issue.severity ≠ .error

end Topology

end NlinkLab
