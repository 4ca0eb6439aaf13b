import NlinkLab.Validator

/-! The validator and the MTUs of links: none of its rules reads one, so that it finds
the same issues in a topology whatever the MTUs of its links are. -/

namespace NlinkLab

namespace Topology

/-- A topology without the MTUs of its links. -/
def mtuless (t : Topology) : Topology := { t with links := t.links.map fun l => { l with mtu := none } }

end Topology

namespace Validator

variable (nl : Nlink) (vals : Values) (t : Topology)

theorem zipIdx_mtuless : t.mtuless.links.zipIdx =
    t.links.zipIdx.map fun e => ({ e.1 with mtu := none }, e.2) := by
  unfold Topology.mtuless
  rw [List.zipIdx_map]
  rfl

theorem linkSources_mtuless : linkSources t.mtuless = linkSources t := by
  unfold linkSources
  rw [zipIdx_mtuless, List.flatMap_map]

theorem linkEndpoints_mtuless : linkEndpoints t.mtuless = linkEndpoints t := by
  unfold linkEndpoints
  rw [zipIdx_mtuless, List.flatMap_map]

theorem collectInterfaces_mtuless : collectInterfaces t.mtuless = collectInterfaces t := by
  unfold collectInterfaces
  rw [linkSources_mtuless]
  rfl

theorem allSources_mtuless : allSources t.mtuless = allSources t := by
  unfold allSources
  rw [linkSources_mtuless]
  rfl

theorem validateDuplicateLinkEndpoints_mtuless :
    validateDuplicateLinkEndpoints t.mtuless = validateDuplicateLinkEndpoints t := by
  unfold validateDuplicateLinkEndpoints
  rw [zipIdx_mtuless, List.flatMap_map]

theorem validateCidrs_mtuless : validateCidrs t.mtuless = validateCidrs t := by
  unfold validateCidrs
  rw [zipIdx_mtuless, List.flatMap_map]
  rfl

theorem validateLinkEndpointSubnets_mtuless :
    validateLinkEndpointSubnets t.mtuless = validateLinkEndpointSubnets t := by
  unfold validateLinkEndpointSubnets
  rw [zipIdx_mtuless, List.filterMap_map]
  rfl

theorem validateForeignNodes_mtuless : validateForeignNodes t.mtuless = validateForeignNodes t := by
  have hlinks : checkForeignLinks t.mtuless = checkForeignLinks t := by
    unfold checkForeignLinks
    rw [zipIdx_mtuless, List.filterMap_map]
    rfl
  have haddresses : checkForeignAddresses t.mtuless = checkForeignAddresses t := by
    have hflat : ∀ f : Link → List (String × String × String), (∀ l, f { l with mtu := none } = f l) →
        t.mtuless.links.flatMap f = t.links.flatMap f := fun f hf => by
      unfold Topology.mtuless
      rw [List.flatMap_map]
      exact List.flatMap_congr fun l _ => hf l
    unfold checkForeignAddresses
    dsimp only
    rw [hflat _ fun _ => rfl]
    rfl
  unfold validateForeignNodes
  rw [hlinks, haddresses]
  rfl

theorem declaredSubnets_mtuless : declaredSubnets t.mtuless = declaredSubnets t := by
  unfold declaredSubnets
  rw [zipIdx_mtuless, List.flatMap_map]
  rfl

theorem hasIface_mtuless : hasIface t.mtuless = hasIface t := by
  funext node iface
  unfold hasIface
  rw [collectInterfaces_mtuless]

theorem checkIface_mtuless : checkIface t.mtuless = checkIface t := by
  funext rule key location
  unfold checkIface
  rw [collectInterfaces_mtuless]

theorem validateNames_mtuless : validateNames t.mtuless = validateNames t := by
  unfold validateNames
  rw [collectInterfaces_mtuless]
  rfl

theorem validateEndpointFormat_mtuless : validateEndpointFormat t.mtuless = validateEndpointFormat t := by
  unfold validateEndpointFormat
  rw [linkEndpoints_mtuless]
  rfl

theorem validateDanglingNodeRefs_mtuless : validateDanglingNodeRefs t.mtuless = validateDanglingNodeRefs t := by
  unfold validateDanglingNodeRefs
  rw [linkEndpoints_mtuless]
  rfl

theorem validateInterfaceUniqueness_mtuless :
    validateInterfaceUniqueness t.mtuless = validateInterfaceUniqueness t := by
  unfold validateInterfaceUniqueness
  rw [allSources_mtuless]

theorem validateInterfaceNameLength_mtuless :
    validateInterfaceNameLength t.mtuless = validateInterfaceNameLength t := by
  unfold validateInterfaceNameLength
  rw [collectInterfaces_mtuless]

theorem validateOverlappingSubnets_mtuless :
    validateOverlappingSubnets t.mtuless = validateOverlappingSubnets t := by
  unfold validateOverlappingSubnets collectSubnets
  rw [declaredSubnets_mtuless]

theorem validateTc_mtuless : validateImpairmentRefs t.mtuless = validateImpairmentRefs t ∧
    validateRateLimitRefs t.mtuless = validateRateLimitRefs t ∧
    validateQdiscs nl vals t.mtuless = validateQdiscs nl vals t := by
  refine ⟨?_, ?_, ?_⟩
  · unfold validateImpairmentRefs
    rw [checkIface_mtuless]
    rfl
  · unfold validateRateLimitRefs
    rw [checkIface_mtuless]
    rfl
  · unfold validateQdiscs
    rw [checkIface_mtuless]
    rfl

theorem validateNodeRefs_mtuless : validateBondAndVlanRefs t.mtuless = validateBondAndVlanRefs t ∧
    validateVrfInterfaces t.mtuless = validateVrfInterfaces t ∧
    validateVxlanUnderlay t.mtuless = validateVxlanUnderlay t := by
  refine ⟨?_, ?_, ?_⟩
  · unfold validateBondAndVlanRefs checkBondMembers checkVlanParent
    rw [hasIface_mtuless]
    rfl
  · unfold validateVrfInterfaces
    rw [hasIface_mtuless]
    rfl
  · unfold validateVxlanUnderlay checkVxlanUnderlay
    rw [hasIface_mtuless]
    rfl

/-- The validator reads no link's MTU. -/
theorem validate_mtuless : t.mtuless.validate nl vals = t.validate nl vals := by
  obtain ⟨himpairments, hrates, hqdiscs⟩ := validateTc_mtuless nl vals t
  obtain ⟨hbonds, hvrfs, hunderlays⟩ := validateNodeRefs_mtuless t
  unfold Topology.validate
  rw [validateNames_mtuless, validateCidrs_mtuless, validateEndpointFormat_mtuless, validateDanglingNodeRefs_mtuless,
    validateInterfaceUniqueness_mtuless, himpairments, hrates, hqdiscs, hbonds, validateInterfaceNameLength_mtuless,
    validateDuplicateLinkEndpoints_mtuless, validateLinkEndpointSubnets_mtuless, validateOverlappingSubnets_mtuless,
    hunderlays, hvrfs, validateForeignNodes_mtuless]
  rfl

end Validator

end NlinkLab
