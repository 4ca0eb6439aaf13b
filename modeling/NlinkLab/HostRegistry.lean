import NlinkLab.Data.Inserts
import NlinkLab.Net.Blocks
import NlinkLab.Names
import NlinkLab.Deploy.Frr
import NlinkLab.Deploy.Rollback
import NlinkLab.Validator.Nodes

/-! What labs claim in the host's own namespace: `host_registry.rs`, and the steps of a
deploy, an apply, a destroy and `doctor --fix` that the registry and the state root see.
Any number of labs take these steps in any order, each lab under its lock; a forced
cleanup and the doctor take no lock, and the doctor reads the states before it writes the
registry. Files that cannot be read or written are left out. -/

namespace NlinkLab

/-! ### Masks -/

theorem masked_eq {w k : Nat} (x : BitVec w) : x &&& BitVec.allOnes w <<< k = (x >>> k) <<< k := by
  ext i hi
  by_cases hik : i < k
  · simp [hik]
  · have hk : k + (i - k) = i := by omega
    simp [hik, hk, BitVec.getLsbD_eq_getElem hi]

/-- Two words agree under a mask when their high bits are one number. -/
theorem masked_eq_iff {w k : Nat} (x y : BitVec w) :
    (x &&& BitVec.allOnes w <<< k = y &&& BitVec.allOnes w <<< k) ↔ x.toNat / 2 ^ k = y.toNat / 2 ^ k := by
  rw [masked_eq, masked_eq]
  constructor
  · intro h
    have hshift : ((x >>> k) <<< k) >>> k = ((y >>> k) <<< k) >>> k := by rw [h]
    have hback : ∀ z : BitVec w, ((z >>> k) <<< k) >>> k = z >>> k := fun z => by
      ext i hi
      simp only [BitVec.getElem_ushiftRight, BitVec.getLsbD_shiftLeft, BitVec.getLsbD_ushiftRight]
      by_cases hw : k + i < w
      · simp [hw]
      · simp [BitVec.getLsbD_of_ge z (k + i) (by omega)]
    rw [hback, hback] at hshift
    have hnat := congrArg BitVec.toNat hshift
    simpa [BitVec.toNat_ushiftRight, Nat.shiftRight_eq_div_pow] using hnat
  · intro h
    have hshift : x >>> k = y >>> k := by
      apply BitVec.eq_of_toNat_eq
      simpa [BitVec.toNat_ushiftRight, Nat.shiftRight_eq_div_pow] using h
    rw [hshift]

/-! ### CIDRs that meet -/

namespace IpAddr

/-- An address as a number. -/
def toNat : IpAddr → Nat
  | v4 bits => bits.toNat
  | v6 bits => bits.toNat

/-- An address lies in a CIDR: it is of the same family, and in the same block of that
length as the CIDR's address. -/
def Within (ip : IpAddr) (cidr : String) : Prop :=
  ∃ base len, parseCidr cidr = .ok (base, len) ∧ ip.isIpv4 = base.isIpv4 ∧
    ip.toNat / 2 ^ (addrBits base - len) = base.toNat / 2 ^ (addrBits base - len)

theorem within_iff {cidr : String} {base : IpAddr} {len : Nat} (h : parseCidr cidr = .ok (base, len)) (ip : IpAddr) :
    ip.Within cidr ↔ ip.isIpv4 = base.isIpv4 ∧
      ip.toNat / 2 ^ (addrBits base - len) = base.toNat / 2 ^ (addrBits base - len) := by
  constructor
  · rintro ⟨base', len', h', hin⟩
    cases h.symm.trans h'
    exact hin
  · exact fun hin => ⟨base, len, h, hin⟩

end IpAddr

theorem ipInSubnet_iff_div {ip net : IpAddr} {len : Nat} (hlen : len ≤ addrBits net) :
    ipInSubnet ip net len = true ↔ ip.isIpv4 = net.isIpv4 ∧
      ip.toNat / 2 ^ (addrBits net - len) = net.toNat / 2 ^ (addrBits net - len) := by
  rw [ipInSubnet_iff hlen]
  cases ip with
  | v4 x =>
    cases net with
    | v4 y =>
      rw [networkAddress, networkAddress, IpAddr.v4.injEq, masked_eq_iff (k := 32 - len) x y]
      exact (and_iff_right rfl).symm
    | v6 y => simp [networkAddress, IpAddr.isIpv4]
  | v6 x =>
    cases net with
    | v4 y => simp [networkAddress, IpAddr.isIpv4]
    | v6 y =>
      rw [networkAddress, networkAddress, IpAddr.v6.injEq, masked_eq_iff (k := 128 - len) x y]
      exact (and_iff_right rfl).symm

theorem isIpv4_networkAddress (ip : IpAddr) (len : Nat) : (networkAddress ip len).isIpv4 = ip.isIpv4 := by
  cases ip <;> rfl

/-- The network address is in the block of its address. -/
theorem networkAddress_div (ip : IpAddr) (len : Nat) :
    (networkAddress ip len).toNat / 2 ^ (addrBits ip - len) = ip.toNat / 2 ^ (addrBits ip - len) := by
  have hmask : ∀ {w k : Nat} (x : BitVec w), (x &&& BitVec.allOnes w <<< k).toNat / 2 ^ k = x.toNat / 2 ^ k :=
    fun x => (masked_eq_iff _ x).mp (by rw [BitVec.and_assoc, BitVec.and_self])
  cases ip with
  | v4 x => exact hmask x
  | v6 x => exact hmask x

namespace HostRegistry

/-- Whether two CIDRs share an address. -/
def overlaps (a b : String) : Bool :=
  match parseCidr a, parseCidr b with
  | .ok (ia, pa), .ok (ib, pb) =>
    if ia.isIpv4 ≠ ib.isIpv4 then false
    else
      let shorter := min pa pb
      ipInSubnet ib (networkAddress ia shorter) shorter
  | _, _ => false

/-- Two numbers of one block are of one larger block. -/
theorem div_pow_eq_of_le {n m k l : Nat} (hle : k ≤ l) (h : n / 2 ^ k = m / 2 ^ k) : n / 2 ^ l = m / 2 ^ l := by
  obtain ⟨d, rfl⟩ := Nat.exists_eq_add_of_le hle
  rw [pow_add, ← Nat.div_div_eq_div_mul, ← Nat.div_div_eq_div_mul, h]

/-- Two CIDRs overlap exactly when some address lies in both. -/
theorem overlaps_iff_exists (a b : String) :
    overlaps a b = true ↔ ∃ ip : IpAddr, ip.Within a ∧ ip.Within b := by
  unfold overlaps
  cases ha : parseCidr a with
  | error e => simp [IpAddr.Within, ha]
  | ok pa =>
    cases hb : parseCidr b with
    | error e => simp [IpAddr.Within, hb]
    | ok pb =>
      obtain ⟨ia, pa⟩ := pa
      obtain ⟨ib, pb⟩ := pb
      have hla := parseCidr_le ha
      have hlb := parseCidr_le hb
      simp only [IpAddr.within_iff ha, IpAddr.within_iff hb]
      by_cases hfamily : ia.isIpv4 = ib.isIpv4
      · have hbits : addrBits ib = addrBits ia := by simp [addrBits, hfamily]
        have hshorter : min pa pb ≤ addrBits (networkAddress ia (min pa pb)) := by
          rw [addrBits_networkAddress]
          omega
        rw [hbits, if_neg fun h => h hfamily, ipInSubnet_iff_div hshorter, isIpv4_networkAddress, addrBits_networkAddress,
          networkAddress_div]
        constructor
        · rintro ⟨-, h⟩
          -- the address of the longer prefix lies in both
          rcases le_total pa pb with hle | hle
          · rw [min_eq_left hle] at h
            exact ⟨ib, ⟨hfamily.symm, h⟩, rfl, rfl⟩
          · rw [min_eq_right hle] at h
            exact ⟨ia, ⟨rfl, rfl⟩, hfamily, h.symm⟩
        · rintro ⟨ip, ⟨-, hx⟩, -, hy⟩
          have hx' := div_pow_eq_of_le (l := addrBits ia - min pa pb) (by omega) hx
          have hy' := div_pow_eq_of_le (l := addrBits ia - min pa pb) (by omega) hy
          exact ⟨hfamily.symm, hy'.symm.trans hx'⟩
      · rw [if_pos hfamily]
        constructor
        · nofun
        · rintro ⟨ip, ⟨hx, -⟩, hy, -⟩
          exact absurd (hx.symm.trans hy) hfamily

/-! ### Claims -/

/-- The bridges of a topology's foreign tap nodes, in the host's namespace. -/
def tapBridges (t : Topology) : List String :=
  (t.nodes.toList.filter fun (_, node) => node.foreign.any (Validator.isTapTarget ·.target)).map fun (name, _) =>
    t.lab.tapBridgeName name

/-- What one lab holds in the host namespace. -/
structure Claims where
  mgmt : Option String
  bridges : List String
  deriving DecidableEq

/-- What a topology claims when deployed. -/
def Claims.of (t : Topology) : Option Claims :=
  let mgmt := t.lab.mgmtSubnet.filter fun _ => t.lab.mgmtHostReachable
  let bridges := (if mgmt.isSome then [t.lab.mgmtBridgeName] else []) ++ tapBridges t
  if mgmt.isSome ∨ bridges ≠ [] then some ⟨mgmt, bridges⟩ else none

abbrev Registry := BTreeMap String Claims

/-- What two claims conflict in, as the rule's message. -/
def conflictWith (lab : String) (claims : Claims) (other : String) (theirs : Claims) : Option String :=
  let shared := (claims.bridges.find? (· ∈ theirs.bridges)).map fun bridge =>
    "mgmt-subnet-overlap: lab '" ++ lab ++ "' wants host bridge " ++ bridge ++ ", which lab '" ++ other ++ "' has"
  match claims.mgmt, theirs.mgmt with
  | some mine, some their =>
    if overlaps mine their then
      some ("mgmt-subnet-overlap: lab '" ++ lab ++ "' wants host-reachable mgmt " ++ mine ++ ", which overlaps lab '" ++
        other ++ "''s " ++ their ++ ": the host would route one lab's traffic to the other; give one of them another subnet")
    else shared
  | _, _ => shared

/-- The first claim of another lab that claims conflict with. -/
def conflict (registry : Registry) (lab : String) (claims : Claims) : Option String :=
  (registry.toList.filter fun (name, _) => name ≠ lab).findSome? fun (other, theirs) =>
    conflictWith lab claims other theirs

/-- Claim for a lab, in place of its own earlier claim. -/
def claim (registry : Registry) (lab : String) (claims : Claims) : Except Error Registry :=
  match conflict registry lab claims with
  | some message => .error (.invalidTopology message)
  | none => .ok (registry.insert lab claims)

/-- Let go of everything a lab claimed. -/
def release (registry : Registry) (lab : String) : Registry := registry.erase lab

/-- The registry of the running labs' topologies. -/
def rebuild (labs : List (String × Topology)) : Registry :=
  (labs.filterMap fun (name, t) => (Claims.of t).map (name, ·)).foldl (fun m e => m.insert e.1 e.2) ∅

/-- No address lies in both mgmt subnets, and they have no bridge in common. -/
def Claims.Apart (a b : Claims) : Prop :=
  (∀ m m', a.mgmt = some m → b.mgmt = some m' → ¬ ∃ ip : IpAddr, ip.Within m ∧ ip.Within m') ∧
    ∀ bridge ∈ a.bridges, bridge ∉ b.bridges

theorem Claims.Apart.symm {a b : Claims} (h : a.Apart b) : b.Apart a :=
  ⟨fun m m' hm hm' ⟨ip, hin, hin'⟩ => h.1 m' m hm' hm ⟨ip, hin', hin⟩,
    fun bridge hb ha => h.2 bridge ha hb⟩

theorem conflictWith_eq_none {lab other : String} {a b : Claims} : conflictWith lab a other b = none ↔ a.Apart b := by
  have hshared : ∀ text : String → String,
      (a.bridges.find? (· ∈ b.bridges)).map text = none ↔ ∀ bridge ∈ a.bridges, bridge ∉ b.bridges := by
    intro text
    simp [Option.map_eq_none_iff, List.find?_eq_none]
  unfold conflictWith Claims.Apart
  cases ha : a.mgmt with
  | none => simp [hshared]
  | some mine =>
    cases hb : b.mgmt with
    | none => simp [hshared]
    | some their =>
      have hmeet := overlaps_iff_exists mine their
      by_cases hover : overlaps mine their = true
      · simp [hover, hmeet.mp hover]
      · have hnone := fun h => hover (hmeet.mpr h)
        simp only [hover, Bool.false_eq_true, if_false, hshared, Option.some.injEq]
        constructor
        · rintro hbridges
          refine ⟨?_, hbridges⟩
          rintro m m' rfl rfl
          exact hnone
        · exact fun h => h.2

/-- A claim is made when the lab conflicts with no other lab that is listed. -/
theorem conflict_eq_none {registry : Registry} {lab : String} {claims : Claims} :
    conflict registry lab claims = none ↔
      ∀ other theirs, registry[other]? = some theirs → other ≠ lab → claims.Apart theirs := by
  simp only [conflict, List.findSome?_eq_none_iff, List.mem_filter, conflictWith_eq_none, Prod.forall, and_imp,
    Std.ExtTreeMap.mem_toList_iff_getElem?_eq_some, decide_eq_true_eq]

/-- A rebuilt registry lists what the topologies it is rebuilt from claim. -/
theorem getElem?_rebuild {labs : List (String × Topology)} {owed : String → Option Claims}
    (h : ∀ lab c, owed lab = some c ↔ ∃ t, (lab, t) ∈ labs ∧ Claims.of t = some c) (lab : String) :
    (rebuild labs)[lab]? = owed lab := by
  have hmem : ∀ c, (lab, c) ∈ (labs.filterMap fun (name, t) => (Claims.of t).map (name, ·)) ↔ owed lab = some c := by
    intro c
    rw [h]
    simp only [List.mem_filterMap, Prod.exists, Option.map_eq_some_iff, Prod.mk.injEq]
    constructor
    · rintro ⟨_, t, ht, _, hc, rfl, rfl⟩
      exact ⟨t, ht, hc⟩
    · rintro ⟨t, ht, hc⟩
      exact ⟨lab, t, ht, c, hc, rfl, rfl⟩
  cases hfound : (rebuild labs)[lab]? with
  | none =>
    cases howed : owed lab with
    | none => rfl
    | some c =>
      have hsome : (rebuild labs)[lab]?.isSome = true := BTreeMap.isSome_foldl_insert (.inl ⟨c, (hmem c).mpr howed⟩)
      rw [hfound] at hsome
      cases hsome
  | some c =>
    rcases BTreeMap.mem_of_foldl_insert hfound with hc | ⟨hempty, -⟩
    · exact ((hmem c).mp hc).symm
    · cases Std.ExtTreeMap.getElem?_empty.symm.trans hempty

/-- What one undo does to the registry. -/
def undoRegistry (registry : Registry) : Undo → Registry
  | .releaseHostClaims lab => release registry lab
  | _ => registry

/-- Unwind a journal, newest entry first. -/
def unwind (registry : Registry) (journal : Journal) : Registry := journal.reverse.foldl undoRegistry registry

/-- The journal of a deploy once it comes to its claim. -/
def claimJournal (t : Topology) : Journal :=
  if (Claims.of t).isSome then [.releaseHostClaims t.lab.name] else []

/-! ### The host -/

/-- Where the operation that has a lab's lock is. -/
inductive LabPhase
  /-- Nobody has the lock. -/
  | idle
  /-- A deploy between its claim and its first saved state. -/
  | deploying (t : Topology)
  /-- A deploy that has saved the state; its assertions run. -/
  | checking
  /-- A destroy that has released the claims; the state is there. -/
  | destroying

/-- The registry, the state root and the operations under way. -/
structure Host where
  registry : Registry := ∅
  saved : String → Option Topology := fun _ => none
  /-- The journals on disk. -/
  journal : String → Journal := fun _ => []
  phase : String → LabPhase := fun _ => .idle
  /-- The states each `doctor --fix` has read. -/
  read : Nat → List (String × Topology) := fun _ => []

inductive HostAct
  | deploy (t : Topology)
  | refused (t : Topology)
  | save (lab : String)
  | deployed (lab : String)
  | rollback (lab : String)
  | crash (lab : String)
  | apply (lab : String) (t : Topology)
  | destroy (lab : String)
  | destroyed (lab : String)
  | reap (lab : String)
  | forceCleanup (lab : String)
  | read (doctor : Nat) (lab : String)
  | rebuild (doctor : Nat)

open Function (update)

/-- One step of an operation. -/
inductive HostStep : Host → HostAct → Host → Prop
  /-- A deploy unwinds what an interrupted one left, and claims. -/
  | deploy (s t registry) (hidle : s.phase t.lab.name = .idle) (hnone : s.saved t.lab.name = none)
      (hclaim : (match Claims.of t with
        | none => Except.ok (unwind s.registry (s.journal t.lab.name))
        | some c => claim (unwind s.registry (s.journal t.lab.name)) t.lab.name c) = .ok registry) :
      HostStep s (.deploy t) { s with
        registry := registry
        journal := update s.journal t.lab.name (claimJournal t)
        phase := update s.phase t.lab.name (.deploying t) }
  /-- The claim fails, or something before it: the deploy is rolled back. -/
  | refused (s t journal) (hidle : s.phase t.lab.name = .idle) (hnone : s.saved t.lab.name = none)
      (hjournal : journal = [] ∨ journal = claimJournal t) :
      HostStep s (.refused t) { s with
        registry := unwind (unwind s.registry (s.journal t.lab.name)) journal
        journal := update s.journal t.lab.name [] }
  | save (s lab t) (h : s.phase lab = .deploying t) :
      HostStep s (.save lab) { s with
        saved := update s.saved lab (some t)
        phase := update s.phase lab .checking }
  | deployed (s lab) (h : s.phase lab = .checking) :
      HostStep s (.deployed lab) { s with
        journal := update s.journal lab []
        phase := update s.phase lab .idle }
  /-- The deploy fails, before its state is saved or after: its journal is unwound. -/
  | rollback (s lab) (h : (∃ t, s.phase lab = .deploying t) ∨ s.phase lab = .checking) :
      HostStep s (.rollback lab) { s with
        registry := unwind s.registry (s.journal lab)
        journal := update s.journal lab []
        phase := update s.phase lab .idle }
  /-- The process dies. -/
  | crash (s lab) : HostStep s (.crash lab) { s with phase := update s.phase lab .idle }
  /-- An apply, a restore: the registry is not looked at. -/
  | apply (s lab t old) (hidle : s.phase lab = .idle) (h : s.saved lab = some old) :
      HostStep s (.apply lab t) { s with
        saved := update s.saved lab (some t)
        journal := update s.journal lab [] }
  | destroy (s lab) (hidle : s.phase lab = .idle) :
      HostStep s (.destroy lab) { s with
        registry := release s.registry lab
        phase := update s.phase lab .destroying }
  | destroyed (s lab) (h : s.phase lab = .destroying) :
      HostStep s (.destroyed lab) { s with
        saved := update s.saved lab none
        journal := update s.journal lab []
        phase := update s.phase lab .idle }
  /-- The reaper of a lab that has no state. -/
  | reap (s lab) (hidle : s.phase lab = .idle) (hnone : s.saved lab = none) :
      HostStep s (.reap lab) { s with
        registry := release (unwind s.registry (s.journal lab)) lab
        journal := update s.journal lab [] }
  /-- `destroy --force` of a lab whose state cannot be loaded. -/
  | forceCleanup (s lab) :
      HostStep s (.forceCleanup lab) { s with
        registry := release s.registry lab
        saved := update s.saved lab none
        journal := update s.journal lab [] }
  /-- The doctor reads a state, if it can be loaded. -/
  | read (s doctor lab) :
      HostStep s (.read doctor lab) { s with
        read := update s.read doctor (s.read doctor ++ ((s.saved lab).map (lab, ·)).toList) }
  | rebuild (s doctor) :
      HostStep s (.rebuild doctor) { s with
        registry := HostRegistry.rebuild (s.read doctor)
        read := update s.read doctor [] }

/-- What a lab claims that is deployed, or on its way. -/
def LabPhase.owed (saved : Option Topology) : LabPhase → Option Claims
  | .deploying t => Claims.of t
  | .destroying => none
  | _ => saved.bind Claims.of

namespace Host

def owed (s : Host) (lab : String) : Option Claims := (s.phase lab).owed (s.saved lab)

/-- A deploy fails after it has saved its state, and a destroy dies after it has released,
only for a lab that claims nothing; an apply changes no claim; a cleanup is not forced on a
lab that claims and is being deployed; and a doctor writes what the labs that are deployed
or being deployed claim. -/
def Orderly (s : Host) : HostAct → Prop
  | .rollback lab => s.phase lab = .checking → (s.saved lab).bind Claims.of = none
  | .crash lab => s.phase lab = .destroying → (s.saved lab).bind Claims.of = none
  | .apply lab t => Claims.of t = (s.saved lab).bind Claims.of
  | .forceCleanup lab => ∀ t, s.phase lab = .deploying t → Claims.of t = none
  | .rebuild doctor => ∀ lab c, s.owed lab = some c ↔ ∃ t, (lab, t) ∈ s.read doctor ∧ Claims.of t = some c
  | _ => True

/-- Nor is a lab destroyed that claims something: its claim goes first, its state last. -/
def Sound (s : Host) (a : HostAct) : Prop :=
  s.Orderly a ∧ ∀ lab, a = .destroy lab → (s.saved lab).bind Claims.of = none

variable {s : Host} {a : HostAct} in
theorem Orderly.sound (h : s.Orderly a) (hkept : ∀ lab, a ≠ .destroy lab) : s.Sound a :=
  ⟨h, fun lab hlab => absurd hlab (hkept lab)⟩

end Host

/-- A state of some run. -/
inductive HostReachable : Host → Prop
  | init : HostReachable {}
  | step {s s' a} (h : HostReachable s) (hstep : HostStep s a s') : HostReachable s'

/-- A state of a run whose steps all meet a condition. -/
inductive HostRun (meets : Host → HostAct → Prop) : Host → Prop
  | init : HostRun meets {}
  | step {s s' a} (h : HostRun meets s) (hstep : HostStep s a s') (hmeets : meets s a) : HostRun meets s'

theorem HostRun.mono {meets meets' : Host → HostAct → Prop} (hle : ∀ s a, meets s a → meets' s a) {s : Host}
    (h : HostRun meets s) : HostRun meets' s := by
  induction h with
  | init => exact .init
  | step _ hstep hmeets ih => exact ih.step hstep (hle _ _ hmeets)

/-! ### One lab -/

/-- What the registry lists of a lab is what it owes, or is left of a deploy that died, whose
journal lets go of it. -/
structure Settled (lab : String) (listed : Option Claims) (saved : Option Topology) (journal : Journal)
    (phase : LabPhase) : Prop where
  owes : listed = phase.owed saved ∨
    saved = none ∧ phase = .idle ∧ journal = [.releaseHostClaims lab]
  undoes : journal = [] ∨ journal = [.releaseHostClaims lab]
  deploying : ∀ t, phase = .deploying t → saved = none ∧ t.lab.name = lab ∧ journal = claimJournal t

theorem getElem?_release (registry : Registry) (lab l : String) :
    (release registry lab)[l]? = if l = lab then none else registry[l]? := by
  rw [release, Std.ExtTreeMap.getElem?_erase]
  by_cases h : l = lab
  · simp [h]
  · simp [h, Ne.symm h]

/-- A deploy's journal takes nothing of another lab's. -/
theorem getElem?_unwind_of_ne {journal : Journal} {lab l : String}
    (h : journal = [] ∨ journal = [.releaseHostClaims lab]) (hl : l ≠ lab) (registry : Registry) :
    (unwind registry journal)[l]? = registry[l]? := by
  rcases h with rfl | rfl
  · rfl
  · exact (getElem?_release registry lab l).trans (if_neg hl)

theorem getElem?_unwind_self (registry : Registry) (lab : String) :
    (unwind registry [.releaseHostClaims lab])[lab]? = none :=
  (getElem?_release registry lab lab).trans (if_pos rfl)

theorem getElem?_unwind_of_none {journal : Journal} {registry : Registry} {lab : String}
    (h : journal = [] ∨ journal = [.releaseHostClaims lab]) (hnone : registry[lab]? = none) :
    (unwind registry journal)[lab]? = none := by
  rcases h with rfl | rfl
  · exact hnone
  · exact getElem?_unwind_self registry lab

theorem claimJournal_eq (t : Topology) :
    claimJournal t = [] ∨ claimJournal t = [.releaseHostClaims t.lab.name] := by
  unfold claimJournal
  split_ifs
  · exact .inr rfl
  · exact .inl rfl

/-- Each lab's entry is settled, and no two labs that are listed share anything. -/
structure Inv (s : Host) : Prop where
  settled : ∀ lab, Settled lab s.registry[lab]? (s.saved lab) (s.journal lab) (s.phase lab)
  apart : ∀ (a b : String) (ca cb : Claims), a ≠ b → s.registry[a]? = some ca → s.registry[b]? = some cb → ca.Apart cb

variable {s s' : Host}

/-- A step of one lab: what it lists then was listed, or conflicts with nobody. -/
theorem Inv.change (hi : Inv s) (lab : String)
    (hothers : ∀ l, l ≠ lab → s'.registry[l]? = s.registry[l]? ∧ s'.saved l = s.saved l ∧
      s'.journal l = s.journal l ∧ s'.phase l = s.phase l)
    (hlab : Settled lab s'.registry[lab]? (s'.saved lab) (s'.journal lab) (s'.phase lab))
    (hlisted : ∀ c, s'.registry[lab]? = some c → s.registry[lab]? = some c ∨
      ∀ other theirs, s.registry[other]? = some theirs → other ≠ lab → c.Apart theirs) : Inv s' := by
  have hone : ∀ b ca cb, b ≠ lab → s'.registry[lab]? = some ca → s'.registry[b]? = some cb → ca.Apart cb := by
    intro b ca cb hb ha hcb
    rw [(hothers b hb).1] at hcb
    rcases hlisted ca ha with hold | hnew
    · exact hi.apart lab b ca cb hb.symm hold hcb
    · exact hnew b cb hcb hb
  constructor
  · intro l
    by_cases hl : l = lab
    · rw [hl]
      exact hlab
    · obtain ⟨hr, hs, hj, hp⟩ := hothers l hl
      rw [hr, hs, hj, hp]
      exact hi.settled l
  · intro a b ca cb hab ha hb
    by_cases hla : a = lab
    · subst hla
      exact hone b ca cb hab.symm ha hb
    · by_cases hlb : b = lab
      · subst hlb
        exact (hone a cb ca hla hb ha).symm
      · rw [(hothers a hla).1] at ha
        rw [(hothers b hlb).1] at hb
        exact hi.apart a b ca cb hab ha hb

/-- A step of one lab that brings no claim. -/
theorem Inv.update (hi : Inv s) {lab : String} {saved : Option Topology} {journal : Journal} {phase : LabPhase}
    (hregistry : ∀ l, l ≠ lab → s'.registry[l]? = s.registry[l]?)
    (hsaved : s'.saved = Function.update s.saved lab saved)
    (hjournal : s'.journal = Function.update s.journal lab journal)
    (hphase : s'.phase = Function.update s.phase lab phase)
    (hlab : Settled lab s'.registry[lab]? saved journal phase)
    (hlisted : ∀ c, s'.registry[lab]? = some c → s.registry[lab]? = some c) : Inv s' := by
  apply hi.change lab
  · intro l hl
    rw [hsaved, hjournal, hphase]
    exact ⟨hregistry l hl, Function.update_of_ne hl .., Function.update_of_ne hl .., Function.update_of_ne hl ..⟩
  · rw [hsaved, hjournal, hphase, Function.update_self, Function.update_self, Function.update_self]
    exact hlab
  · exact fun c hc => .inl (hlisted c hc)

/-- A step that leaves nothing of one lab listed. -/
theorem Inv.gone (hi : Inv s) {lab : String} {saved : Option Topology} {journal : Journal} {phase : LabPhase}
    (hregistry : ∀ l, l ≠ lab → s'.registry[l]? = s.registry[l]?) (hgone : s'.registry[lab]? = none)
    (hsaved : s'.saved = Function.update s.saved lab saved)
    (hjournal : s'.journal = Function.update s.journal lab journal)
    (hphase : s'.phase = Function.update s.phase lab phase)
    (hlab : Settled lab none saved journal phase) : Inv s' := by
  apply hi.update hregistry hsaved hjournal hphase
  · rw [hgone]
    exact hlab
  · intro c hc
    cases hgone.symm.trans hc

/-- Nothing is listed of a lab that has no state and whose journal is unwound. -/
theorem Inv.unwound (hi : Inv s) {lab : String} (hidle : s.phase lab = .idle) (hnone : s.saved lab = none) :
    (unwind s.registry (s.journal lab))[lab]? = none := by
  rcases (hi.settled lab).owes with howed | ⟨-, -, hjournal⟩
  · rw [hidle, hnone] at howed
    exact getElem?_unwind_of_none (hi.settled lab).undoes howed
  · rw [hjournal]
    exact getElem?_unwind_self s.registry lab

/-- What a deploy that comes past its claim has listed. -/
theorem claimed_eq {registry r : Registry} {t : Topology} (hfree : r[t.lab.name]? = none)
    (h : (match Claims.of t with
      | none => Except.ok r
      | some c => claim r t.lab.name c) = .ok registry) :
    registry[t.lab.name]? = Claims.of t ∧ (∀ l, l ≠ t.lab.name → registry[l]? = r[l]?) ∧
      ∀ c, Claims.of t = some c → ∀ other theirs, r[other]? = some theirs → other ≠ t.lab.name → c.Apart theirs := by
  cases hof : Claims.of t with
  | none =>
    rw [hof] at h
    cases h
    exact ⟨hfree, fun _ _ => rfl, nofun⟩
  | some c =>
    rw [hof] at h
    cases hconflict : conflict r t.lab.name c with
    | some message => simp [claim, hconflict] at h
    | none =>
      simp only [claim, hconflict, Except.ok.injEq] at h
      subst h
      refine ⟨Std.ExtTreeMap.getElem?_insert_self, fun l hl => ?_, fun c' hc' => ?_⟩
      · simp [Std.ExtTreeMap.getElem?_insert, Ne.symm hl]
      · cases hc'
        exact conflict_eq_none.mp hconflict

/-- A lab that is on its way or deployed lists what it owes. -/
theorem Inv.listed (hi : Inv s) (lab : String) (h : s.phase lab ≠ .idle ∨ s.saved lab ≠ none) :
    s.registry[lab]? = s.owed lab := by
  rcases (hi.settled lab).owes with howed | ⟨hnone, hidle, -⟩
  · exact howed
  · rcases h with hphase | hsaved
    · exact absurd hidle hphase
    · exact absurd hnone hsaved

theorem Inv.deploy {t : Topology} {registry : Registry} (hi : Inv s) (hidle : s.phase t.lab.name = .idle)
    (hnone : s.saved t.lab.name = none)
    (hclaim : (match Claims.of t with
      | none => Except.ok (unwind s.registry (s.journal t.lab.name))
      | some c => claim (unwind s.registry (s.journal t.lab.name)) t.lab.name c) = .ok registry)
    (hs' : s' = { s with
      registry := registry
      journal := Function.update s.journal t.lab.name (claimJournal t)
      phase := Function.update s.phase t.lab.name (.deploying t) }) : Inv s' := by
  obtain ⟨hself, hothers, hapart⟩ := claimed_eq (hi.unwound hidle hnone) hclaim
  have hwound : ∀ l, l ≠ t.lab.name → (unwind s.registry (s.journal t.lab.name))[l]? = s.registry[l]? :=
    fun l hl => getElem?_unwind_of_ne (hi.settled t.lab.name).undoes hl s.registry
  subst hs'
  apply hi.change t.lab.name
  · intro l hl
    exact ⟨(hothers l hl).trans (hwound l hl), rfl, Function.update_of_ne hl .., Function.update_of_ne hl ..⟩
  · show Settled _ registry[t.lab.name]? (s.saved t.lab.name)
      (Function.update s.journal t.lab.name (claimJournal t) t.lab.name)
      (Function.update s.phase t.lab.name (.deploying t) t.lab.name)
    rw [Function.update_self, Function.update_self, hself]
    refine ⟨.inl rfl, claimJournal_eq t, ?_⟩
    rintro _ ⟨⟩
    exact ⟨hnone, rfl, rfl⟩
  · intro c hc
    right
    intro other theirs hother hne
    exact hapart c (hself.symm.trans hc) other theirs ((hwound other hne).trans hother) hne

/-- A deploy that fails leaves nothing listed, whichever of its claims it came to. -/
theorem Inv.unwind_gone (hi : Inv s) {lab : String} (h : s.registry[lab]? ≠ none → s.journal lab ≠ []) :
    (unwind s.registry (s.journal lab))[lab]? = none := by
  rcases (hi.settled lab).undoes with hnil | hrelease
  · rw [hnil]
    by_contra hsome
    exact h hsome hnil
  · rw [hrelease]
    exact getElem?_unwind_self s.registry lab

theorem Inv.refused {t : Topology} (hi : Inv s) (hstep : HostStep s (.refused t) s') : Inv s' := by
  cases hstep with | refused _ journal hidle hnone hjournal => ?_
  have hundoes : journal = [] ∨ journal = [.releaseHostClaims t.lab.name] := by
    rcases hjournal with h | h
    · exact .inl h
    · exact h ▸ claimJournal_eq t
  refine hi.gone (fun l hl => ?_) ?_ (Function.update_eq_self t.lab.name _).symm rfl
    (Function.update_eq_self t.lab.name _).symm ?_
  · exact (getElem?_unwind_of_ne hundoes hl _).trans
      (getElem?_unwind_of_ne (hi.settled t.lab.name).undoes hl s.registry)
  · exact getElem?_unwind_of_none hundoes (hi.unwound hidle hnone)
  · rw [hnone, hidle]
    exact ⟨.inl rfl, .inl rfl, fun _ ht => by cases ht⟩

theorem Inv.rollback {lab : String} (hi : Inv s) (hstep : HostStep s (.rollback lab) s')
    (hsound : s.Orderly (.rollback lab)) : Inv s' := by
  cases hstep with | rollback _ h => ?_
  refine hi.gone (fun l hl => getElem?_unwind_of_ne (hi.settled lab).undoes hl s.registry) ?_
    (Function.update_eq_self lab _).symm rfl rfl ?_
  · apply hi.unwind_gone
    rw [hi.listed _ (.inl (by rcases h with ⟨t, h⟩ | h <;> rw [h] <;> nofun)), Host.owed]
    rcases h with ⟨t, h⟩ | h
    · obtain ⟨-, -, hjournal⟩ := (hi.settled lab).deploying t h
      rw [h, hjournal]
      intro hclaims
      simp [claimJournal, Option.isSome_iff_ne_none, show Claims.of t ≠ none from hclaims]
    · rw [h]
      exact fun hclaims => absurd (hsound h) hclaims
  · refine ⟨.inl ?_, .inl rfl, fun _ ht => by cases ht⟩
    rcases h with ⟨t, h⟩ | h
    · rw [((hi.settled lab).deploying t h).1]
      rfl
    · exact (hsound h).symm

/-- What a deploy that dies has claimed stays listed, with the undo in its journal. -/
theorem Inv.crash {lab : String} (hi : Inv s) (hstep : HostStep s (.crash lab) s') (hsound : s.Orderly (.crash lab)) :
    Inv s' := by
  cases hstep
  refine hi.update (fun _ _ => rfl) (Function.update_eq_self lab _).symm (Function.update_eq_self lab _).symm rfl ?_
    fun _ hc => hc
  have hlab := hi.settled lab
  refine ⟨?_, hlab.undoes, fun _ ht => by cases ht⟩
  cases hphase : s.phase lab with
  | idle =>
    have howes := hlab.owes
    rw [hphase] at howes
    exact howes
  | deploying t =>
    obtain ⟨hnone, rfl, hjournal⟩ := hlab.deploying t hphase
    have hlisted := hi.listed t.lab.name (.inl (by rw [hphase]; nofun))
    rw [hlisted, Host.owed, hphase, hnone, hjournal, claimJournal]
    cases hof : Claims.of t with
    | none => exact .inl hof
    | some c => exact .inr ⟨rfl, rfl, rfl⟩
  | checking =>
    have hlisted := hi.listed lab (.inl (by rw [hphase]; nofun))
    rw [Host.owed, hphase] at hlisted
    exact .inl hlisted
  | destroying =>
    have hlisted := hi.listed lab (.inl (by rw [hphase]; nofun))
    rw [Host.owed, hphase] at hlisted
    exact .inl (hlisted.trans (hsound hphase).symm)

theorem Inv.forceCleanup {lab : String} (hi : Inv s) (hstep : HostStep s (.forceCleanup lab) s')
    (hsound : s.Orderly (.forceCleanup lab)) : Inv s' := by
  cases hstep
  refine hi.gone (fun l hl => (getElem?_release ..).trans (if_neg hl)) ((getElem?_release ..).trans (if_pos rfl))
    rfl rfl (Function.update_eq_self lab _).symm ⟨.inl ?_, .inl rfl, fun t ht => ⟨rfl, ?_, ?_⟩⟩
  · cases hphase : s.phase lab with
    | deploying t => exact (hsound t hphase).symm
    | _ => rfl
  · exact ((hi.settled lab).deploying t ht).2.1
  · rw [claimJournal, hsound t ht]
    rfl

/-- A doctor that read what the labs owe writes just that. -/
theorem Inv.rebuild {doctor : Nat} (hi : Inv s) (hstep : HostStep s (.rebuild doctor) s')
    (hsound : s.Orderly (.rebuild doctor)) : Inv s' := by
  cases hstep
  have hrebuilt := getElem?_rebuild hsound
  constructor
  · intro lab
    have hlab := hi.settled lab
    exact ⟨.inl (hrebuilt lab), hlab.undoes, hlab.deploying⟩
  · intro a b ca cb hab ha hb
    have hkept : ∀ lab c, s.owed lab = some c → s.registry[lab]? = some c := by
      intro lab c hc
      rcases (hi.settled lab).owes with howed | ⟨hnone, hidle, -⟩
      · exact howed.trans hc
      · rw [Host.owed, hnone, hidle] at hc
        cases hc
    exact hi.apart a b ca cb hab (hkept a ca ((hrebuilt a).symm.trans ha)) (hkept b cb ((hrebuilt b).symm.trans hb))

theorem Inv.step {a : HostAct} (hi : Inv s) (hstep : HostStep s a s') (hsound : s.Orderly a) : Inv s' := by
  cases hstep with
  | deploy t registry hidle hnone hclaim => exact hi.deploy hidle hnone hclaim rfl
  | refused t journal hidle hnone hjournal => exact hi.refused (.refused s t journal hidle hnone hjournal)
  | save lab t h =>
    have hlisted := hi.listed lab (.inl (by rw [h]; nofun))
    rw [Host.owed, h] at hlisted
    refine hi.update (fun _ _ => rfl) rfl (Function.update_eq_self lab _).symm rfl ?_ fun _ hc => hc
    exact ⟨.inl hlisted, (hi.settled lab).undoes, fun _ ht => by cases ht⟩
  | deployed lab h =>
    have hlisted := hi.listed lab (.inl (by rw [h]; nofun))
    rw [Host.owed, h] at hlisted
    refine hi.update (fun _ _ => rfl) (Function.update_eq_self lab _).symm rfl rfl ?_ fun _ hc => hc
    exact ⟨.inl hlisted, .inl rfl, fun _ ht => by cases ht⟩
  | rollback lab h => exact hi.rollback (.rollback s lab h) hsound
  | crash lab => exact hi.crash (.crash s lab) hsound
  | apply lab t old hidle h =>
    have hlisted := hi.listed lab (.inr (by rw [h]; nofun))
    rw [Host.owed, hidle] at hlisted
    refine hi.update (fun _ _ => rfl) rfl rfl (Function.update_eq_self lab _).symm ?_ fun _ hc => hc
    rw [hidle]
    exact ⟨.inl (hlisted.trans hsound.symm), .inl rfl, fun _ ht => by cases ht⟩
  | destroy lab hidle =>
    refine hi.gone (fun l hl => (getElem?_release ..).trans (if_neg hl)) ((getElem?_release ..).trans (if_pos rfl))
      (Function.update_eq_self lab _).symm (Function.update_eq_self lab _).symm rfl ?_
    exact ⟨.inl rfl, (hi.settled lab).undoes, fun _ ht => by cases ht⟩
  | destroyed lab h =>
    have hlisted := hi.listed lab (.inl (by rw [h]; nofun))
    rw [Host.owed, h] at hlisted
    exact hi.gone (fun _ _ => rfl) hlisted rfl rfl rfl ⟨.inl rfl, .inl rfl, fun _ ht => by cases ht⟩
  | reap lab hidle hnone =>
    refine hi.gone (fun l hl => ?_) ((getElem?_release ..).trans (if_pos rfl)) (Function.update_eq_self lab _).symm rfl
      (Function.update_eq_self lab _).symm ?_
    · exact ((getElem?_release ..).trans (if_neg hl)).trans (getElem?_unwind_of_ne (hi.settled lab).undoes hl _)
    · rw [hnone, hidle]
      exact ⟨.inl rfl, .inl rfl, fun _ ht => by cases ht⟩
  | forceCleanup lab => exact hi.forceCleanup (.forceCleanup s lab) hsound
  | read doctor lab => exact ⟨hi.settled, hi.apart⟩
  | rebuild doctor => exact hi.rebuild (.rebuild s doctor) hsound

theorem HostRun.inv (h : HostRun Host.Orderly s) : Inv s := by
  induction h with
  | init => exact ⟨fun _ => ⟨.inl rfl, .inl rfl, fun _ ht => by cases ht⟩, fun _ _ _ _ _ ha => by
      cases Std.ExtTreeMap.getElem?_empty.symm.trans ha⟩
  | step _ hstep horderly ih => exact ih.step hstep horderly

/-- A destroy that is under way was so before the step, or began with it; nothing is saved
of its lab meanwhile. -/
theorem destroying_step {a : HostAct} (hstep : HostStep s a s') {lab : String} (h : s'.phase lab = .destroying) :
    (s.phase lab = .destroying ∨ a = .destroy lab) ∧ (s'.saved lab = s.saved lab ∨ s'.saved lab = none) := by
  cases hstep with
  | deploy t _ _ _ _ =>
    by_cases hlab : lab = t.lab.name
    · subst hlab
      simp at h
    · exact ⟨.inl (by simpa [hlab] using h), .inl rfl⟩
  | save l _ _ | deployed l _ | rollback l _ | crash l | destroyed l _ =>
    by_cases hlab : lab = l
    · subst hlab
      simp at h
    · exact ⟨.inl (by simpa [hlab] using h), .inl (by simp [hlab])⟩
  | apply l _ _ hidle _ =>
    by_cases hlab : lab = l
    · subst hlab
      cases hidle.symm.trans h
    · exact ⟨.inl h, .inl (by simp [hlab])⟩
  | destroy l _ =>
    by_cases hlab : lab = l
    · exact ⟨.inr (by rw [hlab]), .inl rfl⟩
    · exact ⟨.inl (by simpa [hlab] using h), .inl rfl⟩
  | forceCleanup l =>
    by_cases hlab : lab = l
    · subst hlab
      exact ⟨.inl h, .inr (by simp)⟩
    · exact ⟨.inl h, .inl (by simp [hlab])⟩
  | refused | reap | read | rebuild => exact ⟨.inl h, .inl rfl⟩

/-- In a sound run a lab whose destroy is under way claims nothing. -/
theorem claims_of_destroying (h : HostRun Host.Sound s) {lab : String} (hphase : s.phase lab = .destroying) :
    (s.saved lab).bind Claims.of = none := by
  induction h with
  | init => cases hphase
  | step _ hstep hsound ih =>
    obtain ⟨hbefore, hsaved⟩ := destroying_step hstep hphase
    rcases hsaved with hsaved | hsaved
    · rw [hsaved]
      rcases hbefore with hbefore | rfl
      · exact ih hbefore
      · exact hsound.2 lab rfl
    · rw [hsaved]
      rfl

/-- Where labs that claim are destroyed too, the registry lists each deployed lab whose
destroy is not under way. -/
theorem listed_of_orderly (h : HostRun Host.Orderly s) {lab : String} {t : Topology} (hsaved : s.saved lab = some t)
    (hphase : s.phase lab ≠ .destroying) : s.registry[lab]? = Claims.of t := by
  rw [h.inv.listed _ (.inr (by rw [hsaved]; nofun)), Host.owed, hsaved]
  cases hcase : s.phase lab with
  | deploying t' => cases hsaved.symm.trans ((h.inv.settled lab).deploying t' hcase).1
  | destroying => exact absurd hcase hphase
  | _ => rfl

/-- In a run whose steps are all sound the registry lists for each deployed lab exactly what
its topology claims, and no two labs it lists share an address of their mgmt subnets or a
bridge; and two CIDRs overlap exactly when some address lies in both. -/
theorem registry_lists (h : HostRun Host.Sound s) :
    (∀ lab t, s.saved lab = some t → s.registry[lab]? = Claims.of t) ∧
      (∀ (a b : String) (ca cb : Claims), a ≠ b → s.registry[a]? = some ca → s.registry[b]? = some cb →
        (∀ m m', ca.mgmt = some m → cb.mgmt = some m' → overlaps m m' = false) ∧
          ∀ bridge ∈ ca.bridges, bridge ∉ cb.bridges) ∧
      ∀ a b, overlaps a b = true ↔ ∃ ip : IpAddr, ip.Within a ∧ ip.Within b := by
  have horderly : HostRun Host.Orderly s := h.mono fun _ _ hsound => hsound.1
  have hi := horderly.inv
  refine ⟨fun lab t hsaved => ?_, fun a b ca cb hab ha hb => ?_, overlaps_iff_exists⟩
  · by_cases hphase : s.phase lab = .destroying
    · have hnone := claims_of_destroying h hphase
      rw [hsaved] at hnone
      rw [hi.listed lab (.inl (by rw [hphase]; nofun)), Host.owed, hphase]
      exact hnone.symm
    · exact listed_of_orderly horderly hsaved hphase
  · obtain ⟨hmgmt, hbridges⟩ := hi.apart a b ca cb hab ha hb
    refine ⟨fun m m' hm hm' => ?_, hbridges⟩
    apply Bool.eq_false_iff.mpr
    exact fun hover => hmgmt m m' hm hm' ((overlaps_iff_exists m m').mp hover)

/-- A lab that takes nothing of the host's. -/
def quietLab : Topology := { lab := { name := "r" } }

/-- The same lab with a host-reachable mgmt network. -/
def reachableLab : Topology :=
  { lab := { name := "r", mgmtSubnet := some "10.9.0.0/24", mgmtHostReachable := true } }

/-- Another lab's, on the next subnet. -/
def neighborLab : Topology :=
  { lab := { name := "q", mgmtSubnet := some "10.9.1.0/24", mgmtHostReachable := true } }

/-- Two labs are deployed side by side. -/
theorem registry_lists_deployed : ∃ s : Host, HostRun Host.Sound s ∧ s.saved "r" = some reachableLab ∧
    s.saved "q" = some neighborLab ∧ s.registry["r"]? = Claims.of reachableLab ∧
    s.registry["q"]? = Claims.of neighborLab := by
  have hinit : HostRun Host.Sound {} := .init
  have hclaimed := hinit.step (.deploy _ reachableLab _ rfl rfl rfl) (Host.Orderly.sound trivial nofun)
  have hsaved := hclaimed.step (.save _ "r" reachableLab rfl) (Host.Orderly.sound trivial nofun)
  have hsecond := hsaved.step (.deploy _ neighborLab _ rfl rfl rfl) (Host.Orderly.sound trivial nofun)
  have hboth := hsecond.step (.save _ "q" neighborLab rfl) (Host.Orderly.sound trivial nofun)
  obtain ⟨hlists, -, -⟩ := registry_lists hboth
  exact ⟨_, hboth, rfl, rfl, hlists "r" reachableLab rfl, hlists "q" neighborLab rfl⟩

/-- An apply gives a lab a mgmt network that the registry does not list. -/
theorem applied_claim_unlisted : ∃ s : Host, HostReachable s ∧ s.saved "r" = some reachableLab ∧
    s.phase "r" = .idle ∧ s.registry["r"]? ≠ Claims.of reachableLab := by
  have hclaimed := HostReachable.init.step (.deploy _ quietLab _ rfl rfl rfl)
  have hdeployed := (hclaimed.step (.save _ "r" quietLab rfl)).step (.deployed _ "r" rfl)
  have happlied := hdeployed.step (.apply _ "r" reachableLab quietLab rfl rfl)
  refine ⟨_, happlied, rfl, rfl, ?_⟩
  show (∅ : Registry)["r"]? ≠ _
  rw [Std.ExtTreeMap.getElem?_empty]
  intro hnone
  have hsome : (Claims.of reachableLab).isSome = true := rfl
  rw [← hnone] at hsome
  cases hsome

end HostRegistry

end NlinkLab
