import NlinkLab.Lower.Pool
import NlinkLab.Types.Topology

/-! The expansion of a `translate SRC to DST` rule (`parser/nll/lower.rs`): one DNAT rule for
each address that is assigned inside DST, from the address of SRC with the same host bits.
The addresses are those of links and node interfaces; those of network ports are not
looked at, and a SRC shorter than DST leaves no room for the host bits. -/

namespace NlinkLab.Lower

open Machine (Run)

/-! ### The expansion -/

/-- The addresses of a list of texts, without their prefix lengths. -/
def addressesOf (texts : List String) : List IpAddr := texts.filterMap fun addr => IpAddr.parse (before '/' addr)

/-- The addresses that the expansion looks at: of links, then of node interfaces. -/
def assignedAddresses (t : Topology) : List IpAddr :=
  addressesOf (t.links.flatMap fun link =>
    match link.addresses with
    | none => []
    | some (a, b) => [a, b]) ++
  addressesOf (t.nodes.toList.flatMap fun (_, node) =>
    node.interfaces.toList.flatMap fun (_, iface) => iface.addresses)

/-- The mask of a prefix length, as a 128-bit number. -/
def translateMask (bits prefixLen : Nat) : BitVec 128 :=
  if prefixLen = 0 then 0
  else
    let m := BitVec.allOnes 128 <<< (bits - prefixLen)
    if bits = 32 then m &&& BitVec.ofNat 128 (2 ^ 32 - 1) else m

/-- Map an address of the destination range to the source range, with its host bits. -/
def mapTranslateAddress (addr : IpAddr) (dstPrefix : Nat) (srcNet : IpAddr) (srcPrefix : Nat) : IpAddr :=
  let bits := addrBits addr
  let hostBits := BitVec.ofNat 128 (ipToBits addr) &&& ~~~translateMask bits dstPrefix
  let srcMasked := BitVec.ofNat 128 (ipToBits srcNet) &&& translateMask bits srcPrefix
  ipFromBits bits (srcMasked ||| hostBits).toNat

/-- The DNAT rule of one address. -/
def translateRule (srcNet : IpAddr) (srcPrefix : Nat) (dstNet : IpAddr) (dstPrefix : Nat) (addr : IpAddr) : NatRule where
  action := .dnat
  dst := some (toString (mapTranslateAddress addr dstPrefix srcNet srcPrefix) ++ "/" ++ toString (addrBits dstNet))
  target := some (toString addr)

/-- The rules of one `translate` rule. -/
def expandTranslate (nodeName : String) (assigned : List IpAddr) (rule : NatRule) : Except NllParse (List NatRule) :=
  let refuse (why : String) : NllParse := ⟨"node '" ++ nodeName ++ "': translate " ++ rule.src.getD "?" ++ " to " ++
    rule.target.getD "?" ++ ": " ++ why⟩
  let cidr (v : String) := (parseCidr v).mapError fun _ =>
    refuse ("'" ++ v ++ "' is not a CIDR (translate maps a range: `/32` for one host)")
  match rule.src, rule.target with
  | some srcCidr, some dstCidr => do
    let (srcNet, srcPrefix) ← cidr srcCidr
    let (dstNet, dstPrefix) ← cidr dstCidr
    if srcNet.isIpv6 ≠ dstNet.isIpv6 then .error (refuse "the two ranges are of different address families")
    else .ok ((assigned.filter (ipInSubnet · dstNet dstPrefix)).map (translateRule srcNet srcPrefix dstNet dstPrefix))
  | _, _ => .error (refuse "needs both a source and a target range")

/-- A node with its `translate` rules expanded. -/
def expandNode (assigned : List IpAddr) (nodeName : String) (node : Node) : Except NllParse Node :=
  match node.nat with
  | none => .ok node
  | some nat =>
    if nat.rules.any (·.action = .translate) then do
      let expanded ← nat.rules.mapM fun rule =>
        if rule.action ≠ .translate then .ok [rule] else expandTranslate nodeName assigned rule
      .ok { node with nat := some { nat with rules := expanded.flatten } }
    else .ok node

/-- Expand the `translate` rules of every node. -/
def expandTranslateRules (t : Topology) : Except NllParse Topology := do
  let nodes ← t.nodes.toList.foldlM (fun nodes (name, node) =>
    (expandNode (assignedAddresses t) name node).map fun node => nodes.insert name node) t.nodes
  .ok { t with nodes }

/-- The addresses of network ports. -/
def portAddresses (t : Topology) : List IpAddr :=
  addressesOf (t.networks.toList.flatMap fun (_, network) =>
    network.ports.toList.flatMap fun (_, port) => port.addresses)

/-! ### Ranges -/

theorem isIpv6_eq_iff {a b : IpAddr} : a.isIpv6 = b.isIpv6 ↔ addrBits a = addrBits b := by
  cases a <;> cases b <;> simp [IpAddr.isIpv6, IpAddr.isIpv4, addrBits]

theorem within_of_ipInSubnet {a net : IpAddr} {len : Nat} (h : len ≤ addrBits net) :
    ipInSubnet a net len = true ↔ Within a net len := by
  rw [ipInSubnet_iff h]
  refine ⟨fun hnet => ⟨?_, hnet⟩, And.right⟩
  rw [← addrBits_networkAddress a len, hnet, addrBits_networkAddress]

/-! ### Host bits -/

theorem getLsbD_translateMask {bits len i : Nat} (hbits : bits = 32 ∨ bits = 128) (hlen : len ≤ bits) :
    (translateMask bits len).getLsbD i = (decide (bits - len ≤ i) && decide (i < bits)) := by
  unfold translateMask
  dsimp only
  split_ifs with hzero h32
  · subst hzero
    by_cases hi : i < bits <;> simp [hi]
  · subst h32
    have hones : (BitVec.ofNat 128 (2 ^ 32 - 1)).getLsbD i = decide (i < 32) := by
      rw [BitVec.getLsbD_ofNat, Nat.testBit_two_pow_sub_one]
      by_cases hi : i < 32
      · simp [hi]
        omega
      · simp [hi]
    rw [BitVec.getLsbD_and, hones, BitVec.getLsbD_shiftLeft, BitVec.getLsbD_allOnes]
    by_cases hi : i < 32
    · by_cases hlow : 32 - len ≤ i
      · have : i < 128 := by omega
        have : i - (32 - len) < 128 := by omega
        simp [*]
      · simp [hi, hlow]
    · simp [hi]
  · obtain rfl := hbits.resolve_left h32
    rw [BitVec.getLsbD_shiftLeft, BitVec.getLsbD_allOnes]
    by_cases hi : i < 128
    · by_cases hlow : 128 - len ≤ i
      · have : i - (128 - len) < 128 := by omega
        simp [*]
      · simp [hi, hlow]
    · simp [hi]

theorem toNat_and_not_mask {bits len a : Nat} (hbits : bits = 32 ∨ bits = 128) (hlen : len ≤ bits) (ha : a < 2 ^ bits) :
    (BitVec.ofNat 128 a &&& ~~~translateMask bits len).toNat = a % 2 ^ (bits - len) := by
  apply Nat.eq_of_testBit_eq
  intro i
  have hhigh : bits ≤ i → a.testBit i = false := fun hi =>
    Nat.testBit_lt_two_pow (ha.trans_le (Nat.pow_le_pow_right (by decide) hi))
  rw [BitVec.testBit_toNat, BitVec.getLsbD_and, BitVec.getLsbD_ofNat, BitVec.getLsbD_not,
    getLsbD_translateMask hbits hlen, Nat.testBit_mod_two_pow]
  by_cases hi : i < bits
  · have : i < 128 := by omega
    by_cases hlow : i < bits - len
    · have : ¬bits - len ≤ i := by omega
      simp [*]
    · have : bits - len ≤ i := by omega
      simp [*]
  · rw [hhigh (by omega)]
    simp

theorem toNat_and_mask {bits len a : Nat} (hbits : bits = 32 ∨ bits = 128) (hlen : len ≤ bits) (ha : a < 2 ^ bits) :
    (BitVec.ofNat 128 a &&& translateMask bits len).toNat = floorTo (bits - len) a := by
  apply Nat.eq_of_testBit_eq
  intro i
  have hhigh : bits ≤ i → a.testBit i = false := fun hi =>
    Nat.testBit_lt_two_pow (ha.trans_le (Nat.pow_le_pow_right (by decide) hi))
  rw [BitVec.testBit_toNat, BitVec.getLsbD_and, BitVec.getLsbD_ofNat, getLsbD_translateMask hbits hlen, floorTo,
    Nat.testBit_mul_two_pow, Nat.testBit_div_two_pow]
  by_cases hlow : bits - len ≤ i
  · rw [Nat.sub_add_cancel hlow]
    by_cases hi : i < bits
    · have : i < 128 := by omega
      simp [*]
    · rw [hhigh (by omega)]
      simp
  · simp [hlow]

/-- What the mapping computes: the network of SRC with the host bits of the address. -/
theorem ipToBits_mapTranslateAddress {a src : IpAddr} {dp sp : Nat} (hbits : addrBits a = addrBits src)
    (hdp : dp ≤ addrBits a) (hsp : sp ≤ addrBits a) :
    ipToBits (mapTranslateAddress a dp src sp) =
      ipToBits (networkAddress src sp) ||| ipToBits a % 2 ^ (addrBits src - dp) := by
  have hsrc := ipToBits_lt src
  rw [← hbits] at hsrc
  have hmasked := toNat_and_mask (addrBits_eq a) hsp hsrc
  have hhost := toNat_and_not_mask (addrBits_eq a) hdp (ipToBits_lt a)
  have hlt : ipToBits (networkAddress src sp) ||| ipToBits a % 2 ^ (addrBits src - dp) < 2 ^ addrBits a := by
    refine Nat.or_lt_two_pow ?_ ((Nat.mod_le _ _).trans_lt (ipToBits_lt a))
    rw [ipToBits_networkAddress]
    exact (floorTo_le _ _).trans_lt hsrc
  unfold mapTranslateAddress
  dsimp only
  rw [ipToBits_ipFromBits, BitVec.toNat_or, hmasked, hhost, hbits, ← ipToBits_networkAddress,
    Nat.mod_eq_of_lt (by rw [hbits] at hlt; exact hlt)]

@[simp] theorem addrBits_mapTranslateAddress (a src : IpAddr) (dp sp : Nat) :
    addrBits (mapTranslateAddress a dp src sp) = addrBits a := addrBits_ipFromBits a _

/-! ### Adding host bits to a network -/

theorem or_eq_add {S h k : Nat} (hS : 2 ^ k ∣ S) (hh : h < 2 ^ k) : S ||| h = S + h := by
  obtain ⟨c, rfl⟩ := hS
  exact (Nat.two_pow_add_eq_or_of_lt hh c).symm

/-- The host bits can be read back exactly when the network has none of them. -/
theorem or_injective_iff {S k : Nat} :
    (∀ h h', h < 2 ^ k → h' < 2 ^ k → S ||| h = S ||| h' → h = h') ↔ 2 ^ k ∣ S := by
  constructor
  · intro hinj
    by_contra hS
    have hmod : S % 2 ^ k ≠ 0 := fun h0 => hS (Nat.dvd_of_mod_eq_zero h0)
    obtain ⟨i, hi⟩ := Nat.exists_testBit_of_ne_zero hmod
    rw [Nat.testBit_mod_two_pow, Bool.and_eq_true, decide_eq_true_eq] at hi
    have hone : 2 ^ i < 2 ^ k := Nat.pow_lt_pow_right (by decide) hi.1
    have hsame : S ||| 0 = S ||| 2 ^ i := by
      apply Nat.eq_of_testBit_eq
      intro j
      rw [Nat.testBit_or, Nat.testBit_or, Nat.testBit_two_pow]
      by_cases hj : i = j
      · subst hj
        simp [hi.2]
      · simp [hj]
    have hzero := hinj 0 (2 ^ i) (Nat.two_pow_pos k) hone hsame
    exact absurd hzero.symm (Nat.two_pow_pos i).ne'
  · intro hS h h' hh hh' heq
    rw [or_eq_add hS hh, or_eq_add hS hh'] at heq
    omega

/-! ### When the mapping is one to one -/

/-- A rule's expansion maps DST one to one into SRC: a rule for each address that is assigned
in DST, from an address of SRC that no other address of DST has. -/
structure Faithful (assigned ports : List IpAddr) (src : IpAddr) (sp : Nat) (dst : IpAddr) (dp : Nat)
    (expanded : List NatRule) : Prop where
  once : ∀ a, a ∈ assigned ∨ a ∈ ports → Within a dst dp →
    expanded.countP (fun r => r.action = .dnat ∧ r.target.bind IpAddr.parse = some a) = 1
  inside : ∀ r ∈ expanded, ∃ text b, r.dst = some text ∧ parseCidr text = .ok (b, addrBits b) ∧ Within b src sp
  apart : ∀ r ∈ expanded, ∀ r' ∈ expanded, r.target ≠ r'.target → r.dst ≠ r'.dst
  injective : ∀ a b, Within a dst dp → Within b dst dp →
    mapTranslateAddress a dp src sp = mapTranslateAddress b dp src sp → a = b

/-- Every port address in DST is also that of a link or an interface, none of these is
assigned twice, and SRC has room for the host bits. -/
structure Maps (assigned ports : List IpAddr) (src : IpAddr) (sp : Nat) (dst : IpAddr) (dp : Nat) : Prop where
  ports : ∀ a ∈ ports, Within a dst dp → a ∈ assigned
  single : ∀ a, Within a dst dp → assigned.count a ≤ 1
  room : sp ≤ dp ∨ networkAddress src dp = networkAddress src sp ∧
    ∀ a ∈ assigned, Within a dst dp → ipToBits a % 2 ^ (addrBits dst - dp) < 2 ^ (addrBits dst - sp)

section Ranges

variable {assigned ports : List IpAddr} {src dst : IpAddr} {sp dp : Nat}

/-- The rules that are expanded, as the function writes them. -/
def expansion (assigned : List IpAddr) (src : IpAddr) (sp : Nat) (dst : IpAddr) (dp : Nat) : List NatRule :=
  (assigned.filter (ipInSubnet · dst dp)).map (translateRule src sp dst dp)

theorem mem_expansion (hdp : dp ≤ addrBits dst) {r : NatRule} :
    r ∈ expansion assigned src sp dst dp ↔ ∃ a ∈ assigned, Within a dst dp ∧ r = translateRule src sp dst dp a := by
  simp only [expansion, List.mem_map, List.mem_filter, within_of_ipInSubnet hdp]
  constructor
  · rintro ⟨a, ⟨ha, hin⟩, rfl⟩
    exact ⟨a, ha, hin, rfl⟩
  · rintro ⟨a, ha, hin, rfl⟩
    exact ⟨a, ⟨ha, hin⟩, rfl⟩

/-- The rules of an address are as many as its assignments. -/
theorem countP_expansion (hdp : dp ≤ addrBits dst) {a : IpAddr} (ha : Within a dst dp) :
    (expansion assigned src sp dst dp).countP (fun r => r.action = .dnat ∧ r.target.bind IpAddr.parse = some a) =
      assigned.count a := by
  have hparse : ∀ b : IpAddr, IpAddr.parse (toString b) = some b := IpAddr.parse_display
  rw [expansion, List.countP_map, List.countP_filter, List.count_eq_countP]
  refine List.countP_congr fun b _ => ?_
  simp only [Function.comp, translateRule, Option.bind_some, hparse, Option.some.injEq, true_and, Bool.and_eq_true,
    decide_eq_true_eq, within_of_ipInSubnet hdp, beq_iff_eq]
  constructor
  · exact fun h => h.1
  · rintro rfl
    exact ⟨rfl, ha⟩

theorem parseCidr_translateRule {a : IpAddr} (ha : Within a dst dp) :
    parseCidr (toString (mapTranslateAddress a dp src sp) ++ "/" ++ toString (addrBits dst)) =
      .ok (mapTranslateAddress a dp src sp, addrBits (mapTranslateAddress a dp src sp)) := by
  have hbits : addrBits (mapTranslateAddress a dp src sp) = addrBits dst := by
    rw [addrBits_mapTranslateAddress, ha.1]
  rw [hbits]
  exact parseCidr_display hbits.ge

theorem mod_eq_sub {a : IpAddr} (ha : Within a dst dp) :
    ipToBits a % 2 ^ (addrBits dst - dp) = ipToBits a - ipToBits (networkAddress dst dp) := by
  obtain ⟨-, hlo, hhi⟩ := within_iff.mp ha
  have hdvd : 2 ^ (addrBits dst - dp) ∣ ipToBits (networkAddress dst dp) := by
    rw [ipToBits_networkAddress]
    exact dvd_floorTo _ _
  have hsplit : ipToBits a = ipToBits (networkAddress dst dp) + (ipToBits a - ipToBits (networkAddress dst dp)) := by
    omega
  obtain ⟨c, hc⟩ := hdvd
  rw [hsplit, hc, Nat.mul_add_mod, Nat.mod_eq_of_lt (by omega)]
  omega

/-- No two addresses of DST are mapped together exactly when the network of SRC has none of
DST's host bits. -/
theorem injective_iff (hfamily : addrBits src = addrBits dst) (hsp : sp ≤ addrBits src) (hdp : dp ≤ addrBits dst) :
    (∀ a b, Within a dst dp → Within b dst dp →
      mapTranslateAddress a dp src sp = mapTranslateAddress b dp src sp → a = b) ↔
      2 ^ (addrBits dst - dp) ∣ ipToBits (networkAddress src sp) := by
  have hvalue : ∀ a, Within a dst dp → ipToBits (mapTranslateAddress a dp src sp) =
      ipToBits (networkAddress src sp) ||| ipToBits a % 2 ^ (addrBits dst - dp) := by
    intro a ha
    rw [ipToBits_mapTranslateAddress (by rw [ha.1, hfamily]) (by rw [ha.1]; exact hdp)
      (by rw [ha.1, ← hfamily]; exact hsp), hfamily]
  rw [← or_injective_iff]
  constructor
  · intro h m n hm hn heq
    have hwm := within_addressAt hm
    have hwn := within_addressAt hn
    have hmod : ∀ {k}, k < 2 ^ (addrBits dst - dp) → ipToBits (addressAt dst dp k) % 2 ^ (addrBits dst - dp) = k := by
      intro k hk
      rw [mod_eq_sub (within_addressAt hk), ipToBits_addressAt hk]
      omega
    have hsame : mapTranslateAddress (addressAt dst dp m) dp src sp = mapTranslateAddress (addressAt dst dp n) dp src sp := by
      refine ip_ext (by simp) ?_
      rw [hvalue _ hwm, hvalue _ hwn, hmod hm, hmod hn, heq]
    have hback := congrArg ipToBits (h _ _ hwm hwn hsame)
    rw [ipToBits_addressAt hm, ipToBits_addressAt hn] at hback
    omega
  · intro h a b ha hb heq
    have hor := congrArg ipToBits heq
    rw [hvalue a ha, hvalue b hb] at hor
    have hmod := h _ _ (Nat.mod_lt _ (Nat.two_pow_pos _)) (Nat.mod_lt _ (Nat.two_pow_pos _)) hor
    rw [mod_eq_sub ha, mod_eq_sub hb] at hmod
    have hlo := (within_iff.mp ha).2.1
    have hlo' := (within_iff.mp hb).2.1
    exact ip_ext (by rw [ha.1, hb.1]) (by omega)

theorem dvd_network_iff (hfamily : addrBits src = addrBits dst) :
    2 ^ (addrBits dst - dp) ∣ ipToBits (networkAddress src sp) ↔
      sp ≤ dp ∨ networkAddress src dp = networkAddress src sp := by
  have hS := ipToBits_networkAddress src sp
  constructor
  · intro hdvd
    by_cases hle : sp ≤ dp
    · exact .inl hle
    · right
      refine ip_ext (by simp) ?_
      have hsize : 2 ^ (addrBits src - sp) ≤ 2 ^ (addrBits src - dp) := Nat.pow_le_pow_right (by decide) (by omega)
      have hlo := floorTo_le (addrBits src - sp) (ipToBits src)
      have hhi := lt_floorTo_add (addrBits src - sp) (ipToBits src)
      rw [← hfamily] at hdvd
      rw [ipToBits_networkAddress src dp]
      exact (floorTo_eq_iff hdvd).mpr ⟨by omega, by omega⟩
  · rintro (hle | heq)
    · rw [hS, ← hfamily]
      exact (Nat.pow_dvd_pow 2 (by omega)).trans (dvd_floorTo _ _)
    · rw [← heq, ipToBits_networkAddress, hfamily]
      exact dvd_floorTo _ _

/-- A rule's expansion is faithful exactly when the ranges and the addresses allow it. -/
theorem faithful_iff (hfamily : addrBits src = addrBits dst) (hsp : sp ≤ addrBits src) (hdp : dp ≤ addrBits dst) :
    Faithful assigned ports src sp dst dp (expansion assigned src sp dst dp) ↔ Maps assigned ports src sp dst dp := by
  have hvalue : ∀ a, Within a dst dp → ipToBits (mapTranslateAddress a dp src sp) =
      ipToBits (networkAddress src sp) ||| ipToBits a % 2 ^ (addrBits dst - dp) := by
    intro a ha
    rw [ipToBits_mapTranslateAddress (by rw [ha.1, hfamily]) (by rw [ha.1]; exact hdp)
      (by rw [ha.1, ← hfamily]; exact hsp), hfamily]
  have hwithin : ∀ a, Within a dst dp → 2 ^ (addrBits dst - dp) ∣ ipToBits (networkAddress src sp) →
      (Within (mapTranslateAddress a dp src sp) src sp ↔
        ipToBits a % 2 ^ (addrBits dst - dp) < 2 ^ (addrBits dst - sp)) := by
    intro a ha hdvd
    rw [within_iff, hvalue a ha, or_eq_add hdvd (Nat.mod_lt _ (Nat.two_pow_pos _)), addrBits_mapTranslateAddress,
      ha.1, hfamily]
    exact ⟨fun h => by omega, fun h => ⟨rfl, by omega, by omega⟩⟩
  constructor
  · intro h
    have hdvd := (injective_iff hfamily hsp hdp).mp h.injective
    refine ⟨fun a ha hin => ?_, fun a hin => ?_, ?_⟩
    · have honce := h.once a (.inr ha) hin
      rw [countP_expansion hdp hin] at honce
      exact List.count_pos_iff.mp (by omega)
    · by_cases ha : a ∈ assigned
      · have honce := h.once a (.inl ha) hin
        rw [countP_expansion hdp hin] at honce
        omega
      · rw [List.count_eq_zero_of_not_mem ha]
        exact Nat.zero_le 1
    · refine ((dvd_network_iff hfamily).mp hdvd).imp_right fun heq => ⟨heq, fun a ha hin => ?_⟩
      obtain ⟨text, b, htext, hparse, hb⟩ := h.inside _ ((mem_expansion hdp).mpr ⟨a, ha, hin, rfl⟩)
      obtain rfl := Option.some.inj htext
      rw [parseCidr_translateRule hin] at hparse
      obtain ⟨rfl, -⟩ := Prod.mk.inj (Except.ok.inj hparse)
      exact (hwithin a hin hdvd).mp hb
  · intro h
    have hdvd := (dvd_network_iff hfamily).mpr (h.room.imp_right And.left)
    have hinj := (injective_iff hfamily hsp hdp).mpr hdvd
    refine ⟨fun a ha hin => ?_, fun r hr => ?_, fun r hr r' hr' htarget hdst => ?_, hinj⟩
    · have hmem : a ∈ assigned := ha.elim id fun hport => h.ports a hport hin
      have hpos := List.count_pos_iff.mpr hmem
      have hle := h.single a hin
      rw [countP_expansion hdp hin]
      omega
    · obtain ⟨a, ha, hin, rfl⟩ := (mem_expansion hdp).mp hr
      refine ⟨_, _, rfl, parseCidr_translateRule hin, (hwithin a hin hdvd).mpr ?_⟩
      rcases h.room with hle | ⟨-, hroom⟩
      · have hsize : 2 ^ (addrBits dst - dp) ≤ 2 ^ (addrBits dst - sp) := Nat.pow_le_pow_right (by decide) (by omega)
        exact (Nat.mod_lt _ (Nat.two_pow_pos _)).trans_le hsize
      · exact hroom a ha hin
    · obtain ⟨a, ha, hin, rfl⟩ := (mem_expansion hdp).mp hr
      obtain ⟨b, hb, hin', rfl⟩ := (mem_expansion hdp).mp hr'
      have hparse := @parseCidr_translateRule src dst sp dp a hin
      rw [Option.some.inj hdst, parseCidr_translateRule hin'] at hparse
      have heq := (Prod.mk.inj (Except.ok.inj hparse)).1
      exact htarget (congrArg (fun a => some (toString a)) (hinj a b hin hin' heq.symm))

end Ranges

/-! ### The expansion of a topology -/

theorem expandTranslate_eq_ok {nodeName : String} {assigned : List IpAddr} {rule : NatRule} {rules : List NatRule}
    (h : expandTranslate nodeName assigned rule = .ok rules) :
    ∃ srcCidr dstCidr src sp dst dp, rule.src = some srcCidr ∧ rule.target = some dstCidr ∧
      parseCidr srcCidr = .ok (src, sp) ∧ parseCidr dstCidr = .ok (dst, dp) ∧ addrBits src = addrBits dst ∧
      rules = expansion assigned src sp dst dp := by
  unfold expandTranslate at h
  dsimp only at h
  split at h
  · rename_i srcCidr dstCidr hsrc hdst
    simp only [Fallible.bind_eq_ok, Fallible.mapError_eq_ok] at h
    obtain ⟨⟨src, sp⟩, hsrc', ⟨dst, dp⟩, hdst', h⟩ := h
    dsimp only at h
    split_ifs at h with hfamily
    exact ⟨srcCidr, dstCidr, src, sp, dst, dp, hsrc, hdst, hsrc', hdst', isIpv6_eq_iff.mp (not_not.mp hfamily),
      (Except.ok.inj h).symm⟩
  · cases h

/-- What a rule of a node becomes. -/
def expandRule (assigned : List IpAddr) (nodeName : String) (rule : NatRule) : Except NllParse (List NatRule) :=
  if rule.action ≠ .translate then .ok [rule] else expandTranslate nodeName assigned rule

theorem expandNode_eq_ok {assigned : List IpAddr} {nodeName : String} {node node' : Node} {nat : NatConfig}
    (h : expandNode assigned nodeName node = .ok node') (hnat : node.nat = some nat)
    (htranslate : ∃ rule ∈ nat.rules, rule.action = .translate) :
    ∃ expanded, nat.rules.mapM (expandRule assigned nodeName) = .ok expanded ∧
      node' = { node with nat := some { nat with rules := expanded.flatten } } := by
  obtain ⟨rule, hrule, haction⟩ := htranslate
  have hany : nat.rules.any (·.action = .translate) = true := List.any_eq_true.mpr ⟨rule, hrule, by simpa using haction⟩
  unfold expandNode at h
  rw [hnat] at h
  dsimp only at h
  rw [if_pos hany] at h
  obtain ⟨expanded, hexpanded, h⟩ := Fallible.bind_eq_ok.mp h
  exact ⟨expanded, hexpanded, (Except.ok.inj h).symm⟩

/-- Each entry of a map is replaced by what its computation gives. -/
theorem getElem?_foldlM_insert {E V : Type} {f : String → V → Except E V} {es : List (String × V)}
    {m m' : BTreeMap String V} (hkeys : (es.map Prod.fst).Nodup)
    (h : es.foldlM (fun m (k, v) => (f k v).map fun v => m.insert k v) m = .ok m') :
    (∀ k v, (k, v) ∈ es → ∃ v', f k v = .ok v' ∧ m'[k]? = some v') ∧
      ∀ k, k ∉ es.map Prod.fst → m'[k]? = m[k]? := by
  induction es generalizing m with
  | nil =>
    cases h
    exact ⟨nofun, fun _ _ => rfl⟩
  | cons e es ih =>
    obtain ⟨k, v⟩ := e
    obtain ⟨hk, hkeys⟩ := List.nodup_cons.mp hkeys
    rw [List.foldlM_cons] at h
    obtain ⟨m₁, hone, hrest⟩ := Fallible.bind_eq_ok.mp h
    obtain ⟨v', hv', rfl⟩ := Fallible.map_eq_ok.mp hone
    obtain ⟨hin, hout⟩ := ih hkeys hrest
    refine ⟨fun k₁ v₁ hmem => ?_, fun k₁ hk₁ => ?_⟩
    · rcases List.mem_cons.mp hmem with heq | hmem
      · cases heq
        refine ⟨v', hv', ?_⟩
        rw [hout k hk, Std.ExtTreeMap.getElem?_insert_self]
      · exact hin k₁ v₁ hmem
    · rw [List.map_cons, List.mem_cons, not_or] at hk₁
      rw [hout k₁ hk₁.2, Std.ExtTreeMap.getElem?_insert, if_neg]
      exact fun hcmp => hk₁.1 (Std.LawfulEqOrd.eq_of_compare hcmp).symm

theorem expandTranslateRules_eq_ok {t t' : Topology} (h : expandTranslateRules t = .ok t') {name : String} {node : Node}
    (hnode : t.nodes[name]? = some node) :
    ∃ node', expandNode (assignedAddresses t) name node = .ok node' ∧ t'.nodes[name]? = some node' := by
  obtain ⟨nodes, hnodes, h⟩ := Fallible.bind_eq_ok.mp h
  cases h
  have hkeys : (t.nodes.toList.map Prod.fst).Nodup := by
    rw [Std.ExtTreeMap.map_fst_toList_eq_keys]
    exact Std.ExtTreeMap.nodup_keys
  exact (getElem?_foldlM_insert hkeys hnodes).1 name node (Std.ExtTreeMap.mem_toList_iff_getElem?_eq_some.mpr hnode)

/-- A `translate` rule of a node is replaced where it stands by its expansion, which maps DST
one to one into SRC exactly when the ranges and the addresses of the topology allow it. -/
theorem translate_faithful_iff {t t' : Topology} (h : expandTranslateRules t = .ok t') {name : String} {node : Node}
    {nat : NatConfig} {before after : List NatRule} {rule : NatRule} (hnode : t.nodes[name]? = some node)
    (hnat : node.nat = some nat) (hrules : nat.rules = before ++ rule :: after) (hrule : rule.action = .translate) :
    ∃ srcCidr dstCidr src sp dst dp lead rest, rule.src = some srcCidr ∧ rule.target = some dstCidr ∧
      parseCidr srcCidr = .ok (src, sp) ∧ parseCidr dstCidr = .ok (dst, dp) ∧
      t'.nodes[name]? = some { node with nat := some { nat with
        rules := lead ++ expansion (assignedAddresses t) src sp dst dp ++ rest } } ∧
      (Faithful (assignedAddresses t) (portAddresses t) src sp dst dp (expansion (assignedAddresses t) src sp dst dp) ↔
        Maps (assignedAddresses t) (portAddresses t) src sp dst dp) := by
  obtain ⟨node', hexpand, hnode'⟩ := expandTranslateRules_eq_ok h hnode
  obtain ⟨expanded, hexpanded, rfl⟩ := expandNode_eq_ok hexpand hnat ⟨rule, by simp [hrules], hrule⟩
  rw [hrules, List.mapM_append, List.mapM_cons] at hexpanded
  simp only [Fallible.bind_eq_ok, Fallible.pure_eq_ok] at hexpanded
  obtain ⟨lead, -, _, ⟨rules, hone, rest, -, rfl⟩, rfl⟩ := hexpanded
  rw [expandRule, if_neg (not_not.mpr hrule)] at hone
  obtain ⟨srcCidr, dstCidr, src, sp, dst, dp, hsrc, hdst, hsrc', hdst', hfamily, rfl⟩ := expandTranslate_eq_ok hone
  refine ⟨srcCidr, dstCidr, src, sp, dst, dp, lead.flatten, rest.flatten, hsrc, hdst, hsrc', hdst', ?_,
    faithful_iff hfamily (parseCidr_le hsrc') (parseCidr_le hdst')⟩
  rw [hnode', List.flatten_append, List.flatten_cons, List.append_assoc]

/-! ### A port address that is not translated -/

/-- A node with one `translate` rule. -/
def translator : Node := { nat := some { rules := [{ action := .translate, src := some "144.0.0.0/8", target := some "172.100.0.0/16" }] } }

/-- The address that the rule maps is that of a network port. -/
def portLab : Topology where
  nodes := (∅ : BTreeMap String Node).insert "fw" translator
  networks := (∅ : BTreeMap String Network).insert "lan"
    { ports := (∅ : BTreeMap String PortConfig).insert "h:eth0" { addresses := ["172.100.1.18/16"] } }

/-- The same address on a link. -/
def linkLab : Topology where
  nodes := (∅ : BTreeMap String Node).insert "fw" translator
  links := [{ endpoints := ("fw:eth0", "h:eth0"), addresses := some ("172.100.0.1/16", "172.100.1.18/16") }]

theorem translate_faithful_link :
    ∃ t', expandTranslateRules linkLab = .ok t' ∧
      ∃ srcCidr dstCidr src sp dst dp lead rest, some "144.0.0.0/8" = some srcCidr ∧ some "172.100.0.0/16" = some dstCidr ∧
        parseCidr srcCidr = .ok (src, sp) ∧ parseCidr dstCidr = .ok (dst, dp) ∧
        t'.nodes["fw"]? = some { translator with
          nat := some ⟨lead ++ expansion (assignedAddresses linkLab) src sp dst dp ++ rest⟩ } ∧
        (Faithful (assignedAddresses linkLab) (portAddresses linkLab) src sp dst dp
            (expansion (assignedAddresses linkLab) src sp dst dp) ↔
          Maps (assignedAddresses linkLab) (portAddresses linkLab) src sp dst dp) :=
  ⟨_, rfl, @translate_faithful_iff linkLab _ rfl "fw" translator _ [] [] _ (by decide +kernel) rfl rfl rfl⟩

/-- The address is assigned inside DST, and the rule is replaced by none. -/
theorem translate_drops_port :
    ∃ t', expandTranslateRules portLab = .ok t' ∧
      parseCidr "172.100.0.0/16" = .ok (.v4 0xac640000, 16) ∧ .v4 0xac640112 ∈ portAddresses portLab ∧
      Within (.v4 0xac640112) (.v4 0xac640000) 16 ∧ (t'.nodes["fw"]?.bind Node.nat).map NatConfig.rules = some [] :=
  ⟨_, rfl, by decide +kernel, by decide +kernel, by decide +kernel, by decide +kernel⟩

end NlinkLab.Lower
