import NlinkLab.Net.Blocks
import NlinkLab.Net.Display

/-! The address functions of the DSL (`ipfunc.rs`): `subnet` carves a prefix into the
blocks of a longer one, `host` numbers the usable addresses of a prefix. Every argument is
text from the user; each machine step is taken as the code takes it, and none overflows. -/

namespace NlinkLab.Ipfunc

open Fallible Machine

/-! ### The functions -/

/-- Strip a character from both ends. -/
def trimMatches (c : Char) (s : String) : String :=
  String.ofList (((s.toList.dropWhile (· = c)).reverse.dropWhile (· = c)).reverse)

/-- Parse a prefix length of a family; `what` names the argument in an error. -/
def parsePrefixLen (raw what : String) (bits : Nat) : Except Error Nat :=
  match parseUnsigned (2 ^ 32) (trim raw) with
  | .error _ => .error (.invalidTopology (what ++ ": invalid prefix length '" ++ trim raw ++
      "': expected an integer 0..=" ++ toString bits))
  | .ok len =>
    if bits < len then
      .error (.invalidTopology (what ++ ": prefix length /" ++ toString len ++ " exceeds " ++ toString bits))
    else .ok (len % 2 ^ 8)

/-- Parse `ip/prefix`, the prefix bounded to the family's width. -/
def parseCidrParts (s : String) : Except Error (IpAddr × Nat) :=
  match rsplitOnce s '/' with
  | none => .error (.invalidTopology ("invalid CIDR '" ++ s ++ "': missing '/'"))
  | some (ipStr, prefixStr) =>
    match IpAddr.parse ipStr with
    | none => .error (.invalidTopology ("invalid IP '" ++ ipStr ++ "': invalid IP address syntax"))
    | some ip =>
      match parsePrefixLen prefixStr ("invalid CIDR '" ++ s ++ "'") (addrBits ip) with
      | .error e => .error e
      | .ok len => .ok (ip, len)

/-- A number argument: `what` and `expected` are its error's text. -/
def parseNumber (raw what expected : String) : Except Error Nat :=
  (parseUnsigned (2 ^ 64) (trim raw)).mapError fun _ =>
    .invalidTopology (what ++ " '" ++ trim raw ++ "': expected a " ++ expected)

def family (bits : Nat) : String := if bits = 32 then "IPv4" else "IPv6"

/-- `network + offset` inside the family's address space, or `overflow`. -/
def offsetAddress (bits network offset : Nat) (overflow : Error) : Run Error IpAddr :=
  match (checkedAdd 128 network offset).filter fun v => bits = 128 ∨ v ≤ 2 ^ 32 - 1 with
  | none => fail overflow
  | some v => .ok (ipFromBits bits v)

/-- `subnet(base_cidr, new_prefix, index)`: the block of the new prefix with an index. -/
def evalSubnet : List String → Run Error String
  | [base, newPrefix, index] => do
    let baseStr := trimMatches '"' (trim base)
    let (baseIp, basePrefix) ← lift (parseCidrParts baseStr)
    let bits := addrBits baseIp
    let newPrefix ← lift (parsePrefixLen newPrefix "subnet(): new prefix" bits)
    let index ← lift (parseNumber index "subnet(): invalid index" "non-negative integer")
    if newPrefix ≤ basePrefix then
      fail (.invalidTopology ("subnet(): new prefix /" ++ toString newPrefix ++
        " must be longer than base /" ++ toString basePrefix))
    else
      let additionalBits ← sub newPrefix basePrefix
      match (checkedShl 128 1 additionalBits).filter (· ≤ index) with
      | some max =>
        fail (.invalidTopology ("subnet(): index " ++ toString index ++ " exceeds max " ++ toString max ++
          " subnets (/" ++ toString basePrefix ++ " → /" ++ toString newPrefix ++ ")"))
      | none =>
        let hostBits ← sub bits newPrefix
        let overflow := Error.invalidTopology ("subnet(): subnet " ++ toString index ++ " of " ++ baseStr ++
          " at /" ++ toString newPrefix ++ " overflows the " ++ family bits ++ " address space")
        match checkedShl 128 index hostBits with
        | none => fail overflow
        | some offset =>
          let back ← shr 128 offset hostBits
          if back = index then
            let network := ipToBits (← networkAddressRun baseIp basePrefix)
            let resultIp ← offsetAddress bits network offset overflow
            .ok (toString resultIp ++ "/" ++ toString newPrefix)
          else fail overflow
  | _ => fail (.invalidTopology "subnet() requires 3 arguments: base_cidr, new_prefix, index")

/-- The usable host count of a prefix, and the offset of host 1 from the network address. -/
def hostRange (bits len : Nat) : Run Error (Nat × Nat) := do
  let hostBits ← sub bits len
  let blockSize := (checkedShl 128 1 hostBits).getD (2 ^ 128 - 1)
  let last ← sub bits 1
  if len = bits then .ok (1, 0)
  else if len = last then .ok (2, 0)
  else do .ok (← sub blockSize 2, 1)

/-- `host(cidr, host_number)`: the usable address with a number, from 1. -/
def evalHost : List String → Run Error String
  | [cidr, hostNumber] => do
    let cidrStr := trimMatches '"' (trim cidr)
    let (baseIp, len) ← lift (parseCidrParts cidrStr)
    let bits := addrBits baseIp
    let hostNum ← lift (parseNumber hostNumber "host(): invalid host number" "positive integer")
    let (maxHosts, firstOffset) ← hostRange bits len
    if hostNum = 0 ∨ maxHosts < hostNum then
      fail (.invalidTopology ("host(): host number " ++ toString hostNum ++ " out of range 1..=" ++
        toString maxHosts ++ " for " ++ cidrStr ++ " (/" ++ toString len ++ ")"))
    else
      let network := ipToBits (← networkAddressRun baseIp len)
      let before ← sub hostNum 1
      let offset ← add 128 before firstOffset
      let resultIp ← offsetAddress bits network offset (.invalidTopology ("host(): host " ++ toString hostNum ++
        " of " ++ cidrStr ++ " overflows the " ++ family bits ++ " address space"))
      .ok (toString resultIp)
  | _ => fail (.invalidTopology "host() requires 2 arguments: cidr, host_number")

/-- Evaluate a built-in function call. -/
def evalFunction (name : String) (args : List String) : Run Error String :=
  if name = "subnet" then evalSubnet args
  else if name = "host" then evalHost args
  else fail (.invalidTopology ("unknown function '" ++ name ++ "'"))

/-! ### The arguments -/

theorem parsePrefixLen_le {raw what : String} {bits len : Nat}
    (h : parsePrefixLen raw what bits = .ok len) : len ≤ bits := by
  unfold parsePrefixLen at h
  split at h
  · cases h
  · split_ifs at h with hlt
    cases h
    exact (Nat.mod_le _ _).trans (not_lt.mp hlt)

theorem parseCidrParts_le {s : String} {ip : IpAddr} {len : Nat} (h : parseCidrParts s = .ok (ip, len)) :
    len ≤ addrBits ip := by
  unfold parseCidrParts at h
  split at h
  · cases h
  · split at h
    · cases h
    · split at h
      · cases h
      · rename_i hlen
        cases h
        exact parsePrefixLen_le hlen

/-- The index or host number an argument is. -/
theorem parseNumber_eq_ok {raw what expected : String} {n : Nat} :
    parseNumber raw what expected = .ok n ↔ parseUnsigned (2 ^ 64) (trim raw) = .ok n :=
  Fallible.mapError_eq_ok

theorem parseUnsigned_lt {bound n : Nat} {s : String} (h : parseUnsigned bound s = .ok n) : n < bound := by
  obtain ⟨-, ds, -, -, hlt⟩ := parseUnsigned_eq_ok.mp h
  exact hlt

theorem dropWhile_of_forall {A : Type} {f : A → Bool} {l : List A} (h : ∀ a ∈ l, f a = false) :
    l.dropWhile f = l := by
  cases l with
  | nil => rfl
  | cons a l => exact List.dropWhile_cons_of_neg (by simp [h a List.mem_cons_self])

/-- A printed number has no blanks to trim. -/
theorem trim_toString (n : Nat) : trim (toString n) = toString n := by
  have hblank : ∀ c ∈ (toString n).toList, isWhitespace c = false := by
    intro c hc
    by_contra h
    have hd := Nat.isDigit_of_mem_toDigits (b := 10) (by decide) (by decide) (n := n) (c := c) (by simpa using hc)
    have hval : 48 ≤ c.toNat ∧ c.toNat ≤ 57 := by
      simp only [Char.isDigit, Bool.and_eq_true, decide_eq_true_eq] at hd
      exact ⟨hd.1, hd.2⟩
    simp [isWhitespace] at h
    omega
  rw [trim, dropWhile_of_forall hblank, dropWhile_of_forall (by simpa using hblank), List.reverse_reverse,
    String.ofList_toList]

/-! ### The arithmetic -/

/-- An offset in the block of a prefix stays inside the family's address space. -/
theorem offsetAddress_eq {ip : IpAddr} {len offset : Nat} (h : offset < 2 ^ (addrBits ip - len)) (overflow : Error) :
    offsetAddress (addrBits ip) (ipToBits (networkAddress ip len)) offset overflow =
      .ok (addressAt ip len offset) := by
  have hlt := networkAddress_add_lt ip len
  have hfits : addrBits ip = 128 ∨ ipToBits (networkAddress ip len) + offset ≤ 2 ^ 32 - 1 := by
    rcases addrBits_eq ip with h32 | h128
    · right
      rw [h32] at hlt h
      omega
    · exact .inl h128
  have hwide : 2 ^ addrBits ip ≤ 2 ^ 128 := Nat.pow_le_pow_right (by decide) (addrBits_le ip)
  rw [offsetAddress, checkedAdd_of_lt (by omega), Option.filter_some, if_pos (decide_eq_true hfits), addressAt]

/-! ### Carving -/

/-- What the arguments of `subnet` are read as. -/
structure SubnetArgs (base newPrefix index : String) (ip : IpAddr) (p q i : Nat) : Prop where
  base : parseCidrParts (trimMatches '"' (trim base)) = .ok (ip, p)
  newPrefix : parsePrefixLen newPrefix "subnet(): new prefix" (addrBits ip) = .ok q
  index : parseUnsigned (2 ^ 64) (trim index) = .ok i

variable {base newPrefix index : String} {ip : IpAddr} {p q i : Nat}

/-- The indices that the check of the number of subnets lets through. -/
theorem filter_maxSubnets (hi : i < 2 ^ 64) {k : Nat} :
    (checkedShl 128 1 k).filter (· ≤ i) = if 2 ^ k ≤ i then some (2 ^ k) else none := by
  by_cases hk : k < 128
  · rw [checkedShl_one hk, Option.filter_some]
    simp
  · have hle : 2 ^ 64 ≤ 2 ^ k := Nat.pow_le_pow_right (by decide) (by omega)
    rw [checkedShl_of_le (by omega), if_neg (by omega)]
    rfl

theorem evalSubnet_eq (h : SubnetArgs base newPrefix index ip p q i) (hpq : p < q) (hi : i < 2 ^ (q - p)) :
    evalSubnet [base, newPrefix, index] =
      .ok (toString (addressAt ip p (i * 2 ^ (addrBits ip - q))) ++ "/" ++ toString q) := by
  have hq := parsePrefixLen_le h.newPrefix
  have hbits := addrBits_le ip
  have hoffset := block_offset hq hpq.le hi
  have hwide : 2 ^ (addrBits ip - p) ≤ 2 ^ 128 := Nat.pow_le_pow_right (by decide) (by omega)
  have hmod : i * 2 ^ (addrBits ip - q) % 2 ^ 128 = i * 2 ^ (addrBits ip - q) := Nat.mod_eq_of_lt (by omega)
  have hback : i * 2 ^ (addrBits ip - q) / 2 ^ (addrBits ip - q) = i := Nat.mul_div_cancel _ (Nat.two_pow_pos _)
  unfold evalSubnet
  simp only [h.base, h.newPrefix, parseNumber_eq_ok.mpr h.index, lift, Except.mapError, bind, Except.bind]
  rw [if_neg (by omega), sub_of_le hpq.le]
  dsimp only
  rw [filter_maxSubnets (parseUnsigned_lt h.index), if_neg (by omega), sub_of_le hq]
  dsimp only
  rw [checkedShl_of_lt (by omega), hmod]
  dsimp only
  rw [shr_of_lt (by omega), hback]
  dsimp only
  rw [if_pos rfl, networkAddressRun_eq (by omega)]
  dsimp only
  rw [offsetAddress_eq hoffset]

theorem of_evalSubnet {args : List String} {r : String} (h : evalSubnet args = .ok r) :
    ∃ base newPrefix index ip p q i, args = [base, newPrefix, index] ∧
      SubnetArgs base newPrefix index ip p q i ∧ p < q ∧ i < 2 ^ (q - p) := by
  unfold evalSubnet at h
  split at h
  · rename_i base newPrefix index
    simp only [bind_eq_ok, lift_eq_ok, parseNumber_eq_ok] at h
    obtain ⟨⟨ip, p⟩, hbase, q, hq, i, hi, h⟩ := h
    dsimp only at h
    split_ifs at h with hpq
    · cases h
    · obtain ⟨k, hk, h⟩ := bind_eq_ok.mp h
      have hle : p ≤ q := by omega
      rw [sub_of_le hle] at hk
      cases hk
      rw [filter_maxSubnets (parseUnsigned_lt hi)] at h
      split_ifs at h with hmax
      · cases h
      · exact ⟨base, newPrefix, index, ip, p, q, i, rfl, ⟨hbase, hq, hi⟩, by omega, by omega⟩
  · cases h

theorem safe_offsetAddress (bits network offset : Nat) (overflow : Error) :
    Safe (offsetAddress bits network offset overflow) := by
  unfold offsetAddress
  split
  · exact safe_fail overflow
  · exact safe_ok _

theorem safe_evalSubnet (args : List String) : Safe (evalSubnet args) := by
  unfold evalSubnet
  split
  · refine (safe_lift _).bind fun ⟨ip, p⟩ hbase => (safe_lift _).bind fun q hq => (safe_lift _).bind fun i hi => ?_
    have hp := parseCidrParts_le (lift_eq_ok.mp hbase)
    have hq := parsePrefixLen_le (lift_eq_ok.mp hq)
    have hi := parseUnsigned_lt (parseNumber_eq_ok.mp (lift_eq_ok.mp hi))
    have hbits := addrBits_le ip
    dsimp only at hp hq ⊢
    split_ifs with hpq
    · exact safe_fail _
    · rw [sub_of_le (by omega)]
      refine (safe_ok _).bind fun k hk => ?_
      split
      · exact safe_fail _
      · rw [sub_of_le hq]
        refine (safe_ok _).bind fun k hk => ?_
        cases hk
        rw [checkedShl_of_lt (by omega)]
        dsimp only
        rw [shr_of_lt (by omega)]
        refine (safe_ok _).bind fun back hback => ?_
        split_ifs
        · rw [networkAddressRun_eq (by omega)]
          exact (safe_ok _).bind fun net _ => (safe_offsetAddress _ _ _ _).bind fun _ _ => safe_ok _
        · exact safe_fail _
  · exact safe_fail _

/-! ### Hosts -/

/-- The usable hosts of a prefix, and the offset of the first from the network address. -/
def usableHosts (bits len : Nat) : Nat :=
  if len = bits then 1 else if len = bits - 1 then 2 else 2 ^ (bits - len) - 2

def firstHost (bits len : Nat) : Nat := if len = bits ∨ len = bits - 1 then 0 else 1

/-- The offset of a usable host is one of the block. -/
theorem host_offset {bits len n : Nat} (hlen : len ≤ bits) (hbits : 0 < bits) (hpos : 1 ≤ n)
    (hn : n ≤ usableHosts bits len) : n - 1 + firstHost bits len < 2 ^ (bits - len) := by
  unfold usableHosts at hn
  unfold firstHost
  split_ifs at hn with hfull hpair
  · subst hfull
    simp
    omega
  · subst hpair
    simp
    rw [show bits - (bits - 1) = 1 by omega]
    omega
  · rw [if_neg (by omega)]
    omega

/-- A host of a prefix with a network and a last address is neither. -/
theorem host_offset_inner {bits len n : Nat} (hlen : len + 1 < bits) (hpos : 1 ≤ n)
    (hn : n ≤ usableHosts bits len) :
    0 < n - 1 + firstHost bits len ∧ n - 1 + firstHost bits len < 2 ^ (bits - len) - 1 := by
  unfold usableHosts at hn
  unfold firstHost
  rw [if_neg (by omega), if_neg (by omega)] at hn
  rw [if_neg (by omega)]
  omega

/-- What the arguments of `host` are read as. -/
structure HostArgs (cidr hostNumber : String) (ip : IpAddr) (p n : Nat) : Prop where
  cidr : parseCidrParts (trimMatches '"' (trim cidr)) = .ok (ip, p)
  hostNumber : parseUnsigned (2 ^ 64) (trim hostNumber) = .ok n

/-- The count that the code compares a host number with: it saturates for the whole of
IPv6, which no number reaches. -/
def maxHosts (bits len : Nat) : Nat :=
  if len = bits then 1 else if len = bits - 1 then 2
  else (checkedShl 128 1 (bits - len)).getD (2 ^ 128 - 1) - 2

theorem maxHosts_lt_iff {bits len n : Nat} (hn : n < 2 ^ 64) :
    maxHosts bits len < n ↔ usableHosts bits len < n := by
  unfold maxHosts usableHosts
  split_ifs
  · rfl
  · rfl
  · by_cases hk : bits - len < 128
    · rw [checkedShl_one hk]
      rfl
    · have hle : 2 ^ 128 ≤ 2 ^ (bits - len) := Nat.pow_le_pow_right (by decide) (by omega)
      rw [checkedShl_of_le (by omega), Option.getD_none]
      omega

theorem hostRange_eq {bits len : Nat} (hlen : len ≤ bits) (hbits : 0 < bits) :
    hostRange bits len = .ok (maxHosts bits len, firstHost bits len) := by
  unfold hostRange maxHosts firstHost
  rw [sub_of_le hlen, sub_of_le hbits]
  simp only [bind, Except.bind]
  by_cases hfull : len = bits
  · rw [if_pos hfull, if_pos hfull, if_pos (.inl hfull)]
  · rw [if_neg hfull, if_neg hfull]
    by_cases hpair : len = bits - 1
    · rw [if_pos hpair, if_pos hpair, if_pos (.inr hpair)]
    · have hblock : 2 ≤ (checkedShl 128 1 (bits - len)).getD (2 ^ 128 - 1) := by
        by_cases hk : bits - len < 128
        · rw [checkedShl_one hk]
          exact Nat.le_self_pow (by omega) 2
        · rw [checkedShl_of_le (by omega)]
          decide
      rw [if_neg hpair, if_neg hpair, if_neg (by omega), sub_of_le hblock]

variable {cidr hostNumber : String} {n : Nat}

theorem evalHost_eq (h : HostArgs cidr hostNumber ip p n) (hpos : 1 ≤ n) (hn : n ≤ usableHosts (addrBits ip) p) :
    evalHost [cidr, hostNumber] = .ok (toString (addressAt ip p (n - 1 + firstHost (addrBits ip) p))) := by
  have hp := parseCidrParts_le h.cidr
  have hlt := parseUnsigned_lt h.hostNumber
  have hmax := (maxHosts_lt_iff hlt).not.mpr (not_lt.mpr hn)
  have hoffset := host_offset hp (addrBits_pos ip) hpos hn
  have hwide : 2 ^ (addrBits ip - p) ≤ 2 ^ 128 :=
    Nat.pow_le_pow_right (by decide) ((Nat.sub_le _ _).trans (addrBits_le ip))
  unfold evalHost
  simp only [h.cidr, parseNumber_eq_ok.mpr h.hostNumber, lift, Except.mapError, bind, Except.bind,
    hostRange_eq hp (addrBits_pos ip)]
  rw [if_neg (by omega), networkAddressRun_eq hp, sub_of_le hpos]
  dsimp only
  rw [add_of_lt (by omega)]
  dsimp only
  rw [offsetAddress_eq hoffset]

theorem of_evalHost {args : List String} {r : String} (h : evalHost args = .ok r) :
    ∃ cidr hostNumber ip p n, args = [cidr, hostNumber] ∧ HostArgs cidr hostNumber ip p n ∧
      1 ≤ n ∧ n ≤ usableHosts (addrBits ip) p := by
  unfold evalHost at h
  split at h
  · rename_i cidr hostNumber
    simp only [bind_eq_ok, lift_eq_ok, parseNumber_eq_ok] at h
    obtain ⟨⟨ip, p⟩, hcidr, n, hn, range, hrange, h⟩ := h
    have hp := parseCidrParts_le hcidr
    rw [hostRange_eq hp (addrBits_pos ip)] at hrange
    cases hrange
    dsimp only at h
    split_ifs at h with hout
    · cases h
    · obtain ⟨hzero, hmax⟩ := not_or.mp hout
      have hle := (maxHosts_lt_iff (parseUnsigned_lt hn)).not.mp hmax
      exact ⟨cidr, hostNumber, ip, p, n, rfl, ⟨hcidr, hn⟩, Nat.pos_of_ne_zero hzero, not_lt.mp hle⟩
  · cases h

theorem safe_evalHost (args : List String) : Safe (evalHost args) := by
  unfold evalHost
  split
  · refine (safe_lift _).bind fun ⟨ip, p⟩ hcidr => (safe_lift _).bind fun n hn => ?_
    have hp := parseCidrParts_le (lift_eq_ok.mp hcidr)
    have hlt := parseUnsigned_lt (parseNumber_eq_ok.mp (lift_eq_ok.mp hn))
    dsimp only at hp ⊢
    rw [hostRange_eq hp (addrBits_pos ip)]
    refine (safe_ok _).bind fun range hrange => ?_
    cases hrange
    dsimp only
    split_ifs with hout
    · exact safe_fail _
    · have hfirst : firstHost (addrBits ip) p ≤ 1 := by
        unfold firstHost
        split_ifs <;> omega
      rw [networkAddressRun_eq hp, sub_of_le (by omega)]
      refine (safe_ok _).bind fun net hnet => (safe_ok _).bind fun before hbefore => ?_
      cases hbefore
      rw [add_of_lt (by omega)]
      exact (safe_ok _).bind fun offset _ => (safe_offsetAddress _ _ _ _).bind fun _ _ => safe_ok _
  · exact safe_fail _

theorem safe_evalFunction (name : String) (args : List String) : Safe (evalFunction name args) := by
  unfold evalFunction
  split_ifs
  · exact safe_evalSubnet args
  · exact safe_evalHost args
  · exact safe_fail _

/-! ### What the functions give -/

/-- The blocks of the length `q` that `subnet` gives partition a CIDR. -/
structure Partitions (base newPrefix : String) (ip : IpAddr) (p q : Nat) : Prop where
  ok_iff : ∀ index, (∃ r, evalSubnet [base, newPrefix, index] = .ok r) ↔
    ∃ i, parseUnsigned (2 ^ 64) (trim index) = .ok i ∧ i < 2 ^ (q - p)
  inside : ∀ index r, evalSubnet [base, newPrefix, index] = .ok r →
    ∃ net, parseCidr r = .ok (net, q) ∧ networkAddress net q = net ∧ ∀ a, Within a net q → Within a ip p
  increasing : ∀ index index' i j r r' net net', parseUnsigned (2 ^ 64) (trim index) = .ok i →
    parseUnsigned (2 ^ 64) (trim index') = .ok j → i < j →
    evalSubnet [base, newPrefix, index] = .ok r → evalSubnet [base, newPrefix, index'] = .ok r' →
    parseCidr r = .ok (net, q) → parseCidr r' = .ok (net', q) →
    ∀ a b, Within a net q → Within b net' q → ipToBits a < ipToBits b
  /-- Nothing is left over, where the indices of all blocks fit. -/
  covers : q - p ≤ 64 → ∀ a, Within a ip p →
    ∃ index r net, evalSubnet [base, newPrefix, index] = .ok r ∧ parseCidr r = .ok (net, q) ∧ Within a net q

/-- The addresses that `host` gives are the usable ones of a CIDR, in order. -/
structure Enumerates (cidr : String) (ip : IpAddr) (p : Nat) : Prop where
  ok_iff : ∀ hostNumber, (∃ r, evalHost [cidr, hostNumber] = .ok r) ↔
    ∃ n, parseUnsigned (2 ^ 64) (trim hostNumber) = .ok n ∧ 1 ≤ n ∧ n ≤ usableHosts (addrBits ip) p
  inside : ∀ hostNumber r, evalHost [cidr, hostNumber] = .ok r →
    ∃ a, IpAddr.parse r = some a ∧ Within a ip p ∧
      (p + 1 < addrBits ip → a ≠ networkAddress ip p ∧ a ≠ lastAddress ip p)
  increasing : ∀ hostNumber hostNumber' m n r r' a b, parseUnsigned (2 ^ 64) (trim hostNumber) = .ok m →
    parseUnsigned (2 ^ 64) (trim hostNumber') = .ok n → m < n →
    evalHost [cidr, hostNumber] = .ok r → evalHost [cidr, hostNumber'] = .ok r' →
    IpAddr.parse r = some a → IpAddr.parse r' = some b → ipToBits a < ipToBits b

theorem subnet_partitions (hbase : parseCidrParts (trimMatches '"' (trim base)) = .ok (ip, p))
    (hnew : parsePrefixLen newPrefix "subnet(): new prefix" (addrBits ip) = .ok q) (hpq : p < q) :
    Partitions base newPrefix ip p q := by
  have hq := parsePrefixLen_le hnew
  have hargs : ∀ {index r}, evalSubnet [base, newPrefix, index] = .ok r →
      ∃ i, parseUnsigned (2 ^ 64) (trim index) = .ok i ∧ i < 2 ^ (q - p) ∧
        r = toString (addressAt ip p (i * 2 ^ (addrBits ip - q))) ++ "/" ++ toString q := by
    intro index r h
    obtain ⟨base', new', index', ip', p', q', i, hlist, hread, hpq', hi⟩ := of_evalSubnet h
    simp only [List.cons.injEq, and_true] at hlist
    obtain ⟨rfl, rfl, rfl⟩ := hlist
    obtain ⟨rfl, rfl⟩ := Prod.mk.inj (Except.ok.inj (hbase.symm.trans hread.base))
    obtain rfl := Except.ok.inj (hnew.symm.trans hread.newPrefix)
    exact ⟨i, hread.index, hi, Except.ok.inj (h.symm.trans (evalSubnet_eq hread hpq hi))⟩
  have hnet : ∀ {i net}, parseCidr (toString (addressAt ip p (i * 2 ^ (addrBits ip - q))) ++ "/" ++ toString q) =
      .ok (net, q) → net = addressAt ip p (i * 2 ^ (addrBits ip - q)) := by
    intro i net h
    rw [parseCidr_display (by rw [addrBits_addressAt]; exact hq)] at h
    exact (Prod.mk.inj (Except.ok.inj h)).1.symm
  refine ⟨fun index => ⟨?_, ?_⟩, fun index r h => ?_, ?_, fun hfew a ha => ?_⟩
  · rintro ⟨r, h⟩
    obtain ⟨i, hindex, hi, -⟩ := hargs h
    exact ⟨i, hindex, hi⟩
  · rintro ⟨i, hindex, hi⟩
    exact ⟨_, evalSubnet_eq ⟨hbase, hnew, hindex⟩ hpq hi⟩
  · obtain ⟨i, hindex, hi, rfl⟩ := hargs h
    refine ⟨_, parseCidr_display (by rw [addrBits_addressAt]; exact hq), networkAddress_block hq hpq.le hi,
      fun a ha => within_of_within_block hq hpq.le hi ha⟩
  · intro index index' i j r r' net net' hindex hindex' hij h h' hparse hparse' a b ha hb
    obtain ⟨i', hindex₂, hi, rfl⟩ := hargs h
    obtain ⟨j', hindex₂', hj, rfl⟩ := hargs h'
    obtain rfl := Except.ok.inj (hindex.symm.trans hindex₂)
    obtain rfl := Except.ok.inj (hindex'.symm.trans hindex₂')
    rw [hnet hparse] at ha
    rw [hnet hparse'] at hb
    exact lt_of_within_block hq hpq.le hij hj ha hb
  · obtain ⟨i, hi, hin⟩ := exists_block hq hpq.le ha
    have hlt : i < 2 ^ 64 := hi.trans_le (Nat.pow_le_pow_right (by decide) hfew)
    have hindex : parseUnsigned (2 ^ 64) (trim (toString i)) = .ok i := by
      rw [trim_toString]
      exact parseUnsigned_toString hlt
    exact ⟨toString i, _, _, evalSubnet_eq ⟨hbase, hnew, hindex⟩ hpq hi,
      parseCidr_display (by rw [addrBits_addressAt]; exact hq), hin⟩

theorem host_enumerates (hcidr : parseCidrParts (trimMatches '"' (trim cidr)) = .ok (ip, p)) :
    Enumerates cidr ip p := by
  have hp := parseCidrParts_le hcidr
  have hargs : ∀ {hostNumber r}, evalHost [cidr, hostNumber] = .ok r →
      ∃ n, parseUnsigned (2 ^ 64) (trim hostNumber) = .ok n ∧ 1 ≤ n ∧ n ≤ usableHosts (addrBits ip) p ∧
        r = toString (addressAt ip p (n - 1 + firstHost (addrBits ip) p)) := by
    intro hostNumber r h
    obtain ⟨cidr', host', ip', p', n, hlist, hread, hpos, hn⟩ := of_evalHost h
    simp only [List.cons.injEq, and_true] at hlist
    obtain ⟨rfl, rfl⟩ := hlist
    obtain ⟨rfl, rfl⟩ := Prod.mk.inj (Except.ok.inj (hcidr.symm.trans hread.cidr))
    exact ⟨n, hread.hostNumber, hpos, hn, Except.ok.inj (h.symm.trans (evalHost_eq hread hpos hn))⟩
  have hparse : ∀ a : IpAddr, IpAddr.parse (toString a) = some a := IpAddr.parse_display
  refine ⟨fun hostNumber => ⟨?_, ?_⟩, fun hostNumber r h => ?_, ?_⟩
  · rintro ⟨r, h⟩
    obtain ⟨n, hnumber, hpos, hn, -⟩ := hargs h
    exact ⟨n, hnumber, hpos, hn⟩
  · rintro ⟨n, hnumber, hpos, hn⟩
    exact ⟨_, evalHost_eq ⟨hcidr, hnumber⟩ hpos hn⟩
  · obtain ⟨n, -, hpos, hn, rfl⟩ := hargs h
    have hoffset := host_offset hp (addrBits_pos ip) hpos hn
    refine ⟨_, hparse _, within_addressAt hoffset, fun hinner => ?_⟩
    obtain ⟨hfirst, hlast⟩ := host_offset_inner hinner hpos hn
    have hvalue := ipToBits_addressAt hoffset
    refine ⟨fun heq => ?_, fun heq => ?_⟩
    · rw [heq] at hvalue
      omega
    · rw [heq, ipToBits_lastAddress] at hvalue
      omega
  · intro hostNumber hostNumber' m n r r' a b hm hn hmn h h' ha hb
    obtain ⟨m', hm', hmpos, hmle, rfl⟩ := hargs h
    obtain ⟨n', hn', hnpos, hnle, rfl⟩ := hargs h'
    obtain rfl := Except.ok.inj (hm.symm.trans hm')
    obtain rfl := Except.ok.inj (hn.symm.trans hn')
    obtain rfl := Option.some.inj ((hparse _).symm.trans ha)
    obtain rfl := Option.some.inj ((hparse _).symm.trans hb)
    rw [ipToBits_addressAt (host_offset hp (addrBits_pos ip) hmpos hmle),
      ipToBits_addressAt (host_offset hp (addrBits_pos ip) hnpos hnle)]
    omega

/-- `subnet` partitions every CIDR, `host` enumerates it, and neither overflows. -/
theorem evalFunction_exact :
    (∀ name args, Safe (evalFunction name args)) ∧
    (∀ base newPrefix ip p q, parseCidrParts (trimMatches '"' (trim base)) = .ok (ip, p) →
      parsePrefixLen newPrefix "subnet(): new prefix" (addrBits ip) = .ok q → p < q →
      Partitions base newPrefix ip p q) ∧
    ∀ cidr ip p, parseCidrParts (trimMatches '"' (trim cidr)) = .ok (ip, p) → Enumerates cidr ip p :=
  ⟨safe_evalFunction, fun _ _ _ _ _ => subnet_partitions, fun _ _ _ => host_enumerates⟩

theorem evalFunction_exact_private :
    Partitions "10.0.0.5/24" "26" (.v4 0x0a000005) 24 26 ∧ Enumerates "10.0.0.5/24" (.v4 0x0a000005) 24 :=
  ⟨evalFunction_exact.2.1 _ _ _ _ _ (by decide +kernel) (by decide +kernel) (by decide),
    evalFunction_exact.2.2 _ _ _ (by decide +kernel)⟩

example : evalSubnet ["10.0.0.5/24", "26", "1"] = .ok "10.0.0.64/26" := by decide +kernel

end NlinkLab.Ipfunc
