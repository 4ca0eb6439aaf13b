import NlinkLab.Data.Fallible

/-! IP addresses and prefixes (`helpers.rs`, and the standard library's address
parser and formatter it uses), and the addresses of a management network. -/

namespace NlinkLab

/-- Why a topology is refused or a plan cannot be made. -/
inductive Error where
  | invalidTopology (detail : String)
  | deployFailed (detail : String)
  | invalidEndpoint (endpoint : String)
  | nodeNotFound (name : String)
  | nlink (what detail : String)
  deriving DecidableEq

/-- An error as it is printed. -/
def Error.display : Error → String
  | invalidTopology detail => "invalid topology: " ++ detail
  | deployFailed detail => detail
  | invalidEndpoint endpoint => "invalid endpoint '" ++ endpoint ++ "': expected 'node:interface' format"
  | nodeNotFound name => "node not found: " ++ name
  | nlink what detail => what ++ ": " ++ detail

inductive IpAddr where
  | v4 (bits : BitVec 32)
  | v6 (bits : BitVec 128)
  deriving DecidableEq

namespace IpAddr

def isIpv4 : IpAddr → Bool
  | v4 _ => true
  | v6 _ => false

def isIpv6 (ip : IpAddr) : Bool := !ip.isIpv4

/-! ### Parsing -/

/-- The value of a digit in a base of at most 16. -/
def toDigit (radix : Nat) (c : Char) : Option Nat :=
  let d :=
    if '0' ≤ c ∧ c ≤ '9' then some (c.toNat - '0'.toNat)
    else if 'a' ≤ c ∧ c ≤ 'f' then some (c.toNat - 'a'.toNat + 10)
    else if 'A' ≤ c ∧ c ≤ 'F' then some (c.toNat - 'A'.toNat + 10)
    else none
  d.filter (· < radix)

/-- Read as many digits as there are; too many, or a leading zero where none
is allowed, is no number. -/
def readNumber (radix maxDigits : Nat) (allowZeroPrefix : Bool) (cs : List Char) :
    Option (Nat × List Char) :=
  let digits := cs.takeWhile fun c => (toDigit radix c).isSome
  if digits = [] ∨ maxDigits < digits.length ∨
      (!allowZeroPrefix ∧ digits.head? = some '0' ∧ 1 < digits.length) then none
  else some ((digits.filterMap (toDigit radix)).foldl (fun n d => n * radix + d) 0,
    cs.drop digits.length)

def readChar (c : Char) : List Char → Option (List Char)
  | [] => none
  | d :: cs => if c = d then some cs else none

/-- A separator comes before every part but the first. -/
def readSeparator (sep : Char) (first : Bool) (cs : List Char) : Option (List Char) :=
  if first then some cs else readChar sep cs

def readOctets : (count : Nat) → (first : Bool) → List Char → Option (List Nat × List Char)
  | 0, _, cs => some ([], cs)
  | count + 1, first, cs => do
    let cs ← readSeparator '.' first cs
    let (octet, cs) ← readNumber 10 3 false cs
    if octet < 256 then
      let (octets, cs) ← readOctets count false cs
      some (octet :: octets, cs)
    else none

/-- The number with the given digits in a base. -/
def ofDigits (radix : Nat) (ds : List Nat) : Nat := ds.foldl (fun n d => n * radix + d) 0

def readIpv4 (cs : List Char) : Option (BitVec 32 × List Char) :=
  (readOctets 4 true cs).map fun (octets, cs) => (BitVec.ofNat 32 (ofDigits 256 octets), cs)

/-- Up to `left` 16-bit groups, the last two of which may be an IPv4 address;
whether they were. -/
def readGroups : (left : Nat) → (first : Bool) → List Char → List Nat × Bool × List Char
  | 0, _, cs => ([], false, cs)
  | left + 1, first, cs =>
    match if 1 ≤ left then (readSeparator ':' first cs).bind readIpv4 else none with
    | some (quad, rest) => ([quad.toNat / 65536, quad.toNat % 65536], true, rest)
    | none =>
      match (readSeparator ':' first cs).bind (readNumber 16 4 true) with
      | some (group, rest) =>
        let (groups, hasV4, rest) := readGroups left false rest
        (group :: groups, hasV4, rest)
      | none => ([], false, cs)

def readIpv6 (cs : List Char) : Option (BitVec 128 × List Char) :=
  let (head, headV4, cs) := readGroups 8 true cs
  if head.length = 8 then some (BitVec.ofNat 128 (ofDigits 65536 head), cs)
  else if headV4 then none
  else do
    let cs ← readChar ':' cs
    let cs ← readChar ':' cs
    let (tail, _, cs) := readGroups (8 - (head.length + 1)) true cs
    let zeros := List.replicate (8 - head.length - tail.length) 0
    some (BitVec.ofNat 128 (ofDigits 65536 (head ++ zeros ++ tail)), cs)

/-- The address a text is; the whole text is read. -/
def parse (s : String) : Option IpAddr :=
  let read := (readIpv4 s.toList).map (fun (a, cs) => (v4 a, cs)) <|>
    (readIpv6 s.toList).map fun (a, cs) => (v6 a, cs)
  match read with
  | some (ip, []) => some ip
  | _ => none

/-! ### Formatting -/

/-- The digits of `n` in a base, the most significant first, padded to `count`. -/
def digits (radix : Nat) : (count n : Nat) → List Nat
  | 0, _ => []
  | count + 1, n => digits radix count (n / radix) ++ [n % radix]

def hex (n : Nat) : String := String.ofList (Nat.toDigits 16 n)

def displayV4 (bits : Nat) : String :=
  ".".intercalate ((digits 256 4 bits).map toString)

/-- The first of the longest runs of zero segments: its start and length. -/
def longestZeros (segments : List Nat) : Nat × Nat :=
  let step := fun (s : (Nat × Nat) × (Nat × Nat) × Nat) (segment : Nat) =>
    let (longest, current, i) := s
    if segment = 0 then
      let current := (if current.2 = 0 then i else current.1, current.2 + 1)
      (if longest.2 < current.2 then current else longest, current, i + 1)
    else (longest, (0, 0), i + 1)
  (segments.foldl step ((0, 0), (0, 0), 0)).1

def displayV6 (bits : Nat) : String :=
  let segments := digits 65536 8 bits
  let join := fun (l : List Nat) => ":".intercalate (l.map hex)
  if segments.take 6 = [0, 0, 0, 0, 0, 0xffff] then "::ffff:" ++ displayV4 (bits % 2 ^ 32)
  else
    let (start, len) := longestZeros segments
    if 1 < len then join (segments.take start) ++ "::" ++ join (segments.drop (start + len))
    else join segments

def display : IpAddr → String
  | v4 bits => displayV4 bits.toNat
  | v6 bits => displayV6 bits.toNat

instance : ToString IpAddr := ⟨display⟩

end IpAddr

/-! ### Prefixes -/

/-- The text after and before the last occurrence of a character. -/
def rsplitOnce (s : String) (c : Char) : Option (String × String) :=
  let rev := s.toList.reverse
  let after := rev.takeWhile (· ≠ c)
  match rev.drop after.length with
  | [] => none
  | _ :: before => some (String.ofList before.reverse, String.ofList after.reverse)

def splitOnce (s : String) (c : Char) : Option (String × String) :=
  let before := s.toList.takeWhile (· ≠ c)
  match s.toList.drop before.length with
  | [] => none
  | _ :: after => some (String.ofList before, String.ofList after)

/-- What follows a plus sign, if a number does. -/
def unsignedDigits : List Char → List Char
  | '+' :: c :: cs => c :: cs
  | cs => cs

/-- One more digit of a number below `bound`. -/
def pushDigit (bound n : Nat) (c : Char) : Except String Nat :=
  match IpAddr.toDigit 10 c with
  | none => .error "invalid digit found in string"
  | some d => if n * 10 + d < bound then .ok (n * 10 + d) else .error "number too large to fit in target type"

/-- An unsigned decimal number, or why it is none that fits below `bound`. -/
def parseUnsigned (bound : Nat) (s : String) : Except String Nat :=
  if s = "" then .error "cannot parse integer from empty string"
  else (unsignedDigits s.toList).foldlM (pushDigit bound) 0

theorem le_foldl_digits (ds : List Nat) (acc : Nat) : acc ≤ ds.foldl (fun n d => n * 10 + d) acc := by
  induction ds generalizing acc with
  | nil => exact le_rfl
  | cons d ds ih =>
    have hle : acc ≤ acc * 10 + d := by omega
    exact hle.trans (ih _)

theorem foldlM_pushDigit {bound acc n : Nat} {cs : List Char} :
    cs.foldlM (pushDigit bound) acc = .ok n ↔ ∃ ds, cs.mapM (IpAddr.toDigit 10) = some ds ∧
      ds.foldl (fun n d => n * 10 + d) acc = n ∧ (cs ≠ [] → n < bound) := by
  induction cs generalizing acc with
  | nil => simp [pure, Except.pure]
  | cons c cs ih =>
    rw [List.foldlM_cons, List.mapM_cons, Fallible.bind_eq_ok]
    cases hd : IpAddr.toDigit 10 c with
    | none => simp [pushDigit, hd]
    | some d =>
      simp only [pushDigit, hd, ih, Option.bind_eq_bind, Option.bind_some, Option.bind_eq_some_iff, Option.pure_def,
        Option.some.injEq]
      constructor
      · rintro ⟨next, hnext, ds, hds, hn, hlt⟩
        split_ifs at hnext with hfits
        obtain rfl := Except.ok.inj hnext
        refine ⟨d :: ds, ⟨ds, hds, rfl⟩, hn, fun _ => ?_⟩
        rcases eq_or_ne cs [] with rfl | hcs
        · obtain rfl := Option.some.inj hds
          exact hn ▸ hfits
        · exact hlt hcs
      · rintro ⟨_, ⟨ds, hds, rfl⟩, hn, hlt⟩
        have hbound := hlt (List.cons_ne_nil c cs)
        have hfits : acc * 10 + d < bound := (le_foldl_digits ds _).trans_lt (hn ▸ hbound)
        exact ⟨_, if_pos hfits, ds, hds, hn, fun _ => hbound⟩

theorem unsignedDigits_ne_nil {cs : List Char} (h : cs ≠ []) : unsignedDigits cs ≠ [] := by
  unfold unsignedDigits
  split
  · exact List.cons_ne_nil _ _
  · exact h

theorem parseUnsigned_eq_ok {bound n : Nat} {s : String} : parseUnsigned bound s = .ok n ↔
    s ≠ "" ∧ ∃ ds, (unsignedDigits s.toList).mapM (IpAddr.toDigit 10) = some ds ∧ IpAddr.ofDigits 10 ds = n ∧
      n < bound := by
  unfold parseUnsigned
  split_ifs with hempty
  · exact iff_of_false nofun fun h => h.1 hempty
  · have hne : unsignedDigits s.toList ≠ [] :=
      unsignedDigits_ne_nil fun h => hempty (String.toList_eq_nil_iff.mp h)
    rw [foldlM_pushDigit, and_iff_right hempty]
    simp only [ne_eq, hne, not_false_eq_true, true_imp_iff]
    rfl

/-- Bit width of an address family. -/
def addrBits (ip : IpAddr) : Nat := if ip.isIpv4 then 32 else 128

/-- Parse a CIDR string into address and prefix length. -/
def parseCidr (s : String) : Except Error (IpAddr × Nat) :=
  let invalid := fun (detail : String) => Error.invalidTopology ("invalid CIDR '" ++ s ++ "': " ++ detail)
  match rsplitOnce s '/' with
  | none => .error (invalid "missing '/' separator")
  | some (addrStr, prefixStr) =>
    match IpAddr.parse addrStr with
    | none => .error (invalid "invalid IP address syntax")
    | some addr =>
      match parseUnsigned 256 prefixStr with
      | .error e => .error (invalid ("bad prefix: " ++ e))
      | .ok len =>
        if addrBits addr < len then
          .error (invalid ("prefix " ++ toString len ++ " exceeds maximum " ++ toString (addrBits addr)))
        else .ok (addr, len)

/-- The network address of an address and prefix length. -/
def networkAddress : IpAddr → Nat → IpAddr
  | .v4 bits, len => .v4 (bits &&& BitVec.allOnes 32 <<< (32 - len))
  | .v6 bits, len => .v6 (bits &&& BitVec.allOnes 128 <<< (128 - len))

/-- Whether an address is in a subnet. -/
def ipInSubnet : IpAddr → IpAddr → Nat → Bool
  | .v4 ip, .v4 net, len =>
    if len = 0 then true else if 32 < len then false
    else ip &&& BitVec.allOnes 32 <<< (32 - len) = net &&& BitVec.allOnes 32 <<< (32 - len)
  | .v6 ip, .v6 net, len =>
    if len = 0 then true else if 128 < len then false
    else ip &&& BitVec.allOnes 128 <<< (128 - len) = net &&& BitVec.allOnes 128 <<< (128 - len)
  | _, _, _ => false

/-- `base + offset` inside the family's address space. -/
def ipOffset (base : IpAddr) (offset : Nat) : Option IpAddr :=
  match base with
  | .v4 bits => if bits.toNat + offset < 2 ^ 32 then some (.v4 (BitVec.ofNat 32 (bits.toNat + offset))) else none
  | .v6 bits =>
    if bits.toNat + offset < 2 ^ 128 then some (.v6 (BitVec.ofNat 128 (bits.toNat + offset))) else none

/-! ### Management addresses -/

/-- Usable host addresses in a management subnet; saturates for very short IPv6 prefixes. -/
def mgmtUsableHosts (ip : IpAddr) (len : Nat) : Nat :=
  let bits := addrBits ip
  if bits - 1 ≤ len then 0
  else if bits - len < 128 then 2 ^ (bits - len) - 2
  else 2 ^ 128 - 1

/-- Addresses of a management network. -/
structure MgmtAddrs where
  bridge : IpAddr
  nodes : List IpAddr
  prefixLen : Nat

/-- The management addresses for `nodeCount` nodes from the lab's subnet. -/
def mgmtAddresses (mgmtSubnet : String) (nodeCount : Nat) : Except Error MgmtAddrs := do
  let (ip, prefixLen) ← parseCidr mgmtSubnet
  let network := networkAddress ip prefixLen
  let usable := mgmtUsableHosts ip prefixLen
  let needed := nodeCount + 1
  if usable < needed then
    throw (.deployFailed ("mgmt subnet " ++ mgmtSubnet ++ " has " ++ toString usable ++
      " usable host address(es) but the bridge plus " ++ toString nodeCount ++ " nodes need " ++
      toString needed))
  let at' := fun (offset : Nat) =>
    match ipOffset network offset with
    | some ip => Except.ok ip
    | none => .error (.deployFailed ("mgmt subnet " ++ mgmtSubnet ++ ": address offset " ++
        toString offset ++ " overflows the address space"))
  let bridge ← at' 1
  let nodes ← (List.range nodeCount).mapM fun idx => at' (2 + idx)
  return { bridge, nodes, prefixLen }

end NlinkLab
