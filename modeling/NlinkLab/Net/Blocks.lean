import NlinkLab.Net.Text
import NlinkLab.Data.Machine

/-! Addresses as numbers (`helpers.rs`): the block of addresses that a prefix names, and
its parts. A block starts at a multiple of its size, so two blocks of one length are the
same or share no address. -/

namespace NlinkLab

open Machine

/-- Integer value of an address. -/
def ipToBits : IpAddr → Nat
  | .v4 bits => bits.toNat
  | .v6 bits => bits.toNat

/-- The address of a family width with an integer value; a wider value is truncated. -/
def ipFromBits (bits value : Nat) : IpAddr :=
  if bits = 32 then .v4 (BitVec.ofNat 32 value) else .v6 (BitVec.ofNat 128 value)

/-- The mask of a prefix length, in machine steps. -/
def prefixMask {E : Type} (w len : Nat) : Run E Nat :=
  if len = 0 then .ok 0 else do shl w (2 ^ w - 1) (← sub w len)

/-- `network_address`, in machine steps. -/
def networkAddressRun {E : Type} : IpAddr → Nat → Run E IpAddr
  | .v4 bits, len => do return .v4 (bits &&& BitVec.ofNat 32 (← prefixMask 32 len))
  | .v6 bits, len => do return .v6 (bits &&& BitVec.ofNat 128 (← prefixMask 128 len))

/-! ### The addresses of a prefix -/

/-- An address is in the block of a prefix. -/
def Within (a net : IpAddr) (len : Nat) : Prop :=
  addrBits a = addrBits net ∧ networkAddress a len = networkAddress net len

instance (a net : IpAddr) (len : Nat) : Decidable (Within a net len) := inferInstanceAs (Decidable (_ ∧ _))

/-- The last address of a prefix. -/
def lastAddress (ip : IpAddr) (len : Nat) : IpAddr :=
  ipFromBits (addrBits ip) (ipToBits (networkAddress ip len) + (2 ^ (addrBits ip - len) - 1))

/-! ### Addresses and numbers -/

theorem addrBits_pos (ip : IpAddr) : 0 < addrBits ip := by cases ip <;> exact Nat.succ_pos _

theorem addrBits_le (ip : IpAddr) : addrBits ip ≤ 128 := by
  cases ip with
  | v4 => exact (by decide : 32 ≤ 128)
  | v6 => exact le_rfl

theorem addrBits_eq (ip : IpAddr) : addrBits ip = 32 ∨ addrBits ip = 128 := by
  cases ip
  · exact .inl rfl
  · exact .inr rfl

theorem ipToBits_lt (ip : IpAddr) : ipToBits ip < 2 ^ addrBits ip := by
  cases ip with
  | v4 bits => exact bits.isLt
  | v6 bits => exact bits.isLt

/-- The truncation of a value to a family's width. -/
theorem ipToBits_ipFromBits (ip : IpAddr) (value : Nat) :
    ipToBits (ipFromBits (addrBits ip) value) = value % 2 ^ addrBits ip := by
  cases ip with
  | v4 bits => exact BitVec.toNat_ofNat value 32
  | v6 bits => exact BitVec.toNat_ofNat value 128

@[simp] theorem addrBits_ipFromBits (ip : IpAddr) (value : Nat) :
    addrBits (ipFromBits (addrBits ip) value) = addrBits ip := by
  cases ip <;> rfl

theorem ipFromBits_ipToBits (ip : IpAddr) : ipFromBits (addrBits ip) (ipToBits ip) = ip := by
  cases ip with
  | v4 bits => exact congrArg IpAddr.v4 (BitVec.ofNat_toNat 32 bits)
  | v6 bits => exact congrArg IpAddr.v6 (BitVec.ofNat_toNat 128 bits)

/-- An address is its family and its value. -/
theorem ip_ext {a b : IpAddr} (hbits : addrBits a = addrBits b) (hvalue : ipToBits a = ipToBits b) : a = b := by
  rw [← ipFromBits_ipToBits a, ← ipFromBits_ipToBits b, hbits, hvalue]

/-! ### Blocks of numbers -/

/-- The first number of the block of size `2 ^ h` that a number is in. -/
def floorTo (h a : Nat) : Nat := a / 2 ^ h * 2 ^ h

theorem floorTo_le (h a : Nat) : floorTo h a ≤ a := Nat.div_mul_le_self a _

theorem lt_floorTo_add (h a : Nat) : a < floorTo h a + 2 ^ h := by
  have := Nat.div_add_mod' a (2 ^ h)
  have := Nat.mod_lt a (Nat.two_pow_pos h)
  unfold floorTo
  omega

theorem dvd_floorTo (h a : Nat) : 2 ^ h ∣ floorTo h a := Nat.dvd_mul_left _ _

theorem floorTo_of_dvd {h a : Nat} (ha : 2 ^ h ∣ a) : floorTo h a = a := Nat.div_mul_cancel ha

/-- A number is in a block exactly when the block starts at its floor. -/
theorem floorTo_eq_iff {h a base : Nat} (hbase : 2 ^ h ∣ base) :
    floorTo h a = base ↔ base ≤ a ∧ a < base + 2 ^ h := by
  constructor
  · rintro rfl
    exact ⟨floorTo_le h a, lt_floorTo_add h a⟩
  · rintro ⟨hle, hlt⟩
    obtain ⟨c, rfl⟩ := hbase
    have hc : a / 2 ^ h = c := Nat.div_eq_of_lt_le (by rwa [Nat.mul_comm]) (by rwa [Nat.succ_mul, Nat.mul_comm])
    rw [floorTo, hc, Nat.mul_comm]

/-- A block ends at the next multiple of its size or before. -/
theorem floorTo_add_le {h a top : Nat} (htop : 2 ^ h ∣ top) (hlt : floorTo h a < top) :
    floorTo h a + 2 ^ h ≤ top := by
  obtain ⟨c, rfl⟩ := htop
  obtain ⟨d, hd⟩ := dvd_floorTo h a
  rw [hd] at hlt ⊢
  rw [← Nat.mul_succ]
  exact Nat.mul_le_mul_left _ (Nat.lt_of_mul_lt_mul_left hlt)

/-! ### Network addresses -/

theorem toNat_and_allOnes_shiftLeft {w : Nat} (x : BitVec w) (k : Nat) :
    (x &&& BitVec.allOnes w <<< k).toNat = floorTo k x.toNat := by
  have hshift : x &&& BitVec.allOnes w <<< k = x >>> k <<< k := by
    ext i hi
    by_cases hik : i < k
    · simp [hik]
    · simp [hik, hi, show k + (i - k) = i by omega]
  have hlt : floorTo k x.toNat < 2 ^ w := (floorTo_le k _).trans_lt x.isLt
  rw [hshift, BitVec.toNat_shiftLeft, BitVec.toNat_ushiftRight, Nat.shiftLeft_eq, Nat.shiftRight_eq_div_pow]
  exact Nat.mod_eq_of_lt hlt

@[simp] theorem addrBits_networkAddress (ip : IpAddr) (len : Nat) : addrBits (networkAddress ip len) = addrBits ip := by
  cases ip <;> rfl

theorem ipToBits_networkAddress (ip : IpAddr) (len : Nat) :
    ipToBits (networkAddress ip len) = floorTo (addrBits ip - len) (ipToBits ip) := by
  cases ip with
  | v4 bits => exact toNat_and_allOnes_shiftLeft bits (32 - len)
  | v6 bits => exact toNat_and_allOnes_shiftLeft bits (128 - len)

@[simp] theorem networkAddress_networkAddress (ip : IpAddr) (len : Nat) :
    networkAddress (networkAddress ip len) len = networkAddress ip len := by
  refine ip_ext (by simp) ?_
  rw [ipToBits_networkAddress, ipToBits_networkAddress, addrBits_networkAddress]
  exact floorTo_of_dvd (dvd_floorTo _ _)

theorem within_iff {a net : IpAddr} {len : Nat} :
    Within a net len ↔ addrBits a = addrBits net ∧ ipToBits (networkAddress net len) ≤ ipToBits a ∧
      ipToBits a < ipToBits (networkAddress net len) + 2 ^ (addrBits net - len) := by
  constructor
  · rintro ⟨hbits, hnet⟩
    have hfloor := congrArg ipToBits hnet
    rw [ipToBits_networkAddress a, hbits] at hfloor
    exact ⟨hbits, (floorTo_eq_iff (by rw [ipToBits_networkAddress]; exact dvd_floorTo _ _)).mp hfloor⟩
  · rintro ⟨hbits, hrange⟩
    refine ⟨hbits, ip_ext (by simp [hbits]) ?_⟩
    rw [ipToBits_networkAddress a, hbits]
    exact (floorTo_eq_iff (by rw [ipToBits_networkAddress]; exact dvd_floorTo _ _)).mpr hrange

theorem networkAddress_add_lt (ip : IpAddr) (len : Nat) :
    ipToBits (networkAddress ip len) + 2 ^ (addrBits ip - len) ≤ 2 ^ addrBits ip := by
  rw [ipToBits_networkAddress]
  exact floorTo_add_le (Nat.pow_dvd_pow 2 (Nat.sub_le _ _)) ((floorTo_le _ _).trans_lt (ipToBits_lt ip))

theorem ipToBits_lastAddress (ip : IpAddr) (len : Nat) :
    ipToBits (lastAddress ip len) = ipToBits (networkAddress ip len) + (2 ^ (addrBits ip - len) - 1) := by
  have := networkAddress_add_lt ip len
  have := Nat.two_pow_pos (addrBits ip - len)
  rw [lastAddress, ipToBits_ipFromBits, Nat.mod_eq_of_lt (by omega)]

/-- An address of the block of a prefix, by its offset. -/
def addressAt (ip : IpAddr) (len offset : Nat) : IpAddr :=
  ipFromBits (addrBits ip) (ipToBits (networkAddress ip len) + offset)

@[simp] theorem addrBits_addressAt (ip : IpAddr) (len offset : Nat) : addrBits (addressAt ip len offset) = addrBits ip :=
  addrBits_ipFromBits ip _

theorem ipToBits_addressAt {ip : IpAddr} {len offset : Nat} (h : offset < 2 ^ (addrBits ip - len)) :
    ipToBits (addressAt ip len offset) = ipToBits (networkAddress ip len) + offset := by
  have := networkAddress_add_lt ip len
  rw [addressAt, ipToBits_ipFromBits, Nat.mod_eq_of_lt (by omega)]

theorem within_addressAt {ip : IpAddr} {len offset : Nat} (h : offset < 2 ^ (addrBits ip - len)) :
    Within (addressAt ip len offset) ip len := by
  refine within_iff.mpr ⟨addrBits_addressAt ip len offset, ?_⟩
  rw [ipToBits_addressAt h]
  exact ⟨Nat.le_add_right _ _, Nat.add_lt_add_left h _⟩

/-! ### The blocks of a longer prefix -/

section Carve

variable {ip : IpAddr} {p q i : Nat}

/-- The offset of the `i`-th block. -/
theorem block_offset (hq : q ≤ addrBits ip) (hpq : p ≤ q) (hi : i < 2 ^ (q - p)) :
    i * 2 ^ (addrBits ip - q) < 2 ^ (addrBits ip - p) := by
  rw [show addrBits ip - p = (q - p) + (addrBits ip - q) by omega, pow_add]
  exact Nat.mul_lt_mul_of_pos_right hi (Nat.two_pow_pos _)

/-- The `i`-th block of a prefix starts at a multiple of its size. -/
theorem networkAddress_block (hq : q ≤ addrBits ip) (hpq : p ≤ q) (hi : i < 2 ^ (q - p)) :
    networkAddress (addressAt ip p (i * 2 ^ (addrBits ip - q))) q = addressAt ip p (i * 2 ^ (addrBits ip - q)) := by
  have hdvd : 2 ^ (addrBits ip - q) ∣ 2 ^ (addrBits ip - p) := Nat.pow_dvd_pow 2 (by omega)
  refine ip_ext (addrBits_networkAddress _ _) ?_
  rw [ipToBits_networkAddress, addrBits_addressAt, ipToBits_addressAt (block_offset hq hpq hi)]
  refine floorTo_of_dvd (Nat.dvd_add ?_ (Nat.dvd_mul_left _ _))
  rw [ipToBits_networkAddress]
  exact hdvd.trans (dvd_floorTo _ _)

/-- The addresses of the `i`-th block, by their offset in the whole. -/
theorem within_block_iff (hq : q ≤ addrBits ip) (hpq : p ≤ q) (hi : i < 2 ^ (q - p)) {a : IpAddr} :
    Within a (addressAt ip p (i * 2 ^ (addrBits ip - q))) q ↔ addrBits a = addrBits ip ∧
      ipToBits (networkAddress ip p) + i * 2 ^ (addrBits ip - q) ≤ ipToBits a ∧
      ipToBits a < ipToBits (networkAddress ip p) + (i + 1) * 2 ^ (addrBits ip - q) := by
  rw [within_iff, networkAddress_block hq hpq hi, ipToBits_addressAt (block_offset hq hpq hi), addrBits_addressAt,
    Nat.add_assoc, ← Nat.succ_mul]

/-- The block of an address is that of its offset. -/
theorem exists_block (hq : q ≤ addrBits ip) (hpq : p ≤ q) {a : IpAddr} (ha : Within a ip p) :
    ∃ i < 2 ^ (q - p), Within a (addressAt ip p (i * 2 ^ (addrBits ip - q))) q := by
  obtain ⟨hbits, hlo, hhi⟩ := within_iff.mp ha
  have hpow : 2 ^ (addrBits ip - p) = 2 ^ (q - p) * 2 ^ (addrBits ip - q) := by
    rw [← pow_add]
    congr 1
    omega
  have hlt : ipToBits a - ipToBits (networkAddress ip p) < 2 ^ (addrBits ip - q) * 2 ^ (q - p) := by
    rw [Nat.mul_comm, ← hpow]
    omega
  have hi := Nat.div_lt_of_lt_mul hlt
  have hdiv := Nat.div_add_mod' (ipToBits a - ipToBits (networkAddress ip p)) (2 ^ (addrBits ip - q))
  have hmod := Nat.mod_lt (ipToBits a - ipToBits (networkAddress ip p)) (Nat.two_pow_pos (addrBits ip - q))
  refine ⟨_, hi, (within_block_iff hq hpq hi).mpr ⟨hbits, ?_, ?_⟩⟩
  · omega
  · rw [Nat.succ_mul]
    omega

/-- A block lies in the whole. -/
theorem within_of_within_block (hq : q ≤ addrBits ip) (hpq : p ≤ q) (hi : i < 2 ^ (q - p)) {a : IpAddr}
    (ha : Within a (addressAt ip p (i * 2 ^ (addrBits ip - q))) q) : Within a ip p := by
  obtain ⟨hbits, hlo, hhi⟩ := (within_block_iff hq hpq hi).mp ha
  have hend := block_offset (i := i) hq hpq hi
  have hdvd : 2 ^ (addrBits ip - q) ∣ 2 ^ (addrBits ip - p) := Nat.pow_dvd_pow 2 (by omega)
  have hlast := floorTo_add_le hdvd (by rwa [floorTo_of_dvd (Nat.dvd_mul_left _ i)])
  rw [floorTo_of_dvd (Nat.dvd_mul_left _ i), ← Nat.succ_mul, Nat.succ_eq_add_one] at hlast
  exact within_iff.mpr ⟨hbits, by omega, by omega⟩

/-- An earlier block lies before a later one. -/
theorem lt_of_within_block {j : Nat} (hq : q ≤ addrBits ip) (hpq : p ≤ q) (hij : i < j) (hj : j < 2 ^ (q - p))
    {a b : IpAddr} (ha : Within a (addressAt ip p (i * 2 ^ (addrBits ip - q))) q)
    (hb : Within b (addressAt ip p (j * 2 ^ (addrBits ip - q))) q) : ipToBits a < ipToBits b := by
  obtain ⟨-, -, hhi⟩ := (within_block_iff hq hpq (hij.trans hj)).mp ha
  obtain ⟨-, hlo, -⟩ := (within_block_iff hq hpq hj).mp hb
  have hle := Nat.mul_le_mul_right (2 ^ (addrBits ip - q)) (Nat.succ_le_of_lt hij)
  rw [Nat.succ_eq_add_one] at hle
  omega

end Carve

/-! ### Machine steps -/

theorem prefixMask_eq {E : Type} {w len : Nat} (h0 : 0 < len) (h : len ≤ w) :
    (prefixMask w len : Run E Nat) = .ok ((BitVec.allOnes w <<< (w - len)).toNat) := by
  have hk : w - len < w := by omega
  rw [prefixMask, if_neg (by omega), sub_of_le h]
  exact (shl_of_lt hk).trans (by simp [BitVec.toNat_shiftLeft, Nat.shiftLeft_eq])

/-- No step of `network_address` overflows for a prefix length of the family. -/
theorem networkAddressRun_eq {E : Type} {ip : IpAddr} {len : Nat} (h : len ≤ addrBits ip) :
    (networkAddressRun ip len : Run E IpAddr) = .ok (networkAddress ip len) := by
  rcases Nat.eq_zero_or_pos len with rfl | h0
  · cases ip <;> rfl
  · cases ip with
    | v4 bits =>
      have hmask : (prefixMask 32 len : Run E Nat) = _ := prefixMask_eq h0 h
      rw [networkAddressRun, hmask]
      exact congrArg (fun m => Except.ok (IpAddr.v4 (bits &&& m))) (BitVec.ofNat_toNat 32 _)
    | v6 bits =>
      have hmask : (prefixMask 128 len : Run E Nat) = _ := prefixMask_eq h0 h
      rw [networkAddressRun, hmask]
      exact congrArg (fun m => Except.ok (IpAddr.v6 (bits &&& m))) (BitVec.ofNat_toNat 128 _)

end NlinkLab
