import NlinkLab.Ipfunc

/-! Named address pools (`parser/nll/lower.rs`): a pool is declared as a prefix and the
length of the blocks it hands out, and each allocation takes the next block. An IPv6 pool
that reaches the end of the address space loses its last block: the end of that block is no
128-bit number. -/

namespace NlinkLab.Lower

open Machine

/-- A refusal while a topology's text is lowered. -/
structure NllParse where
  detail : String
  deriving DecidableEq

/-- `pool NAME BASE /PREFIX`. -/
structure PoolDef where
  name : String
  base : String
  prefixLen : Nat

/-- State of a named pool. -/
structure PoolState where
  base : Nat
  poolSize : Nat
  allocPrefix : Nat
  nextOffset : Nat
  bits : Nat
  deriving DecidableEq

/-- Declare a pool. -/
def addPool (pools : BTreeMap String PoolState) (p : PoolDef) : Run NllParse (BTreeMap String PoolState) :=
  match parseCidr p.base with
  | .error e => fail ⟨"pool '" ++ p.name ++ "': invalid base '" ++ p.base ++ "': " ++ e.display⟩
  | .ok (ip, len) =>
    let bits := addrBits ip
    if bits < p.prefixLen ∨ p.prefixLen < len then
      fail ⟨"pool '" ++ p.name ++ "': allocation prefix /" ++ toString p.prefixLen ++
        " must be between the pool prefix /" ++ toString len ++ " and /" ++ toString bits⟩
    else do
      let base := ipToBits (← networkAddressRun ip len)
      let poolSize := (checkedShl 128 1 (← sub bits len)).getD (2 ^ 128 - 1)
      if pools.contains p.name then fail ⟨"duplicate pool name '" ++ p.name ++ "'"⟩
      else .ok (pools.insert p.name { base, poolSize, allocPrefix := p.prefixLen, nextOffset := 0, bits })

/-- Whether the block that ends at the offset `next` is past the pool or the address space. -/
def exhausted (s : PoolState) (space : Nat) : Option Nat → Bool
  | none => true
  | some next => s.poolSize < next || (checkedAdd 128 s.base next).all (space < ·)

/-- Allocate the next block of a pool. -/
def allocateSubnet (poolName : String) (s : PoolState) : Run NllParse String × PoolState :=
  match (sub s.bits s.allocPrefix : Run NllParse Nat) with
  | .error stop => (.error stop, s)
  | .ok hostBits =>
    let subnetSize := (checkedShl 128 1 hostBits).getD (2 ^ 128 - 1)
    let space := (checkedShl 128 1 s.bits).getD (2 ^ 128 - 1)
    let next := checkedAdd 128 s.nextOffset subnetSize
    if exhausted s space next then
      (do fail ⟨"pool '" ++ poolName ++ "' exhausted: " ++ toString (← div s.nextOffset subnetSize) ++ " /" ++
          toString s.allocPrefix ++ " blocks of " ++ toString s.poolSize ++ " addresses already allocated"⟩, s)
    else
      match (add 128 s.base s.nextOffset : Run NllParse Nat) with
      | .error stop => (.error stop, s)
      | .ok network =>
        (.ok (toString (ipFromBits s.bits network) ++ "/" ++ toString s.allocPrefix),
          { s with nextOffset := next.getD (2 ^ 128 - 1) })

/-- The pool after a number of allocations. -/
def after (poolName : String) (s : PoolState) (calls : Nat) : PoolState :=
  (fun s => (allocateSubnet poolName s).2)^[calls] s

/-! ### A declared pool -/

/-- A power of two, or the greatest number where it is none. -/
theorem shl_one_getD (k : Nat) : (checkedShl 128 1 k).getD (2 ^ 128 - 1) = min (2 ^ k) (2 ^ 128 - 1) := by
  by_cases hk : k < 128
  · have hle : 2 ^ k ≤ 2 ^ 127 := Nat.pow_le_pow_right (by decide) (by omega)
    rw [checkedShl_one hk, Option.getD_some]
    omega
  · have hle : 2 ^ 128 ≤ 2 ^ k := Nat.pow_le_pow_right (by decide) (by omega)
    rw [checkedShl_of_le (by omega), Option.getD_none]
    omega

/-- A pool that handed out `k` blocks. -/
def poolAt (ip : IpAddr) (p q k : Nat) : PoolState where
  base := ipToBits (networkAddress ip p)
  poolSize := min (2 ^ (addrBits ip - p)) (2 ^ 128 - 1)
  allocPrefix := q
  nextOffset := k * min (2 ^ (addrBits ip - q)) (2 ^ 128 - 1)
  bits := addrBits ip

theorem addPool_eq_ok {pools pools' : BTreeMap String PoolState} {d : PoolDef} (h : addPool pools d = .ok pools') :
    ∃ ip p, parseCidr d.base = .ok (ip, p) ∧ p ≤ d.prefixLen ∧ d.prefixLen ≤ addrBits ip ∧
      pools' = pools.insert d.name (poolAt ip p d.prefixLen 0) := by
  unfold addPool at h
  split at h
  · cases h
  · rename_i ip p hparse
    have hp := parseCidr_le hparse
    dsimp only at h
    rw [networkAddressRun_eq hp, sub_of_le hp] at h
    simp only [bind, Except.bind, shl_one_getD] at h
    split_ifs at h with hprefix
    · cases h
    · cases h
    · refine ⟨ip, p, hparse, by omega, by omega, ?_⟩
      rw [← Except.ok.inj h, poolAt, Nat.zero_mul]

/-! ### The blocks it hands out -/

/-- The number of blocks: where the pool ends with the address space of IPv6, one less than
it holds, unless it is the whole space in one block. -/
def blocks (ip : IpAddr) (p q : Nat) : Nat :=
  if ipToBits (lastAddress ip p) + 1 < 2 ^ 128 ∨ q = 0 then 2 ^ (q - p) else 2 ^ (q - p) - 1

section Calls

variable {ip : IpAddr} {p q k : Nat} {poolName : String}

/-- What the check of the next block lets through. -/
theorem exhausted_eq_false_iff {s : PoolState} {space a size : Nat} :
    exhausted s space (checkedAdd 128 a size) = false ↔ a + size < 2 ^ 128 ∧ a + size ≤ s.poolSize ∧
      s.base + (a + size) < 2 ^ 128 ∧ s.base + (a + size) ≤ space := by
  by_cases hnext : a + size < 2 ^ 128
  · rw [checkedAdd_of_lt hnext, exhausted, Bool.or_eq_false_iff, decide_eq_false_iff_not, not_lt]
    by_cases hbase : s.base + (a + size) < 2 ^ 128
    · rw [checkedAdd_of_lt hbase]
      simp only [Option.all_some, decide_eq_false_iff_not, not_lt]
      exact ⟨fun h => ⟨hnext, h.1, hbase, h.2⟩, fun ⟨_, hsize, _, hspace⟩ => ⟨hsize, hspace⟩⟩
    · rw [checkedAdd_of_le (not_lt.mp hbase)]
      exact ⟨fun h => (nomatch h.2), fun h => absurd h.2.2.1 hbase⟩
  · rw [checkedAdd_of_le (not_lt.mp hnext)]
    exact ⟨nofun, fun h => absurd h.1 hnext⟩

/-- Every block of an IPv4 pool ends inside the space. -/
theorem fits_v4 {wide block n offset base : Nat} (hwide : wide ≤ 2 ^ 32) (hend : base + wide ≤ 2 ^ 32)
    (hcount : offset + block ≤ wide ↔ k + 1 ≤ n) :
    (offset + block < 2 ^ 128 ∧ offset + block ≤ min wide (2 ^ 128 - 1) ∧ base + (offset + block) < 2 ^ 128 ∧
      base + (offset + block) ≤ min (2 ^ 32) (2 ^ 128 - 1)) ↔ k < n := by omega

/-- A block of an IPv6 pool must end before the last number. -/
theorem fits_v6 {wide block n offset base : Nat} (hend : base + wide ≤ 2 ^ 128)
    (hcount : offset + block ≤ wide ↔ k + 1 ≤ n) (hless : offset + block < wide ↔ k + 1 < n) :
    (offset + block < 2 ^ 128 ∧ offset + block ≤ min wide (2 ^ 128 - 1) ∧ base + (offset + block) < 2 ^ 128 ∧
      base + (offset + block) ≤ min (2 ^ 128) (2 ^ 128 - 1)) ↔
      k < if base + wide < 2 ^ 128 then n else n - 1 := by
  split_ifs
  · omega
  · omega

/-- The check of a block past the last, where a block's size is a number. -/
theorem exhausted_iff (hpq : p ≤ q) (hq : q ≤ addrBits ip) (hsize : addrBits ip - q < 128) :
    exhausted (poolAt ip p q k) (min (2 ^ addrBits ip) (2 ^ 128 - 1))
      (checkedAdd 128 (k * 2 ^ (addrBits ip - q)) (2 ^ (addrBits ip - q))) = false ↔ k < blocks ip p q := by
  have hend := networkAddress_add_lt ip p
  have hwide := Nat.two_pow_pos (addrBits ip - p)
  have hpow : 2 ^ (addrBits ip - p) = 2 ^ (q - p) * 2 ^ (addrBits ip - q) := by
    rw [← pow_add]
    congr 1
    omega
  have hcount : k * 2 ^ (addrBits ip - q) + 2 ^ (addrBits ip - q) ≤ 2 ^ (addrBits ip - p) ↔ k + 1 ≤ 2 ^ (q - p) := by
    rw [← Nat.succ_mul, hpow]
    exact Nat.mul_le_mul_right_iff (Nat.two_pow_pos _)
  have hless : k * 2 ^ (addrBits ip - q) + 2 ^ (addrBits ip - q) < 2 ^ (addrBits ip - p) ↔ k + 1 < 2 ^ (q - p) := by
    rw [← Nat.succ_mul, hpow]
    exact Nat.mul_lt_mul_right (Nat.two_pow_pos _)
  have hlast : ipToBits (lastAddress ip p) + 1 = ipToBits (networkAddress ip p) + 2 ^ (addrBits ip - p) := by
    rw [ipToBits_lastAddress]
    omega
  rw [exhausted_eq_false_iff, blocks, hlast]
  simp only [poolAt]
  rcases addrBits_eq ip with h32 | h128
  · rw [h32] at hend hcount ⊢
    have hle : 2 ^ (32 - p) ≤ 2 ^ 32 := Nat.pow_le_pow_right (by decide) (Nat.sub_le _ _)
    rw [if_pos (.inl (by omega))]
    exact fits_v4 hle hend hcount
  · rw [h128] at hend hcount hless hsize ⊢
    have hq0 : q ≠ 0 := by omega
    simp only [hq0, or_false]
    exact fits_v6 hend hcount hless

/-- A pool of one block of the whole of IPv6 hands it out once. -/
theorem exhausted_whole (hip : addrBits ip = 128) (hk : k ≤ 1) :
    exhausted (poolAt ip 0 0 k) (2 ^ 128 - 1) (checkedAdd 128 (k * (2 ^ 128 - 1)) (2 ^ 128 - 1)) = false ↔ k = 0 := by
  have hzero : ipToBits (networkAddress ip 0) = 0 := by
    have hend := networkAddress_add_lt ip 0
    rw [hip] at hend
    omega
  rw [exhausted_eq_false_iff]
  simp only [poolAt, hzero, hip]
  omega

/-- A block's size is a number, or the one block is the whole of IPv6. -/
theorem size_cases (hpq : p ≤ q) (hq : q ≤ addrBits ip) :
    (addrBits ip - q < 128 ∧ min (2 ^ (addrBits ip - q)) (2 ^ 128 - 1) = 2 ^ (addrBits ip - q)) ∨
      (addrBits ip = 128 ∧ p = 0 ∧ q = 0) := by
  have hbits := addrBits_le ip
  by_cases hsize : addrBits ip - q < 128
  · have hle : 2 ^ (addrBits ip - q) ≤ 2 ^ 127 := Nat.pow_le_pow_right (by decide) (by omega)
    exact .inl ⟨hsize, by omega⟩
  · exact .inr (by omega)

/-- The next block of a pool is handed out exactly below their number. -/
theorem exhausted_poolAt (hpq : p ≤ q) (hq : q ≤ addrBits ip) (hk : k ≤ blocks ip p q) :
    exhausted (poolAt ip p q k) (min (2 ^ addrBits ip) (2 ^ 128 - 1))
      (checkedAdd 128 (poolAt ip p q k).nextOffset (min (2 ^ (addrBits ip - q)) (2 ^ 128 - 1))) = false ↔
      k < blocks ip p q := by
  rcases size_cases hpq hq with ⟨hsize, hmin⟩ | ⟨hip, rfl, rfl⟩
  · simp only [poolAt, hmin]
    exact exhausted_iff hpq hq hsize
  · -- one block is the whole of IPv6
    have hone : blocks ip 0 0 = 1 := if_pos (.inr rfl)
    have hmin : min (2 ^ 128) (2 ^ 128 - 1) = 2 ^ 128 - 1 := by omega
    rw [hone] at hk ⊢
    rw [poolAt, hip]
    simp only [Nat.sub_zero, hmin]
    have hwhole := exhausted_whole hip hk
    rw [poolAt, hip] at hwhole
    simp only [Nat.sub_zero, hmin] at hwhole
    rw [hwhole]
    omega

/-! ### One allocation -/

/-- The size of a pool's blocks. -/
def PoolState.size (s : PoolState) : Nat := min (2 ^ (s.bits - s.allocPrefix)) (2 ^ 128 - 1)

variable {s : PoolState}

theorem allocateSubnet_of_fits (hs : s.allocPrefix ≤ s.bits)
    (h : exhausted s (min (2 ^ s.bits) (2 ^ 128 - 1)) (checkedAdd 128 s.nextOffset s.size) = false) :
    allocateSubnet poolName s =
      (.ok (toString (ipFromBits s.bits (s.base + s.nextOffset)) ++ "/" ++ toString s.allocPrefix),
        { s with nextOffset := s.nextOffset + s.size }) := by
  obtain ⟨hnext, -, hbase, -⟩ := exhausted_eq_false_iff.mp h
  unfold allocateSubnet
  rw [sub_of_le hs]
  dsimp only
  rw [shl_one_getD, shl_one_getD, ← PoolState.size, h, if_neg Bool.false_ne_true, add_of_lt (by omega)]
  dsimp only
  rw [checkedAdd_of_lt hnext, Option.getD_some]

theorem allocateSubnet_of_exhausted (hs : s.allocPrefix ≤ s.bits)
    (h : exhausted s (min (2 ^ s.bits) (2 ^ 128 - 1)) (checkedAdd 128 s.nextOffset s.size) = true) :
    ∃ e, allocateSubnet poolName s = (fail e, s) := by
  have hsize : 0 < s.size := by
    have := Nat.two_pow_pos (s.bits - s.allocPrefix)
    unfold PoolState.size
    omega
  unfold allocateSubnet
  rw [sub_of_le hs]
  dsimp only
  rw [shl_one_getD, shl_one_getD, ← PoolState.size, h, if_pos rfl, div_of_pos hsize]
  exact ⟨_, rfl⟩

theorem allocateSubnet_poolAt (poolName : String) (hpq : p ≤ q) (hq : q ≤ addrBits ip) (hk : k < blocks ip p q) :
    allocateSubnet poolName (poolAt ip p q k) =
      (.ok (toString (addressAt ip p (k * 2 ^ (addrBits ip - q))) ++ "/" ++ toString q), poolAt ip p q (k + 1)) := by
  have hfits := (exhausted_poolAt hpq hq hk.le).mpr hk
  have hoffset : k * min (2 ^ (addrBits ip - q)) (2 ^ 128 - 1) = k * 2 ^ (addrBits ip - q) := by
    rcases size_cases hpq hq with ⟨-, hmin⟩ | ⟨-, rfl, rfl⟩
    · rw [hmin]
    · have hone : blocks ip 0 0 = 1 := if_pos (.inr rfl)
      obtain rfl : k = 0 := by omega
      rw [Nat.zero_mul, Nat.zero_mul]
  rw [allocateSubnet_of_fits hq hfits, addressAt, ← hoffset]
  simp only [poolAt, PoolState.size, Nat.succ_mul]

theorem allocateSubnet_last (poolName : String) (hpq : p ≤ q) (hq : q ≤ addrBits ip) :
    ∃ e, allocateSubnet poolName (poolAt ip p q (blocks ip p q)) =
      (fail e, poolAt ip p q (blocks ip p q)) := by
  have hnot := (exhausted_poolAt hpq hq (Nat.le_refl _)).not.mpr (Nat.lt_irrefl _)
  exact allocateSubnet_of_exhausted hq (Bool.eq_true_of_not_eq_false hnot)

/-- What a pool is after any number of allocations. -/
theorem after_poolAt (hpq : p ≤ q) (hq : q ≤ addrBits ip) (calls : Nat) :
    after poolName (poolAt ip p q 0) calls = poolAt ip p q (min calls (blocks ip p q)) := by
  induction calls with
  | zero => simp [after]
  | succ calls ih =>
    rw [after, Function.iterate_succ_apply', ← after, ih]
    by_cases hlt : calls < blocks ip p q
    · rw [min_eq_left hlt.le, allocateSubnet_poolAt poolName hpq hq hlt, min_eq_left hlt]
    · obtain ⟨e, he⟩ := allocateSubnet_last poolName hpq hq
      rw [min_eq_right (by omega), min_eq_right (by omega), he]

end Calls

/-! ### Whether a pool hands out its prefix -/

/-- The first allocations of a pool give the blocks of its prefix in order, as many as there
are or as a 128-bit number counts; every later one fails and changes nothing. -/
structure HandsOut (poolName : String) (s : PoolState) (ip : IpAddr) (p q : Nat) : Prop where
  succeeds : ∀ k < min (2 ^ (q - p)) (2 ^ 128 - 1), (allocateSubnet poolName (after poolName s k)).1 =
    .ok (toString (addressAt ip p (k * 2 ^ (addrBits ip - q))) ++ "/" ++ toString q)
  fails : ∀ k, min (2 ^ (q - p)) (2 ^ 128 - 1) ≤ k →
    ∃ e, allocateSubnet poolName (after poolName s k) = (fail e, after poolName s k)
  inside : ∀ k r, (allocateSubnet poolName (after poolName s k)).1 = .ok r →
    ∃ net, parseCidr r = .ok (net, q) ∧ networkAddress net q = net ∧ ∀ a, Within a net q → Within a ip p
  disjoint : ∀ j k r r' net net', j < k → (allocateSubnet poolName (after poolName s j)).1 = .ok r →
    (allocateSubnet poolName (after poolName s k)).1 = .ok r' → parseCidr r = .ok (net, q) →
    parseCidr r' = .ok (net', q) → ∀ a b, Within a net q → Within b net' q → ipToBits a < ipToBits b

section Pools

variable {ip : IpAddr} {p q k : Nat} {poolName : String}

theorem blocks_le : blocks ip p q ≤ 2 ^ (q - p) := by
  unfold blocks
  split_ifs
  · exact Nat.le_refl _
  · exact Nat.sub_le _ _

/-- The `k`-th allocation of a declared pool. -/
theorem allocateSubnet_after (poolName : String) (hpq : p ≤ q) (hq : q ≤ addrBits ip) (k : Nat) :
    (k < blocks ip p q ∧ (allocateSubnet poolName (after poolName (poolAt ip p q 0) k)).1 =
      .ok (toString (addressAt ip p (k * 2 ^ (addrBits ip - q))) ++ "/" ++ toString q)) ∨
    (blocks ip p q ≤ k ∧ ∃ e, allocateSubnet poolName (after poolName (poolAt ip p q 0) k) =
      (fail e, after poolName (poolAt ip p q 0) k)) := by
  rw [after_poolAt hpq hq]
  by_cases hk : k < blocks ip p q
  · rw [min_eq_left hk.le, allocateSubnet_poolAt poolName hpq hq hk]
    exact .inl ⟨hk, rfl⟩
  · rw [min_eq_right (by omega)]
    exact .inr ⟨by omega, allocateSubnet_last poolName hpq hq⟩

theorem of_allocateSubnet_after (hpq : p ≤ q) (hq : q ≤ addrBits ip) {r : String}
    (h : (allocateSubnet poolName (after poolName (poolAt ip p q 0) k)).1 = .ok r) :
    k < blocks ip p q ∧ parseCidr r = .ok (addressAt ip p (k * 2 ^ (addrBits ip - q)), q) := by
  rcases allocateSubnet_after poolName hpq hq k with ⟨hk, hok⟩ | ⟨-, e, he⟩
  · obtain rfl := Except.ok.inj (hok.symm.trans h)
    exact ⟨hk, parseCidr_display (by rw [addrBits_addressAt]; exact hq)⟩
  · rw [he] at h
    cases h

/-- Whether all blocks are counted. -/
theorem blocks_eq_iff (hpq : p ≤ q) (hq : q ≤ addrBits ip) :
    blocks ip p q = min (2 ^ (q - p)) (2 ^ 128 - 1) ↔
      ipToBits (lastAddress ip p) + 1 < 2 ^ 128 ∨ q = 0 ∨ q - p = 128 := by
  have hbits := addrBits_le ip
  have hlast := ipToBits_lastAddress ip p
  unfold blocks
  by_cases hfew : q - p < 128
  · have hle : 2 ^ (q - p) ≤ 2 ^ 127 := Nat.pow_le_pow_right (by decide) (by omega)
    have hpos := Nat.two_pow_pos (q - p)
    generalize 2 ^ (q - p) = n at hle hpos ⊢
    split_ifs <;> omega
  · -- as many blocks as addresses: the last of them is no number
    obtain ⟨rfl, rfl⟩ : q = 128 ∧ p = 0 := by omega
    have hip : addrBits ip = 128 := by omega
    rw [hip, Nat.sub_zero] at hlast
    rw [if_neg (by omega)]
    simp

theorem handsOut_iff (hpq : p ≤ q) (hq : q ≤ addrBits ip) :
    HandsOut poolName (poolAt ip p q 0) ip p q ↔
      ipToBits (lastAddress ip p) + 1 < 2 ^ 128 ∨ q = 0 ∨ q - p = 128 := by
  rw [← blocks_eq_iff hpq hq]
  constructor
  · intro h
    apply Nat.le_antisymm
    · by_contra hlt
      rcases allocateSubnet_after poolName hpq hq (min (2 ^ (q - p)) (2 ^ 128 - 1)) with
        ⟨-, hok⟩ | ⟨hle, -⟩
      · obtain ⟨e, he⟩ := h.fails _ (Nat.le_refl _)
        rw [he] at hok
        cases hok
      · exact hlt hle
    · by_contra hlt
      rcases allocateSubnet_after poolName hpq hq (blocks ip p q) with ⟨hself, -⟩ | ⟨-, e, he⟩
      · exact Nat.lt_irrefl _ hself
      · have hok := h.succeeds (blocks ip p q) (not_le.mp hlt)
        rw [he] at hok
        cases hok
  · intro hcount
    refine ⟨fun k hk => ?_, fun k hk => ?_, fun k r hr => ?_, fun j k r r' net net' hjk hr hr' hnet hnet' a b ha hb => ?_⟩
    · rcases allocateSubnet_after poolName hpq hq k with ⟨-, hok⟩ | ⟨hle, -⟩
      · exact hok
      · omega
    · rcases allocateSubnet_after poolName hpq hq k with ⟨hlt, -⟩ | ⟨-, hfail⟩
      · omega
      · exact hfail
    · obtain ⟨hk, hparse⟩ := of_allocateSubnet_after hpq hq hr
      have hlt := hk.trans_le blocks_le
      exact ⟨_, hparse, networkAddress_block hq hpq hlt, fun a => within_of_within_block hq hpq hlt⟩
    · obtain ⟨hj, hparse⟩ := of_allocateSubnet_after hpq hq hr
      obtain ⟨hk, hparse'⟩ := of_allocateSubnet_after hpq hq hr'
      obtain ⟨rfl, -⟩ := Prod.mk.inj (Except.ok.inj (hparse.symm.trans hnet))
      obtain ⟨rfl, -⟩ := Prod.mk.inj (Except.ok.inj (hparse'.symm.trans hnet'))
      exact lt_of_within_block hq hpq hjk (hk.trans_le blocks_le) ha hb

end Pools

/-- A declared pool never overflows, and hands out its prefix exactly when it ends before
the address space of IPv6 does, or is that whole space in one block or in single addresses. -/
theorem pool_handsOut_iff {pools pools' : BTreeMap String PoolState} {d : PoolDef}
    (h : addPool pools d = .ok pools') :
    ∃ ip p s, parseCidr d.base = .ok (ip, p) ∧ pools'[d.name]? = some s ∧
      (∀ calls, Safe (allocateSubnet d.name (after d.name s calls)).1) ∧
      (HandsOut d.name s ip p d.prefixLen ↔
        ipToBits (lastAddress ip p) + 1 < 2 ^ 128 ∨ d.prefixLen = 0 ∨ d.prefixLen - p = 128) := by
  obtain ⟨ip, p, hparse, hpq, hq, rfl⟩ := addPool_eq_ok h
  refine ⟨ip, p, poolAt ip p d.prefixLen 0, hparse, Std.ExtTreeMap.getElem?_insert_self, fun calls => ?_,
    handsOut_iff hpq hq⟩
  rcases allocateSubnet_after d.name hpq hq calls with ⟨-, hok⟩ | ⟨-, e, he⟩
  · rw [hok]
    exact safe_ok _
  · rw [he]
    exact safe_fail e

theorem pool_handsOut_private :
    ∃ pools' ip p s, addPool ∅ ⟨"p", "10.0.0.0/30", 31⟩ = .ok pools' ∧ parseCidr "10.0.0.0/30" = .ok (ip, p) ∧
      pools'["p"]? = some s ∧ (∀ calls, Safe (allocateSubnet "p" (after "p" s calls)).1) ∧
      (HandsOut "p" s ip p 31 ↔ ipToBits (lastAddress ip p) + 1 < 2 ^ 128 ∨ 31 = 0 ∨ 31 - p = 128) := by
  obtain ⟨pools', hadd⟩ : ∃ pools', addPool ∅ ⟨"p", "10.0.0.0/30", 31⟩ = .ok pools' := ⟨_, rfl⟩
  obtain ⟨ip, p, s, hpool⟩ := pool_handsOut_iff hadd
  exact ⟨pools', ip, p, s, hadd, hpool⟩

/-- A pool of the last two addresses of IPv6. -/
def lastPair : PoolDef := ⟨"p", "ffff:ffff:ffff:ffff:ffff:ffff:ffff:fffe/127", 128⟩

/-- Its second allocation fails. -/
theorem pool_loses_last :
    ¬∀ (pools pools' : BTreeMap String PoolState) (d : PoolDef), addPool pools d = .ok pools' →
      ∀ ip p s, parseCidr d.base = .ok (ip, p) → pools'[d.name]? = some s →
        HandsOut d.name s ip p d.prefixLen := by
  intro h
  obtain ⟨pools', hadd⟩ : ∃ pools', addPool ∅ lastPair = .ok pools' := ⟨_, rfl⟩
  have hparse : parseCidr lastPair.base = .ok (.v6 (BitVec.ofNat 128 (2 ^ 128 - 2)), 127) := by decide +kernel
  obtain ⟨ip, p, hparse', -, -, rfl⟩ := addPool_eq_ok hadd
  obtain ⟨rfl, rfl⟩ := Prod.mk.inj (Except.ok.inj (hparse.symm.trans hparse'))
  have hout := h _ _ _ hadd _ _ _ hparse Std.ExtTreeMap.getElem?_insert_self
  have hsecond := hout.succeeds 1 (by decide +kernel)
  have hfails : ∀ r, (allocateSubnet "p" (after "p" (poolAt (.v6 (BitVec.ofNat 128 (2 ^ 128 - 2))) 127 128 0) 1)).1 ≠
      .ok r := by
    intro r hr
    have hnone : (allocateSubnet "p"
        (after "p" (poolAt (.v6 (BitVec.ofNat 128 (2 ^ 128 - 2))) 127 128 0) 1)).1.toOption = none := by
      decide +kernel
    rw [hr] at hnone
    cases hnone
  exact hfails _ hsecond

end NlinkLab.Lower
