import NlinkLab.SubnetPool
import NlinkLab.Data.Inserts
import NlinkLab.Net.Blocks
import NlinkLab.Net.Display

/-! The addresses that a network's members are given from its subnet: the free host
addresses in order, one for each member without an address of its own, and none where they
do not suffice. -/

namespace NlinkLab.SubnetPool

variable {ip : IpAddr} {p : Nat}

/-! ### Host numbers -/

/-- The greatest host number that is tried. -/
def hostLimit (ip : IpAddr) (p : Nat) : Nat := min (2 ^ (addrBits ip - p) - 2) (2 ^ 32 - 1)

theorem min_maxHost (ip : IpAddr) (p : Nat) :
    min (maxHost (networkAddress ip p) p) (2 ^ 32 - 1) = hostLimit ip p := by
  unfold maxHost hostLimit
  dsimp only
  rw [addrBits_networkAddress]
  split_ifs with hbits
  · have hle : 2 ^ 63 ≤ 2 ^ (addrBits ip - p) := Nat.pow_le_pow_right (by decide) hbits
    omega
  · rfl

theorem incrementIp_eq {n : Nat} (h : n < 2 ^ (addrBits ip - p)) :
    incrementIp (networkAddress ip p) n = addressAt ip p n := by
  have hend := networkAddress_add_lt ip p
  have hlt : ipToBits (networkAddress ip p) + n < 2 ^ addrBits ip := by omega
  cases ip with
  | v4 bits =>
    have hoffset : ipOffset (networkAddress (.v4 bits) p) n = some (addressAt (.v4 bits) p n) := if_pos hlt
    rw [incrementIp, hoffset, Option.getD_some]
  | v6 bits =>
    have hoffset : ipOffset (networkAddress (.v6 bits) p) n = some (addressAt (.v6 bits) p n) := if_pos hlt
    rw [incrementIp, hoffset, Option.getD_some]

/-- A host number is that of an address inside the subnet, not of its first or last. -/
theorem addressAt_host {n : Nat} (hpos : 1 ≤ n) (hn : n ≤ hostLimit ip p) :
    n < 2 ^ (addrBits ip - p) ∧ Within (addressAt ip p n) ip p ∧ addressAt ip p n ≠ networkAddress ip p ∧
      addressAt ip p n ≠ lastAddress ip p := by
  have hle : n ≤ 2 ^ (addrBits ip - p) - 2 := hn.trans (Nat.min_le_left _ _)
  have hlt : n < 2 ^ (addrBits ip - p) := by omega
  have hvalue := ipToBits_addressAt hlt
  refine ⟨hlt, within_addressAt hlt, fun heq => ?_, fun heq => ?_⟩
  · rw [heq] at hvalue
    omega
  · rw [heq, ipToBits_lastAddress] at hvalue
    omega

/-! ### The next free number -/

variable {base : IpAddr} {used : List IpAddr}

theorem nextHost_eq_some {fuel n next : Nat} {a : IpAddr} (h : nextHost base used fuel n = some (a, next)) :
    ∃ m, n ≤ m ∧ m < n + fuel ∧ next = m + 1 ∧ a = incrementIp base m ∧ a ∉ used ∧
      ∀ j, n ≤ j → j < m → incrementIp base j ∈ used := by
  induction fuel generalizing n with
  | zero => cases h
  | succ fuel ih =>
    rw [nextHost] at h
    split_ifs at h with hused
    · obtain ⟨m, hle, hlt, hnext, ha, hfree, hskip⟩ := ih h
      refine ⟨m, by omega, by omega, hnext, ha, hfree, fun j hj hjm => ?_⟩
      rcases Nat.eq_or_lt_of_le hj with rfl | hj
      · exact hused
      · exact hskip j hj hjm
    · cases h
      exact ⟨n, le_rfl, by omega, rfl, rfl, hused, fun j hj hjn => by omega⟩

theorem nextHost_eq_none {fuel n : Nat} (h : nextHost base used fuel n = none) :
    ∀ j, n ≤ j → j < n + fuel → incrementIp base j ∈ used := by
  induction fuel generalizing n with
  | zero => exact fun j hj hjn => by omega
  | succ fuel ih =>
    rw [nextHost] at h
    split_ifs at h with hused
    intro j hj hjn
    rcases Nat.eq_or_lt_of_le hj with rfl | hj
    · exact hused
    · exact ih h j hj (by omega)

/-- How many of the numbers from `n` to `limit` are free. -/
def freeFrom (base : IpAddr) (used : List IpAddr) (limit n : Nat) : Nat :=
  (List.range' n (limit + 1 - n)).countP fun j => incrementIp base j ∉ used

theorem freeFrom_of_used {limit n m : Nat} (hnm : n ≤ m) (hm : m ≤ limit + 1)
    (hused : ∀ j, n ≤ j → j < m → incrementIp base j ∈ used) :
    freeFrom base used limit n = freeFrom base used limit m := by
  have hsplit := @List.range'_append n (m - n) (limit + 1 - m) 1
  rw [one_mul, Nat.add_sub_cancel' hnm, show m - n + (limit + 1 - m) = limit + 1 - n by omega] at hsplit
  have hnone : (List.range' n (m - n)).countP (fun j => incrementIp base j ∉ used) = 0 := by
    rw [List.countP_eq_zero]
    intro j hj
    rw [List.mem_range'_1] at hj
    simpa using hused j hj.1 (by omega)
  rw [freeFrom, ← hsplit, List.countP_append, hnone, Nat.zero_add, freeFrom]

theorem freeFrom_of_free {limit n : Nat} (hn : n ≤ limit) (hfree : incrementIp base n ∉ used) :
    freeFrom base used limit n = freeFrom base used limit (n + 1) + 1 := by
  rw [freeFrom, show limit + 1 - n = (limit - n) + 1 by omega, List.range'_succ,
    List.countP_cons_of_pos (by simpa using hfree), freeFrom]
  congr 3
  omega

/-! ### The members -/

/-- The members without an address of their own. -/
def needing (members : List String) (explicit : BTreeMap String (List String)) : List String :=
  members.filter fun member => !explicit.contains member

/-- The addresses that are taken. -/
def taken (explicit : BTreeMap String (List String)) : List IpAddr :=
  explicit.values.flatten.filterMap fun a => IpAddr.parse (before '/' a)

/-- One member's turn. -/
def assign (subnet : String) (members : List String) (explicit : BTreeMap String (List String)) (ip : IpAddr)
    (p : Nat) (s : BTreeMap String String × Nat) (member : String) : Except String (BTreeMap String String × Nat) :=
  if explicit.contains member then .ok s
  else match nextHost (networkAddress ip p) (taken explicit) (hostLimit ip p + 1 - s.2) s.2 with
    | none => .error ("subnet " ++ subnet ++ " has only " ++ toString (maxHost (networkAddress ip p) p) ++
        " usable host address(es) but " ++ toString members.length ++ " members need one")
    | some (a, next) => .ok (s.1.insert member (toString a ++ "/" ++ toString p), next)

/-- A subnet that is read as one is not left for deploy. -/
theorem not_placeholder {subnet : String} (h : parseCidr subnet = .ok (ip, p)) :
    ¬((stripPrefix "auto" subnet).isSome ∨ interpolates subnet = true) := by
  have hchars := mem_of_parseCidr h
  rintro (hauto | hopen)
  · have hlead : "auto".toList <+: subnet.toList := by
      by_contra hnot
      rw [stripPrefix, if_neg hnot] at hauto
      cases hauto
    exact absurd (hchars 'u' (hlead.subset (by decide))) (by decide)
  · have hopens : ['$', '\x7b'] <:+: subnet.toList := of_decide_eq_true hopen
    exact absurd (hchars '$' (hopens.subset List.mem_cons_self)) (by decide)

theorem subnetAutoAssign_eq {subnet : String} (members : List String) (explicit : BTreeMap String (List String))
    (hsubnet : parseCidr subnet = .ok (ip, p)) :
    subnetAutoAssign subnet members explicit =
      (members.foldlM (assign subnet members explicit ip p) (∅, 1)).map fun s => some s.1 := by
  rw [subnetAutoAssign, if_neg (not_placeholder hsubnet), hsubnet]
  dsimp only
  rw [min_maxHost]
  rfl

section Turns

variable {subnet : String} {all members : List String} {explicit : BTreeMap String (List String)}

theorem needing_cons_of_contains {member : String} (h : explicit.contains member) :
    needing (member :: members) explicit = needing members explicit := by simp [needing, h]

theorem needing_cons {member : String} (h : ¬explicit.contains member) :
    needing (member :: members) explicit = member :: needing members explicit := by simp [needing, h]

/-- A member's address as it is written. -/
def hostText (ip : IpAddr) (p n : Nat) : String :=
  toString (incrementIp (networkAddress ip p) n) ++ "/" ++ toString p

/-- The numbers given from `n` on: one for each member in need, in order, all free. -/
structure Given (ip : IpAddr) (p : Nat) (members : List String) (explicit : BTreeMap String (List String)) (n : Nat)
    (given : List (String × Nat)) : Prop where
  members : given.map Prod.fst = needing members explicit
  increasing : given.Pairwise (·.2 < ·.2)
  free : ∀ e ∈ given, n ≤ e.2 ∧ e.2 ≤ hostLimit ip p ∧ incrementIp (networkAddress ip p) e.2 ∉ taken explicit

theorem foldlM_assign {s s' : BTreeMap String String × Nat} (hn : s.2 ≤ hostLimit ip p + 1)
    (h : members.foldlM (assign subnet all explicit ip p) s = .ok s') :
    ∃ given, Given ip p members explicit s.2 given ∧
      s'.1 = (given.map fun e => (e.1, hostText ip p e.2)).foldl (fun m e => m.insert e.1 e.2) s.1 := by
  induction members generalizing s with
  | nil =>
    cases h
    exact ⟨[], ⟨rfl, List.Pairwise.nil, nofun⟩, rfl⟩
  | cons member members ih =>
    rw [List.foldlM_cons] at h
    obtain ⟨s₁, hone, hrest⟩ := Fallible.bind_eq_ok.mp h
    unfold assign at hone
    split_ifs at hone with hexplicit
    · cases hone
      obtain ⟨given, ⟨hmembers, hincreasing, hfree⟩, hs⟩ := ih hn hrest
      exact ⟨given, ⟨by rw [hmembers, needing_cons_of_contains hexplicit], hincreasing, hfree⟩, hs⟩
    · split at hone
      · cases hone
      · rename_i a next hnext
        cases hone
        obtain ⟨m, hle, hlt, rfl, rfl, hunused, -⟩ := nextHost_eq_some hnext
        have hm : m ≤ hostLimit ip p := by omega
        obtain ⟨given, ⟨hmembers, hincreasing, hfree⟩, hs⟩ := ih (by dsimp only; omega) hrest
        refine ⟨(member, m) :: given, ⟨?_, ?_, ?_⟩, hs⟩
        · rw [List.map_cons, hmembers, needing_cons hexplicit]
        · exact List.pairwise_cons.mpr ⟨fun e he => (hfree e he).1, hincreasing⟩
        · intro e he
          rcases List.mem_cons.mp he with rfl | he
          · exact ⟨hle, hm, hunused⟩
          · obtain ⟨hgt, hrest⟩ := hfree e he
            exact ⟨by dsimp only at hgt; omega, hrest⟩

/-- The members run out of hosts only where fewer are free than they need. -/
theorem foldlM_assign_error {s : BTreeMap String String × Nat} {e : String} (hn : s.2 ≤ hostLimit ip p + 1)
    (h : members.foldlM (assign subnet all explicit ip p) s = .error e) :
    freeFrom (networkAddress ip p) (taken explicit) (hostLimit ip p) s.2 < (needing members explicit).length := by
  induction members generalizing s with
  | nil => cases h
  | cons member members ih =>
    rw [List.foldlM_cons] at h
    by_cases hexplicit : explicit.contains member
    · rw [assign, if_pos hexplicit] at h
      rw [needing_cons_of_contains hexplicit]
      exact ih hn h
    · rw [needing_cons hexplicit, List.length_cons]
      rw [assign, if_neg hexplicit] at h
      split at h
      · rename_i hnone
        have hused := nextHost_eq_none hnone
        have hzero : freeFrom (networkAddress ip p) (taken explicit) (hostLimit ip p) (hostLimit ip p + 1) = 0 := by
          simp [freeFrom]
        rw [freeFrom_of_used hn (Nat.le_refl _) fun j hj hjl => hused j hj (by omega), hzero]
        exact Nat.succ_pos _
      · rename_i a next hnext
        obtain ⟨m, hle, hlt, rfl, rfl, hunused, hskip⟩ := nextHost_eq_some hnext
        have hrest := ih (by dsimp only; omega) h
        rw [freeFrom_of_used hle (by omega) hskip, freeFrom_of_free (by omega) hunused]
        exact Nat.succ_lt_succ hrest

/-! ### The assignment -/

/-- What an assignment of a subnet's addresses to members is. -/
structure Assigned (ip : IpAddr) (p : Nat) (members : List String) (explicit : BTreeMap String (List String))
    (assigned : BTreeMap String String) : Prop where
  exactly : ∀ m : String, (assigned[m]?).isSome ↔ m ∈ members ∧ explicit[m]? = none
  inside : ∀ m text : String, assigned[m]? = some text → ∃ a, parseCidr text = .ok (a, p) ∧ Within a ip p ∧
    a ≠ networkAddress ip p ∧ a ≠ lastAddress ip p
  /-- No explicit address is given again, however it is written. -/
  fresh : ∀ (m text : String) (a : IpAddr), assigned[m]? = some text → parseCidr text = .ok (a, p) →
    ∀ (k : String) (addrs : List String), explicit[k]? = some addrs → ∀ addr ∈ addrs, IpAddr.parse (before '/' addr) ≠ some a
  increasing : ∀ (i j : Nat) (m m' text text' : String) (a b : IpAddr), i < j → members[i]? = some m → members[j]? = some m' →
    assigned[m]? = some text → assigned[m']? = some text' → parseCidr text = .ok (a, p) →
    parseCidr text' = .ok (b, p) → ipToBits a < ipToBits b

/-- An entry of the assignment is a number given. -/
theorem mem_given {given : List (String × Nat)} {m text : String}
    (h : ((given.map fun e => (e.1, hostText ip p e.2)).foldl (fun m e => m.insert e.1 e.2)
      (∅ : BTreeMap String String))[m]? = some text) : ∃ k, (m, k) ∈ given ∧ text = hostText ip p k := by
  rcases BTreeMap.mem_of_foldl_insert h with hmem | ⟨hempty, -⟩
  · obtain ⟨e, he, heq⟩ := List.mem_map.mp hmem
    cases heq
    exact ⟨e.2, he, rfl⟩
  · simp at hempty

/-- Members given their numbers in order are members in order. -/
theorem Given.lt {given : List (String × Nat)} {n : Nat} (h : Given ip p members explicit n given)
    (hmembers : members.Nodup) {i j k l : Nat} {m m' : String} (hij : i < j) (hi : members[i]? = some m)
    (hj : members[j]? = some m') (hk : (m, k) ∈ given) (hl : (m', l) ∈ given) : k < l := by
  obtain ⟨x, hx⟩ := List.mem_iff_getElem?.mp hk
  obtain ⟨y, hy⟩ := List.mem_iff_getElem?.mp hl
  have hsub : (given.map Prod.fst).Sublist members := by
    rw [h.members]
    exact List.filter_sublist
  obtain ⟨f, hf⟩ := List.sublist_iff_exists_orderEmbedding_getElem?_eq.mp hsub
  have hat : ∀ {z w : Nat} {e : String × Nat} {v : String}, given[z]? = some e → e.1 = v → members[w]? = some v →
      f z = w := by
    intro z w e v hz hv hw
    have hfz := hf z
    rw [List.getElem?_map, hz, Option.map_some, hv] at hfz
    exact (List.getElem?_inj (List.getElem?_eq_some_iff.mp hfz.symm).1 hmembers).mp (hfz.symm.trans hw.symm)
  have hfx := hat hx rfl hi
  have hfy := hat hy rfl hj
  have hxy : x < y := f.lt_iff_lt.mp (by omega)
  obtain ⟨hx', hgx⟩ := List.getElem?_eq_some_iff.mp hx
  obtain ⟨hy', hgy⟩ := List.getElem?_eq_some_iff.mp hy
  have hlt := List.pairwise_iff_getElem.mp h.increasing x y hx' hy' hxy
  rwa [hgx, hgy] at hlt

theorem Given.parse {given : List (String × Nat)} (h : Given ip p members explicit 1 given) (hp : p ≤ addrBits ip)
    {e : String × Nat} (he : e ∈ given) :
    e.2 < 2 ^ (addrBits ip - p) ∧ parseCidr (hostText ip p e.2) = .ok (addressAt ip p e.2, p) := by
  obtain ⟨hpos, hle, -⟩ := h.free e he
  have hlt := (addressAt_host hpos hle).1
  refine ⟨hlt, ?_⟩
  rw [hostText, incrementIp_eq hlt]
  exact parseCidr_display (by rw [addrBits_addressAt]; exact hp)

theorem mem_taken {m addr : String} {addrs : List String} {a : IpAddr} (hm : explicit[m]? = some addrs)
    (haddr : addr ∈ addrs) (ha : IpAddr.parse (before '/' addr) = some a) : a ∈ taken explicit := by
  have haddrs : addrs ∈ explicit.values := BTreeMap.mem_values_iff.mpr ⟨m, hm⟩
  exact List.mem_filterMap.mpr ⟨addr, List.mem_flatten.mpr ⟨addrs, haddrs, haddr⟩, ha⟩

theorem Given.assigned {given : List (String × Nat)} (h : Given ip p members explicit 1 given) (hp : p ≤ addrBits ip)
    (hmembers : members.Nodup) :
    Assigned ip p members explicit ((given.map fun e => (e.1, hostText ip p e.2)).foldl
      (fun m e => m.insert e.1 e.2) ∅) := by
  have hneeding : ∀ m, m ∈ needing members explicit ↔ m ∈ members ∧ explicit[m]? = none := by
    intro m
    rw [needing, List.mem_filter, Std.ExtTreeMap.contains_eq_isSome_getElem?, Bool.not_eq_true',
      Option.isSome_eq_false_iff, Option.isNone_iff_eq_none]
  refine ⟨fun m => ?_, fun m text hm => ?_, fun m text a hm hparse k addrs hk addr haddr ha => ?_,
    fun i j m m' text text' a b hij hi hj hm hm' hparse hparse' => ?_⟩
  · rw [← hneeding, ← h.members]
    constructor
    · intro hsome
      obtain ⟨text, hm⟩ := Option.isSome_iff_exists.mp hsome
      obtain ⟨k, hk, -⟩ := mem_given hm
      exact List.mem_map_of_mem hk
    · intro hmem
      obtain ⟨e, he, rfl⟩ := List.mem_map.mp hmem
      exact BTreeMap.isSome_foldl_insert (.inl ⟨_, List.mem_map_of_mem he⟩)
  · obtain ⟨k, hk, rfl⟩ := mem_given hm
    obtain ⟨hpos, hle, -⟩ := h.free _ hk
    obtain ⟨-, hwithin, hfirst, hlast⟩ := addressAt_host hpos hle
    exact ⟨_, (h.parse hp hk).2, hwithin, hfirst, hlast⟩
  · obtain ⟨n, hn, rfl⟩ := mem_given hm
    obtain ⟨hlt, hread⟩ := h.parse hp hn
    obtain ⟨rfl, -⟩ := Prod.mk.inj (Except.ok.inj (hread.symm.trans hparse))
    refine (h.free _ hn).2.2 ?_
    rw [incrementIp_eq hlt]
    exact mem_taken hk haddr ha
  · obtain ⟨k, hk, rfl⟩ := mem_given hm
    obtain ⟨l, hl, rfl⟩ := mem_given hm'
    obtain ⟨hklt, hread⟩ := h.parse hp hk
    obtain ⟨hllt, hread'⟩ := h.parse hp hl
    obtain ⟨rfl, -⟩ := Prod.mk.inj (Except.ok.inj (hread.symm.trans hparse))
    obtain ⟨rfl, -⟩ := Prod.mk.inj (Except.ok.inj (hread'.symm.trans hparse'))
    rw [ipToBits_addressAt hklt, ipToBits_addressAt hllt]
    exact Nat.add_lt_add_left (h.lt hmembers hij hi hj hk hl) _

/-- The hosts of a subnet that no explicit address holds, up to host number `2 ^ 32 - 1`. -/
def freeHosts (ip : IpAddr) (p : Nat) (explicit : BTreeMap String (List String)) : List IpAddr :=
  ((List.range' 1 (hostLimit ip p)).map (addressAt ip p)).filter (· ∉ taken explicit)

/-- These are the addresses of the subnet but its first and last. -/
theorem mem_freeHosts {a : IpAddr} : a ∈ freeHosts ip p explicit ↔
    Within a ip p ∧ a ≠ networkAddress ip p ∧ a ≠ lastAddress ip p ∧
      ipToBits a < ipToBits (networkAddress ip p) + 2 ^ 32 ∧ a ∉ taken explicit := by
  simp only [freeHosts, List.mem_filter, List.mem_map, List.mem_range'_1, decide_eq_true_eq, ← and_assoc]
  refine and_congr_left fun _ => ⟨?_, ?_⟩
  · rintro ⟨n, ⟨hpos, hlt⟩, rfl⟩
    have hlimit : n ≤ hostLimit ip p := by omega
    obtain ⟨hn, hwithin, hfirst, hlast⟩ := addressAt_host hpos hlimit
    have hle : hostLimit ip p ≤ 2 ^ 32 - 1 := Nat.min_le_right _ _
    rw [ipToBits_addressAt hn]
    exact ⟨⟨⟨hwithin, hfirst⟩, hlast⟩, by omega⟩
  · rintro ⟨⟨⟨hwithin, hfirst⟩, hlast⟩, hlt⟩
    obtain ⟨hbits, hlo, hhi⟩ := within_iff.mp hwithin
    have hne : ipToBits a ≠ ipToBits (networkAddress ip p) := fun h =>
      hfirst (ip_ext (by rw [hbits, addrBits_networkAddress]) h)
    have hne' : ipToBits a ≠ ipToBits (lastAddress ip p) := fun h =>
      hlast (ip_ext (by rw [hbits, lastAddress, addrBits_ipFromBits]) h)
    rw [ipToBits_lastAddress] at hne'
    refine ⟨ipToBits a - ipToBits (networkAddress ip p), ⟨by omega, ?_⟩, ip_ext (by rw [addrBits_addressAt, hbits]) ?_⟩
    · unfold hostLimit
      omega
    · rw [ipToBits_addressAt (by omega)]
      omega

theorem nodup_freeHosts : (freeHosts ip p explicit).Nodup := by
  refine List.Nodup.filter _ (List.Nodup.map_on (fun m hm n hn h => ?_) List.nodup_range')
  rw [List.mem_range'_1] at hm hn
  have hm' : m ≤ hostLimit ip p := by omega
  have hn' : n ≤ hostLimit ip p := by omega
  have hvalue := congrArg ipToBits h
  rw [ipToBits_addressAt (addressAt_host hm.1 hm').1, ipToBits_addressAt (addressAt_host hn.1 hn').1] at hvalue
  omega

theorem freeFrom_one : freeFrom (networkAddress ip p) (taken explicit) (hostLimit ip p) 1 =
    (freeHosts ip p explicit).length := by
  rw [freeFrom, freeHosts, ← List.countP_eq_length_filter, List.countP_map, Nat.add_sub_cancel]
  refine List.countP_congr fun n hn => ?_
  rw [List.mem_range'_1] at hn
  have hlimit : n ≤ hostLimit ip p := by omega
  rw [incrementIp_eq (addressAt_host hn.1 hlimit).1]
  rfl

/-- Members are given addresses free of collisions unless the free hosts are too few, and
only then not. -/
theorem subnetAutoAssign_exact {subnet : String} {members : List String} {explicit : BTreeMap String (List String)}
    {ip : IpAddr} {p : Nat} (hsubnet : parseCidr subnet = .ok (ip, p)) (hmembers : members.Nodup) :
    (∀ assigned, subnetAutoAssign subnet members explicit = .ok (some assigned) →
      Assigned ip p members explicit assigned) ∧
    (∀ e, subnetAutoAssign subnet members explicit = .error e →
      (freeHosts ip p explicit).length < (needing members explicit).length) ∧
    subnetAutoAssign subnet members explicit ≠ .ok none ∧
    ((needing members explicit).length ≤ (freeHosts ip p explicit).length →
      ∃ assigned, subnetAutoAssign subnet members explicit = .ok (some assigned)) := by
  have hone : 1 ≤ hostLimit ip p + 1 := Nat.le_add_left 1 _
  rw [subnetAutoAssign_eq members explicit hsubnet]
  cases hs : members.foldlM (assign subnet members explicit ip p) (∅, 1) with
  | ok s =>
    refine ⟨fun assigned h => ?_, nofun, nofun, fun _ => ⟨s.1, rfl⟩⟩
    obtain ⟨given, hgiven, heq⟩ := foldlM_assign hone hs
    obtain rfl := Option.some.inj (Except.ok.inj h)
    rw [heq]
    exact hgiven.assigned (parseCidr_le hsubnet) hmembers
  | error e =>
    have hfew : (freeHosts ip p explicit).length < (needing members explicit).length := by
      rw [← freeFrom_one]
      exact foldlM_assign_error hone hs
    exact ⟨nofun, fun _ _ => hfew, nofun, fun hmany => absurd hfew (not_lt.mpr hmany)⟩

end Turns

/-- The first host is taken by an explicit address in another spelling of its prefix. -/
theorem subnetAutoAssign_exact_small :
    ∃ assigned, subnetAutoAssign "10.0.0.0/29" ["a:eth0", "b:eth0", "c:eth0"] {("b:eth0", ["10.0.0.1"])} = .ok (some assigned) ∧
      Assigned (.v4 0x0a000000) 29 ["a:eth0", "b:eth0", "c:eth0"] {("b:eth0", ["10.0.0.1"])} assigned := by
  have hexact := @subnetAutoAssign_exact "10.0.0.0/29" ["a:eth0", "b:eth0", "c:eth0"] {("b:eth0", ["10.0.0.1"])}
    (.v4 0x0a000000) 29 (by decide +kernel) (by decide)
  obtain ⟨assigned, hassigned⟩ := hexact.2.2.2 (by decide +kernel)
  exact ⟨assigned, hassigned, hexact.1 assigned hassigned⟩

end NlinkLab.SubnetPool
