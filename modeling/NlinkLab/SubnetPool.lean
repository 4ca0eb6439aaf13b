import NlinkLab.Validator.Interfaces

/-! The host-wide pool of subnets for `subnet auto/N` (`subnet_pool.rs`): what an
allocation hands out, and what the substitution of a topology's placeholders
leaves in the pool when it succeeds and when it fails on the way. -/

namespace NlinkLab.SubnetPool

open Validator (parseAutoPlaceholder)

/-- The pool file: the lab that owns each allocated subnet. -/
structure Pool where
  inUse : BTreeMap String String := ∅
  nextOffset : UInt32 := 0

/-- How the pool file answers one access: its lock or its reading fails, or its
writing does, which leaves the file as it was. -/
structure Access where
  read : Option Error := none
  write : Option Error := none

/-! ### Allocation -/

def slot (x y : Nat) : String := "10." ++ toString x ++ "." ++ toString y ++ ".0/24"

/-- The first block of `10.0.0.0/8` that nobody has. -/
def nextFree24 (pool : Pool) : Option String :=
  (List.range 256).findSome? fun x => (List.range 256).findSome? fun y =>
    if pool.inUse.contains (slot x y) then none else some (slot x y)

/-- Allocate a fresh subnet for a lab. -/
def allocate (access : Access) (labName : String) (prefixLen : Nat) (pool : Pool) :
    Except Error String × Pool :=
  if prefixLen ≠ 24 then
    (.error (.invalidTopology ("subnet auto/" ++ toString prefixLen ++
      " not yet supported (only /24 today)")), pool)
  else match access.read with
    | some e => (.error e, pool)
    | none =>
      match nextFree24 pool with
      | none => (.error (.deployFailed "subnet pool exhausted (no free 10.x.0.0/24 slot)"), pool)
      | some cidr =>
        match access.write with
        | some e => (.error e, pool)
        | none => (.ok cidr, { pool with inUse := pool.inUse.insert cidr labName })

/-- Free every subnet of a lab; returns the freed. -/
def freeForLab (access : Access) (labName : String) (pool : Pool) : Except Error (List String) × Pool :=
  match access.read with
  | some e => (.error e, pool)
  | none =>
    let toRemove := pool.inUse.toList.filterMap fun (cidr, owner) =>
      if owner = labName then some cidr else none
    if toRemove = [] then (.ok [], pool)
    else match access.write with
      | some e => (.error e, pool)
      | none => (.ok toRemove, { pool with inUse := toRemove.foldl (·.erase ·) pool.inUse })

/-! ### The addresses of an allocated network -/

/-- Whether the text `${` occurs. -/
def interpolates (s : String) : Bool := ['$', '\x7b'] <:+: s.toList

/-- Saturates at the end of the address space. -/
def incrementIp (base : IpAddr) (offset : Nat) : IpAddr := (ipOffset base offset).getD base

/-- The next host address nobody uses, among the next `fuel`, and the number after it. -/
def nextHost (base : IpAddr) (used : List IpAddr) : (fuel hostNum : Nat) → Option (IpAddr × Nat)
  | 0, _ => none
  | fuel + 1, hostNum =>
    if incrementIp base hostNum ∈ used then nextHost base used fuel (hostNum + 1)
    else some (incrementIp base hostNum, hostNum + 1)

/-- The hosts a subnet numbers: without network and broadcast address, and capped. -/
def maxHost (base : IpAddr) (prefixLen : Nat) : Nat :=
  let hostBits := addrBits base - prefixLen
  if 63 ≤ hostBits then 2 ^ 64 - 1 else 2 ^ hostBits - 2

/-- A network's `subnet` auto-assignment (`parser/nll/lower.rs`): the next free host
address, in member order, for each member without an explicit one. -/
def subnetAutoAssign (subnet : String) (members : List String)
    (explicit : BTreeMap String (List String)) : Except String (Option (BTreeMap String String)) :=
  if (stripPrefix "auto" subnet).isSome ∨ interpolates subnet then .ok none
  else match parseCidr subnet with
    | .error e => .error ("invalid subnet '" ++ subnet ++ "': " ++ e.display)
    | .ok (ip, prefixLen) =>
      let base := networkAddress ip prefixLen
      let hosts := maxHost base prefixLen
      let used := explicit.values.flatten.filterMap fun a => IpAddr.parse (before '/' a)
      let assign := fun (s : BTreeMap String String × Nat) (member : String) =>
        if explicit.contains member then Except.ok s
        else match nextHost base used (min hosts (2 ^ 32 - 1) + 1 - s.2) s.2 with
          | none => .error ("subnet " ++ subnet ++ " has only " ++ toString hosts ++
              " usable host address(es) but " ++ toString members.length ++ " members need one")
          | some (ip, next) =>
            .ok (s.1.insert member (toString ip ++ "/" ++ toString prefixLen), next)
      (members.foldlM assign (∅, 1)).map fun s => some s.1

/-- Give a network its concrete subnet, and its members their addresses. -/
def setSubnet (net : Network) (cidr : String) : Except Error Network :=
  let explicit := (net.ports.filter fun _ p => p.addresses ≠ []).map fun _ p => p.addresses
  match subnetAutoAssign cidr net.members explicit with
  | .error e => .error (.invalidTopology e)
  | .ok assigned =>
    let ports := (assigned.getD ∅).foldl (fun ports member addr =>
      let port := ports[member]?.getD {}
      ports.insert member { port with addresses := port.addresses ++ [addr] }) net.ports
    .ok { net with ports, subnet := some cidr }

/-! ### Substitution -/

/-- The prefix length of the placeholder that is a network's subnet, if it is one. -/
def autoPrefix (net : Network) : Option Nat := net.subnet.bind parseAutoPlaceholder

/-- Replace every `auto/N` of the networks by what `alloc` gives, in name order;
returns the allocated subnets. An error returns at once. -/
def substituteAutoSubnets {S : Type} (alloc : Nat → S → Except Error String × S) :
    List (String × Network) → S → Except Error (List (String × Network) × List String) × S
  | [], s => (.ok ([], []), s)
  | (name, net) :: rest, s =>
    match autoPrefix net with
    | none =>
      match substituteAutoSubnets alloc rest s with
      | (.error e, s) => (.error e, s)
      | (.ok (nets, allocated), s) => (.ok ((name, net) :: nets, allocated), s)
    | some prefixLen =>
      match alloc prefixLen s with
      | (.error e, s) => (.error e, s)
      | (.ok cidr, s) =>
        match setSubnet net cidr with
        | .error e => (.error e, s)
        | .ok net =>
          match substituteAutoSubnets alloc rest s with
          | (.error e, s) => (.error e, s)
          | (.ok (nets, allocated), s) => (.ok ((name, net) :: nets, cidr :: allocated), s)

/-! ### The slots of the pool -/

/-- Every block, in the order they are handed out. -/
def slots : List String := (List.range 256).flatMap fun x => (List.range 256).map (slot x)

/-- The blocks nobody has. -/
def freeSlots (pool : Pool) : List String := slots.filter fun cidr => !pool.inUse.contains cidr

theorem slot_inj {x y x' y' : Nat} (h : slot x y = slot x' y') : x = x' ∧ y = y' := by
  have hparts : ∀ x y, slot x y =
      "10." ++ (toString x ++ String.singleton '.' ++ (toString y ++ String.singleton '.' ++ "0/24")) := by
    intro x y
    simp [slot, String.append_assoc]
  rw [hparts, hparts, String.append_right_inj] at h
  obtain ⟨hx, h⟩ := append_inj_of_sep (notMem_toString (by decide) x) (notMem_toString (by decide) x') h
  obtain ⟨hy, -⟩ := append_inj_of_sep (notMem_toString (by decide) y) (notMem_toString (by decide) y') h
  exact ⟨Nat.repr_injective hx, Nat.repr_injective hy⟩

theorem nodup_slots : slots.Nodup := by
  refine List.nodup_flatMap.mpr ⟨fun x _ => ?_, ?_⟩
  · exact List.nodup_range.map fun y y' h => (slot_inj h).2
  · refine List.nodup_range.imp fun hne => ?_
    rintro _ h h'
    obtain ⟨y, -, rfl⟩ := List.mem_map.mp h
    obtain ⟨y', -, h⟩ := List.mem_map.mp h'
    exact hne (slot_inj h).1.symm

/-- The allocator hands out the first block nobody has. -/
theorem nextFree24_eq (pool : Pool) : nextFree24 pool = (freeSlots pool).head? := by
  have hfind : ∀ (x : Nat) (l : List Nat), (l.findSome? fun y =>
      if pool.inUse.contains (slot x y) then none else some (slot x y)) =
        (l.map (slot x)).find? fun cidr => !pool.inUse.contains cidr := by
    intro x l
    induction l with
    | nil => rfl
    | cons y l ih =>
      by_cases h : pool.inUse.contains (slot x y) <;>
        simp only [List.findSome?_cons, List.map_cons, List.find?_cons, h, ih, Bool.not_true,
          Bool.not_false, if_true, Bool.false_eq_true, if_false]
  simp only [nextFree24, freeSlots, slots, List.head?_filter, List.find?_flatMap, hfind]

/-- A handed out block is free no longer, and the others stay as they are. -/
theorem freeSlots_insert {pool : Pool} {cidr : String} {rest : List String} (labName : String)
    (h : freeSlots pool = cidr :: rest) :
    freeSlots { pool with inUse := pool.inUse.insert cidr labName } = rest := by
  have hnodup : (freeSlots pool).Nodup := nodup_slots.filter _
  have hfilter : freeSlots { pool with inUse := pool.inUse.insert cidr labName } =
      (freeSlots pool).filter (· ≠ cidr) := by
    unfold freeSlots
    rw [List.filter_filter]
    refine List.filter_congr fun c _ => ?_
    rw [Std.ExtTreeMap.contains_insert]
    by_cases hc : c = cidr
    · simp [hc]
    · have hne : (compare cidr c == Ordering.eq) = false := by
        simpa [Std.LawfulEqOrd.compare_eq_iff_eq] using Ne.symm hc
      simp [hc, hne]
  rw [h] at hnodup hfilter
  obtain ⟨hnotMem, -⟩ := List.nodup_cons.mp hnodup
  rw [hfilter, List.filter_cons_of_neg (by simp)]
  exact List.filter_eq_self.mpr fun c hc => by simpa using ne_of_mem_of_not_mem hc hnotMem

/-- The block the allocation at `access` hands out when `skip` blocks have been before it. -/
def granted (access : Access) (pool : Pool) (skip prefixLen : Nat) : Option String :=
  if prefixLen = 24 ∧ access.read = none ∧ access.write = none then (freeSlots pool)[skip]? else none

/-- An allocation hands out the first free block, or leaves the pool as it is. -/
theorem allocate_cases (access : Access) (labName : String) (prefixLen : Nat) (pool : Pool) :
    (∃ cidr, granted access pool 0 prefixLen = some cidr ∧
      allocate access labName prefixLen pool =
        (.ok cidr, { pool with inUse := pool.inUse.insert cidr labName })) ∨
    granted access pool 0 prefixLen = none ∧
      ∃ e, allocate access labName prefixLen pool = (.error e, pool) := by
  unfold granted allocate
  rw [nextFree24_eq]
  by_cases hp : prefixLen = 24
  · cases hr : access.read with
    | some e => exact .inr ⟨by simp, e, by simp [hp]⟩
    | none =>
      cases hw : access.write with
      | some e =>
        refine .inr ⟨by simp, ?_⟩
        cases (freeSlots pool).head? <;> simp [hp]
      | none =>
        cases hf : freeSlots pool with
        | nil => exact .inr ⟨by simp, _, by simp [hp]; rfl⟩
        | cons cidr rest => exact .inl ⟨cidr, by simp [hp], by simp [hp]⟩
  · exact .inr ⟨by simp [hp], _, by simp [hp]; rfl⟩

/-! ### Freeing -/

theorem getElem?_foldl_erase (keys : List String) (m : BTreeMap String String) (c : String) :
    (keys.foldl (·.erase ·) m)[c]? = if c ∈ keys then none else m[c]? := by
  induction keys generalizing m with
  | nil => simp
  | cons k keys ih =>
    rw [List.foldl_cons, ih, Std.ExtTreeMap.getElem?_erase]
    by_cases hc : c = k
    · simp [hc]
    · have hne : compare k c ≠ .eq := fun h => hc (Std.LawfulEqOrd.eq_of_compare h).symm
      simp [hc, hne]

/-- A free that can be written leaves nothing of the lab in the pool and the rest as it is. -/
theorem freeForLab_entry {access : Access} (hr : access.read = none) (hw : access.write = none)
    (labName : String) (pool : Pool) (c : String) :
    (freeForLab access labName pool).2.inUse[c]? =
      if pool.inUse[c]? = some labName then none else pool.inUse[c]? := by
  have hmem : c ∈ (pool.inUse.toList.filterMap fun (cidr, owner) =>
      if owner = labName then some cidr else none) ↔ pool.inUse[c]? = some labName := by
    simp only [List.mem_filterMap, Prod.exists, Std.ExtTreeMap.mem_toList_iff_getElem?_eq_some]
    constructor
    · rintro ⟨cidr, owner, h, heq⟩
      split_ifs at heq with ho
      cases heq
      rwa [← ho]
    · exact fun h => ⟨c, labName, h, if_pos rfl⟩
  unfold freeForLab
  rw [hr, hw]
  dsimp only
  split_ifs with hnil hc hc
  · rw [hnil] at hmem
    exact absurd (hmem.mpr hc) List.not_mem_nil
  · rfl
  · rw [getElem?_foldl_erase, if_pos (hmem.mpr hc)]
  · rw [getElem?_foldl_erase, if_neg fun h => hc (hmem.mp h)]

/-- A free that cannot be read or written leaves the pool as it is. -/
theorem freeForLab_of_fault {access : Access} (h : access.read ≠ none ∨ access.write ≠ none)
    (labName : String) (pool : Pool) : (freeForLab access labName pool).2 = pool := by
  unfold freeForLab
  cases hr : access.read with
  | some e => rfl
  | none =>
    obtain ⟨e, hw⟩ := Option.ne_none_iff_exists'.mp (h.resolve_left fun h => h hr)
    rw [hw]
    dsimp only
    split_ifs <;> rfl

/-! ### What a substitution leaves in the pool -/

/-- The `call`th allocation of a deploy. -/
def allocateNext (faults : Nat → Access) (labName : String) (prefixLen : Nat) (s : Pool × Nat) :
    Except Error String × (Pool × Nat) :=
  let (cidr, pool) := allocate (faults s.2) labName prefixLen s.1
  (cidr, (pool, s.2 + 1))

/-- The networks that get a subnet, each with its prefix length. -/
def autos (networks : List (String × Network)) : List (Nat × Network) :=
  networks.filterMap fun (_, net) => (autoPrefix net).map (·, net)

/-- `after` is `before` with the blocks `taken`, free before, given to a lab. -/
structure Takes (labName : String) (before after : Pool) (taken : List String) : Prop where
  entry : ∀ c, after.inUse[c]? = if c ∈ taken then some labName else before.inUse[c]?
  free : ∀ c ∈ taken, before.inUse[c]? = none

theorem Takes.refl (labName : String) (pool : Pool) : Takes labName pool pool [] :=
  ⟨fun c => by simp, by simp⟩

/-- A free block is in no entry. -/
theorem getElem?_of_freeSlots {pool : Pool} {cidr : String} (h : cidr ∈ freeSlots pool) :
    pool.inUse[cidr]? = none := by
  have hfree := (List.mem_filter.mp h).2
  rw [Std.ExtTreeMap.contains_eq_isSome_getElem?] at hfree
  cases hc : pool.inUse[cidr]? with
  | none => rfl
  | some owner => simp [hc] at hfree

theorem Takes.cons {labName cidr : String} {pool after : Pool} {taken rest : List String}
    (hfree : freeSlots pool = cidr :: rest)
    (h : Takes labName { pool with inUse := pool.inUse.insert cidr labName } after taken) :
    Takes labName pool after (cidr :: taken) := by
  have hentry : ∀ c, (pool.inUse.insert cidr labName)[c]? =
      if c = cidr then some labName else pool.inUse[c]? := by
    intro c
    rw [Std.ExtTreeMap.getElem?_insert]
    by_cases hc : c = cidr
    · simp [hc]
    · rw [if_neg hc, if_neg fun he => hc (Std.LawfulEqOrd.eq_of_compare he).symm]
  refine ⟨fun c => ?_, fun c hc => ?_⟩
  · rw [h.entry, hentry]
    by_cases hc : c = cidr <;> by_cases ht : c ∈ taken <;> simp [hc, ht]
  · rcases List.mem_cons.mp hc with rfl | hc
    · exact getElem?_of_freeSlots (hfree ▸ List.mem_cons_self)
    · have hnone := h.free c hc
      rw [hentry] at hnone
      split_ifs at hnone
      exact hnone

variable (faults : Nat → Access) (labName : String)

/-- Whether the `k`th of the networks gets a block, and its members fit into it. -/
def Served (pool : Pool) (call k : Nat) (auto : Nat × Network) : Prop :=
  ∃ cidr, granted (faults (call + k)) pool k auto.1 = some cidr ∧ (setSubnet auto.2 cidr).isOk

/-- After one allocation the blocks of the later ones are the same. -/
theorem granted_succ {pool : Pool} {cidr : String} {rest : List String}
    (hfree : freeSlots pool = cidr :: rest) (access : Access) (k prefixLen : Nat) :
    granted access { pool with inUse := pool.inUse.insert cidr labName } k prefixLen =
      granted access pool (k + 1) prefixLen := by
  unfold granted
  rw [freeSlots_insert labName hfree, hfree, List.getElem?_cons_succ]

/-- A granted first block is the first free one. -/
theorem freeSlots_of_granted {access : Access} {pool : Pool} {prefixLen : Nat} {cidr : String}
    (h : granted access pool 0 prefixLen = some cidr) : ∃ rest, freeSlots pool = cidr :: rest := by
  unfold granted at h
  split_ifs at h
  cases hf : freeSlots pool with
  | nil => simp [hf] at h
  | cons c rest =>
    rw [hf] at h
    cases h
    exact ⟨rest, rfl⟩

/-- The substitution succeeds just if each network that asks for a subnet is served in
turn; what it took on the way, also when it fails, is none just if there is no such
network or the first is granted no block. -/
theorem substituteAutoSubnets_spec (networks : List (String × Network)) (pool : Pool) (call : Nat) :
    ((substituteAutoSubnets (allocateNext faults labName) networks (pool, call)).1.isOk ↔
      ∀ k auto, (autos networks)[k]? = some auto → Served faults pool call k auto) ∧
    ∃ taken, Takes labName pool
        (substituteAutoSubnets (allocateNext faults labName) networks (pool, call)).2.1 taken ∧
      (taken = [] ↔ ∀ auto, (autos networks)[0]? = some auto →
        granted (faults call) pool 0 auto.1 = none) := by
  induction networks generalizing pool call with
  | nil =>
    refine ⟨by simp [substituteAutoSubnets, autos, Except.isOk, Except.toBool], [], Takes.refl .., ?_⟩
    simp [autos]
  | cons entry networks ih =>
    obtain ⟨name, net⟩ := entry
    cases hauto : autoPrefix net with
    | none =>
      have hautos : autos ((name, net) :: networks) = autos networks := by simp [autos, hauto]
      obtain ⟨hok, taken, htakes, htaken⟩ := ih pool call
      rw [hautos]
      unfold substituteAutoSubnets
      rw [hauto]
      dsimp only
      generalize substituteAutoSubnets (allocateNext faults labName) networks (pool, call) = r at *
      obtain ⟨_ | ⟨nets, allocated⟩, s⟩ := r
      · exact ⟨hok, taken, htakes, htaken⟩
      · exact ⟨hok, taken, htakes, htaken⟩
    | some prefixLen =>
      have hautos : autos ((name, net) :: networks) = (prefixLen, net) :: autos networks := by
        simp [autos, hauto]
      rw [hautos]
      unfold substituteAutoSubnets
      rw [hauto]
      dsimp only [allocateNext]
      rcases allocate_cases (faults call) labName prefixLen pool with
        ⟨cidr, hgranted, halloc⟩ | ⟨hnone, e, halloc⟩
      · obtain ⟨rest, hfree⟩ := freeSlots_of_granted hgranted
        rw [halloc]
        dsimp only
        cases hset : setSubnet net cidr with
        | error e =>
          refine ⟨⟨fun h => absurd h (by simp [Except.isOk, Except.toBool]), fun h => ?_⟩, [cidr],
            Takes.cons hfree (Takes.refl ..), by simp [hgranted]⟩
          obtain ⟨cidr', hg, hfit⟩ := h 0 _ rfl
          cases hgranted.symm.trans hg
          rw [hset] at hfit
          exact absurd hfit (by simp [Except.isOk, Except.toBool])
        | ok net' =>
          obtain ⟨hok, taken, htakes, -⟩ :=
            ih { pool with inUse := pool.inUse.insert cidr labName } (call + 1)
          have hserved : (∀ k auto, (autos networks)[k]? = some auto →
              Served faults { pool with inUse := pool.inUse.insert cidr labName } (call + 1) k auto) ↔
              ∀ k auto, ((prefixLen, net) :: autos networks)[k]? = some auto →
                Served faults pool call k auto := by
            unfold Served
            simp only [granted_succ labName hfree]
            constructor
            · rintro h (_ | k) auto hk
              · cases hk
                exact ⟨cidr, hgranted, by rw [hset]; rfl⟩
              · have := h k auto hk
                rwa [Nat.add_right_comm, Nat.add_assoc] at this
            · intro h k auto hk
              have := h (k + 1) auto hk
              rwa [← Nat.add_assoc, Nat.add_right_comm] at this
          dsimp only
          refine ⟨?_, cidr :: taken, Takes.cons hfree ?_, by simp [hgranted]⟩
          · rw [← hserved, ← hok]
            generalize substituteAutoSubnets (allocateNext faults labName) networks _ = r
            obtain ⟨_ | ⟨nets, allocated⟩, s⟩ := r <;> rfl
          · generalize substituteAutoSubnets (allocateNext faults labName) networks _ = r at *
            obtain ⟨_ | ⟨nets, allocated⟩, s⟩ := r <;> exact htakes
      · rw [halloc]
        refine ⟨⟨fun h => absurd h (by simp [Except.isOk, Except.toBool]), fun h => ?_⟩, [],
          Takes.refl .., by simp [hnone]⟩
        obtain ⟨cidr, hg, -⟩ := h 0 _ rfl
        rw [Nat.add_zero, hnone] at hg
        exact absurd hg (by simp)

omit faults labName in
/-- One subnet is allocated for each network that asks for one. -/
theorem length_allocated {S : Type} {alloc : Nat → S → Except Error String × S}
    {networks : List (String × Network)} {s s' : S} {nets : List (String × Network)}
    {allocated : List String}
    (h : substituteAutoSubnets alloc networks s = (.ok (nets, allocated), s')) :
    allocated.length = (autos networks).length := by
  induction networks generalizing s nets allocated s' with
  | nil =>
    cases h
    rfl
  | cons entry networks ih =>
    obtain ⟨name, net⟩ := entry
    unfold substituteAutoSubnets at h
    cases hauto : autoPrefix net with
    | none =>
      rw [hauto] at h
      dsimp only at h
      split at h
      · cases h
      · rename_i hrest
        cases h
        simpa [autos, hauto] using ih hrest
    | some prefixLen =>
      rw [hauto] at h
      dsimp only at h
      split at h
      · cases h
      · split at h
        · cases h
        · split at h
          · cases h
          · rename_i hrest
            cases h
            simpa [autos, hauto] using ih hrest

end NlinkLab.SubnetPool
