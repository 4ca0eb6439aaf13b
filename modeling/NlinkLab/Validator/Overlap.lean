import NlinkLab.Deploy.Plan
import NlinkLab.Net.Blocks
import NlinkLab.Validator

/-! What the rule on overlapping subnets finds. Of the declarations with one subnet and
one owner only the first is looked at. That is as good as looking at all where these end
at the same nodes, as those of a link or a network do; node-level interfaces are one
owner, and the nodes of the later ones are not seen. -/

namespace NlinkLab.Validator

/-! ### Conflicts -/

namespace Declared

/-- The subnet of a declaration, if it is one. -/
def subnet (d : Declared) : Option (IpAddr × Nat) :=
  (parseCidr d.addr).toOption.map fun (ip, len) => (networkAddress ip len, len)

/-- Two declarations of different segments share an address, and are not one subnet that
a node-level interface repeats. -/
structure Clash (a b : Declared) (sa sb : IpAddr × Nat) : Prop where
  left : a.subnet = some sa
  right : b.subnet = some sb
  segments : a.owner = b.owner → a.owner = .interface
  intersect : ∃ ip, Within ip sa.1 sa.2 ∧ Within ip sb.1 sb.2
  distinct : sa = sb → a.owner ≠ .interface ∧ b.owner ≠ .interface

/-- Two segments meet at no node, or at some node in one routing table. -/
def Meet (a b : Declared) : Prop :=
  (∀ n table table', (n, table) ∈ a.ends → (n, table') ∉ b.ends) ∨ ∃ e ∈ a.ends, e ∈ b.ends

def Conflict (a b : Declared) : Prop := (∃ sa sb, Clash a b sa sb) ∧ Meet a b

/-- A declaration before which none has its subnet and its owner. -/
def IsFirst (ds : List Declared) (d : Declared) : Prop :=
  ∃ before after, ds = before ++ d :: after ∧ ∀ e ∈ before, e.subnet = d.subnet → e.owner ≠ d.owner

theorem Clash.symm {a b : Declared} {sa sb : IpAddr × Nat} (h : Clash a b sa sb) : Clash b a sb sa where
  left := h.right
  right := h.left
  segments heq := heq.trans (h.segments heq.symm)
  intersect := by
    obtain ⟨ip, ha, hb⟩ := h.intersect
    exact ⟨ip, hb, ha⟩
  distinct heq := (h.distinct heq.symm).symm

theorem Meet.symm {a b : Declared} (h : Meet a b) : Meet b a := by
  rcases h with h | ⟨e, ha, hb⟩
  · exact .inl fun n table table' hb ha => h n table' table ha hb
  · exact .inr ⟨e, hb, ha⟩

end Declared

/-! ### Ranges -/

theorem floorTo_floorTo {k l : Nat} (h : k ≤ l) (n : Nat) : floorTo l (floorTo k n) = floorTo l n := by
  obtain ⟨d, rfl⟩ := Nat.exists_eq_add_of_le h
  unfold floorTo
  rw [pow_add, ← Nat.div_div_eq_div_mul, Nat.mul_div_cancel _ (Nat.two_pow_pos k), Nat.div_div_eq_div_mul]

/-- A shorter prefix of a network address is that of its addresses. -/
theorem networkAddress_shorter (ip : IpAddr) {m p : Nat} (h : m ≤ p) :
    networkAddress (networkAddress ip p) m = networkAddress ip m := by
  refine ip_ext (by simp) ?_
  rw [ipToBits_networkAddress, ipToBits_networkAddress, ipToBits_networkAddress, addrBits_networkAddress]
  exact floorTo_floorTo (by omega) _

/-- Two ranges have a common address exactly when they agree on the shorter prefix. -/
theorem intersect_iff (a b : IpAddr) (pa pb : Nat) :
    networkAddress b (min pa pb) = networkAddress a (min pa pb) ↔ ∃ ip, Within ip a pa ∧ Within ip b pb := by
  constructor
  · intro h
    have hbits : addrBits b = addrBits a := by simpa using congrArg addrBits h
    rcases le_total pa pb with hle | hle
    · rw [min_eq_left hle] at h
      exact ⟨b, ⟨hbits, h⟩, rfl, rfl⟩
    · rw [min_eq_right hle] at h
      exact ⟨a, ⟨rfl, rfl⟩, hbits.symm, h.symm⟩
  · rintro ⟨ip, ⟨-, ha⟩, -, hb⟩
    have hshort : ∀ {x y : IpAddr} {p m : Nat}, m ≤ p → networkAddress x p = networkAddress y p →
        networkAddress x m = networkAddress y m := by
      intro x y p m hle heq
      rw [← networkAddress_shorter x hle, heq, networkAddress_shorter y hle]
    exact (hshort (min_le_right _ _) hb).symm.trans (hshort (min_le_left _ _) ha)

/-! ### Entries -/

namespace Declared

/-- The entry of a declaration with a subnet. -/
def entry (d : Declared) (s : IpAddr × Nat) : SubnetEntry where
  net := s.1
  prefixLen := s.2
  owner := d.owner
  location := d.location
  ends := d.ends

theorem networkAddress_of_subnet {d : Declared} {s : IpAddr × Nat} (h : d.subnet = some s) :
    networkAddress s.1 s.2 = s.1 := by
  obtain ⟨⟨ip, len⟩, -, rfl⟩ := Option.map_eq_some_iff.mp h
  exact networkAddress_networkAddress ip len

theorem isFirst_concat {ds : List Declared} {d last : Declared} : IsFirst (ds ++ [last]) d ↔
    IsFirst ds d ∨ (d = last ∧ ∀ e ∈ ds, e.subnet = d.subnet → e.owner ≠ d.owner) := by
  constructor
  · rintro ⟨before, after, heq, hfirst⟩
    rcases List.eq_nil_or_concat' after with rfl | ⟨after, x, rfl⟩
    · obtain ⟨rfl, hd⟩ := List.append_inj' heq rfl
      cases hd
      exact .inr ⟨rfl, hfirst⟩
    · rw [← List.cons_append, ← List.append_assoc] at heq
      obtain ⟨rfl, -⟩ := List.append_inj' heq rfl
      exact .inl ⟨before, after, rfl, hfirst⟩
  · rintro (⟨before, after, rfl, hfirst⟩ | ⟨rfl, hfirst⟩)
    · exact ⟨before, after ++ [last], by simp, hfirst⟩
    · exact ⟨ds, [], rfl, hfirst⟩

/-- Each declaration has a first one of its subnet and owner. -/
theorem exists_first {ds : List Declared} {d : Declared} (h : d ∈ ds) :
    ∃ f, IsFirst ds f ∧ f.subnet = d.subnet ∧ f.owner = d.owner := by
  induction ds using List.reverseRecOn generalizing d with
  | nil => exact absurd h List.not_mem_nil
  | append_singleton ds last ih =>
    by_cases hseen : ∃ e ∈ ds, e.subnet = d.subnet ∧ e.owner = d.owner
    · obtain ⟨e, he, hsubnet, howner⟩ := hseen
      obtain ⟨f, hf, hfs, hfo⟩ := ih he
      exact ⟨f, isFirst_concat.mpr (.inl hf), hfs.trans hsubnet, hfo.trans howner⟩
    · have hlast : d = last := by
        rcases List.mem_append.mp h with h | h
        · exact absurd ⟨d, h, rfl, rfl⟩ hseen
        · exact List.mem_singleton.mp h
      exact ⟨d, isFirst_concat.mpr (.inr ⟨hlast, fun e he hs ho => hseen ⟨e, he, hs, ho⟩⟩), rfl, rfl⟩

theorem IsFirst.mem {ds : List Declared} {d : Declared} (h : IsFirst ds d) : d ∈ ds := by
  obtain ⟨before, after, rfl, -⟩ := h
  exact List.mem_append_right _ List.mem_cons_self

end Declared

open Declared

theorem pushSubnet_of_none {d : Declared} (h : d.subnet = none) (out : List SubnetEntry) :
    pushSubnet out d = out := by
  unfold Declared.subnet at h
  unfold pushSubnet
  cases hparse : parseCidr d.addr with
  | error e => rfl
  | ok p => simp [hparse, Except.toOption] at h

theorem pushSubnet_of_some {d : Declared} {s : IpAddr × Nat} (h : d.subnet = some s) (out : List SubnetEntry) :
    pushSubnet out d =
      if ∃ e ∈ out, e.net = s.1 ∧ e.prefixLen = s.2 ∧ e.owner = d.owner then out else out ++ [d.entry s] := by
  unfold Declared.subnet at h
  unfold pushSubnet
  cases hparse : parseCidr d.addr with
  | error e => simp [hparse, Except.toOption] at h
  | ok p =>
    rw [hparse] at h
    cases h
    simp only [List.any_eq_true, decide_eq_true_eq]
    rfl

/-- The entries are those of the first declarations. -/
theorem mem_foldl_pushSubnet {ds : List Declared} {e : SubnetEntry} :
    e ∈ ds.foldl pushSubnet [] ↔ ∃ d s, IsFirst ds d ∧ d.subnet = some s ∧ e = d.entry s := by
  induction ds using List.reverseRecOn generalizing e with
  | nil =>
    refine iff_of_false List.not_mem_nil ?_
    rintro ⟨d, s, hd, -⟩
    exact absurd hd.mem List.not_mem_nil
  | append_singleton ds last ih =>
    rw [List.foldl_append, List.foldl_cons, List.foldl_nil]
    cases hlast : last.subnet with
    | none =>
      rw [pushSubnet_of_none hlast, ih]
      constructor
      · rintro ⟨d, s, hd, hs, rfl⟩
        exact ⟨d, s, isFirst_concat.mpr (.inl hd), hs, rfl⟩
      · rintro ⟨d, s, hd, hs, rfl⟩
        rcases isFirst_concat.mp hd with hd | ⟨rfl, -⟩
        · exact ⟨d, s, hd, hs, rfl⟩
        · cases hlast.symm.trans hs
    | some s =>
      -- an entry of the same subnet and owner is that of an earlier declaration
      have hseen : (∃ e ∈ ds.foldl pushSubnet [], e.net = s.1 ∧ e.prefixLen = s.2 ∧ e.owner = last.owner) ↔
          ∃ e ∈ ds, e.subnet = last.subnet ∧ e.owner = last.owner := by
        constructor
        · rintro ⟨e, he, hnet, hlen, howner⟩
          obtain ⟨d, s', hd, hs', rfl⟩ := ih.mp he
          have hsubnet : s' = s := Prod.ext hnet hlen
          exact ⟨d, hd.mem, by rw [hs', hsubnet, hlast], howner⟩
        · rintro ⟨d, hd, hsubnet, howner⟩
          obtain ⟨f, hf, hfs, hfo⟩ := exists_first hd
          exact ⟨f.entry s, ih.mpr ⟨f, s, hf, (hfs.trans hsubnet).trans hlast, rfl⟩, rfl, rfl, hfo.trans howner⟩
      rw [pushSubnet_of_some hlast]
      split_ifs with hany
      · obtain ⟨d, hd, hsubnet, howner⟩ := hseen.mp hany
        rw [ih]
        constructor
        · rintro ⟨d, s, hd, hs, rfl⟩
          exact ⟨d, s, isFirst_concat.mpr (.inl hd), hs, rfl⟩
        · rintro ⟨d', s', hd', hs', rfl⟩
          rcases isFirst_concat.mp hd' with hd' | ⟨rfl, hnone⟩
          · exact ⟨d', s', hd', hs', rfl⟩
          · exact absurd howner (hnone d hd hsubnet)
      · rw [List.mem_append, List.mem_singleton, ih]
        constructor
        · rintro (⟨d, s', hd, hs', rfl⟩ | rfl)
          · exact ⟨d, s', isFirst_concat.mpr (.inl hd), hs', rfl⟩
          · refine ⟨last, s, isFirst_concat.mpr (.inr ⟨rfl, fun e he hs ho => ?_⟩), hlast, rfl⟩
            exact hany (hseen.mpr ⟨e, he, hs, ho⟩)
        · rintro ⟨d, s', hd, hs', rfl⟩
          rcases isFirst_concat.mp hd with hd | ⟨rfl, -⟩
          · exact .inl ⟨d, s', hd, hs', rfl⟩
          · cases hlast.symm.trans hs'
            exact .inr rfl

/-! ### The rule -/

theorem apart_entry {a b : Declared} {sa sb : IpAddr × Nat} :
    apart (a.entry sa) (b.entry sb) = true ↔ ¬ Meet a b := by
  unfold apart tablesAt Meet entry
  dsimp only
  rw [decide_eq_true_iff]
  constructor
  · rintro ⟨hshared, hall⟩ (hnone | ⟨⟨n, table⟩, ha, hb⟩)
    · obtain ⟨n, hn⟩ := List.exists_mem_of_ne_nil _ hshared
      obtain ⟨hna, hnb⟩ := List.mem_filter.mp hn
      obtain ⟨⟨_, table⟩, ha, rfl⟩ := List.mem_map.mp hna
      obtain ⟨⟨_, table'⟩, hb, hname⟩ := List.mem_map.mp (of_decide_eq_true hnb)
      dsimp only at hname
      subst hname
      exact hnone _ table table' ha hb
    · have hn : n ∈ (a.ends.map (·.1)).filter fun n => n ∈ b.ends.map (·.1) :=
        List.mem_filter.mpr ⟨List.mem_map.mpr ⟨_, ha, rfl⟩, decide_eq_true (List.mem_map.mpr ⟨_, hb, rfl⟩)⟩
      have htable : ∀ {ends : List (String × Option String)}, (n, table) ∈ ends →
          table ∈ (ends.filter (·.1 = n)).map (·.2) :=
        fun h => List.mem_map.mpr ⟨_, List.mem_filter.mpr ⟨h, decide_eq_true rfl⟩, rfl⟩
      exact hall n hn table (htable ha) (htable hb)
  · intro hmeet
    refine ⟨fun hnil => hmeet (.inl fun n table table' ha hb => ?_), fun n _ table hta htb => hmeet (.inr ?_)⟩
    · have hn : n ∈ (a.ends.map (·.1)).filter fun n => n ∈ b.ends.map (·.1) :=
        List.mem_filter.mpr ⟨List.mem_map.mpr ⟨_, ha, rfl⟩, decide_eq_true (List.mem_map.mpr ⟨_, hb, rfl⟩)⟩
      rw [hnil] at hn
      exact List.not_mem_nil hn
    · have hmem : ∀ {ends : List (String × Option String)}, table ∈ (ends.filter (·.1 = n)).map (·.2) →
          (n, table) ∈ ends := by
        intro ends h
        obtain ⟨⟨m, table'⟩, he, rfl⟩ := List.mem_map.mp h
        obtain ⟨hmem, hm⟩ := List.mem_filter.mp he
        obtain rfl := of_decide_eq_true hm
        exact hmem
      exact ⟨(n, table), hmem hta, hmem htb⟩

/-- Two entries overlap exactly when their declarations conflict. -/
theorem overlaps_entry {a b : Declared} {sa sb : IpAddr × Nat} (ha : a.subnet = some sa)
    (hb : b.subnet = some sb) : overlaps (a.entry sa) (b.entry sb) = true ↔ Conflict a b := by
  have hsame : networkAddress sb.1 (min sa.2 sb.2) = networkAddress sa.1 (min sa.2 sb.2) →
      (sa.2 = sb.2 ↔ sa = sb) := by
    intro hnet
    refine ⟨fun hlen => Prod.ext ?_ hlen, fun h => congrArg _ h⟩
    rw [hlen, min_self] at hnet
    rw [networkAddress_of_subnet hb, ← hlen, networkAddress_of_subnet ha] at hnet
    exact hnet.symm
  have hapart : (!apart (a.entry sa) (b.entry sb)) = true ↔ Meet a b := by
    rw [Bool.not_eq_true', ← Bool.not_eq_true, apart_entry, not_not]
  unfold overlaps
  rw [decide_eq_true_iff, hapart]
  constructor
  · rintro ⟨hseg, hnet, hid, hmeet⟩
    have hdistinct := hsame hnet
    refine ⟨⟨sa, sb, ha, hb, fun ho => ?_, (intersect_iff _ _ _ _).mp hnet, fun heq => ?_⟩, hmeet⟩
    · by_contra hne
      exact of_decide_eq_false ((Bool.not_eq_true' _).mp hseg) ⟨hne, ho⟩
    · have hlen := hdistinct.mpr heq
      simpa [entry, hlen] using hid
  · rintro ⟨⟨sa', sb', hc⟩, hmeet⟩
    cases ha.symm.trans hc.left
    cases hb.symm.trans hc.right
    have hnet := (intersect_iff _ _ _ _).mpr hc.intersect
    refine ⟨?_, hnet, ?_, hmeet⟩
    · by_cases ho : a.owner = b.owner
      · simp [entry, hc.segments ho]
      · simp [entry, ho]
    · by_cases hlen : sa.2 = sb.2
      · have hne := hc.distinct ((hsame hnet).mp hlen)
        simp [entry, hne.1, hne.2]
      · simp [entry, hlen]

theorem mem_pairs {l : List SubnetEntry} {issue : ValidationIssue}
    (h : issue ∈ validateOverlappingSubnets.pairs l) :
    issue.severity = .error ∧ ∃ a ∈ l, ∃ b ∈ l, overlaps a b = true := by
  induction l with
  | nil => exact absurd h List.not_mem_nil
  | cons a l ih =>
    unfold validateOverlappingSubnets.pairs at h
    rcases List.mem_append.mp h with h | h
    · obtain ⟨b, hb, h⟩ := List.mem_filterMap.mp h
      split_ifs at h with hover
      cases h
      exact ⟨rfl, a, List.mem_cons_self, b, List.mem_cons_of_mem _ hb, hover⟩
    · obtain ⟨hsev, x, hx, y, hy, hover⟩ := ih h
      exact ⟨hsev, x, List.mem_cons_of_mem _ hx, y, List.mem_cons_of_mem _ hy, hover⟩

/-- Each two entries are looked at, in one order. -/
theorem exists_mem_pairs {l : List SubnetEntry}
    (hsymm : ∀ a ∈ l, ∀ b ∈ l, overlaps a b = true → overlaps b a = true)
    (hself : ∀ a ∈ l, overlaps a a ≠ true) {a b : SubnetEntry} (ha : a ∈ l) (hb : b ∈ l)
    (h : overlaps a b = true) : ∃ issue, issue ∈ validateOverlappingSubnets.pairs l := by
  have hfound : ∀ {x y : SubnetEntry} {rest : List SubnetEntry}, y ∈ rest → overlaps x y = true →
      ∃ issue, issue ∈ validateOverlappingSubnets.pairs (x :: rest) := by
    intro x y rest hy hover
    exact ⟨_, List.mem_append_left _ (List.mem_filterMap.mpr ⟨y, hy, if_pos hover⟩)⟩
  induction l with
  | nil => exact absurd ha List.not_mem_nil
  | cons x l ih =>
    rcases List.mem_cons.mp ha with rfl | hal
    · rcases List.mem_cons.mp hb with rfl | hbl
      · exact absurd h (hself _ List.mem_cons_self)
      · exact hfound hbl h
    · rcases List.mem_cons.mp hb with rfl | hbl
      · exact hfound hal (hsymm _ ha _ hb h)
      · obtain ⟨issue, hissue⟩ := ih
          (fun a ha b hb => hsymm a (List.mem_cons_of_mem _ ha) b (List.mem_cons_of_mem _ hb))
          (fun a ha => hself a (List.mem_cons_of_mem _ ha)) hal hbl
        exact ⟨issue, List.mem_append_right _ hissue⟩

namespace Declared

theorem Conflict.symm {a b : Declared} (h : Conflict a b) : Conflict b a := by
  obtain ⟨⟨sa, sb, hclash⟩, hmeet⟩ := h
  exact ⟨⟨sb, sa, hclash.symm⟩, hmeet.symm⟩

theorem not_conflict_self (a : Declared) : ¬ Conflict a a := by
  rintro ⟨⟨sa, sb, hclash⟩, -⟩
  cases hclash.left.symm.trans hclash.right
  exact (hclash.distinct rfl).1 (hclash.segments rfl)

end Declared

/-- The rule finds exactly the conflicts among first declarations. -/
theorem reports_iff_firsts (t : Topology) : (∃ issue ∈ validateOverlappingSubnets t, issue.severity = .error) ↔
    ∃ a b, IsFirst (declaredSubnets t) a ∧ IsFirst (declaredSubnets t) b ∧ Conflict a b := by
  unfold validateOverlappingSubnets collectSubnets
  constructor
  · rintro ⟨issue, hissue, -⟩
    obtain ⟨-, x, hx, y, hy, hover⟩ := mem_pairs hissue
    obtain ⟨a, sa, ha, hsa, rfl⟩ := mem_foldl_pushSubnet.mp hx
    obtain ⟨b, sb, hb, hsb, rfl⟩ := mem_foldl_pushSubnet.mp hy
    exact ⟨a, b, ha, hb, (overlaps_entry hsa hsb).mp hover⟩
  · rintro ⟨a, b, ha, hb, hc⟩
    obtain ⟨⟨sa, sb, hclash⟩, -⟩ := id hc
    have hsymm : ∀ x ∈ (declaredSubnets t).foldl pushSubnet [], ∀ y ∈ (declaredSubnets t).foldl pushSubnet [],
        overlaps x y = true → overlaps y x = true := by
      intro x hx y hy hover
      obtain ⟨a, sa, -, hsa, rfl⟩ := mem_foldl_pushSubnet.mp hx
      obtain ⟨b, sb, -, hsb, rfl⟩ := mem_foldl_pushSubnet.mp hy
      exact (overlaps_entry hsb hsa).mpr ((overlaps_entry hsa hsb).mp hover).symm
    have hself : ∀ x ∈ (declaredSubnets t).foldl pushSubnet [], overlaps x x ≠ true := by
      intro x hx hover
      obtain ⟨a, sa, -, hsa, rfl⟩ := mem_foldl_pushSubnet.mp hx
      exact not_conflict_self a ((overlaps_entry hsa hsa).mp hover)
    obtain ⟨issue, hissue⟩ := exists_mem_pairs hsymm hself
      (mem_foldl_pushSubnet.mpr ⟨a, sa, ha, hclash.left, rfl⟩)
      (mem_foldl_pushSubnet.mpr ⟨b, sb, hb, hclash.right, rfl⟩)
      ((overlaps_entry hclash.left hclash.right).mpr hc)
    exact ⟨issue, hissue, (mem_pairs hissue).1⟩

/-! ### Segments -/

/-- Where the segment of a link, a network or the management network ends. -/
def segmentEnds (t : Topology) : SubnetOwner → List (String × Option String)
  | .link i => (t.links[i]?.map fun link => endsOf t [link.endpoints.1, link.endpoints.2]).getD []
  | .network name => (t.networks[name]?.map fun network => endsOf t network.members).getD []
  | .mgmt | .interface => []

theorem ends_of_mem {t : Topology} {d : Declared} (h : d ∈ declaredSubnets t) :
    d.owner = .interface ∨ d.ends = segmentEnds t d.owner := by
  unfold declaredSubnets at h
  simp only [List.mem_append, or_assoc] at h
  rcases h with h | h | h | h
  · obtain ⟨mgmt, -, rfl⟩ := Option.map_eq_some_iff.mp (Option.mem_toList.mp h)
    exact .inr rfl
  · obtain ⟨⟨link, i⟩, hlink, h⟩ := List.mem_flatMap.mp h
    have hget : t.links[i]? = some link := by simpa using List.mk_mem_zipIdx_iff_getElem?.mp hlink
    dsimp only at h
    split at h
    · exact absurd h List.not_mem_nil
    · obtain ⟨x, -, rfl⟩ := List.mem_map.mp h
      refine .inr ?_
      dsimp only [segmentEnds]
      rw [hget]
      rfl
  · obtain ⟨⟨name, network⟩, hnet, h⟩ := List.mem_flatMap.mp h
    have hget := Std.ExtTreeMap.mem_toList_iff_getElem?_eq_some.mp hnet
    have hends : endsOf t network.members = segmentEnds t (.network name) := by
      dsimp only [segmentEnds]
      rw [hget]
      rfl
    rcases List.mem_append.mp h with h | h
    · obtain ⟨subnet, -, rfl⟩ := Option.map_eq_some_iff.mp (Option.mem_toList.mp h)
      exact .inr hends
    · obtain ⟨⟨port, c⟩, -, h⟩ := List.mem_flatMap.mp h
      obtain ⟨x, -, rfl⟩ := List.mem_map.mp h
      exact .inr hends
  · obtain ⟨⟨name, node⟩, -, h⟩ := List.mem_flatMap.mp h
    refine .inl ?_
    unfold declaredOnNode at h
    simp only [List.mem_append, List.mem_flatMap, List.mem_map] at h
    rcases h with (((⟨x, -, y, -, rfl⟩ | ⟨x, -, y, -, rfl⟩) | ⟨x, -, y, -, rfl⟩) | ⟨x, -, y, -, rfl⟩) |
      ⟨x, -, y, -, rfl⟩ <;> rfl

/-- A declaration ends elsewhere than the first of its subnet and owner only on node-level
interfaces. -/
theorem owner_of_ends_ne {t : Topology} {a f : Declared} (ha : a ∈ declaredSubnets t)
    (hf : f ∈ declaredSubnets t) (howner : f.owner = a.owner) (hends : f.ends ≠ a.ends) :
    a.owner = .interface := by
  rcases ends_of_mem ha with h | h
  · exact h
  · rcases ends_of_mem hf with h' | h'
    · exact howner.symm.trans h'
    · exact absurd (by rw [h, h', howner]) hends

/-! ### Hidden conflicts -/

/-- No two subnets conflict where they are first declared, but one of a node-level interface
is declared again, on another node or in another VRF, and conflicts there. -/
structure Hidden (t : Topology) : Prop where
  firsts : ∀ a b, IsFirst (declaredSubnets t) a → IsFirst (declaredSubnets t) b → ¬ Conflict a b
  again : ∃ f a b, IsFirst (declaredSubnets t) f ∧ a ∈ declaredSubnets t ∧ b ∈ declaredSubnets t ∧
    f.subnet = a.subnet ∧ f.owner = .interface ∧ a.owner = .interface ∧ f.ends ≠ a.ends ∧ Conflict a b

/-- The rule finds an error exactly when two declared subnets conflict, unless all conflicts
are hidden behind first declarations. -/
theorem validateOverlappingSubnets_exact_iff (t : Topology) :
    ((∃ issue ∈ validateOverlappingSubnets t, issue.severity = .error) ↔
      ∃ a ∈ declaredSubnets t, ∃ b ∈ declaredSubnets t, Conflict a b) ↔ ¬ Hidden t := by
  rw [reports_iff_firsts]
  constructor
  · intro hexact hhidden
    obtain ⟨f, a, b, -, ha, hb, -, -, -, -, hc⟩ := hhidden.again
    obtain ⟨a', b', ha', hb', hc'⟩ := hexact.mpr ⟨a, ha, b, hb, hc⟩
    exact hhidden.firsts a' b' ha' hb' hc'
  · intro hnot
    refine ⟨fun ⟨a, b, ha, hb, hc⟩ => ⟨a, ha.mem, b, hb.mem, hc⟩, ?_⟩
    rintro ⟨a, ha, b, hb, hc⟩
    by_contra hnone
    have hfirsts : ∀ a b, IsFirst (declaredSubnets t) a → IsFirst (declaredSubnets t) b → ¬ Conflict a b :=
      fun a b ha hb hc => hnone ⟨a, b, ha, hb, hc⟩
    obtain ⟨fa, hfa, hsa, hoa⟩ := exists_first ha
    obtain ⟨fb, hfb, hsb, hob⟩ := exists_first hb
    -- the first declarations clash as these do, so they end elsewhere
    have hends : fa.ends ≠ a.ends ∨ fb.ends ≠ b.ends := by
      by_contra hsame
      rw [not_or, not_not, not_not] at hsame
      obtain ⟨⟨sa, sb, hclash⟩, hmeet⟩ := hc
      refine hfirsts fa fb hfa hfb ⟨⟨sa, sb, ⟨hsa.trans hclash.left, hsb.trans hclash.right, ?_,
        hclash.intersect, ?_⟩⟩, ?_⟩
      · rw [hoa, hob]
        exact hclash.segments
      · rw [hoa, hob]
        exact hclash.distinct
      · unfold Meet
        rw [hsame.1, hsame.2]
        exact hmeet
    rcases hends with hne | hne
    · have howner := owner_of_ends_ne ha hfa.mem hoa hne
      exact hnot ⟨hfirsts, fa, a, b, hfa, ha, hb, hsa, hoa.trans howner, howner, hne, hc⟩
    · have howner := owner_of_ends_ne hb hfb.mem hob hne
      exact hnot ⟨hfirsts, fb, b, a, hfb, hb, ha, hsb, hob.trans howner, howner, hne, hc.symm⟩

/-- Two dummies of one subnet, the first in a VRF of a router whose link is in a wider one. -/
def repeatedDummy : Topology where
  lab := { name := "lab" }
  nodes := .ofList
    [("a", { interfaces := .ofList [("d0", { kind := some .dummy, addresses := ["10.0.0.1/24"] })] compare
             vrfs := .ofList [("red", { table := 10, interfaces := ["d0"] })] compare }),
     ("b", { interfaces := .ofList [("d0", { kind := some .dummy, addresses := ["10.0.0.2/24"] })] compare }),
     ("c", {})] compare
  links := [{ endpoints := ("a:eth0", "c:eth0"), addresses := some ("10.0.1.1/16", "10.0.1.2/16") }]

/-- The second dummy's subnet lies in that of a link it does not meet, and no error is reported. -/
theorem second_dummy_unseen : repeatedDummy.valid Plan.Env.sample.nl Plan.Env.sample.vals ∧
    ¬ ((∃ issue ∈ validateOverlappingSubnets repeatedDummy, issue.severity = .error) ↔
      ∃ a ∈ declaredSubnets repeatedDummy, ∃ b ∈ declaredSubnets repeatedDummy, Conflict a b) := by
  have hnone : (validateOverlappingSubnets repeatedDummy).length = 0 := by decide +kernel
  have hconflict : ∃ a ∈ declaredSubnets repeatedDummy, ∃ b ∈ declaredSubnets repeatedDummy,
      (a.subnet.bind fun sa => b.subnet.map fun sb => overlaps (a.entry sa) (b.entry sb)) = some true := by
    decide +kernel
  refine ⟨by decide +kernel, fun hexact => ?_⟩
  obtain ⟨a, ha, b, hb, hover⟩ := hconflict
  obtain ⟨sa, hsa, hover⟩ := Option.bind_eq_some_iff.mp hover
  obtain ⟨sb, hsb, hover⟩ := Option.map_eq_some_iff.mp hover
  have hc : Conflict a b := (overlaps_entry hsa hsb).mp hover
  obtain ⟨issue, hissue, -⟩ := hexact.mpr ⟨a, ha, b, hb, hc⟩
  rw [List.length_eq_zero_iff.mp hnone] at hissue
  exact List.not_mem_nil hissue

end NlinkLab.Validator
