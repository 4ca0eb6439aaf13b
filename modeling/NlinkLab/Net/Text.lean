import NlinkLab.Deploy.Frr

/-! What the text of an address is made of: one that is read has no slash, so that a
CIDR is cut at its only one, and a printed address has a colon when it is of IPv6. -/

namespace NlinkLab.IpAddr

/-! ### Reading -/

/-- The characters of an address. -/
def InText (c : Char) : Prop := (toDigit 16 c).isSome ∨ c = '.' ∨ c = ':'

instance (c : Char) : Decidable (InText c) := inferInstanceAs (Decidable (_ ∨ _))

/-- A reader leaves the end of a text, having taken characters of an address. -/
def Reads (cs rest : List Char) : Prop := ∃ used, cs = used ++ rest ∧ ∀ c ∈ used, InText c

theorem Reads.refl (cs : List Char) : Reads cs cs := ⟨[], rfl, List.forall_mem_nil InText⟩

theorem Reads.trans {cs mid rest : List Char} (h : Reads cs mid) (h' : Reads mid rest) : Reads cs rest := by
  obtain ⟨used, rfl, hu⟩ := h
  obtain ⟨used', rfl, hu'⟩ := h'
  refine ⟨used ++ used', (List.append_assoc _ _ _).symm, fun c hmem => ?_⟩
  exact (List.mem_append.mp hmem).elim (hu c) (hu' c)

theorem reads_readChar {c : Char} (hc : InText c) {cs rest : List Char} (h : readChar c cs = some rest) :
    Reads cs rest := by
  cases cs with
  | nil => cases h
  | cons d cs =>
    simp only [readChar] at h
    split_ifs at h with hd
    cases h
    subst hd
    exact ⟨[c], rfl, fun x hx => List.mem_singleton.mp hx ▸ hc⟩

theorem reads_readSeparator {sep : Char} (hsep : InText sep) {first : Bool} {cs rest : List Char}
    (h : readSeparator sep first cs = some rest) : Reads cs rest := by
  unfold readSeparator at h
  split_ifs at h
  · cases h
    exact Reads.refl cs
  · exact reads_readChar hsep h

/-- A digit of a smaller base is one of base 16. -/
theorem inText_of_toDigit {radix : Nat} (hradix : radix ≤ 16) {c : Char} (h : (toDigit radix c).isSome) : InText c := by
  obtain ⟨d, hd⟩ := Option.isSome_iff_exists.mp h
  obtain ⟨hvalue, hlt⟩ := Option.filter_eq_some_iff.mp hd
  have hlt' : d < 16 := (of_decide_eq_true hlt).trans_le hradix
  exact .inl (Option.isSome_iff_exists.mpr ⟨d, Option.filter_eq_some_iff.mpr ⟨hvalue, decide_eq_true hlt'⟩⟩)

theorem reads_readNumber {radix maxDigits : Nat} (hradix : radix ≤ 16) {zeros : Bool} {cs rest : List Char} {n : Nat}
    (h : readNumber radix maxDigits zeros cs = some (n, rest)) : Reads cs rest := by
  unfold readNumber at h
  dsimp only at h
  split_ifs at h
  obtain ⟨-, hrest⟩ := Prod.mk.inj (Option.some.inj h)
  refine ⟨cs.takeWhile fun c => (toDigit radix c).isSome, ?_, fun c hmem => ?_⟩
  · rw [← hrest]
    exact (List.prefix_iff_eq_append.mp (List.takeWhile_prefix _)).symm
  · have hdigit := List.mem_takeWhile_imp hmem
    exact inText_of_toDigit hradix hdigit

theorem reads_readOctets {count : Nat} {first : Bool} {cs rest : List Char} {octets : List Nat}
    (h : readOctets count first cs = some (octets, rest)) : Reads cs rest := by
  induction count generalizing first cs octets with
  | zero =>
    cases h
    exact Reads.refl _
  | succ count ih =>
    unfold readOctets at h
    simp only [Option.bind_eq_bind, Option.bind_eq_some_iff] at h
    obtain ⟨after, hsep, ⟨octet, cs'⟩, hnumber, h⟩ := h
    split_ifs at h
    simp only [Option.bind_eq_some_iff] at h
    obtain ⟨⟨octets', cs''⟩, hrest, h⟩ := h
    cases h
    exact (reads_readSeparator (by decide) hsep).trans ((reads_readNumber (by decide) hnumber).trans (ih hrest))

theorem reads_readIpv4 {cs rest : List Char} {bits : BitVec 32} (h : readIpv4 cs = some (bits, rest)) :
    Reads cs rest := by
  obtain ⟨⟨octets, cs'⟩, hoctets, heq⟩ := Option.map_eq_some_iff.mp h
  cases heq
  exact reads_readOctets hoctets

theorem reads_readGroups (left : Nat) (first : Bool) (cs : List Char) :
    Reads cs (readGroups left first cs).2.2 := by
  induction left generalizing first cs with
  | zero => exact Reads.refl cs
  | succ left ih =>
    unfold readGroups
    split
    · -- the last groups are an IPv4 address
      rename_i quad rest hquad
      split_ifs at hquad
      obtain ⟨after, hsep, hquad⟩ := Option.bind_eq_some_iff.mp hquad
      exact (reads_readSeparator (by decide) hsep).trans (reads_readIpv4 hquad)
    · split
      · rename_i group rest hgroup
        obtain ⟨after, hsep, hnumber⟩ := Option.bind_eq_some_iff.mp hgroup
        have hread := (reads_readSeparator (by decide) hsep).trans (reads_readNumber (by decide) hnumber)
        exact hread.trans (ih false rest)
      · exact Reads.refl cs

theorem reads_readIpv6 {cs rest : List Char} {bits : BitVec 128} (h : readIpv6 cs = some (bits, rest)) :
    Reads cs rest := by
  have hhead := reads_readGroups 8 true cs
  unfold readIpv6 at h
  rcases hgroups : readGroups 8 true cs with ⟨head, headV4, after⟩
  rw [hgroups] at h hhead
  dsimp only at h
  split_ifs at h
  · cases h
    exact hhead
  · simp only [Option.bind_eq_bind, Option.bind_eq_some_iff] at h
    obtain ⟨one, hone, two, htwo, h⟩ := h
    have htail := reads_readGroups (8 - (head.length + 1)) true two
    cases h
    exact hhead.trans ((reads_readChar (by decide) hone).trans ((reads_readChar (by decide) htwo).trans htail))

/-- An address is written with its characters only. -/
theorem inText_of_parse {s : String} {ip : IpAddr} (h : parse s = some ip) : ∀ c ∈ s.toList, InText c := by
  have hreads : Reads s.toList [] := by
    unfold parse at h
    dsimp only at h
    split at h
    · rename_i ip' heq
      rcases hv4 : readIpv4 s.toList with - | ⟨bits, rest⟩
      · rw [hv4] at heq
        obtain ⟨⟨bits, rest⟩, hv6, hread⟩ := Option.map_eq_some_iff.mp heq
        cases hread
        exact reads_readIpv6 hv6
      · rw [hv4] at heq
        cases heq
        exact reads_readIpv4 hv4
    · cases h
  obtain ⟨used, hused, htext⟩ := hreads
  rwa [hused, List.append_nil]

theorem slash_notMem_of_parse {s : String} {ip : IpAddr} (h : parse s = some ip) : '/' ∉ s.toList := fun hslash =>
  absurd (inText_of_parse h _ hslash) (by decide)

theorem readChar_of_notMem {c : Char} {cs : List Char} (h : c ∉ cs) : readChar c cs = none := by
  cases cs with
  | nil => rfl
  | cons d cs =>
    have hne : c ≠ d := fun heq => h (heq ▸ List.mem_cons_self)
    simp [readChar, hne]

end NlinkLab.IpAddr

namespace NlinkLab

/-! ### CIDRs -/

theorem drop_length_takeWhile {A : Type} (p : A → Bool) (l : List A) :
    l.drop (l.takeWhile p).length = l.dropWhile p := by
  induction l with
  | nil => rfl
  | cons a l ih =>
    by_cases ha : p a
    · simpa [ha] using ih
    · simp [ha]

theorem rsplitOnce_eq_some {s a b : String} {c : Char} (h : rsplitOnce s c = some (a, b)) :
    s.toList = a.toList ++ c :: b.toList := by
  unfold rsplitOnce at h
  dsimp only at h
  rw [drop_length_takeWhile] at h
  have hsplit : s.toList.reverse.takeWhile (· ≠ c) ++ s.toList.reverse.dropWhile (· ≠ c) = s.toList.reverse :=
    List.takeWhile_append_dropWhile
  split at h
  · cases h
  · rename_i d rest hd
    cases h
    have hc : d = c := by
      have hne : s.toList.reverse.dropWhile (· ≠ c) ≠ [] := by
        rw [hd]
        exact List.cons_ne_nil d rest
      have hhead := List.head_dropWhile_not (p := (· ≠ c)) hne
      simp only [hd, List.head_cons] at hhead
      simpa using hhead
    rw [hd, hc] at hsplit
    have hrev := congrArg List.reverse hsplit
    simpa using hrev.symm

theorem rsplitOnce_append {a b : String} {c : Char} (hb : c ∉ b.toList) :
    rsplitOnce (a ++ String.singleton c ++ b) c = some (a, b) := by
  have hrev : (a ++ String.singleton c ++ b).toList.reverse = b.toList.reverse ++ c :: a.toList.reverse := by simp
  have hne : ∀ x ∈ b.toList.reverse, (decide (x ≠ c)) = true := fun x hx =>
    decide_eq_true fun heq => hb (heq ▸ List.mem_reverse.mp hx)
  unfold rsplitOnce
  dsimp only
  rw [hrev, List.takeWhile_append_of_pos hne, List.takeWhile_cons_of_neg (by simp), List.append_nil, List.drop_left]
  simp

theorem parseCidr_eq_ok {s : String} {ip : IpAddr} {len : Nat} (h : parseCidr s = .ok (ip, len)) :
    ∃ addr text, rsplitOnce s '/' = some (addr, text) ∧ IpAddr.parse addr = some ip ∧
      parseUnsigned 256 text = .ok len ∧ len ≤ addrBits ip := by
  unfold parseCidr at h
  dsimp only at h
  split at h
  · cases h
  · rename_i addr text hcut
    split at h
    · cases h
    · rename_i ip' hip
      split at h
      · cases h
      · rename_i len' hlen
        split_ifs at h with hbits
        cases h
        exact ⟨addr, text, hcut, hip, hlen, not_lt.mp hbits⟩

/-- The address of a CIDR is what stands before its slash. -/
theorem hostPart_of_parseCidr {s : String} {ip : IpAddr} {len : Nat} (h : parseCidr s = .ok (ip, len)) :
    hostPart s = some ip := by
  obtain ⟨addr, text, hcut, hip, -⟩ := parseCidr_eq_ok h
  have hslash := IpAddr.slash_notMem_of_parse hip
  have hne : ∀ c ∈ addr.toList, c ≠ '/' := fun c hc heq => hslash (heq ▸ hc)
  have hbefore : before '/' s = addr := by
    unfold before
    rw [rsplitOnce_eq_some hcut, List.takeWhile_append_of_pos (by simpa using hne)]
    simp
  unfold hostPart
  rw [hbefore, hip]

theorem parseCidr_le {s : String} {ip : IpAddr} {len : Nat} (h : parseCidr s = .ok (ip, len)) :
    len ≤ addrBits ip := by
  obtain ⟨addr, text, -, -, -, hle⟩ := parseCidr_eq_ok h
  exact hle

/-- A CIDR is written with the characters of an address, a slash and a number. -/
theorem mem_of_parseCidr {s : String} {e : IpAddr × Nat} (h : parseCidr s = .ok e) :
    ∀ c ∈ s.toList, IpAddr.InText c ∨ c = '/' ∨ c = '+' := by
  obtain ⟨addr, text, hcut, hip, hlen, -⟩ := parseCidr_eq_ok h
  obtain ⟨-, ds, hds, -⟩ := parseUnsigned_eq_ok.mp hlen
  have hdigit : ∀ c ∈ unsignedDigits text.toList, IpAddr.InText c := fun c hc =>
    IpAddr.inText_of_toDigit (by decide) (Fallible.isSome_of_mapM hds c hc)
  intro c hc
  rw [rsplitOnce_eq_some hcut] at hc
  rcases List.mem_append.mp hc with hc | hc
  · exact .inl (IpAddr.inText_of_parse hip c hc)
  rcases List.mem_cons.mp hc with rfl | hc
  · exact .inr (.inl rfl)
  · unfold unsignedDigits at hdigit
    split at hdigit
    · rename_i d cs htext
      rw [htext] at hc
      rcases List.mem_cons.mp hc with rfl | hc
      · exact .inr (.inr rfl)
      · exact .inl (hdigit c hc)
    · exact .inl (hdigit c hc)

theorem slash_mem_of_parseCidr {s : String} {e : IpAddr × Nat} (h : parseCidr s = .ok e) : '/' ∈ s.toList := by
  obtain ⟨addr, text, hcut, -⟩ := parseCidr_eq_ok h
  rw [rsplitOnce_eq_some hcut]
  exact List.mem_append_right _ List.mem_cons_self

theorem ipInSubnet_iff {a net : IpAddr} {len : Nat} (h : len ≤ addrBits net) :
    ipInSubnet a net len = true ↔ networkAddress a len = networkAddress net len := by
  unfold ipInSubnet
  split
  · split_ifs with hzero hlen
    · subst hzero
      simp [networkAddress]
    · exact absurd h (not_le.mpr hlen)
    · simp [networkAddress]
  · split_ifs with hzero hlen
    · subst hzero
      simp [networkAddress]
    · exact absurd h (not_le.mpr hlen)
    · simp [networkAddress]
  · rename_i hv4 hv6
    refine iff_of_false Bool.false_ne_true fun hnet => ?_
    cases a with
    | v4 a =>
      cases net with
      | v4 net => exact hv4 _ _ rfl rfl
      | v6 net => cases hnet
    | v6 a =>
      cases net with
      | v4 net => cases hnet
      | v6 net => exact hv6 _ _ rfl rfl

/-! ### Printing -/

theorem colon_notMem_displayV4 (n : Nat) : ':' ∉ (IpAddr.displayV4 n).toList := by
  unfold IpAddr.displayV4
  simp only [IpAddr.digits, List.nil_append, List.cons_append, List.map_cons, List.map_nil,
    String.intercalate_cons_cons, String.intercalate_singleton, String.toList_append, List.mem_append, not_or]
  simp only [notMem_toString (c := ':') (by decide), not_false_eq_true, true_and, and_true]
  decide

theorem colon_mem_displayV6 (n : Nat) : ':' ∈ (IpAddr.displayV6 n).toList := by
  unfold IpAddr.displayV6
  dsimp only
  split_ifs
  · simp
  · simp
  · simp [IpAddr.digits, String.intercalate_cons_cons]

theorem colon_mem_display (ip : IpAddr) : ':' ∈ ip.display.toList ↔ ip.isIpv6 := by
  cases ip with
  | v4 bits => exact iff_of_false (colon_notMem_displayV4 _) Bool.false_ne_true
  | v6 bits => exact iff_of_true (colon_mem_displayV6 _) rfl

theorem mem_toDigits {b : Nat} (hb : 1 < b) {c : Char} {n : Nat} (h : c ∈ Nat.toDigits b n) :
    ∃ d < b, c = Nat.digitChar d := by
  induction n using Nat.strongRecOn with
  | ind n ih =>
    rw [Nat.toDigits_eq_if hb] at h
    split_ifs at h with hn
    · exact ⟨n, hn, List.mem_singleton.mp h⟩
    · rcases List.mem_append.mp h with h | h
      · exact ih (n / b) (Nat.div_lt_self (by omega) hb) h
      · exact ⟨n % b, Nat.mod_lt n (by omega), List.mem_singleton.mp h⟩

theorem slash_notMem_hex (n : Nat) : '/' ∉ (IpAddr.hex n).toList := by
  have hdigit : ∀ d < 16, '/' ≠ Nat.digitChar d := by decide
  unfold IpAddr.hex
  rw [String.toList_ofList]
  intro h
  obtain ⟨d, hlt, hd⟩ := mem_toDigits (by decide) h
  exact hdigit d hlt hd

theorem slash_notMem_displayV4 (n : Nat) : '/' ∉ (IpAddr.displayV4 n).toList := by
  unfold IpAddr.displayV4
  simp only [IpAddr.digits, List.nil_append, List.cons_append, List.map_cons, List.map_nil,
    String.intercalate_cons_cons, String.intercalate_singleton, String.toList_append, List.mem_append, not_or]
  simp only [notMem_toString (c := '/') (by decide), not_false_eq_true, true_and, and_true]
  decide

theorem notMem_intercalate {c : Char} {sep : String} (hsep : c ∉ sep.toList) {l : List String}
    (hl : ∀ s ∈ l, c ∉ s.toList) : c ∉ (sep.intercalate l).toList := by
  induction l with
  | nil => simp
  | cons a l ih =>
    cases l with
    | nil => simpa using hl
    | cons b l =>
      rw [String.intercalate_cons_cons, String.toList_append, String.toList_append]
      intro h
      rcases List.mem_append.mp h with h | h
      · exact (List.mem_append.mp h).elim (hl a List.mem_cons_self) hsep
      · exact ih (fun s hs => hl s (List.mem_cons_of_mem _ hs)) h

theorem slash_notMem_display (ip : IpAddr) : '/' ∉ ip.display.toList := by
  cases ip with
  | v4 bits => exact slash_notMem_displayV4 _
  | v6 bits =>
    have hjoin : ∀ l : List Nat, '/' ∉ (":".intercalate (l.map IpAddr.hex)).toList := fun l =>
      notMem_intercalate (by decide) (List.forall_mem_map.mpr fun n _ => slash_notMem_hex n)
    unfold IpAddr.display IpAddr.displayV6
    dsimp only
    split_ifs
    · rw [String.toList_append, List.mem_append, not_or]
      exact ⟨by decide, slash_notMem_displayV4 _⟩
    · rw [String.toList_append, String.toList_append, List.mem_append, List.mem_append, not_or, not_or]
      exact ⟨⟨hjoin _, by decide⟩, hjoin _⟩
    · exact hjoin _

end NlinkLab
