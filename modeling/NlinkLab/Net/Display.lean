import NlinkLab.Net.Text

/-! A printed address is read back: each part of the text by the reader of that part,
whatever follows, and an IPv6 address in each of its three spellings. So addresses that
are printed alike are the same. -/

namespace NlinkLab.IpAddr

/-! ### Numbers -/

/-- No digit stands first. -/
def Stops (radix : Nat) (rest : List Char) : Prop := ∀ c ∈ rest.head?, toDigit radix c = none

theorem toDigit_digitChar {radix d : Nat} (hr : radix = 10 ∨ radix = 16) (hd : d < radix) :
    toDigit radix (Nat.digitChar d) = some d := by
  rcases hr with rfl | rfl
  · exact (by decide : ∀ d < 10, toDigit 10 (Nat.digitChar d) = some d) d hd
  · exact (by decide : ∀ d < 16, toDigit 16 (Nat.digitChar d) = some d) d hd

@[simp] theorem ofDigits_append_singleton (radix : Nat) (ds : List Nat) (d : Nat) :
    ofDigits radix (ds ++ [d]) = ofDigits radix ds * radix + d := by simp [ofDigits]

/-- The digits of a number as they are printed. -/
theorem mapM_toDigits {radix : Nat} (hr : radix = 10 ∨ radix = 16) (n : Nat) :
    ∃ ds, (Nat.toDigits radix n).mapM (toDigit radix) = some ds ∧ ofDigits radix ds = n := by
  have hb : 1 < radix := by omega
  induction n using Nat.strongRecOn with
  | ind n ih =>
    rw [Nat.toDigits_eq_if hb]
    split_ifs with hn
    · exact ⟨[n], by simp [toDigit_digitChar hr hn], by simp [ofDigits]⟩
    · obtain ⟨ds, hds, hval⟩ := ih (n / radix) (Nat.div_lt_self (by omega) hb)
      refine ⟨ds ++ [n % radix], ?_, ?_⟩
      · rw [List.mapM_append, hds]
        simp [toDigit_digitChar hr (Nat.mod_lt n (by omega))]
      · rw [ofDigits_append_singleton, hval]
        exact Nat.div_add_mod' n radix

theorem filterMap_of_mapM {A B : Type} {f : A → Option B} {l : List A} {r : List B} (h : l.mapM f = some r) :
    l.filterMap f = r := by
  induction l generalizing r with
  | nil =>
    rw [List.mapM_nil] at h
    exact Option.some.inj h
  | cons a l ih =>
    rw [List.mapM_cons] at h
    simp only [Option.bind_eq_bind, Option.pure_def, Option.bind_eq_some_iff] at h
    obtain ⟨b, hb, r', hr', h⟩ := h
    rw [List.filterMap_cons_some hb, ih hr']
    exact Option.some.inj h

theorem isSome_of_mem_toDigits {radix : Nat} (hr : radix = 10 ∨ radix = 16) {n : Nat} {c : Char}
    (h : c ∈ Nat.toDigits radix n) : (toDigit radix c).isSome := by
  obtain ⟨d, hd, rfl⟩ := mem_toDigits (by omega) h
  rw [toDigit_digitChar hr hd]
  rfl

/-- Only zero begins with a zero. -/
theorem head?_toDigits {radix : Nat} (hr : radix = 10 ∨ radix = 16) {n : Nat} (hn : n ≠ 0) :
    (Nat.toDigits radix n).head? ≠ some '0' := by
  have hb : 1 < radix := by omega
  induction n using Nat.strongRecOn with
  | ind n ih =>
    rw [Nat.toDigits_eq_if hb]
    split_ifs with hlt
    · intro h
      have hd := toDigit_digitChar hr hlt
      rw [Option.some.inj h] at hd
      rcases hr with rfl | rfl
      · exact hn (Option.some.inj hd).symm
      · exact hn (Option.some.inj hd).symm
    · rw [List.head?_append_of_ne_nil _ Nat.toDigits_ne_nil]
      exact ih (n / radix) (Nat.div_lt_self (by omega) hb) (Nat.div_pos (by omega) (by omega)).ne'

theorem takeWhile_of_stops {radix : Nat} {rest : List Char} (h : Stops radix rest) :
    rest.takeWhile (fun c => (toDigit radix c).isSome) = [] := by
  cases rest with
  | nil => rfl
  | cons c rest => exact List.takeWhile_cons_of_neg (by simp [h c (by simp)])

/-- A printed number is read back, up to what is no digit. -/
theorem readNumber_toDigits {radix : Nat} (hr : radix = 10 ∨ radix = 16) {n maxDigits : Nat} {zeros : Bool}
    {rest : List Char} (hlen : (Nat.toDigits radix n).length ≤ maxDigits) (hrest : Stops radix rest) :
    readNumber radix maxDigits zeros (Nat.toDigits radix n ++ rest) = some (n, rest) := by
  have htake : (Nat.toDigits radix n ++ rest).takeWhile (fun c => (toDigit radix c).isSome) =
      Nat.toDigits radix n := by
    rw [List.takeWhile_append_of_pos fun c hc => isSome_of_mem_toDigits hr hc, takeWhile_of_stops hrest,
      List.append_nil]
  have hzero : ¬((Nat.toDigits radix n).head? = some '0' ∧ 1 < (Nat.toDigits radix n).length) := by
    rintro ⟨hhead, hlong⟩
    rcases Nat.eq_zero_or_pos n with rfl | hn
    · simp at hlong
    · exact head?_toDigits hr hn.ne' hhead
  obtain ⟨ds, hds, hval⟩ := mapM_toDigits hr n
  unfold readNumber
  dsimp only
  rw [htake, if_neg, filterMap_of_mapM hds, List.drop_left]
  · exact congrArg (fun n => some (n, rest)) hval
  · rintro (h | h | ⟨-, h⟩)
    · exact Nat.toDigits_ne_nil h
    · omega
    · exact hzero h

/-! ### Numbers in a base -/

theorem length_digits (radix count n : Nat) : (digits radix count n).length = count := by
  induction count generalizing n with
  | zero => rfl
  | succ count ih => simp [digits, ih]

theorem lt_of_mem_digits {radix count n d : Nat} (hr : 0 < radix) (h : d ∈ digits radix count n) : d < radix := by
  induction count generalizing n with
  | zero => cases h
  | succ count ih =>
    rcases List.mem_append.mp h with h | h
    · exact ih h
    · rw [List.mem_singleton.mp h]
      exact Nat.mod_lt n hr

theorem ofDigits_digits (radix count n : Nat) : ofDigits radix (digits radix count n) = n % radix ^ count := by
  induction count generalizing n with
  | zero => simp [digits, ofDigits, Nat.mod_one]
  | succ count ih =>
    rw [digits, ofDigits_append_singleton, ih, pow_succ']
    have := Nat.mod_mul (x := n) (a := radix) (b := radix ^ count)
    rw [this, Nat.mul_comm radix]
    omega

/-- The parts of a text, a separator before every one but the first. -/
def joined (sep : Char) (first : Bool) : List (List Char) → List Char
  | [] => []
  | part :: parts => (if first then part else sep :: part) ++ joined sep false parts

theorem toList_intercalate (sep : Char) (parts : List String) :
    ((String.singleton sep).intercalate parts).toList = joined sep true (parts.map String.toList) := by
  induction parts with
  | nil => rfl
  | cons part parts ih =>
    cases parts with
    | nil => simp [joined]
    | cons next parts =>
      rw [String.intercalate_cons_cons, String.toList_append, ih]
      simp [joined]

theorem stops_cons {radix : Nat} {c : Char} (h : toDigit radix c = none) (rest : List Char) :
    Stops radix (c :: rest) := by simpa [Stops] using h

/-- After a part comes a separator, or what follows them all. -/
theorem stops_joined {radix : Nat} {sep : Char} (hsep : toDigit radix sep = none) (parts : List (List Char))
    {rest : List Char} (hrest : Stops radix rest) : Stops radix (joined sep false parts ++ rest) := by
  cases parts with
  | nil => exact hrest
  | cons part parts => exact stops_cons hsep _

theorem readSeparator_joined (sep : Char) (first : Bool) (part : List Char) (parts : List (List Char))
    (rest : List Char) :
    readSeparator sep first (joined sep first (part :: parts) ++ rest) =
      some (part ++ (joined sep false parts ++ rest)) := by
  cases first
  · simp [readSeparator, readChar, joined]
  · simp [readSeparator, joined]

/-! ### IPv4 -/

theorem length_toDigits_octet {n : Nat} (h : n < 256) : (Nat.toDigits 10 n).length ≤ 3 :=
  (Nat.length_toDigits_le_iff (by decide) (by decide)).mpr (by omega)

theorem readOctets_joined (octets : List Nat) (first : Bool) {rest : List Char} (h : ∀ n ∈ octets, n < 256)
    (hrest : Stops 10 rest) :
    readOctets octets.length first (joined '.' first (octets.map (Nat.toDigits 10)) ++ rest) =
      some (octets, rest) := by
  induction octets generalizing first with
  | nil => rfl
  | cons n octets ih =>
    have hn : n < 256 := h n List.mem_cons_self
    have hstops := @stops_joined 10 '.' rfl (octets.map (Nat.toDigits 10)) _ hrest
    have hnumber := @readNumber_toDigits 10 (.inl rfl) n 3 false _ (length_toDigits_octet hn) hstops
    rw [List.length_cons, List.map_cons, readOctets, readSeparator_joined]
    simp only [Option.bind_eq_bind, Option.bind_some, hnumber, if_pos hn,
      ih false fun m hm => h m (List.mem_cons_of_mem _ hm)]

theorem displayV4_toList (n : Nat) :
    (displayV4 n).toList = joined '.' true ((digits 256 4 n).map (Nat.toDigits 10)) := by
  have hdot : "." = String.singleton '.' := rfl
  unfold displayV4
  rw [hdot, toList_intercalate, List.map_map]
  congr 1
  exact List.map_congr_left fun n _ => by simp

/-- A printed IPv4 address is read back. -/
theorem readIpv4_displayV4 (bits : BitVec 32) {rest : List Char} (hrest : Stops 10 rest) :
    readIpv4 ((displayV4 bits.toNat).toList ++ rest) = some (bits, rest) := by
  have hoctets := readOctets_joined (digits 256 4 bits.toNat) true
    (fun n hn => lt_of_mem_digits (by decide) hn) hrest
  rw [length_digits] at hoctets
  have hval : ofDigits 256 (digits 256 4 bits.toNat) = bits.toNat := by
    rw [ofDigits_digits]
    exact Nat.mod_eq_of_lt bits.isLt
  rw [readIpv4, displayV4_toList, hoctets]
  simp only [Option.map_some, hval, BitVec.ofNat_toNat, BitVec.setWidth_eq]

/-! ### IPv6 groups -/

theorem dot_mem_of_readIpv4 {cs rest : List Char} {bits : BitVec 32} (h : readIpv4 cs = some (bits, rest)) :
    '.' ∈ cs := by
  by_contra hdot
  have hnumber : ∀ n after, readNumber 10 3 false cs = some (n, after) → readChar '.' after = none := by
    intro n after hread
    obtain ⟨used, hused, -⟩ := reads_readNumber (by decide) hread
    exact readChar_of_notMem fun hmem => hdot (hused ▸ List.mem_append_right _ hmem)
  obtain ⟨⟨octets, after⟩, hoctets, -⟩ := Option.map_eq_some_iff.mp h
  unfold readOctets at hoctets
  simp only [readSeparator, if_true, Option.bind_eq_bind, Option.bind_some] at hoctets
  cases hread : readNumber 10 3 false cs with
  | none =>
    rw [hread] at hoctets
    cases hoctets
  | some number =>
    obtain ⟨n, after'⟩ := number
    have hnone := hnumber n after' hread
    rw [hread] at hoctets
    simp [readOctets, readSeparator, hnone] at hoctets

theorem readIpv4_of_notMem {cs : List Char} (h : '.' ∉ cs) : readIpv4 cs = none := by
  cases hread : readIpv4 cs with
  | none => rfl
  | some read => exact absurd (dot_mem_of_readIpv4 hread) h

/-- Nothing more is read: the text ends, or two colons follow. -/
def Ends (rest : List Char) : Prop := rest = [] ∨ ∃ tail, rest = ':' :: ':' :: tail

theorem Ends.stops {rest : List Char} (h : Ends rest) : Stops 16 rest := by
  rcases h with rfl | ⟨tail, rfl⟩
  · simp [Stops]
  · exact stops_cons rfl _

theorem readNumber_colon {radix maxDigits : Nat} {zeros : Bool} (cs : List Char) :
    readNumber radix maxDigits zeros (':' :: cs) = none := by
  have hnone : toDigit radix ':' = none := rfl
  unfold readNumber
  simp [hnone]

theorem Ends.readGroups {rest : List Char} (h : Ends rest) (hdot : '.' ∉ rest) (left : Nat) (first : Bool) :
    readGroups left first rest = ([], false, rest) := by
  cases left with
  | zero => rfl
  | succ left =>
    rcases h with rfl | ⟨tail, rfl⟩
    · cases first <;> simp [IpAddr.readGroups, readSeparator, readChar, readIpv4_of_notMem, readNumber]
    · have hquad : readIpv4 (':' :: ':' :: tail) = none := readIpv4_of_notMem hdot
      have hquad' : readIpv4 (':' :: tail) = none := readIpv4_of_notMem fun hmem => hdot (List.mem_cons_of_mem _ hmem)
      cases first <;> simp [IpAddr.readGroups, readSeparator, readChar, hquad, hquad', readNumber_colon]

theorem length_toDigits_group {n : Nat} (h : n < 65536) : (Nat.toDigits 16 n).length ≤ 4 :=
  (Nat.length_toDigits_le_iff (by decide) (by decide)).mpr (by omega)

theorem dot_notMem_joined {groups : List Nat} {first : Bool} :
    '.' ∉ joined ':' first (groups.map (Nat.toDigits 16)) := by
  have hdigit : ∀ d < 16, '.' ≠ Nat.digitChar d := by decide
  induction groups generalizing first with
  | nil => exact List.not_mem_nil
  | cons n groups ih =>
    have hn : '.' ∉ Nat.toDigits 16 n := fun hmem => by
      obtain ⟨d, hd, heq⟩ := mem_toDigits (by decide) hmem
      exact hdigit d hd heq
    cases first <;> simp [joined, hn, ih]

/-- Printed groups are read back, where there is place for them. -/
theorem readGroups_joined (groups : List Nat) (left : Nat) (first : Bool) {rest : List Char}
    (h : ∀ n ∈ groups, n < 65536) (hleft : groups.length ≤ left) (hends : Ends rest) (hdot : '.' ∉ rest) :
    readGroups left first (joined ':' first (groups.map (Nat.toDigits 16)) ++ rest) = (groups, false, rest) := by
  induction groups generalizing left first with
  | nil => exact hends.readGroups hdot left first
  | cons n groups ih =>
    obtain ⟨left, rfl⟩ : ∃ k, left = k + 1 := ⟨left - 1, by simp at hleft; omega⟩
    have hn : n < 65536 := h n List.mem_cons_self
    have hsep := readSeparator_joined ':' first (Nat.toDigits 16 n) (groups.map (Nat.toDigits 16)) rest
    have hstops := @stops_joined 16 ':' rfl (groups.map (Nat.toDigits 16)) _ hends.stops
    have hnumber := @readNumber_toDigits 16 (.inr rfl) n 4 true _ (length_toDigits_group hn) hstops
    have hdots : '.' ∉ Nat.toDigits 16 n ++ (joined ':' false (groups.map (Nat.toDigits 16)) ++ rest) := by
      have hall := @dot_notMem_joined (n :: groups) true
      simp only [List.map_cons, joined, if_true, List.mem_append, not_or] at hall
      simp [hall.1, hall.2, hdot]
    have hquad := readIpv4_of_notMem hdots
    have hrest := ih left false (fun m hm => h m (List.mem_cons_of_mem _ hm)) (Nat.le_of_succ_le_succ hleft)
    rw [List.map_cons, IpAddr.readGroups, hsep]
    simp only [Option.bind_some, hquad, ite_self, hnumber, hrest]

/-! ### The run of zeros -/

/-- All zeros from `start`, `len` of them. -/
def ZeroRun (segments : List Nat) (start len : Nat) : Prop :=
  start + len ≤ segments.length ∧ ∀ i, start ≤ i → i < start + len → segments[i]? = some 0

theorem ZeroRun.append {segments : List Nat} {start len : Nat} (h : ZeroRun segments start len) (n : Nat) :
    ZeroRun (segments ++ [n]) start len := by
  refine ⟨by simp; exact h.1.trans (Nat.le_succ _), fun i hlo hhi => ?_⟩
  rw [List.getElem?_append_left (by have := h.1; omega)]
  exact h.2 i hlo hhi

/-- A run that reaches the end grows by one more zero. -/
theorem ZeroRun.snoc {segments : List Nat} {start len : Nat} (h : ZeroRun segments start len)
    (hend : start + len = segments.length) : ZeroRun (segments ++ [0]) start (len + 1) := by
  refine ⟨by simp; omega, fun i hlo hhi => ?_⟩
  by_cases hi : i < segments.length
  · rw [List.getElem?_append_left hi]
    exact h.2 i hlo (by omega)
  · rw [List.getElem?_append_right (by omega), show i - segments.length = 0 by omega]
    rfl

/-- The longest run found is one; the run at the end is one, or is none yet. -/
structure Runs (segments : List Nat) (s : (Nat × Nat) × (Nat × Nat) × Nat) : Prop where
  longest : ZeroRun segments s.1.1 s.1.2
  current : s.2.1.2 = 0 ∨ ZeroRun segments s.2.1.1 s.2.1.2 ∧ s.2.1.1 + s.2.1.2 = segments.length
  seen : s.2.2 = segments.length

theorem zeroRun_nil (segments : List Nat) {start : Nat} (h : start ≤ segments.length) : ZeroRun segments start 0 :=
  ⟨h, fun i hlo hhi => absurd hhi (by omega)⟩

/-- One more zero begins a run at the end, or goes on with it. -/
theorem run_snoc {seen : List Nat} {start len : Nat}
    (h : len = 0 ∨ ZeroRun seen start len ∧ start + len = seen.length) :
    ZeroRun (seen ++ [0]) (if len = 0 then seen.length else start) (len + 1) ∧
      (if len = 0 then seen.length else start) + (len + 1) = (seen ++ [0]).length := by
  rw [List.length_append, List.length_singleton]
  rcases h with rfl | ⟨hrun, hend⟩
  · exact ⟨(zeroRun_nil seen (Nat.le_refl _)).snoc rfl, rfl⟩
  · by_cases hlen : len = 0
    · subst hlen
      exact ⟨(zeroRun_nil seen (Nat.le_refl _)).snoc rfl, rfl⟩
    · rw [if_neg hlen]
      exact ⟨hrun.snoc hend, by omega⟩

theorem zeroRun_longestZeros (segments : List Nat) :
    ZeroRun segments (longestZeros segments).1 (longestZeros segments).2 := by
  unfold longestZeros
  generalize hstep : (fun (s : (Nat × Nat) × (Nat × Nat) × Nat) (segment : Nat) => _) = step
  suffices hrun : ∀ rest seen s, Runs seen s → Runs (seen ++ rest) (rest.foldl step s) from
    (hrun segments [] ((0, 0), (0, 0), 0) ⟨zeroRun_nil [] (Nat.le_refl 0), .inl rfl, rfl⟩).longest
  intro rest
  induction rest with
  | nil =>
    intro seen s h
    rwa [List.append_nil]
  | cons segment rest ih =>
    intro seen s h
    have hone : Runs (seen ++ [segment]) (step s segment) := by
      obtain ⟨longest, current, i⟩ := s
      obtain ⟨hlongest, hcurrent, hseen⟩ := h
      dsimp only at hlongest hcurrent hseen
      subst hstep hseen
      dsimp only
      by_cases hzero : segment = 0
      · have hrun := run_snoc hcurrent
        rw [if_pos hzero, hzero]
        generalize (if current.2 = 0 then seen.length else current.1) = start at hrun ⊢
        split_ifs
        · exact ⟨hrun.1, .inr hrun, by simp⟩
        · exact ⟨hlongest.append 0, .inr hrun, by simp⟩
      · rw [if_neg hzero]
        exact ⟨hlongest.append segment, .inl rfl, by simp⟩
    have hrest := ih (seen ++ [segment]) (step s segment) hone
    rwa [List.append_assoc] at hrest

theorem ZeroRun.split {segments : List Nat} {start len : Nat} (h : ZeroRun segments start len) :
    segments = segments.take start ++ List.replicate len 0 ++ segments.drop (start + len) := by
  have hmid : (segments.drop start).take len = List.replicate len 0 := by
    refine List.ext_getElem? fun i => ?_
    rw [List.getElem?_take, List.getElem?_replicate]
    split_ifs with hi
    · rw [List.getElem?_drop]
      exact h.2 (start + i) (Nat.le_add_right _ _) (by omega)
    · rfl
  rw [← hmid, List.append_assoc, ← List.drop_drop, List.take_append_drop, List.take_append_drop]

/-! ### IPv6 -/

theorem displayV6_groups (groups : List Nat) :
    (":".intercalate (groups.map hex)).toList = joined ':' true (groups.map (Nat.toDigits 16)) := by
  have hcolon : ":" = String.singleton ':' := rfl
  rw [hcolon, toList_intercalate, List.map_map]
  congr 1
  exact List.map_congr_left fun n _ => by simp [hex]

/-- The eight groups of an address give it. -/
theorem ofDigits_groups (bits : BitVec 128) :
    BitVec.ofNat 128 (ofDigits 65536 (digits 65536 8 bits.toNat)) = bits := by
  have hval : ofDigits 65536 (digits 65536 8 bits.toNat) = bits.toNat := by
    rw [ofDigits_digits]
    exact Nat.mod_eq_of_lt bits.isLt
  rw [hval, BitVec.ofNat_toNat, BitVec.setWidth_eq]

theorem readIpv4_colon (cs : List Char) : readIpv4 (':' :: cs) = none := by
  simp [readIpv4, readOctets, readSeparator, readNumber_colon]

/-- An address with a run of zeros left out is read back. -/
theorem readIpv6_compressed {head tail : List Nat} {len : Nat} (hlen : 1 < len)
    (hcount : head.length + len + tail.length = 8) (hhead : ∀ n ∈ head, n < 65536)
    (htail : ∀ n ∈ tail, n < 65536) :
    readIpv6 (joined ':' true (head.map (Nat.toDigits 16)) ++
        (':' :: ':' :: joined ':' true (tail.map (Nat.toDigits 16)))) =
      some (BitVec.ofNat 128 (ofDigits 65536 (head ++ List.replicate len 0 ++ tail)), []) := by
  have hrest : '.' ∉ ':' :: ':' :: joined ':' true (tail.map (Nat.toDigits 16)) := by
    simp [dot_notMem_joined]
  have hfirst := readGroups_joined head 8 true hhead (by omega) (.inr ⟨_, rfl⟩) hrest
  have hsecond := readGroups_joined tail (8 - (head.length + 1)) true htail (by omega) (.inl rfl) List.not_mem_nil
  rw [List.append_nil] at hsecond
  have hne : head.length ≠ 8 := by omega
  have hzeros : 8 - head.length - tail.length = len := by omega
  rw [readIpv6, hfirst]
  simp only [if_neg hne, Bool.false_eq_true, if_false, readChar, if_true, Option.bind_eq_bind, Option.bind_some,
    hsecond, hzeros]

/-- An address that holds an IPv4 address is read back from `::ffff:` and it. -/
theorem readIpv6_mapped (quad : BitVec 32) :
    readIpv6 ("::ffff:".toList ++ (displayV4 quad.toNat).toList) =
      some (BitVec.ofNat 128 (ofDigits 65536 [0, 0, 0, 0, 0, 0xffff, quad.toNat / 65536, quad.toNat % 65536]), []) := by
  have hv4 := @readIpv4_displayV4 quad [] (by simp [Stops])
  rw [List.append_nil] at hv4
  have hffff : Nat.toDigits 16 65535 = ['f', 'f', 'f', 'f'] := by decide
  have hnumber : readNumber 16 4 true ('f' :: 'f' :: 'f' :: 'f' :: ':' :: (displayV4 quad.toNat).toList) =
      some (65535, ':' :: (displayV4 quad.toNat).toList) := by
    have hstops := @stops_cons 16 ':' rfl (displayV4 quad.toNat).toList
    have hread := @readNumber_toDigits 16 (.inr rfl) 65535 4 true _ (by rw [hffff]; decide) hstops
    rwa [hffff] at hread
  have hquad : readIpv4 ('f' :: 'f' :: 'f' :: 'f' :: ':' :: (displayV4 quad.toNat).toList) = none := by
    have hnone : toDigit 10 'f' = none := rfl
    simp [readIpv4, readOctets, readSeparator, readNumber, hnone]
  have hlast : readGroups 6 false (':' :: (displayV4 quad.toNat).toList) =
      ([quad.toNat / 65536, quad.toNat % 65536], true, []) := by
    rw [readGroups]
    simp [readSeparator, readChar, hv4]
  have htail : readGroups 7 true ('f' :: 'f' :: 'f' :: 'f' :: ':' :: (displayV4 quad.toNat).toList) =
      ([65535, quad.toNat / 65536, quad.toNat % 65536], true, []) := by
    rw [readGroups]
    simp only [readSeparator, if_true, Option.bind_some, hquad, ite_self, hnumber, hlast]
  have hcolons : "::ffff:".toList = [':', ':', 'f', 'f', 'f', 'f', ':'] := rfl
  have hhead : readGroups 8 true (':' :: ':' :: 'f' :: 'f' :: 'f' :: 'f' :: ':' :: (displayV4 quad.toNat).toList) =
      ([], false, ':' :: ':' :: 'f' :: 'f' :: 'f' :: 'f' :: ':' :: (displayV4 quad.toNat).toList) := by
    have hnone : toDigit 10 ':' = none := rfl
    rw [readGroups]
    simp [readSeparator, readNumber_colon, readIpv4, readOctets]
  rw [readIpv6, hcolons]
  simp only [List.cons_append, List.nil_append, hhead]
  simp [readChar, htail]

theorem parse_of_readIpv4 {s : String} {bits : BitVec 32} (h : readIpv4 s.toList = some (bits, [])) :
    parse s = some (.v4 bits) := by simp [parse, h]

theorem parse_of_readIpv6 {s : String} {bits : BitVec 128} (hv4 : readIpv4 s.toList = none)
    (h : readIpv6 s.toList = some (bits, [])) : parse s = some (.v6 bits) := by simp [parse, hv4, h]

theorem parse_displayV4 (bits : BitVec 32) : parse (displayV4 bits.toNat) = some (.v4 bits) := by
  have hread := @readIpv4_displayV4 bits [] (by simp [Stops])
  rw [List.append_nil] at hread
  exact parse_of_readIpv4 hread

/-- Eight groups are read back, with a run of zeros left out or none. -/
theorem parse_groups {segments : List Nat} {start len : Nat} {bits : BitVec 128} (hlength : segments.length = 8)
    (hlt : ∀ n ∈ segments, n < 65536) (hrun : ZeroRun segments start len)
    (hbits : BitVec.ofNat 128 (ofDigits 65536 segments) = bits) :
    parse (if 1 < len then ":".intercalate ((segments.take start).map hex) ++ "::" ++
        ":".intercalate ((segments.drop (start + len)).map hex)
      else ":".intercalate (segments.map hex)) = some (.v6 bits) := by
  split_ifs with hlong
  · have hsplit := hrun.split
    have hcount := congrArg List.length hsplit
    have hhead : ∀ n ∈ segments.take start, n < 65536 := fun n hn => hlt n (List.mem_of_mem_take hn)
    have htail : ∀ n ∈ segments.drop (start + len), n < 65536 := fun n hn => hlt n (List.mem_of_mem_drop hn)
    generalize segments.take start = head at hsplit hcount hhead ⊢
    generalize segments.drop (start + len) = tail at hsplit hcount htail ⊢
    simp only [List.length_append, List.length_replicate, hlength] at hcount
    have hread := readIpv6_compressed hlong hcount.symm hhead htail
    rw [← hsplit, hbits] at hread
    have htext : (":".intercalate (head.map hex) ++ "::" ++ ":".intercalate (tail.map hex)).toList =
        joined ':' true (head.map (Nat.toDigits 16)) ++
          (':' :: ':' :: joined ':' true (tail.map (Nat.toDigits 16))) := by
      rw [String.toList_append, String.toList_append, displayV6_groups, displayV6_groups]
      simp
    refine parse_of_readIpv6 (readIpv4_of_notMem ?_) ?_
    · rw [htext]
      simp [dot_notMem_joined]
    · rw [htext, hread]
  · have hread := readGroups_joined segments 8 true hlt (by omega) (.inl rfl) List.not_mem_nil
    rw [List.append_nil, ← displayV6_groups] at hread
    refine parse_of_readIpv6 (readIpv4_of_notMem ?_) ?_
    · rw [displayV6_groups]
      exact dot_notMem_joined
    · rw [readIpv6, hread]
      simp [hlength, hbits]

/-- The groups of an address that holds an IPv4 address. -/
theorem digits_mapped {n : Nat} (h : (digits 65536 8 n).take 6 = [0, 0, 0, 0, 0, 0xffff]) :
    digits 65536 8 n = [0, 0, 0, 0, 0, 0xffff, n % 2 ^ 32 / 65536, n % 2 ^ 32 % 65536] := by
  have hdrop : (digits 65536 8 n).drop 6 = [n / 65536 % 65536, n % 65536] := by
    simp [digits]
  have hhigh : n / 65536 % 65536 = n % 2 ^ 32 / 65536 := by omega
  have hlow : n % 65536 = n % 2 ^ 32 % 65536 := by omega
  rw [← List.take_append_drop 6 (digits 65536 8 n), h, hdrop, hhigh, hlow]
  rfl

theorem parse_displayV6 (bits : BitVec 128) : parse (displayV6 bits.toNat) = some (.v6 bits) := by
  have hgroups := ofDigits_groups bits
  have hlt : ∀ n ∈ digits 65536 8 bits.toNat, n < 65536 := fun n hn => lt_of_mem_digits (by decide) hn
  unfold displayV6
  dsimp only
  by_cases hmapped : (digits 65536 8 bits.toNat).take 6 = [0, 0, 0, 0, 0, 0xffff]
  · have hquad : (BitVec.ofNat 32 (bits.toNat % 2 ^ 32)).toNat = bits.toNat % 2 ^ 32 := by simp
    have hread := readIpv6_mapped (BitVec.ofNat 32 (bits.toNat % 2 ^ 32))
    rw [hquad, ← digits_mapped hmapped, hgroups, ← String.toList_append] at hread
    rw [if_pos hmapped]
    refine parse_of_readIpv6 ?_ hread
    rw [String.toList_append]
    exact readIpv4_colon _
  · rw [if_neg hmapped]
    exact parse_groups (length_digits 65536 8 bits.toNat) hlt (zeroRun_longestZeros _) hgroups

/-- A printed address is read back. -/
theorem parse_display (ip : IpAddr) : parse ip.display = some ip := by
  cases ip with
  | v4 bits => exact parse_displayV4 bits
  | v6 bits => exact parse_displayV6 bits

end NlinkLab.IpAddr

namespace NlinkLab

/-- A printed number is read back where it fits. -/
theorem parseUnsigned_toString {bound n : Nat} (h : n < bound) : parseUnsigned bound (toString n) = .ok n := by
  obtain ⟨ds, hds, hval⟩ := IpAddr.mapM_toDigits (.inl rfl) n
  have hlist : (toString n).toList = Nat.toDigits 10 n := by simp
  have hne : toString n ≠ "" := fun heq => Nat.toDigits_ne_nil (by rw [← hlist, heq]; rfl)
  have hplus : '+' ∉ (toString n).toList := notMem_toString rfl n
  have hdigits : unsignedDigits (toString n).toList = (toString n).toList := by
    unfold unsignedDigits
    split
    · rename_i hcons
      exact absurd (hcons ▸ List.mem_cons_self) hplus
    · rfl
  refine parseUnsigned_eq_ok.mpr ⟨hne, ds, ?_, hval, h⟩
  rw [hdigits, hlist, hds]

/-- A printed CIDR is read back. -/
theorem parseCidr_display {ip : IpAddr} {len : Nat} (h : len ≤ addrBits ip) :
    parseCidr (toString ip ++ "/" ++ toString len) = .ok (ip, len) := by
  have hslash : '/' ∉ (toString len).toList := notMem_toString rfl len
  have hbits : addrBits ip ≤ 128 := by cases ip <;> simp [addrBits, IpAddr.isIpv4]
  have hcut : rsplitOnce (toString ip ++ "/" ++ toString len) '/' = some (toString ip, toString len) :=
    rsplitOnce_append hslash
  have hip : IpAddr.parse (toString ip) = some ip := IpAddr.parse_display ip
  unfold parseCidr
  rw [hcut]
  dsimp only
  rw [hip, parseUnsigned_toString (by omega)]
  exact if_neg (by omega)

end NlinkLab
