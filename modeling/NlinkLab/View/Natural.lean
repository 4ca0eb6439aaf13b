import Mathlib

/-! The natural order of names (`layout.rs` of the views): runs of digits compare as
numbers, other text as text. A chunk has a key in a linear order, a name the list of
its chunks' keys, so that the order is one of keys and, among names of equal keys, the
plain one. -/

namespace NlinkLab.View

/-! ### Chunks -/

/-- The runs of digits and of other characters, the one begun in `chunk`. -/
def chunksFrom (digits : Bool) (chunk : List Char) : List Char → List (Bool × String)
  | [] => [(digits, String.ofList chunk)]
  | c :: cs =>
    if c.isDigit ≠ digits then (digits, String.ofList chunk) :: chunksFrom c.isDigit [c] cs
    else chunksFrom digits (chunk ++ [c]) cs

def chunks (s : String) : List (Bool × String) :=
  match s.toList with
  | [] => []
  | c :: cs => chunksFrom c.isDigit [c] cs

def trimZeros (s : String) : String := String.ofList (s.toList.dropWhile (· = '0'))

/-- Two runs of digits as numbers, other chunks as text. -/
def cmpChunk (x y : Bool × String) : Ordering :=
  if x.1 ∧ y.1 then
    (compare (trimZeros x.2).length (trimZeros y.2).length).then (compare (trimZeros x.2) (trimZeros y.2))
  else compare x.2 y.2

/-- The first difference of two lists of chunks, as far as both go. -/
def cmpChunks : List (Bool × String) → List (Bool × String) → Ordering
  | x :: xs, y :: ys => (cmpChunk x y).then (cmpChunks xs ys)
  | _, _ => .eq

/-- `a` before `b` with their numbers compared as numbers: `sat2` before `sat10`. -/
def natural (a b : String) : Ordering :=
  (cmpChunks (chunks a) (chunks b)).then
    ((compare (chunks a).length (chunks b).length).then (compare a b))

/-! ### Numbers -/

/-- The value of a digit. -/
def digit (c : Char) : ℕ := c.toNat - '0'.toNat

/-- The number that digits spell. -/
def spelled (cs : List Char) : ℕ := cs.foldl (fun n c => n * 10 + digit c) 0

def number (s : String) : ℕ := spelled s.toList

/-- A run of digits. -/
def IsRun (s : String) : Prop := s ≠ "" ∧ ∀ c ∈ s.toList, c.isDigit

theorem foldl_digits (cs : List Char) (n : ℕ) :
    cs.foldl (fun n c => n * 10 + digit c) n = n * 10 ^ cs.length + spelled cs := by
  unfold spelled
  induction cs generalizing n with
  | nil => simp
  | cons c cs ih =>
    rw [List.foldl_cons, ih, List.foldl_cons, ih (0 * 10 + digit c), List.length_cons, pow_succ]
    ring

theorem spelled_cons (c : Char) (cs : List Char) :
    spelled (c :: cs) = digit c * 10 ^ cs.length + spelled cs := by
  have h := foldl_digits cs (digit c)
  rw [← h, spelled, List.foldl_cons, Nat.zero_mul, Nat.zero_add]

theorem digit_bounds {c : Char} (h : c.isDigit) : digit c + 48 = c.toNat ∧ digit c < 10 := by
  have hc := Char.isDigit_iff_toNat.mp h
  have h0 : '0'.toNat = 48 := by decide
  have h9 : '9'.toNat = 57 := by decide
  unfold digit
  omega

theorem digit_lt_digit {c d : Char} (hc : c.isDigit) (hd : d.isDigit) : digit c < digit d ↔ c < d := by
  have hc := digit_bounds hc
  have hd := digit_bounds hd
  have hlt : c < d ↔ c.toNat < d.toNat := Iff.rfl
  rw [hlt]
  omega

theorem spelled_lt {cs : List Char} (h : ∀ c ∈ cs, c.isDigit) : spelled cs < 10 ^ cs.length := by
  induction cs with
  | nil => simp [spelled]
  | cons c cs ih =>
    have hlt := ih fun d hd => h d (List.mem_cons_of_mem _ hd)
    have hc := (digit_bounds (h c List.mem_cons_self)).2
    rw [spelled_cons, List.length_cons, pow_succ]
    calc digit c * 10 ^ cs.length + spelled cs < (digit c + 1) * 10 ^ cs.length := by linarith
      _ ≤ 10 * 10 ^ cs.length := Nat.mul_le_mul_right _ hc
      _ = 10 ^ cs.length * 10 := Nat.mul_comm _ _

/-- Digits without a leading zero spell no less than the power of ten of their number. -/
theorem pow_le_spelled {c : Char} {cs : List Char} (h : c.isDigit) (hz : c ≠ '0') :
    10 ^ cs.length ≤ spelled (c :: cs) := by
  have hpos : 1 ≤ digit c := by
    have hc := (digit_bounds h).1
    have hne : c.toNat ≠ 48 := fun heq => hz (Char.toNat_inj.mp heq)
    omega
  rw [spelled_cons]
  calc 10 ^ cs.length = 1 * 10 ^ cs.length := (Nat.one_mul _).symm
    _ ≤ digit c * 10 ^ cs.length := Nat.mul_le_mul_right _ hpos
    _ ≤ digit c * 10 ^ cs.length + spelled cs := Nat.le_add_right _ _

/-- A greater first digit spells more. -/
theorem spelled_lt_of_digit_lt {c d : Char} {xs ys : List Char} (hlen : xs.length = ys.length)
    (hx : ∀ c ∈ xs, c.isDigit) (h : digit c < digit d) : spelled (c :: xs) < spelled (d :: ys) := by
  have hlt := spelled_lt hx
  rw [spelled_cons, spelled_cons, ← hlen]
  calc digit c * 10 ^ xs.length + spelled xs < (digit c + 1) * 10 ^ xs.length := by linarith
    _ ≤ digit d * 10 ^ xs.length := Nat.mul_le_mul_right _ h
    _ ≤ digit d * 10 ^ xs.length + spelled ys := Nat.le_add_right _ _

/-- As many digits spell less exactly when they come first as text. -/
theorem spelled_lt_iff {xs ys : List Char} (hlen : xs.length = ys.length) (hx : ∀ c ∈ xs, c.isDigit)
    (hy : ∀ c ∈ ys, c.isDigit) : spelled xs < spelled ys ↔ xs < ys := by
  induction xs generalizing ys with
  | nil =>
    obtain rfl := List.length_eq_zero_iff.mp hlen.symm
    simp
  | cons c xs ih =>
    obtain ⟨d, ys, rfl⟩ := List.exists_cons_of_length_eq_add_one hlen.symm
    have hlen' : xs.length = ys.length := Nat.succ.inj hlen
    have hc := hx c List.mem_cons_self
    have hd := hy d List.mem_cons_self
    have hx := fun e he => hx e (List.mem_cons_of_mem _ he)
    have hy := fun e he => hy e (List.mem_cons_of_mem _ he)
    rw [List.cons_lt_cons_iff, ← ih hlen' hx hy]
    rcases lt_trichotomy c d with hlt | rfl | hgt
    · exact iff_of_true (spelled_lt_of_digit_lt hlen' hx ((digit_lt_digit hc hd).mpr hlt)) (.inl hlt)
    · rw [spelled_cons, spelled_cons, hlen']
      simp
    · have hspelled := spelled_lt_of_digit_lt hlen'.symm hy ((digit_lt_digit hd hc).mpr hgt)
      refine iff_of_false (Nat.lt_asymm hspelled) ?_
      rintro (h | ⟨rfl, -⟩)
      · exact lt_asymm hgt h
      · exact lt_irrefl _ hgt

/-- Runs without leading zeros are ordered as numbers: first by length, then as text. -/
theorem cmp_spelled {xs ys : List Char} (hx : ∀ c ∈ xs, c.isDigit) (hy : ∀ c ∈ ys, c.isDigit)
    (hzx : xs.head? ≠ some '0') (hzy : ys.head? ≠ some '0') :
    (compare xs.length ys.length).then (compare (String.ofList xs) (String.ofList ys)) =
      compare (spelled xs) (spelled ys) := by
  -- a shorter run spells less than the power of ten that a longer one reaches
  have hshort : ∀ {xs ys : List Char}, (∀ c ∈ xs, c.isDigit) → (∀ c ∈ ys, c.isDigit) → ys.head? ≠ some '0' →
      xs.length < ys.length → spelled xs < spelled ys := by
    intro xs ys hx hy hzy hlt
    cases ys with
    | nil => exact absurd hlt (Nat.not_lt_zero _)
    | cons c ys =>
      have hge : 10 ^ ys.length ≤ spelled (c :: ys) :=
        pow_le_spelled (hy c List.mem_cons_self) fun hc => hzy (congrArg some hc)
      calc spelled xs < 10 ^ xs.length := spelled_lt hx
        _ ≤ 10 ^ ys.length := Nat.pow_le_pow_right (by decide) (Nat.lt_succ_iff.mp hlt)
        _ ≤ spelled (c :: ys) := hge
  rcases lt_trichotomy xs.length ys.length with hlt | heq | hgt
  · rw [Nat.compare_eq_lt.mpr hlt, Nat.compare_eq_lt.mpr (hshort hx hy hzy hlt)]
    rfl
  · rw [Nat.compare_eq_eq.mpr heq, Ordering.eq_then]
    have hlt := spelled_lt_iff heq hx hy
    have hgt := spelled_lt_iff heq.symm hy hx
    have htext : ∀ l l' : List Char, String.ofList l < String.ofList l' ↔ l < l' := by
      intro l l'
      rw [String.lt_iff_toList_lt, String.toList_ofList, String.toList_ofList]
    rcases lt_trichotomy (spelled xs) (spelled ys) with h | h | h
    · rw [Nat.compare_eq_lt.mpr h]
      exact compare_lt_iff_lt.mpr ((htext _ _).mpr (hlt.mp h))
    · have hxs : xs = ys := by
        rcases lt_trichotomy xs ys with h' | h' | h'
        · exact absurd (hlt.mpr h') (by omega)
        · exact h'
        · exact absurd (hgt.mpr h') (by omega)
      rw [Nat.compare_eq_eq.mpr h, hxs]
      exact Std.ReflCmp.compare_self
    · rw [Nat.compare_eq_gt.mpr h]
      exact compare_gt_iff_gt.mpr ((htext _ _).mpr (hgt.mp h))
  · rw [Nat.compare_eq_gt.mpr hgt, Nat.compare_eq_gt.mpr (hshort hy hx hzx hgt)]
    rfl

theorem spelled_dropWhile (cs : List Char) : spelled (cs.dropWhile (· = '0')) = spelled cs := by
  induction cs with
  | nil => rfl
  | cons c cs ih =>
    by_cases hc : c = '0'
    · subst hc
      have hzero : digit '0' = 0 := by decide
      rw [List.dropWhile_cons_of_pos (by decide), ih, spelled_cons, hzero, Nat.zero_mul, Nat.zero_add]
    · rw [List.dropWhile_cons_of_neg (by simpa using hc)]

/-! ### Keys -/

/-- What a chunk of a name is: some text, all digits or none. -/
structure IsChunk (x : Bool × String) : Prop where
  ne : x.2 ≠ ""
  kind : ∀ c ∈ x.2.toList, c.isDigit = x.1

/-- Text before the digits, numbers, and text after the digits. -/
def band (x : Bool × String) : ℕ :=
  if x.1 then 1 else if x.2 < "0" then 0 else 2

/-- Chunks compared by where they are among the digits, as numbers and as text. -/
def cmpKey : Bool × String → Bool × String → Ordering :=
  compareLex (compareOn band) (compareLex (compareOn fun x => if x.1 then number x.2 else 0)
    (compareOn fun x => if x.1 then "" else x.2))

instance : Std.TransCmp cmpKey := inferInstanceAs (Std.TransCmp (compareLex _ _))

theorem cmpChunk_of_digits {x y : String} (hx : IsChunk (true, x)) (hy : IsChunk (true, y)) :
    cmpChunk (true, x) (true, y) = compare (number x) (number y) := by
  have hdigits : ∀ {s : String}, IsChunk (true, s) → ∀ c ∈ s.toList.dropWhile (· = '0'), c.isDigit :=
    fun h c hc => h.kind c (List.dropWhile_subset _ hc)
  have hhead : ∀ s : String, (s.toList.dropWhile (· = '0')).head? ≠ some '0' := by
    intro s hs
    have hnot := List.head?_dropWhile_not (· = '0') s.toList
    rw [hs] at hnot
    exact absurd hnot (by decide)
  unfold cmpChunk trimZeros number
  rw [if_pos ⟨rfl, rfl⟩, String.length_ofList, String.length_ofList,
    cmp_spelled (hdigits hx) (hdigits hy) (hhead x) (hhead y), spelled_dropWhile, spelled_dropWhile]

/-- Texts whose first characters differ are ordered by these. -/
theorem compare_of_heads {a b : Char} {x y : String} (hx : x.toList.head? = some a)
    (hy : y.toList.head? = some b) (h : a < b) : compare x y = .lt := by
  obtain ⟨as, has⟩ := List.head?_eq_some_iff.mp hx
  obtain ⟨bs, hbs⟩ := List.head?_eq_some_iff.mp hy
  refine compare_lt_iff_lt.mpr (String.lt_iff_toList_lt.mpr ?_)
  rw [has, hbs]
  exact List.cons_lt_cons_iff.mpr (.inl h)

theorem IsChunk.head {x : Bool × String} (h : IsChunk x) :
    ∃ c, x.2.toList.head? = some c ∧ c.isDigit = x.1 := by
  cases hx : x.2.toList with
  | nil => exact absurd (String.toList_eq_nil_iff.mp hx) h.ne
  | cons c cs => exact ⟨c, rfl, h.kind c (by rw [hx]; exact List.mem_cons_self)⟩

theorem not_isDigit {c : Char} (h : c.isDigit = false) : c < '0' ∨ '9' < c := by
  by_contra hc
  rw [not_or, not_lt, not_lt] at hc
  have hd := Char.isDigit_iff_toNat.mpr ⟨hc.1, hc.2⟩
  rw [h] at hd
  cases hd

/-- A chunk without digits, before or after them. -/
theorem IsChunk.band_text {x : String} (h : IsChunk (false, x)) :
    ∃ c, x.toList.head? = some c ∧ ((c < '0' ∧ band (false, x) = 0) ∨ ('9' < c ∧ band (false, x) = 2)) := by
  obtain ⟨c, hc, hkind⟩ := h.head
  refine ⟨c, hc, ?_⟩
  have hzero : "0".toList.head? = some '0' := rfl
  rcases not_isDigit hkind with hlt | hgt
  · exact .inl ⟨hlt, if_pos (compare_lt_iff_lt.mp (compare_of_heads hc hzero hlt))⟩
  · have hlt : '0' < c := lt_trans (by decide) hgt
    exact .inr ⟨hgt, if_neg (lt_asymm (compare_lt_iff_lt.mp (compare_of_heads hzero hc hlt)))⟩

theorem cmpKey_of_band_lt {x y : Bool × String} (h : band x < band y) : cmpKey x y = .lt := by
  unfold cmpKey compareLex compareOn
  rw [Nat.compare_eq_lt.mpr h]
  rfl

theorem cmpKey_of_band_gt {x y : Bool × String} (h : band y < band x) : cmpKey x y = .gt := by
  unfold cmpKey compareLex compareOn
  rw [Nat.compare_eq_gt.mpr h]
  rfl

theorem compare_gt_of_heads {a b : Char} {x y : String} (hx : x.toList.head? = some a)
    (hy : y.toList.head? = some b) (h : b < a) : compare x y = .gt :=
  compare_gt_iff_gt.mpr (compare_lt_iff_lt.mp (compare_of_heads hy hx h))

/-- Chunks are ordered as their keys. -/
theorem cmpChunk_eq {x y : Bool × String} (hx : IsChunk x) (hy : IsChunk y) : cmpChunk x y = cmpKey x y := by
  obtain ⟨kx, x⟩ := x
  obtain ⟨ky, y⟩ := y
  -- the first character of a run, among the digits
  have hrun : ∀ {s : String}, IsChunk (true, s) → ∃ c, s.toList.head? = some c ∧ '0' ≤ c ∧ c ≤ '9' := by
    intro s hs
    obtain ⟨c, hc, hkind⟩ := hs.head
    exact ⟨c, hc, Char.isDigit_iff_toNat.mp hkind⟩
  cases kx <;> cases ky
  · obtain ⟨a, ha, hband⟩ := hx.band_text
    obtain ⟨b, hb, hband'⟩ := hy.band_text
    have htext : cmpChunk (false, x) (false, y) = compare x y := rfl
    rw [htext]
    rcases hband with ⟨hlt, h⟩ | ⟨hgt, h⟩ <;> rcases hband' with ⟨hlt', h'⟩ | ⟨hgt', h'⟩
    · unfold cmpKey compareLex compareOn
      rw [h, h']
      rfl
    · rw [cmpKey_of_band_lt (by omega)]
      exact compare_of_heads ha hb (hlt.trans (lt_trans (by decide) hgt'))
    · rw [cmpKey_of_band_gt (by omega)]
      exact compare_gt_of_heads ha hb (hlt'.trans (lt_trans (by decide) hgt))
    · unfold cmpKey compareLex compareOn
      rw [h, h']
      rfl
  · obtain ⟨a, ha, hband⟩ := hx.band_text
    obtain ⟨b, hb, hle, hge⟩ := hrun hy
    have hone : band (true, y) = 1 := rfl
    have htext : cmpChunk (false, x) (true, y) = compare x y := rfl
    rw [htext]
    rcases hband with ⟨hlt, h⟩ | ⟨hgt, h⟩
    · rw [cmpKey_of_band_lt (by omega)]
      exact compare_of_heads ha hb (hlt.trans_le hle)
    · rw [cmpKey_of_band_gt (by omega)]
      exact compare_gt_of_heads ha hb (hge.trans_lt hgt)
  · obtain ⟨a, ha, hle, hge⟩ := hrun hx
    obtain ⟨b, hb, hband⟩ := hy.band_text
    have hone : band (true, x) = 1 := rfl
    have htext : cmpChunk (true, x) (false, y) = compare x y := rfl
    rw [htext]
    rcases hband with ⟨hlt, h⟩ | ⟨hgt, h⟩
    · rw [cmpKey_of_band_gt (by omega)]
      exact compare_gt_of_heads ha hb (hlt.trans_le hle)
    · rw [cmpKey_of_band_lt (by omega)]
      exact compare_of_heads ha hb (hge.trans_lt hgt)
  · rw [cmpChunk_of_digits hx hy]
    unfold cmpKey compareLex compareOn
    have hband : compare (band (true, x)) (band (true, y)) = .eq := rfl
    have htext : compare "" "" = .eq := rfl
    dsimp only
    rw [hband, if_pos rfl, if_pos rfl, if_pos rfl, if_pos rfl, htext, Ordering.eq_then, Ordering.then_eq]

theorem isChunk_of_chunksFrom {digits : Bool} {chunk : List Char} (cs : List Char) (hne : chunk ≠ [])
    (hkind : ∀ c ∈ chunk, c.isDigit = digits) : ∀ x ∈ chunksFrom digits chunk cs, IsChunk x := by
  have hchunk : ∀ {digits : Bool} {chunk : List Char}, chunk ≠ [] → (∀ c ∈ chunk, c.isDigit = digits) →
      IsChunk (digits, String.ofList chunk) := by
    intro digits chunk hne hkind
    exact ⟨fun h => hne (by simpa using congrArg String.toList h), by simpa using hkind⟩
  induction cs generalizing digits chunk with
  | nil =>
    intro x hx
    obtain rfl := List.mem_singleton.mp hx
    exact hchunk hne hkind
  | cons c cs ih =>
    intro x hx
    simp only [chunksFrom] at hx
    split_ifs at hx with hc
    · rcases List.mem_cons.mp hx with rfl | hx
      · exact hchunk hne hkind
      · exact ih (List.cons_ne_nil _ _) (by simp) x hx
    · refine ih (by simp) (fun d hd => ?_) x hx
      rcases List.mem_append.mp hd with hd | hd
      · exact hkind d hd
      · rw [List.mem_singleton.mp hd]
        exact not_not.mp hc

theorem isChunk_of_chunks (s : String) : ∀ x ∈ chunks s, IsChunk x := by
  unfold chunks
  split
  · exact fun x hx => absurd hx List.not_mem_nil
  · exact isChunk_of_chunksFrom _ (List.cons_ne_nil _ _) (by simp)

/-- Lists of chunks are ordered by their keys, a list before what continues it. -/
theorem cmpChunks_eq {xs ys : List (Bool × String)} (hx : ∀ x ∈ xs, IsChunk x) (hy : ∀ y ∈ ys, IsChunk y) :
    (cmpChunks xs ys).then (compare xs.length ys.length) = List.compareLex cmpKey xs ys := by
  induction xs generalizing ys with
  | nil => cases ys <;> rfl
  | cons x xs ih =>
    cases ys with
    | nil => rfl
    | cons y ys =>
      have hlength : compare (x :: xs).length (y :: ys).length = compare xs.length ys.length := by
        simp only [List.length_cons, Nat.compare_eq_ite_lt, Nat.add_lt_add_iff_right]
      have ih := ih (fun x' h => hx x' (List.mem_cons_of_mem _ h)) fun y' h => hy y' (List.mem_cons_of_mem _ h)
      have hkey := cmpChunk_eq (hx x List.mem_cons_self) (hy y List.mem_cons_self)
      rw [cmpChunks, Ordering.then_assoc, hlength, ih, hkey, List.compareLex_cons_cons]

/-- Names by the keys of their chunks. -/
def cmpKeys (a b : String) : Ordering := List.compareLex cmpKey (chunks a) (chunks b)

instance : Std.TransCmp cmpKeys where
  eq_swap {a b} := Std.OrientedCmp.eq_swap (a := chunks a) (b := chunks b)
  isLE_trans {a b c} := Std.TransCmp.isLE_trans (a := chunks a) (b := chunks b) (c := chunks c)

/-- The order of names is that of their keys, then the plain one. -/
theorem natural_eq : natural = compareLex cmpKeys compare := by
  funext a b
  unfold natural compareLex cmpKeys
  rw [← cmpChunks_eq (isChunk_of_chunks a) (isChunk_of_chunks b), Ordering.then_assoc]

instance : Std.TransCmp natural := by
  rw [natural_eq]
  infer_instance

instance : Std.LawfulEqCmp natural where
  eq_of_compare h := by
    rw [natural_eq, compareLex_eq_eq] at h
    exact Std.LawfulEqOrd.eq_of_compare h.2

/-! ### Names that differ in one number -/

/-- A chunk takes in what is of its kind. -/
theorem chunksFrom_append {digits : Bool} {xs : List Char} (h : ∀ c ∈ xs, c.isDigit = digits)
    (chunk ys : List Char) : chunksFrom digits chunk (xs ++ ys) = chunksFrom digits (chunk ++ xs) ys := by
  induction xs generalizing chunk with
  | nil => simp
  | cons c xs ih =>
    have hc := h c List.mem_cons_self
    rw [List.cons_append, chunksFrom, if_neg (not_not.mpr hc), ih (fun d hd => h d (List.mem_cons_of_mem _ hd)),
      List.append_assoc, List.singleton_append]

/-- A run ends where no digit follows. -/
theorem chunksFrom_digits {s : List Char} (hs : ∀ c, s.head? = some c → c.isDigit = false) (chunk : List Char) :
    chunksFrom true chunk s = (true, String.ofList chunk) :: chunks (String.ofList s) := by
  unfold chunks
  rw [String.toList_ofList]
  cases s with
  | nil => rfl
  | cons c cs =>
    have hc := hs c rfl
    rw [chunksFrom, if_pos (by rw [hc]; decide)]

/-- A run between others is a chunk, and the others are as they are whatever the run. -/
theorem exists_chunksFrom (digits : Bool) (chunk : List Char) {ps s : List Char} (hnil : ps = [] → digits = false)
    (hp : ∀ c, ps.getLast? = some c → c.isDigit = false) (hs : ∀ c, s.head? = some c → c.isDigit = false) :
    ∃ before, ∀ x, IsRun x → chunksFrom digits chunk (ps ++ (x.toList ++ s)) =
      before ++ (true, x) :: chunks (String.ofList s) := by
  induction ps generalizing digits chunk with
  | nil =>
    obtain rfl := hnil rfl
    refine ⟨[(false, String.ofList chunk)], fun x hx => ?_⟩
    cases hlist : x.toList with
    | nil => exact absurd (String.toList_eq_nil_iff.mp hlist) hx.1
    | cons c cs =>
      have hdigits : ∀ d ∈ c :: cs, d.isDigit := hlist ▸ hx.2
      have hc := hdigits c List.mem_cons_self
      have hx : x = String.ofList (c :: cs) := by rw [← hlist, String.ofList_toList]
      rw [List.nil_append, List.cons_append, chunksFrom, if_pos (by rw [hc]; decide), hc,
        chunksFrom_append fun d hd => hdigits d (List.mem_cons_of_mem _ hd), chunksFrom_digits hs, hx]
      rfl
  | cons p ps ih =>
    have hlast : ∀ c, ps.getLast? = some c → c.isDigit = false := by
      intro c hc
      refine hp c ?_
      rw [List.getLast?_cons, hc]
      rfl
    have hfirst : ps = [] → p.isDigit = false := by
      rintro rfl
      exact hp p rfl
    by_cases hkind : p.isDigit ≠ digits
    · obtain ⟨before, hbefore⟩ := ih p.isDigit [p] hfirst hlast
      refine ⟨(digits, String.ofList chunk) :: before, fun x hx => ?_⟩
      rw [List.cons_append, chunksFrom, if_pos hkind, hbefore x hx, List.cons_append]
    · obtain ⟨before, hbefore⟩ := ih digits (chunk ++ [p])
        (fun h => (not_not.mp hkind).symm.trans (hfirst h)) hlast
      refine ⟨before, fun x hx => ?_⟩
      rw [List.cons_append, chunksFrom, if_neg hkind, hbefore x hx]

theorem exists_chunks {p s : String} (hp : ∀ c, p.toList.getLast? = some c → c.isDigit = false)
    (hs : ∀ c, s.toList.head? = some c → c.isDigit = false) :
    ∃ before, ∀ x, IsRun x → chunks (p ++ x ++ s) = before ++ (true, x) :: chunks s := by
  have hlist : ∀ x, (p ++ x ++ s).toList = p.toList ++ (x.toList ++ s.toList) := by simp
  have hofList : String.ofList s.toList = s := String.ofList_toList
  cases hpl : p.toList with
  | nil =>
    refine ⟨[], fun x hx => ?_⟩
    cases hxl : x.toList with
    | nil => exact absurd (String.toList_eq_nil_iff.mp hxl) hx.1
    | cons c cs =>
      have hdigits : ∀ d ∈ c :: cs, d.isDigit := hxl ▸ hx.2
      have hx : x = String.ofList (c :: cs) := by rw [← hxl, String.ofList_toList]
      have hall : (p ++ x ++ s).toList = c :: (cs ++ s.toList) := by rw [hlist, hpl, hxl]; rfl
      rw [chunks, hall]
      dsimp only
      rw [hdigits c List.mem_cons_self, chunksFrom_append fun d hd => hdigits d (List.mem_cons_of_mem _ hd),
        chunksFrom_digits hs, hofList, hx]
      rfl
  | cons c cs =>
    rw [hpl] at hp
    have hlast : ∀ d, cs.getLast? = some d → d.isDigit = false := by
      intro d hd
      refine hp d ?_
      rw [List.getLast?_cons, hd]
      rfl
    have hfirst : cs = [] → c.isDigit = false := by
      rintro rfl
      exact hp c rfl
    obtain ⟨before, hbefore⟩ := exists_chunksFrom c.isDigit [c] hfirst hlast hs
    refine ⟨before, fun x hx => ?_⟩
    have hall : (p ++ x ++ s).toList = c :: (cs ++ (x.toList ++ s.toList)) := by rw [hlist, hpl]; rfl
    rw [chunks, hall]
    dsimp only
    rw [hbefore x hx, hofList]

theorem compareLex_append_left {A : Type*} (cmp : A → A → Ordering) [Std.ReflCmp cmp] (before xs ys : List A) :
    List.compareLex cmp (before ++ xs) (before ++ ys) = List.compareLex cmp xs ys := by
  induction before with
  | nil => rfl
  | cons a before ih =>
    have ha : cmp a a = .eq := Std.ReflCmp.compare_self
    rw [List.cons_append, List.cons_append, List.compareLex_cons_cons, ha, ih, Ordering.eq_then]

/-- Names that differ in one run of digits are ordered by the numbers of the run. -/
theorem natural_of_runs {p s x y : String} (hx : IsRun x) (hy : IsRun y)
    (hp : ∀ c, p.toList.getLast? = some c → c.isDigit = false)
    (hs : ∀ c, s.toList.head? = some c → c.isDigit = false) (hne : number x ≠ number y) :
    natural (p ++ x ++ s) (p ++ y ++ s) = compare (number x) (number y) := by
  obtain ⟨before, hbefore⟩ := exists_chunks hp hs
  have hrest : List.compareLex cmpKey (chunks s) (chunks s) = .eq := Std.ReflCmp.compare_self
  have hkeys : cmpKeys (p ++ x ++ s) (p ++ y ++ s) = compare (number x) (number y) := by
    unfold cmpKeys
    rw [hbefore x hx, hbefore y hy, compareLex_append_left, List.compareLex_cons_cons, hrest, Ordering.then_eq,
      ← cmpChunk_eq ⟨hx.1, hx.2⟩ ⟨hy.1, hy.2⟩, cmpChunk_of_digits ⟨hx.1, hx.2⟩ ⟨hy.1, hy.2⟩]
  rw [natural_eq, compareLex, hkeys]
  rcases lt_or_gt_of_ne hne with h | h
  · rw [Nat.compare_eq_lt.mpr h]
    rfl
  · rw [Nat.compare_eq_gt.mpr h]
    rfl

/-- The natural order is a strict total order, so that a sorted list does not depend on the order it
had; names that differ in one run of digits are ordered by its numbers. -/
theorem natural_strictTotal :
    (∀ a b, natural a b = (natural b a).swap) ∧
    (∀ a b c, (natural a b).isLE → (natural b c).isLE → (natural a c).isLE) ∧
    (∀ a b c, natural a b = .lt → natural b c = .lt → natural a c = .lt) ∧
    (∀ a b, natural a b = .eq ↔ a = b) ∧
    (∀ l l' : List String, l.Perm l' → l.Pairwise (fun a b => (natural a b).isLE) →
      l'.Pairwise (fun a b => (natural a b).isLE) → l = l') ∧
    ∀ p s x y, IsRun x → IsRun y → (∀ c, p.toList.getLast? = some c → c.isDigit = false) →
      (∀ c, s.toList.head? = some c → c.isDigit = false) → number x ≠ number y →
        natural (p ++ x ++ s) (p ++ y ++ s) = compare (number x) (number y) := by
  refine ⟨fun a b => Std.OrientedCmp.eq_swap, fun a b c => Std.TransCmp.isLE_trans,
    fun a b c => Std.TransCmp.lt_trans, fun a b => Std.LawfulEqCmp.compare_eq_iff_eq, ?_,
    fun p s x y => natural_of_runs⟩
  intro l l' hperm hl hl'
  refine hperm.eq_of_pairwise (fun a b _ _ hab hba => ?_) hl hl'
  have heq := Std.OrientedCmp.isLE_antisymm hab hba
  exact Std.LawfulEqCmp.eq_of_compare heq

theorem natural_sat : natural "sat2x" "sat0010x" = .lt :=
  natural_strictTotal.2.2.2.2.2 "sat" "x" "2" "0010" ⟨by decide, List.all_eq_true.mp (by rfl)⟩
    ⟨by decide, List.all_eq_true.mp (by rfl)⟩ (by simp) (by simp) (by decide +kernel)

end NlinkLab.View
