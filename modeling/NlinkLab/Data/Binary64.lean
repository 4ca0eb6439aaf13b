import NlinkLab.Data.Decimal

/-! The numbers of the binary64 format by their rational values, and their arithmetic: each
operation is the exact one, rounded to the nearest number of the format, ties to even. The
two zeros are one here, which a division by zero alone could tell. -/

namespace NlinkLab

/-! ### To the nearest integer -/

/-- Ties go to the even neighbour. -/
def roundEven (q : ℚ) : ℤ :=
  let r := q - ⌊q⌋
  if r < 1 / 2 then ⌊q⌋ else if 1 / 2 < r then ⌊q⌋ + 1 else if Even ⌊q⌋ then ⌊q⌋ else ⌊q⌋ + 1

theorem floor_le_roundEven (q : ℚ) : ⌊q⌋ ≤ roundEven q ∧ roundEven q ≤ ⌊q⌋ + 1 := by
  unfold roundEven
  dsimp only
  split_ifs <;> omega

theorem roundEven_of_near {q : ℚ} {n : ℤ} (hle : n ≤ q) (hlt : q < n + 1 / 2) : roundEven q = n := by
  have hfloor : ⌊q⌋ = n := Int.floor_eq_iff.mpr ⟨hle, by linarith⟩
  unfold roundEven
  dsimp only
  rw [hfloor, if_pos (by linarith)]

@[simp] theorem roundEven_intCast (n : ℤ) : roundEven n = n := roundEven_of_near le_rfl (by linarith)

theorem roundEven_mono : Monotone roundEven := by
  intro q r hqr
  rcases (Int.floor_mono hqr).eq_or_lt with heq | hlt
  · -- the later of two rests in one place
    unfold roundEven
    dsimp only
    rw [heq]
    split_ifs <;> first | omega | (exfalso; linarith)
  · exact (floor_le_roundEven q).2.trans ((Int.add_one_le_iff.mpr hlt).trans (floor_le_roundEven r).1)

theorem roundEven_neg (q : ℚ) : roundEven (-q) = -roundEven q := by
  by_cases hint : (⌊q⌋ : ℚ) = q
  · rw [← hint, ← Int.cast_neg, roundEven_intCast, roundEven_intCast]
  · have hle : (⌊q⌋ : ℚ) < q := lt_of_le_of_ne (Int.floor_le q) hint
    have hlt : q < ⌊q⌋ + 1 := Int.lt_floor_add_one q
    have hfloor : ⌊-q⌋ = -⌊q⌋ - 1 := by
      refine Int.floor_eq_iff.mpr ⟨?_, ?_⟩ <;> push_cast <;> linarith
    have heven : Even (-⌊q⌋ - 1) ↔ ¬Even ⌊q⌋ := by
      rw [Int.even_sub_one, even_neg]
    unfold roundEven
    dsimp only
    rw [hfloor]
    push_cast
    split_ifs <;> first | omega | (exfalso; linarith) | (exfalso; tauto)

namespace Binary64

/-! ### To the nearest number -/

/-- The exponent of the last place of the numbers around `q`. -/
def lastPlace (q : ℚ) : ℤ := max (Int.log 2 |q| - 52) (-1074)

/-- The nearest number, were there no largest. -/
def nearest (q : ℚ) : ℚ := roundEven (q / 2 ^ lastPlace q) * 2 ^ lastPlace q

theorem lastPlace_neg (q : ℚ) : lastPlace (-q) = lastPlace q := by
  unfold lastPlace
  rw [abs_neg]

theorem nearest_neg (q : ℚ) : nearest (-q) = -nearest q := by
  unfold nearest
  rw [lastPlace_neg, neg_div, roundEven_neg, Int.cast_neg, neg_mul]

@[simp] theorem nearest_zero : nearest 0 = 0 := by
  unfold nearest
  rw [zero_div, ← Int.cast_zero, roundEven_intCast, Int.cast_zero, zero_mul]

theorem zpow_pos' (e : ℤ) : (0 : ℚ) < 2 ^ e := zpow_pos (by norm_num) e

theorem abs_lt_zpow (q : ℚ) : |q| < 2 ^ (lastPlace q + 53) := by
  have hlog : |q| < (2 : ℕ) ^ (Int.log 2 |q| + 1) := Int.lt_zpow_succ_log_self (by norm_num) |q|
  have hle : Int.log 2 |q| + 1 ≤ lastPlace q + 53 := by
    have := le_max_left (Int.log 2 |q| - 52) (-1074)
    unfold lastPlace
    omega
  exact hlog.trans_le (zpow_le_zpow_right₀ (by norm_num) hle)

/-- A whole number of last places, in at most 53 bits. -/
theorem exists_nearest (q : ℚ) : ∃ k : ℤ, |k| ≤ 2 ^ 53 ∧ nearest q = k * 2 ^ lastPlace q := by
  refine ⟨_, ?_, rfl⟩
  have habs : |q / 2 ^ lastPlace q| ≤ 2 ^ 53 := by
    rw [abs_div, abs_of_pos (zpow_pos' _), div_le_iff₀ (zpow_pos' _), ← zpow_natCast, ← zpow_add₀ (by norm_num)]
    have hlt := abs_lt_zpow q
    rw [add_comm] at hlt
    exact_mod_cast hlt.le
  obtain ⟨hlow, hhigh⟩ := abs_le.mp habs
  refine abs_le.mpr ⟨?_, ?_⟩
  · have hmono := roundEven_mono hlow
    have hcast : (-2 ^ 53 : ℚ) = ((-2 ^ 53 : ℤ) : ℚ) := by norm_num
    rwa [hcast, roundEven_intCast] at hmono
  · have hmono := roundEven_mono hhigh
    have hcast : (2 ^ 53 : ℚ) = ((2 ^ 53 : ℤ) : ℚ) := by norm_num
    rwa [hcast, roundEven_intCast] at hmono

/-- A power of two from the last place on is a whole number of last places. -/
theorem zpow_eq_places {q : ℚ} {e : ℤ} (he : lastPlace q ≤ e) :
    ∃ n : ℕ, (2 : ℚ) ^ e = ((2 ^ n : ℤ) : ℚ) * 2 ^ lastPlace q := by
  obtain ⟨n, hn⟩ := Int.eq_ofNat_of_zero_le (sub_nonneg.mpr he)
  have hsum : (2 : ℚ) ^ e = 2 ^ (n : ℤ) * 2 ^ lastPlace q := by
    rw [← hn, ← zpow_add₀ (by norm_num), sub_add_cancel]
  exact ⟨n, by rw [hsum, Int.cast_pow, Int.cast_ofNat, zpow_natCast]⟩

theorem nearest_of_lastPlace_le {k e : ℤ} (h : lastPlace (k * 2 ^ e) ≤ e) : nearest (k * 2 ^ e) = k * 2 ^ e := by
  obtain ⟨n, hn⟩ := zpow_eq_places h
  have hplaces : (k * 2 ^ e : ℚ) = ((k * 2 ^ n : ℤ) : ℚ) * 2 ^ lastPlace (k * 2 ^ e) := by
    rw [Int.cast_mul, mul_assoc, ← hn]
  have hdiv : (k * 2 ^ e : ℚ) / 2 ^ lastPlace (k * 2 ^ e) = ((k * 2 ^ n : ℤ) : ℚ) :=
    (div_eq_iff (zpow_pos' _).ne').mpr hplaces
  unfold nearest
  rw [hdiv, roundEven_intCast, ← hplaces]

theorem lastPlace_le {k e : ℤ} (hne : k ≠ 0) (hk : |k| < 2 ^ 53) (he : -1074 ≤ e) : lastPlace (k * 2 ^ e) ≤ e := by
  refine max_le ?_ he
  have hpos : 0 < |(k * 2 ^ e : ℚ)| := abs_pos.mpr (mul_ne_zero (Int.cast_ne_zero.mpr hne) (zpow_pos' e).ne')
  have hlt : |(k * 2 ^ e : ℚ)| < (2 : ℕ) ^ (53 + e) := by
    rw [abs_mul, abs_of_pos (zpow_pos' e), zpow_add₀ (by norm_num)]
    refine mul_lt_mul_of_pos_right ?_ (zpow_pos' e)
    rw [← Int.cast_abs]
    exact_mod_cast hk
  have hlog := (Int.lt_zpow_iff_log_lt (b := 2) (by norm_num) hpos).mp hlt
  omega

/-- Such numbers are of the format. -/
theorem nearest_of_places {k e : ℤ} (hk : |k| ≤ 2 ^ 53) (he : -1074 ≤ e) : nearest (k * 2 ^ e) = k * 2 ^ e := by
  by_cases hzero : k = 0
  · rw [hzero, Int.cast_zero, zero_mul, nearest_zero]
  rcases hk.lt_or_eq with hlt | heq
  · exact nearest_of_lastPlace_le (lastPlace_le hzero hlt he)
  · -- one place less of the next power
    obtain ⟨m, hm, hsmall, hne⟩ : ∃ m : ℤ, k = m * 2 ∧ |m| < 2 ^ 53 ∧ m ≠ 0 := by
      rcases abs_eq (by norm_num : (0 : ℤ) ≤ 2 ^ 53) |>.mp heq with rfl | rfl
      · exact ⟨2 ^ 52, by norm_num, by norm_num, by norm_num⟩
      · exact ⟨-2 ^ 52, by norm_num, by norm_num, by norm_num⟩
    have hshift : (k * 2 ^ e : ℚ) = m * 2 ^ (e + 1) := by
      rw [hm, zpow_add₀ (by norm_num)]
      push_cast
      ring
    rw [hshift]
    exact nearest_of_lastPlace_le (lastPlace_le hne hsmall (by omega))

@[simp] theorem nearest_nearest (q : ℚ) : nearest (nearest q) = nearest q := by
  obtain ⟨k, hk, hnearest⟩ := exists_nearest q
  rw [hnearest]
  exact nearest_of_places hk (le_max_right _ _)

theorem nearest_intCast {n : ℤ} (h : |n| ≤ 2 ^ 53) : nearest n = n := by
  have hnearest := nearest_of_places (e := 0) h (by norm_num)
  rwa [zpow_zero, mul_one] at hnearest

theorem nearest_nonneg {q : ℚ} (hq : 0 ≤ q) : 0 ≤ nearest q := by
  have hle : roundEven 0 ≤ roundEven (q / 2 ^ lastPlace q) := roundEven_mono (div_nonneg hq (zpow_pos' _).le)
  have hzero : roundEven 0 = 0 := by
    rw [← Int.cast_zero, roundEven_intCast]
  rw [hzero] at hle
  exact mul_nonneg (Int.cast_nonneg hle) (zpow_pos' _).le

theorem zpow_le_nearest {q : ℚ} {e : ℤ} (he : lastPlace q ≤ e) (h : 2 ^ e ≤ q) : 2 ^ e ≤ nearest q := by
  obtain ⟨n, hn⟩ := zpow_eq_places he
  have hdiv : ((2 ^ n : ℤ) : ℚ) ≤ q / 2 ^ lastPlace q := by
    rwa [le_div_iff₀ (zpow_pos' _), ← hn]
  have hmono := roundEven_mono hdiv
  rw [roundEven_intCast] at hmono
  rw [hn]
  exact mul_le_mul_of_nonneg_right (Int.cast_le.mpr hmono) (zpow_pos' _).le

theorem nearest_le_zpow {q : ℚ} {e : ℤ} (he : lastPlace q ≤ e) (h : q ≤ 2 ^ e) : nearest q ≤ 2 ^ e := by
  obtain ⟨n, hn⟩ := zpow_eq_places he
  have hdiv : q / 2 ^ lastPlace q ≤ ((2 ^ n : ℤ) : ℚ) := by
    rwa [div_le_iff₀ (zpow_pos' _), ← hn]
  have hmono := roundEven_mono hdiv
  rw [roundEven_intCast] at hmono
  rw [hn]
  exact mul_le_mul_of_nonneg_right (Int.cast_le.mpr hmono) (zpow_pos' _).le

theorem lastPlace_mono {q r : ℚ} (hq : 0 < q) (hqr : q ≤ r) : lastPlace q ≤ lastPlace r := by
  unfold lastPlace
  rw [abs_of_pos hq, abs_of_pos (hq.trans_le hqr)]
  exact max_le_max (Int.sub_le_sub_right (Int.log_mono_right hq hqr) 52) le_rfl

theorem nearest_mono_of_pos {q r : ℚ} (hq : 0 < q) (hqr : q ≤ r) : nearest q ≤ nearest r := by
  rcases (lastPlace_mono hq hqr).eq_or_lt with heq | hlt
  · unfold nearest
    rw [← heq]
    refine mul_le_mul_of_nonneg_right (Int.cast_le.mpr (roundEven_mono ?_)) (zpow_pos' _).le
    exact div_le_div_of_nonneg_right hqr (zpow_pos' _).le
  · -- a power of two lies between
    have hpos : 0 < r := hq.trans_le hqr
    have hnormal : lastPlace r = Int.log 2 |r| - 52 :=
      max_eq_left (le_of_not_gt fun h => absurd (max_eq_right h.le) (by
        have := le_max_right (Int.log 2 |q| - 52) (-1074)
        unfold lastPlace at hlt
        omega))
    have hlow : q ≤ 2 ^ (lastPlace r + 52) := by
      have habs := abs_lt_zpow q
      rw [abs_of_pos hq] at habs
      exact habs.le.trans (zpow_le_zpow_right₀ (by norm_num) (by omega))
    have hhigh : 2 ^ (lastPlace r + 52) ≤ r := by
      have hlog : ((2 : ℕ) : ℚ) ^ Int.log 2 r ≤ r := Int.zpow_log_le_self (by norm_num) hpos
      rw [abs_of_pos hpos] at hnormal
      rw [hnormal, sub_add_cancel]
      exact hlog
    exact (nearest_le_zpow (by omega) hlow).trans (zpow_le_nearest (by omega) hhigh)

theorem nearest_mono : Monotone nearest := by
  intro q r hqr
  rcases lt_or_ge 0 q with hq | hq
  · exact nearest_mono_of_pos hq hqr
  · rcases lt_or_ge r 0 with hr | hr
    · have hneg := nearest_mono_of_pos (neg_pos.mpr hr) (neg_le_neg hqr)
      rw [nearest_neg, nearest_neg] at hneg
      exact neg_le_neg_iff.mp hneg
    · have hneg := nearest_nonneg (neg_nonneg.mpr hq)
      rw [nearest_neg] at hneg
      exact (neg_nonneg.mp hneg).trans (nearest_nonneg hr)

theorem abs_nearest_le {q r : ℚ} (hr : nearest r = r) (h : |q| ≤ r) : |nearest q| ≤ r := by
  obtain ⟨hlow, hhigh⟩ := abs_le.mp h
  have hlow := nearest_mono hlow
  have hhigh := nearest_mono hhigh
  rw [nearest_neg, hr] at hlow
  rw [hr] at hhigh
  exact abs_le.mpr ⟨hlow, hhigh⟩

theorem nearest_abs {q : ℚ} (h : nearest q = q) : nearest |q| = |q| := by
  rcases abs_choice q with habs | habs
  · rw [habs, h]
  · rw [habs, nearest_neg, h]

/-- A whole number past those of 53 bits keeps a rest of less than one. -/
theorem nearest_add_of_lt {q x : ℚ} (hq : nearest q = q) (hlarge : 2 ^ 53 ≤ q) (hx : 0 ≤ x) (hlt : x < 1) :
    nearest (q + x) = q := by
  have hpos : 0 < q := lt_of_lt_of_le (by norm_num) hlarge
  have hlog : (53 : ℤ) ≤ Int.log 2 |q| := by
    rw [abs_of_pos hpos]
    exact (Int.zpow_le_iff_le_log (b := 2) (by norm_num) hpos).mp (by exact_mod_cast hlarge)
  have hplace : 1 ≤ lastPlace q := by
    unfold lastPlace
    omega
  have htwo : (2 : ℚ) ≤ 2 ^ lastPlace q := by
    have hle := zpow_le_zpow_right₀ (by norm_num : (1 : ℚ) ≤ 2) hplace
    rwa [zpow_one] at hle
  obtain ⟨k, hk⟩ : ∃ k : ℤ, q = k * 2 ^ lastPlace q := ⟨_, hq.symm⟩
  have hbound := abs_lt_zpow q
  rw [abs_of_pos hpos] at hbound
  generalize hplaceEq : lastPlace q = e at *
  have hplaces := zpow_pos' e
  -- the next power of two is a whole number of places away
  have hroom : q + 2 ^ e ≤ 2 ^ (e + 53) := by
    have hsum : (2 : ℚ) ^ (e + 53) = 2 ^ 53 * 2 ^ e := by
      rw [add_comm, zpow_add₀ (by norm_num)]
      norm_num
    rw [hsum, hk] at hbound
    have hlt : (k : ℚ) < ((2 ^ 53 : ℤ) : ℚ) := by
      have := lt_of_mul_lt_mul_right hbound hplaces.le
      exact_mod_cast this
    have hle : (k : ℚ) + 1 ≤ 2 ^ 53 := by exact_mod_cast Int.add_one_le_iff.mpr (Int.cast_lt.mp hlt)
    rw [hsum, hk, ← add_one_mul]
    exact mul_le_mul_of_nonneg_right hle hplaces.le
  have hsame : lastPlace (q + x) = e := by
    refine le_antisymm (max_le ?_ (by omega)) (hplaceEq ▸ lastPlace_mono hpos (by linarith))
    have hpos' : 0 < q + x := by linarith
    rw [abs_of_pos hpos']
    have hlt' : q + x < ((2 : ℕ) : ℚ) ^ (e + 53) := by
      push_cast
      linarith
    have hlog' := (Int.lt_zpow_iff_log_lt (b := 2) (by norm_num) hpos').mp hlt'
    omega
  have hdiv : (q + x) / 2 ^ e = k + x / 2 ^ e := by
    rw [add_div, hk, mul_div_cancel_right₀ _ hplaces.ne']
  have hsmall : x / 2 ^ e < 1 / 2 := by
    rw [div_lt_iff₀ hplaces]
    linarith
  unfold nearest
  have hnear : roundEven (k + x / 2 ^ e) = k :=
    roundEven_of_near (le_add_of_nonneg_right (div_nonneg hx hplaces.le)) ((add_lt_add_iff_left _).mpr hsmall)
  rw [hsame, hdiv, hnear, ← hk]

end Binary64

/-! ### The numbers and their operations -/

open Binary64 in
/-- A number of the format. -/
inductive Binary64 where
  | finite (q : ℚ) (h : nearest q = q ∧ |q| < 2 ^ 1024)
  | infinite (negative : Bool)
  | nan
  deriving DecidableEq

namespace Binary64

def ofRat (q : ℚ) : Binary64 :=
  if h : |nearest q| < 2 ^ 1024 then finite (nearest q) ⟨nearest_nearest q, h⟩ else infinite (q < 0)

def neg : Binary64 → Binary64
  | finite q h => finite (-q) ⟨by rw [nearest_neg, h.1], by rw [abs_neg]; exact h.2⟩
  | infinite negative => infinite !negative
  | nan => nan

def add : Binary64 → Binary64 → Binary64
  | finite p _, finite q _ => ofRat (p + q)
  | infinite a, infinite b => if a = b then infinite a else nan
  | infinite a, finite _ _ | finite _ _, infinite a => infinite a
  | _, _ => nan

def mul : Binary64 → Binary64 → Binary64
  | finite p _, finite q _ => ofRat (p * q)
  | infinite a, infinite b => infinite (a != b)
  | infinite a, finite q _ | finite q _, infinite a => if q = 0 then nan else infinite (a != decide (q < 0))
  | _, _ => nan

def div : Binary64 → Binary64 → Binary64
  | finite p _, finite q _ => if q = 0 then (if p = 0 then nan else infinite (p < 0)) else ofRat (p / q)
  | infinite a, finite q _ => infinite (a != decide (q < 0))
  | finite _ _, infinite _ => ofRat 0
  | _, _ => nan

/-- Nothing compares with what is no number. -/
def le : Binary64 → Binary64 → Bool
  | finite p _, finite q _ => p ≤ q
  | infinite a, infinite b => a || !b
  | infinite a, finite _ _ => a
  | finite _ _, infinite b => !b
  | _, _ => false

def lt (x y : Binary64) : Bool := le x y && !le y x

instance instAdd : Add Binary64 := ⟨add⟩

instance instSub : Sub Binary64 := ⟨fun x y => add x (neg y)⟩

instance instMul : Mul Binary64 := ⟨mul⟩

instance instDiv : Div Binary64 := ⟨div⟩

/-! ### Values -/

def HasValue (x : Binary64) (q : ℚ) : Prop := ∃ h, x = finite q h

variable {x y : Binary64} {p q r : ℚ}

theorem HasValue.inFormat (h : HasValue x q) : nearest q = q := h.1.1

theorem HasValue.unique (hp : HasValue x p) (hq : HasValue x q) : p = q := by
  obtain ⟨_, rfl⟩ := hp
  obtain ⟨_, hx⟩ := hq
  exact (Binary64.finite.inj hx)

/-- No value is lost to the rounding of what is no larger than a value. -/
theorem HasValue.round (hx : HasValue x r) (h : |q| ≤ |r|) : HasValue (ofRat q) (nearest q) := by
  have hlt : |nearest q| < 2 ^ 1024 := (abs_nearest_le (nearest_abs hx.inFormat) h).trans_lt hx.1.2
  exact ⟨_, dif_pos hlt⟩

theorem HasValue.eq_ofRat (hx : HasValue x q) : x = ofRat q := by
  obtain ⟨h, rfl⟩ := hx
  obtain ⟨_, hq⟩ := HasValue.round ⟨h, rfl⟩ (le_refl |q|)
  rw [hq]
  congr 1
  exact h.1.symm

/-- A rounded number has its value, or none where it is too large. -/
theorem hasValue_ofRat (h : HasValue (ofRat q) r) : r = nearest q := by
  unfold ofRat at h
  split_ifs at h with hlt
  · exact h.unique ⟨_, rfl⟩
  · obtain ⟨_, hx⟩ := h
    cases hx

theorem HasValue.add (hx : HasValue x p) (hy : HasValue y q) : x + y = ofRat (p + q) := by
  obtain ⟨_, rfl⟩ := hx
  obtain ⟨_, rfl⟩ := hy
  rfl

theorem HasValue.sub (hx : HasValue x p) (hy : HasValue y q) : x - y = ofRat (p - q) := by
  obtain ⟨_, rfl⟩ := hx
  obtain ⟨_, rfl⟩ := hy
  rw [sub_eq_add_neg]
  rfl

theorem HasValue.mul (hx : HasValue x p) (hy : HasValue y q) : x * y = ofRat (p * q) := by
  obtain ⟨_, rfl⟩ := hx
  obtain ⟨_, rfl⟩ := hy
  rfl

theorem HasValue.div (hx : HasValue x p) (hy : HasValue y q) (hq : q ≠ 0) : x / y = ofRat (p / q) := by
  obtain ⟨_, rfl⟩ := hx
  obtain ⟨_, rfl⟩ := hy
  exact if_neg hq

end Binary64

/-- The number nearest to a decimal one. -/
def Number.toBinary64 : Number → Binary64
  | finite q => .ofRat q
  | infinite negative => .infinite negative
  | nan => .nan

end NlinkLab
