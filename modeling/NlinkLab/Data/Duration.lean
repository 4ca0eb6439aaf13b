import NlinkLab.Data.Binary64

/-! Spans of time in whole nanoseconds, as the standard library's `Duration`: fewer than
2^64 seconds. Turning fractional seconds into a span rounds to the nearest nanosecond, ties
to even, and fails where the span does not fit; as a number of the binary64 format, the
seconds of a span are themselves rounded. -/

namespace NlinkLab

structure Duration where
  nanos : ℕ
  lt : nanos < 2 ^ 64 * 10 ^ 9
  deriving DecidableEq

namespace Duration

theorem ext' {d e : Duration} (h : d.nanos = e.nanos) : d = e := by
  cases d
  cases e
  cases h
  rfl

instance : LinearOrder Duration := LinearOrder.lift' nanos fun _ _ => ext'

theorem lt_iff {d e : Duration} : d < e ↔ d.nanos < e.nanos := Iff.rfl

theorem le_iff {d e : Duration} : d ≤ e ↔ d.nanos ≤ e.nanos := Iff.rfl

instance : Inhabited Duration := ⟨⟨0, by positivity⟩⟩

/-- Fractional seconds. -/
def secs (d : Duration) : ℚ := d.nanos / 10 ^ 9

/-- What does not fit is a panic. -/
def fromSecs (q : ℚ) : Option Duration :=
  if h : 0 ≤ q ∧ (roundEven (q * 10 ^ 9)).toNat < 2 ^ 64 * 10 ^ 9 then some ⟨_, h.2⟩ else none

/-- The seconds as the source has them: the whole ones and the rest are put together. -/
def asSecsF64 (d : Duration) : Binary64 :=
  .ofRat (d.nanos / 10 ^ 9 : ℕ) + .ofRat (d.nanos % 10 ^ 9 : ℕ) / .ofRat (10 ^ 9)

/-- What is not finite is a panic too. -/
def fromSecsF64 : Binary64 → Option Duration
  | .finite q _ => fromSecs q
  | _ => none

/-- The span from an earlier one. -/
def since (d e : Duration) : Duration := ⟨d.nanos - e.nanos, (Nat.sub_le ..).trans_lt d.lt⟩

def sub (d e : Duration) : Option Duration := if e.nanos ≤ d.nanos then some (d.since e) else none

/-- The low 64 bits of a number of nanoseconds. -/
def fromNanos (n : ℕ) : Duration :=
  ⟨n % 2 ^ 64, (Nat.mod_lt _ (by positivity)).trans (by decide +kernel)⟩

/-! ### What fits -/

/-- Seconds from which none fit. -/
def LIMIT : ℚ := 2 ^ 64 - 1 / (2 * 10 ^ 9)

theorem roundEven_lt {q : ℚ} {n : ℤ} (hn : Even n) : roundEven q < n ↔ q < n - 1 / 2 := by
  have hle : (⌊q⌋ : ℚ) ≤ q := Int.floor_le q
  have hlt : q < ⌊q⌋ + 1 := Int.lt_floor_add_one q
  unfold roundEven
  dsimp only
  rcases lt_trichotomy ⌊q⌋ (n - 1) with hbelow | hat | habove
  · -- at least one and a half below
    have hfloor : (⌊q⌋ : ℚ) + 2 ≤ n := by exact_mod_cast (by omega : ⌊q⌋ + 2 ≤ n)
    refine iff_of_true ?_ (by linarith)
    split_ifs <;> omega
  · have hfloor : (n : ℚ) = ⌊q⌋ + 1 := by rw [hat]; push_cast; ring
    have hodd : ¬Even ⌊q⌋ := by
      rw [hat, Int.even_sub_one]
      exact not_not.mpr hn
    split_ifs with hlow hhigh
    · exact iff_of_true (by omega) (by linarith)
    · exact iff_of_false (by omega) (by linarith)
    · exact iff_of_false (by omega) (by linarith)
  · have hfloor : (n : ℚ) ≤ ⌊q⌋ := by exact_mod_cast (by omega : n ≤ ⌊q⌋)
    refine iff_of_false ?_ (by linarith)
    split_ifs <;> omega

theorem fromSecs_isSome {q : ℚ} (hq : 0 ≤ q) : (fromSecs q).isSome ↔ q < LIMIT := by
  have heven : Even (2 ^ 64 * 10 ^ 9 : ℤ) := ⟨2 ^ 63 * 10 ^ 9, by norm_num⟩
  have hround : (roundEven (q * 10 ^ 9)).toNat < 2 ^ 64 * 10 ^ 9 ↔ roundEven (q * 10 ^ 9) < 2 ^ 64 * 10 ^ 9 := by
    rw [Int.toNat_lt_of_ne_zero (by positivity)]
    norm_num
  have hfits : (fromSecs q).isSome ↔ roundEven (q * 10 ^ 9) < 2 ^ 64 * 10 ^ 9 := by
    rw [← hround, fromSecs]
    split_ifs with h
    · exact iff_of_true rfl h.2
    · exact iff_of_false Bool.false_ne_true fun h' => h ⟨hq, h'⟩
  rw [hfits, roundEven_lt heven, LIMIT]
  push_cast
  constructor <;> intro h <;> linarith

theorem secs_since {d e : Duration} (h : e ≤ d) : (d.since e).secs = d.secs - e.secs := by
  rw [secs, secs, secs, ← sub_div]
  exact congrArg (· / 10 ^ 9) (Nat.cast_sub h)

theorem strictMono_secs : StrictMono secs := fun d e h =>
  div_lt_div_of_pos_right (by exact_mod_cast lt_iff.mp h) (by norm_num)

theorem fromNanos_of_lt {n : ℕ} (h : n < 2 ^ 64) : (fromNanos n).nanos = n := Nat.mod_eq_of_lt h

/-! ### Rounded seconds -/

open Binary64

/-- What the source's seconds are worth. -/
def roundedSecs (d : Duration) : ℚ :=
  nearest (nearest (d.nanos / 10 ^ 9 : ℕ) + nearest ((d.nanos % 10 ^ 9 : ℕ) / 10 ^ 9))

theorem nearest_two_pow {e : ℕ} : nearest (2 ^ e) = 2 ^ e := by
  have hplaces := nearest_of_places (k := 1) (e := e) (by norm_num) (by omega)
  rwa [Int.cast_one, one_mul, zpow_natCast] at hplaces

theorem hasValue_two_pow {e : ℕ} (he : e < 1024) : HasValue (ofRat (2 ^ e)) (2 ^ e) := by
  have hlt : |nearest (2 ^ e)| < 2 ^ 1024 := by
    rw [nearest_two_pow, abs_of_pos (by positivity)]
    exact pow_lt_pow_right₀ (by norm_num) he
  have hvalue : HasValue (ofRat (2 ^ e)) (nearest (2 ^ e)) := ⟨_, dif_pos hlt⟩
  rwa [nearest_two_pow] at hvalue

theorem whole_lt (d : Duration) : d.nanos / 10 ^ 9 < 2 ^ 64 :=
  Nat.div_lt_of_lt_mul (by have := d.lt; omega)

/-- The rest of the seconds stays below one. -/
theorem rest_lt (d : Duration) : nearest ((d.nanos % 10 ^ 9 : ℕ) / 10 ^ 9) < 1 := by
  have hle : ((d.nanos % 10 ^ 9 : ℕ) / 10 ^ 9 : ℚ) ≤ (10 ^ 9 - 1) / 10 ^ 9 := by
    have hmod : ((d.nanos % 10 ^ 9 : ℕ) : ℚ) + 1 ≤ 10 ^ 9 := by
      exact_mod_cast Nat.mod_lt d.nanos (by norm_num)
    exact div_le_div_of_nonneg_right (by linarith) (by norm_num)
  have hlast : nearest ((10 ^ 9 - 1) / 10 ^ 9) < 1 := by decide +kernel
  exact (nearest_mono hle).trans_lt hlast

theorem rest_nonneg (d : Duration) : 0 ≤ nearest ((d.nanos % 10 ^ 9 : ℕ) / 10 ^ 9) :=
  nearest_nonneg (div_nonneg (Nat.cast_nonneg _) (by norm_num))

theorem nearest_whole_le (d : Duration) : nearest (d.nanos / 10 ^ 9 : ℕ) ≤ 2 ^ 64 := by
  have hle : ((d.nanos / 10 ^ 9 : ℕ) : ℚ) ≤ 2 ^ 64 := by exact_mod_cast (whole_lt d).le
  exact (nearest_mono hle).trans_eq nearest_two_pow

theorem hasValue_asSecsF64 (d : Duration) : HasValue d.asSecsF64 d.roundedSecs := by
  have hmax : HasValue (ofRat (2 ^ 65)) (2 ^ 65) := hasValue_two_pow (by norm_num)
  have hround : ∀ {q : ℚ}, 0 ≤ q → q ≤ 2 ^ 65 → HasValue (ofRat q) (nearest q) := fun hq hle =>
    hmax.round (by rwa [abs_of_nonneg hq, abs_of_pos (by norm_num)])
  have hwhole : ((d.nanos / 10 ^ 9 : ℕ) : ℚ) ≤ 2 ^ 64 := by exact_mod_cast (whole_lt d).le
  have hmod : ((d.nanos % 10 ^ 9 : ℕ) : ℚ) ≤ 10 ^ 9 := by exact_mod_cast (Nat.mod_lt d.nanos (by norm_num)).le
  have hnine : nearest (10 ^ 9) = 10 ^ 9 := by decide +kernel
  have hrest : nearest (d.nanos % 10 ^ 9 : ℕ) = (d.nanos % 10 ^ 9 : ℕ) := by
    have hint := nearest_intCast (n := (d.nanos % 10 ^ 9 : ℕ)) (by rw [abs_of_nonneg (by omega)]; omega)
    rwa [Int.cast_natCast] at hint
  have hnano := hround (q := (d.nanos % 10 ^ 9 : ℕ)) (Nat.cast_nonneg _) (by linarith)
  have hbillion := hround (q := 10 ^ 9) (by norm_num) (by norm_num)
  rw [hrest] at hnano
  rw [hnine] at hbillion
  have hpart : ((d.nanos % 10 ^ 9 : ℕ) / 10 ^ 9 : ℚ) ≤ 1 := (div_le_one (by norm_num)).mpr hmod
  have hsum := nearest_nonneg (q := (d.nanos / 10 ^ 9 : ℕ)) (Nat.cast_nonneg _)
  have hquot := hround (q := (d.nanos % 10 ^ 9 : ℕ) / 10 ^ 9) (div_nonneg (Nat.cast_nonneg _) (by norm_num))
    (hpart.trans (by norm_num))
  rw [asSecsF64, hnano.div hbillion (by norm_num),
    (hround (Nat.cast_nonneg _) (by linarith)).add hquot]
  exact hround (add_nonneg hsum (rest_nonneg d)) (by linarith [nearest_whole_le d, rest_lt d])

theorem roundedSecs_nonneg (d : Duration) : 0 ≤ d.roundedSecs :=
  nearest_nonneg (add_nonneg (nearest_nonneg (Nat.cast_nonneg _)) (rest_nonneg d))

theorem roundedSecs_mono : Monotone roundedSecs := by
  intro d e hde
  have hwhole : d.nanos / 10 ^ 9 ≤ e.nanos / 10 ^ 9 := Nat.div_le_div_right (le_iff.mp hde)
  rcases hwhole.eq_or_lt with heq | hlt
  · have hrest : ((d.nanos % 10 ^ 9 : ℕ) : ℚ) ≤ (e.nanos % 10 ^ 9 : ℕ) := by
      have := le_iff.mp hde
      exact_mod_cast (by omega : d.nanos % 10 ^ 9 ≤ e.nanos % 10 ^ 9)
    unfold roundedSecs
    rw [heq]
    exact nearest_mono (add_le_add_right (nearest_mono (div_le_div_of_nonneg_right hrest (by norm_num))) _)
  · -- a second more outweighs any rest
    have hlater : nearest (e.nanos / 10 ^ 9 : ℕ) ≤ e.roundedSecs := by
      have hle := nearest_mono (le_add_of_nonneg_right (a := nearest (e.nanos / 10 ^ 9 : ℕ)) (rest_nonneg e))
      rwa [nearest_nearest] at hle
    refine le_trans ?_ hlater
    rcases le_or_gt (2 ^ 53) (d.nanos / 10 ^ 9) with hlarge | hsmall
    · have hlarge : (2 : ℚ) ^ 53 ≤ nearest (d.nanos / 10 ^ 9 : ℕ) := by
        have hle : (2 : ℚ) ^ 53 ≤ (d.nanos / 10 ^ 9 : ℕ) := by exact_mod_cast hlarge
        have hmono := nearest_mono hle
        rwa [nearest_two_pow] at hmono
      rw [roundedSecs, nearest_add_of_lt (nearest_nearest _) hlarge (rest_nonneg d) (rest_lt d)]
      exact nearest_mono (by exact_mod_cast hlt.le)
    · have hexact : nearest (d.nanos / 10 ^ 9 : ℕ) = (d.nanos / 10 ^ 9 : ℕ) := by
        have hint := nearest_intCast (n := (d.nanos / 10 ^ 9 : ℕ)) (by rw [abs_of_nonneg (by omega)]; omega)
        rwa [Int.cast_natCast] at hint
      have hnext : ((d.nanos / 10 ^ 9 : ℕ) : ℚ) + 1 ≤ (e.nanos / 10 ^ 9 : ℕ) := by exact_mod_cast hlt
      rw [roundedSecs, hexact]
      exact nearest_mono (by linarith [rest_lt d])

theorem roundedSecs_pos {d : Duration} (h : 0 < d.nanos) : 0 < d.roundedSecs := by
  have hleast : 0 < roundedSecs ⟨1, by norm_num⟩ := by decide +kernel
  exact hleast.trans_le (roundedSecs_mono (le_iff.mpr h))

/-- Rounded seconds that a duration holds. -/
def Fits : Binary64 → Prop
  | .finite q _ => q < 2 ^ 64
  | _ => False

theorem fits_of_hasValue {x : Binary64} {q : ℚ} (h : HasValue x q) : Fits x ↔ q < 2 ^ 64 := by
  obtain ⟨_, rfl⟩ := h
  rfl

/-- Near the limit the numbers of the format are whole. -/
theorem lt_limit {q : ℚ} (h : nearest q = q) : q < LIMIT ↔ q < 2 ^ 64 := by
  constructor
  · intro hlt
    exact hlt.trans (by unfold LIMIT; norm_num)
  · intro hlt
    by_contra hnot
    have hlimit : nearest LIMIT = 2 ^ 64 := by decide +kernel
    have hle := nearest_mono (not_lt.mp hnot)
    rw [h, hlimit] at hle
    exact absurd hlt (not_lt.mpr hle)

theorem fits_ofRat {q : ℚ} (h : 0 ≤ q) : Fits (ofRat q) ↔ nearest q < 2 ^ 64 := by
  have hround : nearest q < 2 ^ 64 → HasValue (ofRat q) (nearest q) := fun hlt => by
    have hbound : |nearest q| < 2 ^ 1024 := by
      rw [abs_of_nonneg (nearest_nonneg h)]
      exact hlt.trans (pow_lt_pow_right₀ (by norm_num) (by norm_num))
    exact ⟨_, dif_pos hbound⟩
  constructor
  · intro hfits
    unfold Binary64.ofRat at hfits
    split_ifs at hfits
    · exact hfits
    · exact hfits.elim
  · intro hlt
    exact (fits_of_hasValue (hround hlt)).mpr hlt

theorem fromSecsF64_isSome {x : Binary64} (h : ∀ q, HasValue x q → 0 ≤ q) : (fromSecsF64 x).isSome ↔ Fits x := by
  cases x with
  | finite q hq => exact (fromSecs_isSome (h q ⟨hq, rfl⟩)).trans (lt_limit hq.1)
  | infinite negative => exact iff_of_false Bool.false_ne_true id
  | nan => exact iff_of_false Bool.false_ne_true id

end Duration

end NlinkLab
