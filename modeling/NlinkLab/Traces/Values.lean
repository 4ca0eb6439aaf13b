import NlinkLab.Net.Display
import NlinkLab.Traces.Reading

/-! What a trace gives at a moment: the segments through the points of each column, put in
the columns' units. Of exact numbers they are straight; of binary64 ones every step rounds.
A value of seconds that fits no duration panics, and so does a row's time; the texts for
which neither happens are named here by their points. -/

namespace NlinkLab.Traces

open Polyline Duration

/-! ### Values by segments -/

section

variable {K : Type} [Arith K]

/-- What is computed between two points. -/
def segment (p q : Duration × K) (t : Duration) : K :=
  p.2 + (q.2 - p.2) * (Arith.asSecs (t.since p.1) / Arith.asSecs (q.1.since p.1))

theorem Series.at_eq (ps : Series K) (t : Duration) : Series.at ps t = some (value segment ps t) := by
  obtain ⟨pre, post, rfl, hle, hlt⟩ := exists_split ps t
  have hnone : pre.findIdx? (t < ·.1) = none :=
    List.findIdx?_eq_none_iff.mpr fun r hr => decide_eq_false (not_lt.mpr (hle r hr))
  rw [Series.at, List.findIdx?_append, hnone, Option.none_or]
  rcases List.eq_nil_or_concat' pre with rfl | ⟨pre, p, rfl⟩
  · rw [List.nil_append, value_of_before hlt]
    cases post with
    | nil => rfl
    | cons q post => rw [List.findIdx?_cons, if_pos (decide_eq_true (hlt q rfl))]; rfl
  · have hp : p.1 ≤ t := hle p (List.mem_append_right _ List.mem_cons_self)
    rw [List.append_assoc, List.singleton_append,
      value_of_split (fun r hr => hle r (List.mem_append_left _ hr)) hp hlt]
    cases post with
    | nil => rw [List.findIdx?_nil, Option.map_none, List.getLast?_concat]; rfl
    | cons q post =>
      have hq : t < q.1 := hlt q rfl
      have hat : (pre ++ p :: q :: post)[pre.length]? = some p := by simp
      have hnext : (pre ++ p :: q :: post)[pre.length + 1]? = some q := by simp
      have hspan : q.1.sub p.1 = some (q.1.since p.1) := if_pos (hp.trans hq.le)
      have hsince : t.sub p.1 = some (t.since p.1) := if_pos hp
      have hpos : 0 < (q.1.since p.1).nanos := Nat.sub_pos_of_lt (lt_iff.mp (hp.trans_lt hq))
      rw [List.findIdx?_cons, if_pos (decide_eq_true hq), Option.map_some, List.length_append, List.length_singleton,
        zero_add]
      simp only [hat, hnext, hspan, hsince, Option.bind_eq_bind, Option.bind_some, List.head?_cons, segment,
        if_neg (Arith.isZero_asSecs (q.1.since p.1) hpos)]

theorem Values.of_eq (trace : Trace K) (t : Duration) (looped : Bool) :
    trace.at t looped = Values.of fun c => value segment (trace.series c) (trace.clock t looped) := by
  unfold Trace.at Values.of
  simp only [Series.at_eq, Option.bind_eq_bind, Option.bind_some]

variable {unit : Duration} {columns : List (Column × K)} {rows : List (ℕ × String)}
  {out : List (Duration × List (Column × K))} {text : String}

theorem inOrder_points (h : Accepted unit columns rows out) (c : Column) : InOrder (points out c) := by
  have hout : out.Pairwise fun r s => r.1 ≤ s.1 := List.pairwise_map.mp (List.isChain_iff_pairwise.mp h.2)
  have htime : ∀ {r : Duration × List (Column × K)} {p : Duration × K}, p ∈ rowPoints c r → p.1 = r.1 := by
    intro r p hp
    obtain ⟨v, -, rfl⟩ := List.mem_map.mp hp
    rfl
  refine List.pairwise_flatMap.mpr ⟨fun r _ => List.pairwise_of_forall_mem_list fun p hp q hq => ?_, ?_⟩
  · rw [htime hp, htime hq]
  · exact hout.imp fun hrs p hp q hq => by rwa [htime hp, htime hq]

/-! ### Where values come from -/

theorem scaled_readColumn {line : ℕ} {names : List String} {columns columns' : List (Column × K)}
    (h : names.foldlM (readColumn line) columns = .ok columns')
    (hscaled : ∀ c ∈ columns, ∃ unit, scaleOf c.1 unit = some c.2) : ∀ c ∈ columns', ∃ unit, scaleOf c.1 unit = some c.2 := by
  induction names generalizing columns with
  | nil => exact Except.ok.inj h ▸ hscaled
  | cons name names ih =>
    rw [List.foldlM_cons, Fallible.bind_eq_ok] at h
    obtain ⟨mid, hmid, hrest⟩ := h
    refine ih hrest ?_
    unfold readColumn at hmid
    split at hmid
    · cases hmid
    split at hmid
    · cases hmid
    split at hmid
    · cases hmid
    rename_i scale hscale
    split_ifs at hmid
    obtain rfl := Except.ok.inj hmid
    intro c hc
    rcases List.mem_append.mp hc with hc | hc
    · exact hscaled c hc
    · exact List.mem_singleton.mp hc ▸ ⟨_, hscale⟩

/-- Each column has a scale of its own. -/
theorem scaled_columns (h : Sheet text unit columns rows) : ∀ c ∈ columns, ∃ unit, scaleOf c.1 unit = some c.2 := by
  obtain ⟨-, line, header, -, hheader⟩ := h
  unfold readHeader at hheader
  dsimp only at hheader
  split at hheader
  · cases hheader
  obtain ⟨columns', hcolumns, hheader⟩ := Fallible.bind_eq_ok.mp hheader
  split_ifs at hheader
  obtain ⟨-, rfl⟩ := Prod.mk.inj (Except.ok.inj hheader)
  exact scaled_readColumn hcolumns nofun

/-- A point of a column is a cell's value in the column's unit. -/
theorem exists_of_mem_points (hsheet : Sheet text unit columns rows) (h : Accepted unit columns rows out) {c : Column}
    {p : Duration × K} (hp : p ∈ points out c) :
    ∃ line cell v unit scale, readValue line c cell = .ok v ∧ scaleOf c unit = some scale ∧ p.2 = v * scale := by
  obtain ⟨r, hr, hp⟩ := List.mem_flatMap.mp hp
  obtain ⟨⟨c', v⟩, hv, rfl⟩ := List.mem_map.mp hp
  obtain ⟨hv, hc⟩ := List.mem_filter.mp hv
  obtain ⟨row, -, hrow⟩ := Fallible.exists_left_of_forall₂ h.1 hr
  obtain ⟨⟨⟨column, scale⟩, cell⟩, hcell, hread⟩ :=
    List.mem_filterMap.mp ((IpAddr.filterMap_of_mapM hrow.values).symm ▸ hv)
  obtain ⟨w, hw, heq⟩ := Option.map_eq_some_iff.mp hread
  obtain ⟨rfl, rfl⟩ := Prod.mk.inj heq
  obtain rfl := of_decide_eq_true hc
  obtain ⟨unit, hscale⟩ := scaled_columns hsheet _ (List.of_mem_zip (List.mem_filter.mp hcell).1).1
  exact ⟨_, _, w, unit, scale, toOption_eq_some.mp hw, hscale, rfl⟩

/-! ### Starting over -/

/-- A loop later the clock is the same. -/
theorem at_add_length (trace : Trace K) {t t' : Duration} (ht : t'.nanos = t.nanos + trace.length.nanos) :
    trace.at t' true = trace.at t true := by
  rw [Values.of_eq, Values.of_eq, Trace.clock, Trace.clock, ht, Nat.add_mod_right]
  split_ifs with hzero
  · rfl
  · have hsame : t' = t := ext' (by simp_all)
    rw [hsame]

theorem at_mod_length (trace : Trace K) (hlength : trace.length.nanos ≤ 2 ^ 64) {t t' : Duration}
    (ht : t'.nanos = t.nanos % trace.length.nanos) : trace.at t true = trace.at t' false := by
  have hplain : trace.clock t' false = t' := if_neg fun hlooped => Bool.false_ne_true hlooped.1
  have hclock : trace.clock t true = t' := by
    rw [Trace.clock]
    split_ifs with hzero
    · rw [← ht]
      exact ext' (fromNanos_of_lt (ht ▸ (Nat.mod_lt _ (Nat.pos_of_ne_zero hzero.2)).trans_le hlength))
    · have hzero : trace.length.nanos = 0 := by
        by_contra hne
        exact hzero ⟨rfl, hne⟩
      exact ext' (by rw [ht, hzero, Nat.mod_zero])
  rw [Values.of_eq, Values.of_eq, hclock, hplain]

end

/-! ### Exact numbers -/

theorem value_lerp (ps : Series ℚ) (t : Duration) : value segment ps t = value (lerp secs) ps t := by
  have hline : ∀ p q : Duration × ℚ, p.1 ≤ t → t < q.1 → segment p q t = lerp secs p q t := fun p q hp hq => by
    unfold segment lerp
    rw [← secs_since hp, ← secs_since (hp.trans hq.le)]
    rfl
  obtain ⟨pre, post, rfl, hle, hlt⟩ := exists_split ps t
  rcases List.eq_nil_or_concat' pre with rfl | ⟨pre, p, rfl⟩
  · rw [List.nil_append, value_of_before hlt, value_of_before hlt]
  · have hp : p.1 ≤ t := hle p (List.mem_append_right _ List.mem_cons_self)
    have hpre : ∀ r ∈ pre, r.1 ≤ t := fun r hr => hle r (List.mem_append_left _ hr)
    rw [List.append_assoc, List.singleton_append, value_of_split hpre hp hlt, value_of_split hpre hp hlt]
    cases post with
    | nil => rfl
    | cons q post => exact congrArg some (hline p q hp (hlt q rfl))

/-- Exactly, columns have what the polyline through their points has, which between two
points is between their values. -/
structure Polylinear (trace : Trace ℚ) (out : List (Duration × List (Column × ℚ))) (t : Duration)
    (v : Column → Option ℚ) : Prop where
  columns : ∀ c, (trace.series c).at t = some (v c)
  values : trace.at t false = Values.of v
  takes : ∀ c, Takes (lerp secs) (points out c) t (v c)
  between : ∀ c pre p q post, points out c = pre ++ p :: q :: post → p.1 ≤ t → t < q.1 →
    ∃ x, v c = some x ∧ min p.2 q.2 ≤ x ∧ x ≤ max p.2 q.2

theorem polylinear_points {unit : Duration} {columns : List (Column × ℚ)} {rows : List (ℕ × String)}
    {out : List (Duration × List (Column × ℚ))} (h : Accepted unit columns rows out) (length t : Duration) :
    Polylinear ⟨points out, length⟩ out t fun c => value (lerp secs) (points out c) t where
  columns c := by rw [Series.at_eq, value_lerp]
  values := by
    rw [Values.of_eq]
    exact congrArg Values.of (funext fun c => value_lerp _ _)
  takes c := (takes_iff (starts_lerp _) (inOrder_points h c)).mpr rfl
  between c pre p q post heq hp hq := by
    have horder := inOrder_points h c
    rw [heq] at horder
    have hpre : ∀ r ∈ pre, r.1 ≤ t := fun r hr => (le_of_inOrder horder r hr).trans hp
    rw [heq, value_of_split hpre hp (by simpa using hq)]
    exact ⟨_, rfl, lerp_mem strictMono_secs hp hq⟩

/-! ### Rounded numbers -/

section Rounded

open Binary64

/-- Such values are finite and not negative. -/
def Sound (ps : Series Binary64) : Prop := ∀ p ∈ ps, ∃ v, HasValue p.2 v ∧ 0 ≤ v

/-- Where a segment from `v₀` to `v₁` is after `a` of `b` seconds, before the last rounding. -/
def reached (v₀ v₁ a b : ℚ) : ℚ := v₀ + nearest (nearest (v₁ - v₀) * nearest (a / b))

section Reached

variable {v₀ v₁ a a' b : ℚ}

theorem nearest_ratio (ha : 0 ≤ a) (hab : a ≤ b) (hb : 0 < b) : 0 ≤ nearest (a / b) ∧ nearest (a / b) ≤ 1 := by
  have hone : nearest 1 = 1 := nearest_two_pow (e := 0)
  have hle := nearest_mono ((div_le_one hb).mpr hab)
  rw [hone] at hle
  exact ⟨nearest_nonneg (div_nonneg ha hb.le), hle⟩

theorem reached_nonneg (h₀ : nearest v₀ = v₀) (hpos : 0 ≤ v₀) (hpos₁ : 0 ≤ v₁) (ha : 0 ≤ a) (hab : a ≤ b) (hb : 0 < b) :
    0 ≤ reached v₀ v₁ a b := by
  obtain ⟨hratio, hone⟩ := nearest_ratio ha hab hb
  have hstep : -v₀ ≤ nearest (v₁ - v₀) := by
    have hmono := nearest_mono (by linarith : -v₀ ≤ v₁ - v₀)
    rwa [nearest_neg, h₀] at hmono
  have hscaled : -v₀ ≤ nearest (v₁ - v₀) * nearest (a / b) := by nlinarith
  have hmono := nearest_mono hscaled
  rw [nearest_neg, h₀] at hmono
  unfold reached
  linarith

/-- Up to a later moment it stays below the larger of its start and where it is then. -/
theorem reached_le (ha : 0 ≤ a) (haa : a ≤ a') (hab : a' ≤ b) (hb : 0 < b) :
    reached v₀ v₁ a b ≤ max v₀ (reached v₀ v₁ a' b) := by
  obtain ⟨hratio, -⟩ := nearest_ratio ha (haa.trans hab) hb
  have hlater : nearest (a / b) ≤ nearest (a' / b) := nearest_mono (div_le_div_of_nonneg_right haa hb.le)
  rcases le_total 0 (nearest (v₁ - v₀)) with hup | hdown
  · refine le_max_of_le_right (add_le_add_right ?_ v₀)
    exact nearest_mono (mul_le_mul_of_nonneg_left hlater hup)
  · refine le_max_of_le_left ?_
    have hmono := nearest_mono (mul_nonpos_of_nonpos_of_nonneg hdown hratio)
    rw [nearest_zero] at hmono
    unfold reached
    linarith

end Reached

variable {p q : Duration × Binary64} {t u : Duration} {v₀ v₁ : ℚ}

/-- No step of a segment overflows before the last one. -/
theorem segment_eq (hp : HasValue p.2 v₀) (hq : HasValue q.2 v₁) (hpos : 0 ≤ v₀) (hpos₁ : 0 ≤ v₁) (hpq : p.1 < q.1)
    (htq : t ≤ q.1) : segment p q t =
      ofRat (reached v₀ v₁ (t.since p.1).roundedSecs (q.1.since p.1).roundedSecs) := by
  have hspan : 0 < (q.1.since p.1).roundedSecs := roundedSecs_pos (Nat.sub_pos_of_lt (lt_iff.mp hpq))
  have hle : (t.since p.1).roundedSecs ≤ (q.1.since p.1).roundedSecs :=
    roundedSecs_mono (le_iff.mpr (Nat.sub_le_sub_right (le_iff.mp htq) _))
  obtain ⟨hratio, hone⟩ := nearest_ratio (roundedSecs_nonneg _) hle hspan
  have hdiff : HasValue (q.2 - p.2) (nearest (v₁ - v₀)) := by
    rw [hq.sub hp]
    rcases le_total v₀ v₁ with hup | hdown
    · exact hq.round (by rw [abs_of_nonneg (by linarith), abs_of_nonneg hpos₁]; linarith)
    · exact hp.round (by rw [abs_of_nonpos (by linarith), abs_of_nonneg hpos]; linarith)
  have hpart : HasValue (Arith.asSecs (t.since p.1) / Arith.asSecs (q.1.since p.1) : Binary64)
      (nearest ((t.since p.1).roundedSecs / (q.1.since p.1).roundedSecs)) := by
    have hunit : HasValue (ofRat 1) 1 := hasValue_two_pow (e := 0) (by norm_num)
    have hquot := HasValue.div (hasValue_asSecsF64 (t.since p.1)) (hasValue_asSecsF64 (q.1.since p.1)) hspan.ne'
    refine hquot ▸ hunit.round ?_
    rw [abs_one, abs_of_nonneg (div_nonneg (roundedSecs_nonneg _) hspan.le)]
    exact (div_le_one hspan).mpr hle
  have hstep := hdiff.mul hpart
  have hproduct : HasValue ((q.2 - p.2) * (Arith.asSecs (t.since p.1) / Arith.asSecs (q.1.since p.1)))
      (nearest (nearest (v₁ - v₀) * nearest ((t.since p.1).roundedSecs / (q.1.since p.1).roundedSecs))) := by
    refine hstep ▸ hdiff.round ?_
    rw [abs_mul, abs_of_nonneg hratio]
    exact mul_le_of_le_one_right (abs_nonneg _) hone
  exact hp.add hproduct

theorem starts_segment {ps : Series Binary64} (h : Sound ps) : Starts segment ps := by
  intro p hp q hq hpq
  obtain ⟨v₀, hv₀, hpos⟩ := h p hp
  obtain ⟨v₁, hv₁, hpos₁⟩ := h q hq
  have hnone : (p.1.since p.1).roundedSecs = 0 := by
    have hzero : p.1.since p.1 = ⟨0, by norm_num⟩ := ext' (Nat.sub_self _)
    rw [hzero]
    decide +kernel
  rw [segment_eq hv₀ hv₁ hpos hpos₁ hpq hpq.le, hnone, reached, zero_div, nearest_zero, mul_zero, nearest_zero, add_zero]
  exact hv₀.eq_ofRat.symm

theorem nonneg_segment (hp : HasValue p.2 v₀) (hq : HasValue q.2 v₁) (hpos : 0 ≤ v₀) (hpos₁ : 0 ≤ v₁) (hpq : p.1 < q.1)
    (htq : t ≤ q.1) {v : ℚ} (hv : HasValue (segment p q t) v) : 0 ≤ v := by
  rw [segment_eq hp hq hpos hpos₁ hpq htq] at hv
  rw [hasValue_ofRat hv]
  exact nearest_nonneg (reached_nonneg hp.inFormat hpos hpos₁ (roundedSecs_nonneg _)
    (roundedSecs_mono (le_iff.mpr (Nat.sub_le_sub_right (le_iff.mp htq) _))) (roundedSecs_pos (Nat.sub_pos_of_lt (lt_iff.mp hpq))))

/-- Where a segment's start fits and a later moment of it, all before it do. -/
theorem fits_segment (hp : HasValue p.2 v₀) (hq : HasValue q.2 v₁) (hpos : 0 ≤ v₀) (hpos₁ : 0 ≤ v₁) (hpq : p.1 < q.1)
    (htu : t ≤ u) (huq : u ≤ q.1) (hstart : Fits p.2) (hlater : Fits (segment p q u)) : Fits (segment p q t) := by
  have hspan : 0 < (q.1.since p.1).roundedSecs := roundedSecs_pos (Nat.sub_pos_of_lt (lt_iff.mp hpq))
  have hwhole : (u.since p.1).roundedSecs ≤ (q.1.since p.1).roundedSecs :=
    roundedSecs_mono (le_iff.mpr (Nat.sub_le_sub_right (le_iff.mp huq) _))
  have hpart : (t.since p.1).roundedSecs ≤ (u.since p.1).roundedSecs :=
    roundedSecs_mono (le_iff.mpr (Nat.sub_le_sub_right (le_iff.mp htu) _))
  have hnonneg : ∀ {a}, 0 ≤ a → a ≤ (q.1.since p.1).roundedSecs → 0 ≤ reached v₀ v₁ a (q.1.since p.1).roundedSecs :=
    fun ha hab => reached_nonneg hp.inFormat hpos hpos₁ ha hab hspan
  rw [segment_eq hp hq hpos hpos₁ hpq huq, fits_ofRat (hnonneg (roundedSecs_nonneg _) hwhole)] at hlater
  rw [segment_eq hp hq hpos hpos₁ hpq (htu.trans huq), fits_ofRat (hnonneg (roundedSecs_nonneg _) (hpart.trans hwhole))]
  have hle : nearest (reached v₀ v₁ (t.since p.1).roundedSecs (q.1.since p.1).roundedSecs) ≤
      nearest (max v₀ (reached v₀ v₁ (u.since p.1).roundedSecs (q.1.since p.1).roundedSecs)) :=
    nearest_mono (reached_le (roundedSecs_nonneg _) hpart hwhole hspan)
  rw [nearest_mono.map_max, hp.inFormat] at hle
  exact hle.trans_lt (max_lt ((fits_of_hasValue hp).mp hstart) hlater)

/-- The values that a column takes fit a duration: the last point of each time, and the
segment to a later one up to its last nanosecond. -/
structure Short (ps : Series Binary64) : Prop where
  points : ∀ pre p post, ps = pre ++ p :: post → (∀ q ∈ post, p.1 < q.1) → Fits p.2
  segments : ∀ pre p q post, ps = pre ++ p :: q :: post → p.1 < q.1 → ∀ u : Duration, u.nanos + 1 = q.1.nanos →
    Fits (segment p q u)

theorem short_iff {ps : Series Binary64} (hsound : Sound ps) (hps : InOrder ps) :
    (∀ t, ∀ v ∈ value segment ps t, Fits v) ↔ Short ps := by
  have htake : ∀ {t v}, Takes segment ps t (some v) ↔ v ∈ value segment ps t := fun {t v} =>
    (takes_iff (starts_segment hsound) hps).trans ⟨fun h => h.symm, fun h => h.symm⟩
  constructor
  · intro h
    refine ⟨fun pre p post heq hpost => h p.1 _ (htake.mp (.on heq rfl hpost)), fun pre p q post heq hpq u hu => ?_⟩
    have huq : u < q.1 := lt_iff.mpr (by omega)
    rcases (le_iff.mpr (by have := lt_iff.mp hpq; omega) : p.1 ≤ u).eq_or_lt with rfl | hpu
    · have hpost : ∀ r ∈ q :: post, p.1 < r.1 := by
        rw [heq, ← List.singleton_append, ← List.append_assoc] at hps
        exact lt_of_inOrder hps huq
      rw [starts_segment hsound p (by simp [heq]) q (by simp [heq]) hpq]
      exact h p.1 _ (htake.mp (.on heq rfl hpost))
    · exact h u _ (htake.mp (.between heq hpu huq))
  · intro h t v hv
    cases htake.mpr hv with
    | on heq hp hpost => exact h.points _ _ _ heq (hp ▸ hpost)
    | @between pre post p q heq hpt htq =>
      obtain ⟨v₀, hv₀, hpos⟩ := hsound p (by simp [heq])
      obtain ⟨v₁, hv₁, hpos₁⟩ := hsound q (by simp [heq])
      have hpost : ∀ r ∈ q :: post, p.1 < r.1 := by
        rw [heq, ← List.singleton_append, ← List.append_assoc] at hps
        exact lt_of_inOrder hps (hpt.trans htq)
      have hq : 0 < q.1.nanos := (Nat.zero_le _).trans_lt (lt_iff.mp htq)
      have hu : (⟨q.1.nanos - 1, (Nat.sub_le ..).trans_lt q.1.lt⟩ : Duration).nanos + 1 = q.1.nanos :=
        Nat.sub_add_cancel hq
      refine fits_segment hv₀ hv₁ hpos hpos₁ (hpt.trans htq) (le_iff.mpr ?_) (le_iff.mpr ?_) (h.points _ _ _ heq hpost)
        (h.segments _ _ _ _ heq (hpt.trans htq) _ hu)
      · have := lt_iff.mp htq
        omega
      · omega
    | after heq _ => exact h.points _ _ _ heq nofun

theorem value_nonneg {ps : Series Binary64} (hsound : Sound ps) (hps : InOrder ps) {x : Binary64}
    (hx : x ∈ value segment ps t) {v : ℚ} (hv : HasValue x v) : 0 ≤ v := by
  have hpoint : ∀ p ∈ ps, HasValue p.2 v → 0 ≤ v := fun p hp hv => by
    obtain ⟨w, hw, hpos⟩ := hsound p hp
    rwa [hv.unique hw]
  cases (takes_iff (starts_segment hsound) hps).mpr (Option.mem_def.mp hx).symm with
  | on heq | after heq => exact hpoint _ (heq ▸ List.mem_append_right _ List.mem_cons_self) hv
  | @between pre post p q heq hpt htq =>
    obtain ⟨v₀, hv₀, hpos⟩ := hsound p (by simp [heq])
    obtain ⟨v₁, hv₁, hpos₁⟩ := hsound q (by simp [heq])
    exact nonneg_segment hv₀ hv₁ hpos hpos₁ (hpt.trans htq) htq.le hv

/-! ### Cells of seconds -/

theorem nonneg_of_le {x : Binary64} {v : ℚ} (h : Arith.le (Arith.ofRat 0) x = true) (hv : HasValue x v) : 0 ≤ v := by
  have hzero : (Arith.ofRat 0 : Binary64) = .finite 0 ⟨nearest_zero, by norm_num⟩ := by
    have hvalue : HasValue (.finite 0 ⟨nearest_zero, by norm_num⟩) 0 := ⟨_, rfl⟩
    exact hvalue.eq_ofRat.symm
  obtain ⟨_, rfl⟩ := hv
  rw [hzero] at h
  exact of_decide_eq_true h

theorem hasValue_ofNumber {n : Number} {x : Binary64} (h : Arith.ofNumber n = some x) : ∃ v, HasValue x v := by
  dsimp only [Arith.ofNumber] at h
  split at h
  · exact ⟨_, _, (Option.some.inj h).symm⟩
  · cases h

theorem sound_readValue {line : ℕ} {column : Column} {cell : String} {x : Binary64} (h : readValue line column cell = .ok x) :
    ∃ v, HasValue x v ∧ 0 ≤ v := by
  unfold readValue at h
  split at h
  · cases h
  · rename_i y hy
    split_ifs at h with hpos
    obtain rfl := Except.ok.inj h
    obtain ⟨n, -, hn⟩ := Option.bind_eq_some_iff.mp hy
    obtain ⟨v, hv⟩ := hasValue_ofNumber hn
    exact ⟨v, hv, nonneg_of_le hpos hv⟩

theorem sound_timeOf {row : ℕ × String} {x : Binary64} (h : timeOf row = some x) : ∃ v, HasValue x v ∧ 0 ≤ v := by
  have h := toOption_eq_some.mp h
  unfold readTime at h
  split at h
  · cases h
  · split at h
    · cases h
    · rename_i n _ y hy
      split_ifs at h with hpos
      obtain rfl := Except.ok.inj h
      obtain ⟨v, hv⟩ := hasValue_ofNumber hy
      exact ⟨v, hv, nonneg_of_le hpos hv⟩

/-- Units of time are of a second at most. -/
theorem scale_le {unit : String} {d : Duration} (h : timeScale unit = some d) : d.roundedSecs ≤ 1 := by
  have hsecond : roundedSecs ⟨10 ^ 9, by norm_num⟩ = 1 := by decide +kernel
  refine (roundedSecs_mono (le_iff.mpr ?_)).trans_eq hsecond
  unfold timeScale at h
  split_ifs at h <;> obtain rfl := Option.some.inj h <;> norm_num

variable {unit : Duration} {columns : List (Column × Binary64)} {rows : List (ℕ × String)}
  {out : List (Duration × List (Column × Binary64))} {text : String}

/-- Delays and jitters are no larger than their cells. -/
theorem sound_points (hsheet : Sheet text unit columns rows) (h : Accepted unit columns rows out) {c : Column}
    (hc : ∀ unit, scaleOf (K := Binary64) c unit = (timeScale unit).map Arith.asSecs) : Sound (points out c) := by
  intro p hp
  obtain ⟨line, cell, x, unit, scale, hx, hscale, hpoint⟩ := exists_of_mem_points hsheet h hp
  obtain ⟨v, hv, hpos⟩ := sound_readValue hx
  rw [hc] at hscale
  obtain ⟨d, hd, rfl⟩ := Option.map_eq_some_iff.mp hscale
  have hproduct : HasValue p.2 (nearest (v * d.roundedSecs)) := by
    have hmul := hv.mul (hasValue_asSecsF64 d)
    rw [hpoint]
    refine hmul ▸ hv.round ?_
    rw [abs_of_nonneg (mul_nonneg hpos (roundedSecs_nonneg d)), abs_of_nonneg hpos]
    exact mul_le_of_le_one_right hpos (scale_le hd)
  exact ⟨_, hproduct, nearest_nonneg (mul_nonneg hpos (roundedSecs_nonneg d))⟩

/-- The values are there when the seconds of delay and jitter fit. -/
theorem Values.exists_of {v : Column → Option Binary64} (hdelay : ∀ x ∈ v .delay, ∀ q, HasValue x q → 0 ≤ q)
    (hjitter : ∀ x ∈ v .jitter, ∀ q, HasValue x q → 0 ≤ q) :
    (∃ vs, Values.of v = some vs) ↔ (∀ x ∈ v .delay, Fits x) ∧ ∀ x ∈ v .jitter, Fits x := by
  have hfits : ∀ o : Option Binary64, (∀ x ∈ o, ∀ q, HasValue x q → 0 ≤ q) →
      ((∃ d, o.mapM Arith.fromSecs = some d) ↔ ∀ x ∈ o, Fits x) := by
    intro o ho
    cases o with
    | none => exact ⟨fun _ => nofun, fun _ => ⟨none, rfl⟩⟩
    | some x =>
      have hsome : (∃ d, (some x).mapM Arith.fromSecs = some d) ↔ ∃ d, fromSecsF64 x = some d := by
        change (∃ d, (some x).mapM fromSecsF64 = some d) ↔ _
        cases hd : fromSecsF64 x <;> simp [hd]
      rw [hsome, ← Option.isSome_iff_exists, fromSecsF64_isSome (ho x rfl)]
      exact ⟨fun h _ hmem => Option.some.inj hmem ▸ h, fun h => h x rfl⟩
  rw [← hfits _ hdelay, ← hfits _ hjitter, Values.of]
  simp only [Option.bind_eq_bind, Option.bind_eq_some_iff]
  constructor
  · rintro ⟨vs, delay, hdelay, jitter, hjitter, -⟩
    exact ⟨⟨delay, hdelay⟩, jitter, hjitter⟩
  · rintro ⟨⟨delay, hdelay⟩, jitter, hjitter⟩
    exact ⟨_, delay, hdelay, jitter, hjitter, rfl⟩

/-- The values at a time are there when what delay and jitter have then fits. -/
theorem exists_at (hsheet : Sheet text unit columns rows) (h : Accepted unit columns rows out) (length t : Duration)
    (looped : Bool) : (∃ vs, (Trace.mk (points out) length).at t looped = some vs) ↔
      (∀ v ∈ value segment (points out .delay) (Trace.clock ⟨points out, length⟩ t looped), Fits v) ∧
        ∀ v ∈ value segment (points out .jitter) (Trace.clock ⟨points out, length⟩ t looped), Fits v := by
  rw [Values.of_eq]
  exact Values.exists_of
    (fun x hx q => value_nonneg (sound_points hsheet h fun _ => rfl) (inOrder_points h _) hx)
    (fun x hx q => value_nonneg (sound_points hsheet h fun _ => rfl) (inOrder_points h _) hx)

end Rounded

/-! ### Traces that do what they say -/

/-- What is asked of a text: it is parsed without a panic, and as a trace has values at
every time, which of exact numbers are those of the points its rows give, and repeats when
looped. -/
structure Interpolates (text : String) : Prop where
  parses : parse text ≠ .error (.panic : Halt Binary64)
  plays : ∀ trace : Trace Binary64, parse text = .ok trace → ∀ t looped, ∃ vs, trace.at t looped = some vs
  polylinear : ∀ trace : Trace ℚ, parse text = .ok trace → ∃ unit columns rows out, Sheet text unit columns rows ∧
    Accepted unit columns rows out ∧ ∀ t, ∃ v, Polylinear trace out t v
  periodic : ∀ trace : Trace Binary64, parse text = .ok trace → ∀ t t' : Duration,
    t'.nanos = t.nanos + trace.length.nanos → trace.at t' true = trace.at t true
  repeats : ∀ trace : Trace Binary64, parse text = .ok trace → trace.length.nanos ≤ 2 ^ 64 → ∀ t t' : Duration,
    t'.nanos = t.nanos % trace.length.nanos → trace.at t true = trace.at t' false

/-- No row that follows accepted ones has a time past what a duration holds, and where all
are accepted the delays and jitters fit one. -/
structure Bounded (text : String) : Prop where
  times : ∀ unit, ∀ columns : List (Column × Binary64), ∀ rows, Sheet text unit columns rows → ∀ pre row post out,
    rows = pre ++ row :: post → Accepted unit columns pre out → (fields row.2).length ≤ columns.length + 1 →
      ∀ x, timeOf row = some x → Fits (x * unit.asSecsF64)
  values : ∀ unit, ∀ columns : List (Column × Binary64), ∀ rows out, Sheet text unit columns rows → rows ≠ [] →
    Accepted unit columns rows out → Short (points out .delay) ∧ Short (points out .jitter)

/-- Parsing does not panic exactly on texts whose reached times fit. -/
theorem parse_ne_panic {text : String} : parse text ≠ .error (.panic : Halt Binary64) ↔
    ∀ unit, ∀ columns : List (Column × Binary64), ∀ rows, Sheet text unit columns rows → ∀ pre row post out,
      rows = pre ++ row :: post → Accepted unit columns pre out → (fields row.2).length ≤ columns.length + 1 →
        ∀ x, timeOf row = some x → Fits (x * unit.asSecsF64) := by
  have htime : ∀ {unit : Duration} {row : ℕ × String} {x : Binary64}, timeOf row = some x →
      (Arith.fromSecs (x * Arith.asSecs unit) = none ↔ ¬Fits (x * unit.asSecsF64)) := by
    intro unit row x hx
    obtain ⟨v, hv, hpos⟩ := sound_timeOf hx
    have hnonneg : ∀ q, Binary64.HasValue (x * unit.asSecsF64) q → 0 ≤ q := by
      intro q hq
      rw [hv.mul (hasValue_asSecsF64 unit)] at hq
      rw [Binary64.hasValue_ofRat hq]
      exact Binary64.nearest_nonneg (mul_nonneg hpos (roundedSecs_nonneg unit))
    rw [← fromSecsF64_isSome hnonneg, Option.not_isSome_iff_eq_none]
    rfl
  constructor
  · intro h unit columns rows hsheet pre row post out hrows haccepted hcells x hx
    by_contra hnot
    exact h (parse_eq_panic.mpr ⟨unit, columns, rows, hsheet, pre, row, post, out, hrows, haccepted, hcells, x, hx,
      (htime hx).mpr hnot⟩)
  · intro h hpanic
    obtain ⟨unit, columns, rows, hsheet, pre, row, post, out, hrows, haccepted, hcells, x, hx, hnone⟩ :=
      parse_eq_panic.mp hpanic
    exact (htime hx).mp hnone (h unit columns rows hsheet pre row post out hrows haccepted hcells x hx)

/-- A text does what is asked of it exactly when its times and values are bounded. -/
theorem interpolates_iff (text : String) : Interpolates text ↔ Bounded text := by
  have hshort : ∀ {unit} {columns : List (Column × Binary64)} {rows out} (hsheet : Sheet text unit columns rows)
      (haccepted : Accepted unit columns rows out), (∀ t, ∀ v ∈ value segment (points out .delay) t, Fits v) ∧
        (∀ t, ∀ v ∈ value segment (points out .jitter) t, Fits v) ↔
          Short (points out .delay) ∧ Short (points out .jitter) := fun hsheet haccepted =>
    and_congr (short_iff (sound_points hsheet haccepted fun _ => rfl) (inOrder_points haccepted .delay))
      (short_iff (sound_points hsheet haccepted fun _ => rfl) (inOrder_points haccepted .jitter))
  constructor
  · intro h
    refine ⟨parse_ne_panic.mp h.parses, fun unit columns rows out hsheet hne haccepted => ?_⟩
    have hparse := parse_eq_ok.mpr ⟨unit, columns, rows, out, hsheet, hne, haccepted, rfl⟩
    have hfits := fun t => (exists_at hsheet haccepted _ t false).mp (h.plays _ hparse t false)
    exact (hshort hsheet haccepted).mp ⟨fun t => (hfits t).1, fun t => (hfits t).2⟩
  · intro h
    refine ⟨parse_ne_panic.mpr h.times, fun trace hparse t looped => ?_, fun trace hparse => ?_,
      fun trace _ t t' ht => at_add_length trace ht, fun trace _ hlength t t' ht => at_mod_length trace hlength ht⟩
    · obtain ⟨unit, columns, rows, out, hsheet, hne, haccepted, rfl⟩ := parse_eq_ok.mp hparse
      obtain ⟨hdelay, hjitter⟩ := (hshort hsheet haccepted).mpr (h.values unit columns rows out hsheet hne haccepted)
      exact (exists_at hsheet haccepted _ t looped).mpr ⟨hdelay _, hjitter _⟩
    · obtain ⟨unit, columns, rows, out, hsheet, -, haccepted, rfl⟩ := parse_eq_ok.mp hparse
      exact ⟨unit, columns, rows, out, hsheet, haccepted, fun t => ⟨_, polylinear_points haccepted _ t⟩⟩

def isPanic : Except (Halt Binary64) (Trace Binary64) → Bool
  | .error .panic => true
  | _ => false

/-- A time just below what a duration holds, which rounds to it. -/
theorem trace_not_interpolated : ¬Interpolates "t_s,delay_ms\n18446744073709551615,5\n" := by
  intro h
  have hpanic : isPanic (parse "t_s,delay_ms\n18446744073709551615,5\n") = true := by decide +kernel
  cases hparse : parse (K := Binary64) "t_s,delay_ms\n18446744073709551615,5\n" with
  | ok trace =>
    rw [hparse] at hpanic
    cases hpanic
  | error e =>
    rw [hparse] at hpanic
    cases e with
    | panic => exact h.parses hparse
    | err e => cases hpanic

end NlinkLab.Traces
