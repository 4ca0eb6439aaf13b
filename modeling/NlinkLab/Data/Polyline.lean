import Mathlib

/-! Interpolation through points in the order of their times, several of which may be equal:
nothing before the first point, the last of the points of a time at it, the segment to the
next in between, and the last value after. Segments are whatever starts at its point. -/

namespace NlinkLab.Polyline

variable {T K : Type*}

section Points

variable [LinearOrder T]

/-- Points in the order of their times. -/
def InOrder (ps : List (T × K)) : Prop := ps.Pairwise (·.1 ≤ ·.1)

/-- A point is not after a time. -/
def upTo (t : T) (p : T × K) : Bool := p.1 ≤ t

variable {ps pre post : List (T × K)} {p : T × K} {t : T}

theorem upTo_iff : upTo t p = true ↔ p.1 ≤ t := decide_eq_true_iff

theorem split_at (hpre : ∀ p ∈ pre, p.1 ≤ t) (hpost : ∀ q ∈ post.head?, t < q.1) :
    (pre ++ post).takeWhile (upTo t) = pre ∧ (pre ++ post).dropWhile (upTo t) = post := by
  have hall : ∀ p ∈ pre, upTo t p = true := fun p hp => upTo_iff.mpr (hpre p hp)
  rw [List.takeWhile_append_of_pos hall, List.dropWhile_append_of_pos hall]
  cases post with
  | nil => exact ⟨List.append_nil pre, rfl⟩
  | cons q post =>
    have hq : ¬upTo t q = true := fun hle => absurd (upTo_iff.mp hle) (not_le.mpr (hpost q rfl))
    rw [List.takeWhile_cons_of_neg hq, List.dropWhile_cons_of_neg hq]
    exact ⟨List.append_nil pre, rfl⟩

/-- The points up to a time, and those from the first after it. -/
theorem exists_split (ps : List (T × K)) (t : T) :
    ∃ pre post, ps = pre ++ post ∧ (∀ r ∈ pre, r.1 ≤ t) ∧ ∀ q ∈ post.head?, t < q.1 := by
  refine ⟨ps.takeWhile (upTo t), ps.dropWhile (upTo t), List.takeWhile_append_dropWhile.symm,
    fun r hr => upTo_iff.mp (List.mem_takeWhile_imp hr), fun q hq => ?_⟩
  have hnot := List.head?_dropWhile_not (upTo t) ps
  rw [Option.mem_def.mp hq] at hnot
  exact not_le.mp fun hle => Bool.false_ne_true (Eq.trans (Eq.symm hnot) (upTo_iff.mpr hle))

theorem le_of_inOrder (h : InOrder (pre ++ p :: post)) : ∀ r ∈ pre, r.1 ≤ p.1 := by
  intro r hr
  obtain ⟨-, -, hcross⟩ := List.pairwise_append.mp h
  exact hcross r hr p List.mem_cons_self

theorem lt_of_inOrder (h : InOrder (pre ++ p :: post)) (hp : t < p.1) : ∀ r ∈ p :: post, t < r.1 := by
  obtain ⟨-, htail, -⟩ := List.pairwise_append.mp h
  refine List.forall_mem_cons.mpr ⟨hp, fun r hr => hp.trans_le ?_⟩
  exact (List.pairwise_cons.mp htail).1 r hr

end Points

section Value

variable (seg : T × K → T × K → T → K) [LinearOrder T]

/-- What the points have at a time, with what a segment between two of them has. -/
inductive Takes (ps : List (T × K)) (t : T) : Option K → Prop where
  | before : (∀ p ∈ ps, t < p.1) → Takes ps t none
  | on {pre post : List (T × K)} {p : T × K} : ps = pre ++ p :: post → p.1 = t → (∀ q ∈ post, t < q.1) →
      Takes ps t (some p.2)
  | between {pre post : List (T × K)} {p q : T × K} : ps = pre ++ p :: q :: post → p.1 < t → t < q.1 →
      Takes ps t (some (seg p q t))
  | after {pre : List (T × K)} {p : T × K} : ps = pre ++ [p] → p.1 < t → Takes ps t (some p.2)

/-- The same by the last point not after the time and the one that follows. -/
def value (ps : List (T × K)) (t : T) : Option K :=
  (ps.takeWhile (upTo t)).getLast?.map fun p =>
    match (ps.dropWhile (upTo t)).head? with
    | some q => seg p q t
    | none => p.2

end Value

section

variable [LinearOrder T] {seg : T × K → T × K → T → K} {ps pre post : List (T × K)} {p q : T × K} {t : T}
  {v : Option K}

theorem value_of_split (hpre : ∀ p ∈ pre, p.1 ≤ t) (hp : p.1 ≤ t) (hpost : ∀ q ∈ post.head?, t < q.1) :
    value seg (pre ++ p :: post) t = some (match post.head? with
      | some q => seg p q t
      | none => p.2) := by
  have hall : ∀ r ∈ pre ++ [p], r.1 ≤ t := by
    intro r hr
    rcases List.mem_append.mp hr with hr | hr
    · exact hpre r hr
    · exact List.mem_singleton.mp hr ▸ hp
  have hsplit := split_at hall hpost
  rw [List.append_assoc, List.singleton_append] at hsplit
  rw [value, hsplit.1, hsplit.2, List.getLast?_concat, Option.map_some]

theorem value_of_before (h : ∀ q ∈ ps.head?, t < q.1) : value seg ps t = none := by
  have hsplit := split_at (List.forall_mem_nil fun p : T × K => p.1 ≤ t) h
  rw [List.nil_append] at hsplit
  rw [value, hsplit.1]
  rfl

/-- Segments start at the points before them. -/
def Starts (seg : T × K → T × K → T → K) (ps : List (T × K)) : Prop := ∀ p ∈ ps, ∀ q ∈ ps, p.1 < q.1 → seg p q p.1 = p.2

/-- Points in order have one value at each time. -/
theorem takes_iff (hseg : Starts seg ps) (h : InOrder ps) : Takes seg ps t v ↔ v = value seg ps t := by
  constructor
  · intro htakes
    cases htakes with
    | before hall => exact (value_of_before fun q hq => hall q (List.mem_of_head? hq)).symm
    | @on pre post p hps hp hpost =>
      subst hps hp
      rw [value_of_split (le_of_inOrder h) le_rfl fun q hq => hpost q (List.mem_of_head? hq)]
      cases post with
      | nil => rfl
      | cons q post =>
        have hstart := hseg p (by simp) q (by simp) (hpost q List.mem_cons_self)
        exact congrArg some hstart.symm
    | @between pre post p q hps hp hq =>
      subst hps
      rw [value_of_split (fun r hr => (le_of_inOrder h r hr).trans hp.le) hp.le (by simpa using hq)]
      rfl
    | @after pre p hps hp =>
      subst hps
      rw [value_of_split (fun r hr => (le_of_inOrder h r hr).trans hp.le) hp.le (by simp)]
      rfl
  · rintro rfl
    obtain ⟨pre, post, rfl, hle, hlt⟩ := exists_split ps t
    rcases List.eq_nil_or_concat' pre with rfl | ⟨pre, p, rfl⟩
    · have hall : ∀ r ∈ post, t < r.1 := by
        cases post with
        | nil => exact nofun
        | cons q post => exact @lt_of_inOrder _ _ _ [] _ _ _ h (hlt q rfl)
      rw [List.nil_append, value_of_before hlt]
      exact .before hall
    · have hp : p.1 ≤ t := hle p (List.mem_append_right _ List.mem_cons_self)
      have hpre : ∀ r ∈ pre, r.1 ≤ t := fun r hr => hle r (List.mem_append_left _ hr)
      rw [List.append_assoc, List.singleton_append] at h hseg ⊢
      rw [value_of_split hpre hp hlt]
      cases post with
      | nil =>
        rcases hp.eq_or_lt with rfl | hp
        · exact .on rfl rfl nofun
        · exact .after rfl hp
      | cons q post =>
        rcases hp.eq_or_lt with rfl | hp
        · have hafter : ∀ r ∈ q :: post, p.1 < r.1 := by
            rw [← List.singleton_append, ← List.append_assoc] at h
            exact lt_of_inOrder h (hlt q rfl)
          have hstart : seg p q p.1 = p.2 := hseg p (by simp) q (by simp) (hlt q rfl)
          exact (congrArg (Takes seg _ p.1 ∘ some) hstart).mpr (.on rfl rfl hafter)
        · exact .between rfl hp (hlt q rfl)

end

/-! ### Straight segments -/

/-- What the line between two points has at a time, with times placed by `x`. -/
def lerp [Field K] (x : T → K) (p q : T × K) (t : T) : K := p.2 + (q.2 - p.2) * ((x t - x p.1) / (x q.1 - x p.1))

theorem lerp_self [Field K] {x : T → K} (p q : T × K) : lerp x p q p.1 = p.2 := by
  rw [lerp, sub_self, zero_div, mul_zero, add_zero]

variable [LinearOrder T] [Field K] {x : T → K} {p q : T × K} {t : T}

theorem starts_lerp (ps : List (T × K)) : Starts (lerp x) ps := fun p _ q _ _ => lerp_self p q

variable [LinearOrder K] [IsStrictOrderedRing K]

/-- A segment stays between its ends. -/
theorem lerp_mem (hx : StrictMono x) (hp : p.1 ≤ t) (hq : t < q.1) :
    min p.2 q.2 ≤ lerp x p q t ∧ lerp x p q t ≤ max p.2 q.2 := by
  have hspan : 0 < x q.1 - x p.1 := sub_pos.mpr (hx (hp.trans_lt hq))
  have hlow : 0 ≤ (x t - x p.1) / (x q.1 - x p.1) := div_nonneg (sub_nonneg.mpr (hx.monotone hp)) hspan.le
  have hhigh : (x t - x p.1) / (x q.1 - x p.1) ≤ 1 := (div_le_one hspan).mpr (sub_le_sub_right (hx.monotone hq.le) _)
  unfold lerp
  rcases le_total p.2 q.2 with hle | hle
  · rw [min_eq_left hle, max_eq_right hle]
    constructor <;> nlinarith
  · rw [min_eq_right hle, max_eq_left hle]
    constructor <;> nlinarith

end NlinkLab.Polyline
