import NlinkLab.Data.Fallible
import NlinkLab.Validator.Endpoints

/-! What the validator's silence says of values: of a topology without errors, that the
planner reads every impairment, rate limit and `qdisc` block. -/

namespace NlinkLab

open Fallible

/-! ### Numbers -/

theorem trim_of_forall_not_isWhitespace {s : String} (h : ∀ c ∈ s.toList, isWhitespace c = false) : trim s = s := by
  have hdrop : ∀ {l : List Char}, (∀ c ∈ l, isWhitespace c = false) → l.dropWhile isWhitespace = l := by
    intro l hl
    cases l with
    | nil => rfl
    | cons c l => simp [hl c List.mem_cons_self]
  unfold trim
  rw [hdrop h, hdrop fun c hc => h c (List.mem_reverse.mp hc), List.reverse_reverse, String.ofList_toList]

theorem not_isWhitespace_of_toDigit {c : Char} {d : Nat} (h : IpAddr.toDigit 10 c = some d) :
    isWhitespace c = false := by
  have hrange : '0' ≤ c ∧ c ≤ '9' := by
    unfold IpAddr.toDigit at h
    dsimp only at h
    rw [Option.filter_eq_some_iff] at h
    obtain ⟨h, hd⟩ := h
    have hd := of_decide_eq_true hd
    split_ifs at h with h0 ha hA
    · exact h0
    · cases h
      omega
    · cases h
      omega
  have hlow : 48 ≤ c.toNat := hrange.1
  have hhigh : c.toNat ≤ 57 := hrange.2
  unfold isWhitespace
  simp only [List.mem_cons, List.not_mem_nil, or_false, decide_eq_false_iff_not, not_or, not_and]
  omega

/-- A number stands without space around it. -/
theorem trim_of_parseUnsigned {bound n : Nat} {s : String} (h : parseUnsigned bound s = .ok n) : trim s = s := by
  apply trim_of_forall_not_isWhitespace
  obtain ⟨-, ds, hds, -⟩ := parseUnsigned_eq_ok.mp h
  have hdigits : ∀ c ∈ unsignedDigits s.toList, isWhitespace c = false := fun c hc => by
    obtain ⟨d, hd⟩ := Option.isSome_iff_exists.mp (isSome_of_mapM hds c hc)
    exact not_isWhitespace_of_toDigit hd
  unfold unsignedDigits at hdigits
  split at hdigits
  · rename_i c cs hs
    rw [hs]
    exact List.forall_mem_cons.mpr ⟨rfl, hdigits⟩
  · exact hdigits

namespace Validator

variable {nl : Nlink} {vals : Values}

/-! ### Values -/

/-- Issues that are no errors. -/
def Silent (issues : List ValidationIssue) : Prop := ∀ issue ∈ issues, issue.severity ≠ .error

theorem Silent.append {l l' : List ValidationIssue} (h : Silent (l ++ l')) : Silent l ∧ Silent l' :=
  ⟨fun i hi => h i (List.mem_append_left _ hi), fun i hi => h i (List.mem_append_right _ hi)⟩

theorem Silent.flatMap {A : Type} {l : List A} {f : A → List ValidationIssue} (h : Silent (l.flatMap f)) {a : A}
    (ha : a ∈ l) : Silent (f a) := fun i hi => h i (List.mem_flatMap.mpr ⟨a, ha, hi⟩)

theorem valueError_of_checkValue {rule value location : String} {kind : ValueKind}
    (h : Silent (checkValue nl vals rule kind value location).toList) : valueError nl vals kind value = none := by
  unfold checkValue checkUnresolved at h
  cases he : valueError nl vals kind value with
  | none => rfl
  | some e =>
    rw [he] at h
    split_ifs at h
    · exact absurd rfl (h _ (Option.mem_toList.mpr rfl))
    · exact absurd rfl (h _ (Option.mem_toList.mpr rfl))

/-- A value of a record that is accepted is one of its kind. -/
theorem valueError_of_checkValues {rule location : String} {fields : List (String × Option String × ValueKind)}
    (h : Silent (checkValues nl vals rule location fields)) {name value : String} {kind : ValueKind}
    (hmem : (name, some value, kind) ∈ fields) : valueError nl vals kind value = none := by
  apply @valueError_of_checkValue _ _ rule _ (location ++ "." ++ name)
  intro issue hi
  exact h issue (List.mem_filterMap.mpr ⟨_, hmem, Option.mem_toList.mp hi⟩)

/-- The planner reads a value of a kind. -/
def Read (nl : Nlink) (vals : Values) : ValueKind → String → Prop
  | .duration, v => ∃ d, vals.parseDuration v = .ok d
  | .percent, v => ∃ p, vals.parsePercent v = .ok p
  | .rate, v => ∃ bps, vals.parseRateBps v = .ok bps
  | .packets, v => ∃ n, parseUnsigned (2 ^ 32) v = .ok n
  | .size, v => ∃ bytes, vals.parseSize v = .ok bytes
  | .loss, v => ∃ loss, parseLoss nl vals v = .ok loss
  | .seed, v => ∃ seed, Seed.parse v = .ok seed

theorem read_of_valueError {kind : ValueKind} {value : String} (h : valueError nl vals kind value = none) :
    Read nl vals kind value := by
  have hok : ∀ {E A : Type} {r : Except E A}, (∀ e, r ≠ .error e) → ∃ a, r = .ok a := by
    intro E A r hr
    cases r with
    | ok a => exact ⟨a, rfl⟩
    | error e => exact absurd rfl (hr e)
  cases kind <;> refine hok fun e he => ?_ <;> simp only [valueError, he] at h <;> cases h

theorem read_of_checkValues {rule location : String} {fields : List (String × Option String × ValueKind)}
    (h : Silent (checkValues nl vals rule location fields)) {name value : String} {kind : ValueKind}
    (hmem : (name, some value, kind) ∈ fields) : Read nl vals kind value :=
  read_of_valueError (valueError_of_checkValues h hmem)

theorem exists_option_of_checkValues {rule location : String} {fields : List (String × Option String × ValueKind)}
    (h : Silent (checkValues nl vals rule location fields)) (name : String) (kind : ValueKind) (o : Option String)
    (hmem : (name, o, kind) ∈ fields) : ∀ v, o = some v → Read nl vals kind v := by
  rintro v rfl
  exact read_of_checkValues h hmem

/-- An impairment that is accepted has a netem. -/
theorem exists_buildNetem {imp : Impairment} {location : String} (h : Silent (checkImpairment nl vals imp location))
    (seed : Option UInt64) : ∃ netem, buildNetem nl vals imp seed = .ok netem := by
  have hread := exists_option_of_checkValues h.append.1
  unfold buildNetem
  refine exists_bind (exists_option_mapM (hread "delay" .duration imp.delay (by simp))) fun _ _ => ?_
  refine exists_bind (exists_option_mapM (hread "jitter" .duration imp.jitter (by simp))) fun _ _ => ?_
  refine exists_bind (exists_option_mapM (hread "loss" .loss imp.loss (by simp))) fun _ _ => ?_
  refine exists_bind (exists_option_mapM (hread "rate" .rate imp.rate (by simp))) fun _ _ => ?_
  refine exists_bind (exists_option_mapM (hread "corrupt" .percent imp.corrupt (by simp))) fun _ _ => ?_
  refine exists_bind (exists_option_mapM (hread "reorder" .percent imp.reorder (by simp))) fun _ _ => ?_
  refine exists_bind (exists_option_mapM (hread "duplicate" .percent imp.duplicate (by simp))) fun _ _ => ?_
  refine exists_bind
    (exists_option_mapM (hread "delay-correlation" .percent imp.delayCorrelation (by simp))) fun _ _ => ?_
  refine exists_bind
    (exists_option_mapM (hread "loss-correlation" .percent imp.lossCorrelation (by simp))) fun _ _ => ?_
  refine exists_bind (exists_option_mapM fun v hv => ?_) fun _ _ => ⟨_, rfl⟩
  -- the validator reads the text as it is, the planner without the space around it
  obtain ⟨n, hn⟩ := hread "limit" .packets imp.limit (by simp) v hv
  rw [trim_of_parseUnsigned hn, hn]
  exact ⟨n, rfl⟩

theorem exists_netemSeed {t : Topology} {imp : Impairment} {location : String}
    (h : Silent (checkImpairment nl vals imp location)) (key : String) :
    ∃ seed, Seed.netemSeed t imp key = .ok seed := by
  unfold Seed.netemSeed
  cases t.lab.seed with
  | none => exact ⟨none, rfl⟩
  | some labSeed =>
    cases hown : imp.seed with
    | none => exact ⟨_, rfl⟩
    | some own =>
      obtain ⟨seed, hseed⟩ : Read nl vals .seed own :=
        exists_option_of_checkValues h.append.1 "seed" .seed imp.seed (by simp) own hown
      simp only [hseed]
      exact ⟨_, rfl⟩

theorem exists_rateLimiter {ep location : String} {limit : RateLimit}
    (h : Silent (checkValues nl vals "invalid-impairment-value" location
      [("egress", limit.egress, .rate), ("ingress", limit.ingress, .rate), ("burst", limit.burst, .size)])) :
    ∃ spec, rateLimiter vals ep limit = .ok spec := by
  have hread := exists_option_of_checkValues h
  unfold rateLimiter
  refine exists_bind (exists_option_mapM fun v hv => ?_) fun _ _ => ?_
  · obtain ⟨bps, hbps⟩ := hread "egress" .rate limit.egress (by simp) v hv
    exact ⟨bps, mapError_eq_ok.mpr hbps⟩
  refine exists_bind (exists_option_mapM fun v hv => ?_) fun _ _ => ?_
  · obtain ⟨bps, hbps⟩ := hread "ingress" .rate limit.ingress (by simp) v hv
    exact ⟨bps, mapError_eq_ok.mpr hbps⟩
  refine exists_bind (exists_option_mapM fun v hv => ?_) fun _ _ => ⟨_, rfl⟩
  obtain ⟨bytes, hbytes⟩ := hread "burst" .size limit.burst (by simp) v hv
  exact ⟨bytes, mapError_eq_ok.mpr hbytes⟩

/-- A `qdisc` block that is accepted has a qdisc. -/
theorem exists_buildQdisc {key location : String} {qdisc : QdiscConfig}
    (h : Silent (checkQdiscKind nl vals key location qdisc.kind)) : ∃ spec, buildQdisc vals qdisc = .ok spec := by
  unfold buildQdisc
  cases hk : qdisc.kind with
  | tbf rate burst limit peakrate mtu =>
    rw [hk] at h
    obtain ⟨h, hpeak⟩ := h.append
    obtain ⟨hfields, hlimit⟩ := h.append
    refine exists_bind (read_of_checkValues hfields List.mem_cons_self) fun _ _ => ?_
    refine exists_bind (read_of_checkValues hfields (List.mem_cons_of_mem _ List.mem_cons_self)) fun _ _ => ?_
    refine exists_bind (exists_option_mapM fun v hv => ?_) fun _ _ => ?_
    · rw [hv] at hlimit
      exact read_of_checkValues hlimit.append.1 List.mem_cons_self
    exact exists_bind (exists_option_mapM (exists_option_of_checkValues hpeak "peakrate" .rate peakrate (by simp)))
      fun _ _ => ⟨_, rfl⟩
  | fqCodel target interval limit flows quantum ecn =>
    rw [hk] at h
    refine exists_bind (exists_option_mapM (exists_option_of_checkValues h "target" .duration target (by simp)))
      fun _ _ => ?_
    exact exists_bind (exists_option_mapM (exists_option_of_checkValues h "interval" .duration interval (by simp)))
      fun _ _ => ⟨_, rfl⟩
  | sfq perturb limit quantum =>
    rw [hk] at h
    exact exists_bind (exists_option_mapM (exists_option_of_checkValues h "perturb" .duration perturb (by simp)))
      fun _ _ => ⟨_, rfl⟩
  | prio bands => exact ⟨_, rfl⟩

/-! ### A topology's values -/

section

variable {t : Topology}

theorem silent_impairmentValues (h : t.valid nl vals) : Silent (validateImpairmentValues nl vals t) := by
  intro issue hi
  refine Topology.severity_of_valid h ?_
  unfold Topology.validate
  generalize validateImpairmentValues nl vals t = l at hi
  simp only [List.mem_append, hi, true_or, or_true]

theorem silent_qdiscs (h : t.valid nl vals) : Silent (validateQdiscs nl vals t) := by
  intro issue hi
  refine Topology.severity_of_valid h ?_
  unfold Topology.validate
  generalize validateQdiscs nl vals t = l at hi
  simp only [List.mem_append, hi, true_or, or_true]

theorem silent_impairment (h : t.valid nl vals) {key : String} {imp : Impairment} (himp : t.impairments[key]? = some imp) :
    Silent (checkImpairment nl vals imp ("impairments.\"" ++ key ++ "\"")) := by
  have hs := silent_impairmentValues h
  unfold validateImpairmentValues at hs
  have hmem := Std.ExtTreeMap.mem_toList_iff_getElem?_eq_some.mpr himp
  have hone := hs.append.1.append.1.append.1.flatMap hmem
  exact hone

theorem silent_pair (h : t.valid nl vals) {name : String} {network : Network} (hnet : t.networks[name]? = some network)
    {rule : NetworkImpairment} (hrule : rule ∈ network.impairments) :
    ∃ location capAt, Silent (checkCapped nl vals rule.impairment rule.rateCap location capAt) := by
  have hs := silent_impairmentValues h
  unfold validateImpairmentValues at hs
  have hmem := Std.ExtTreeMap.mem_toList_iff_getElem?_eq_some.mpr hnet
  obtain ⟨i, hi⟩ := exists_mem_zipIdx hrule
  have hpair := (hs.append.1.append.1.append.2.flatMap hmem).flatMap hi
  exact ⟨_, _, hpair⟩

theorem silent_rateLimit (h : t.valid nl vals) {key : String} {limit : RateLimit}
    (hlimit : t.rateLimits[key]? = some limit) :
    Silent (checkValues nl vals "invalid-impairment-value" ("rate_limits.\"" ++ key ++ "\"")
      [("egress", limit.egress, .rate), ("ingress", limit.ingress, .rate), ("burst", limit.burst, .size)]) := by
  have hs := silent_impairmentValues h
  unfold validateImpairmentValues at hs
  have hmem := Std.ExtTreeMap.mem_toList_iff_getElem?_eq_some.mpr hlimit
  have hone := hs.append.2.flatMap hmem
  exact hone

theorem silent_qdisc (h : t.valid nl vals) {key : String} {qdisc : QdiscConfig} (hqdisc : t.qdiscs[key]? = some qdisc) :
    Silent (checkQdiscKind nl vals key ("qdiscs.\"" ++ key ++ "\"") qdisc.kind) := by
  have hs := silent_qdiscs h
  unfold validateQdiscs at hs
  have hmem := Std.ExtTreeMap.mem_toList_iff_getElem?_eq_some.mpr hqdisc
  exact (hs.flatMap hmem).append.2

end

end Validator

end NlinkLab
