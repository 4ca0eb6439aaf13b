import Mathlib

/-! Lists changed step by step: a step keeps some elements, changes those and adds
others. Where no change bears on what a step keeps, the changes may be made to the
first list before all else, and the result is the same exactly when no element is
added that stays and that a later step changes. -/

namespace NlinkLab

/-- One step: what stays, what becomes of it, and what comes after it. -/
structure Rewrite (A : Type) where
  keep : A → Bool
  change : A → A
  adds : List A

namespace Rewrite

variable {A : Type}

def apply (r : Rewrite A) (l : List A) : List A := (l.filter r.keep).map r.change ++ r.adds

/-- The steps one after another. -/
def applyAll (rs : List (Rewrite A)) (l : List A) : List A := rs.foldl (fun l r => r.apply l) l

/-- Whether an element stays through all the steps. -/
def kept (rs : List (Rewrite A)) (a : A) : Bool := rs.all (·.keep a)

/-- What the steps make of an element that stays. -/
def changed (rs : List (Rewrite A)) (a : A) : A := rs.foldl (fun a r => r.change a) a

/-- The step without its change. -/
def still (r : Rewrite A) : Rewrite A := { r with change := id }

/-- No change bears on what a step keeps. -/
def Steady (rs : List (Rewrite A)) : Prop := ∀ r ∈ rs, ∀ r' ∈ rs, ∀ a, r'.keep (r.change a) = r'.keep a

@[simp] theorem applyAll_cons (r : Rewrite A) (rs : List (Rewrite A)) (l : List A) :
    applyAll (r :: rs) l = applyAll rs (r.apply l) := rfl

@[simp] theorem kept_cons (r : Rewrite A) (rs : List (Rewrite A)) (a : A) :
    kept (r :: rs) a = (r.keep a && kept rs a) := List.all_cons

@[simp] theorem changed_cons (r : Rewrite A) (rs : List (Rewrite A)) (a : A) :
    changed (r :: rs) a = changed rs (r.change a) := rfl

theorem Steady.tail {r : Rewrite A} {rs : List (Rewrite A)} (h : Steady (r :: rs)) : Steady rs :=
  fun s hs s' hs' => h s (List.mem_cons_of_mem _ hs) s' (List.mem_cons_of_mem _ hs')

theorem Steady.kept_change {r : Rewrite A} {rs : List (Rewrite A)} (h : Steady (r :: rs)) (a : A) :
    kept rs (r.change a) = kept rs a := by
  refine Bool.eq_iff_iff.mpr ?_
  simp only [kept, List.all_eq_true]
  refine forall₂_congr fun r' hr' => ?_
  rw [h r List.mem_cons_self r' (List.mem_cons_of_mem _ hr')]

theorem Steady.kept_changed {rs : List (Rewrite A)} (h : Steady rs) (a : A) : kept rs (changed rs a) = kept rs a := by
  have hall : ∀ (l : List (Rewrite A)), (∀ r ∈ l, r ∈ rs) → ∀ a, kept rs (changed l a) = kept rs a := by
    intro l
    induction l with
    | nil => exact fun _ _ => rfl
    | cons r l ih =>
      intro hl a
      rw [changed_cons, ih (fun s hs => hl s (List.mem_cons_of_mem _ hs))]
      refine Bool.eq_iff_iff.mpr ?_
      simp only [kept, List.all_eq_true]
      refine forall₂_congr fun r' hr' => ?_
      rw [h r (hl r List.mem_cons_self) r' hr']
  exact hall rs (fun _ hr => hr) a

/-- What was there first comes first, and what is added does not depend on it. -/
theorem applyAll_eq {rs : List (Rewrite A)} (h : Steady rs) (l : List A) :
    applyAll rs l = (l.filter (kept rs)).map (changed rs) ++ applyAll rs [] := by
  induction rs generalizing l with
  | nil =>
    have hkept : kept ([] : List (Rewrite A)) = fun _ => true := rfl
    have hchanged : changed ([] : List (Rewrite A)) = id := rfl
    rw [hkept, hchanged, List.filter_true, List.map_id]
    exact (List.append_nil l).symm
  | cons r rs ih =>
    have hstays : (((l.filter r.keep).map r.change).filter (kept rs)).map (changed rs) =
        (l.filter (kept (r :: rs))).map (changed (r :: rs)) := by
      rw [List.filter_map, List.map_map, List.filter_filter]
      have hkeep : (fun a => (kept rs ∘ r.change) a && r.keep a) = kept (r :: rs) := by
        funext a
        rw [Function.comp_apply, h.kept_change, kept_cons, Bool.and_comm]
      rw [hkeep]
      rfl
    rw [applyAll_cons, applyAll_cons, ih h.tail (r.apply l), ih h.tail (r.apply []), ← List.append_assoc]
    refine congrArg (· ++ applyAll rs []) ?_
    simp only [apply, List.filter_append, List.map_append, hstays, List.filter_nil, List.map_nil, List.nil_append]

theorem Steady.still {rs : List (Rewrite A)} : Steady (rs.map Rewrite.still) := by
  intro r hr r' _ a
  obtain ⟨s, -, rfl⟩ := List.mem_map.mp hr
  rfl

@[simp] theorem kept_still (rs : List (Rewrite A)) : kept (rs.map still) = kept rs := by
  funext a
  simp [kept, still, Function.comp_def]

@[simp] theorem changed_still (rs : List (Rewrite A)) : changed (rs.map still) = id := by
  induction rs with
  | nil => rfl
  | cons r rs ih =>
    funext a
    rw [List.map_cons, changed_cons, ih]
    rfl

/-- What the steps add is added unchanged. -/
def AddsStay (rs : List (Rewrite A)) : Prop :=
  ∀ pre r post, rs = pre ++ r :: post → ∀ a ∈ r.adds, kept post a → changed post a = a

theorem addsStay_cons {r : Rewrite A} {rs : List (Rewrite A)} :
    AddsStay (r :: rs) ↔ (∀ a ∈ r.adds, kept rs a → changed rs a = a) ∧ AddsStay rs := by
  constructor
  · intro h
    exact ⟨h [] r rs rfl, fun pre s post heq => h (r :: pre) s post (by rw [heq, List.cons_append])⟩
  · rintro ⟨hhead, htail⟩ pre s post heq
    cases pre with
    | nil =>
      obtain ⟨rfl, rfl⟩ := List.cons.inj heq
      exact hhead
    | cons p pre =>
      obtain ⟨rfl, rfl⟩ := List.cons.inj heq
      exact htail pre s post rfl

theorem applyAll_nil_eq_iff {rs : List (Rewrite A)} (h : Steady rs) :
    applyAll rs [] = applyAll (rs.map still) [] ↔ AddsStay rs := by
  induction rs with
  | nil => exact ⟨fun _ pre r post heq => absurd heq (by simp), fun _ => rfl⟩
  | cons r rs ih =>
    have hstill : Steady (rs.map Rewrite.still) := Steady.still
    have hadds : r.apply [] = r.adds := rfl
    have hadds' : r.still.apply [] = r.adds := rfl
    rw [addsStay_cons, ← ih h.tail, List.map_cons, applyAll_cons, applyAll_cons, hadds, hadds',
      applyAll_eq h.tail r.adds, applyAll_eq hstill r.adds, kept_still, changed_still, List.map_id]
    have hstays : ((r.adds.filter (kept rs)).map (changed rs) = r.adds.filter (kept rs)) ↔
        ∀ a ∈ r.adds, kept rs a → changed rs a = a := by
      have hiff := @List.map_inj_left _ _ (r.adds.filter (kept rs)) (changed rs) id
      rw [List.map_id] at hiff
      simp only [hiff, List.mem_filter, and_imp, id]
    rw [← hstays]
    constructor
    · intro heq
      exact List.append_inj heq (List.length_map _)
    · rintro ⟨hhead, htail⟩
      rw [hhead, htail]

/-- Changing the first list before all else gives the same exactly when what is added
stays as it is. -/
theorem applyAll_eq_hoisted_iff {rs : List (Rewrite A)} (h : Steady rs) (l : List A) :
    applyAll rs l = applyAll (rs.map still) (l.map (changed rs)) ↔ AddsStay rs := by
  have hfilter : (l.map (changed rs)).filter (kept rs) = (l.filter (kept rs)).map (changed rs) := by
    rw [List.filter_map]
    have hkept : kept rs ∘ changed rs = kept rs := funext h.kept_changed
    rw [hkept]
  rw [applyAll_eq h l, applyAll_eq Steady.still (l.map (changed rs)), kept_still, changed_still, List.map_id, hfilter,
    List.append_cancel_left_eq, applyAll_nil_eq_iff h]

end Rewrite

end NlinkLab
