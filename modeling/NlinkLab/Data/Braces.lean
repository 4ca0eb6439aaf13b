import Mathlib

/-! Text up to the closing brace that matches an opening one before it. The search counts
braces from the left; what it finds is the one cut whose left part is balanced. -/

namespace NlinkLab.Braces

variable {A : Type} [DecidableEq A] {o c : A}

/-- What stands before the first `c` that closes none of the `o` after `d` others, and what
after it. -/
def takeClosed (o c : A) : (d : Nat) → List A → Option (List A × List A)
  | _, [] => none
  | d, a :: l =>
    if a = o then (takeClosed o c (d + 1) l).map fun (e, after) => (a :: e, after)
    else if a = c then
      match d with
      | 0 => some ([], l)
      | d + 1 => (takeClosed o c d l).map fun (e, after) => (a :: e, after)
    else (takeClosed o c d l).map fun (e, after) => (a :: e, after)

/-- No `c` closes more than the `o` before it, up to `d` of them, and in the end all are closed. -/
structure Closes (o c : A) (d : Nat) (e : List A) : Prop where
  total : e.count c = e.count o + d
  within : ∀ pre, pre <+: e → pre.count c ≤ pre.count o + d

/-- Every `o` is closed by a `c` after it. -/
abbrev Balanced (o c : A) (e : List A) : Prop := Closes o c 0 e

theorem closes_nil {d : Nat} : Closes o c d [] ↔ d = 0 := by
  refine ⟨fun h => by simpa using h.total.symm, ?_⟩
  rintro rfl
  exact ⟨rfl, fun pre hpre => by rw [List.prefix_nil.mp hpre]; exact Nat.zero_le _⟩

/-- The counts after one item, by what the item does to the number of open ones. -/
theorem closes_cons {a : A} {d d' : Nat} {e : List A}
    (h : [a].count c + d' = [a].count o + d) : Closes o c d (a :: e) ↔ Closes o c d' e := by
  have hcount : ∀ x (l : List A), (a :: l).count x = [a].count x + l.count x := fun x l => by
    rw [← List.count_append, List.singleton_append]
  constructor
  · intro hc
    refine ⟨?_, fun pre hpre => ?_⟩
    · have htotal := hc.total
      rw [hcount c, hcount o] at htotal
      omega
    · have hwithin := hc.within (a :: pre) (List.cons_prefix_cons.mpr ⟨rfl, hpre⟩)
      rw [hcount c, hcount o] at hwithin
      omega
  · intro hc
    refine ⟨?_, fun pre hpre => ?_⟩
    · have htotal := hc.total
      rw [hcount c, hcount o]
      omega
    · cases pre with
      | nil => exact Nat.zero_le _
      | cons b pre =>
        obtain ⟨rfl, hrest⟩ := List.cons_prefix_cons.mp hpre
        have hwithin := hc.within pre hrest
        rw [hcount c, hcount o]
        omega

theorem takeClosed_eq_some (h : o ≠ c) {d : Nat} {l e after : List A} :
    takeClosed o c d l = some (e, after) ↔ l = e ++ c :: after ∧ Closes o c d e := by
  induction l generalizing d e with
  | nil => simp [takeClosed]
  | cons a l ih =>
    have hstep : ∀ d', [a].count c + d' = [a].count o + d →
        ((takeClosed o c d' l).map (fun (e, after) => (a :: e, after)) = some (e, after) ↔
          ∃ e', e = a :: e' ∧ l = e' ++ c :: after ∧ Closes o c d e) := by
      intro d' hd'
      simp only [Option.map_eq_some_iff, Prod.exists, Prod.mk.injEq]
      constructor
      · rintro ⟨e', after', hl, rfl, rfl⟩
        obtain ⟨hl, hcloses⟩ := ih.mp hl
        exact ⟨e', rfl, hl, (closes_cons hd').mpr hcloses⟩
      · rintro ⟨e', rfl, hl, hcloses⟩
        exact ⟨e', after, ih.mpr ⟨hl, (closes_cons hd').mp hcloses⟩, rfl, rfl⟩
    -- a cut after at least one item
    have hcons : (∃ e', e = a :: e' ∧ l = e' ++ c :: after ∧ Closes o c d e) ↔
        e ≠ [] ∧ a :: l = e ++ c :: after ∧ Closes o c d e := by
      cases e with
      | nil => simp
      | cons b e =>
        simp only [List.cons.injEq, ne_eq, reduceCtorEq, not_false_eq_true, true_and, List.cons_append]
        constructor
        · rintro ⟨_, ⟨rfl, rfl⟩, hl, hcloses⟩
          exact ⟨⟨rfl, hl⟩, hcloses⟩
        · rintro ⟨⟨rfl, hl⟩, hcloses⟩
          exact ⟨e, ⟨rfl, rfl⟩, hl, hcloses⟩
    rw [takeClosed.eq_def]
    dsimp only
    split_ifs with ho hcl
    · subst ho
      rw [hstep (d + 1) (by simp [h]; omega), hcons]
      refine and_iff_right_of_imp fun ⟨hl, _⟩ hnil => ?_
      rw [hnil] at hl
      exact h (List.cons.inj hl).1
    · subst hcl
      cases d with
      | zero =>
        constructor
        · intro heq
          obtain ⟨rfl, rfl⟩ := Prod.mk.inj (Option.some.inj heq)
          exact ⟨rfl, closes_nil.mpr rfl⟩
        · rintro ⟨hl, hcloses⟩
          cases e with
          | nil => rw [(List.cons.inj hl).2]
          | cons b e =>
            obtain ⟨rfl, -⟩ := List.cons.inj hl
            have hwithin := hcloses.within [a] (List.cons_prefix_cons.mpr ⟨rfl, List.nil_prefix⟩)
            simp [h.symm] at hwithin
      | succ d =>
        rw [hstep d (by simp [h.symm]; omega), hcons]
        refine and_iff_right_of_imp fun ⟨_, hcloses⟩ hnil => ?_
        rw [hnil] at hcloses
        exact absurd (closes_nil.mp hcloses) (Nat.succ_ne_zero d)
    · rw [hstep d (by simp [ho, hcl]), hcons]
      refine and_iff_right_of_imp fun ⟨hl, _⟩ hnil => ?_
      rw [hnil] at hl
      exact hcl (List.cons.inj hl).1

theorem length_of_takeClosed (h : o ≠ c) {d : Nat} {l e after : List A}
    (heq : takeClosed o c d l = some (e, after)) : e.length < l.length ∧ after.length < l.length := by
  obtain ⟨rfl, -⟩ := (takeClosed_eq_some h).mp heq
  rw [List.length_append, List.length_cons]
  omega

end NlinkLab.Braces
