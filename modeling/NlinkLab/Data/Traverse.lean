import NlinkLab.Data.BTreeMap
import NlinkLab.Data.Fallible

/-! A computation that may fail, over the values of a map in key order. -/

namespace NlinkLab.BTreeMap

open Fallible

variable {K V W E : Type} [Ord K] [Std.TransOrd K] [Std.LawfulEqOrd K]

/-- The map of the results; the first failure stops. -/
def traverse (f : K → V → Except E W) (m : BTreeMap K V) : Except E (BTreeMap K W) := do
  let entries ← m.toList.mapM fun e => (f e.1 e.2).map fun w => (e.1, w)
  return .ofList entries compare

/-- Two maps with the same keys, where each value of one gives the other's. -/
def Traversed (f : K → V → Except E W) (m : BTreeMap K V) (r : BTreeMap K W) : Prop :=
  ∀ k, m[k]? = none ∧ r[k]? = none ∨ ∃ v w, m[k]? = some v ∧ r[k]? = some w ∧ f k v = .ok w

theorem Traversed.unique {f : K → V → Except E W} {m : BTreeMap K V} {r r' : BTreeMap K W}
    (h : Traversed f m r) (h' : Traversed f m r') : r = r' := by
  refine Std.ExtTreeMap.ext_getElem? fun k => ?_
  rcases h k with ⟨hm, hr⟩ | ⟨v, w, hm, hr, hf⟩ <;> rcases h' k with ⟨hm', hr'⟩ | ⟨v', w', hm', hr', hf'⟩
  · rw [hr, hr']
  · rw [hm] at hm'
    cases hm'
  · rw [hm] at hm'
    cases hm'
  · rw [hm] at hm'
    cases hm'
    rw [hf] at hf'
    cases hf'
    rw [hr, hr']

omit [Ord K] [Std.TransOrd K] [Std.LawfulEqOrd K] in
/-- The results of entries are entries of the same keys. -/
theorem keys_of_mapM {f : K → V → Except E W} {l : List (K × V)} {es : List (K × W)}
    (h : l.mapM (fun e => (f e.1 e.2).map fun w => (e.1, w)) = .ok es) : es.map (·.1) = l.map (·.1) := by
  induction mapM_eq_ok.mp h with
  | nil => rfl
  | cons ha hr ih =>
    obtain ⟨w, -, rfl⟩ := map_eq_ok.mp ha
    rw [List.map_cons, List.map_cons, ih (mapM_eq_ok.mpr hr)]

omit [Ord K] [Std.TransOrd K] [Std.LawfulEqOrd K] in
theorem exists_of_mem_mapM {f : K → V → Except E W} {l : List (K × V)} {es : List (K × W)}
    (h : l.mapM (fun e => (f e.1 e.2).map fun w => (e.1, w)) = .ok es) {k : K} {v : V} (hk : (k, v) ∈ l) :
    ∃ w, (k, w) ∈ es ∧ f k v = .ok w := by
  induction mapM_eq_ok.mp h with
  | nil => exact absurd hk List.not_mem_nil
  | cons ha hr ih =>
    obtain ⟨w, hw, rfl⟩ := map_eq_ok.mp ha
    rcases List.mem_cons.mp hk with rfl | hk
    · exact ⟨w, List.mem_cons_self, hw⟩
    · obtain ⟨w', hmem, hw'⟩ := ih (mapM_eq_ok.mpr hr) hk
      exact ⟨w', List.mem_cons_of_mem _ hmem, hw'⟩

theorem traversed_of_eq_ok {f : K → V → Except E W} {m : BTreeMap K V} {r : BTreeMap K W}
    (h : traverse f m = .ok r) : Traversed f m r := by
  classical
  simp only [traverse, bind_eq_ok, pure_eq_ok] at h
  obtain ⟨es, hes, rfl⟩ := h
  have hkeys := keys_of_mapM hes
  have hdistinct : es.Pairwise fun a b => ¬ compare a.1 b.1 = .eq := by
    have hm := Std.ExtTreeMap.distinct_keys_toList (t := m)
    rw [← List.pairwise_map (f := Prod.fst) (R := fun a b => ¬ compare a b = .eq)] at hm ⊢
    rwa [hkeys]
  intro k
  cases hk : m[k]? with
  | none =>
    refine .inl ⟨rfl, Std.ExtTreeMap.getElem?_ofList_of_contains_eq_false ?_⟩
    rw [hkeys, Std.ExtTreeMap.map_fst_toList_eq_keys, ← Bool.not_eq_true, List.contains_iff_mem,
      Std.ExtTreeMap.mem_keys, Std.ExtTreeMap.mem_iff_isSome_getElem?, hk]
    exact Bool.false_ne_true
  | some v =>
    have hmem := Std.ExtTreeMap.mem_toList_iff_getElem?_eq_some.mpr hk
    obtain ⟨w, he, hw⟩ := exists_of_mem_mapM hes hmem
    exact .inr ⟨v, w, rfl, Std.ExtTreeMap.getElem?_ofList_of_mem Std.ReflCmp.compare_self hdistinct he, hw⟩

/-- When every value gives a result, so does the map. -/
theorem exists_traverse {f : K → V → Except E W} {m : BTreeMap K V}
    (h : ∀ k v, m[k]? = some v → ∃ w, f k v = .ok w) : ∃ r, traverse f m = .ok r := by
  suffices hl : ∀ l : List (K × V), l ⊆ m.toList →
      ∃ es, l.mapM (fun e => (f e.1 e.2).map fun w => (e.1, w)) = .ok es by
    obtain ⟨es, hes⟩ := hl _ (List.Subset.refl _)
    exact ⟨_, by simp only [traverse, bind_eq_ok, pure_eq_ok]; exact ⟨es, hes, rfl⟩⟩
  intro l
  induction l with
  | nil => exact fun _ => ⟨[], rfl⟩
  | cons e l ih =>
    intro hsub
    obtain ⟨es, hes⟩ := ih fun x hx => hsub (List.mem_cons_of_mem _ hx)
    obtain ⟨w, hw⟩ := h e.1 e.2 (Std.ExtTreeMap.mem_toList_iff_getElem?_eq_some.mp (hsub List.mem_cons_self))
    refine ⟨(e.1, w) :: es, mapM_eq_ok.mpr (.cons ?_ (mapM_eq_ok.mp hes))⟩
    rw [hw]
    rfl

theorem traverse_eq_ok {f : K → V → Except E W} {m : BTreeMap K V} {r : BTreeMap K W} :
    traverse f m = .ok r ↔ Traversed f m r := by
  refine ⟨traversed_of_eq_ok, fun h => ?_⟩
  obtain ⟨r', hr'⟩ := exists_traverse (f := f) (m := m) fun k v hk => by
    rcases h k with ⟨hm, -⟩ | ⟨v', w, hm, -, hf⟩
    · rw [hm] at hk
      cases hk
    · rw [hm] at hk
      cases hk
      exact ⟨w, hf⟩
  rw [hr', (traversed_of_eq_ok hr').unique h]

end NlinkLab.BTreeMap
