import Mathlib

/-! Ordered maps, as the standard library's `BTreeMap`: iteration is in key
order. Two maps are compared entry by entry (`upserts`, `removed`), and a list of
keyed items is collected into one list for each key (`group`). -/

namespace NlinkLab

/-- An ordered map. -/
abbrev BTreeMap (K V : Type) [Ord K] := Std.ExtTreeMap K V compare

/-- Pairs compared lexicographically are keys too. -/
instance instLawfulEqOrdLex {α β : Type} [Ord α] [Ord β] [Std.LawfulEqOrd α] [Std.LawfulEqOrd β] :
    Std.LawfulEqOrd (α ×ₗ β) where
  compare_self {a} := by
    simp [Prod.Lex.compare_def, compareLex, compareOn]
  eq_of_compare {a b} h := by
    have h' : (ofLex a).1 = (ofLex b).1 ∧ (ofLex a).2 = (ofLex b).2 := by
      simpa [Prod.Lex.compare_def, compareLex, compareOn, Ordering.then_eq_eq] using h
    exact ofLex_inj.mp (Prod.ext h'.1 h'.2)

instance instLawfulBEqStrings : LawfulBEq (List String) := inferInstance

instance instLawfulBEqNames : LawfulBEq (String × String) := inferInstance

instance instLawfulBEqPids : LawfulBEq (String × UInt32) := inferInstance

namespace BTreeMap

variable {K V W : Type} [Ord K] [Std.TransOrd K] [Std.LawfulEqOrd K]

/-! ### Comparing two maps -/

/-- The entries of `desired` that `current` lacks or has with another value,
each with the value it replaces. -/
def upserts [DecidableEq V] (current desired : BTreeMap K V) : List (K × Option V × V) :=
  desired.toList.filterMap fun (k, v) =>
    match current[k]? with
    | none => some (k, none, v)
    | some old => if old ≠ v then some (k, some old, v) else none

/-- The keys of `current` that `desired` lacks. -/
def removed (current desired : BTreeMap K V) : List K :=
  current.keys.filter (!desired.contains ·)

theorem upserts_eq_nil [DecidableEq V] {current desired : BTreeMap K V} :
    upserts current desired = [] ↔ ∀ (k : K) (v : V), desired[k]? = some v → current[k]? = some v := by
  simp only [upserts, List.filterMap_eq_nil_iff, Prod.forall,
    Std.ExtTreeMap.mem_toList_iff_getElem?_eq_some]
  refine forall₃_congr fun k v _ => ?_
  cases current[k]? <;> simp

theorem removed_eq_nil {current desired : BTreeMap K V} :
    removed current desired = [] ↔ ∀ k : K, k ∈ current → k ∈ desired := by
  simp [removed]

/-- Nothing to upsert and nothing to remove: the maps are equal. -/
theorem upserts_removed_eq_nil [DecidableEq V] {current desired : BTreeMap K V} :
    upserts current desired = [] ∧ removed current desired = [] ↔ current = desired := by
  rw [upserts_eq_nil, removed_eq_nil]
  refine ⟨fun ⟨hu, hr⟩ => Std.ExtTreeMap.ext_getElem? fun k => ?_, fun h => by simp [h]⟩
  cases hd : desired[k]? with
  | some v => exact hu k v hd
  | none =>
    cases hc : current[k]? with
    | none => rfl
    | some v =>
      have hk := hr k (Std.ExtTreeMap.mem_iff_isSome_getElem?.mpr (by rw [hc]; rfl))
      rw [Std.ExtTreeMap.mem_iff_isSome_getElem?, hd] at hk
      cases hk

/-! ### The entries of a map -/

/-- Items that belong to one key are found at that key's entry. -/
theorem flatMap_toList_eq {m : BTreeMap K V} {f : K × V → List W} {k : K}
    (hf : ∀ l v, l ≠ k → f (l, v) = []) :
    m.toList.flatMap f = (m[k]?).elim [] fun v => f (k, v) := by
  have hmem (v : V) : (k, v) ∈ m.toList ↔ m[k]? = some v :=
    Std.ExtTreeMap.mem_toList_iff_getElem?_eq_some
  have hd := Std.ExtTreeMap.distinct_keys_toList (t := m)
  -- with the value at `k` fixed, the induction is on the entries, keys distinct
  generalize m.toList = es at hmem hd
  generalize m[k]? = o at hmem
  induction es generalizing o with
  | nil =>
    cases o with
    | none => rfl
    | some v => exact absurd ((hmem v).mpr rfl) (by simp)
  | cons e es ih =>
    obtain ⟨l, w⟩ := e
    obtain ⟨hl, hd⟩ := List.pairwise_cons.mp hd
    rw [List.flatMap_cons]
    by_cases hk : l = k
    · subst hk
      obtain rfl : o = some w := ((hmem w).mp List.mem_cons_self)
      have hes : es.flatMap f = [] := by
        rw [List.flatMap_eq_nil_iff]
        rintro ⟨l', w'⟩ he
        exact hf l' w' fun h => hl _ he (by rw [h]; exact Std.ReflCmp.compare_self)
      rw [hes, List.append_nil]; rfl
    · rw [hf l w hk, List.nil_append]
      refine ih hd o fun v => ⟨fun h => (hmem v).mp (List.mem_cons_of_mem _ h), fun h => ?_⟩
      exact (List.mem_cons.mp ((hmem v).mpr h)).resolve_left fun e => hk (Prod.mk.inj e).1.symm

/-- Of the entries with one key, the first is kept. -/
theorem getElem?_foldl_insertIfNew [DecidableEq K] (es : List (K × V)) (m : BTreeMap K V) (k : K) :
    (es.foldl (fun m (k, v) => m.insertIfNew k v) m)[k]? =
      m[k]?.or ((es.find? (·.1 = k)).map (·.2)) := by
  induction es generalizing m with
  | nil => simp
  | cons e es ih =>
    rw [List.foldl_cons, ih, Std.ExtTreeMap.getElem?_insertIfNew, List.find?_cons]
    by_cases hk : e.1 = k
    · have hkc : compare e.1 k = .eq := Std.LawfulEqOrd.compare_eq_iff_eq.mpr hk
      cases hm : m[k]? with
      | none =>
        have hnm : e.1 ∉ m := by
          rw [hk, Std.ExtTreeMap.mem_iff_isSome_getElem?, hm]; simp
        rw [if_pos ⟨hkc, hnm⟩]; simp [hk]
      | some v =>
        have hmem : e.1 ∈ m := by
          rw [hk, Std.ExtTreeMap.mem_iff_isSome_getElem?, hm]; rfl
        rw [if_neg fun h => h.2 hmem]; simp
    · have hkc : ¬ compare e.1 k = .eq := fun h => hk (Std.LawfulEqOrd.compare_eq_iff_eq.mp h)
      simp [hk, hkc]

/-! ### Grouping -/

/-- Append an item to the list at a key. -/
def push (m : BTreeMap K (List V)) (e : K × V) : BTreeMap K (List V) :=
  m.alter e.1 fun o => some (o.getD [] ++ [e.2])

/-- The items under each key, in order. -/
def group (es : List (K × V)) : BTreeMap K (List V) :=
  es.foldl push ∅

/-- The items with one key, in order. -/
def itemsAt [DecidableEq K] (es : List (K × V)) (k : K) : List V :=
  (es.filter (·.1 = k)).map (·.2)

theorem getElem?_push [DecidableEq K] (m : BTreeMap K (List V)) (e : K × V) (k : K) :
    (push m e)[k]? = if e.1 = k then some (m[k]?.getD [] ++ [e.2]) else m[k]? := by
  simp only [push, Std.ExtTreeMap.getElem?_alter, Std.LawfulEqOrd.compare_eq_iff_eq]
  split_ifs with h <;> simp [h]

theorem getElem?_foldl_push [DecidableEq K] (es : List (K × V)) (m : BTreeMap K (List V)) (k : K) :
    (es.foldl push m)[k]? =
      if itemsAt es k = [] then m[k]? else some (m[k]?.getD [] ++ itemsAt es k) := by
  induction es generalizing m with
  | nil => simp [itemsAt]
  | cons e es ih =>
    rw [List.foldl_cons, ih, getElem?_push]
    by_cases hk : e.1 = k
    · have hi : itemsAt (e :: es) k = e.2 :: itemsAt es k := by simp [itemsAt, hk]
      by_cases hn : itemsAt es k = [] <;> simp [hi, hk, hn]
    · have hi : itemsAt (e :: es) k = itemsAt es k := by simp [itemsAt, hk]
      simp [hi, hk]

theorem getElem?_group [DecidableEq K] (es : List (K × V)) (k : K) :
    (group es)[k]? = if itemsAt es k = [] then none else some (itemsAt es k) := by
  rw [group, getElem?_foldl_push]; simp

/-- What is under a key, nothing if the key is not there. -/
theorem getD_group [DecidableEq K] (es : List (K × V)) (k : K) :
    (group es)[k]?.getD [] = itemsAt es k := by
  rw [getElem?_group]
  split_ifs with h
  · exact h.symm
  · rfl

/-- Two lists have the same groups exactly when they have the same items, in
the same order, under each key. -/
theorem group_eq_group [DecidableEq K] {es fs : List (K × V)} :
    group es = group fs ↔ ∀ k, itemsAt es k = itemsAt fs k := by
  refine ⟨fun h k => ?_, fun h => Std.ExtTreeMap.ext_getElem? fun k => by
    rw [getElem?_group, getElem?_group, h]⟩
  have hk : (group es)[k]? = (group fs)[k]? := by rw [h]
  rw [getElem?_group, getElem?_group] at hk
  by_cases he : itemsAt es k = [] <;> by_cases hf : itemsAt fs k = [] <;> simp_all

/-- How often a pair of keys has an item. -/
theorem count_pair {A B C : Type} [DecidableEq A] [DecidableEq B] (l : List (A × B × C)) (a : A) (b : B) :
    (l.map fun s => (s.1, s.2.1)).count (a, b) = (itemsAt (itemsAt l a) b).length := by
  unfold itemsAt
  rw [List.count_eq_length_filter, List.filter_map, List.length_map, List.length_map, List.filter_map,
    List.length_map, List.filter_filter]
  congr 1
  refine List.filter_congr fun s _ => ?_
  rw [Bool.eq_iff_iff]
  simp only [Function.comp_apply, beq_iff_eq, Prod.ext_iff, Bool.and_eq_true, decide_eq_true_eq]
  exact and_comm

end BTreeMap

end NlinkLab
