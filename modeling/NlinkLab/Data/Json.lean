import NlinkLab.Data.BTreeMap

/-! Serialized values, and objects built from a fixed list of fields some of
which are skipped. A record is recovered from its object when the field names
are distinct and each field's value is recovered: the two classes below carry
that fact from the fields to the record. -/

namespace NlinkLab.Json

/-- A serialized value. An object keeps its fields in the order written. -/
inductive Value where
  | null
  | bool (b : Bool)
  | num (n : Nat)
  | str (s : String)
  | arr (vs : List Value)
  | obj (kvs : List (String × Value))

namespace Value

mutual

def decEq : (a b : Value) → Decidable (a = b)
  | .null, .null => .isTrue rfl
  | .bool a, .bool b => decidable_of_iff (a = b) (by simp)
  | .num a, .num b => decidable_of_iff (a = b) (by simp)
  | .str a, .str b => decidable_of_iff (a = b) (by simp)
  | .arr a, .arr b => have := decEqList a b; decidable_of_iff (a = b) (by simp)
  | .obj a, .obj b => have := decEqFields a b; decidable_of_iff (a = b) (by simp)
  | .null, .bool _ | .null, .num _ | .null, .str _ | .null, .arr _ | .null, .obj _ => .isFalse nofun
  | .bool _, .null | .bool _, .num _ | .bool _, .str _ | .bool _, .arr _ | .bool _, .obj _ =>
    .isFalse nofun
  | .num _, .null | .num _, .bool _ | .num _, .str _ | .num _, .arr _ | .num _, .obj _ =>
    .isFalse nofun
  | .str _, .null | .str _, .bool _ | .str _, .num _ | .str _, .arr _ | .str _, .obj _ =>
    .isFalse nofun
  | .arr _, .null | .arr _, .bool _ | .arr _, .num _ | .arr _, .str _ | .arr _, .obj _ =>
    .isFalse nofun
  | .obj _, .null | .obj _, .bool _ | .obj _, .num _ | .obj _, .str _ | .obj _, .arr _ =>
    .isFalse nofun

def decEqList : (a b : List Value) → Decidable (a = b)
  | [], [] => .isTrue rfl
  | [], _ :: _ | _ :: _, [] => .isFalse nofun
  | a :: as, b :: bs =>
    have := decEq a b
    have := decEqList as bs
    decidable_of_iff (a = b ∧ as = bs) (by simp)

def decEqFields : (a b : List (String × Value)) → Decidable (a = b)
  | [], [] => .isTrue rfl
  | [], _ :: _ | _ :: _, [] => .isFalse nofun
  | (k, a) :: as, (l, b) :: bs =>
    have := decEq a b
    have := decEqFields as bs
    decidable_of_iff (k = l ∧ a = b ∧ as = bs) (by simp [and_assoc])

end

instance : DecidableEq Value := decEq

end Value

/-! ### Objects -/

/-- A field of a record: its serialized name and its value, `none` when skipped. -/
abbrev Field := String × Option Value

/-- The object a record's fields serialize to. -/
def object (fs : List Field) : List (String × Value) :=
  fs.filterMap fun f => f.2.map (f.1, ·)

/-- The value an object gives a key. -/
def get (kvs : List (String × Value)) (k : String) : Option Value :=
  (kvs.find? (·.1 = k)).map (·.2)

theorem mem_object {fs : List Field} {k : String} {v : Value} :
    (k, v) ∈ object fs ↔ (k, some v) ∈ fs := by
  simp only [object, List.mem_filterMap, Option.map_eq_some_iff, Prod.mk.injEq, Prod.exists]
  constructor
  · rintro ⟨k', o, h, v', rfl, rfl, rfl⟩; exact h
  · intro h; exact ⟨k, some v, h, v, rfl, rfl, rfl⟩

theorem get_cons (k l : String) (v : Value) (kvs : List (String × Value)) :
    get ((l, v) :: kvs) k = if l = k then some v else get kvs k := by
  by_cases h : l = k <;> simp [get, h]

theorem get_object_of_notMem {fs : List Field} {k : String} (h : k ∉ fs.map (·.1)) :
    get (object fs) k = none := by
  simp only [get, Option.map_eq_none_iff, List.find?_eq_none, decide_eq_true_eq, Prod.forall]
  rintro l v hm rfl
  exact h (List.mem_map.mpr ⟨(l, some v), mem_object.mp hm, rfl⟩)

/-- Reading a field of a record back from its object. -/
theorem get_object {fs : List Field} (hn : (fs.map (·.1)).Nodup) {k : String} {o : Option Value}
    (h : (k, o) ∈ fs) : get (object fs) k = o := by
  induction fs with
  | nil => simp at h
  | cons f fs ih =>
    obtain ⟨l, p⟩ := f
    simp only [List.map_cons, List.nodup_cons] at hn
    rcases List.mem_cons.mp h with h | h
    · obtain ⟨rfl, rfl⟩ := Prod.mk.inj h
      cases o with
      | none => simpa [object] using get_object_of_notMem hn.1
      | some v => simp [object, get]
    · have hl : l ≠ k := fun e => hn.1 (e ▸ List.mem_map.mpr ⟨_, h, rfl⟩)
      rw [← ih hn.2 h]
      cases p with
      | none => rfl
      | some v => simpa [object, hl] using get_cons k l v (object fs)

theorem name_eq {fs gs : List Field} (hk : fs.map (·.1) = gs.map (·.1)) {i : ℕ}
    (hi : i < fs.length) (hj : i < gs.length) : fs[i].1 = gs[i].1 := by
  have h : (fs.map (·.1))[i]? = (gs.map (·.1))[i]? := by rw [hk]
  simpa [hi, hj] using h

/-- Two objects of one schema are equal exactly when every field is. -/
theorem object_inj {fs gs : List Field} (hk : fs.map (·.1) = gs.map (·.1))
    (hn : (fs.map (·.1)).Nodup) : object fs = object gs ↔ fs = gs := by
  refine ⟨fun h => ?_, fun h => h ▸ rfl⟩
  have hlen : fs.length = gs.length := by simpa using congrArg List.length hk
  refine List.ext_getElem hlen fun i hi hj => ?_
  have hki := name_eq hk hi hj
  have hf : get (object fs) fs[i].1 = fs[i].2 := get_object hn (List.getElem_mem hi)
  have hg : get (object gs) gs[i].1 = gs[i].2 := get_object (hk ▸ hn) (List.getElem_mem hj)
  refine Prod.ext hki ?_
  rw [← hf, ← hg, h, hki]

/-! ### Comparing objects -/

/-- The top-level keys whose values differ between two objects (missing on one
side counts as a difference), minus `skip`. -/
def changedFields (a b : List (String × Value)) (skip : List String) : List String :=
  ((a.map (·.1) ++ b.map (·.1)).dedup.mergeSort (· ≤ ·)).filter fun k =>
    k ∉ skip ∧ get a k ≠ get b k

theorem get_eq_none_of_notMem {kvs : List (String × Value)} {k : String}
    (h : k ∉ kvs.map (·.1)) : get kvs k = none := by
  simp only [get, Option.map_eq_none_iff, List.find?_eq_none, decide_eq_true_eq, Prod.forall]
  rintro l v hm rfl
  exact h (List.mem_map.mpr ⟨(l, v), hm, rfl⟩)

theorem changedFields_eq_nil {a b : List (String × Value)} {skip : List String} :
    changedFields a b skip = [] ↔ ∀ k ∉ skip, get a k = get b k := by
  simp only [changedFields, List.filter_eq_nil_iff, List.mem_mergeSort, List.mem_dedup,
    List.mem_append, decide_eq_true_eq, not_and, not_not]
  refine ⟨fun h k hs => ?_, fun h k _ hs => h k hs⟩
  by_cases hk : k ∈ a.map (·.1) ∨ k ∈ b.map (·.1)
  · exact h k hk hs
  · rw [not_or] at hk
    rw [get_eq_none_of_notMem hk.1, get_eq_none_of_notMem hk.2]

/-- Nothing changed between two records of one schema exactly when every field
that is not skipped is equal. -/
theorem changedFields_object {fs gs : List Field} {skip : List String}
    (hk : fs.map (·.1) = gs.map (·.1)) (hn : (fs.map (·.1)).Nodup) :
    changedFields (object fs) (object gs) skip = [] ↔
      List.Forall₂ (fun f g => f.1 ∈ skip ∨ f.2 = g.2) fs gs := by
  have hlen : fs.length = gs.length := by simpa using congrArg List.length hk
  have hget : ∀ i (hi : i < fs.length) (hj : i < gs.length),
      fs[i].1 = gs[i].1 ∧ get (object fs) fs[i].1 = fs[i].2 ∧ get (object gs) fs[i].1 = gs[i].2 := by
    intro i hi hj
    have hki := name_eq hk hi hj
    exact ⟨hki, get_object hn (List.getElem_mem hi),
      hki ▸ get_object (hk ▸ hn) (List.getElem_mem hj)⟩
  rw [changedFields_eq_nil, List.forall₂_iff_get]
  constructor
  · intro h
    refine ⟨hlen, fun i hi hj => ?_⟩
    obtain ⟨-, hf, hg⟩ := hget i hi hj
    by_cases hs : fs[i].1 ∈ skip
    · exact .inl hs
    · exact .inr (hf ▸ hg ▸ h _ hs)
  · rintro ⟨-, h⟩ k hs
    by_cases hm : k ∈ fs.map (·.1)
    · obtain ⟨f, hf, rfl⟩ := List.mem_map.mp hm
      obtain ⟨i, hi, rfl⟩ := List.getElem_of_mem hf
      obtain ⟨-, hf, hg⟩ := hget i hi (hlen ▸ hi)
      rw [hf, hg]
      exact (h i hi (hlen ▸ hi)).resolve_left hs
    · rw [get_object_of_notMem hm, get_object_of_notMem (hk ▸ hm)]

end NlinkLab.Json
