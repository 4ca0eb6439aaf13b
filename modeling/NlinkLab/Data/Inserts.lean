import NlinkLab.Data.BTreeMap

/-! Maps into which a list of entries is inserted, or the entries of another map. -/

namespace NlinkLab.BTreeMap

variable {K V : Type} [Ord K] [Std.TransOrd K] [Std.LawfulEqOrd K]

/-- What is found was inserted, or was there and nothing is inserted under its key. -/
theorem mem_of_foldl_insert {es : List (K × V)} {m : BTreeMap K V} {k : K} {v : V}
    (h : (es.foldl (fun m e => m.insert e.1 e.2) m)[k]? = some v) :
    (k, v) ∈ es ∨ m[k]? = some v ∧ ∀ w, (k, w) ∉ es := by
  induction es generalizing m with
  | nil => exact .inr ⟨h, fun _ => List.not_mem_nil⟩
  | cons e es ih =>
    rcases ih h with hmem | ⟨hm, hno⟩
    · exact .inl (List.mem_cons_of_mem _ hmem)
    · by_cases hk : compare e.1 k = .eq
      · obtain rfl := Std.LawfulEqOrd.eq_of_compare hk
        rw [Std.ExtTreeMap.getElem?_insert_self] at hm
        cases hm
        exact .inl List.mem_cons_self
      · right
        rw [Std.ExtTreeMap.getElem?_insert, if_neg hk] at hm
        refine ⟨hm, fun w hw => ?_⟩
        rcases List.mem_cons.mp hw with rfl | hw
        · exact hk Std.ReflOrd.compare_self
        · exact hno w hw

theorem isSome_foldl_insert {es : List (K × V)} {m : BTreeMap K V} {k : K}
    (h : (∃ v, (k, v) ∈ es) ∨ m[k]?.isSome = true) :
    (es.foldl (fun m e => m.insert e.1 e.2) m)[k]?.isSome = true := by
  induction es generalizing m with
  | nil => simpa using h
  | cons e es ih =>
    apply ih
    rw [Std.ExtTreeMap.getElem?_insert]
    by_cases hk : compare e.1 k = .eq
    · right
      rw [if_pos hk]
      rfl
    · rw [if_neg hk]
      rcases h with ⟨v, hv⟩ | hm
      · left
        rcases List.mem_cons.mp hv with rfl | hv
        · exact absurd (Std.ReflOrd.compare_self (a := k)) hk
        · exact ⟨v, hv⟩
      · exact .inr hm

/-- Nothing is inserted under a key. -/
theorem getElem?_foldl_insert_of_notMem {es : List (K × V)} {m : BTreeMap K V} {k : K}
    (h : ∀ v, (k, v) ∉ es) : (es.foldl (fun m e => m.insert e.1 e.2) m)[k]? = m[k]? := by
  induction es generalizing m with
  | nil => rfl
  | cons e es ih =>
    rw [List.foldl_cons, ih fun v hv => h v (List.mem_cons_of_mem _ hv), Std.ExtTreeMap.getElem?_insert, if_neg]
    intro hk
    obtain rfl := Std.LawfulEqOrd.eq_of_compare hk
    exact h e.2 List.mem_cons_self

/-- A map laid over another. -/
theorem getElem?_foldl_insert_toList (m base : BTreeMap K V) (k : K) :
    (m.toList.foldl (fun m e => m.insert e.1 e.2) base)[k]? = m[k]?.or base[k]? := by
  have hmem : ∀ v, (k, v) ∈ m.toList ↔ m[k]? = some v := fun v => Std.ExtTreeMap.mem_toList_iff_getElem?_eq_some
  cases hm : m[k]? with
  | none =>
    apply getElem?_foldl_insert_of_notMem
    intro v hv
    cases hm.symm.trans ((hmem v).mp hv)
  | some v =>
    -- the list names the key, each time with the value the map has
    have hsome := isSome_foldl_insert (m := base) (.inl ⟨v, (hmem v).mpr hm⟩)
    obtain ⟨w, hw⟩ := Option.isSome_iff_exists.mp hsome
    rw [hw, Option.some_or]
    rcases mem_of_foldl_insert hw with hin | ⟨-, hno⟩
    · exact ((hmem w).mp hin).symm.trans hm
    · exact absurd ((hmem v).mpr hm) (hno v)

omit [Std.LawfulEqOrd K] in
theorem values_eq (m : BTreeMap K V) : m.values = m.toList.map Prod.snd := by
  have hfold : m.values = m.foldr (fun _ v vs => v :: vs) [] := by
    obtain ⟨⟨m⟩⟩ := m
    induction m using Quotient.ind
    rfl
  have hmap : ∀ es : List (K × V), es.foldr (fun e vs => e.2 :: vs) [] = es.map Prod.snd := by
    intro es
    induction es with
    | nil => rfl
    | cons e es ih => rw [List.foldr_cons, ih, List.map_cons]
  rw [hfold, Std.ExtTreeMap.foldr_eq_foldr_toList, hmap]

theorem mem_values_iff {m : BTreeMap K V} {v : V} : v ∈ m.values ↔ ∃ k : K, m[k]? = some v := by
  rw [values_eq, List.mem_map]
  constructor
  · rintro ⟨⟨k, v⟩, he, rfl⟩
    exact ⟨k, Std.ExtTreeMap.mem_toList_iff_getElem?_eq_some.mp he⟩
  · rintro ⟨k, hk⟩
    exact ⟨(k, v), Std.ExtTreeMap.mem_toList_iff_getElem?_eq_some.mpr hk, rfl⟩

/-! ### Values that are merged into those there were -/

variable {W : Type} (f : W → Option V → V)

theorem getElem?_foldl_merge_of_notMem {es : List (K × W)} {m : BTreeMap K V} {k : K} (h : k ∉ es.map (·.1)) :
    (es.foldl (fun m e => m.insert e.1 (f e.2 m[e.1]?)) m)[k]? = m[k]? := by
  induction es generalizing m with
  | nil => rfl
  | cons e es ih =>
    rw [List.map_cons, List.mem_cons, not_or] at h
    rw [List.foldl_cons, ih h.2, Std.ExtTreeMap.getElem?_insert, if_neg]
    exact fun hk => h.1 (Std.LawfulEqOrd.eq_of_compare hk).symm

theorem getElem?_foldl_merge_of_mem {es : List (K × W)} (hnodup : (es.map (·.1)).Nodup) {m : BTreeMap K V} {k : K}
    {w : W} (h : (k, w) ∈ es) :
    (es.foldl (fun m e => m.insert e.1 (f e.2 m[e.1]?)) m)[k]? = some (f w m[k]?) := by
  induction es generalizing m with
  | nil => cases h
  | cons e es ih =>
    rw [List.map_cons, List.nodup_cons] at hnodup
    rw [List.foldl_cons]
    rcases List.mem_cons.mp h with rfl | h
    · rw [getElem?_foldl_merge_of_notMem f hnodup.1, Std.ExtTreeMap.getElem?_insert_self]
    · have hne : ¬ compare e.1 k = .eq := fun hk =>
        hnodup.1 (Std.LawfulEqOrd.eq_of_compare hk ▸ List.mem_map_of_mem (f := Prod.fst) h)
      rw [ih hnodup.2 h, Std.ExtTreeMap.getElem?_insert, if_neg hne]

/-- A map's values merged into another's. -/
theorem getElem?_foldl_merge_toList (news : BTreeMap K W) (base : BTreeMap K V) (k : K) :
    (news.toList.foldl (fun m e => m.insert e.1 (f e.2 m[e.1]?)) base)[k]? =
      (news[k]?).elim base[k]? fun w => some (f w base[k]?) := by
  have hkeys : news.toList.map (·.1) = news.keys := Std.ExtTreeMap.map_fst_toList_eq_keys
  cases hnew : news[k]? with
  | none =>
    refine getElem?_foldl_merge_of_notMem f ?_
    rw [hkeys, Std.ExtTreeMap.mem_keys, Std.ExtTreeMap.mem_iff_isSome_getElem?, hnew]
    exact Bool.false_ne_true
  | some w =>
    refine getElem?_foldl_merge_of_mem f ?_ (Std.ExtTreeMap.mem_toList_iff_getElem?_eq_some.mpr hnew)
    rw [hkeys]
    exact Std.ExtTreeMap.nodup_keys

end NlinkLab.BTreeMap
