import NlinkLab.Data.BTreeMap

/-! Maps of records that carry their own key, and what changes from one to the next. Whoever
applies the changes to the old map has the new one. -/

namespace NlinkLab

variable {K V : Type} [Ord K] [Std.TransOrd K] [Std.LawfulEqOrd K] [DecidableEq K] [DecidableEq V]

/-- What was added, what was updated, and which keys are gone. -/
@[ext] structure Changes (K V : Type) where
  added : List V
  updated : List V
  removed : List K
  deriving DecidableEq

namespace Changes

def isEmpty (c : Changes K V) : Bool := c.added.isEmpty && c.updated.isEmpty && c.removed.isEmpty

/-- Records by their key; of two with one key the later is kept. -/
def collect (key : V → K) (vs : List V) : BTreeMap K V := vs.foldl (fun m v => m.insert (key v) v) ∅

/-- From one map to the next. -/
def of (key : V → K) (old new : BTreeMap K V) : Changes K V where
  added := (new.toList.map Prod.snd).filter fun v => !old.contains (key v)
  updated := (new.toList.map Prod.snd).filter fun v => old[key v]?.any (· ≠ v)
  removed := old.keys.filter fun k => !new.contains k

/-- What someone who has the old map makes of the changes. -/
def apply (key : V → K) (m : BTreeMap K V) (c : Changes K V) : BTreeMap K V :=
  c.removed.foldl (fun m k => m.erase k) ((c.added ++ c.updated).foldl (fun m v => m.insert (key v) v) m)

/-- Each record is at its own key. -/
def Keyed (key : V → K) (m : BTreeMap K V) : Prop := ∀ (k : K) v, m[k]? = some v → key v = k

variable {key : V → K}

omit [DecidableEq V] in
/-- A record with another key leaves a key's record. -/
theorem getElem?_insert_record (m : BTreeMap K V) (v : V) (k : K) :
    (m.insert (key v) v)[k]? = if key v = k then some v else m[k]? := by
  rw [Std.ExtTreeMap.getElem?_insert]
  by_cases h : key v = k
  · rw [if_pos h, if_pos (Std.LawfulEqOrd.compare_eq_iff_eq.mpr h)]
  · rw [if_neg h, if_neg fun hc => h (Std.LawfulEqOrd.compare_eq_iff_eq.mp hc)]

omit [DecidableEq V] in
theorem getElem?_foldl_insert_of_forall_ne {vs : List V} {k : K} (h : ∀ v ∈ vs, key v ≠ k)
    (m : BTreeMap K V) : (vs.foldl (fun m v => m.insert (key v) v) m)[k]? = m[k]? := by
  induction vs generalizing m with
  | nil => rfl
  | cons v vs ih =>
    obtain ⟨hv, hvs⟩ := List.forall_mem_cons.mp h
    rw [List.foldl_cons, ih hvs, getElem?_insert_record, if_neg hv]

omit [DecidableEq V] in
/-- When the records with a key are one record, that one is found. -/
theorem getElem?_foldl_insert_of_mem {vs : List V} {v : V} (hv : v ∈ vs)
    (h : ∀ w ∈ vs, key w = key v → w = v) (m : BTreeMap K V) :
    (vs.foldl (fun m v => m.insert (key v) v) m)[key v]? = some v := by
  induction vs generalizing m with
  | nil => cases hv
  | cons w vs ih =>
    obtain ⟨hw, hvs⟩ := List.forall_mem_cons.mp h
    rw [List.foldl_cons]
    by_cases hmem : v ∈ vs
    · exact ih hmem hvs _
    · have hvw : v = w := (List.mem_cons.mp hv).resolve_right hmem
      have hnone : ∀ u ∈ vs, key u ≠ key v := fun u hu he => hmem (hvs u hu he ▸ hu)
      rw [getElem?_foldl_insert_of_forall_ne hnone, getElem?_insert_record, if_pos (by rw [hvw]), hvw]

omit [DecidableEq V] in
theorem getElem?_foldl_erase (ks : List K) (m : BTreeMap K V) (k : K) :
    (ks.foldl (fun m k => m.erase k) m)[k]? = if k ∈ ks then none else m[k]? := by
  induction ks generalizing m with
  | nil => simp
  | cons l ks ih =>
    rw [List.foldl_cons, ih, Std.ExtTreeMap.getElem?_erase]
    by_cases hk : k ∈ ks
    · simp [hk]
    · by_cases hl : l = k
      · simp [hk, hl]
      · have hc : compare l k ≠ .eq := fun hc => hl (Std.LawfulEqOrd.compare_eq_iff_eq.mp hc)
        simp [hk, hc, Ne.symm hl]

omit [DecidableEq V] in
theorem keyed_collect (vs : List V) : Keyed key (collect key vs) := by
  have h : ∀ (vs : List V) (m : BTreeMap K V), Keyed key m → Keyed key (vs.foldl (fun m v => m.insert (key v) v) m) := by
    intro vs
    induction vs with
    | nil => exact fun _ hm => hm
    | cons v vs ih =>
      refine fun m hm => ih _ fun k w hw => ?_
      rw [getElem?_insert_record] at hw
      split_ifs at hw with hk
      · exact Option.some.inj hw ▸ hk
      · exact hm k w hw
  exact h vs ∅ fun k v hv => by simp at hv

omit [DecidableEq K] [DecidableEq V] in
theorem mem_values {m : BTreeMap K V} (hm : Keyed key m) {v : V} :
    v ∈ m.toList.map Prod.snd ↔ m[key v]? = some v := by
  constructor
  · intro h
    obtain ⟨⟨k, w⟩, hmem, rfl⟩ := List.mem_map.mp h
    have hk := Std.ExtTreeMap.mem_toList_iff_getElem?_eq_some.mp hmem
    rw [hm k w hk]
    exact hk
  · intro h
    exact List.mem_map.mpr ⟨(key v, v), Std.ExtTreeMap.mem_toList_iff_getElem?_eq_some.mpr h, rfl⟩

omit [DecidableEq K] in
/-- The records a change brings are those that are new or not what they were. -/
theorem mem_brought {old new : BTreeMap K V} (hnew : Keyed key new) {v : V} :
    v ∈ (of key old new).added ++ (of key old new).updated ↔ new[key v]? = some v ∧ old[key v]? ≠ some v := by
  simp only [of, List.mem_append, List.mem_filter, mem_values hnew]
  rw [← and_or_left]
  refine and_congr_right fun _ => ?_
  rw [Std.ExtTreeMap.contains_eq_isSome_getElem?]
  cases old[key v]? <;> simp

/-- Who has the old or the new record at each key has the new map with the changes. -/
theorem apply_of_between {old new m : BTreeMap K V} (hnew : Keyed key new)
    (h : ∀ k : K, m[k]? = old[k]? ∨ m[k]? = new[k]?) : (of key old new).apply key m = new := by
  apply Std.ExtTreeMap.ext_getElem?
  intro k
  have hremoved : k ∈ (of key old new).removed ↔ k ∈ old ∧ k ∉ new := by
    simp [of, Bool.eq_false_iff]
  have hunique : ∀ {v w : V}, new[key v]? = some v → new[key w]? = some w → key w = key v → w = v :=
    fun hv hw he => Option.some.inj (by rw [← hv, ← hw, he])
  rw [apply, getElem?_foldl_erase]
  cases hk : new[k]? with
  | none =>
    have hnot : k ∉ new := by rw [Std.ExtTreeMap.mem_iff_isSome_getElem?, hk]; nofun
    split_ifs with hmem
    · rfl
    · have hold : k ∉ old := fun h => hmem (hremoved.mpr ⟨h, hnot⟩)
      rw [getElem?_foldl_insert_of_forall_ne]
      · rcases h k with hm | hm
        · exact hm.trans (Std.ExtTreeMap.getElem?_eq_none hold)
        · exact hm.trans hk
      · intro v hv he
        have := ((mem_brought hnew).mp hv).1
        rw [he, hk] at this
        cases this
  | some v =>
    have hin : k ∈ new := by rw [Std.ExtTreeMap.mem_iff_isSome_getElem?, hk]; rfl
    rw [if_neg fun h => (hremoved.mp h).2 hin]
    obtain rfl : key v = k := hnew k v hk
    by_cases hold : old[key v]? = some v
    · rw [getElem?_foldl_insert_of_forall_ne]
      · rcases h (key v) with hm | hm
        · exact hm.trans hold
        · exact hm.trans hk
      · intro w hw he
        obtain ⟨hw, hne⟩ := (mem_brought hnew).mp hw
        rw [hunique hk hw he] at hne
        exact hne hold
    · apply getElem?_foldl_insert_of_mem ((mem_brought hnew).mpr ⟨hk, hold⟩)
      exact fun w hw he => hunique hk ((mem_brought hnew).mp hw).1 he

omit [Std.LawfulEqOrd K] [DecidableEq K] [DecidableEq V] in
/-- No changes are applied to no effect. -/
theorem apply_of_isEmpty {c : Changes K V} (h : c.isEmpty) (m : BTreeMap K V) : c.apply key m = m := by
  obtain ⟨added, updated, removed⟩ := c
  simp only [isEmpty, Bool.and_eq_true, List.isEmpty_iff] at h
  obtain ⟨⟨rfl, rfl⟩, rfl⟩ := h
  rfl

/-! ### At each key by itself -/

omit [Std.LawfulEqOrd K] [DecidableEq K] [DecidableEq V] in
/-- At each key a map keeps what it has, or has the same whatever it had. -/
def Keywise (f : BTreeMap K V → BTreeMap K V) : Prop :=
  ∀ k : K, (∀ m, (f m)[k]? = m[k]?) ∨ ∃ o, ∀ m, (f m)[k]? = o

omit [Std.LawfulEqOrd K] [DecidableEq K] [DecidableEq V] in
theorem keywise_id : Keywise fun m : BTreeMap K V => m := fun _ => .inl fun _ => rfl

omit [Std.LawfulEqOrd K] [DecidableEq K] [DecidableEq V] in
theorem Keywise.comp {f g : BTreeMap K V → BTreeMap K V} (hf : Keywise f) (hg : Keywise g) :
    Keywise fun m => g (f m) := by
  intro k
  rcases hg k with hkeep | ⟨o, ho⟩
  · simp only [hkeep]
    exact hf k
  · exact .inr ⟨o, fun m => ho (f m)⟩

omit [Std.LawfulEqOrd K] [DecidableEq K] [DecidableEq V] in
theorem keywise_foldl {A : Type} {f : BTreeMap K V → A → BTreeMap K V} (hf : ∀ a, Keywise (f · a)) (l : List A) :
    Keywise fun m => l.foldl f m := by
  induction l with
  | nil => exact keywise_id
  | cons a l ih => exact (hf a).comp ih

omit [DecidableEq V] in
theorem keywise_apply (c : Changes K V) : Keywise (c.apply key) := by
  have hinsert : ∀ v, Keywise fun m : BTreeMap K V => m.insert (key v) v := by
    intro v k
    by_cases hk : key v = k
    · exact .inr ⟨some v, fun m => by rw [getElem?_insert_record, if_pos hk]⟩
    · exact .inl fun m => by rw [getElem?_insert_record, if_neg hk]
  have herase : ∀ l, Keywise fun m : BTreeMap K V => m.erase l := by
    intro l k
    by_cases hk : compare l k = .eq
    · exact .inr ⟨none, fun m => by rw [Std.ExtTreeMap.getElem?_erase, if_pos hk]⟩
    · exact .inl fun m => by rw [Std.ExtTreeMap.getElem?_erase, if_neg hk]
  exact (keywise_foldl hinsert _).comp (keywise_foldl herase _)

omit [Std.LawfulEqOrd K] [DecidableEq K] [DecidableEq V] in
/-- What leaves one map as it is leads from another to what either has. -/
theorem Keywise.between {f : BTreeMap K V → BTreeMap K V} (hf : Keywise f) {old : BTreeMap K V} (hold : f old = old)
    (new : BTreeMap K V) (k : K) : (f new)[k]? = old[k]? ∨ (f new)[k]? = new[k]? := by
  rcases hf k with hkeep | ⟨o, ho⟩
  · exact .inr (hkeep new)
  · refine .inl ((ho new).trans ?_)
    rw [← ho old, hold]

end Changes

end NlinkLab
