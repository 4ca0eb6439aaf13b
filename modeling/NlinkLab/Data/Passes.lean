import Mathlib

/-! Selection from a list by passes. Each pass walks the whole list and appends
what it selects and no pass before it did; the result is then arranged by rank,
stably. What comes out is in the order of the list exactly when, within a rank, no
element that a later pass selects stands before one that an earlier pass selects. -/

namespace NlinkLab.Passes

variable {A : Type} [DecidableEq A]

/-! ### Order in a list -/

omit [DecidableEq A] in
/-- Of two elements of a list without repetition one is the first. -/
theorem not_pair_sublist_swap {D : List A} (hD : D.Nodup) {x y : A} (h : [x, y].Sublist D) :
    ¬ [y, x].Sublist D := by
  induction D with
  | nil => exact absurd (h.subset List.mem_cons_self) List.not_mem_nil
  | cons a D ih =>
    obtain ⟨ha, hD⟩ := List.nodup_cons.mp hD
    intro h'
    rcases List.sublist_cons_iff.mp h with htail | ⟨r, hr, htail⟩
    · rcases List.sublist_cons_iff.mp h' with htail' | ⟨r', hr', -⟩
      · exact ih hD htail htail'
      · obtain ⟨rfl, -⟩ := List.cons.inj hr'
        exact ha (htail.subset (by simp))
    · obtain ⟨rfl, rfl⟩ := List.cons.inj hr
      rcases List.sublist_cons_iff.mp h' with htail' | ⟨r', hr', -⟩
      · exact ha (htail'.subset (by simp))
      · obtain ⟨rfl, -⟩ := List.cons.inj hr'
        exact ha (htail.subset List.mem_cons_self)

omit [DecidableEq A] in
theorem pair_sublist_or {D : List A} {x y : A} (hx : x ∈ D) (hy : y ∈ D) (hne : x ≠ y) :
    [x, y].Sublist D ∨ [y, x].Sublist D := by
  obtain ⟨pre, post, rfl⟩ := List.append_of_mem hx
  rcases List.mem_append.mp hy with hy | hy
  · exact .inr ((List.singleton_sublist.mpr hy).append (List.singleton_sublist.mpr List.mem_cons_self))
  · have hy := (List.mem_cons.mp hy).resolve_left (Ne.symm hne)
    exact .inl ((((List.singleton_sublist.mpr hy).cons_cons x)).trans (List.sublist_append_right _ _))

/-- Lists without repetition are ordered alike when their pairs are. -/
theorem sublist_of_pairs {D l : List A} (hD : D.Nodup) (hl : l.Nodup) (hsub : l ⊆ D)
    (h : ∀ x y, [x, y].Sublist l → [x, y].Sublist D) : l.Sublist D := by
  have hpairs : ∀ {c : List A}, (∀ x y, [x, y].Sublist c → [x, y].Sublist D) →
      c.Pairwise fun x y => [x, y].Sublist D := fun hc =>
    List.pairwise_iff_forall_sublist.mpr fun hxy => hc _ _ hxy
  have hperm : l.Perm (D.filter (· ∈ l)) := by
    refine (List.perm_ext_iff_of_nodup hl (hD.filter _)).mpr fun x => ?_
    simp only [List.mem_filter, decide_eq_true_eq]
    exact ⟨fun hx => ⟨hsub hx, hx⟩, fun hx => hx.2⟩
  have hanti : ∀ x y, x ∈ l → y ∈ D.filter (· ∈ l) → [x, y].Sublist D → [y, x].Sublist D → x = y :=
    fun x y _ _ hxy hyx => absurd hyx (not_pair_sublist_swap hD hxy)
  have heq := hperm.eq_of_pairwise hanti (hpairs h)
    (hpairs fun x y hxy => hxy.trans List.filter_sublist)
  rw [heq]
  exact List.filter_sublist

/-! ### Selection -/

/-- One pass over a list. -/
def pass (D l : List A) (p : A → Bool) : List A :=
  D.foldl (fun l x => if p x ∧ x ∉ l then l ++ [x] else l) l

/-- What passes select from a list. -/
def select (D : List A) (passes : List (A → Bool)) : List A := passes.foldl (pass D) []

omit [DecidableEq A] in
/-- The first pass that selects an element. -/
def first (passes : List (A → Bool)) (x : A) : Nat := passes.findIdx (· x)

theorem pass_eq {D : List A} (hD : D.Nodup) (l : List A) (p : A → Bool) :
    pass D l p = l ++ D.filter fun x => p x ∧ x ∉ l := by
  unfold pass
  induction D generalizing l with
  | nil => simp
  | cons a D ih =>
    obtain ⟨ha, hD⟩ := List.nodup_cons.mp hD
    rw [List.foldl_cons, ih hD, List.filter_cons]
    by_cases h : p a ∧ a ∉ l
    · have hrest : (D.filter fun x => decide (p x ∧ x ∉ l ++ [a])) = D.filter fun x => p x ∧ x ∉ l :=
        List.filter_congr fun x hx => by
          have hxa : x ≠ a := fun he => ha (he ▸ hx)
          simp [hxa]
      simp only [h, if_true, not_false_eq_true, and_self, decide_true]
      rw [List.append_assoc, List.singleton_append]
      simp only [hrest]
    · simp only [h, if_false, decide_false, Bool.false_eq_true]

/-- The selection pass by pass. -/
theorem select_eq {D : List A} (hD : D.Nodup) (passes : List (A → Bool)) :
    select D passes = (List.range passes.length).flatMap fun i => D.filter (first passes · = i) := by
  induction passes using List.reverseRecOn with
  | nil => rfl
  | append_singleton passes p ih =>
    have hselect : select D (passes ++ [p]) = pass D (select D passes) p := by
      unfold select
      rw [List.foldl_append]
      rfl
    have hmem : ∀ x ∈ D, x ∈ select D passes ↔ first passes x < passes.length := by
      intro x hx
      rw [ih]
      simp [hx]
    have hfirst : ∀ x, first (passes ++ [p]) x =
        if first passes x < passes.length then first passes x
        else if p x then passes.length else passes.length + 1 := by
      intro x
      unfold first
      rw [List.findIdx_append]
      split_ifs <;> simp_all [List.findIdx_cons, Nat.add_comm]
    rw [hselect, pass_eq hD, List.length_append, List.length_singleton, List.range_succ,
      List.flatMap_append, List.flatMap_singleton]
    refine congrArg₂ _ ?_ ?_
    · rw [ih]
      refine List.flatMap_congr fun i hi => List.filter_congr fun x _ => ?_
      have hlt := List.mem_range.mp hi
      rw [hfirst, decide_eq_decide]
      split_ifs <;> omega
    · refine List.filter_congr fun x hx => ?_
      rw [decide_eq_decide, hmem x hx, hfirst]
      by_cases hp : p x
      · split_ifs <;> simp_all
        omega
      · split_ifs <;> simp_all
        omega

theorem mem_select {D : List A} (hD : D.Nodup) {passes : List (A → Bool)} {x : A} :
    x ∈ select D passes ↔ x ∈ D ∧ ∃ p ∈ passes, p x := by
  rw [select_eq hD]
  have hlt : first passes x < passes.length ↔ ∃ p ∈ passes, p x := by
    unfold first
    exact List.findIdx_lt_length
  rw [← hlt]
  simp [and_comm]

theorem nodup_select {D : List A} (hD : D.Nodup) (passes : List (A → Bool)) : (select D passes).Nodup := by
  rw [select_eq hD]
  refine List.nodup_flatMap.mpr ⟨fun i _ => hD.filter _, ?_⟩
  refine List.nodup_range.imp fun {i j} hne x hi hj => hne ?_
  have hi := (List.mem_filter.mp hi).2
  have hj := (List.mem_filter.mp hj).2
  rw [← of_decide_eq_true hi, ← of_decide_eq_true hj]

/-- What an earlier pass selects comes first. -/
theorem pair_sublist_select_of_lt {D : List A} (hD : D.Nodup) {passes : List (A → Bool)} {x y : A}
    (hx : x ∈ select D passes) (hy : y ∈ select D passes) (h : first passes x < first passes y) :
    [x, y].Sublist (select D passes) := by
  rw [select_eq hD] at hx hy ⊢
  obtain ⟨i, hi, hx⟩ := List.mem_flatMap.mp hx
  obtain ⟨j, hj, hy⟩ := List.mem_flatMap.mp hy
  have hxi := of_decide_eq_true (List.mem_filter.mp hx).2
  have hyj := of_decide_eq_true (List.mem_filter.mp hy).2
  have hij : [i, j].Sublist (List.range passes.length) := by
    refine (pair_sublist_or hi hj (by omega)).resolve_right fun hji => ?_
    have hlt : j < i := List.pairwise_iff_forall_sublist.mp List.pairwise_lt_range hji
    omega
  refine List.Sublist.trans ?_ (hij.flatMap fun i => D.filter (first passes · = i))
  rw [List.flatMap_cons, List.flatMap_singleton]
  exact (List.singleton_sublist.mpr hx).append (List.singleton_sublist.mpr hy)

/-- What one pass selects is in the order of the list. -/
theorem pair_sublist_select_of_eq {D : List A} (hD : D.Nodup) {passes : List (A → Bool)} {x y : A}
    (hx : x ∈ select D passes) (h : first passes x = first passes y) (hxy : [x, y].Sublist D) :
    [x, y].Sublist (select D passes) := by
  rw [select_eq hD] at hx ⊢
  obtain ⟨i, hi, hx⟩ := List.mem_flatMap.mp hx
  have hxi := of_decide_eq_true (List.mem_filter.mp hx).2
  have hfilter := hxy.filter (first passes · = i)
  have hpair : ([x, y].filter fun z => decide (first passes z = i)) = [x, y] := by
    simp [hxi, ← h]
  rw [hpair] at hfilter
  exact hfilter.trans (List.sublist_flatten_of_mem (List.mem_map_of_mem hi))

/-! ### Arranging by rank -/

/-- A list sorted by rank that keeps the order of what need not move. -/
structure Arranged (rank : A → Nat) (l c : List A) : Prop where
  perm : c.Perm l
  sorted : c.Pairwise fun x y => rank x ≤ rank y
  stable : ∀ x y, rank x ≤ rank y → [x, y].Sublist l → [x, y].Sublist c

omit [DecidableEq A] in
theorem arranged_insertionSort (rank : A → Nat) (l : List A) :
    Arranged rank l (l.insertionSort fun x y => rank x ≤ rank y) where
  perm := List.perm_insertionSort _ _
  sorted := by
    have : Std.Total fun x y : A => rank x ≤ rank y := ⟨fun x y => le_total _ _⟩
    have : IsTrans A fun x y => rank x ≤ rank y := ⟨fun _ _ _ => le_trans⟩
    exact List.pairwise_insertionSort _ _
  stable x y hr h := by
    have : Std.Total fun x y : A => rank x ≤ rank y := ⟨fun x y => le_total _ _⟩
    have : IsTrans A fun x y => rank x ≤ rank y := ⟨fun _ _ _ => le_trans⟩
    exact List.pair_sublist_insertionSort hr h

omit [DecidableEq A] in
/-- Arranging commutes with leaving elements out. -/
theorem Arranged.filter {rank : A → Nat} {l c : List A} (h : Arranged rank l c) (p : A → Bool) :
    Arranged rank (l.filter p) (c.filter p) where
  perm := h.perm.filter p
  sorted := h.sorted.sublist List.filter_sublist
  stable x y hr hxy := by
    have hpair : [x, y].filter p = [x, y] := by
      have hx := (List.mem_filter.mp (hxy.subset List.mem_cons_self)).2
      have hy := (List.mem_filter.mp (hxy.subset (by simp : y ∈ [x, y]))).2
      simp [hx, hy]
    have hc := (h.stable x y hr (hxy.trans List.filter_sublist)).filter p
    rwa [hpair] at hc

omit [DecidableEq A] in
/-- A list may be arranged before it is extended and arranged again. -/
theorem Arranged.of_append {rank : A → Nat} {l l' r c : List A} (h : Arranged rank l l')
    (hc : Arranged rank (l' ++ r) c) : Arranged rank (l ++ r) c where
  perm := hc.perm.trans (h.perm.append_right r)
  sorted := hc.sorted
  stable x y hr hxy := by
    refine hc.stable x y hr ?_
    obtain ⟨l₁, l₂, heq, h₁, h₂⟩ := List.sublist_append_iff.mp hxy
    match l₁, heq with
    | [], heq =>
      rw [List.nil_append] at heq
      exact (heq ▸ h₂).trans (List.sublist_append_right _ _)
    | [a], heq =>
      obtain ⟨rfl, rfl⟩ := List.cons.inj heq
      exact (List.singleton_sublist.mpr (h.perm.mem_iff.mpr (List.singleton_sublist.mp h₁))).append h₂
    | [a, b], heq =>
      simp only [List.cons_append, List.nil_append, List.cons.injEq] at heq
      obtain ⟨rfl, rfl, -⟩ := heq
      exact (h.stable x y hr h₁).trans (List.sublist_append_left _ _)

variable {rank : A → Nat} {D c : List A} {passes : List (A → Bool)}

/-- The arranged selection is in the order of the list exactly when passes select within
a rank in that order. -/
theorem sublist_iff (hD : D.Nodup) (hsorted : D.Pairwise fun x y => rank x ≤ rank y)
    (hc : Arranged rank (select D passes) c) :
    c.Sublist D ↔ ∀ x y, [x, y].Sublist D → rank x = rank y → (∃ p ∈ passes, p x) →
      (∃ p ∈ passes, p y) → first passes x ≤ first passes y := by
  have hmem : ∀ {x}, x ∈ D → (∃ p ∈ passes, p x) → x ∈ select D passes := fun hx hp =>
    (mem_select hD).mpr ⟨hx, hp⟩
  constructor
  · intro hsub x y hxy hr hx hy
    by_contra hlt
    have hxD := hmem (hxy.subset List.mem_cons_self) hx
    have hyD := hmem (hxy.subset (by simp)) hy
    have hyx := hc.stable y x hr.ge (pair_sublist_select_of_lt hD hyD hxD (Nat.lt_of_not_le hlt))
    exact not_pair_sublist_swap hD hxy (hyx.trans hsub)
  · intro h
    have hnodup : c.Nodup := hc.perm.nodup_iff.mpr (nodup_select hD passes)
    have hsel : ∀ {x}, x ∈ c → x ∈ D ∧ ∃ p ∈ passes, p x := fun hx =>
      (mem_select hD).mp (hc.perm.subset hx)
    refine sublist_of_pairs hD hnodup (fun x hx => (hsel hx).1) fun x y hxy => ?_
    have hx := hxy.subset (List.mem_cons_self : x ∈ [x, y])
    have hy := hxy.subset (by simp : y ∈ [x, y])
    have hne : x ≠ y := by
      rintro rfl
      simpa using hxy.nodup hnodup
    by_contra hD'
    have hyx := (pair_sublist_or (hsel hx).1 (hsel hy).1 hne).resolve_left hD'
    -- both have one rank, and so neither moves past the other
    have hle : rank x ≤ rank y := List.pairwise_iff_forall_sublist.mp hc.sorted hxy
    have hge : rank y ≤ rank x := List.pairwise_iff_forall_sublist.mp hsorted hyx
    have hfirst := h y x hyx (le_antisymm hge hle) (hsel hy).2 (hsel hx).2
    have hyl := hmem (hsel hy).1 (hsel hy).2
    have hyx' : [y, x].Sublist (select D passes) := by
      rcases Nat.lt_or_eq_of_le hfirst with hlt | heq
      · exact pair_sublist_select_of_lt hD hyl (hmem (hsel hx).1 (hsel hx).2) hlt
      · exact pair_sublist_select_of_eq hD hyl heq hyx
    exact not_pair_sublist_swap hnodup hxy (hc.stable y x hge hyx')

end NlinkLab.Passes
