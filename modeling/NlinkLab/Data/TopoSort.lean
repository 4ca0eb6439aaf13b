import NlinkLab.Data.BTreeMap

/-! Topological sorting by in-degrees. A walk visits a pending node and lowers the
in-degree of each node that depends on it; a node whose in-degree reaches zero is
pending from then on. Whichever pending node is taken next, every visited node comes
after all it depends on, and a walk with nothing pending has visited every node if
some order of all nodes exists at all. -/

namespace NlinkLab.TopoSort

variable {K : Type} [Ord K] [Std.TransOrd K] [Std.LawfulEqOrd K] [DecidableEq K]

/-- A dependent of a visited node waits for one node less. -/
def release (s : BTreeMap K Nat × List K) (dep : K) : BTreeMap K Nat × List K :=
  match s.1[dep]? with
  | none => s
  | some d => (s.1.insert dep (d - 1), if d - 1 = 0 then s.2 ++ [dep] else s.2)

/-- The release with the subtraction checked: none where it overflows. -/
def release? (s : BTreeMap K Nat × List K) (dep : K) : Option (BTreeMap K Nat × List K) :=
  match s.1[dep]? with
  | none => some s
  | some 0 => none
  | some (d + 1) => some (s.1.insert dep d, if d = 0 then s.2 ++ [dep] else s.2)

theorem getElem?_insert_eq {V : Type} (m : BTreeMap K V) (a k : K) (d : V) :
    (m.insert a d)[k]? = if k = a then some d else m[k]? := by
  rw [Std.ExtTreeMap.getElem?_insert]
  by_cases h : k = a
  · simp [h]
  · rw [if_neg h, if_neg fun he => h (Std.LawfulEqOrd.eq_of_compare he).symm]

/-- The releases of all dependents: each in-degree drops by how often its node is
listed, and what reaches zero is added once. -/
theorem foldl_release (deps : List K) (m : BTreeMap K Nat) (pending : List K)
    (hle : ∀ k d, m[k]? = some d → deps.count k ≤ d) :
    (∀ k, (deps.foldl release (m, pending)).1[k]? = m[k]?.map (· - deps.count k)) ∧
    ∃ new, (deps.foldl release (m, pending)).2 = pending ++ new ∧ new.Nodup ∧
      ∀ k, k ∈ new ↔ k ∈ deps ∧ m[k]? = some (deps.count k) := by
  induction deps generalizing m pending with
  | nil => exact ⟨by simp, [], by simp⟩
  | cons a deps ih =>
    have hcount : ∀ k, (a :: deps).count k = deps.count k + if k = a then 1 else 0 := by
      intro k
      rw [List.count_cons]
      by_cases h : k = a
      · simp [h]
      · simp [h, Ne.symm h]
    rw [List.foldl_cons]
    cases ha : m[a]? with
    | none =>
      have hrelease : release (m, pending) a = (m, pending) := by simp [release, ha]
      obtain ⟨hdeg, new, hnew, hnodup, hmem⟩ :=
        ih m pending fun k d hk => le_trans (by rw [hcount]; omega) (hle k d hk)
      have hne : ∀ {k}, m[k]?.isSome → k ≠ a := by
        rintro k hk rfl
        rw [ha] at hk
        exact absurd hk (by simp)
      rw [hrelease]
      refine ⟨fun k => ?_, new, hnew, hnodup, fun k => ?_⟩
      · rw [hdeg]
        cases hk : m[k]? with
        | none => rfl
        | some d => rw [hcount, if_neg (hne (by rw [hk]; rfl)), Nat.add_zero]
      · rw [hmem]
        constructor
        · rintro ⟨hin, hk⟩
          have := hne (k := k) (by rw [hk]; rfl)
          exact ⟨List.mem_cons_of_mem _ hin, by rw [hk, hcount, if_neg this, Nat.add_zero]⟩
        · rintro ⟨hin, hk⟩
          have := hne (k := k) (by rw [hk]; rfl)
          rw [hcount, if_neg this, Nat.add_zero] at hk
          exact ⟨(List.mem_cons.mp hin).resolve_left this, hk⟩
    | some d =>
      have hd : deps.count a + 1 ≤ d := by
        have := hle a d ha
        rwa [hcount, if_pos rfl] at this
      have hm : ∀ k, (m.insert a (d - 1))[k]? = if k = a then some (d - 1) else m[k]? :=
        fun k => getElem?_insert_eq m a k (d - 1)
      obtain ⟨hdeg, new, hnew, hnodup, hmem⟩ := ih (m.insert a (d - 1))
        (if d - 1 = 0 then pending ++ [a] else pending) fun k e hk => by
          rw [hm] at hk
          split_ifs at hk with hka
          · cases hk
            rw [hka]
            omega
          · exact le_trans (by rw [hcount]; omega) (hle k e hk)
      have hrelease : release (m, pending) a =
          (m.insert a (d - 1), if d - 1 = 0 then pending ++ [a] else pending) := by
        simp [release, ha]
      have hmem' : ∀ k, k ≠ a → (k ∈ new ↔ k ∈ a :: deps ∧ m[k]? = some ((a :: deps).count k)) := by
        intro k hk
        rw [hmem, hm, if_neg hk, hcount, if_neg hk, Nat.add_zero, List.mem_cons, or_iff_right hk]
      have ha' : a ∈ new ↔ a ∈ deps ∧ d - 1 = deps.count a := by
        rw [hmem, hm, if_pos rfl, Option.some.injEq]
      rw [hrelease]
      refine ⟨fun k => ?_, ?_⟩
      · rw [hdeg, hm, hcount]
        by_cases hk : k = a
        · rw [if_pos hk, if_pos hk, hk, ha]
          simp only [Option.map_some, Option.some.injEq]
          omega
        · rw [if_neg hk, if_neg hk, Nat.add_zero]
      · by_cases hz : d - 1 = 0
        · have hcz : deps.count a = 0 := by omega
          have hna : a ∉ new := fun h => (List.count_eq_zero.mp hcz) (ha'.mp h).1
          refine ⟨a :: new, by rw [hnew, if_pos hz]; simp, List.nodup_cons.mpr ⟨hna, hnodup⟩,
            fun k => ?_⟩
          by_cases hk : k = a
          · subst hk
            rw [ha, hcount, if_pos rfl, hcz]
            simp only [List.mem_cons, true_or, true_and, true_iff, Option.some.injEq]
            omega
          · rw [List.mem_cons, or_iff_right hk, hmem' k hk]
        · refine ⟨new, by rw [hnew, if_neg hz], hnodup, fun k => ?_⟩
          by_cases hk : k = a
          · subst hk
            rw [ha', ha, hcount, if_pos rfl]
            simp only [List.mem_cons, true_or, true_and, Option.some.injEq]
            constructor
            · rintro ⟨-, h⟩
              omega
            · intro h
              have hpos : 0 < deps.count k := by omega
              exact ⟨List.count_pos_iff.mp hpos, by omega⟩
          · exact hmem' k hk

/-- The releases do not overflow where each in-degree is at least as often to be lowered. -/
theorem foldlM_release? (deps : List K) (m : BTreeMap K Nat) (pending : List K)
    (hle : ∀ k d, m[k]? = some d → deps.count k ≤ d) :
    deps.foldlM release? (m, pending) = some (deps.foldl release (m, pending)) := by
  induction deps generalizing m pending with
  | nil => rfl
  | cons a deps ih =>
    rw [List.foldlM_cons, List.foldl_cons]
    have hrest : ∀ k d, m[k]? = some d → deps.count k ≤ d := fun k d hk =>
      (List.count_le_count_cons).trans (hle k d hk)
    cases ha : m[a]? with
    | none =>
      have hone : release? (m, pending) a = some (m, pending) := by simp [release?, ha]
      have hrelease : release (m, pending) a = (m, pending) := by simp [release, ha]
      rw [hone, hrelease]
      exact ih m pending hrest
    | some d =>
      obtain ⟨d, rfl⟩ : ∃ e, d = e + 1 := by
        have := hle a d ha
        rw [List.count_cons_self] at this
        exact ⟨d - 1, by omega⟩
      have hone : release? (m, pending) a = some (m.insert a d, if d = 0 then pending ++ [a] else pending) := by
        simp [release?, ha]
      have hrelease : release (m, pending) a = (m.insert a d, if d = 0 then pending ++ [a] else pending) := by
        simp [release, ha]
      rw [hone, hrelease]
      refine ih _ _ fun k e hk => ?_
      rw [getElem?_insert_eq] at hk
      split_ifs at hk with hka
      · cases hk
        have := hle a (d + 1) ha
        rw [List.count_cons_self] at this
        exact hka ▸ Nat.le_of_succ_le_succ this
      · exact hrest k e hk

omit [Std.LawfulEqOrd K] [DecidableEq K] in
/-- The nodes already pending do not matter to the releases. -/
theorem foldl_release_append (deps : List K) (m : BTreeMap K Nat) (pending more : List K) :
    deps.foldl release (m, pending ++ more) =
      ((deps.foldl release (m, more)).1, pending ++ (deps.foldl release (m, more)).2) := by
  induction deps generalizing m more with
  | nil => rfl
  | cons a deps ih =>
    rw [List.foldl_cons, List.foldl_cons]
    cases ha : m[a]? with
    | none =>
      have hrelease : ∀ l, release (m, l) a = (m, l) := fun l => by simp [release, ha]
      rw [hrelease, hrelease, ih]
    | some d =>
      have hrelease : ∀ l, release (m, l) a =
          (m.insert a (d - 1), if d - 1 = 0 then l ++ [a] else l) := fun l => by simp [release, ha]
      rw [hrelease, hrelease]
      split_ifs
      · rw [List.append_assoc, ih]
      · rw [ih]

/-- A walk over the nodes `N`: each in-degree counts the dependencies not visited, the
nodes visited or pending are those that wait for nothing, and visited nodes come after
their dependencies. -/
structure Walk (deps : K → List K) (N : K → Prop) (inDegree : BTreeMap K Nat)
    (pending visited : List K) : Prop where
  nodup : (visited ++ pending).Nodup
  node : ∀ n, inDegree[n]?.isSome ↔ N n
  degree : ∀ n d, inDegree[n]? = some d → d = (deps n).countP (· ∉ visited)
  settled : ∀ n, n ∈ visited ++ pending ↔ inDegree[n]? = some 0
  order : ∀ pre n post, visited = pre ++ n :: post → ∀ d ∈ deps n, d ∈ pre

namespace Walk

variable {deps : K → List K} {N : K → Prop} {inDegree : BTreeMap K Nat} {pending visited : List K}

omit [Std.LawfulEqOrd K] in
/-- Where the pending nodes stand does not matter. -/
theorem perm (h : Walk deps N inDegree pending visited) {pending' : List K}
    (hp : pending.Perm pending') : Walk deps N inDegree pending' visited where
  nodup := (hp.append_left visited).nodup_iff.mp h.nodup
  node := h.node
  degree := h.degree
  settled n := by rw [← h.settled, List.mem_append, List.mem_append, hp.mem_iff]
  order := h.order

omit [Std.LawfulEqOrd K] in
/-- The nodes that wait for nothing from the start. -/
theorem start (inDegree : BTreeMap K Nat) (hnode : ∀ n, inDegree[n]?.isSome ↔ N n)
    (hdegree : ∀ n d, inDegree[n]? = some d → d = (deps n).length) (hnodup : pending.Nodup)
    (hpending : ∀ n, n ∈ pending ↔ inDegree[n]? = some 0) : Walk deps N inDegree pending [] where
  nodup := hnodup
  node := hnode
  degree n d h := by rw [hdegree n d h, List.countP_eq_length.mpr (by simp)]
  settled := hpending
  order pre n post h := by simp at h

omit [Std.LawfulEqOrd K] in
/-- A settled node has all its dependencies visited. -/
theorem deps_visited (h : Walk deps N inDegree pending visited) {n : K}
    (hn : n ∈ visited ++ pending) : ∀ d ∈ deps n, d ∈ visited := by
  have hzero := h.degree n 0 ((h.settled n).mp hn)
  intro d hd
  by_contra hd'
  exact absurd (List.countP_eq_zero.mp hzero.symm d hd) (by simpa using hd')

/-- What a node waits for when one more is visited. -/
theorem countP_visited {l visited : List K} {n : K} (hn : n ∉ visited) :
    l.countP (· ∉ visited ++ [n]) + l.count n = l.countP (· ∉ visited) := by
  induction l with
  | nil => rfl
  | cons a l ih =>
    rw [List.countP_cons, List.countP_cons, List.count_cons]
    simp only [List.mem_append, List.mem_singleton] at ih ⊢
    by_cases ha : a = n
    · subst ha
      simp only [or_true, not_true, decide_false, Bool.false_eq_true, if_false, beq_self_eq_true,
        if_true, hn, not_false_eq_true, decide_true]
      omega
    · simp only [ha, or_false, beq_iff_eq, if_false]
      omega

/-- What a node waits for: the releases of the next node to visit, and what is left then. -/
theorem count_add {n : K} {rest : List K} (h : Walk deps N inDegree (n :: rest) visited) {adj : List K}
    (hadj : ∀ k, N k → adj.count k = (deps k).count n) (k : K) (d : Nat) (hk : inDegree[k]? = some d) :
    adj.count k + (deps k).countP (· ∉ visited ++ [n]) = d := by
  have hn : n ∉ visited := fun hv =>
    (List.nodup_append.mp h.nodup).2.2 n hv n List.mem_cons_self rfl
  rw [hadj k ((h.node k).mp (by rw [hk]; rfl)), h.degree k d hk, ← countP_visited hn, Nat.add_comm]

/-- A pending node is visited, and its dependents are released. -/
theorem visit {n : K} {rest : List K} (h : Walk deps N inDegree (n :: rest) visited) (adj : List K)
    (hadj : ∀ k, N k → adj.count k = (deps k).count n) :
    Walk deps N (adj.foldl release (inDegree, rest)).1 (adj.foldl release (inDegree, rest)).2
      (visited ++ [n]) := by
  have hnodup := h.nodup
  have hcount := h.count_add hadj
  obtain ⟨hdeg, new, hnew, hnewNodup, hmem⟩ := foldl_release adj inDegree rest fun k d hk => by
    have := hcount k d hk
    omega
  have hfresh : ∀ k ∈ new, k ∉ visited ++ n :: rest := by
    intro k hk hin
    obtain ⟨hkadj, hkd⟩ := (hmem k).mp hk
    have hzero := (h.settled k).mp hin
    rw [hkd, Option.some.injEq] at hzero
    exact (List.count_eq_zero.mp hzero) hkadj
  refine ⟨?_, fun k => ?_, fun k d hk => ?_, fun k => ?_, ?_⟩
  · rw [hnew, List.append_assoc, List.singleton_append, ← List.cons_append, ← List.append_assoc]
    exact List.nodup_append.mpr ⟨hnodup, hnewNodup, fun a ha b hb hab => hfresh b hb (hab ▸ ha)⟩
  · rw [hdeg, ← h.node]
    cases inDegree[k]? <;> rfl
  · rw [hdeg] at hk
    obtain ⟨e, he, rfl⟩ := Option.map_eq_some_iff.mp hk
    have := hcount k e he
    omega
  · rw [hdeg, hnew, List.append_assoc, List.singleton_append, ← List.cons_append,
      ← List.append_assoc, List.mem_append, h.settled, hmem]
    cases hk : inDegree[k]? with
    | none => simp
    | some d =>
      have hd := hcount k d hk
      simp only [Option.some.injEq, Option.map_some]
      constructor
      · rintro (rfl | ⟨-, rfl⟩)
        · exact Nat.zero_sub _
        · exact Nat.sub_self _
      · intro hz
        by_cases hd0 : d = 0
        · exact .inl hd0
        · have hpos : 0 < adj.count k := by omega
          exact .inr ⟨List.count_pos_iff.mp hpos, by omega⟩
  · intro pre k post heq d hd
    rcases List.eq_nil_or_concat post with rfl | ⟨post', z, rfl⟩
    · obtain ⟨rfl, hnk⟩ := List.append_inj' heq rfl
      cases hnk
      exact h.deps_visited (List.mem_append_right _ List.mem_cons_self) d hd
    · have heq' : visited ++ [n] = (pre ++ k :: post') ++ [z] := by simpa using heq
      obtain ⟨hv, -⟩ := List.append_inj' heq' rfl
      exact h.order pre k post' hv d hd

omit [Std.LawfulEqOrd K] in
/-- A walk in which no node waits is an order of all nodes. -/
theorem exists_order (h : Walk deps N inDegree pending visited)
    (hzero : ∀ (n : K) (d : Nat), inDegree[n]? = some d → d = 0) :
    (∀ n, N n → n ∈ visited ++ pending) ∧
      ∀ pre n post, visited ++ pending = pre ++ n :: post → ∀ d ∈ deps n, d ∈ pre := by
  refine ⟨fun n hn => ?_, fun pre n post heq d hd => ?_⟩
  · obtain ⟨d, hd⟩ := Option.isSome_iff_exists.mp ((h.node n).mpr hn)
    exact (h.settled n).mpr (hzero n d hd ▸ hd)
  · have hdv : d ∈ visited := h.deps_visited (heq ▸ by simp) d hd
    rcases List.append_eq_append_iff.mp heq with ⟨l, hpre, -⟩ | ⟨l, hvis, hl⟩
    · exact hpre ▸ List.mem_append_left _ hdv
    · cases l with
      | nil =>
        rw [List.append_nil] at hvis
        exact hvis ▸ hdv
      | cons a l =>
        rw [List.cons_append] at hl
        cases hl
        exact h.order pre n l hvis d hd

omit [Std.LawfulEqOrd K] in
/-- A walk that is over has visited all nodes, when they have an order. -/
theorem complete (h : Walk deps N inDegree [] visited) (hdeps : ∀ n, N n → ∀ d ∈ deps n, N d)
    {order : List K} (hall : ∀ n, N n → n ∈ order)
    (horder : ∀ pre n post, order = pre ++ n :: post → ∀ d ∈ deps n, d ∈ pre) :
    ∀ n, N n → n ∈ visited := by
  suffices hpre : ∀ pre post, order = pre ++ post → ∀ n ∈ pre, N n → n ∈ visited from
    fun n hn => hpre order [] (by simp) n (hall n hn) hn
  -- induction on the prefix of the order, from the left
  intro pre
  induction pre using List.reverseRecOn with
  | nil => exact fun _ _ _ h => absurd h List.not_mem_nil
  | append_singleton pre a ih =>
    intro post heq n hn hN
    rw [List.append_assoc] at heq
    rcases List.mem_append.mp hn with hn | hn
    · exact ih _ heq n hn hN
    · obtain rfl := List.mem_singleton.mp hn
      obtain ⟨d, hd⟩ := Option.isSome_iff_exists.mp ((h.node n).mpr hN)
      have hzero : (deps n).countP (· ∉ visited) = 0 := List.countP_eq_zero.mpr fun x hx => by
        have hxpre : x ∈ pre := horder pre n post heq x hx
        simpa using ih _ heq x hxpre (hdeps n hN x hx)
      have hd0 : d = 0 := (h.degree n d hd).trans hzero
      simpa using (h.settled n).mpr (hd0 ▸ hd)

omit [Std.LawfulEqOrd K] in
/-- A walk that is over has visited all nodes, when no node depends on itself through others. -/
theorem complete_of_acyclic (h : Walk deps N inDegree [] visited) (hdeps : ∀ n, N n → ∀ d ∈ deps n, N d)
    (hfinite : Set.Finite {n | N n}) {R : K → K → Prop} (hR : ∀ n, N n → ∀ d ∈ deps n, R n d)
    (hacyclic : ∀ n, ¬Relation.TransGen R n n) : ∀ n, N n → n ∈ visited := by
  have : Finite {n // N n} := hfinite.to_subtype
  let Rel (a b : {n // N n}) : Prop := Relation.TransGen R b.1 a.1
  have : IsTrans {n // N n} Rel := ⟨fun _ _ _ hab hbc => hbc.trans hab⟩
  have : Std.Irrefl Rel := ⟨fun a => hacyclic a.1⟩
  -- well-founded induction along the dependencies
  suffices hall : ∀ n : {n // N n}, n.1 ∈ visited from fun n hn => hall ⟨n, hn⟩
  intro n
  induction n using (Finite.wellFounded_of_trans_of_irrefl Rel).induction with
  | h n ih =>
    obtain ⟨d, hd⟩ := Option.isSome_iff_exists.mp ((h.node n).mpr n.2)
    have hzero : (deps n).countP (· ∉ visited) = 0 := List.countP_eq_zero.mpr fun x hx => by
      simpa using ih ⟨x, hdeps n n.2 x hx⟩ (.single (hR n n.2 x hx))
    have hd0 : d = 0 := (h.degree n d hd).trans hzero
    simpa using (h.settled n).mpr (hd0 ▸ hd)

omit [Std.LawfulEqOrd K] in
/-- A visited node comes after all it depends on, also through others. -/
theorem mem_of_transGen (h : Walk deps N inDegree pending visited) {R : K → K → Prop}
    (hR : ∀ n d, R n d → d ∈ deps n) {pre post : List K} {n d : K} (heq : visited = pre ++ n :: post)
    (hd : Relation.TransGen R n d) : d ∈ pre := by
  induction hd with
  | single hd => exact h.order pre n post heq _ (hR _ _ hd)
  | tail _ hd ih =>
    obtain ⟨before, after, rfl⟩ := List.append_of_mem ih
    have hmem := h.order before _ (after ++ n :: post) (by simp [heq]) _ (hR _ _ hd)
    exact List.mem_append_left _ hmem

end Walk

end NlinkLab.TopoSort
