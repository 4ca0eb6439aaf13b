import Mathlib

/-! Breadth-first search with a label for each visited node. Labelled with the
path it came by, a node is visited by its first path: the shortest one, and of
equally short ones the one whose steps come first in neighbour order
(`visits_first`). A search whose labels are a function of the paths visits the
same nodes (`loop_map`). -/

namespace NlinkLab.Bfs

variable {N L : Type} [DecidableEq N]

/-! ### The search -/

/-- Put a node in the queue unless it was there before. -/
def enqueue (s : List N × List (N × L)) (e : N × L) : List N × List (N × L) :=
  if e.1 ∈ s.1 then s else (s.1 ++ [e.1], s.2 ++ [e])

/-- Visit the queue's nodes and what they lead to; the visited nodes in order. -/
def loop (next : N → L → List (N × L)) : (fuel : ℕ) → List N → List (N × L) → List (N × L)
  | 0, _, _ => []
  | _ + 1, _, [] => []
  | fuel + 1, visited, (x, l) :: queue =>
    let s := (next x l).foldl enqueue (visited, queue)
    (x, l) :: loop next fuel s.1 s.2

/-! ### Labels that are a function of others -/

theorem foldl_enqueue_map {M : Type} (f : L → M) (es : List (N × L)) (visited : List N)
    (queue : List (N × L)) :
    (es.map (Prod.map id f)).foldl enqueue (visited, queue.map (Prod.map id f)) =
      Prod.map id (List.map (Prod.map id f)) (es.foldl enqueue (visited, queue)) := by
  induction es generalizing visited queue with
  | nil => rfl
  | cons e es ih =>
    simp only [List.map_cons, List.foldl_cons]
    by_cases h : e.1 ∈ visited
    · have hf : (Prod.map id f e).1 ∈ visited := h
      rw [enqueue, if_pos hf, enqueue, if_pos h]
      exact ih visited queue
    · have hf : (Prod.map id f e).1 ∉ visited := h
      rw [enqueue, if_neg hf, enqueue, if_neg h]
      have := ih (visited ++ [e.1]) (queue ++ [e])
      rw [List.map_append] at this
      exact this

theorem mem_foldl_enqueue {es queue : List (N × L)} {visited : List N} {e : N × L}
    (h : e ∈ (es.foldl enqueue (visited, queue)).2) : e ∈ queue ∨ e ∈ es := by
  induction es generalizing visited queue with
  | nil => exact .inl h
  | cons d es ih =>
    rw [List.foldl_cons, enqueue] at h
    split_ifs at h
    · exact (ih h).imp_right (List.mem_cons_of_mem d)
    · rcases ih h with h | h
      · rcases List.mem_append.mp h with h | h
        · exact .inl h
        · exact .inr (by rw [List.mem_singleton.mp h]; exact List.mem_cons_self)
      · exact .inr (List.mem_cons_of_mem d h)

/-- Labels in `P`, mapped by `f`: the two searches visit the same nodes. -/
theorem loop_map {M : Type} (f : L → M) (P : L → Prop) (next : N → L → List (N × L))
    (next' : N → M → List (N × M))
    (hP : ∀ x l, P l → ∀ e ∈ next x l, P e.2)
    (hf : ∀ x l, P l → next' x (f l) = (next x l).map (Prod.map id f))
    (fuel : ℕ) (visited : List N) (queue : List (N × L)) (hq : ∀ e ∈ queue, P e.2) :
    loop next' fuel visited (queue.map (Prod.map id f)) =
      (loop next fuel visited queue).map (Prod.map id f) := by
  induction fuel generalizing visited queue with
  | zero => rfl
  | succ fuel ih =>
    match queue, hq with
    | [], _ => rfl
    | (x, l) :: queue, hq =>
      have hl : P l := hq (x, l) List.mem_cons_self
      simp only [List.map_cons, loop, Prod.map_apply, id, hf x l hl, foldl_enqueue_map]
      congr 1
      refine ih _ _ fun e he => ?_
      rcases mem_foldl_enqueue he with h | h
      · exact hq e (List.mem_cons_of_mem _ h)
      · exact hP x l hl e h

/-! ### Paths -/

/-- The order of paths, given as the index of the neighbour at each step:
shorter first, then step by step. -/
def rank (p : List ℕ) : ℕ ×ₗ List ℕ := toLex (p.length, p)

theorem rank_lt {p q : List ℕ} :
    rank p < rank q ↔ p.length < q.length ∨ p.length = q.length ∧ p < q :=
  Prod.Lex.toLex_lt_toLex

theorem rank_snoc_lt_of_lt {p q : List ℕ} (h : rank p < rank q) (i j : ℕ) :
    rank (p ++ [i]) < rank (q ++ [j]) := by
  rw [rank_lt] at h ⊢
  rw [List.length_append, List.length_append]
  rcases h with h | ⟨hl, h⟩
  · exact .inl (by simpa using h)
  · refine .inr ⟨by rw [hl]; rfl, ?_⟩
    induction h with
    | nil => simp at hl
    | rel h => exact .rel h
    | cons h ih => exact .cons (ih (by simpa using hl))

theorem rank_snoc_lt (p : List ℕ) {i j : ℕ} (h : i < j) : rank (p ++ [i]) < rank (p ++ [j]) := by
  rw [rank_lt]
  refine .inr ⟨by simp, ?_⟩
  induction p with
  | nil => exact .rel h
  | cons a p ih => exact .cons ih

theorem rank_snoc_le_of_le {p q : List ℕ} (h : rank p ≤ rank q) (i : ℕ) :
    rank (p ++ [i]) ≤ rank (q ++ [i]) := by
  rcases h.eq_or_lt with h | h
  · have hpq : p = q := (Prod.mk.inj (toLex_inj.mp h)).2
    rw [hpq]
  · exact (rank_snoc_lt_of_lt h i i).le

/-- Where a path leads. -/
def follow (adj : N → List N) (x : N) : List ℕ → Option N
  | [] => some x
  | i :: p => (adj x)[i]?.bind fun y => follow adj y p

omit [DecidableEq N] in
theorem follow_snoc (adj : N → List N) (x : N) (p : List ℕ) (i : ℕ) :
    follow adj x (p ++ [i]) = (follow adj x p).bind fun y => (adj y)[i]? := by
  induction p generalizing x with
  | nil => simp [follow]
  | cons j p ih =>
    simp only [List.cons_append, follow]
    cases (adj x)[j]? with
    | none => rfl
    | some y => exact ih y

/-! ### Visiting by paths -/

/-- The neighbours of a node, each by the path extended. -/
def extend (adj : N → List N) (x : N) (p : List ℕ) : List (N × List ℕ) :=
  (adj x).zipIdx.map fun (y, i) => (y, p ++ [i])

/-- What holds of the visited nodes and the queue, when the steps from visited
nodes have been taken up to the path `limit`. -/
structure Upto (adj : N → List N) (start : N) (out queue : List (N × List ℕ))
    (limit : ℕ ×ₗ List ℕ) : Prop where
  follow : ∀ e ∈ out ++ queue, follow adj start e.2 = some e.1
  sorted : (out ++ queue).Pairwise fun a b => rank a.2 < rank b.2
  parent : ∀ e ∈ out ++ queue, e.2 = [] ∨ ∃ o ∈ out, ∃ j, e.2 = o.2 ++ [j]
  below : ∀ e ∈ out ++ queue, rank e.2 < limit
  closed : ∀ o ∈ out, ∀ i y, (adj o.1)[i]? = some y → rank (o.2 ++ [i]) < limit →
    ∃ q, (y, q) ∈ out ++ queue ∧ rank q ≤ rank (o.2 ++ [i])

/-- What holds between two steps. -/
structure Inv (adj : N → List N) (start : N) (out queue : List (N × List ℕ)) : Prop where
  follow : ∀ e ∈ out ++ queue, Bfs.follow adj start e.2 = some e.1
  sorted : (out ++ queue).Pairwise fun a b => rank a.2 < rank b.2
  parent : ∀ e ∈ out ++ queue, e.2 = [] ∨ ∃ o ∈ out, ∃ j, e.2 = o.2 ++ [j]
  closed : ∀ o ∈ out, ∀ i y, (adj o.1)[i]? = some y →
    ∃ q, (y, q) ∈ out ++ queue ∧ rank q ≤ rank (o.2 ++ [i])

variable {adj : N → List N} {start x : N} {p : List ℕ} {out queue : List (N × List ℕ)}

omit [DecidableEq N] in
/-- Taking a node off the queue. -/
theorem Inv.dequeue (h : Inv adj start out ((x, p) :: queue)) :
    Upto adj start (out ++ [(x, p)]) queue (rank (p ++ [0])) := by
  have happ : out ++ (x, p) :: queue = out ++ [(x, p)] ++ queue := by simp
  have hlt : ∀ o ∈ out, rank o.2 < rank p := fun o ho =>
    (List.pairwise_append.mp h.sorted).2.2 o ho (x, p) List.mem_cons_self
  refine ⟨?_, ?_, ?_, ?_, ?_⟩
  · rw [← happ]; exact h.follow
  · rw [← happ]; exact h.sorted
  · intro e he
    rw [← happ] at he
    refine (h.parent e he).imp_right fun ⟨o, ho, j, hj⟩ => ⟨o, List.mem_append_left _ ho, j, hj⟩
  · intro e he
    rw [← happ] at he
    rcases h.parent e he with hnil | ⟨o, ho, j, hj⟩
    · rw [hnil]; exact rank_lt.mpr (.inl (by simp))
    · rw [hj]; exact rank_snoc_lt_of_lt (hlt o ho) j 0
  · intro o ho i y hy hi
    rcases List.mem_append.mp ho with ho | ho
    · rw [← happ]; exact h.closed o ho i y hy
    · obtain rfl := List.mem_singleton.mp ho
      rcases Nat.eq_zero_or_pos i with h0 | h0
      · rw [h0] at hi; exact absurd hi (lt_irrefl _)
      · exact absurd hi (rank_snoc_lt p h0).asymm

/-- Taking one step from the node visited last. -/
theorem Upto.enqueue {k : ℕ} {y : N}
    (h : Upto adj start (out ++ [(x, p)]) queue (rank (p ++ [k]))) (hy : (adj x)[k]? = some y) :
    Upto adj start (out ++ [(x, p)])
      (Bfs.enqueue ((out ++ [(x, p)] ++ queue).map (·.1), queue) (y, p ++ [k])).2
      (rank (p ++ [k + 1])) := by
  have hx : (x, p) ∈ out ++ [(x, p)] := by simp
  have hk := rank_snoc_lt p (Nat.lt_succ_self k)
  -- every older step stays taken, and the step `k` is taken now
  have hclosed : ∀ queue' : List (N × List ℕ), queue ⊆ queue' →
      (∃ q, (y, q) ∈ out ++ [(x, p)] ++ queue' ∧ rank q ≤ rank (p ++ [k])) →
      ∀ o ∈ out ++ [(x, p)], ∀ i z, (adj o.1)[i]? = some z → rank (o.2 ++ [i]) < rank (p ++ [k + 1]) →
        ∃ q, (z, q) ∈ out ++ [(x, p)] ++ queue' ∧ rank q ≤ rank (o.2 ++ [i]) := by
    intro queue' hsub hnew o ho i z hz hi
    by_cases hlt : rank (o.2 ++ [i]) < rank (p ++ [k])
    · obtain ⟨q, hq, hle⟩ := h.closed o ho i z hz hlt
      refine ⟨q, ?_, hle⟩
      exact (List.mem_append.mp hq).elim (List.mem_append_left _) fun hq =>
        List.mem_append_right _ (hsub hq)
    · -- no path lies between the steps `k` and `k + 1`
      have heq : o.2 ++ [i] = p ++ [k] := by
        rcases List.mem_append.mp ho with ho' | ho'
        · have := (List.pairwise_append.mp (List.pairwise_append.mp h.sorted).1).2.2 o ho' (x, p)
            (List.mem_singleton.mpr rfl)
          exact absurd (rank_snoc_lt_of_lt this i k) hlt
        · obtain rfl := List.mem_singleton.mp ho'
          rcases Nat.lt_trichotomy i k with hik | rfl | hik
          · exact absurd (rank_snoc_lt p hik) hlt
          · rfl
          · rcases Nat.lt_or_eq_of_le (Nat.succ_le_of_lt hik) with h1 | h1
            · exact absurd hi (rank_snoc_lt p h1).asymm
            · rw [← h1] at hi; exact absurd hi (lt_irrefl _)
      have ho2 : o.2 = p := List.append_inj_left' heq rfl
      have hik : i = k := by simpa [ho2] using heq
      have ho1 : o.1 = x := by
        have hfo := h.follow o (List.mem_append_left _ ho)
        have hfx := h.follow (x, p) (List.mem_append_left _ hx)
        rw [ho2] at hfo
        exact Option.some.inj (hfo.symm.trans hfx)
      rw [ho1, hik, hy] at hz
      obtain rfl := Option.some.inj hz
      rw [ho2, hik]; exact hnew
  rw [Bfs.enqueue]
  split_ifs with hmem
  · refine ⟨h.follow, h.sorted, h.parent, fun e he => (h.below e he).trans hk, ?_⟩
    refine hclosed queue (List.Subset.refl _) ?_
    obtain ⟨e, he, rfl⟩ := List.mem_map.mp hmem
    exact ⟨e.2, he, (h.below e he).le⟩
  · have happ : out ++ [(x, p)] ++ (queue ++ [(y, p ++ [k])]) =
        out ++ [(x, p)] ++ queue ++ [(y, p ++ [k])] := by simp
    refine ⟨?_, ?_, ?_, ?_, ?_⟩
    · intro e he
      rw [happ] at he
      rcases List.mem_append.mp he with he | he
      · exact h.follow e he
      · obtain rfl := List.mem_singleton.mp he
        rw [follow_snoc, h.follow (x, p) (List.mem_append_left _ hx)]
        exact hy
    · rw [happ, List.pairwise_append]
      refine ⟨h.sorted, List.pairwise_singleton _ _, fun a ha b hb => ?_⟩
      obtain rfl := List.mem_singleton.mp hb
      exact h.below a ha
    · intro e he
      rw [happ] at he
      rcases List.mem_append.mp he with he | he
      · exact h.parent e he
      · obtain rfl := List.mem_singleton.mp he
        exact .inr ⟨(x, p), hx, k, rfl⟩
    · intro e he
      rw [happ] at he
      rcases List.mem_append.mp he with he | he
      · exact (h.below e he).trans hk
      · obtain rfl := List.mem_singleton.mp he
        exact hk
    · refine hclosed _ (List.subset_append_left _ _) ⟨p ++ [k], ?_, le_rfl⟩
      rw [happ]; exact List.mem_append_right _ (List.mem_singleton.mpr rfl)

/-- Taking the steps from the node visited last, from the `k`th on. -/
theorem Upto.foldl_enqueue (ys : List N) (k : ℕ)
    (h : Upto adj start (out ++ [(x, p)]) queue (rank (p ++ [k])))
    (hys : ∀ i y, ys[i]? = some y → (adj x)[k + i]? = some y) :
    let s := ((ys.zipIdx k).map fun (y, i) => (y, p ++ [i])).foldl Bfs.enqueue
      ((out ++ [(x, p)] ++ queue).map (·.1), queue)
    s.1 = (out ++ [(x, p)] ++ s.2).map (·.1) ∧
      Upto adj start (out ++ [(x, p)]) s.2 (rank (p ++ [k + ys.length])) := by
  induction ys generalizing k queue with
  | nil => exact ⟨rfl, h⟩
  | cons y ys ih =>
    have hstep := h.enqueue (hys 0 y rfl)
    have hvisited : (Bfs.enqueue ((out ++ [(x, p)] ++ queue).map (·.1), queue) (y, p ++ [k])).1 =
        (out ++ [(x, p)] ++
          (Bfs.enqueue ((out ++ [(x, p)] ++ queue).map (·.1), queue) (y, p ++ [k])).2).map (·.1) := by
      unfold Bfs.enqueue
      split_ifs <;> simp
    have hrest := ih _ hstep fun i z hz => by
      have := hys (i + 1) z hz
      rwa [Nat.add_comm i 1, ← Nat.add_assoc] at this
    rw [← hvisited] at hrest
    have hlen : k + (y :: ys).length = k + 1 + ys.length := by
      rw [List.length_cons]; omega
    rw [hlen]
    exact hrest

omit [DecidableEq N] in
/-- Once all steps of the node visited last are taken, the next can be visited. -/
theorem Upto.inv (h : Upto adj start (out ++ [(x, p)]) queue (rank (p ++ [(adj x).length]))) :
    Inv adj start (out ++ [(x, p)]) queue := by
  refine ⟨h.follow, h.sorted, h.parent, fun o ho i y hy => h.closed o ho i y hy ?_⟩
  rcases List.mem_append.mp ho with ho' | ho'
  · have := (List.pairwise_append.mp (List.pairwise_append.mp h.sorted).1).2.2 o ho' (x, p)
      (List.mem_singleton.mpr rfl)
    exact rank_snoc_lt_of_lt this _ _
  · obtain rfl := List.mem_singleton.mp ho'
    exact rank_snoc_lt p (List.getElem?_eq_some_iff.mp hy).1

/-- One visit. -/
theorem Inv.step (h : Inv adj start out ((x, p) :: queue)) :
    let s := (extend adj x p).foldl Bfs.enqueue ((out ++ (x, p) :: queue).map (·.1), queue)
    s.1 = (out ++ [(x, p)] ++ s.2).map (·.1) ∧ Inv adj start (out ++ [(x, p)]) s.2 := by
  have happ : out ++ (x, p) :: queue = out ++ [(x, p)] ++ queue := by simp
  have hall := h.dequeue.foldl_enqueue (adj x) 0 fun i y hy => by
    rwa [Nat.zero_add]
  rw [Nat.zero_add] at hall
  rw [happ]
  exact ⟨hall.1, hall.2.inv⟩

/-! ### Running out of nodes -/

/-- What a run has left to do: the queue, and the nodes not visited yet. -/
def work (pool : Finset N) (visited : List N) (queue : List (N × L)) : ℕ :=
  queue.length + (pool \ visited.toFinset).card

theorem work_foldl_enqueue (pool : Finset N) (es : List (N × L)) (s : List N × List (N × L))
    (hes : ∀ e ∈ es, e.1 ∈ pool) :
    work pool (es.foldl enqueue s).1 (es.foldl enqueue s).2 ≤ work pool s.1 s.2 := by
  induction es generalizing s with
  | nil => exact le_rfl
  | cons e es ih =>
    refine (ih _ fun e' he' => hes e' (List.mem_cons_of_mem e he')).trans ?_
    unfold enqueue work
    split_ifs with h
    · exact le_rfl
    · have hset : (s.1 ++ [e.1]).toFinset = insert e.1 s.1.toFinset := by
        ext z; simp
      have hmem : e.1 ∈ pool \ s.1.toFinset := by
        simpa [h] using hes e List.mem_cons_self
      have hcard := Finset.card_erase_add_one hmem
      rw [hset, Finset.sdiff_insert]
      simp only [List.length_append, List.length_singleton]
      omega

/-- With fuel for all there is to visit, the search ends with an empty queue. -/
theorem Inv.loop (pool : Finset N) (hadj : ∀ z, ∀ y ∈ adj z, y ∈ pool) {fuel : ℕ}
    (h : Inv adj start out queue) (hfuel : work pool ((out ++ queue).map (·.1)) queue ≤ fuel) :
    Inv adj start (out ++ Bfs.loop (extend adj) fuel ((out ++ queue).map (·.1)) queue) [] := by
  induction fuel generalizing out queue with
  | zero =>
    have hnil : queue = [] := by
      unfold work at hfuel
      exact List.length_eq_zero_iff.mp (by omega)
    rw [hnil] at h ⊢
    simpa [Bfs.loop] using h
  | succ fuel ih =>
    match queue, h, hfuel with
    | [], h, _ => simpa [Bfs.loop] using h
    | (x, p) :: queue, h, hfuel =>
      obtain ⟨hvisited, hinv⟩ := h.step
      have hwork := work_foldl_enqueue pool (extend adj x p)
        ((out ++ (x, p) :: queue).map (·.1), queue) fun e he => by
          obtain ⟨⟨y, i⟩, hy, rfl⟩ := List.mem_map.mp he
          exact hadj x y (List.fst_mem_of_mem_zipIdx hy)
      simp only [Bfs.loop]
      have hrest := ih hinv (by
        rw [← hvisited]
        refine hwork.trans ?_
        unfold work at hfuel ⊢
        rw [List.length_cons] at hfuel
        dsimp only
        omega)
      rw [← hvisited] at hrest
      simpa using hrest

/-! ### The whole search -/

/-- The nodes reachable from `start`, in the order they are visited, each with
the path it is visited by. -/
def visits (adj : N → List N) (start : N) (fuel : ℕ) : List (N × List ℕ) :=
  loop (extend adj) fuel [start] [(start, [])]

theorem visits_inv {fuel : ℕ} (pool : Finset N) (hadj : ∀ z, ∀ y ∈ adj z, y ∈ pool)
    (hfuel : pool.card < fuel) : Inv adj start (visits adj start fuel) [] := by
  have hinit : Inv adj start [] [(start, [])] := by
    refine ⟨?_, List.pairwise_singleton _ _, ?_, ?_⟩
    · intro e he
      obtain rfl := List.mem_singleton.mp he
      rfl
    · intro e he
      obtain rfl := List.mem_singleton.mp he
      exact .inl rfl
    · intro o ho
      exact absurd ho List.not_mem_nil
  have hwork : work pool [start] [(start, ([] : List ℕ))] ≤ fuel := by
    have := Finset.card_le_card (Finset.sdiff_subset : pool \ [start].toFinset ⊆ pool)
    unfold work
    rw [List.length_singleton]
    omega
  exact hinit.loop pool hadj hwork

/-- The path is the first, in the order of `rank`, that leads from `start` to a
node of `S`. -/
structure IsFirst (adj : N → List N) (start : N) (S : N → Prop) (p : List ℕ) (y : N) : Prop where
  follow : follow adj start p = some y
  mem : S y
  first : ∀ q z, Bfs.follow adj start q = some z → S z → rank p ≤ rank q

omit [DecidableEq N] in
/-- Every reachable node is visited, by a path that no other precedes. -/
theorem Inv.complete (h : Inv adj start out []) (hstart : (start, []) ∈ out) {q : List ℕ} {y : N}
    (hq : Bfs.follow adj start q = some y) : ∃ p, (y, p) ∈ out ∧ rank p ≤ rank q := by
  induction q using List.reverseRecOn generalizing y with
  | nil =>
    obtain rfl := Option.some.inj hq
    exact ⟨[], hstart, le_rfl⟩
  | append_singleton q i ih =>
    rw [follow_snoc] at hq
    obtain ⟨x, hx, hy⟩ := Option.bind_eq_some_iff.mp hq
    obtain ⟨p, hp, hle⟩ := ih hx
    obtain ⟨r, hr, hri⟩ := h.closed (x, p) hp i y hy
    rw [List.append_nil] at hr
    exact ⟨r, hr, hri.trans (rank_snoc_le_of_le hle i)⟩

/-- Of the nodes of a set, the one that is visited first is visited by the
first path to the set. -/
theorem visits_first {fuel : ℕ} (pool : Finset N) (hadj : ∀ z, ∀ y ∈ adj z, y ∈ pool)
    (hfuel : pool.card < fuel) (S : N → Prop) [DecidablePred S] (y : N) (p : List ℕ) :
    (visits adj start fuel).find? (fun e => S e.1) = some (y, p) ↔ IsFirst adj start S p y := by
  have hinv : Inv adj start (visits adj start fuel) [] := visits_inv pool hadj hfuel
  have hstart : (start, []) ∈ visits adj start fuel := by
    obtain ⟨n, rfl⟩ := Nat.exists_eq_succ_of_ne_zero (by omega : fuel ≠ 0)
    exact List.mem_cons_self
  have hsorted := hinv.sorted
  have hfollow := hinv.follow
  rw [List.append_nil] at hsorted hfollow
  constructor
  · intro hfind
    obtain ⟨hS, as, bs, hsplit, has⟩ := List.find?_eq_some_iff_append.mp hfind
    have hmem : (y, p) ∈ visits adj start fuel := List.mem_of_find?_eq_some hfind
    refine ⟨hfollow _ hmem, by simpa using hS, fun q z hz hSz => ?_⟩
    obtain ⟨r, hr, hle⟩ := hinv.complete hstart hz
    refine le_trans ?_ hle
    rw [hsplit] at hr hsorted
    rcases List.mem_append.mp hr with hr | hr
    · have := has _ hr
      simp [hSz] at this
    · rcases List.mem_cons.mp hr with hr | hr
      · rw [(Prod.mk.inj hr).2]
      · exact ((List.pairwise_cons.mp (List.pairwise_append.mp hsorted).2.1).1 _ hr).le
  · intro h
    obtain ⟨r, hr, hle⟩ := hinv.complete hstart h.follow
    have hrp : r = p := by
      have := le_antisymm hle (h.first r y (hfollow _ hr) h.mem)
      exact (Prod.mk.inj (toLex_inj.mp this)).2
    rw [hrp] at hr
    obtain ⟨as, bs, hsplit⟩ := List.append_of_mem hr
    refine List.find?_eq_some_iff_append.mpr ⟨by simpa using h.mem, as, bs, hsplit, fun e he => ?_⟩
    have hlt : rank e.2 < rank p := by
      rw [hsplit] at hsorted
      exact (List.pairwise_append.mp hsorted).2.2 e he (y, p) List.mem_cons_self
    have hnot : ¬ S e.1 := fun hSe => by
      have := h.first e.2 e.1 (hfollow e (by rw [hsplit]; exact List.mem_append_left _ he)) hSe
      exact absurd hlt (not_lt.mpr this)
    simpa using hnot

/-- A set some path leads to has a first path. -/
theorem exists_isFirst (pool : Finset N) (hadj : ∀ z, ∀ y ∈ adj z, y ∈ pool)
    {S : N → Prop} [DecidablePred S] {q : List ℕ} {y : N}
    (hq : Bfs.follow adj start q = some y) (hy : S y) : ∃ p z, IsFirst adj start S p z := by
  have hfuel := Nat.lt_succ_self pool.card
  have hinv : Inv adj start (visits adj start (pool.card + 1)) [] := visits_inv pool hadj hfuel
  obtain ⟨p, hp, -⟩ := hinv.complete List.mem_cons_self hq
  have hfind : ((visits adj start (pool.card + 1)).find? fun e => S e.1).isSome :=
    List.find?_isSome.mpr ⟨(y, p), hp, decide_eq_true hy⟩
  obtain ⟨⟨z, r⟩, hr⟩ := Option.isSome_iff_exists.mp hfind
  exact ⟨r, z, (visits_first pool hadj hfuel S z r).mp hr⟩

end NlinkLab.Bfs
