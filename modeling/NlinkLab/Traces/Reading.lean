import NlinkLab.Data.Polyline
import NlinkLab.Traces

/-! What a trace's text says, row by row, and that parsing reads just that: a trace is
read when all rows are accepted, and parsing panics when the rows before one are and the
time of that one does not fit. -/

namespace NlinkLab.Traces

open Fallible

variable {K : Type} [Arith K]

/-! ### What a text says -/

/-- A row's time as its cell has it. -/
def timeOf (row : ℕ × String) : Option K := (readTime row.1 ((fields row.2).headD "")).toOption

/-- A row's values by their columns, in the columns' units. -/
def valuesOf (columns : List (Column × K)) (row : ℕ × String) : Option (List (Column × K)) :=
  ((columns.zip (fields row.2).tail).filter (·.2 ≠ "")).mapM fun (c, cell) =>
    (readValue row.1 c.1 cell).toOption.map fun v => (c.1, v * c.2)

/-- A row with no more cells than the header, a time that fits and values. -/
structure RowOf (unit : Duration) (columns : List (Column × K)) (row : ℕ × String) (r : Duration × List (Column × K)) :
    Prop where
  cells : (fields row.2).length ≤ columns.length + 1
  time : ∃ q : K, timeOf row = some q ∧ Arith.fromSecs (q * Arith.asSecs unit) = some r.1
  values : valuesOf columns row = some r.2

/-- Rows of which each is well formed and none goes back. -/
def Accepted (unit : Duration) (columns : List (Column × K)) (rows : List (ℕ × String))
    (out : List (Duration × List (Column × K))) : Prop :=
  List.Forall₂ (RowOf unit columns) rows out ∧ (out.map (·.1)).IsChain (· ≤ ·)

def rowPoints (c : Column) (r : Duration × List (Column × K)) : Series K :=
  (r.2.filter (·.1 = c)).map fun v => (r.1, v.2)

/-- The points that rows give a column. -/
def points (out : List (Duration × List (Column × K))) (c : Column) : Series K := out.flatMap (rowPoints c)

/-- A text's header and the rows after it. -/
def Sheet (text : String) (unit : Duration) (columns : List (Column × K)) (rows : List (ℕ × String)) : Prop :=
  text.utf8ByteSize ≤ MAX_BYTES ∧
    ∃ line header, content text = (line, header) :: rows ∧ readHeader line header = .ok (unit, columns)

/-! ### What is read -/

theorem toOption_eq_some {E A : Type} {x : Except E A} {a : A} : x.toOption = some a ↔ x = .ok a := by
  cases x with
  | error e => exact ⟨nofun, nofun⟩
  | ok b => exact ⟨fun h => congrArg _ (Option.some.inj h), fun h => congrArg _ (Except.ok.inj h)⟩

theorem foldlM_readCell {line : ℕ} {t : Duration} {cells : List ((Column × K) × String)} {series series' : Column → Series K} :
    cells.foldlM (readCell line t) series = .ok series' ↔
      ∃ vs, (cells.filter (·.2 ≠ "")).mapM (fun (c, cell) =>
        (readValue line c.1 cell).toOption.map fun v => (c.1, v * c.2)) = some vs ∧
        series' = fun c => series c ++ rowPoints c (t, vs) := by
  induction cells generalizing series with
  | nil =>
    rw [List.foldlM_nil, pure_eq_ok]
    constructor
    · rintro rfl
      exact ⟨[], rfl, funext fun c => (List.append_nil _).symm⟩
    · rintro ⟨vs, hvs, rfl⟩
      obtain rfl := Option.some.inj hvs
      exact funext fun c => (List.append_nil _).symm
  | cons cell cells ih =>
    obtain ⟨⟨column, scale⟩, text⟩ := cell
    rw [List.foldlM_cons, bind_eq_ok]
    by_cases hempty : text = ""
    · rw [List.filter_cons_of_neg (by simpa using hempty)]
      simp only [readCell, hempty, if_true, Except.ok.injEq, exists_eq_left', ih]
    · rw [List.filter_cons_of_pos (by simpa using hempty), List.mapM_cons]
      simp only [readCell, hempty, if_false, bind_eq_ok, Except.ok.injEq, Option.bind_eq_bind, Option.bind_eq_some_iff,
        Option.map_eq_some_iff, toOption_eq_some, Option.pure_def, Option.some.injEq, ih]
      constructor
      · rintro ⟨_, ⟨v, hv, rfl⟩, vs, hvs, rfl⟩
        refine ⟨_, ⟨_, ⟨v, hv, rfl⟩, vs, hvs, rfl⟩, funext fun c => ?_⟩
        by_cases hc : c = column
        · subst hc
          simp [push, rowPoints]
        · simp [push, rowPoints, Function.update_of_ne hc, Ne.symm hc]
      · rintro ⟨_, ⟨_, ⟨v, hv, rfl⟩, vs, hvs, rfl⟩, rfl⟩
        refine ⟨_, ⟨v, hv, rfl⟩, vs, hvs, funext fun c => ?_⟩
        by_cases hc : c = column
        · subst hc
          simp [push, rowPoints]
        · simp [push, rowPoints, Function.update_of_ne hc, Ne.symm hc]

section Rows

variable {unit : Duration} {columns : List (Column × K)} {st st' : Reading K} {row : ℕ × String}
  {rows : List (ℕ × String)}

theorem readRow_eq_ok : readRow unit columns st row = .ok st' ↔
    ∃ r, RowOf unit columns row r ∧ (∀ l ∈ st.last, l ≤ r.1) ∧
      st' = ⟨fun c => st.series c ++ rowPoints c r, some r.1, st.rows + 1⟩ := by
  unfold readRow
  dsimp only
  by_cases hcells : columns.length + 1 < (fields row.2).length
  · rw [if_pos hcells]
    exact ⟨nofun, fun ⟨r, hr, _⟩ => absurd hcells (not_lt.mpr hr.cells)⟩
  rw [if_neg hcells, bind_eq_ok]
  constructor
  · rintro ⟨q, hq, h⟩
    have htime : timeOf row = some q := toOption_eq_some.mpr (mapError_eq_ok.mp hq)
    cases hmul : Arith.fromSecs (q * Arith.asSecs unit) with
    | none =>
      rw [hmul] at h
      cases h
    | some t =>
      simp only [hmul] at h
      by_cases hback : (st.last.any (t < ·)) = true
      · rw [if_pos hback] at h
        cases h
      rw [if_neg hback, bind_eq_ok] at h
      obtain ⟨series, hseries, hst⟩ := h
      obtain ⟨vs, hvs, rfl⟩ := foldlM_readCell.mp (mapError_eq_ok.mp hseries)
      refine ⟨(t, vs), ⟨not_lt.mp hcells, ⟨q, htime, hmul⟩, hvs⟩, fun l hl => ?_, (Except.ok.inj hst).symm⟩
      by_contra hlt
      rw [Option.mem_def.mp hl] at hback
      exact hback (decide_eq_true (not_le.mp hlt))
  · rintro ⟨⟨t, vs⟩, ⟨-, ⟨q, htime, hmul⟩, hvs⟩, hlast, rfl⟩
    refine ⟨q, mapError_eq_ok.mpr (toOption_eq_some.mp htime), ?_⟩
    have hback : ¬(st.last.any (t < ·)) = true := by
      cases hl : st.last with
      | none => exact Bool.false_ne_true
      | some l => exact fun h => absurd (of_decide_eq_true h) (not_lt.mpr (hlast l hl))
    simp only [hmul]
    rw [if_neg hback, bind_eq_ok]
    exact ⟨_, mapError_eq_ok.mpr (foldlM_readCell.mpr ⟨vs, hvs, rfl⟩), rfl⟩

omit [Arith K] in
theorem bind_eq_panic {A B : Type} {x : Except (TraceError K) A} {f : A → Except (Halt K) B} :
    (x.mapError Halt.err >>= f) = .error .panic ↔ ∃ a, x = .ok a ∧ f a = .error .panic := by
  cases x with
  | error e => exact ⟨nofun, nofun⟩
  | ok a => exact ⟨fun h => ⟨a, rfl, h⟩, fun ⟨_, h, hf⟩ => Except.ok.inj h ▸ hf⟩

/-- A row panics when its time does not fit. -/
theorem readRow_eq_panic : readRow unit columns st row = .error .panic ↔
    (fields row.2).length ≤ columns.length + 1 ∧ ∃ q : K, timeOf row = some q ∧ Arith.fromSecs (q * Arith.asSecs unit) = none := by
  unfold readRow
  dsimp only
  by_cases hcells : columns.length + 1 < (fields row.2).length
  · rw [if_pos hcells]
    exact ⟨nofun, fun h => absurd hcells (not_lt.mpr h.1)⟩
  rw [if_neg hcells, bind_eq_panic]
  simp only [timeOf, toOption_eq_some, not_lt.mp hcells, true_and]
  refine exists_congr fun q => and_congr_right fun _ => ?_
  cases hmul : Arith.fromSecs (q * Arith.asSecs unit) with
  | none => exact iff_of_true rfl rfl
  | some t =>
    refine iff_of_false ?_ nofun
    dsimp only
    split_ifs
    · nofun
    · intro h
      obtain ⟨series, -, hseries⟩ := bind_eq_panic.mp h
      cases hseries

theorem forall₂_concat {A B : Type} {R : A → B → Prop} {l : List A} {a : A} {m : List B}
    (h : List.Forall₂ R (l ++ [a]) m) : ∃ m' b, m = m' ++ [b] ∧ List.Forall₂ R l m' ∧ R a b := by
  rw [← List.forall₂_reverse_iff, List.reverse_append, List.reverse_singleton, List.singleton_append,
    List.forall₂_cons_left_iff] at h
  obtain ⟨b, m', hab, hlm, hm⟩ := h
  refine ⟨m'.reverse, b, ?_, ?_, hab⟩
  · rw [← List.reverse_reverse m, hm, List.reverse_cons]
  · rwa [← List.forall₂_reverse_iff, List.reverse_reverse]

omit [Arith K] in
theorem points_concat (out : List (Duration × List (Column × K))) (r : Duration × List (Column × K)) (c : Column) :
    points (out ++ [r]) c = points out c ++ rowPoints c r := by
  unfold points
  rw [List.flatMap_append, List.flatMap_singleton]

/-- Reading the rows of a table, from none. -/
theorem foldlM_readRow {st : Reading K} : rows.foldlM (readRow unit columns) ⟨fun _ => [], none, 0⟩ = .ok st ↔
    ∃ out, Accepted unit columns rows out ∧ st = ⟨points out, (out.map (·.1)).getLast?, rows.length⟩ := by
  induction rows using List.reverseRecOn generalizing st with
  | nil =>
    rw [List.foldlM_nil, pure_eq_ok]
    constructor
    · rintro rfl
      exact ⟨[], ⟨.nil, .nil⟩, rfl⟩
    · rintro ⟨out, ⟨hrows, -⟩, rfl⟩
      cases hrows
      rfl
  | append_singleton rows row ih =>
    rw [List.foldlM_append, bind_eq_ok]
    simp only [ih, List.foldlM_cons, List.foldlM_nil, bind_pure, readRow_eq_ok]
    constructor
    · rintro ⟨_, ⟨out, ⟨hrows, hchain⟩, rfl⟩, r, hr, hlast, rfl⟩
      refine ⟨out ++ [r], ⟨List.rel_append hrows (.cons hr .nil), ?_⟩, ?_⟩
      · rw [List.map_append, List.isChain_append]
        exact ⟨hchain, .singleton _, fun l hl t ht => by cases ht; exact hlast l hl⟩
      · rw [List.map_append, List.map_singleton, List.getLast?_concat, List.length_append, List.length_singleton]
        exact congrArg (Reading.mk · _ _) (funext fun c => (points_concat out r c).symm)
    · rintro ⟨out, ⟨hrows, hchain⟩, rfl⟩
      obtain ⟨out, r, rfl, hrows, hr⟩ := forall₂_concat hrows
      rw [List.map_append, List.isChain_append] at hchain
      obtain ⟨hchain, -, hlast⟩ := hchain
      refine ⟨_, ⟨out, ⟨hrows, hchain⟩, rfl⟩, r, hr, fun l hl => hlast l hl r.1 rfl, ?_⟩
      rw [List.map_append, List.map_singleton, List.getLast?_concat, List.length_append, List.length_singleton]
      exact congrArg (Reading.mk · _ _) (funext fun c => points_concat out r c)

end Rows

/-! ### What is parsed -/

variable {text : String}

theorem parse_of_sheet {unit : Duration} {columns : List (Column × K)} {rows : List (ℕ × String)}
    (h : Sheet text unit columns rows) : parse text = (rows.foldlM (readRow unit columns) ⟨fun _ => [], none, 0⟩ >>= fun st =>
      if st.rows = 0 then .error (.err .noRows) else .ok ⟨st.series, st.last.getD default⟩) := by
  obtain ⟨hsize, line, header, hcontent, hheader⟩ := h
  rw [parse, if_neg (not_lt.mpr hsize), hcontent]
  dsimp only
  rw [hheader]
  rfl

/-- Without an error there is a header. -/
theorem sheet_of_parse (h : ∀ e : TraceError K, parse text ≠ .error (.err e)) :
    ∃ unit, ∃ columns : List (Column × K), ∃ rows, Sheet text unit columns rows := by
  unfold parse at h
  split_ifs at h with hsize
  · exact absurd rfl (h _)
  cases hcontent : content text with
  | nil => exact absurd (by rw [hcontent]) (h .empty)
  | cons first rows =>
    obtain ⟨line, header⟩ := first
    cases hheader : readHeader (K := K) line header with
    | error e =>
      refine absurd ?_ (h e)
      rw [hcontent]
      dsimp only
      rw [hheader]
      rfl
    | ok r => exact ⟨r.1, r.2, rows, not_lt.mp hsize, line, header, hcontent, hheader⟩

/-- A text's trace: the points of its rows, all of them accepted. -/
theorem parse_eq_ok {trace : Trace K} : parse text = .ok trace ↔ ∃ unit columns rows out, Sheet text unit columns rows ∧
    rows ≠ [] ∧ Accepted unit columns rows out ∧ trace = ⟨points out, (out.map (·.1)).getLast?.getD default⟩ := by
  constructor
  · intro h
    obtain ⟨unit, columns, rows, hsheet⟩ := sheet_of_parse fun e he => nomatch h.symm.trans he
    rw [parse_of_sheet hsheet, bind_eq_ok] at h
    obtain ⟨st, hst, h⟩ := h
    obtain ⟨out, haccepted, rfl⟩ := foldlM_readRow.mp hst
    split_ifs at h with hzero
    exact ⟨unit, columns, rows, out, hsheet, fun hnil => hzero (by rw [hnil]; rfl), haccepted, (Except.ok.inj h).symm⟩
  · rintro ⟨unit, columns, rows, out, hsheet, hne, haccepted, rfl⟩
    rw [parse_of_sheet hsheet, bind_eq_ok]
    refine ⟨_, foldlM_readRow.mpr ⟨out, haccepted, rfl⟩, ?_⟩
    exact if_neg fun hzero => hne (List.length_eq_zero_iff.mp hzero)

/-- Parsing panics at the first row that is not accepted, by its time. -/
theorem parse_eq_panic : parse text = .error (.panic : Halt K) ↔
    ∃ unit, ∃ columns : List (Column × K), ∃ rows, Sheet text unit columns rows ∧
      ∃ pre row post out, rows = pre ++ row :: post ∧ Accepted unit columns pre out ∧
        (fields row.2).length ≤ columns.length + 1 ∧
          ∃ q : K, timeOf row = some q ∧ Arith.fromSecs (q * Arith.asSecs unit) = none := by
  have hpanic : ∀ {unit rows} {columns : List (Column × K)}, Sheet text unit columns rows → (parse text = .error (.panic : Halt K) ↔
      rows.foldlM (readRow unit columns) ⟨fun _ => [], none, 0⟩ = .error .panic) := by
    intro unit rows columns hsheet
    rw [parse_of_sheet hsheet]
    cases rows.foldlM (readRow unit columns) ⟨fun _ => [], none, 0⟩ with
    | error e => exact ⟨fun h => congrArg _ (Except.error.inj h), fun h => congrArg _ (Except.error.inj h)⟩
    | ok st =>
      refine iff_of_false ?_ nofun
      change (if st.rows = 0 then _ else _) ≠ _
      split_ifs <;> nofun
  constructor
  · intro h
    obtain ⟨unit, columns, rows, hsheet⟩ := sheet_of_parse fun e he => nomatch h.symm.trans he
    obtain ⟨pre, row, post, mid, hrows, hpre, hrow⟩ := foldlM_eq_error.mp ((hpanic hsheet).mp h)
    obtain ⟨out, haccepted, -⟩ := foldlM_readRow.mp hpre
    exact ⟨unit, columns, rows, hsheet, pre, row, post, out, hrows, haccepted, readRow_eq_panic.mp hrow⟩
  · rintro ⟨unit, columns, rows, hsheet, pre, row, post, out, hrows, haccepted, hrow⟩
    have hpre := foldlM_readRow.mpr ⟨out, haccepted, rfl⟩
    exact (hpanic hsheet).mpr (foldlM_eq_error.mpr ⟨pre, row, post, _, hrows, hpre, readRow_eq_panic.mpr hrow⟩)

end NlinkLab.Traces
