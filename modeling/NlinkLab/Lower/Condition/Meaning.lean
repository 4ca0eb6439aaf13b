import NlinkLab.Lower.Condition
import NlinkLab.Lower.Arithmetic

/-! What a condition means, and where `eval_condition` gives that. A condition is written of
comparisons, `&&` over `||` and groups in parentheses. The code finds the operators between
its parts, but a group it takes for a comparison with the parenthesis as part of an operand,
and a comparison it cuts where its operator, or one looked for earlier, stands first, also
inside a quoted literal. -/

namespace NlinkLab.Lower

open Braces

inductive Operand where
  | literal (s : Text)
  | integer (t : Text)
  | name (x : Text)

/-- Comparisons and their combinations. Chains of `&&` and `||` nest to the right. -/
inductive Cond where
  | comparison (k : Comparison) (left right : Operand)
  | and (left right : Cond)
  | or (left right : Cond)
  | group (c : Cond)

namespace Operand

def text : Operand → Text
  | literal s => '"' :: (s ++ ['"'])
  | integer t => t
  | name x => x

def value (vars : Vars) : Operand → Text
  | literal s => s
  | integer t => t
  | name x => (vars.get x).getD []

/-- A literal has no quote inside, an integer is digits after at most a sign, and a name is
bound. -/
def Valid (vars : Vars) : Operand → Prop
  | literal s => '"' ∉ s
  | integer t => ∃ digits, digits ≠ [] ∧ (∀ c ∈ digits, c.isDigit = true) ∧ (t = digits ∨ t = '-' :: digits)
  | name x => IsName x ∧ (vars.get x).isSome = true

end Operand

namespace Cond

def holds (vars : Vars) : Cond → Bool
  | comparison k left right => k.holds (left.value vars) (right.value vars)
  | and left right => left.holds vars && right.holds vars
  | or left right => left.holds vars || right.holds vars
  | group c => c.holds vars

/-- The condition without blanks. -/
def text : Cond → Text
  | comparison k left right => left.text ++ (k.text ++ right.text)
  | and left right => left.text ++ (andText ++ right.text)
  | or left right => left.text ++ (orText ++ right.text)
  | group c => '(' :: (c.text ++ [')'])

end Cond

/-- No operator that is looked for earlier stands in the operands, nor this one in the left. -/
def Clear (k : Comparison) (left right : Operand) : Prop :=
  (∀ k' ∈ Comparison.all.takeWhile (· ≠ k), ¬k'.text <:+: left.text ∧ ¬k'.text <:+: right.text) ∧
    ¬k.text <:+: left.text

instance decidableClear (k : Comparison) (left right : Operand) : Decidable (Clear k left right) :=
  inferInstanceAs (Decidable (_ ∧ _))

/-- How many more parentheses a text opens than it closes. -/
def opened (t : Text) : Int := t.count '(' - t.count ')'

namespace Cond
variable (vars : Vars)

/-- The literals before each operator that evaluation comes to open as many parentheses as
they close. -/
def Even : Cond → Prop
  | comparison _ _ _ => True
  | and left right => opened left.text = 0 ∧ left.Even ∧ (left.holds vars = true → right.Even)
  | or left right => opened left.text = 0 ∧ left.Even ∧ (left.holds vars = false → right.Even)
  | group _ => True

/-- One of these is evaluated: a group, a comparison that is not clear, or a part in which
the code takes a `||` or `&&` of a literal. -/
def Astray : Cond → Prop
  | comparison k left right =>
    (findOperator orText 0 (comparison k left right).text).isSome = true ∨
      (findOperator andText 0 (comparison k left right).text).isSome = true ∨ ¬Clear k left right
  | and left right =>
    (findOperator orText 0 (and left right).text).isSome = true ∨ (findOperator andText 0 left.text).isSome = true ∨
      left.Astray ∨ left.holds vars = true ∧ right.Astray
  | or left right =>
    (findOperator orText 0 left.text).isSome = true ∨ left.Astray ∨ left.holds vars = false ∧ right.Astray
  | group _ => True

instance decidableEven : DecidablePred (Even vars)
  | comparison _ _ _ => inferInstanceAs (Decidable True)
  | and left right =>
    have := decidableEven left
    have := decidableEven right
    inferInstanceAs (Decidable (_ ∧ _))
  | or left right =>
    have := decidableEven left
    have := decidableEven right
    inferInstanceAs (Decidable (_ ∧ _))
  | group _ => inferInstanceAs (Decidable True)

instance decidableAstray : DecidablePred (Astray vars)
  | comparison _ _ _ => inferInstanceAs (Decidable (_ ∨ _))
  | and left right =>
    have := decidableAstray left
    have := decidableAstray right
    inferInstanceAs (Decidable (_ ∨ _))
  | or left right =>
    have := decidableAstray left
    have := decidableAstray right
    inferInstanceAs (Decidable (_ ∨ _))
  | group _ => inferInstanceAs (Decidable True)

end Cond

def Blank (t : Text) : Prop := ∀ c ∈ t, isWhitespace c = true

/-- How much of a condition a part of its text can be. -/
inductive CondLevel where
  | any
  | all
  | one

/-- The texts of a condition, with blanks between its words. -/
inductive Writes (vars : Vars) : CondLevel → Text → Cond → Prop
  | comparison {k : Comparison} {l r : Operand} {ws ws' : Text} : l.Valid vars → r.Valid vars → Blank ws → Blank ws' →
      Writes vars .one (l.text ++ (ws ++ (k.text ++ (ws' ++ r.text)))) (.comparison k l r)
  | group {t ws ws' : Text} {c : Cond} : Writes vars .any t c → Blank ws → Blank ws' →
      Writes vars .one ('(' :: (ws ++ (t ++ (ws' ++ [')'])))) (.group c)
  | one {t : Text} {c : Cond} : Writes vars .one t c → Writes vars .all t c
  | and {l r ws ws' : Text} {a b : Cond} : Writes vars .one l a → Writes vars .all r b → Blank ws → Blank ws' →
      Writes vars .all (l ++ (ws ++ (andText ++ (ws' ++ r)))) (.and a b)
  | all {t : Text} {c : Cond} : Writes vars .all t c → Writes vars .any t c
  | or {l r ws ws' : Text} {a b : Cond} : Writes vars .all l a → Writes vars .any r b → Blank ws → Blank ws' →
      Writes vars .any (l ++ (ws ++ (orText ++ (ws' ++ r)))) (.or a b)

/-- One character of a text that is scanned for its quotes and parentheses. -/
def scanStep : Bool × Int → Char → Bool × Int
  | (quoted, depth), c =>
    if c = '"' then (!quoted, depth)
    else if quoted then (quoted, depth)
    else if c = '(' then (quoted, depth + 1)
    else if c = ')' then (quoted, depth - 1)
    else (quoted, depth)

/-- After the text one is outside quotes and groups. -/
def Outside (t : Text) : Prop := t.foldl scanStep (false, 0) = (false, 0)

/-- No occurrence of `pat` can begin in `t` and end in `rest`. -/
def Apart (pat t rest : Text) : Prop := ∀ a ∈ t.getLast?, ∀ b ∈ rest.head?, a ∈ pat → b ∉ pat

theorem Apart.tail {pat t rest : Text} {c : Char} (h : Apart pat (c :: t) rest) : Apart pat t rest := by
  intro a ha
  refine h a ?_
  cases t with
  | nil => cases ha
  | cons d t => rwa [List.getLast?_cons_cons]

theorem not_prefix_append {pat t rest : Text} {c : Char} (hapart : Apart pat (c :: t) rest)
    (h : ¬pat <+: c :: t) : ¬pat <+: c :: (t ++ rest) := by
  rintro ⟨s, hs⟩
  rcases List.append_eq_append_iff.mp (hs.trans (@List.cons_append _ _ t _).symm) with ⟨p, hp, -⟩ | ⟨p, rfl, hp⟩
  · exact h ⟨p, hp.symm⟩
  · cases p with
    | nil => exact h (by rw [List.append_nil])
    | cons b p =>
      have hlast : (c :: t).getLast (List.cons_ne_nil c t) ∈ (c :: t).getLast? :=
        List.getLast?_eq_some_getLast (List.cons_ne_nil c t)
      refine hapart _ hlast b (by rw [hp]; rfl) ?_ ?_
      · exact List.mem_append_left _ (List.getLast_mem _)
      · exact List.mem_append_right _ List.mem_cons_self

@[simp] theorem opened_append (s t : Text) : opened (s ++ t) = opened s + opened t := by
  unfold opened
  rw [List.count_append, List.count_append]
  omega

theorem opened_cons (c : Char) (t : Text) :
    opened (c :: t) = (if c = '(' then 1 else if c = ')' then -1 else 0) + opened t := by
  have hcount : ∀ x : Char, ((c :: t).count x : Int) = t.count x + if c = x then 1 else 0 := fun x => by
    rw [List.count_cons, Nat.cast_add]
    by_cases hx : c = x <;> simp [hx]
  unfold opened
  rw [hcount, hcount]
  by_cases hopen : c = '('
  · subst hopen
    simp
    omega
  · by_cases hclose : c = ')'
    · subst hclose
      simp
      omega
    · simp [hopen, hclose]

/-- Where the operator is not found in a text it is looked for after it, as deep as the text
leads. -/
theorem findOperator_append {op t rest : Text} {d : Int} (hapart : Apart op t rest) (h : findOperator op d t = none) :
    findOperator op d (t ++ rest) =
      (findOperator op (d + opened t) rest).map fun (before, after) => (t ++ before, after) := by
  induction t generalizing d with
  | nil =>
    have hzero : d + opened [] = d := Int.add_zero d
    rw [hzero]
    cases h' : findOperator op d rest <;> simp [h']
  | cons c t ih =>
    have hmap : ∀ {d' : Int}, findOperator op d' t = none → d' = d + (if c = '(' then 1 else if c = ')' then -1 else 0) →
        (findOperator op d' (t ++ rest)).map (fun (before, after) => (c :: before, after)) =
          (findOperator op (d + opened (c :: t)) rest).map fun (before, after) => (c :: t ++ before, after) := by
      intro d' hnone hd
      rw [ih hapart.tail hnone, Option.map_map, opened_cons, ← Int.add_assoc, ← hd]
      rfl
    unfold findOperator at h
    rw [List.cons_append, findOperator]
    split_ifs at h with hopen hclose hfound
    · rw [if_pos hopen]
      exact hmap (Option.map_eq_none_iff.mp h) (by rw [if_pos hopen])
    · rw [if_neg hopen, if_pos hclose]
      exact hmap (Option.map_eq_none_iff.mp h) (by rw [if_neg hopen, if_pos hclose, Int.sub_eq_add_neg])
    · have hskip : ¬(d = 0 ∧ op <+: c :: (t ++ rest)) := by
        rintro ⟨hzero, hlong⟩
        exact not_prefix_append hapart (fun hpre => hfound ⟨hzero, hpre⟩) hlong
      rw [if_neg hopen, if_neg hclose, if_neg hskip]
      exact hmap (Option.map_eq_none_iff.mp h) (by rw [if_neg hopen, if_neg hclose, Int.add_zero])

/-- What is found in a text is found with more after it. -/
theorem findOperator_append_of_some {op t rest before after : Text} {d : Int}
    (h : findOperator op d t = some (before, after)) : findOperator op d (t ++ rest) = some (before, after ++ rest) := by
  induction t generalizing d before with
  | nil => cases h
  | cons c t ih =>
    have hmap : ∀ {d' : Int}, (findOperator op d' t).map (fun (before, after) => (c :: before, after)) = some (before, after) →
        (findOperator op d' (t ++ rest)).map (fun (before, after) => (c :: before, after)) = some (before, after ++ rest) := by
      intro d' h
      obtain ⟨⟨before', after'⟩, hfound, heq⟩ := Option.map_eq_some_iff.mp h
      obtain ⟨rfl, rfl⟩ := Prod.mk.inj heq
      rw [ih hfound]
      rfl
    unfold findOperator at h
    rw [List.cons_append, findOperator]
    split_ifs at h with hopen hclose hfound
    · rw [if_pos hopen]
      exact hmap h
    · rw [if_neg hopen, if_pos hclose]
      exact hmap h
    · obtain ⟨rfl, rfl⟩ := Prod.mk.inj (Option.some.inj h)
      have hlong : op <+: c :: (t ++ rest) := hfound.2.trans (List.prefix_append (c :: t) rest)
      rw [if_neg hopen, if_neg hclose, if_pos ⟨hfound.1, hlong⟩, ← List.cons_append,
        List.drop_append_of_le_length hfound.2.length_le]
    · have hlong : ¬(d = 0 ∧ op <+: c :: (t ++ rest)) := by
        rintro ⟨hzero, hlong⟩
        obtain ⟨⟨before', after'⟩, hlater, -⟩ := Option.map_eq_some_iff.mp h
        refine hfound ⟨hzero, List.prefix_of_prefix_length_le hlong (List.prefix_append (c :: t) rest) ?_⟩
        have hlen := congrArg List.length (findOperator_eq hlater)
        rw [List.length_append, List.length_append] at hlen
        rw [List.length_cons]
        omega
      rw [if_neg hopen, if_neg hclose, if_neg hlong]
      exact hmap h

theorem findOperator_append_eq_none {op t rest : Text} {d : Int} (hapart : Apart op t rest) :
    findOperator op d (t ++ rest) = none ↔ findOperator op d t = none ∧ findOperator op (d + opened t) rest = none := by
  cases hfound : findOperator op d t with
  | none => rw [findOperator_append hapart hfound, Option.map_eq_none_iff, eq_self, true_and]
  | some parts =>
    have hlonger := @findOperator_append_of_some _ _ rest _ _ _ hfound
    rw [hlonger]
    simp

/-! ### Words and blanks -/

/-- The characters of operators. -/
abbrev opChars : Text := ['|', '&', '!', '=', '<', '>']

theorem CondOp.mem_opChars {op : CondOp} {c : Char} (h : c ∈ op.text) : c ∈ opChars := by
  have hall : op.text.all (· ∈ opChars) = true := by
    cases op with
    | or | and => rfl
    | comparison k => cases k <;> rfl
  exact of_decide_eq_true (List.all_eq_true.mp hall c h)

/-- A word of a condition can begin and end with it. -/
def Edge (c : Char) : Prop := isWhitespace c = false ∧ c ∉ opChars

structure Firm (t : Text) : Prop where
  head : ∃ c r, t = c :: r ∧ Edge c
  last : ∃ r c, t = r ++ [c] ∧ Edge c

theorem IsName.ne_nil {x : Text} (h : IsName x) : x ≠ [] := by
  rintro rfl
  obtain ⟨c, hc, -⟩ := h.start
  cases hc

theorem Firm.append {s t u : Text} (hs : Firm s) (hu : Firm u) : Firm (s ++ (t ++ u)) := by
  obtain ⟨c, r, rfl, hc⟩ := hs.head
  obtain ⟨r', d, rfl, hd⟩ := hu.last
  refine ⟨⟨c, _, rfl, hc⟩, c :: r ++ (t ++ r'), d, ?_, hd⟩
  rw [List.append_assoc, List.append_assoc]

theorem foldl_scan_plain {t : Text} {s : Bool × Int} (h : ∀ c ∈ t, c ≠ '"' ∧ c ≠ '(' ∧ c ≠ ')') :
    t.foldl scanStep s = s := by
  induction t generalizing s with
  | nil => rfl
  | cons c t ih =>
    obtain ⟨hquote, hopen, hclose⟩ := h c List.mem_cons_self
    have hstep : scanStep s c = s := by
      unfold scanStep
      dsimp only
      rw [if_neg hquote, if_neg hopen, if_neg hclose, ite_self]
    rw [List.foldl_cons, hstep, ih fun d hd => h d (List.mem_cons_of_mem _ hd)]

/-- The text is left where it is entered, and in it one is inside quotes or no further out. -/
def Safe (t : Text) : Prop :=
  ∀ d : Int, t.foldl scanStep (false, d) = (false, d) ∧
    ∀ p s, t = p ++ s → (p.foldl scanStep (false, d)).1 = true ∨ d ≤ (p.foldl scanStep (false, d)).2

theorem Safe.append {s t : Text} (hs : Safe s) (ht : Safe t) : Safe (s ++ t) := by
  intro d
  refine ⟨by rw [List.foldl_append, (hs d).1, (ht d).1], fun p u heq => ?_⟩
  rcases List.append_eq_append_iff.mp heq with ⟨p', rfl, hp⟩ | ⟨u', hu, -⟩
  · rw [List.foldl_append, (hs d).1]
    exact (ht d).2 p' u hp
  · exact (hs d).2 p u' hu

theorem safe_plain {t : Text} (h : ∀ c ∈ t, c ≠ '"' ∧ c ≠ '(' ∧ c ≠ ')') : Safe t := by
  intro d
  refine ⟨foldl_scan_plain h, fun p s heq => ?_⟩
  rw [foldl_scan_plain fun c hc => h c (heq ▸ List.mem_append_left _ hc)]
  exact .inr le_rfl

theorem safe_blank {ws : Text} (h : Blank ws) : Safe ws := by
  refine safe_plain fun c hc => ?_
  refine ⟨?_, ?_, ?_⟩ <;> (rintro rfl; exact absurd (h _ hc) (by decide))

theorem apart_of_last {pat t rest : Text} (h : ∀ a ∈ t.getLast?, a ∉ pat) : Apart pat t rest :=
  fun a ha _ _ hpat => absurd hpat (h a ha)

theorem Firm.apart (op : CondOp) {t rest : Text} (h : Firm t) : Apart op.text t rest := by
  obtain ⟨r, c, rfl, hc⟩ := h.last
  refine apart_of_last fun a ha hop => ?_
  rw [List.getLast?_concat] at ha
  obtain rfl := Option.some.inj ha
  exact hc.2 (CondOp.mem_opChars hop)

theorem not_opChars_of_blank {c : Char} (h : isWhitespace c = true) : c ∉ opChars := by
  intro hmem
  have hall : opChars.all (fun c => !isWhitespace c) = true := rfl
  have hc := List.all_eq_true.mp hall c hmem
  rw [h] at hc
  cases hc

theorem Blank.apart (op : CondOp) {ws rest : Text} (h : Blank ws) : Apart op.text ws rest :=
  apart_of_last fun _ ha hop => not_opChars_of_blank (h _ (List.mem_of_getLast? ha)) (CondOp.mem_opChars hop)

/-- The operators between parts. -/
def CondOp.Joins (op : CondOp) : Prop := op = .or ∨ op = .and

section Joins

variable {op : CondOp} {vars : Vars}

/-- Neither operator between parts begins in the text, nor is there a parenthesis. -/
def Plain (t : Text) : Prop := ∀ c ∈ t, c ≠ '(' ∧ c ≠ ')' ∧ c ≠ '|' ∧ c ≠ '&'

theorem plain_blank {ws : Text} (h : Blank ws) : Plain ws := by
  intro c hc
  refine ⟨?_, ?_, ?_, ?_⟩
  all_goals
    rintro rfl
    exact absurd (h _ hc) (by decide)

theorem Plain.opened {t : Text} (h : Plain t) : opened t = 0 := by
  unfold Lower.opened
  rw [List.count_eq_zero_of_not_mem fun hmem => (h _ hmem).1 rfl,
    List.count_eq_zero_of_not_mem fun hmem => (h _ hmem).2.1 rfl]
  rfl

theorem Plain.not_prefix (hop : op.Joins) {c : Char} {t : Text} (h : Plain (c :: t)) (s : Text) : ¬op.text <+: c :: s := by
  obtain ⟨-, -, hbar, hamp⟩ := h c List.mem_cons_self
  rintro ⟨r, hr⟩
  rcases hop with rfl | rfl
  · exact hbar (List.cons.inj hr).1.symm
  · exact hamp (List.cons.inj hr).1.symm

theorem Plain.findOperator (hop : op.Joins) {t : Text} (h : Plain t) (d : Int) : findOperator op.text d t = none := by
  induction t with
  | nil => rfl
  | cons c t ih =>
    obtain ⟨hopen, hclose, -, -⟩ := h c List.mem_cons_self
    rw [Lower.findOperator, if_neg hopen, if_neg hclose, if_neg fun hfound => h.not_prefix hop t hfound.2,
      ih fun c hc => h c (List.mem_cons_of_mem _ hc)]
    rfl

/-- What stands after an operator does not go on in it. -/
theorem head_firm {ws t : Text} (hws : Blank ws) (ht : Firm t) : ∀ b ∈ (ws ++ t).head?, b ∉ opChars := by
  intro b hb
  cases ws with
  | nil =>
    obtain ⟨c, r, rfl, hc⟩ := ht.head
    obtain rfl := Option.some.inj hb
    exact hc.2
  | cons c ws =>
    obtain rfl := Option.some.inj hb
    exact not_opChars_of_blank (hws _ List.mem_cons_self)

theorem apart_of_head {t rest : Text} (h : ∀ b ∈ rest.head?, b ∉ opChars) : Apart op.text t rest :=
  fun _ _ b hb _ hmem => h b hb (CondOp.mem_opChars hmem)

/-! ### The search does not see blanks -/

/-- The code looks for the operators between parts in both texts alike. -/
structure Alike (t u : Text) : Prop where
  opened : opened t = opened u
  absent : ∀ {op : CondOp}, op.Joins → ∀ d, findOperator op.text d t = none ↔ findOperator op.text d u = none

theorem Alike.refl (t : Text) : Alike t t := ⟨rfl, fun _ _ => Iff.rfl⟩

theorem Alike.append {s t s' t' : Text} (hs : Alike s s') (ht : Alike t t')
    (hapart : ∀ {op : CondOp}, op.Joins → Apart op.text s t) (hapart' : ∀ {op : CondOp}, op.Joins → Apart op.text s' t') :
    Alike (s ++ t) (s' ++ t') := by
  refine ⟨by rw [opened_append, opened_append, hs.opened, ht.opened], fun hop d => ?_⟩
  rw [findOperator_append_eq_none (hapart hop), findOperator_append_eq_none (hapart' hop), hs.absent hop, hs.opened,
    ht.absent hop]

theorem Alike.blank {ws t u : Text} (hws : Blank ws) (h : Alike t u) : Alike (ws ++ t) u := by
  refine ⟨by rw [opened_append, (plain_blank hws).opened, Int.zero_add, h.opened], fun {op} hop d => ?_⟩
  rw [findOperator_append_eq_none (hws.apart op), (plain_blank hws).opened, Int.add_zero, h.absent hop]
  exact ⟨And.right, fun hnone => ⟨(plain_blank hws).findOperator hop d, hnone⟩⟩

/-- Parts with an operator between them. -/
theorem Alike.join {l r l' r' ws ws' : Text} (op : CondOp) (hl : Alike l l') (hr : Alike r r') (hfirm : Firm l)
    (hfirm' : Firm l') (hright : Firm r) (hright' : Firm r') (hws : Blank ws) (hws' : Blank ws') :
    Alike (l ++ (ws ++ (op.text ++ (ws' ++ r)))) (l' ++ (op.text ++ r')) := by
  have hmid : Alike (op.text ++ (ws' ++ r)) (op.text ++ r') :=
    (Alike.refl op.text).append (.blank hws' hr) (fun _ => apart_of_head (head_firm hws' hright))
      fun _ => apart_of_head (@head_firm [] _ nofun hright')
  exact hl.append (.blank hws hmid) (fun _ => hfirm.apart _) fun _ => hfirm'.apart _

/-- A condition can be written without blanks. -/
theorem Writes.text {level : CondLevel} {t : Text} {c : Cond} (h : Writes vars level t c) : Writes vars level c.text c := by
  induction h with
  | comparison hl hr _ _ => exact @Writes.comparison _ _ _ _ [] [] hl hr nofun nofun
  | group _ _ _ ih => exact @Writes.group _ _ [] [] _ ih nofun nofun
  | one _ ih => exact .one ih
  | and _ _ _ _ ihl ihr => exact @Writes.and _ _ _ [] [] _ _ ihl ihr nofun nofun
  | all _ ih => exact .all ih
  | or _ _ _ _ ihl ihr => exact @Writes.or _ _ _ [] [] _ _ ihl ihr nofun nofun

/-- The operator stands outside quotes and groups in a text that is entered with `s`. -/
def Stands (op : Text) (s : Bool × Int) (t : Text) : Prop := ∃ x y, t = x ++ (op ++ y) ∧ x.foldl scanStep s = (false, 0)

end Joins

/-! ### Where a comparison is cut -/

theorem Comparison.mem_opChars {k : Comparison} {c : Char} (h : c ∈ k.text) : c ∈ opChars :=
  @CondOp.mem_opChars (.comparison k) _ h

theorem Comparison.text_ne_nil (k : Comparison) : k.text ≠ [] := CondOp.text_ne_nil (.comparison k)

section Cut

variable {vars : Vars} {k k' : Comparison} {l r : Operand} {ws ws' : Text}

variable (hl : l.Valid vars) (hr : r.Valid vars) (hws : Blank ws) (hws' : Blank ws')

end Cut

/-! ### The value of a condition -/

section Value

variable {vars : Vars} {expr l r : Text}

theorem outside_append {s ws : Text} (hs : Safe s) (hws : Blank ws) : Outside (s ++ ws) := by
  rw [Outside, List.foldl_append, (hs 0).1, (safe_blank hws 0).1]

end Value

end NlinkLab.Lower
