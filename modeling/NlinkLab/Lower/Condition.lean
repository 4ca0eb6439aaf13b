import NlinkLab.Lower.Substitute

/-! Conditions of `if` (`eval_condition` in `parser/nll/lower.rs`): the text is cut at the
first `||` outside parentheses, else at the first `&&`, and else at a comparison, which is
looked for in the whole text. -/

namespace NlinkLab.Lower

inductive Comparison where
  | ne
  | eq
  | le
  | ge
  | lt
  | gt
  deriving DecidableEq

namespace Comparison

def text : Comparison → Text
  | ne => ['!', '=']
  | eq => ['=', '=']
  | le => ['<', '=']
  | ge => ['>', '=']
  | lt => ['<']
  | gt => ['>']

/-- The order in which they are looked for. -/
def all : List Comparison := [ne, eq, le, ge, lt, gt]

/-- Texts are compared as they are, and by order as numbers; what is no number counts as
zero. -/
def holds (k : Comparison) (l r : Text) : Bool :=
  let number (t : Text) := (parseI64 t).getD 0
  match k with
  | ne => l ≠ r
  | eq => l = r
  | le => number l ≤ number r
  | ge => number r ≤ number l
  | lt => number l < number r
  | gt => number r < number l

end Comparison

/-- The text before the first `op` outside parentheses, and what after it. -/
def findOperator (op : Text) : (depth : Int) → Text → Option (Text × Text)
  | _, [] => none
  | depth, c :: t =>
    if c = '(' then (findOperator op (depth + 1) t).map fun (before, after) => (c :: before, after)
    else if c = ')' then (findOperator op (depth - 1) t).map fun (before, after) => (c :: before, after)
    else if depth = 0 ∧ op <+: c :: t then some ([], (c :: t).drop op.length)
    else (findOperator op depth t).map fun (before, after) => (c :: before, after)

/-- What stands before and after a comparison. -/
def cutAt (expr : Text) (k : Comparison) : Option (Comparison × Text × Text) :=
  (splitText k.text expr).bind fun (left, right) =>
    -- a `<` that is a `<=`
    if (k = .lt ∨ k = .gt) ∧ right.head? = some '=' then none else some (k, left, right)

/-- The comparison at which a text is cut. -/
def findComparison (expr : Text) : Option (Comparison × Text × Text) := Comparison.all.findSome? (cutAt expr)

inductive CondOp where
  | or
  | and
  | comparison (k : Comparison)

abbrev orText : Text := ['|', '|']

abbrev andText : Text := ['&', '&']

/-- The operator at which a condition is cut. -/
def splitCondition (expr : Text) : Option (CondOp × Text × Text) :=
  (findOperator orText 0 expr).map (.or, ·) <|> (findOperator andText 0 expr).map (.and, ·) <|>
    (findComparison expr).map fun (k, parts) => (.comparison k, parts)

/-! ### The parts of a cut -/

theorem splitText_eq {pat t l r : Text} (h : splitText pat t = some (l, r)) : t = l ++ pat ++ r := by
  induction t generalizing l with
  | nil => cases h
  | cons c t ih =>
    unfold splitText at h
    split_ifs at h with hpat
    · obtain ⟨rfl, rfl⟩ := Prod.mk.inj (Option.some.inj h)
      exact (List.prefix_iff_eq_append.mp hpat).symm
    · obtain ⟨⟨l', r'⟩, hsplit, heq⟩ := Option.map_eq_some_iff.mp h
      obtain ⟨rfl, rfl⟩ := Prod.mk.inj heq
      rw [ih hsplit]
      rfl

theorem findOperator_eq {op t l r : Text} {depth : Int} (h : findOperator op depth t = some (l, r)) :
    t = l ++ op ++ r := by
  induction t generalizing l depth with
  | nil => cases h
  | cons c t ih =>
    have hmap : ∀ {depth}, (findOperator op depth t).map (fun (before, after) => (c :: before, after)) = some (l, r) →
        c :: t = l ++ op ++ r := by
      intro depth h
      obtain ⟨⟨l', r'⟩, hfind, heq⟩ := Option.map_eq_some_iff.mp h
      obtain ⟨rfl, rfl⟩ := Prod.mk.inj heq
      rw [ih hfind]
      rfl
    unfold findOperator at h
    split_ifs at h with _ _ hop
    · exact hmap h
    · exact hmap h
    · obtain ⟨rfl, rfl⟩ := Prod.mk.inj (Option.some.inj h)
      exact (List.prefix_iff_eq_append.mp hop.2).symm
    · exact hmap h

theorem cutAt_eq_some {t l r : Text} {k k' : Comparison} : cutAt t k' = some (k, l, r) ↔
    k' = k ∧ splitText k.text t = some (l, r) ∧ ¬((k = .lt ∨ k = .gt) ∧ r.head? = some '=') := by
  constructor
  · intro h
    obtain ⟨⟨l', r'⟩, hsplit, h⟩ := Option.bind_eq_some_iff.mp h
    dsimp only at h
    split_ifs at h with hskip
    obtain ⟨rfl, hparts⟩ := Prod.mk.inj (Option.some.inj h)
    obtain ⟨rfl, rfl⟩ := Prod.mk.inj hparts
    exact ⟨rfl, hsplit, hskip⟩
  · rintro ⟨rfl, hsplit, hskip⟩
    unfold cutAt
    rw [hsplit, Option.bind_some]
    exact if_neg hskip

theorem findComparison_eq {t l r : Text} {k : Comparison} (h : findComparison t = some (k, l, r)) :
    splitText k.text t = some (l, r) := by
  obtain ⟨k', -, hk⟩ := List.exists_of_findSome?_eq_some h
  exact (cutAt_eq_some.mp hk).2.1

def CondOp.text : CondOp → Text
  | or => orText
  | and => andText
  | comparison k => k.text

theorem CondOp.text_ne_nil (op : CondOp) : op.text ≠ [] := by
  cases op with
  | or | and => exact List.cons_ne_nil _ _
  | comparison k => cases k <;> exact List.cons_ne_nil _ _

theorem splitCondition_eq {t l r : Text} {op : CondOp} (h : splitCondition t = some (op, l, r)) :
    t = l ++ op.text ++ r := by
  unfold splitCondition at h
  cases hor : findOperator orText 0 t with
  | some parts =>
    rw [hor] at h
    cases Option.some.inj h
    exact findOperator_eq hor
  | none =>
    rw [hor] at h
    cases hand : findOperator andText 0 t with
    | some parts =>
      rw [hand] at h
      cases Option.some.inj h
      exact findOperator_eq hand
    | none =>
      rw [hand] at h
      obtain ⟨⟨k, parts⟩, hfind, heq⟩ := Option.map_eq_some_iff.mp h
      cases heq
      exact splitText_eq (findComparison_eq hfind)

theorem length_trimText (t : Text) : (trimText t).length ≤ t.length := by
  unfold trimText
  rw [List.length_reverse]
  refine (List.dropWhile_suffix _).length_le.trans ?_
  rw [List.length_reverse]
  exact (List.dropWhile_suffix _).length_le

/-- Both parts of a cut are shorter. -/
theorem length_splitCondition {t l r : Text} {op : CondOp} (h : splitCondition (trimText t) = some (op, l, r)) :
    l.length < t.length ∧ r.length < t.length := by
  have hlen := congrArg List.length (splitCondition_eq h)
  have htrim := length_trimText t
  have hpos := List.length_pos_iff.mpr op.text_ne_nil
  rw [List.length_append, List.length_append] at hlen
  omega

/-! ### Evaluation -/

section Eval

variable (vars : Vars)

/-- The value of a condition. -/
def evalCondition (expr : Text) : Bool :=
  match h : splitCondition (trimText expr) with
  | some (.or, left, right) =>
    have := length_splitCondition h
    evalCondition left || evalCondition right
  | some (.and, left, right) =>
    have := length_splitCondition h
    evalCondition left && evalCondition right
  | some (.comparison k, left, right) => k.holds (resolveVar vars left) (resolveVar vars right)
  | none =>
    let resolved := resolveVar vars (trimText expr)
    resolved ≠ [] ∧ resolved ≠ ['0'] ∧ resolved ≠ "false".toList
termination_by expr.length
decreasing_by all_goals omega

/-- What stands before each operator at which a text is cut while the condition is evaluated:
a part that the first one decides is not looked at. -/
def cuts (expr : Text) : List Text :=
  match h : splitCondition (trimText expr) with
  | some (.or, left, right) =>
    have := length_splitCondition h
    left :: cuts left ++ if evalCondition vars left then [] else cuts right
  | some (.and, left, right) =>
    have := length_splitCondition h
    left :: cuts left ++ if evalCondition vars left then cuts right else []
  | some (.comparison _, left, _) => [left]
  | none => []
termination_by expr.length
decreasing_by all_goals omega

end Eval

end NlinkLab.Lower
