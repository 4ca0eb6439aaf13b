import NlinkLab.Data.Braces
import NlinkLab.Ipfunc

/-! Interpolation of `${…}` in texts (`parser/nll/lower.rs`): an expression is tried as a
ternary, as arithmetic and then as the name of a variable, and stays as it is written where
it is none of these. A text is interpolated until it does not change, ten times at most,
and then its `@fn:` calls are evaluated. Texts are lists of their characters. -/

namespace NlinkLab.Lower

abbrev Text := List Char

abbrev Vars := BTreeMap String String

/-- The character classes of the standard library: on ASCII the letters and digits, and
whatever they are beyond it. -/
structure CharClass where
  isAlphabetic : Char → Bool
  isAlphanumeric : Char → Bool
  alphanumeric_ascii : ∀ c, c.toNat < 128 → isAlphanumeric c = isAsciiAlphanumeric c
  alphabetic_ascii : ∀ c, c.toNat < 128 → isAlphabetic c = decide (isAsciiAlphanumeric c ∧ ¬c.isDigit)

/-- The classes without the characters beyond ASCII. -/
def CharClass.ascii : CharClass where
  isAlphabetic c := isAsciiAlphanumeric c ∧ ¬c.isDigit
  isAlphanumeric := isAsciiAlphanumeric
  alphanumeric_ascii _ _ := rfl
  alphabetic_ascii _ _ := rfl

/-- The start of an expression. -/
abbrev opening : Text := ['$', '\x7b']

/-- `str::trim`. -/
def trimText (t : Text) : Text := ((t.dropWhile isWhitespace).reverse.dropWhile isWhitespace).reverse

/-- What stands before the first `pat`, and what after it. -/
def splitText (pat : Text) : Text → Option (Text × Text)
  | [] => none
  | c :: t =>
    if pat <+: c :: t then some ([], (c :: t).drop pat.length)
    else (splitText pat t).map fun (before, after) => (c :: before, after)

def Vars.get (vars : Vars) (name : Text) : Option Text := vars[String.ofList name]?.map String.toList

/-- `str::parse::<i64>`. -/
def parseI64 (t : Text) : Option Int :=
  let (negative, digits) := match t with
    | '-' :: c :: cs => (true, c :: cs)
    | '+' :: c :: cs => (false, c :: cs)
    | cs => (false, cs)
  if digits = [] ∨ digits.any (fun c => c < '0' ∨ '9' < c) then none
  else
    let n := digits.foldl (fun n c => n * 10 + (c.toNat - '0'.toNat)) 0
    if negative then if n ≤ 2 ^ 63 then some (-(n : Int)) else none
    else if n < 2 ^ 63 then some (n : Int) else none

/-- The result of checked `i64` arithmetic. -/
def checkedI64 (n : Int) : Option Int := if -(2 ^ 63) ≤ n ∧ n < 2 ^ 63 then some n else none

/-! ### Arithmetic -/

inductive ArithTok where
  | num (n : Int)
  | plus
  | minus
  | mul
  | div
  | mod
  | lParen
  | rParen
  deriving DecidableEq

/-- A minus after these, or at the start, is a sign. -/
def ArithTok.signFollows : ArithTok → Bool
  | plus | minus | mul | div | mod | lParen => true
  | _ => false

section Arithmetic

variable (cc : CharClass) (vars : Vars)

/-- A number or a variable that is one, and the rest of the text. -/
def readOperand (t : Text) : Option (Int × Text) :=
  match t.dropWhile (· = ' ') with
  | [] => none
  | c :: rest =>
    if c.isDigit then
      let (num, rest) := (c :: rest).span Char.isDigit
      (parseI64 num).map (·, rest)
    else if cc.isAlphabetic c ∨ c = '_' then
      let (name, rest) := (c :: rest).span fun c => cc.isAlphanumeric c ∨ c = '_' ∨ c = '.'
      (vars.get name).bind fun val => (parseI64 val).map (·, rest)
    else none

/-- The characters of a name inside an expression. -/
def isNameChar (c : Char) : Bool := cc.isAlphanumeric c ∨ c = '_' ∨ c = '.' ∨ c = '-'

def isNameStart (c : Char) : Bool := ('a' ≤ c ∧ c ≤ 'z') ∨ ('A' ≤ c ∧ c ≤ 'Z') ∨ c = '_'

/-- The tokens of an expression after those already read; none where it is not arithmetic.
Every character read is at most one step, so that many steps end it. -/
def tokenizeArith : (fuel : Nat) → List ArithTok → Text → Option (List ArithTok)
  | 0, _, _ => none
  | _ + 1, tokens, [] => some tokens
  | fuel + 1, tokens, c :: t =>
    if c = ' ' ∨ c = '\t' then tokenizeArith fuel tokens t
    else if c = '+' then tokenizeArith fuel (tokens ++ [.plus]) t
    else if c = '-' then
      if tokens.getLast?.all ArithTok.signFollows then
        match readOperand cc vars t with
        | none => none
        | some (n, rest) => (checkedI64 (-n)).bind fun n => tokenizeArith fuel (tokens ++ [.num n]) rest
      else tokenizeArith fuel (tokens ++ [.minus]) t
    else if c = '*' then tokenizeArith fuel (tokens ++ [.mul]) t
    else if c = '/' then tokenizeArith fuel (tokens ++ [.div]) t
    else if c = '%' then tokenizeArith fuel (tokens ++ [.mod]) t
    else if c = '(' then tokenizeArith fuel (tokens ++ [.lParen]) t
    else if c = ')' then tokenizeArith fuel (tokens ++ [.rParen]) t
    else if c.isDigit then
      let (num, rest) := (c :: t).span Char.isDigit
      (parseI64 num).bind fun n => tokenizeArith fuel (tokens ++ [.num n]) rest
    else if isNameStart c then
      let (name, rest) := (c :: t).span (isNameChar cc)
      (vars.get name).bind fun val => (parseI64 val).bind fun n => tokenizeArith fuel (tokens ++ [.num n]) rest
    else none

end Arithmetic

/-- The level of an expression, from the loosest binding on. -/
inductive ArithLevel where
  | expr
  | term
  | factor

/-- Parse an expression, a term or a factor from its tokens; an overflow or a division by
zero is no number. A level goes to the next without a token, so that three steps a token
end it. -/
def parseArith : (fuel : Nat) → ArithLevel → List ArithTok → Option (Int × List ArithTok)
  | 0, _, _ => none
  | _ + 1, .factor, .num n :: rest => some (n, rest)
  | fuel + 1, .factor, .lParen :: rest =>
    (parseArith fuel .expr rest).map fun (val, rest) =>
      match rest with
      | .rParen :: rest => (val, rest)
      | _ => (val, rest)
  | _ + 1, .factor, _ => none
  | fuel + 1, .term, tokens => (parseArith fuel .factor tokens).bind fun (left, rest) => terms fuel left rest
  | fuel + 1, .expr, tokens => (parseArith fuel .term tokens).bind fun (left, rest) => sums fuel left rest
where
  /-- The factors that follow. -/
  terms : (fuel : Nat) → Int → List ArithTok → Option (Int × List ArithTok)
    | 0, _, _ => none
    | fuel + 1, left, .mul :: rest => (parseArith fuel .factor rest).bind fun (right, rest) =>
        (checkedI64 (left * right)).bind fun left => terms fuel left rest
    | fuel + 1, left, .div :: rest => (parseArith fuel .factor rest).bind fun (right, rest) =>
        if right = 0 then none else (checkedI64 (left.tdiv right)).bind fun left => terms fuel left rest
    | fuel + 1, left, .mod :: rest => (parseArith fuel .factor rest).bind fun (right, rest) =>
        if right = 0 then none
        else (checkedI64 (left.tdiv right)).bind fun _ => terms fuel (left.tmod right) rest
    | _ + 1, left, rest => some (left, rest)
  /-- The terms that follow. -/
  sums : (fuel : Nat) → Int → List ArithTok → Option (Int × List ArithTok)
    | 0, _, _ => none
    | fuel + 1, left, .plus :: rest => (parseArith fuel .term rest).bind fun (right, rest) =>
        (checkedI64 (left + right)).bind fun left => sums fuel left rest
    | fuel + 1, left, .minus :: rest => (parseArith fuel .term rest).bind fun (right, rest) =>
        (checkedI64 (left - right)).bind fun left => sums fuel left rest
    | _ + 1, left, rest => some (left, rest)

/-! ### Expressions -/

/-- The text before the first `ch` outside quotes, and what after it. -/
def splitUnquoted (ch : Char) : (quoted : Bool) → Text → Option (Text × Text)
  | _, [] => none
  | quoted, c :: t =>
    if c = '"' then (splitUnquoted ch (!quoted) t).map fun (before, after) => (c :: before, after)
    else if c = ch ∧ ¬quoted then some ([], t)
    else (splitUnquoted ch quoted t).map fun (before, after) => (c :: before, after)

/-- A literal without its quotes, the value of a variable, or the text itself. -/
def resolveVar (vars : Vars) (t : Text) : Text :=
  let t := trimText t
  if t.head? = some '"' ∧ t.getLast? = some '"' ∧ 2 ≤ t.length then (t.drop 1).dropLast
  else (vars.get t).getD t

/-- The value of `var == "lit" ? a : b`. -/
def evalTernary (vars : Vars) (expr : Text) : Option Text := do
  let (condition, rest) ← splitUnquoted '?' false expr
  let condition := trimText condition
  let (whenTrue, whenFalse) ← splitUnquoted ':' false (trimText rest)
  let result ← match splitText ['!', '='] condition with
    | some (left, right) => some (resolveVar vars left ≠ resolveVar vars right : Bool)
    | none => (splitText ['=', '='] condition).map fun (left, right) =>
        (resolveVar vars left = resolveVar vars right : Bool)
  return resolveVar vars (trimText (if result then whenTrue else whenFalse))

/-- The value of an arithmetic expression. Tokens after a whole expression are passed over. -/
def evalArith (cc : CharClass) (vars : Vars) (expr : Text) : Option Int :=
  match tokenizeArith cc vars (expr.length + 1) [] expr with
  | none | some [] => none
  | some tokens => (parseArith (3 * tokens.length + 3) .expr tokens).map Prod.fst

/-- The prefix of a variable that binds a node of a `site`. -/
def siteNode : Text := ['@', 's', 'i', 't', 'e', ':']

/-- The expression of a text, as it is written. -/
def unresolved (expr : Text) : Text := opening ++ expr ++ ['\x7d']

/-- The cross-reference to a node of a `site`, by its full name. -/
def evalSiteNode (vars : Vars) (expr : Text) : Option Text := do
  let (node, rest) ← splitText ['.'] expr
  let full ← vars.get (siteNode ++ node)
  return unresolved (full ++ '.' :: rest)

/-- The value of an expression without blanks around it, where it has one. -/
def evalExpr? (cc : CharClass) (vars : Vars) (expr : Text) : Option Text :=
  evalTernary vars expr <|> (evalArith cc vars expr).map (fun n => (toString n).toList) <|> vars.get expr <|>
    evalSiteNode vars expr

def evalExpr (cc : CharClass) (vars : Vars) (expr : Text) : Text :=
  let expr := trimText expr
  (evalExpr? cc vars expr).getD (unresolved expr)

/-! ### Texts -/

/-- One pass over a text, innermost expressions first. -/
def interpolateOnce (cc : CharClass) (vars : Vars) : Text → Text
  | [] => []
  | c :: t =>
    if opening <+: c :: t then
      match h : Braces.takeClosed '\x7b' '\x7d' 0 (t.drop 1) with
      | none => c :: t
      | some (expr, after) =>
        have hlength := Braces.length_of_takeClosed (by decide) h
        have hdrop : (t.drop 1).length ≤ t.length := by simp
        let resolved := if opening <:+: expr then interpolateOnce cc vars expr else expr
        let value := evalExpr cc vars resolved
        (if value = unresolved (trimText resolved) then unresolved resolved else value) ++
          interpolateOnce cc vars after
    else c :: interpolateOnce cc vars t
termination_by t => t.length
decreasing_by all_goals simp only [List.length_cons]; omega

/-- The arguments of a call, cut at the commas outside parentheses. -/
def splitFunctionArgs (s : Text) : List Text :=
  let rec go (depth : Int) (current : Text) : Text → List Text
    | [] => if trimText current = [] then [] else [trimText current]
    | c :: t =>
      if c = '(' then go (depth + 1) (current ++ [c]) t
      else if c = ')' then go (depth - 1) (current ++ [c]) t
      else if c = ',' ∧ depth = 0 then trimText current :: go depth [] t
      else go depth (current ++ [c]) t
  go 0 [] s

/-- The start of a call. -/
abbrev fnCall : Text := ['@', 'f', 'n', ':']

/-- Evaluate the calls of a text from the first on, `inner` those of an argument, so many at
most; a call that fails ends it. -/
def resolveRounds (inner : Text → Text) : (rounds : Nat) → Text → Text
  | 0, result => result
  | rounds + 1, result =>
    match splitText fnCall result with
    | none => result
    | some (start, afterFn) =>
      match splitText ['('] afterFn with
      | none => result
      | some (name, rest) =>
        -- a parenthesis that is not closed leaves no arguments, and no function takes none
        let (args, after) := (Braces.takeClosed '(' ')' 0 rest).getD ([], rest.drop 1)
        let resolved := (splitFunctionArgs args).map fun a => String.ofList (inner (trimText a))
        match Ipfunc.evalFunction (String.ofList name) resolved with
        | .ok value => resolveRounds inner rounds (start ++ value.toList ++ after)
        | .error _ => result

/-- Resolve the `@fn:name(args)` of a text, ten at most. An argument has one `@` less than the
text it stands in, so that calls nest `deep` at most. -/
def resolveFunctions : (deep : Nat) → Text → Text
  | 0, s => s
  | deep + 1, s => resolveRounds (resolveFunctions deep) 10 s

/-- Interpolate until nothing changes, so many times at most. -/
def interpolatePasses (cc : CharClass) (vars : Vars) : (passes : Nat) → Text → Text
  | 0, current => current
  | passes + 1, current =>
    let next := interpolateOnce cc vars current
    if next = current then current else interpolatePasses cc vars passes next

/-- Replace each `${expr}` of a template by its value, and evaluate its calls. -/
def interpolate (cc : CharClass) (vars : Vars) (template : String) : String :=
  let current := interpolatePasses cc vars 10 template.toList
  String.ofList (if fnCall <:+: current then resolveFunctions (current.count '@') current else current)

end NlinkLab.Lower
