import NlinkLab.Lower.ArithParse
import NlinkLab.Lower.Substitute

/-! Arithmetic in `${…}` against its grammar. An expression is cut into words, and each word
is a token. The code departs from the grammar at two places: a sign is read only before a
number or a name that stands there after spaces, and the tokens after the longest beginning
that is an expression are passed over, with the parentheses that it left open. -/

namespace NlinkLab.Lower

open Braces

/-- The token of a sign. -/
def signTok : Char → Option ArithTok
  | '+' => some .plus
  | '-' => some .minus
  | '*' => some .mul
  | '/' => some .div
  | '%' => some .mod
  | '(' => some .lParen
  | ')' => some .rParen
  | _ => none

section Words

variable (cc : CharClass) (vars : Vars)

/-- The words of an expression between blanks, each with the text after it: a number, a name
as far as it goes, dashes included, or a single character. -/
def arithWords : Text → List (Text × Text)
  | [] => []
  | c :: t =>
    if c = ' ' ∨ c = '\t' then arithWords t
    else if c.isDigit then
      (c :: t.takeWhile Char.isDigit, t.dropWhile Char.isDigit) :: arithWords (t.dropWhile Char.isDigit)
    else if isNameStart c then
      (c :: t.takeWhile (isNameChar cc), t.dropWhile (isNameChar cc)) :: arithWords (t.dropWhile (isNameChar cc))
    else ([c], t) :: arithWords t
termination_by t => t.length
decreasing_by
  all_goals first | exact Nat.lt_succ_self _ | exact Nat.lt_succ_of_le (List.dropWhile_suffix _).length_le

/-- The number that a word stands for. -/
def arithNum (w : Text) : Option Int :=
  if w.head?.any Char.isDigit then parseI64 w else (vars.get w).bind parseI64

def arithToken : Text → Option ArithTok
  | [] => none
  | c :: t => if c.isDigit ∨ isNameStart c then (arithNum vars (c :: t)).map .num else signTok c

/-- The tokens of an expression, where each of its words is one. -/
def arithTokens (t : Text) : Option (List ArithTok) := (arithWords cc t).mapM fun w => arithToken vars w.1

/-- The texts after the signs: a dash is one at the start, after an operator and after an
opening parenthesis. -/
def signs : (start : Bool) → List (Text × Text) → List Text
  | _, [] => []
  | start, (w, after) :: ws =>
    let rest := signs ((w.head?.bind signTok).any ArithTok.signFollows) ws
    if start ∧ w = ['-'] then after :: rest else rest

/-- What the sign stands before, over spaces, is a number or a name without a dash. -/
def PlainSign (after : Text) : Prop :=
  ∃ c t, after.dropWhile (· = ' ') = c :: t ∧
    (c.isDigit = true ∨ isNameStart c = true ∧ '-' ∉ t.takeWhile (isNameChar cc))

/-- The sign stands before a name with a dash, and the name, or what stands before its dash,
is bound to a number. -/
def DashedSign (after : Text) : Prop :=
  ∃ c t, after.dropWhile (· = ' ') = c :: t ∧ isNameStart c = true ∧ '-' ∈ t.takeWhile (isNameChar cc) ∧
    ((readOperand cc vars after).isSome = true ∨ (arithNum vars (c :: t.takeWhile (isNameChar cc))).isSome = true)

/-- The signs that the tokenizer comes to: the words before them are tokens, and the numbers
before them fit with their signs. -/
def reachedSigns : (start : Bool) → List (Text × Text) → List Text
  | _, [] => []
  | start, (w, after) :: ws =>
    if start ∧ w = ['-'] then
      after :: if ((readOperand cc vars after).bind fun x => checkedI64 (-x.1)).isSome then reachedSigns true ws else []
    else if (arithToken vars w).isSome then reachedSigns ((w.head?.bind signTok).any ArithTok.signFollows) ws
    else []

end Words

/-- What is bound are names, and the nodes of a site. -/
def Vars.Named (vars : Vars) : Prop := ∀ x v, vars.get x = some v → IsName x ∨ siteNode <+: x

section Tokenize

variable {cc : CharClass} {vars : Vars}

theorem fits_of_parseI64 {t : Text} {n : Int} (h : parseI64 t = some n) : Fits n := by
  unfold parseI64 at h
  dsimp only at h
  unfold Fits
  split_ifs at h
  · obtain rfl := Option.some.inj h
    omega
  · obtain rfl := Option.some.inj h
    omega

theorem arithWords_spaces (t : Text) : arithWords cc (t.dropWhile (· = ' ')) = arithWords cc t := by
  induction t with
  | nil => rfl
  | cons c t ih =>
    by_cases hc : c = ' '
    · rw [List.dropWhile_cons_of_pos (by simpa using hc), ih, arithWords, if_pos (.inl hc)]
    · rw [List.dropWhile_cons_of_neg (by simpa using hc)]

theorem fits_of_arithNum {w : Text} {n : Int} (h : arithNum vars w = some n) : Fits n := by
  unfold arithNum at h
  split_ifs at h
  · exact fits_of_parseI64 h
  · obtain ⟨v, -, hv⟩ := Option.bind_eq_some_iff.mp h
    exact fits_of_parseI64 hv

theorem minus_of_signTok {c : Char} (h : signTok c = some .minus) : c = '-' := by
  unfold signTok at h
  split at h
  case h_2 => rfl
  all_goals cases h

theorem signTok_ne_num (c : Char) (n : Int) : signTok c ≠ some (.num n) := by
  intro h
  unfold signTok at h
  split at h <;> cases h

/-- A sign that stands for itself is one token. -/
theorem tokenizeArith_sign {c : Char} {tok : ArithTok} (h : signTok c = some tok) {fuel : Nat} {acc : List ArithTok}
    {t : Text} (hminus : tok = .minus → acc.getLast?.all ArithTok.signFollows = false) :
    tokenizeArith cc vars (fuel + 1) acc (c :: t) = tokenizeArith cc vars fuel (acc ++ [tok]) t := by
  unfold signTok at h
  split at h
  case h_2 =>
    obtain rfl := Option.some.inj h
    show (if acc.getLast?.all ArithTok.signFollows = true then _ else _) = _
    rw [if_neg (by rw [hminus rfl]; decide)]
  case h_8 => cases h
  all_goals
    obtain rfl := Option.some.inj h
    rfl

theorem isDigit_of_signTok {c : Char} {tok : ArithTok} (h : signTok c = some tok) :
    c.isDigit = false ∧ isNameStart c = false ∧ ¬(c = ' ' ∨ c = '\t') := by
  unfold signTok at h
  split at h
  case h_8 => cases h
  all_goals exact ⟨by decide, by decide, by decide⟩

/-- A sign before an operand is drawn into it. -/
theorem tokenizeArith_minus {fuel : Nat} {acc : List ArithTok} {t : Text}
    (h : acc.getLast?.all ArithTok.signFollows = true) :
    tokenizeArith cc vars (fuel + 1) acc ('-' :: t) = (readOperand cc vars t).bind fun x =>
      (checkedI64 (-x.1)).bind fun n => tokenizeArith cc vars fuel (acc ++ [.num n]) x.2 := by
  show (if acc.getLast?.all ArithTok.signFollows = true then _ else _) = _
  rw [if_pos h]
  cases readOperand cc vars t <;> rfl

theorem span_cons {p : Char → Bool} {c : Char} {t : Text} (h : p c = true) :
    (c :: t).span p = (c :: t.takeWhile p, t.dropWhile p) := by
  rw [List.span_eq_takeWhile_dropWhile, List.takeWhile_cons_of_pos h, List.dropWhile_cons_of_pos h]

theorem tokenizeArith_digits {c : Char} {t : Text} (hc : c.isDigit = true) {fuel : Nat} {acc : List ArithTok} :
    tokenizeArith cc vars (fuel + 1) acc (c :: t) = (parseI64 (c :: t.takeWhile Char.isDigit)).bind fun n =>
      tokenizeArith cc vars fuel (acc ++ [.num n]) (t.dropWhile Char.isDigit) := by
  have hne : ∀ d, d.isDigit = false → c ≠ d := by
    rintro d hd rfl
    exact Bool.false_ne_true (hd.symm.trans hc)
  have hblank : ¬(c = ' ' ∨ c = '\t') := fun h => h.elim (hne _ (by decide)) (hne _ (by decide))
  rw [tokenizeArith, if_neg hblank, if_neg (hne _ (by decide)), if_neg (hne _ (by decide)), if_neg (hne _ (by decide)),
    if_neg (hne _ (by decide)), if_neg (hne _ (by decide)), if_neg (hne _ (by decide)), if_neg (hne _ (by decide)),
    if_pos hc, span_cons hc]

theorem isNameChar_of_isNameStart {c : Char} (h : isNameStart c = true) : isNameChar cc c = true := by
  refine isNameChar_of_ascii ?_
  rcases of_decide_eq_true h with h | h | h
  · exact .inl (decide_eq_true (.inr (.inl h)))
  · exact .inl (decide_eq_true (.inr (.inr h)))
  · exact .inr (.inl h)

theorem tokenizeArith_name {c : Char} {t : Text} (hc : isNameStart c = true) {fuel : Nat} {acc : List ArithTok} :
    tokenizeArith cc vars (fuel + 1) acc (c :: t) =
      ((vars.get (c :: t.takeWhile (isNameChar cc))).bind parseI64).bind fun n =>
        tokenizeArith cc vars fuel (acc ++ [.num n]) (t.dropWhile (isNameChar cc)) := by
  have hne : ∀ d, isNameStart d = false → c ≠ d := by
    rintro d hd rfl
    exact Bool.false_ne_true (hd.symm.trans hc)
  have hblank : ¬(c = ' ' ∨ c = '\t') := fun h => h.elim (hne _ (by decide)) (hne _ (by decide))
  have hdigit : ¬c.isDigit = true := by
    rw [isDigit_of_isNameStart hc]
    exact Bool.false_ne_true
  rw [tokenizeArith, if_neg hblank, if_neg (hne _ (by decide)), if_neg (hne _ (by decide)), if_neg (hne _ (by decide)),
    if_neg (hne _ (by decide)), if_neg (hne _ (by decide)), if_neg (hne _ (by decide)), if_neg (hne _ (by decide)),
    if_neg hdigit, if_pos hc, span_cons (isNameChar_of_isNameStart hc), Option.bind_assoc]

theorem signTok_of_operand {c : Char} (hc : c.isDigit = true ∨ isNameStart c = true) : signTok c = none := by
  cases h : signTok c with
  | none => rfl
  | some tok =>
    obtain ⟨hdigit, hname, -⟩ := isDigit_of_signTok h
    rw [hdigit, hname] at hc
    exact hc.elim nofun nofun

variable (cc vars) in
/-- A number or a name is the token of its number. -/
theorem tokenizeArith_operand {c : Char} (t : Text) (hc : c.isDigit = true ∨ isNameStart c = true) :
    ∃ tail rest, arithWords cc (c :: t) = (c :: tail, rest) :: arithWords cc rest ∧ rest.length ≤ t.length ∧
      ∀ fuel acc, tokenizeArith cc vars (fuel + 1) acc (c :: t) = (arithNum vars (c :: tail)).bind fun n =>
        tokenizeArith cc vars fuel (acc ++ [.num n]) rest := by
  have hblank : ¬(c = ' ' ∨ c = '\t') := by
    rintro (rfl | rfl) <;> exact hc.elim nofun nofun
  by_cases hdigit : c.isDigit = true
  · refine ⟨_, _, by rw [arithWords, if_neg hblank, if_pos hdigit], (List.dropWhile_suffix _).length_le, ?_⟩
    intro fuel acc
    rw [tokenizeArith_digits hdigit, arithNum, if_pos (by simpa using hdigit)]
  · have hname := hc.resolve_left hdigit
    refine ⟨_, _, by rw [arithWords, if_neg hblank, if_neg hdigit, if_pos hname], (List.dropWhile_suffix _).length_le, ?_⟩
    intro fuel acc
    rw [tokenizeArith_name hname, arithNum, if_neg (by simpa using hdigit)]

theorem tokenizeArith_other {c : Char} {t : Text} (hblank : ¬(c = ' ' ∨ c = '\t')) (hdigit : c.isDigit = false)
    (hname : isNameStart c = false) (hsign : signTok c = none) {fuel : Nat} {acc : List ArithTok} :
    tokenizeArith cc vars (fuel + 1) acc (c :: t) = none := by
  have hne : ∀ d, (signTok d).isSome → c ≠ d := by
    rintro d hd rfl
    rw [hsign] at hd
    cases hd
  rw [tokenizeArith, if_neg hblank, if_neg (hne _ rfl), if_neg (hne _ rfl), if_neg (hne _ rfl), if_neg (hne _ rfl),
    if_neg (hne _ rfl), if_neg (hne _ rfl), if_neg (hne _ rfl), if_neg (by rw [hdigit]; decide),
    if_neg (by rw [hname]; decide)]

/-- Two classes cut a text at the same place where they differ in a character that does not
come before it. -/
theorem takeWhile_eq_of_notMem {p q : Char → Bool} {x : Char} (heq : ∀ d, d ≠ x → p d = q d) (hx : q x = true)
    {t : Text} (h : x ∉ t.takeWhile q) : t.takeWhile p = t.takeWhile q ∧ t.dropWhile p = t.dropWhile q := by
  induction t with
  | nil => exact ⟨rfl, rfl⟩
  | cons d t ih =>
    have hd : d ≠ x := by
      rintro rfl
      rw [List.takeWhile_cons_of_pos hx] at h
      exact h List.mem_cons_self
    by_cases hq : q d = true
    · rw [List.takeWhile_cons_of_pos hq] at h
      obtain ⟨htake, hdrop⟩ := ih fun hmem => h (List.mem_cons_of_mem _ hmem)
      rw [List.takeWhile_cons_of_pos hq, List.dropWhile_cons_of_pos hq, List.takeWhile_cons_of_pos ((heq d hd).trans hq),
        List.dropWhile_cons_of_pos ((heq d hd).trans hq), htake, hdrop]
      exact ⟨rfl, rfl⟩
    · have hp : ¬p d = true := by rwa [heq d hd]
      rw [List.takeWhile_cons_of_neg hq, List.dropWhile_cons_of_neg hq, List.takeWhile_cons_of_neg hp,
        List.dropWhile_cons_of_neg hp]
      exact ⟨rfl, rfl⟩

/-- The characters of a name after a sign. -/
theorem span_signedName {c : Char} {t : Text} (hc : isNameStart c = true) (hdash : '-' ∉ t.takeWhile (isNameChar cc)) :
    (c :: t).span (fun c => decide (cc.isAlphanumeric c = true ∨ c = '_' ∨ c = '.')) =
      (c :: t.takeWhile (isNameChar cc), t.dropWhile (isNameChar cc)) := by
  have heq : ∀ d, d ≠ '-' → decide (cc.isAlphanumeric d = true ∨ d = '_' ∨ d = '.') = isNameChar cc d := by
    intro d hd
    unfold isNameChar
    simp only [hd, or_false]
  have hdash' : isNameChar cc '-' = true := decide_eq_true (.inr (.inr (.inr rfl)))
  obtain ⟨htake, hdrop⟩ := takeWhile_eq_of_notMem heq hdash' hdash
  have hc' : c ≠ '-' := by
    rintro rfl
    cases hc
  rw [span_cons ((heq c hc').trans (isNameChar_of_isNameStart hc)), htake, hdrop]

theorem isAlphabetic_of_isNameStart {c : Char} (h : isNameStart c = true) : cc.isAlphabetic c = true ∨ c = '_' := by
  by_cases hc : c = '_'
  · exact .inr hc
  · have halnum : isAsciiAlphanumeric c = true := by
      rcases of_decide_eq_true h with h | h | h
      · exact decide_eq_true (.inr (.inl h))
      · exact decide_eq_true (.inr (.inr h))
      · exact absurd h hc
    rw [cc.alphabetic_ascii c (toNat_of_isAsciiAlphanumeric halnum)]
    exact .inl (decide_eq_true ⟨halnum, by rw [isDigit_of_isNameStart h]; exact Bool.false_ne_true⟩)

variable (vars) in
/-- Before a plain operand a sign reads the word that stands there. -/
theorem readOperand_of_plainSign {after : Text} (h : PlainSign cc after) :
    ∃ w rest, arithWords cc after = (w, rest) :: arithWords cc rest ∧ rest.length < after.length ∧
      (∃ c t, w = c :: t ∧ (c.isDigit = true ∨ isNameStart c = true)) ∧
      readOperand cc vars after = (arithNum vars w).map (·, rest) := by
  obtain ⟨c, t, hdrop, hc⟩ := h
  have hlen : t.length < after.length := by
    have hle := (List.dropWhile_suffix (· = ' ') (l := after)).length_le
    rw [hdrop, List.length_cons] at hle
    exact hle
  rw [← arithWords_spaces, hdrop, readOperand, hdrop]
  dsimp only
  rcases hc with hdigit | ⟨hname, hdash⟩
  · have hblank : ¬(c = ' ' ∨ c = '\t') := by
      rintro (rfl | rfl) <;> cases hdigit
    rw [arithWords, if_neg hblank, if_pos hdigit, if_pos hdigit, span_cons hdigit]
    refine ⟨_, _, rfl, (List.dropWhile_suffix _).length_le.trans_lt hlen, ⟨_, _, rfl, .inl hdigit⟩, ?_⟩
    rw [arithNum, if_pos (by simpa using hdigit)]
  · have hblank : ¬(c = ' ' ∨ c = '\t') := by
      rintro (rfl | rfl) <;> cases hname
    have hdigit : ¬c.isDigit = true := by
      rw [isDigit_of_isNameStart hname]
      exact Bool.false_ne_true
    rw [arithWords, if_neg hblank, if_neg hdigit, if_pos hname, if_neg hdigit,
      if_pos (isAlphabetic_of_isNameStart hname), span_signedName hname hdash]
    refine ⟨_, _, rfl, (List.dropWhile_suffix _).length_le.trans_lt hlen, ⟨_, _, rfl, .inr hname⟩, ?_⟩
    rw [arithNum, if_neg (by simpa using hdigit), Option.map_bind]
    rfl

/-- Before what is no operand, nor a name with a dash that is bound, a sign reads nothing. -/
theorem readOperand_eq_none (hnamed : vars.Named) {after : Text} (hplain : ¬PlainSign cc after)
    (hdashed : ¬DashedSign cc vars after) : readOperand cc vars after = none := by
  cases hdrop : after.dropWhile (· = ' ') with
  | nil =>
    unfold readOperand
    rw [hdrop]
  | cons c t =>
    have hdigit : ¬c.isDigit = true := fun h => hplain ⟨c, t, hdrop, .inl h⟩
    by_cases hname : isNameStart c = true
    · have hmem : '-' ∈ t.takeWhile (isNameChar cc) := by
        by_contra h
        exact hplain ⟨c, t, hdrop, .inr ⟨hname, h⟩⟩
      rw [← Option.not_isSome_iff_eq_none]
      exact fun hread => hdashed ⟨c, t, hdrop, hname, hmem, .inl hread⟩
    unfold readOperand
    rw [hdrop]
    dsimp only
    rw [if_neg hdigit]
    split_ifs with halpha
    · -- what starts with another letter is bound to nothing
      have hnone : ∀ p : Char → Bool, vars.get ((c :: t).span p).1 = none := by
        intro p
        rw [List.span_eq_takeWhile_dropWhile]
        dsimp only
        by_contra hsome
        obtain ⟨v, hv⟩ := Option.ne_none_iff_exists'.mp hsome
        rw [List.takeWhile_cons] at hv
        split_ifs at hv
        · rcases hnamed _ _ hv with h | h
          · obtain ⟨d, hd, hstart⟩ := h.start
            obtain rfl := Option.some.inj hd
            exact hname hstart
          · obtain ⟨r, hr⟩ := h
            obtain ⟨rfl, -⟩ := List.cons.inj hr
            rw [cc.alphabetic_ascii '@' (by decide)] at halpha
            exact absurd halpha (by decide)
        · rcases hnamed _ _ hv with h | ⟨r, hr⟩
          · obtain ⟨d, hd, -⟩ := h.start
            cases hd
          · cases hr
      rw [hnone]
      rfl
    · rfl

variable (cc vars) in
/-- The tokens that the code makes of a text, its signs drawn into numbers. -/
def Tokenized (start : Bool) (t : Text) (cs : List ArithTok) : Prop :=
  (∀ after ∈ signs start (arithWords cc t), PlainSign cc after) ∧
    ∃ ts, arithTokens cc vars t = some ts ∧ Signed start ts cs ∧ NumsFit cs

section Tokenized

variable {start : Bool} {w rest t : Text} {cs : List ArithTok} {tok : ArithTok}

theorem arithTokens_cons (hwords : arithWords cc t = (w, rest) :: arithWords cc rest) :
    arithTokens cc vars t = (arithToken vars w).bind fun tok => (arithTokens cc vars rest).map (tok :: ·) := by
  unfold arithTokens
  rw [hwords, List.mapM_cons]
  cases arithToken vars w with
  | none => rfl
  | some tok => cases (arithWords cc rest).mapM fun w => arithToken vars w.1 <;> rfl

/-- A word is a token of its own, unless it is a sign. -/
theorem tokenized_word (hwords : arithWords cc t = (w, rest) :: arithWords cc rest)
    (htok : arithToken vars w = some tok) (hminus : tok = .minus → start = false) (hfits : ∀ n, tok = .num n → Fits n)
    (hnext : (w.head?.bind signTok).any ArithTok.signFollows = tok.signFollows) (hw : w = ['-'] → tok = .minus) :
    Tokenized cc vars start t cs ↔ ∃ cs', cs = tok :: cs' ∧ Tokenized cc vars tok.signFollows rest cs' := by
  have hsigns : signs start (arithWords cc t) = signs tok.signFollows (arithWords cc rest) := by
    rw [hwords, signs, hnext]
    refine if_neg ?_
    rintro ⟨hstart, hdash⟩
    rw [hminus (hw hdash)] at hstart
    cases hstart
  unfold Tokenized
  rw [hsigns, arithTokens_cons hwords, htok, Option.bind_some]
  constructor
  · rintro ⟨hplain, ts, hts, hsigned, hcs⟩
    obtain ⟨ts, htail, rfl⟩ := Option.map_eq_some_iff.mp hts
    obtain ⟨cs, rfl, htailSigned⟩ := hsigned.cons_left hminus
    exact ⟨cs, rfl, hplain, ts, htail, htailSigned, (numsFit_cons.mp hcs).2⟩
  · rintro ⟨cs, rfl, hplain, ts, hts, hsigned, hcs⟩
    exact ⟨hplain, tok :: ts, by rw [hts]; rfl, .token hminus hsigned, numsFit_cons.mpr ⟨hfits, hcs⟩⟩

theorem tokenized_blank {c : Char} (hc : c = ' ' ∨ c = '\t') :
    Tokenized cc vars start (c :: t) cs ↔ Tokenized cc vars start t cs := by
  unfold Tokenized arithTokens
  rw [arithWords, if_pos hc]

theorem tokenized_nil : Tokenized cc vars start [] cs ↔ cs = [] := by
  unfold Tokenized arithTokens
  rw [arithWords]
  constructor
  · rintro ⟨-, ts, hts, hsigned, -⟩
    obtain rfl := Option.some.inj hts
    exact hsigned.nil_left
  · rintro rfl
    exact ⟨nofun, [], rfl, .nil, nofun⟩

theorem not_tokenized (hwords : arithWords cc t = (w, rest) :: arithWords cc rest) (htok : arithToken vars w = none) :
    ¬Tokenized cc vars start t cs := by
  rintro ⟨-, ts, hts, -⟩
  rw [arithTokens_cons hwords, htok] at hts
  cases hts

theorem arithWords_dash : arithWords cc ('-' :: t) = (['-'], t) :: arithWords cc t := by
  rw [arithWords, if_neg (by decide), if_neg (by decide), if_neg (by decide)]

theorem signs_dash : signs true (arithWords cc ('-' :: t)) = t :: signs true (arithWords cc t) := by
  rw [arithWords_dash, signs, if_pos ⟨rfl, rfl⟩]
  rfl

theorem signs_operand {c : Char} {tail : Text} (hc : c.isDigit = true ∨ isNameStart c = true) (start : Bool)
    (ws : List (Text × Text)) : signs start ((c :: tail, rest) :: ws) = signs false ws := by
  have hnone := signTok_of_operand hc
  have hne : c :: tail ≠ ['-'] := by
    intro heq
    obtain ⟨rfl, -⟩ := List.cons.inj heq
    cases hnone
  rw [signs, if_neg fun h => hne h.2, List.head?_cons, Option.bind_some, hnone]
  rfl

theorem reachedSigns_dash (t : Text) : reachedSigns cc vars true (arithWords cc ('-' :: t)) =
    t :: if ((readOperand cc vars t).bind fun x => checkedI64 (-x.1)).isSome then
      reachedSigns cc vars true (arithWords cc t) else [] := by
  rw [arithWords_dash, reachedSigns, if_pos ⟨rfl, rfl⟩]

theorem reachedSigns_operand {c : Char} {tail : Text} {n : Int} (hc : c.isDigit = true ∨ isNameStart c = true)
    (hn : arithNum vars (c :: tail) = some n) (start : Bool) (ws : List (Text × Text)) :
    reachedSigns cc vars start ((c :: tail, rest) :: ws) = reachedSigns cc vars false ws := by
  have hnone := signTok_of_operand hc
  have hne : c :: tail ≠ ['-'] := by
    intro heq
    obtain ⟨rfl, -⟩ := List.cons.inj heq
    cases hnone
  rw [reachedSigns, if_neg fun h => hne h.2, arithToken, if_pos hc, hn, List.head?_cons, Option.bind_some, hnone]
  rfl

/-- A sign before a plain operand is drawn into its number. -/
theorem tokenized_sign {c : Char} {tail : Text} (hplain : PlainSign cc t)
    (hc : c.isDigit = true ∨ isNameStart c = true) (hwords : arithWords cc t = (c :: tail, rest) :: arithWords cc rest) :
    Tokenized cc vars true ('-' :: t) cs ↔
      ∃ n, arithNum vars (c :: tail) = some n ∧ Fits (-n) ∧ ∃ cs', cs = .num (-n) :: cs' ∧
        Tokenized cc vars false rest cs' := by
  have htok : arithToken vars (c :: tail) = (arithNum vars (c :: tail)).map .num := if_pos hc
  have htokens : arithTokens cc vars ('-' :: t) = (arithTokens cc vars t).map (.minus :: ·) :=
    arithTokens_cons arithWords_dash
  unfold Tokenized
  rw [signs_dash, hwords, signs_operand hc, htokens, arithTokens_cons hwords, htok]
  constructor
  · rintro ⟨hall, ts, hts, hsigned, hcs⟩
    obtain ⟨ts, htail, rfl⟩ := Option.map_eq_some_iff.mp hts
    obtain ⟨tok, htok', hafter⟩ := Option.bind_eq_some_iff.mp htail
    obtain ⟨n, hn, rfl⟩ := Option.map_eq_some_iff.mp htok'
    obtain ⟨ts, hrest, rfl⟩ := Option.map_eq_some_iff.mp hafter
    obtain ⟨m, ts', cs', heq, rfl, hrestSigned⟩ := hsigned.minus_left
    obtain ⟨hm, rfl⟩ := List.cons.inj heq
    obtain rfl := ArithTok.num.inj hm
    obtain ⟨hfit, hcs'⟩ := numsFit_cons.mp hcs
    exact ⟨n, hn, hfit _ rfl, cs', rfl, fun after hmem => hall after (List.mem_cons_of_mem _ hmem), ts, hrest,
      hrestSigned, hcs'⟩
  · rintro ⟨n, hn, hfit, cs, rfl, hall, ts, hts, hsigned, hcs⟩
    refine ⟨List.forall_mem_cons.mpr ⟨hplain, hall⟩, .minus :: .num n :: ts, ?_, .sign hsigned, ?_⟩
    · rw [hn, hts]
      rfl
    · refine numsFit_cons.mpr ⟨fun m hm => ?_, hcs⟩
      obtain rfl := ArithTok.num.inj hm
      exact hfit

/-! ### What the tokenizer makes -/

variable (cc vars) in
/-- With so much fuel the tokenizer makes these tokens, after those before, where no sign that
it comes to stands before a name with a dash. -/
def TokenizesIn (fuel : Nat) : Prop :=
  ∀ {t : Text} (acc : List ArithTok) {out : List ArithTok}, t.length < fuel →
    (∀ after ∈ reachedSigns cc vars (acc.getLast?.all ArithTok.signFollows) (arithWords cc t),
      ¬DashedSign cc vars after) →
    (tokenizeArith cc vars fuel acc t = some out ↔
      ∃ cs, Tokenized cc vars (acc.getLast?.all ArithTok.signFollows) t cs ∧ out = acc ++ cs)

theorem signFollows_concat (acc : List ArithTok) (tok : ArithTok) :
    (acc ++ [tok]).getLast?.all ArithTok.signFollows = tok.signFollows := by
  rw [List.getLast?_concat]
  rfl

namespace TokenizesIn

variable {fuel : Nat} {acc out : List ArithTok} {c : Char}

/-- A token of its own goes on with what follows its word. -/
theorem word (ih : TokenizesIn cc vars fuel) (hfuel : t.length < fuel + 1)
    (hdash : ∀ after ∈ reachedSigns cc vars (acc.getLast?.all ArithTok.signFollows) (arithWords cc t),
      ¬DashedSign cc vars after)
    (hwords : arithWords cc t = (w, rest) :: arithWords cc rest) (htok : arithToken vars w = some tok)
    (hminus : tok = .minus → acc.getLast?.all ArithTok.signFollows = false) (hfits : ∀ n, tok = .num n → Fits n)
    (hnext : (w.head?.bind signTok).any ArithTok.signFollows = tok.signFollows) (hw : w = ['-'] → tok = .minus)
    (hlen : rest.length < t.length) :
    tokenizeArith cc vars fuel (acc ++ [tok]) rest = some out ↔
      ∃ cs, Tokenized cc vars (acc.getLast?.all ArithTok.signFollows) t cs ∧ out = acc ++ cs := by
  have hno : ¬(acc.getLast?.all ArithTok.signFollows = true ∧ w = ['-']) := by
    rintro ⟨hstart, hdash⟩
    rw [hminus (hw hdash)] at hstart
    cases hstart
  rw [hwords, reachedSigns, hnext, if_neg hno, htok, Option.isSome_some, if_pos rfl] at hdash
  rw [ih _ (by omega) (by rwa [signFollows_concat]), signFollows_concat]
  constructor
  · rintro ⟨cs, hcs, rfl⟩
    refine ⟨tok :: cs, (tokenized_word hwords htok hminus hfits hnext hw).mpr ⟨cs, rfl, hcs⟩, ?_⟩
    rw [List.append_assoc]
    rfl
  · rintro ⟨cs, hcs, rfl⟩
    obtain ⟨cs, rfl, hcs'⟩ := (tokenized_word hwords htok hminus hfits hnext hw).mp hcs
    refine ⟨cs, hcs', ?_⟩
    rw [List.append_assoc]
    rfl

/-- A sign where one may stand is drawn into the operand after it, or there is none. -/
theorem sign (hnamed : vars.Named) (ih : TokenizesIn cc vars fuel) (hfuel : t.length < fuel)
    (hstart : acc.getLast?.all ArithTok.signFollows = true)
    (hdash : ∀ after ∈ reachedSigns cc vars true (arithWords cc ('-' :: t)), ¬DashedSign cc vars after) :
    tokenizeArith cc vars (fuel + 1) acc ('-' :: t) = some out ↔
      ∃ cs, Tokenized cc vars true ('-' :: t) cs ∧ out = acc ++ cs := by
  rw [reachedSigns_dash] at hdash
  rw [tokenizeArith_minus hstart]
  by_cases hplain : PlainSign cc t
  · obtain ⟨w, rest, hwords, hlen, ⟨d, tail, rfl, hd⟩, hread⟩ := readOperand_of_plainSign vars hplain
    have hdash := (List.forall_mem_cons.mp hdash).2
    rw [hread] at hdash ⊢
    simp only [tokenized_sign hplain hd hwords]
    cases hn : arithNum vars (d :: tail) with
    | none =>
      refine ⟨by rintro ⟨⟩, ?_⟩
      rintro ⟨cs, ⟨n, hnone, -⟩, -⟩
      cases hnone
    | some n =>
      rw [Option.map_some, Option.bind_some]
      dsimp only
      cases hneg : checkedI64 (-n) with
      | none =>
        refine ⟨by rintro ⟨⟩, ?_⟩
        rintro ⟨cs, ⟨m, hm, hfit, -⟩, -⟩
        obtain rfl := Option.some.inj hm
        rw [checkedI64_eq_some.mpr ⟨rfl, hfit⟩] at hneg
        cases hneg
      | some m =>
        obtain ⟨rfl, hfit⟩ := checkedI64_eq_some.mp hneg
        have hlast : (acc ++ [ArithTok.num (-n)]).getLast?.all ArithTok.signFollows = false :=
          signFollows_concat acc (.num (-n))
        rw [hn, Option.map_some, Option.bind_some, hneg, Option.isSome_some, if_pos rfl, hwords,
          reachedSigns_operand hd hn] at hdash
        rw [Option.bind_some, ih _ (by omega) (by rwa [hlast]), hlast]
        constructor
        · rintro ⟨cs, hcs, rfl⟩
          exact ⟨_, ⟨n, rfl, hfit, cs, rfl, hcs⟩, by rw [List.append_assoc]; rfl⟩
        · rintro ⟨_, ⟨m, hm, -, cs, rfl, hcs⟩, rfl⟩
          obtain rfl := Option.some.inj hm
          exact ⟨cs, hcs, by rw [List.append_assoc]; rfl⟩
  · rw [readOperand_eq_none hnamed hplain (hdash t List.mem_cons_self)]
    refine ⟨by rintro ⟨⟩, ?_⟩
    rintro ⟨cs, ⟨hall, -⟩, -⟩
    rw [signs_dash] at hall
    exact absurd (hall t List.mem_cons_self) hplain

/-- A number or a name. -/
theorem operand (ih : TokenizesIn cc vars fuel) (hfuel : (c :: t).length < fuel + 1)
    (hdash : ∀ after ∈ reachedSigns cc vars (acc.getLast?.all ArithTok.signFollows) (arithWords cc (c :: t)),
      ¬DashedSign cc vars after) (hc : c.isDigit = true ∨ isNameStart c = true) :
    tokenizeArith cc vars (fuel + 1) acc (c :: t) = some out ↔
      ∃ cs, Tokenized cc vars (acc.getLast?.all ArithTok.signFollows) (c :: t) cs ∧ out = acc ++ cs := by
  obtain ⟨tail, rest, hwords, hlen, hcode⟩ := tokenizeArith_operand cc vars t hc
  have htok : arithToken vars (c :: tail) = (arithNum vars (c :: tail)).map ArithTok.num := if_pos hc
  rw [hcode]
  cases hn : arithNum vars (c :: tail) with
  | none =>
    rw [hn] at htok
    refine ⟨by rintro ⟨⟩, ?_⟩
    rintro ⟨cs, hcs, -⟩
    exact absurd hcs (not_tokenized hwords htok)
  | some n =>
    rw [hn] at htok
    have hnone := signTok_of_operand hc
    refine ih.word hfuel hdash hwords htok (by rintro ⟨⟩) ?_ ?_ ?_ (Nat.lt_succ_of_le hlen)
    · intro m hm
      obtain rfl := ArithTok.num.inj hm
      exact fits_of_arithNum hn
    · rw [List.head?_cons, Option.bind_some, hnone]
      rfl
    · intro heq
      obtain ⟨rfl, -⟩ := List.cons.inj heq
      cases hnone

/-- An operator or a parenthesis, or a character that stands for no token. -/
theorem punctuation (ih : TokenizesIn cc vars fuel) (hfuel : (c :: t).length < fuel + 1)
    (hdash : ∀ after ∈ reachedSigns cc vars (acc.getLast?.all ArithTok.signFollows) (arithWords cc (c :: t)),
      ¬DashedSign cc vars after) (hblank : ¬(c = ' ' ∨ c = '\t')) (hc : ¬(c.isDigit = true ∨ isNameStart c = true))
    (hsign : ¬(c = '-' ∧ acc.getLast?.all ArithTok.signFollows = true)) :
    tokenizeArith cc vars (fuel + 1) acc (c :: t) = some out ↔
      ∃ cs, Tokenized cc vars (acc.getLast?.all ArithTok.signFollows) (c :: t) cs ∧ out = acc ++ cs := by
  obtain ⟨hdigit, hname⟩ := not_or.mp hc
  have hwords : arithWords cc (c :: t) = ([c], t) :: arithWords cc t := by
    rw [arithWords, if_neg hblank, if_neg hdigit, if_neg hname]
  cases htok : signTok c with
  | none =>
    rw [tokenizeArith_other hblank (Bool.eq_false_iff.mpr hdigit) (Bool.eq_false_iff.mpr hname) htok]
    refine ⟨by rintro ⟨⟩, ?_⟩
    rintro ⟨cs, hcs, -⟩
    refine absurd hcs (not_tokenized hwords ?_)
    rw [arithToken, if_neg hc, htok]
  | some tok =>
    have hminus : tok = .minus → acc.getLast?.all ArithTok.signFollows = false := by
      rintro rfl
      rw [Bool.eq_false_iff]
      exact fun hstart => hsign ⟨minus_of_signTok htok, hstart⟩
    rw [tokenizeArith_sign htok hminus]
    refine ih.word hfuel hdash hwords ?_ hminus ?_ ?_ ?_ (Nat.lt_succ_self _)
    · rw [arithToken, if_neg hc, htok]
    · rintro n rfl
      exact absurd htok (signTok_ne_num c n)
    · rw [List.head?_cons, Option.bind_some, htok]
      rfl
    · intro heq
      obtain ⟨rfl, -⟩ := List.cons.inj heq
      exact (Option.some.inj htok).symm

end TokenizesIn

theorem tokenizesIn (hnamed : vars.Named) (fuel : Nat) : TokenizesIn cc vars fuel := by
  induction fuel with
  | zero =>
    intro t acc out hfuel
    omega
  | succ fuel ih =>
    intro t acc out hfuel hdash
    cases t with
    | nil =>
      rw [tokenizeArith]
      constructor
      · intro h
        exact ⟨[], tokenized_nil.mpr rfl, by rw [List.append_nil, Option.some.inj h]⟩
      · rintro ⟨cs, hcs, rfl⟩
        rw [tokenized_nil.mp hcs, List.append_nil]
    | cons c t =>
      by_cases hblank : c = ' ' ∨ c = '\t'
      · rw [List.length_cons] at hfuel
        rw [arithWords, if_pos hblank] at hdash
        rw [tokenizeArith, if_pos hblank, ih _ (by omega) hdash]
        simp only [tokenized_blank hblank]
      by_cases hsign : c = '-' ∧ acc.getLast?.all ArithTok.signFollows = true
      · obtain ⟨rfl, hstart⟩ := hsign
        rw [List.length_cons] at hfuel
        rw [hstart] at hdash ⊢
        exact ih.sign hnamed (by omega) hstart hdash
      by_cases hc : c.isDigit = true ∨ isNameStart c = true
      · exact ih.operand hfuel hdash hc
      · exact ih.punctuation hfuel hdash hblank hc hsign

end Tokenized

/-! ### The value of an expression -/

theorem numsFit_of_tokens {ws : List (Text × Text)} {ts : List ArithTok}
    (h : (ws.mapM fun w => arithToken vars w.1) = some ts) : NumsFit ts := by
  induction ws generalizing ts with
  | nil =>
    obtain rfl := Option.some.inj h
    exact nofun
  | cons w ws ih =>
    rw [List.mapM_cons] at h
    obtain ⟨tok, htok, h⟩ := Option.bind_eq_some_iff.mp h
    obtain ⟨ts, hts, h⟩ := Option.bind_eq_some_iff.mp h
    obtain rfl := Option.some.inj h
    refine numsFit_cons.mpr ⟨?_, ih hts⟩
    rintro n rfl
    obtain ⟨_ | ⟨c, t⟩, after⟩ := w
    · cases htok
    · unfold arithToken at htok
      dsimp only at htok
      split_ifs at htok with hc
      · obtain ⟨m, hm, heq⟩ := Option.map_eq_some_iff.mp htok
        obtain rfl := ArithTok.num.inj heq
        exact fits_of_arithNum hm
      · exact absurd htok (signTok_ne_num c n)

/-- Plain signs can be drawn into the numbers after them. -/
theorem exists_signed {t : Text} {start : Bool} {ts : List ArithTok}
    (hplain : ∀ after ∈ signs start (arithWords cc t), PlainSign cc after) (hts : arithTokens cc vars t = some ts) :
    ∃ cs, Signed start ts cs := by
  induction hlen : t.length using Nat.strong_induction_on generalizing t start ts with
  | h n ih =>
    subst hlen
    cases t with
    | nil =>
      unfold arithTokens at hts
      rw [arithWords] at hts
      obtain rfl := Option.some.inj hts
      exact ⟨[], .nil⟩
    | cons c t =>
      have hskip : ∀ {rest : Text}, rest.length ≤ t.length → rest.length < (c :: t).length := Nat.lt_succ_of_le
      by_cases hblank : c = ' ' ∨ c = '\t'
      · unfold arithTokens at hts
        rw [arithWords, if_pos hblank] at hplain hts
        exact ih _ (hskip le_rfl) hplain hts rfl
      · by_cases hc : c.isDigit = true ∨ isNameStart c = true
        · obtain ⟨tail, rest, hwords, hlen, -⟩ := tokenizeArith_operand cc vars t hc
          rw [hwords, signs_operand hc] at hplain
          rw [arithTokens_cons hwords, arithToken, if_pos hc] at hts
          obtain ⟨tok, htok, hts⟩ := Option.bind_eq_some_iff.mp hts
          obtain ⟨n, -, rfl⟩ := Option.map_eq_some_iff.mp htok
          obtain ⟨ts, hrest, rfl⟩ := Option.map_eq_some_iff.mp hts
          obtain ⟨cs, hcs⟩ := ih _ (hskip hlen) hplain hrest rfl
          exact ⟨_, .token nofun hcs⟩
        · obtain ⟨hdigit, hname⟩ := not_or.mp hc
          have hwords : arithWords cc (c :: t) = ([c], t) :: arithWords cc t := by
            rw [arithWords, if_neg hblank, if_neg hdigit, if_neg hname]
          rw [arithTokens_cons hwords, arithToken, if_neg hc] at hts
          obtain ⟨tok, htok, hts⟩ := Option.bind_eq_some_iff.mp hts
          obtain ⟨ts, hrest, rfl⟩ := Option.map_eq_some_iff.mp hts
          by_cases hsign : start = true ∧ c = '-'
          · obtain ⟨rfl, rfl⟩ := hsign
            obtain rfl := Option.some.inj htok
            rw [signs_dash] at hplain
            obtain ⟨w, rest, hw, hlen, ⟨d, tail, rfl, hd⟩, -⟩ :=
              readOperand_of_plainSign vars (hplain t List.mem_cons_self)
            rw [hw, signs_operand hd] at hplain
            rw [arithTokens_cons hw, arithToken, if_pos hd] at hrest
            obtain ⟨tok, hnum, htail⟩ := Option.bind_eq_some_iff.mp hrest
            obtain ⟨n, -, rfl⟩ := Option.map_eq_some_iff.mp hnum
            obtain ⟨ts, hafter, rfl⟩ := Option.map_eq_some_iff.mp htail
            obtain ⟨cs, hcs⟩ := ih _ (hskip hlen.le) (List.forall_mem_cons.mp hplain).2 hafter rfl
            exact ⟨_, .sign hcs⟩
          · rw [hwords, signs, if_neg fun h => hsign ⟨h.1, List.singleton_inj.mp h.2⟩, List.head?_cons,
              Option.bind_some, htok] at hplain
            obtain ⟨cs, hcs⟩ := ih _ (hskip le_rfl) hplain hrest rfl
            refine ⟨_, .token ?_ hcs⟩
            rintro rfl
            rw [Bool.eq_false_iff]
            exact fun hstart => hsign ⟨hstart, minus_of_signTok htok⟩

variable (cc vars) in
/-- The text is arithmetic, and this is what it spells. -/
def IsArith (t : Text) (e : ArithExpr) : Prop := ∃ ts, arithTokens cc vars t = some ts ∧ Derives .expr ts e

variable (cc vars) in
/-- No sign that the tokenizer comes to stands before a bound name with a dash. -/
def NoDashedSign (t : Text) : Prop :=
  ∀ after ∈ reachedSigns cc vars true (arithWords cc t), ¬DashedSign cc vars after

variable (cc vars) in
/-- A sign stands before a parenthesis, another sign or a tab, in an expression that has a
value. -/
def SignAstray (t : Text) : Prop :=
  (∃ e v, IsArith cc vars t e ∧ e.value = some v) ∧ ∃ after ∈ signs true (arithWords cc t), ¬PlainSign cc after

variable (cc vars) in
/-- The signs stand before numbers that fit with them, and the tokens are cut short. -/
def ReadShort (t : Text) : Prop :=
  (∀ after ∈ signs true (arithWords cc t), PlainSign cc after) ∧
    ∃ ts cs, arithTokens cc vars t = some ts ∧ Signed true ts cs ∧ NumsFit cs ∧ CutShort ts

variable (cc vars) in
/-- Arithmetic has its value wherever each value inside it is a number of 64 bits, and what is
neither arithmetic nor a conditional nor the name of a variable does not become a number. -/
def ArithmeticExact (expr : Text) : Prop :=
  (∀ e v, IsArith cc vars (trimText expr) e → e.value = some v → evalExpr cc vars expr = (toString v).toList) ∧
    ((∀ e, ¬IsArith cc vars (trimText expr) e) → evalTernary vars (trimText expr) = none →
      vars.get (trimText expr) = none → ∀ n : Int, evalExpr cc vars expr ≠ (toString n).toList)

theorem evalArith_eq_some (hnamed : vars.Named) {t : Text} (hdash : NoDashedSign cc vars t) {v : Int} :
    evalArith cc vars t = some v ↔
      (∀ after ∈ signs true (arithWords cc t), PlainSign cc after) ∧ ∃ ts cs, arithTokens cc vars t = some ts ∧
        Signed true ts cs ∧ NumsFit cs ∧ ∃ p r k e, ts = p ++ r ∧ Derives .expr (p ++ .replicate k .rParen) e ∧
          e.value = some v ∧ Stops k r := by
  have hbind : evalArith cc vars t = (tokenizeArith cc vars (t.length + 1) [] t).bind fun cs =>
      (parseArith (3 * cs.length + 3) .expr cs).map Prod.fst := by
    unfold evalArith
    cases tokenizeArith cc vars (t.length + 1) [] t with
    | none => rfl
    | some cs => cases cs <;> rfl
  rw [hbind, Option.bind_eq_some_iff]
  simp only [tokenizesIn hnamed (t.length + 1) [] (Nat.lt_succ_self _) hdash]
  constructor
  · rintro ⟨_, ⟨cs, ⟨hplain, ts, hts, hsigned, hcs⟩, heq⟩, hparse⟩
    rw [heq, List.nil_append] at hparse
    exact ⟨hplain, ts, cs, hts, hsigned, hcs, (parseArith_eq_some hsigned (numsFit_of_tokens hts) hcs).mp hparse⟩
  · rintro ⟨hplain, ts, cs, hts, hsigned, hcs, hparse⟩
    exact ⟨cs, ⟨cs, ⟨hplain, ts, hts, hsigned, hcs⟩, rfl⟩,
      (parseArith_eq_some hsigned (numsFit_of_tokens hts) hcs).mpr hparse⟩

theorem question_notMem {t : Text} {ts : List ArithTok} (h : arithTokens cc vars t = some ts) : '?' ∉ t := by
  induction hlen : t.length using Nat.strong_induction_on generalizing t ts with
  | h n ih =>
    subst hlen
    cases t with
    | nil => exact List.not_mem_nil
    | cons c t =>
      have htail : ∀ p : Char → Bool, p '?' = false → '?' ∉ t.dropWhile p → '?' ∉ t := by
        intro p hp hdrop hmem
        rw [← List.takeWhile_append_dropWhile (p := p) (l := t)] at hmem
        rcases List.mem_append.mp hmem with hmem | hmem
        · rw [List.mem_takeWhile_imp hmem] at hp
          cases hp
        · exact hdrop hmem
      have hword : ∀ {w rest : Text}, arithWords cc (c :: t) = (w, rest) :: arithWords cc rest → rest.length ≤ t.length →
          '?' ∉ rest := by
        intro w rest hwords hlen
        rw [arithTokens_cons hwords] at h
        obtain ⟨tok, -, h⟩ := Option.bind_eq_some_iff.mp h
        obtain ⟨ts, hts, -⟩ := Option.map_eq_some_iff.mp h
        exact ih _ (Nat.lt_succ_of_le hlen) hts rfl
      refine List.not_mem_cons_of_ne_of_not_mem ?_ ?_
      · rintro rfl
        have hwords : arithWords cc ('?' :: t) = (['?'], t) :: arithWords cc t := by
          rw [arithWords, if_neg (by decide), if_neg (by decide), if_neg (by decide)]
        rw [arithTokens_cons hwords] at h
        cases h
      · by_cases hblank : c = ' ' ∨ c = '\t'
        · unfold arithTokens at h
          rw [arithWords, if_pos hblank] at h
          exact ih _ (Nat.lt_succ_self _) h rfl
        · by_cases hdigit : c.isDigit = true
          · refine htail Char.isDigit rfl (hword (w := c :: t.takeWhile Char.isDigit) ?_ (List.dropWhile_suffix _).length_le)
            rw [arithWords, if_neg hblank, if_pos hdigit]
          · by_cases hname : isNameStart c = true
            · have hquestion : isNameChar cc '?' = false := by
                unfold isNameChar
                rw [cc.alphanumeric_ascii '?' (by decide)]
                decide
              refine htail _ hquestion (hword (w := c :: t.takeWhile (isNameChar cc)) ?_ (List.dropWhile_suffix _).length_le)
              rw [arithWords, if_neg hblank, if_neg hdigit, if_pos hname]
            · refine hword (w := [c]) ?_ le_rfl
              rw [arithWords, if_neg hblank, if_neg hdigit, if_neg hname]

/-- The name of a variable that is arithmetic is one number. -/
theorem tokens_of_bound (hnamed : vars.Named) {x v : Text} (hv : vars.get x = some v) {ts : List ArithTok}
    (hts : arithTokens cc vars x = some ts) : signs true (arithWords cc x) = [] ∧ ∃ n, ts = [.num n] := by
  rcases hnamed x v hv with hx | ⟨r, rfl⟩
  · obtain ⟨c, hc, hstart⟩ := hx.start
    obtain ⟨t, rfl⟩ := List.head?_eq_some_iff.mp hc
    have hall : ∀ d ∈ t, isNameChar cc d = true := fun d hd => isNameChar_of_ascii (hx.chars d (List.mem_cons_of_mem _ hd))
    have hblank : ¬(c = ' ' ∨ c = '\t') := by
      rintro (rfl | rfl) <;> cases hstart
    have hwords : arithWords cc (c :: t) = (c :: t, []) :: arithWords cc [] := by
      conv_lhs => rw [arithWords, if_neg hblank, if_neg (by rw [isDigit_of_isNameStart hstart]; decide), if_pos hstart,
        List.takeWhile_eq_self_iff.mpr hall, List.dropWhile_eq_nil_iff.mpr hall]
    rw [arithTokens_cons hwords, arithToken, if_pos (.inr hstart)] at hts
    obtain ⟨tok, htok, hts⟩ := Option.bind_eq_some_iff.mp hts
    obtain ⟨n, -, rfl⟩ := Option.map_eq_some_iff.mp htok
    obtain ⟨ts, hnil, rfl⟩ := Option.map_eq_some_iff.mp hts
    have hend : arithWords cc [] = [] := by rw [arithWords]
    unfold arithTokens at hnil
    rw [hend] at hnil
    obtain rfl := Option.some.inj hnil
    rw [hwords, signs_operand (.inr hstart), hend]
    exact ⟨rfl, n, rfl⟩
  · have hwords : arithWords cc (siteNode ++ r) = (['@'], siteNode.tail ++ r) :: arithWords cc (siteNode.tail ++ r) := by
      have hcons : siteNode ++ r = '@' :: (siteNode.tail ++ r) := rfl
      rw [hcons, arithWords, if_neg (by decide), if_neg (by decide), if_neg (by decide)]
    rw [arithTokens_cons hwords] at hts
    cases hts

theorem evalTernary_of_tokens {t : Text} {ts : List ArithTok} (h : arithTokens cc vars t = some ts) :
    evalTernary vars t = none := by
  unfold evalTernary
  rw [splitUnquoted_of_notMem (question_notMem h)]
  rfl

theorem evalExpr_of_arith {expr : Text} {v : Int} (hternary : evalTernary vars (trimText expr) = none)
    (h : evalArith cc vars (trimText expr) = some v) : evalExpr cc vars expr = (toString v).toList := by
  unfold evalExpr evalExpr?
  dsimp only
  rw [hternary, h]
  rfl

theorem head_toString (n : Int) : (toString n).toList.head? ≠ some '$' := by
  intro h
  have hmem := List.mem_of_mem_head? (Option.mem_def.mpr h)
  cases n with
  | ofNat n => exact notMem_toString (c := '$') rfl n hmem
  | negSucc n =>
    have hcons : (toString (Int.negSucc n)).toList = '-' :: (toString (n + 1)).toList := by
      rw [show toString (Int.negSucc n) = "-" ++ toString (n + 1) from rfl, String.toList_append]
      rfl
    rw [hcons] at h
    cases h

/-- A text without a value stays an expression. -/
theorem evalExpr_ne_toString {expr : Text} (hternary : evalTernary vars (trimText expr) = none)
    (harith : evalArith cc vars (trimText expr) = none) (hvar : vars.get (trimText expr) = none) (n : Int) :
    evalExpr cc vars expr ≠ (toString n).toList := by
  intro h
  refine head_toString n ?_
  rw [← h]
  unfold evalExpr evalExpr?
  dsimp only
  rw [hternary, harith, hvar]
  cases hsite : evalSiteNode vars (trimText expr) with
  | none => rfl
  | some w =>
    unfold evalSiteNode at hsite
    obtain ⟨⟨node, rest⟩, -, hsite⟩ := Option.bind_eq_some_iff.mp hsite
    obtain ⟨full, -, hsite⟩ := Option.bind_eq_some_iff.mp hsite
    obtain rfl := Option.some.inj hsite
    rfl

/-- An expression is evaluated as its grammar says, unless a sign in it stands before another
thing than an operand, or it is evaluated up to the first place where it stops being one. -/
theorem evalExpr_exact_iff (cc : CharClass) {vars : Vars} (hnamed : vars.Named) {expr : Text}
    (hdash : NoDashedSign cc vars (trimText expr)) :
    ArithmeticExact cc vars expr ↔ ¬SignAstray cc vars (trimText expr) ∧ ¬ReadShort cc vars (trimText expr) := by
  constructor
  · rintro ⟨hvalue, hother⟩
    constructor
    · rintro ⟨⟨e, v, ⟨ts, hts, he⟩, hv⟩, after, hafter, hplain⟩
      have harith : evalArith cc vars (trimText expr) = none := by
        rw [Option.eq_none_iff_forall_ne_some]
        intro n hn
        exact hplain (((evalArith_eq_some hnamed hdash).mp hn).1 after hafter)
      have hvar : vars.get (trimText expr) = none := by
        rw [Option.eq_none_iff_forall_ne_some]
        intro w hw
        rw [(tokens_of_bound hnamed hw hts).1] at hafter
        exact List.not_mem_nil hafter
      exact evalExpr_ne_toString (evalTernary_of_tokens hts) harith hvar v (hvalue e v ⟨ts, hts, he⟩ hv)
    · rintro ⟨hplain, ts, cs, hts, hsigned, hfits, hshort⟩
      have hnot : ∀ e, ¬IsArith cc vars (trimText expr) e := by
        rintro e ⟨ts', hts', he⟩
        obtain rfl := Option.some.inj (hts.symm.trans hts')
        exact not_cutShort he hshort
      have hvar : vars.get (trimText expr) = none := by
        rw [Option.eq_none_iff_forall_ne_some]
        intro w hw
        obtain ⟨-, n, rfl⟩ := tokens_of_bound hnamed hw hts
        exact hnot _ ⟨_, hts, .term (.factor (.num n))⟩
      obtain ⟨p, r, k, e, v, hsplit, he, hv, hstop, -⟩ := hshort
      have harith : evalArith cc vars (trimText expr) = some v :=
        (evalArith_eq_some hnamed hdash).mpr ⟨hplain, ts, cs, hts, hsigned, hfits, p, r, k, e, hsplit, he, hv, hstop⟩
      have hternary := evalTernary_of_tokens hts
      exact hother hnot hternary hvar v (evalExpr_of_arith hternary harith)
  · rintro ⟨hastray, hshort⟩
    constructor
    · rintro e v ⟨ts, hts, he⟩ hv
      have hplain : ∀ after ∈ signs true (arithWords cc (trimText expr)), PlainSign cc after := by
        intro after hafter
        by_contra hnot
        exact hastray ⟨⟨e, v, ⟨ts, hts, he⟩, hv⟩, after, hafter, hnot⟩
      obtain ⟨cs, hsigned⟩ := exists_signed hplain hts
      have hfits := numsFit_of_derives hsigned (numsFit_of_tokens hts) he hv
      refine evalExpr_of_arith (evalTernary_of_tokens hts) ((evalArith_eq_some hnamed hdash).mpr
        ⟨hplain, ts, cs, hts, hsigned, hfits, ts, [], 0, e, (List.append_nil ts).symm, ?_, hv, nofun⟩)
      rwa [List.replicate_zero, List.append_nil]
    · intro hnot hternary hvar n
      refine evalExpr_ne_toString hternary ?_ hvar n
      rw [Option.eq_none_iff_forall_ne_some]
      intro v hv
      obtain ⟨hplain, ts, cs, hts, hsigned, hfits, p, r, k, e, rfl, he, hev, hstop⟩ :=
        (evalArith_eq_some hnamed hdash).mp hv
      refine hshort ⟨hplain, p ++ r, cs, hts, hsigned, hfits, p, r, k, e, v, rfl, he, hev, hstop, ?_⟩
      by_contra hwhole
      obtain ⟨hk, hr⟩ := not_or.mp hwhole
      obtain rfl := not_not.mp hk
      obtain rfl := not_not.mp hr
      rw [List.replicate_zero] at he
      exact hnot e ⟨_, hts, he⟩

end Tokenize

theorem named_empty : Vars.Named ∅ := by
  intro x v hv
  obtain ⟨value, hvalue, -⟩ := Option.map_eq_some_iff.mp hv
  simp at hvalue

theorem named_insert {vars : Vars} (hnamed : vars.Named) {x : String} (hx : IsName x.toList) (v : String) :
    Vars.Named (vars.insert x v) := by
  intro y w hw
  obtain ⟨value, hvalue, rfl⟩ := Option.map_eq_some_iff.mp hw
  by_cases hxy : x = String.ofList y
  · rw [hxy, String.toList_ofList] at hx
    exact .inl hx
  · rw [Std.ExtTreeMap.getElem?_insert, if_neg (by rwa [Std.LawfulEqCmp.compare_eq_iff_eq])] at hvalue
    exact hnamed y _ (Option.map_eq_some_iff.mpr ⟨value, hvalue, rfl⟩)

/-- A sign before a name; and one before a name with dashes that the tokenizer does not come to. -/
theorem evalExpr_exact_signed :
    reachedSigns .ascii ((∅ : Vars).insert "a" "3") true (arithWords .ascii (trimText "2 * -a".toList)) = [['a']] ∧
    (ArithmeticExact .ascii ((∅ : Vars).insert "a" "3") "2 * -a".toList ↔
      ¬SignAstray .ascii ((∅ : Vars).insert "a" "3") (trimText "2 * -a".toList) ∧
        ¬ReadShort .ascii ((∅ : Vars).insert "a" "3") (trimText "2 * -a".toList)) ∧
    (ArithmeticExact .ascii ∅ "foo + -a-b".toList ↔
      ¬SignAstray .ascii ∅ (trimText "foo + -a-b".toList) ∧ ¬ReadShort .ascii ∅ (trimText "foo + -a-b".toList)) := by
  have hname : IsName ['a'] := ⟨⟨'a', rfl, rfl⟩, fun c hc => .inl (List.mem_singleton.mp hc ▸ rfl)⟩
  have hnamed : Vars.Named ((∅ : Vars).insert "a" "3") := named_insert named_empty (show IsName "a".toList from hname) "3"
  have hreached : reachedSigns .ascii ((∅ : Vars).insert "a" "3") true
      (arithWords .ascii (trimText "2 * -a".toList)) = [['a']] := by decide +kernel
  refine ⟨hreached, evalExpr_exact_iff .ascii hnamed ?_,
    evalExpr_exact_iff .ascii named_empty ?_⟩
  · intro after hafter
    rw [hreached, List.mem_singleton] at hafter
    rintro ⟨c, t, hdrop, -, hdash, -⟩
    rw [hafter] at hdrop
    obtain ⟨rfl, rfl⟩ := List.cons.inj hdrop
    exact absurd hdash List.not_mem_nil
  · have hnone : reachedSigns .ascii ∅ true (arithWords .ascii (trimText "foo + -a-b".toList)) = [] := by
      decide +kernel
    intro after hafter
    rw [hnone] at hafter
    exact absurd hafter List.not_mem_nil

/-- Of two numbers side by side the first is the value, and a sign before a parenthesis gives
none. -/
theorem arithmetic_not_exact : ¬ArithmeticExact .ascii ∅ "1 2".toList ∧ ¬ArithmeticExact .ascii ∅ "-(1 + 2)".toList := by
  constructor
  · rintro ⟨-, hother⟩
    have htokens : arithTokens .ascii ∅ (trimText "1 2".toList) = some [.num 1, .num 2] := by decide +kernel
    refine hother ?_ (by decide +kernel) (by decide +kernel) 1 (by decide +kernel)
    rintro e ⟨ts, hts, he⟩
    obtain rfl := Option.some.inj (htokens.symm.trans hts)
    exact absurd ((List.isChain_cons_cons.mp he.adjacent).1.1 rfl) nofun
  · rintro ⟨hvalue, -⟩
    have htokens : arithTokens .ascii ∅ (trimText "-(1 + 2)".toList) =
        some [.minus, .lParen, .num 1, .plus, .num 2, .rParen] := by decide +kernel
    have hsum : Derives .expr [.num 1, .plus, .num 2] (.bin .add (.num 1) (.num 2)) :=
      @Derives.sum .add [.num 1] [.num 2] _ _ rfl (.term (.factor (.num 1))) (.factor (.num 2))
    have hexpr : evalExpr .ascii ∅ "-(1 + 2)".toList ≠ (toString (-3 : Int)).toList := by decide +kernel
    exact hexpr (hvalue _ (-3) ⟨_, htokens, .term (.factor (.neg (.group hsum)))⟩ (by decide +kernel))

end NlinkLab.Lower
