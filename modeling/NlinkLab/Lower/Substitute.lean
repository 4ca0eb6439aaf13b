import NlinkLab.Lower.Interpolate

/-! What an interpolated text is: the template with each expression that is the name of a
variable replaced by the variable's text, and what does not evaluate left as it is written.
A pass makes such a text, and where nothing in it evaluates any more `interpolate` gives
that text and leaves it as it is. A number written in another way than arithmetic writes
it is left open: arithmetic comes before the lookup of a name and writes it anew. -/

namespace NlinkLab.Lower

open Braces

/-- The names that a template can bind. -/
structure IsName (x : Text) : Prop where
  start : ∃ c ∈ x.head?, isNameStart c
  chars : ∀ c ∈ x, isAsciiAlphanumeric c ∨ c = '_' ∨ c = '.' ∨ c = '-'

/-- The text is a number, but not as arithmetic writes it. -/
def Respelled (v : Text) : Prop := ∃ n, parseI64 v = some n ∧ (toString n).toList ≠ v

section Spec

variable (cc : CharClass) (vars : Vars)

/-- The expression has no value, or is its own. -/
def Unevaluated (expr : Text) : Prop := ∀ w, evalExpr? cc vars expr = some w → w = unresolved expr

/-- The texts of a template: what is outside expressions and what is not terminated is
copied, an expression is replaced after those inside it. -/
inductive Substitutes : Text → Text → Prop
  | nil : Substitutes [] []
  | text {c : Char} {t r : Text} : ¬opening <+: c :: t → Substitutes t r → Substitutes (c :: t) (c :: r)
  | unterminated {t : Text} : (∀ e after, t = e ++ '\x7d' :: after → ¬Balanced '\x7b' '\x7d' e) →
      Substitutes (opening ++ t) (opening ++ t)
  | name {e e' t r v w : Text} : Balanced '\x7b' '\x7d' e → Substitutes e e' → IsName (trimText e') →
      vars.get (trimText e') = some v → w = v ∨ Respelled v → Substitutes t r →
      Substitutes (opening ++ (e ++ '\x7d' :: t)) (w ++ r)
  | value {e e' t r w : Text} : Balanced '\x7b' '\x7d' e → Substitutes e e' →
      ¬(IsName (trimText e') ∧ (vars.get (trimText e')).isSome) → evalExpr? cc vars (trimText e') = some w →
      w ≠ unresolved (trimText e') → Substitutes t r → Substitutes (opening ++ (e ++ '\x7d' :: t)) (w ++ r)
  | unevaluated {e e' t r : Text} : Balanced '\x7b' '\x7d' e → Substitutes e e' → Unevaluated cc vars (trimText e') →
      Substitutes t r → Substitutes (opening ++ (e ++ '\x7d' :: t)) (unresolved e' ++ r)

/-- No expression of the text evaluates. -/
inductive Settled : Text → Prop
  | nil : Settled []
  | text {c : Char} {t : Text} : ¬opening <+: c :: t → Settled t → Settled (c :: t)
  | unterminated {t : Text} : (∀ e after, t = e ++ '\x7d' :: after → ¬Balanced '\x7b' '\x7d' e) → Settled (opening ++ t)
  | unevaluated {e t : Text} : Balanced '\x7b' '\x7d' e → Settled e → Unevaluated cc vars (trimText e) → Settled t →
      Settled (opening ++ (e ++ '\x7d' :: t))

end Spec

/-! ### One pass -/

variable {cc : CharClass} {vars : Vars}

theorem takeClosed_brace {e t : Text} (h : Balanced '\x7b' '\x7d' e) :
    takeClosed '\x7b' '\x7d' 0 (e ++ '\x7d' :: t) = some (e, t) := (takeClosed_eq_some (by decide)).mpr ⟨rfl, h⟩

theorem takeClosed_unterminated {t : Text}
    (h : ∀ e after, t = e ++ '\x7d' :: after → ¬Balanced '\x7b' '\x7d' e) : takeClosed '\x7b' '\x7d' 0 t = none := by
  by_contra hsome
  obtain ⟨⟨e, after⟩, heq⟩ := Option.ne_none_iff_exists'.mp hsome
  obtain ⟨rfl, hbalanced⟩ := (takeClosed_eq_some (by decide)).mp heq
  exact h e after rfl hbalanced

theorem once_text {c : Char} {t : Text} (h : ¬opening <+: c :: t) :
    interpolateOnce cc vars (c :: t) = c :: interpolateOnce cc vars t := by
  rw [interpolateOnce, if_neg h]

theorem once_unterminated {t : Text} (h : takeClosed '\x7b' '\x7d' 0 t = none) :
    interpolateOnce cc vars (opening ++ t) = opening ++ t := by
  have hopen : opening <+: '$' :: '\x7b' :: t := List.prefix_append opening t
  show interpolateOnce cc vars ('$' :: '\x7b' :: t) = _
  rw [interpolateOnce, if_pos hopen]
  split
  · rfl
  · rename_i expr after heq
    cases h.symm.trans heq

/-- A text without an expression is copied. -/
theorem once_of_not_infix {t : Text} (h : ¬opening <:+: t) : interpolateOnce cc vars t = t := by
  induction t with
  | nil => rw [interpolateOnce]
  | cons c t ih =>
    rw [once_text fun hpre => h hpre.isInfix, ih fun hwithin => h (hwithin.trans (List.suffix_cons c t).isInfix)]

/-- What a pass puts for an expression, when what is inside it is resolved. -/
def replacement (cc : CharClass) (vars : Vars) (e : Text) : Text :=
  if evalExpr cc vars e = unresolved (trimText e) then unresolved e else evalExpr cc vars e

theorem once_closed {e t : Text} (h : Balanced '\x7b' '\x7d' e) :
    interpolateOnce cc vars (opening ++ (e ++ '\x7d' :: t)) =
      replacement cc vars (interpolateOnce cc vars e) ++ interpolateOnce cc vars t := by
  have hresolved : (if opening <:+: e then interpolateOnce cc vars e else e) = interpolateOnce cc vars e := by
    split_ifs with hinfix
    · rfl
    · exact ( once_of_not_infix hinfix).symm
  have hopen : opening <+: '$' :: '\x7b' :: (e ++ '\x7d' :: t) := List.prefix_append opening _
  show interpolateOnce cc vars ('$' :: '\x7b' :: (e ++ '\x7d' :: t)) = _
  rw [interpolateOnce, if_pos hopen]
  split
  · rename_i heq
    cases (takeClosed_brace h).symm.trans heq
  · rename_i expr after heq
    obtain ⟨rfl, rfl⟩ := Prod.mk.inj (Option.some.inj ((takeClosed_brace h).symm.trans heq))
    show replacement cc vars (if opening <:+: e then interpolateOnce cc vars e else e) ++ _ = _
    rw [hresolved]

/-! ### Names -/

theorem splitUnquoted_of_notMem {ch : Char} {quoted : Bool} {t : Text} (h : ch ∉ t) :
    splitUnquoted ch quoted t = none := by
  induction t generalizing quoted with
  | nil => rfl
  | cons c t ih =>
    have hc : c ≠ ch := fun heq => h (heq ▸ List.mem_cons_self)
    have ht : ch ∉ t := fun hmem => h (List.mem_cons_of_mem _ hmem)
    unfold splitUnquoted
    split_ifs with hquote hcut
    · rw [ih ht]
      rfl
    · exact absurd hcut.1 hc
    · rw [ih ht]
      rfl

theorem toNat_of_isAsciiAlphanumeric {c : Char} (h : isAsciiAlphanumeric c = true) : c.toNat < 128 := by
  have hle : ∀ d : Char, c ≤ d → c.toNat ≤ d.toNat := fun d hcd => UInt32.le_iff_toNat_le.mp hcd
  rcases of_decide_eq_true h with ⟨-, h⟩ | ⟨-, h⟩ | ⟨-, h⟩
  all_goals exact (hle _ h).trans_lt (by decide)

theorem isNameChar_of_ascii {c : Char} (h : isAsciiAlphanumeric c ∨ c = '_' ∨ c = '.' ∨ c = '-') :
    isNameChar cc c = true := by
  refine decide_eq_true (h.imp_left fun hc => ?_)
  rw [cc.alphanumeric_ascii c (toNat_of_isAsciiAlphanumeric hc)]
  exact hc

theorem isDigit_of_isNameStart {c : Char} (h : isNameStart c = true) : c.isDigit = false := by
  rw [Bool.eq_false_iff]
  intro hdigit
  have hle := (Char.isDigit_iff_toNat.mp hdigit).2
  rcases of_decide_eq_true h with ⟨h, -⟩ | ⟨h, -⟩ | rfl
  · exact absurd ((UInt32.le_iff_toNat_le.mp h).trans hle) (by decide)
  · exact absurd ((UInt32.le_iff_toNat_le.mp h).trans hle) (by decide)
  · exact absurd hle (by decide)

/-- The token of a name. -/
theorem tokenizeArith_of_name {c : Char} {t v : Text} (hx : IsName (c :: t)) (hv : vars.get (c :: t) = some v)
    (fuel : Nat) :
    tokenizeArith cc vars (fuel + 2) [] (c :: t) = (parseI64 v).map fun n => [.num n] := by
  obtain ⟨_, hhead, hstart⟩ := hx.start
  obtain rfl := Option.some.inj hhead
  have hne : ∀ d, isNameStart d = false → c ≠ d := by
    rintro d hd rfl
    rw [hstart] at hd
    cases hd
  have hall : ∀ d ∈ c :: t, isNameChar cc d = true := fun d hd => isNameChar_of_ascii (hx.chars d hd)
  have hspan : (c :: t).span (isNameChar cc) = (c :: t, []) := by
    rw [List.span_eq_takeWhile_dropWhile, List.takeWhile_eq_self_iff.mpr hall, List.dropWhile_eq_nil_iff.mpr hall]
  have hblank : ¬(c = ' ' ∨ c = '\t') := fun h => h.elim (hne _ (by decide)) (hne _ (by decide))
  rw [tokenizeArith, if_neg hblank, if_neg (hne _ (by decide)), if_neg (hne _ (by decide)), if_neg (hne _ (by decide)),
    if_neg (hne _ (by decide)), if_neg (hne _ (by decide)), if_neg (hne _ (by decide)), if_neg (hne _ (by decide)),
    if_neg (by rw [isDigit_of_isNameStart hstart]; exact Bool.false_ne_true), if_pos hstart, hspan]
  dsimp only
  rw [hv, Option.bind_some]
  cases parseI64 v <;> rfl

/-- A name is one token, its number. -/
theorem evalArith_of_name {x v : Text} (hx : IsName x) (hv : vars.get x = some v) :
    evalArith cc vars x = parseI64 v := by
  cases x with
  | nil => exact absurd hx.start (by rintro ⟨_, h, -⟩; cases h)
  | cons c t =>
    have htokens : tokenizeArith cc vars (t.length + 2) [] (c :: t) = (parseI64 v).map fun n => [.num n] :=
      tokenizeArith_of_name hx hv t.length
    unfold evalArith
    rw [List.length_cons, htokens]
    cases parseI64 v <;> rfl

theorem evalExpr?_of_name {x v : Text} (hx : IsName x) (hv : vars.get x = some v) :
    evalExpr? cc vars x = some v ∨ Respelled v := by
  have hquestion : '?' ∉ x := fun hmem => absurd (hx.chars _ hmem) (by decide)
  have hternary : evalTernary vars x = none := by
    unfold evalTernary
    rw [splitUnquoted_of_notMem hquestion]
    rfl
  unfold evalExpr?
  rw [hternary, evalArith_of_name hx hv, hv]
  cases hn : parseI64 v with
  | none => exact .inl rfl
  | some n =>
    by_cases hspelled : (toString n).toList = v
    · exact .inl (congrArg some hspelled)
    · exact .inr ⟨n, hn, hspelled⟩

/-! ### What a pass makes -/

/-- The replacement of an expression that has another text as its value. -/
theorem replacement_of_value {e w : Text} (h : evalExpr? cc vars (trimText e) = some w)
    (hne : w ≠ unresolved (trimText e)) : replacement cc vars e = w := by
  have hvalue : evalExpr cc vars e = w := by
    unfold evalExpr
    dsimp only
    rw [h]
    rfl
  rw [replacement, hvalue, if_neg hne]

theorem replacement_of_unevaluated {e : Text} (h : Unevaluated cc vars (trimText e)) :
    replacement cc vars e = unresolved e := by
  refine if_pos ?_
  unfold evalExpr
  dsimp only
  cases hvalue : evalExpr? cc vars (trimText e) with
  | none => rfl
  | some w => exact h w hvalue

/-- A pass makes a text of the template, with the variables' own texts for their names. -/
theorem substitutes_once (hvars : ∀ x v, vars.get x = some v → ¬opening <:+: v) (t : Text) :
    Substitutes cc vars t (interpolateOnce cc vars t) := by
  -- induction on the length: an expression and what follows it are both shorter
  induction hn : t.length using Nat.strong_induction_on generalizing t with
  | h n ih =>
    subst hn
    cases t with
    | nil =>
      rw [interpolateOnce]
      exact .nil
    | cons c t =>
      by_cases hopen : opening <+: c :: t
      · obtain ⟨rest, hrest⟩ := hopen
        rw [← hrest] at ih ⊢
        cases hclosed : takeClosed '\x7b' '\x7d' 0 rest with
        | none =>
          rw [once_unterminated hclosed]
          refine .unterminated fun e after heq hbalanced => ?_
          rw [heq, takeClosed_brace hbalanced] at hclosed
          cases hclosed
        | some p =>
          obtain ⟨e, after⟩ := p
          obtain ⟨rfl, hbalanced⟩ := (takeClosed_eq_some (by decide)).mp hclosed
          have hinner := ih e.length (by simp; omega) e rfl
          have hafter := ih after.length (by simp; omega) after rfl
          rw [once_closed hbalanced]
          generalize interpolateOnce cc vars e = e' at hinner ⊢
          by_cases hname : IsName (trimText e') ∧ (vars.get (trimText e')).isSome
          · obtain ⟨v, hv⟩ := Option.isSome_iff_exists.mp hname.2
            refine .name hbalanced hinner hname.1 hv ?_ hafter
            refine (@evalExpr?_of_name cc vars _ _ hname.1 hv).imp_left fun hvalue =>
              replacement_of_value hvalue fun heq => ?_
            rw [heq] at hv
            exact hvars _ _ hv ⟨[], trimText e' ++ ['\x7d'], by simp [unresolved]⟩
          · by_cases hvalue : Unevaluated cc vars (trimText e')
            · rw [replacement_of_unevaluated hvalue]
              exact .unevaluated hbalanced hinner hvalue hafter
            · unfold Unevaluated at hvalue
              push Not at hvalue
              obtain ⟨w, hw, hne⟩ := hvalue
              rw [replacement_of_value hw hne]
              exact .value hbalanced hinner hname hw hne hafter
      · rw [once_text hopen]
        exact .text hopen (ih t.length (Nat.lt_succ_self _) t rfl)

/-! ### One text only -/

/-- What stands for an expression, when what is inside it is replaced. -/
inductive Replaces (cc : CharClass) (vars : Vars) (e : Text) : Text → Prop
  | name {v w : Text} : IsName (trimText e) → vars.get (trimText e) = some v → w = v ∨ Respelled v → Replaces cc vars e w
  | value {w : Text} : ¬(IsName (trimText e) ∧ (vars.get (trimText e)).isSome) → evalExpr? cc vars (trimText e) = some w →
      w ≠ unresolved (trimText e) → Replaces cc vars e w
  | unevaluated : Unevaluated cc vars (trimText e) → Replaces cc vars e (unresolved e)

theorem Substitutes.of_nil {r : Text} (h : Substitutes cc vars [] r) : r = [] := by
  generalize hs : [] = s at h
  cases h with
  | nil => rfl
  | text => cases hs
  | unterminated | name | value | unevaluated => cases hs

theorem Substitutes.of_text {c : Char} {t r : Text} (hopen : ¬opening <+: c :: t) (h : Substitutes cc vars (c :: t) r) :
    ∃ r', r = c :: r' ∧ Substitutes cc vars t r' := by
  generalize hs : c :: t = s at h
  cases h with
  | nil => cases hs
  | text _ ht =>
    cases hs
    exact ⟨_, rfl, ht⟩
  | unterminated | name | value | unevaluated => exact absurd (hs ▸ List.prefix_append ..) hopen

theorem opening_append_inj {s t : Text} (h : opening ++ s = opening ++ t) : s = t := List.append_cancel_left h

theorem Substitutes.of_unterminated {t r : Text}
    (hnone : ∀ e after, t = e ++ '\x7d' :: after → ¬Balanced '\x7b' '\x7d' e) (h : Substitutes cc vars (opening ++ t) r) :
    r = opening ++ t := by
  generalize hs : opening ++ t = s at h
  cases h with
  | nil => cases hs
  | text hopen => exact absurd (hs ▸ List.prefix_append ..) hopen
  | unterminated => rfl
  | name hbalanced | value hbalanced | unevaluated hbalanced =>
    exact absurd hbalanced (hnone _ _ (opening_append_inj hs))

theorem Substitutes.of_closed {e t r : Text} (hbalanced : Balanced '\x7b' '\x7d' e)
    (h : Substitutes cc vars (opening ++ (e ++ '\x7d' :: t)) r) :
    ∃ e' w r', r = w ++ r' ∧ Substitutes cc vars e e' ∧ Replaces cc vars e' w ∧ Substitutes cc vars t r' := by
  have hsame : ∀ {e₁ t₁ : Text}, Balanced '\x7b' '\x7d' e₁ → e ++ '\x7d' :: t = e₁ ++ '\x7d' :: t₁ → e = e₁ ∧ t = t₁ := by
    intro e₁ t₁ h₁ heq
    have hclosed := takeClosed_brace (t := t) hbalanced
    rw [heq, takeClosed_brace h₁] at hclosed
    obtain ⟨rfl, rfl⟩ := Prod.mk.inj (Option.some.inj hclosed)
    exact ⟨rfl, rfl⟩
  generalize hs : opening ++ (e ++ '\x7d' :: t) = s at h
  cases h with
  | nil => cases hs
  | text hopen => exact absurd (hs ▸ List.prefix_append ..) hopen
  | unterminated hnone => exact absurd hbalanced (hnone _ _ (opening_append_inj hs).symm)
  | name hb he hx hv hw ht =>
    obtain ⟨rfl, rfl⟩ := hsame hb (opening_append_inj hs)
    exact ⟨_, _, _, rfl, he, .name hx hv hw, ht⟩
  | value hb he hx hv hw ht =>
    obtain ⟨rfl, rfl⟩ := hsame hb (opening_append_inj hs)
    exact ⟨_, _, _, rfl, he, .value hx hv hw, ht⟩
  | unevaluated hb he hv ht =>
    obtain ⟨rfl, rfl⟩ := hsame hb (opening_append_inj hs)
    exact ⟨_, _, _, rfl, he, .unevaluated hv, ht⟩

/-- Every text bound to a name is written as arithmetic writes it, if it is a number. -/
def Verbatim (vars : Vars) : Prop := ∀ x v, vars.get x = some v → ¬opening <:+: v ∧ ¬Respelled v

theorem Replaces.unique (hvars : Verbatim vars) {e w w' : Text} (h : Replaces cc vars e w) (h' : Replaces cc vars e w') :
    w = w' := by
  -- a plain name has its text as its value, which is not the name in braces
  have hname : ∀ {v}, IsName (trimText e) → vars.get (trimText e) = some v → ¬Unevaluated cc vars (trimText e) := by
    intro v hx hv hnone
    have hvalue := (@evalExpr?_of_name cc vars _ _ hx hv).resolve_right (hvars _ _ hv).2
    exact (hvars _ _ hv).1 (hnone v hvalue ▸ ⟨[], trimText e ++ ['\x7d'], by simp [unresolved]⟩)
  cases h with
  | name hx hv hw =>
    obtain rfl := hw.resolve_right (hvars _ _ hv).2
    cases h' with
    | name _ hv' hw' =>
      obtain rfl := hw'.resolve_right (hvars _ _ hv').2
      exact Option.some.inj (hv.symm.trans hv')
    | value hnot => exact absurd ⟨hx, Option.isSome_iff_exists.mpr ⟨_, hv⟩⟩ hnot
    | unevaluated hnone => exact absurd hnone (hname hx hv)
  | value hnot hvalue hne =>
    cases h' with
    | name hx hv => exact absurd ⟨hx, Option.isSome_iff_exists.mpr ⟨_, hv⟩⟩ hnot
    | value _ hvalue' => exact Option.some.inj (hvalue.symm.trans hvalue')
    | unevaluated hnone => exact absurd (hnone _ hvalue) hne
  | unevaluated hnone =>
    cases h' with
    | name hx hv => exact absurd hnone (hname hx hv)
    | value _ hvalue hne => exact absurd (hnone _ hvalue) hne
    | unevaluated => rfl

theorem Substitutes.unique (hvars : Verbatim vars) {t r r' : Text} (h : Substitutes cc vars t r)
    (h' : Substitutes cc vars t r') : r = r' := by
  -- an expression's own text is unique, and so is what stands for it
  have hclosed : ∀ {e e' w t r r' : Text}, Balanced '\x7b' '\x7d' e → (∀ r', Substitutes cc vars e r' → e' = r') →
      Replaces cc vars e' w → (∀ r', Substitutes cc vars t r' → r = r') →
        Substitutes cc vars (opening ++ (e ++ '\x7d' :: t)) r' → w ++ r = r' := by
    intro e e' w t r r' hbalanced ihe hw iht h'
    obtain ⟨e₁, w₁, r₁, rfl, he, hw₁, ht⟩ := h'.of_closed hbalanced
    obtain rfl := ihe e₁ he
    rw [hw.unique hvars hw₁, iht r₁ ht]
  induction h generalizing r' with
  | nil => exact h'.of_nil.symm
  | text hopen _ ih =>
    obtain ⟨r₁, rfl, h₁⟩ := h'.of_text hopen
    rw [ih h₁]
  | unterminated hnone => exact (h'.of_unterminated hnone).symm
  | name hb _ hx hv hw _ ihe iht => exact hclosed hb (fun _ => ihe) (.name hx hv hw) (fun _ => iht) h'
  | value hb _ hx hv hw _ ihe iht => exact hclosed hb (fun _ => ihe) (.value hx hv hw) (fun _ => iht) h'
  | unevaluated hb _ hv _ ihe iht => exact hclosed hb (fun _ => ihe) (.unevaluated hv) (fun _ => iht) h'

/-! ### Texts in which nothing evaluates -/

/-- A text in which nothing evaluates is copied. -/
theorem once_of_settled {t : Text} (h : Settled cc vars t) : interpolateOnce cc vars t = t := by
  induction h with
  | nil => rw [interpolateOnce]
  | text hopen _ ih => rw [once_text hopen, ih]
  | unterminated h => exact once_unterminated (takeClosed_unterminated h)
  | unevaluated hbalanced _ hvalue _ ihe iht =>
    rw [once_closed hbalanced, ihe, iht, replacement_of_unevaluated hvalue]
    simp [unresolved]

theorem passes_of_settled {t : Text} (h : Settled cc vars (interpolateOnce cc vars t)) (passes : Nat) :
    interpolatePasses cc vars (passes + 1) t = interpolateOnce cc vars t := by
  rw [interpolatePasses]
  split_ifs with hsame
  · exact hsame.symm
  · cases passes with
    | zero => rfl
    | succ passes => rw [interpolatePasses, if_pos (once_of_settled h)]

/-- Each template has a text with its names replaced by what is bound to them, and the rest
as it is written, and where no number is written in another way only one; where nothing
evaluates in this text, `interpolate` gives this text with its calls evaluated, and without one
leaves it as it is. -/
theorem interpolate_substitutes (cc : CharClass) {vars : Vars}
    (hvars : ∀ x v, vars.get x = some v → ¬opening <:+: v) (template : String) :
    ∃ text, Substitutes cc vars template.toList text ∧
      ((∀ x v, vars.get x = some v → ¬Respelled v) → ∀ text', Substitutes cc vars template.toList text' → text' = text) ∧
      (Settled cc vars text →
        interpolate cc vars template =
            String.ofList (if fnCall <:+: text then resolveFunctions (text.count '@') text else text) ∧
          (¬fnCall <:+: text → interpolate cc vars template = String.ofList text ∧
            interpolate cc vars (String.ofList text) = String.ofList text)) := by
  refine ⟨interpolateOnce cc vars template.toList, substitutes_once hvars _, fun hplain text' h' => ?_, fun hsettled => ?_⟩
  · exact Substitutes.unique (fun x v hv => ⟨hvars x v hv, hplain x v hv⟩) h' (substitutes_once hvars _)
  have hcalls : interpolate cc vars template = String.ofList
      (if fnCall <:+: interpolateOnce cc vars template.toList then
        resolveFunctions ((interpolateOnce cc vars template.toList).count '@') (interpolateOnce cc vars template.toList)
      else interpolateOnce cc vars template.toList) := by
    unfold interpolate
    rw [passes_of_settled hsettled]
  refine ⟨hcalls, fun hcall => ⟨?_, ?_⟩⟩
  · rw [hcalls, if_neg hcall]
  · unfold interpolate
    have honce := once_of_settled hsettled
    rw [String.toList_ofList, passes_of_settled (honce.symm ▸ hsettled), honce]
    exact congrArg String.ofList (if_neg hcall)

theorem interpolate_substitutes_interface :
    Substitutes .ascii ((∅ : Vars).insert "x" "eth0") "a$\x7bx\x7d".toList "aeth0".toList ∧
      interpolate .ascii ((∅ : Vars).insert "x" "eth0") "a$\x7bx\x7d" = "aeth0" ∧
      interpolate .ascii ((∅ : Vars).insert "x" "eth0") "aeth0" = "aeth0" := by
  have hget : ∀ x v, Vars.get ((∅ : Vars).insert "x" "eth0") x = some v → v = "eth0".toList := by
    intro x v hv
    obtain ⟨value, hvalue, rfl⟩ := Option.map_eq_some_iff.mp hv
    rw [Std.ExtTreeMap.getElem?_insert] at hvalue
    split_ifs at hvalue
    · rw [← Option.some.inj hvalue]
    · simp at hvalue
  have hvars : ∀ x v, Vars.get ((∅ : Vars).insert "x" "eth0") x = some v → ¬opening <:+: v := fun x v hv => by
    rw [hget x v hv]
    decide +kernel
  obtain ⟨text, htext, honly, hsettled⟩ := interpolate_substitutes .ascii hvars "a$\x7bx\x7d"
  have honce : interpolateOnce .ascii ((∅ : Vars).insert "x" "eth0") "a$\x7bx\x7d".toList = "aeth0".toList := by
    decide +kernel
  have hplain : ∀ x v, Vars.get ((∅ : Vars).insert "x" "eth0") x = some v → ¬Respelled v := by
    rintro x v hv ⟨n, hn, -⟩
    rw [hget x v hv] at hn
    have hnone : parseI64 "eth0".toList = none := by decide +kernel
    cases hnone.symm.trans hn
  obtain rfl := honly hplain _ (honce ▸ substitutes_once hvars "a$\x7bx\x7d".toList)
  have hcopied : Settled .ascii ((∅ : Vars).insert "x" "eth0") "aeth0".toList :=
    .text (by decide) (.text (by decide) (.text (by decide) (.text (by decide) (.text (by decide) .nil))))
  exact ⟨htext, (hsettled hcopied).2 (by decide +kernel)⟩

/-- A call outside expressions is evaluated, a value can complete an expression, and a number
is written anew. -/
theorem interpolate_not_verbatim :
    interpolate .ascii ∅ "@fn:subnet(10.0.0.0/8,16,3)" = "10.3.0.0/16" ∧
      interpolate .ascii (((∅ : Vars).insert "x" "\x7by\x7d").insert "y" "b") "$$\x7bx\x7d" = "b" ∧
      interpolate .ascii ((∅ : Vars).insert "x" "007") "$\x7bx\x7d" = "7" := by
  decide +kernel

end NlinkLab.Lower
