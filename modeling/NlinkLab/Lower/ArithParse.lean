import NlinkLab.Lower.Grammar

/-! The recursive descent over the tokens of an expression (`parse_arith_expr`): it has the
value of the longest beginning that is an expression, the parentheses still open there
counted as closed. The tokenizer draws a sign into the number after it, so that the parser
reads tokens in which no sign is left. -/

namespace NlinkLab.Lower

/-- Tokens with each sign drawn into the number after it. -/
inductive Signed : (start : Bool) → List ArithTok → List ArithTok → Prop
  | nil {start : Bool} : Signed start [] []
  | sign {n : Int} {ts cs : List ArithTok} : Signed false ts cs → Signed true (.minus :: .num n :: ts) (.num (-n) :: cs)
  | token {start : Bool} {t : ArithTok} {ts cs : List ArithTok} : (t = .minus → start = false) →
      Signed t.signFollows ts cs → Signed start (t :: ts) (t :: cs)

def Fits (n : Int) : Prop := -(2 ^ 63) ≤ n ∧ n < 2 ^ 63

/-- The numbers of the tokens have 64 bits. -/
def NumsFit (ts : List ArithTok) : Prop := ∀ n, .num n ∈ ts → Fits n

theorem checkedI64_eq_some {n v : Int} : checkedI64 n = some v ↔ n = v ∧ Fits n := by
  unfold checkedI64 Fits
  split_ifs with h
  · exact ⟨fun hv => ⟨Option.some.inj hv, h⟩, fun ⟨hv, _⟩ => congrArg some hv⟩
  · exact ⟨nofun, fun ⟨_, hfits⟩ => absurd hfits h⟩

/-! ### What stands under a token -/

namespace Signed

variable {start : Bool} {t : ArithTok} {ts cs : List ArithTok} {n : Int}

theorem nil_left (h : Signed start [] cs) : cs = [] := by cases h; rfl

/-- Under a token that is no number stands itself. -/
theorem of_cons (h : Signed start ts (t :: cs)) (ht : ∀ n, t ≠ .num n) :
    ∃ ts', ts = t :: ts' ∧ Signed t.signFollows ts' cs := by
  cases h with
  | sign _ => exact absurd rfl (ht _)
  | token _ h => exact ⟨_, rfl, h⟩

/-- Under a number stands itself or a sign and its opposite. -/
theorem of_num (h : Signed start ts (.num n :: cs)) :
    (∃ ts', ts = .num n :: ts' ∧ Signed false ts' cs) ∨
      start = true ∧ ∃ m ts', n = -m ∧ ts = .minus :: .num m :: ts' ∧ Signed false ts' cs := by
  cases h with
  | sign h => exact .inr ⟨rfl, _, _, rfl, rfl, h⟩
  | token _ h => exact .inl ⟨_, rfl, h⟩

/-- Where no sign is expected, a token stands for itself. -/
theorem cons_left (h : Signed start (t :: ts) cs) (ht : t = .minus → start = false) :
    ∃ cs', cs = t :: cs' ∧ Signed t.signFollows ts cs' := by
  cases h with
  | sign _ => cases ht rfl
  | token _ h => exact ⟨_, rfl, h⟩

/-- A sign stands before a number. -/
theorem minus_left (h : Signed true (.minus :: ts) cs) :
    ∃ n ts' cs', ts = .num n :: ts' ∧ cs = .num (-n) :: cs' ∧ Signed false ts' cs' := by
  cases h with
  | sign h => exact ⟨_, _, _, rfl, rfl, h⟩
  | token h _ => cases h rfl

theorem head_eq (h : Signed false ts cs) : cs.head? = ts.head? := by cases h <;> rfl

end Signed

/-! ### Beginnings with open parentheses -/

section Open

variable {p l r : List ArithTok} {k : Nat} {t : ArithTok}

theorem open_cons (ht : t ≠ .rParen) (h : p ++ .replicate k .rParen = t :: r) :
    ∃ p', p = t :: p' ∧ r = p' ++ .replicate k .rParen := by
  cases p with
  | nil =>
    cases k with
    | zero => cases h
    | succ k => exact absurd (List.cons.inj (List.replicate_succ.symm.trans h)).1.symm ht
  | cons t' p =>
    obtain ⟨rfl, rfl⟩ := List.cons.inj h
    exact ⟨p, rfl, rfl⟩

theorem open_append (ht : t ≠ .rParen) (h : p ++ .replicate k .rParen = l ++ t :: r) :
    ∃ p', p = l ++ t :: p' ∧ r = p' ++ .replicate k .rParen := by
  induction l generalizing p with
  | nil => exact open_cons ht h
  | cons a l ih =>
    cases p with
    | nil =>
      have hmem : t ∈ List.replicate k ArithTok.rParen := by
        rw [List.nil_append] at h
        rw [h]
        exact List.mem_cons_of_mem _ (List.mem_append_right _ List.mem_cons_self)
      exact absurd (List.eq_of_mem_replicate hmem) ht
    | cons a' p =>
      obtain ⟨rfl, htail⟩ := List.cons.inj h
      obtain ⟨p', rfl, hr⟩ := ih htail
      exact ⟨p', rfl, hr⟩

theorem open_group (h : p ++ .replicate k .rParen = l ++ [.rParen]) :
    k = 0 ∧ p = l ++ [.rParen] ∨ ∃ j, k = j + 1 ∧ l = p ++ .replicate j .rParen := by
  cases k with
  | zero => exact .inl ⟨rfl, by rwa [List.replicate_zero, List.append_nil] at h⟩
  | succ j =>
    rw [List.replicate_succ', ← List.append_assoc] at h
    exact .inr ⟨j, rfl, (List.append_inj_left' h rfl).symm⟩

end Open

/-! ### The loops -/

open parseArith

theorem terms_product {op : ArithOp} (hop : op.isProduct = true) (fuel : Nat) (left : Int) (rest : List ArithTok) :
    terms (fuel + 1) left (op.token :: rest) =
      (parseArith fuel .factor rest).bind fun (right, rest) =>
        (op.apply left right).bind fun left => terms fuel left rest := by
  cases op with
  | add | sub => cases hop
  | mul => rfl
  | div | rem =>
    show ((parseArith fuel .factor rest).bind _) = _
    congr 1
    funext x
    dsimp only [ArithOp.apply]
    split_ifs
    · rfl
    · first | rfl | rw [Option.bind_map]; rfl

theorem sums_sum {op : ArithOp} (hop : op.isProduct = false) (fuel : Nat) (left : Int) (rest : List ArithTok) :
    sums (fuel + 1) left (op.token :: rest) =
      (parseArith fuel .term rest).bind fun (right, rest) =>
        (op.apply left right).bind fun left => sums fuel left rest := by
  cases op with
  | add | sub => rfl
  | mul | div | rem => cases hop

/-- The operator of a product comes next. -/
def Multiplies (ts : List ArithTok) : Prop := ∃ (op : ArithOp) (r : List ArithTok), op.isProduct = true ∧ ts = op.token :: r

/-- The operator of a sum comes next. -/
def Adds (ts : List ArithTok) : Prop := ∃ (op : ArithOp) (r : List ArithTok), op.isProduct = false ∧ ts = op.token :: r

theorem terms_end {fuel : Nat} {left : Int} {rest : List ArithTok} (h : ¬Multiplies rest) :
    terms (fuel + 1) left rest = some (left, rest) := by
  cases rest with
  | nil => rfl
  | cons t rest =>
    cases t with
    | mul => exact absurd ⟨.mul, _, rfl, rfl⟩ h
    | div => exact absurd ⟨.div, _, rfl, rfl⟩ h
    | mod => exact absurd ⟨.rem, _, rfl, rfl⟩ h
    | num | plus | minus | lParen | rParen => rfl

theorem sums_end {fuel : Nat} {left : Int} {rest : List ArithTok} (h : ¬Adds rest) :
    sums (fuel + 1) left rest = some (left, rest) := by
  cases rest with
  | nil => rfl
  | cons t rest =>
    cases t with
    | plus => exact absurd ⟨.add, _, rfl, rfl⟩ h
    | minus => exact absurd ⟨.sub, _, rfl, rfl⟩ h
    | num | mul | div | mod | lParen | rParen => rfl

/-! ### What is an expression is parsed -/

/-- At a level the tokens are read to this value, up to these: a term and an expression go on
from there. -/
def Reads : ArithLevel → List ArithTok → Int → List ArithTok → Prop
  | .factor, cs, v, rest => ∀ fuel, 3 * cs.length + 1 ≤ fuel → parseArith fuel .factor cs = some (v, rest)
  | .term, cs, v, rest => ∀ out, (∀ fuel, 3 * rest.length + 1 ≤ fuel → terms fuel v rest = some out) →
      ∀ fuel, 3 * cs.length + 2 ≤ fuel → parseArith fuel .term cs = some out
  | .expr, cs, v, rest => ¬Multiplies rest → ∀ out, (∀ fuel, 3 * rest.length + 2 ≤ fuel → sums fuel v rest = some out) →
      ∀ fuel, 3 * cs.length + 3 ≤ fuel → parseArith fuel .expr cs = some out

section Reads

variable {cs rest : List ArithTok} {v : Int}

theorem Reads.term_of_factor (h : Reads .factor cs v rest) (hlen : rest.length < cs.length) : Reads .term cs v rest := by
  intro out hloop fuel hfuel
  cases fuel with
  | zero => omega
  | succ fuel =>
    have hfactor := h fuel (by omega)
    rw [parseArith, hfactor]
    exact hloop fuel (by omega)

theorem Reads.expr_of_term (h : Reads .term cs v rest) (hlen : rest.length < cs.length) : Reads .expr cs v rest := by
  intro hend out hloop fuel hfuel
  cases fuel with
  | zero => omega
  | succ fuel =>
    have hterms : ∀ fuel, 3 * rest.length + 1 ≤ fuel → terms fuel v rest = some (v, rest) := by
      intro fuel hfuel
      cases fuel with
      | zero => omega
      | succ fuel => exact terms_end hend
    have hterm := h _ hterms fuel (by omega)
    rw [parseArith, hterm]
    exact hloop fuel (by omega)

theorem Reads.product {op : ArithOp} {x y : Int} {tail : List ArithTok} (hop : op.isProduct = true)
    (hleft : Reads .term cs x (op.token :: tail)) (hright : Reads .factor tail y rest)
    (hlen : rest.length < tail.length) (hv : op.apply x y = some v) : Reads .term cs v rest := by
  intro out hloop
  refine hleft out fun fuel hfuel => ?_
  cases fuel with
  | zero => omega
  | succ fuel =>
    rw [List.length_cons] at hfuel
    rw [terms_product hop, hright fuel (by omega), Option.bind_some]
    dsimp only
    rw [hv, Option.bind_some]
    exact hloop fuel (by omega)

theorem Reads.sum {op : ArithOp} {x y : Int} {tail : List ArithTok} (hop : op.isProduct = false)
    (hleft : Reads .expr cs x (op.token :: tail)) (hright : Reads .term tail y rest)
    (hlen : rest.length < tail.length) (hv : op.apply x y = some v) : Reads .expr cs v rest := by
  intro hend out hloop
  have hsum : ¬Multiplies (op.token :: tail) := by
    rintro ⟨op', r, hop', heq⟩
    obtain rfl := ArithOp.token_injective (List.cons.inj heq).1
    exact Bool.false_ne_true (hop.symm.trans hop')
  refine hleft hsum out fun fuel hfuel => ?_
  cases fuel with
  | zero => omega
  | succ fuel =>
    rw [List.length_cons] at hfuel
    have hterms : ∀ fuel, 3 * rest.length + 1 ≤ fuel → terms fuel y rest = some (y, rest) := by
      intro fuel hfuel
      cases fuel with
      | zero => omega
      | succ fuel => exact terms_end hend
    rw [sums_sum hop, hright _ hterms fuel (by omega), Option.bind_some]
    dsimp only
    rw [hv, Option.bind_some]
    exact hloop fuel (by omega)

/-- An expression that nothing continues is read to its end. -/
theorem Reads.parse (h : Reads .expr cs v rest) (hproduct : ¬Multiplies rest) (hsum : ¬Adds rest) :
    ∀ fuel, 3 * cs.length + 3 ≤ fuel → parseArith fuel .expr cs = some (v, rest) := by
  refine h hproduct _ fun fuel hfuel => ?_
  cases fuel with
  | zero => omega
  | succ fuel => exact sums_end hsum

end Reads

/-- An operand that starts with a number is that number. -/
theorem Derives.eq_num {ts : List ArithTok} {n : Int} {e : ArithExpr} (h : Derives .factor (.num n :: ts) e) :
    ts = [] ∧ e = .num n := by
  cases h with
  | num => exact ⟨rfl, rfl⟩

theorem numsFit_append {p r : List ArithTok} : NumsFit (p ++ r) ↔ NumsFit p ∧ NumsFit r := by
  refine ⟨fun h => ⟨fun n hn => h n (List.mem_append_left _ hn), fun n hn => h n (List.mem_append_right _ hn)⟩, ?_⟩
  rintro ⟨hp, hr⟩ n hn
  exact (List.mem_append.mp hn).elim (hp n) (hr n)

theorem numsFit_cons {t : ArithTok} {r : List ArithTok} : NumsFit (t :: r) ↔ (∀ n, t = .num n → Fits n) ∧ NumsFit r := by
  constructor
  · exact fun h => ⟨fun n hn => h n (hn ▸ List.mem_cons_self), fun n hn => h n (List.mem_cons_of_mem _ hn)⟩
  · rintro ⟨ht, hr⟩ n hn
    exact (List.mem_cons.mp hn).elim (fun heq => ht n heq.symm) (hr n)

theorem not_multiplies_of_stops {k : Nat} {ts : List ArithTok} (h : Stops k ts) : ¬Multiplies ts := by
  rintro ⟨op, r, -, rfl⟩
  have hoperator := (h _ rfl).1
  cases op <;> cases hoperator

theorem not_adds_of_stops {k : Nat} {ts : List ArithTok} (h : Stops k ts) : ¬Adds ts := by
  rintro ⟨op, r, -, rfl⟩
  have hoperator := (h _ rfl).1
  cases op <;> cases hoperator

theorem stops_congr {k : Nat} {ts cs : List ArithTok} (h : cs.head? = ts.head?) : Stops k cs ↔ Stops k ts := by
  unfold Stops
  rw [h]

/-- What is read of an expression, its open parentheses counted as closed. -/
structure Read (level : ArithLevel) (suf cs : List ArithTok) (v : Int) (pc sc : List ArithTok) : Prop where
  eq : cs = pc ++ sc
  ne : pc ≠ []
  signed : Signed false suf sc
  fits : NumsFit pc
  reads : Reads level cs v sc

theorem Read.lt {level : ArithLevel} {suf cs pc sc : List ArithTok} {v : Int} (h : Read level suf cs v pc sc) :
    sc.length < cs.length := by
  have hpos := List.length_pos_iff.mpr h.ne
  rw [h.eq, List.length_append]
  omega

/-- An operator and its second operand go on what is read. -/
theorem Read.bin {level level' : ArithLevel} {suf suf' cs pc pc' sc sc' : List ArithTok} {op : ArithOp} {x y v : Int}
    (hleft : Read level suf cs x pc (op.token :: sc)) (hright : Read level' suf' sc y pc' sc')
    (hreads : Reads level cs v sc') : Read level suf' cs v (pc ++ op.token :: pc') sc' where
  eq := by rw [hleft.eq, hright.eq, List.append_assoc, List.cons_append]
  ne := by simp
  signed := hright.signed
  fits := by
    refine numsFit_append.mpr ⟨hleft.fits, numsFit_cons.mpr ⟨fun n hn => ?_, hright.fits⟩⟩
    cases op <;> cases hn
  reads := hreads

/-- A group that its parenthesis closes. -/
theorem Read.closed {suf cs pc sc : List ArithTok} {v : Int} (h : Read .expr (.rParen :: suf) cs v pc sc) :
    ∃ sc', Read .factor suf (.lParen :: cs) v (.lParen :: (pc ++ [.rParen])) sc' := by
  obtain ⟨sc, rfl, hsc⟩ := Signed.cons_left h.signed nofun
  have hproduct : ¬Multiplies (.rParen :: sc) := by
    rintro ⟨op, r, -, hop⟩
    exact op.token_ne_rParen (List.cons.inj hop).1.symm
  have hsum : ¬Adds (.rParen :: sc) := by
    rintro ⟨op, r, -, hop⟩
    exact op.token_ne_rParen (List.cons.inj hop).1.symm
  have hparse := h.reads.parse hproduct hsum
  refine ⟨sc, ?_, List.cons_ne_nil _ _, hsc, ?_, fun fuel hfuel => ?_⟩
  · rw [h.eq, List.cons_append, List.append_assoc]
    rfl
  · refine numsFit_cons.mpr ⟨nofun, numsFit_append.mpr ⟨h.fits, ?_⟩⟩
    exact numsFit_cons.mpr ⟨nofun, nofun⟩
  · cases fuel with
    | zero => omega
    | succ fuel =>
      rw [List.length_cons] at hfuel
      rw [parseArith, hparse fuel (by omega)]
      rfl

/-- A group that nothing closes: what is read stops where it does. -/
theorem Read.unclosed {suf cs pc sc : List ArithTok} {v : Int} {j : Nat} (h : Read .expr suf cs v pc sc)
    (hstop : Stops (j + 1) suf) : Read .factor suf (.lParen :: cs) v (.lParen :: pc) sc := by
  have hsc : Stops (j + 1) sc := (stops_congr h.signed.head_eq).mpr hstop
  have hparse := h.reads.parse (not_multiplies_of_stops hsc) (not_adds_of_stops hsc)
  refine ⟨?_, List.cons_ne_nil _ _, h.signed, ?_, fun fuel hfuel => ?_⟩
  · rw [h.eq, List.cons_append]
  · exact numsFit_cons.mpr ⟨nofun, h.fits⟩
  · cases fuel with
    | zero => omega
    | succ fuel =>
      rw [List.length_cons] at hfuel
      rw [parseArith, hparse fuel (by omega), Option.map_some]
      dsimp only
      split
      · exact absurd rfl ((hsc _ rfl).2 (Nat.succ_ne_zero j))
      · rfl

theorem value_bin {op : ArithOp} {a b : ArithExpr} {v : Int} (h : (ArithExpr.bin op a b).value = some v) :
    ∃ x, a.value = some x ∧ ∃ y, b.value = some y ∧ op.apply x y = some v := by
  obtain ⟨x, hx, h⟩ := Option.bind_eq_some_iff.mp h
  obtain ⟨y, hy, h⟩ := Option.bind_eq_some_iff.mp h
  exact ⟨x, hx, y, hy, h⟩

/-- An expression with a value is read, and its numbers fit with their signs. -/
theorem Derives.read {level : ArithLevel} {ts : List ArithTok} {e : ArithExpr} (h : Derives level ts e) :
    ∀ (p : List ArithTok) (k : Nat) (suf cs : List ArithTok) (v : Int), p ++ .replicate k .rParen = ts →
      e.value = some v → NumsFit p → (k ≠ 0 → Stops k suf) → Signed true (p ++ suf) cs →
      ∃ pc sc, Read level suf cs v pc sc := by
  induction h with
  | num n =>
    intro p k suf cs v heq hv hfits _ hsigned
    obtain ⟨p', rfl, hnil⟩ := open_cons (by nofun) heq
    obtain ⟨rfl, -⟩ := List.append_eq_nil_iff.mp hnil.symm
    obtain ⟨sc, rfl, hsc⟩ := Signed.cons_left hsigned nofun
    obtain rfl := Option.some.inj hv
    refine ⟨[.num n], sc, rfl, List.cons_ne_nil _ _, hsc, hfits, fun fuel hfuel => ?_⟩
    cases fuel with
    | zero => omega
    | succ fuel => rfl
  | @neg ts e h ih =>
    intro p k suf cs v heq hv _ _ hsigned
    obtain ⟨p, rfl, rfl⟩ := open_cons (by nofun) heq
    obtain ⟨n, tail, sc, htail, rfl, hsc⟩ := Signed.minus_left hsigned
    -- what the sign stands before is its number alone
    obtain ⟨p, rfl, rfl⟩ : ∃ p', p = .num n :: p' ∧ tail = p' ++ suf := by
      obtain ⟨r, t, rfl, -⟩ := closes_last h
      cases r with
      | nil =>
        obtain ⟨rfl, rfl⟩ := List.cons.inj htail
        exact ⟨[], rfl, rfl⟩
      | cons a r =>
        obtain ⟨rfl, rfl⟩ := List.cons.inj htail
        exact ⟨r ++ [t], rfl, rfl⟩
    obtain ⟨hnil, rfl⟩ := Derives.eq_num h
    obtain ⟨rfl, -⟩ := List.append_eq_nil_iff.mp hnil
    obtain ⟨rfl, hneg⟩ := checkedI64_eq_some.mp hv
    have hfit : NumsFit [.num (-n)] := by
      intro m hm
      obtain rfl := ArithTok.num.inj (List.mem_singleton.mp hm)
      exact hneg
    refine ⟨[.num (-n)], sc, rfl, List.cons_ne_nil _ _, hsc, hfit, fun fuel hfuel => ?_⟩
    cases fuel with
    | zero => omega
    | succ fuel => rfl
  | @group ts e h ih =>
    intro p k suf cs v heq hv hfits hstop hsigned
    obtain ⟨p, rfl, hp⟩ := open_cons (by nofun) heq
    rw [List.cons_append] at hsigned
    obtain ⟨cs, rfl, hcs⟩ := Signed.cons_left hsigned nofun
    have hfits := (numsFit_cons.mp hfits).2
    rcases open_group hp.symm with ⟨rfl, rfl⟩ | ⟨j, rfl, rfl⟩
    · rw [List.append_assoc] at hcs
      have hpts : NumsFit ts := (numsFit_append.mp hfits).1
      obtain ⟨pc, sc, hread⟩ := ih ts 0 ([ArithTok.rParen] ++ suf) cs v (List.append_nil ts) hv hpts (absurd rfl) hcs
      exact ⟨_, hread.closed⟩
    · have hstop : Stops (j + 1) suf := hstop (Nat.succ_ne_zero j)
      have hstop' : j ≠ 0 → Stops j suf := fun hj t ht => ⟨(hstop t ht).1, fun _ => (hstop t ht).2 (Nat.succ_ne_zero j)⟩
      obtain ⟨pc, sc, hread⟩ := ih p j suf cs v rfl hv hfits hstop' hcs
      exact ⟨_, sc, hread.unclosed hstop⟩
  | factor h ih =>
    intro p k suf cs v heq hv hfits hstop hsigned
    obtain ⟨pc, sc, hread⟩ := ih p k suf cs v heq hv hfits hstop hsigned
    exact ⟨pc, sc, { hread with reads := hread.reads.term_of_factor hread.lt }⟩
  | term h ih =>
    intro p k suf cs v heq hv hfits hstop hsigned
    obtain ⟨pc, sc, hread⟩ := ih p k suf cs v heq hv hfits hstop hsigned
    exact ⟨pc, sc, { hread with reads := hread.reads.expr_of_term hread.lt }⟩
  | @product op l r a b hop ha hb iha ihb =>
    intro p k suf cs v heq hv hfits hstop hsigned
    obtain ⟨p, rfl, rfl⟩ := open_append op.token_ne_rParen heq
    obtain ⟨hl, hp⟩ := numsFit_append.mp hfits
    obtain ⟨x, hx, y, hy, hxy⟩ := value_bin hv
    rw [List.append_assoc] at hsigned
    obtain ⟨pc, sc, hleft⟩ := iha l 0 (op.token :: p ++ suf) cs x (List.append_nil l) hx hl (absurd rfl) hsigned
    obtain ⟨sc, rfl, hsc⟩ := Signed.cons_left hleft.signed fun _ => rfl
    rw [op.signFollows_token] at hsc
    obtain ⟨pc', sc', hright⟩ := ihb p k suf sc y rfl hy (numsFit_cons.mp hp).2 hstop hsc
    exact ⟨_, sc', hleft.bin hright (hleft.reads.product hop hright.reads hright.lt hxy)⟩
  | @sum op l r a b hop ha hb iha ihb =>
    intro p k suf cs v heq hv hfits hstop hsigned
    obtain ⟨p, rfl, rfl⟩ := open_append op.token_ne_rParen heq
    obtain ⟨hl, hp⟩ := numsFit_append.mp hfits
    obtain ⟨x, hx, y, hy, hxy⟩ := value_bin hv
    rw [List.append_assoc] at hsigned
    obtain ⟨pc, sc, hleft⟩ := iha l 0 (op.token :: p ++ suf) cs x (List.append_nil l) hx hl (absurd rfl) hsigned
    obtain ⟨sc, rfl, hsc⟩ := Signed.cons_left hleft.signed fun _ => rfl
    rw [op.signFollows_token] at hsc
    obtain ⟨pc', sc', hright⟩ := ihb p k suf sc y rfl hy (numsFit_cons.mp hp).2 hstop hsc
    exact ⟨_, sc', hleft.bin hright (hleft.reads.sum hop hright.reads hright.lt hxy)⟩

/-! ### What is parsed is an expression -/

/-- What the parser leaves of the tokens `ts`, after a beginning that has the value when its
open parentheses are closed. -/
def Leaves (level : ArithLevel) (start ts : List ArithTok) (v : Int) (rest : List ArithTok) : Prop :=
  ∃ p r k e, ts = p ++ r ∧ Signed false r rest ∧ NumsFit rest ∧ Derives level (start ++ p ++ .replicate k .rParen) e ∧
    e.value = some v ∧ (k ≠ 0 → Stops k r)

/-- The parser goes on as far as it can. -/
def Ends : ArithLevel → List ArithTok → Prop
  | .factor, _ => True
  | .term, rest => ¬Multiplies rest
  | .expr, rest => ¬Multiplies rest ∧ ¬Adds rest

/-- The parts of the parser, in so many steps. -/
structure Sound (fuel : Nat) : Prop where
  level : ∀ {level : ArithLevel} {ts cs rest : List ArithTok} {v : Int}, Signed true ts cs → NumsFit cs →
    parseArith fuel level cs = some (v, rest) → Leaves level [] ts v rest ∧ Ends level rest
  terms : ∀ {ts cs rest start : List ArithTok} {left v : Int} {k : Nat} {e : ArithExpr}, Signed false ts cs →
    NumsFit cs → terms fuel left cs = some (v, rest) → Derives .term (start ++ .replicate k .rParen) e →
    e.value = some left → (k ≠ 0 → Stops k ts) → Leaves .term start ts v rest ∧ Ends .term rest
  sums : ∀ {ts cs rest start : List ArithTok} {left v : Int} {k : Nat} {e : ArithExpr}, Signed false ts cs →
    NumsFit cs → ¬Multiplies cs → sums fuel left cs = some (v, rest) →
    Derives .expr (start ++ .replicate k .rParen) e → e.value = some left → (k ≠ 0 → Stops k ts) →
    Leaves .expr start ts v rest ∧ Ends .expr rest

theorem stops_of_ends {k : Nat} {r rest : List ArithTok} (hsigned : Signed false r rest) (hends : Ends .expr rest)
    (hparen : k ≠ 0 → ∀ rest', rest ≠ .rParen :: rest') : Stops k r := by
  refine (stops_congr hsigned.head_eq).mp fun t ht => ?_
  obtain ⟨rest', rfl⟩ := List.head?_eq_some_iff.mp ht
  refine ⟨?_, fun hk heq => hparen hk rest' (by rw [heq])⟩
  cases t with
  | num | lParen | rParen => rfl
  | plus => exact absurd ⟨.add, _, rfl, rfl⟩ hends.2
  | minus => exact absurd ⟨.sub, _, rfl, rfl⟩ hends.2
  | mul => exact absurd ⟨.mul, _, rfl, rfl⟩ hends.1
  | div => exact absurd ⟨.div, _, rfl, rfl⟩ hends.1
  | mod => exact absurd ⟨.rem, _, rfl, rfl⟩ hends.1

/-- No operator follows a beginning with open parentheses. -/
theorem not_stops_token {op : ArithOp} {k : Nat} {ts : List ArithTok} (h : k ≠ 0 → Stops k (op.token :: ts)) : k = 0 := by
  by_contra hk
  have hoperator := (h hk _ rfl).1
  cases op <;> cases hoperator

theorem sound_factor {fuel : Nat} (ih : Sound fuel) {ts cs rest : List ArithTok} {v : Int} (hsigned : Signed true ts cs)
    (hfits : NumsFit cs) (h : parseArith (fuel + 1) .factor cs = some (v, rest)) : Leaves .factor [] ts v rest := by
  cases cs with
  | nil => cases h
  | cons t cs =>
    cases t with
    | num n =>
      obtain ⟨rfl, rfl⟩ := Prod.mk.inj (Option.some.inj h)
      obtain ⟨hn, hrest⟩ := numsFit_cons.mp hfits
      rcases hsigned.of_num with ⟨r, rfl, hr⟩ | ⟨-, m, r, rfl, rfl, hr⟩
      · exact ⟨[.num n], r, 0, .num n, rfl, hr, hrest, .num n, rfl, absurd rfl⟩
      · exact ⟨[.minus, .num m], r, 0, .neg (.num m), rfl, hr, hrest, .neg (.num m),
          checkedI64_eq_some.mpr ⟨rfl, hn _ rfl⟩, absurd rfl⟩
    | lParen =>
      obtain ⟨ts, rfl, hts⟩ := hsigned.of_cons nofun
      rw [parseArith] at h
      obtain ⟨⟨w, rest'⟩, hexpr, hrest⟩ := Option.map_eq_some_iff.mp h
      obtain ⟨⟨p, r, k, e, rfl, hr, hrfits, he, hv, hstop⟩, hends⟩ := ih.level hts (numsFit_cons.mp hfits).2 hexpr
      rw [List.nil_append] at he
      dsimp only at hrest
      split at hrest
      · rename_i rest'
        obtain ⟨rfl, rfl⟩ := Prod.mk.inj hrest
        obtain ⟨r, rfl, hclosed⟩ := hr.of_cons nofun
        -- the parenthesis closes the one that opened here
        have hk : k = 0 := by
          by_contra hk
          exact (hstop hk _ rfl).2 hk rfl
        subst hk
        rw [List.replicate_zero, List.append_nil] at he
        refine ⟨.lParen :: (p ++ [.rParen]), r, 0, e, ?_, hclosed, (numsFit_cons.mp hrfits).2, ?_, hv, absurd rfl⟩
        · rw [List.cons_append, List.append_assoc]
          rfl
        · rw [List.replicate_zero, List.append_nil]
          exact .group he
      · rename_i hparen
        obtain ⟨rfl, rfl⟩ := Prod.mk.inj hrest
        refine ⟨.lParen :: p, r, k + 1, e, rfl, hr, hrfits, ?_, hv, fun _ => ?_⟩
        · rw [List.replicate_succ', ← List.append_assoc]
          exact .group he
        · exact stops_of_ends hr hends fun _ rest' heq => hparen rest' heq
    | plus | minus | mul | div | mod | rParen => cases h

theorem sound_terms {fuel : Nat} (ih : Sound fuel) {ts cs rest start : List ArithTok} {left v : Int} {k : Nat}
    {e : ArithExpr} (hsigned : Signed false ts cs) (hfits : NumsFit cs)
    (h : terms (fuel + 1) left cs = some (v, rest)) (he : Derives .term (start ++ .replicate k .rParen) e)
    (hv : e.value = some left) (hstop : k ≠ 0 → Stops k ts) : Leaves .term start ts v rest ∧ Ends .term rest := by
  by_cases hmul : Multiplies cs
  · obtain ⟨op, cs, hop, rfl⟩ := hmul
    obtain ⟨ts, rfl, hts⟩ := hsigned.of_cons fun n hn => by cases op <;> cases hn
    rw [op.signFollows_token] at hts
    obtain rfl := not_stops_token hstop
    rw [terms_product hop] at h
    obtain ⟨⟨right, rest'⟩, hfactor, h⟩ := Option.bind_eq_some_iff.mp h
    obtain ⟨left', happly, hloop⟩ := Option.bind_eq_some_iff.mp h
    obtain ⟨⟨p, r, k, e', rfl, hr, hrfits, he', hright, hstop'⟩, -⟩ := ih.level hts (numsFit_cons.mp hfits).2 hfactor
    have hderives : Derives .term ((start ++ op.token :: p) ++ .replicate k .rParen) (.bin op e e') := by
      rw [List.replicate_zero, List.append_nil] at he
      rw [List.append_assoc, List.cons_append]
      exact .product hop he he'
    have hvalue : (ArithExpr.bin op e e').value = some left' := by
      rw [ArithExpr.value, hv, Option.bind_some, hright, Option.bind_some, happly]
    obtain ⟨⟨p', r', k', e'', rfl, hr', hfits', he'', hv'', hstop''⟩, hends⟩ :=
      ih.terms hr hrfits hloop hderives hvalue hstop'
    refine ⟨⟨op.token :: (p ++ p'), r', k', e'', ?_, hr', hfits', ?_, hv'', hstop''⟩, hends⟩
    · rw [List.cons_append, List.append_assoc]
    · rwa [List.append_assoc start] at he''
  · rw [terms_end hmul] at h
    obtain ⟨rfl, rfl⟩ := Prod.mk.inj (Option.some.inj h)
    refine ⟨⟨[], ts, k, e, rfl, hsigned, hfits, ?_, hv, hstop⟩, hmul⟩
    rwa [List.append_nil]

theorem sound_sums {fuel : Nat} (ih : Sound fuel) {ts cs rest start : List ArithTok} {left v : Int} {k : Nat}
    {e : ArithExpr} (hsigned : Signed false ts cs) (hfits : NumsFit cs) (hproduct : ¬Multiplies cs)
    (h : sums (fuel + 1) left cs = some (v, rest)) (he : Derives .expr (start ++ .replicate k .rParen) e)
    (hv : e.value = some left) (hstop : k ≠ 0 → Stops k ts) : Leaves .expr start ts v rest ∧ Ends .expr rest := by
  by_cases hadd : Adds cs
  · obtain ⟨op, cs, hop, rfl⟩ := hadd
    obtain ⟨ts, rfl, hts⟩ := hsigned.of_cons fun n hn => by cases op <;> cases hn
    rw [op.signFollows_token] at hts
    obtain rfl := not_stops_token hstop
    rw [sums_sum hop] at h
    obtain ⟨⟨right, rest'⟩, hterm, h⟩ := Option.bind_eq_some_iff.mp h
    obtain ⟨left', happly, hloop⟩ := Option.bind_eq_some_iff.mp h
    obtain ⟨⟨p, r, k, e', rfl, hr, hrfits, he', hright, hstop'⟩, hend⟩ := ih.level hts (numsFit_cons.mp hfits).2 hterm
    have hderives : Derives .expr ((start ++ op.token :: p) ++ .replicate k .rParen) (.bin op e e') := by
      rw [List.replicate_zero, List.append_nil] at he
      rw [List.append_assoc, List.cons_append]
      exact .sum hop he he'
    have hvalue : (ArithExpr.bin op e e').value = some left' := by
      rw [ArithExpr.value, hv, Option.bind_some, hright, Option.bind_some, happly]
    obtain ⟨⟨p', r', k', e'', rfl, hr', hfits', he'', hv'', hstop''⟩, hends⟩ :=
      ih.sums hr hrfits hend hloop hderives hvalue hstop'
    refine ⟨⟨op.token :: (p ++ p'), r', k', e'', ?_, hr', hfits', ?_, hv'', hstop''⟩, hends⟩
    · rw [List.cons_append, List.append_assoc]
    · rwa [List.append_assoc start] at he''
  · rw [sums_end hadd] at h
    obtain ⟨rfl, rfl⟩ := Prod.mk.inj (Option.some.inj h)
    refine ⟨⟨[], ts, k, e, rfl, hsigned, hfits, ?_, hv, hstop⟩, hproduct, hadd⟩
    rwa [List.append_nil]

theorem sound (fuel : Nat) : Sound fuel := by
  induction fuel with
  | zero =>
    refine ⟨?_, ?_, ?_⟩
    · intro _ _ _ _ _ _ _ h
      cases h
    · intro _ _ _ _ _ _ _ _ _ _ h
      cases h
    · intro _ _ _ _ _ _ _ _ _ _ _ h
      cases h
  | succ fuel ih =>
    refine ⟨?_, sound_terms ih, sound_sums ih⟩
    intro level ts cs rest v hsigned hfits h
    cases level with
    | factor => exact ⟨sound_factor ih hsigned hfits h, trivial⟩
    | term =>
      rw [parseArith] at h
      obtain ⟨⟨left, rest'⟩, hfactor, hloop⟩ := Option.bind_eq_some_iff.mp h
      obtain ⟨⟨p, r, k, e, rfl, hr, hrfits, he, hv, hstop⟩, -⟩ := ih.level hsigned hfits hfactor
      obtain ⟨⟨p', r', k', e', rfl, hr', hfits', he', hv', hstop'⟩, hends⟩ := ih.terms hr hrfits hloop (.factor he) hv hstop
      exact ⟨⟨p ++ p', r', k', e', (List.append_assoc _ _ _).symm, hr', hfits', he', hv', hstop'⟩, hends⟩
    | expr =>
      rw [parseArith] at h
      obtain ⟨⟨left, rest'⟩, hterm, hloop⟩ := Option.bind_eq_some_iff.mp h
      obtain ⟨⟨p, r, k, e, rfl, hr, hrfits, he, hv, hstop⟩, hend⟩ := ih.level hsigned hfits hterm
      obtain ⟨⟨p', r', k', e', rfl, hr', hfits', he', hv', hstop'⟩, hends⟩ :=
        ih.sums hr hrfits hend hloop (.term he) hv hstop
      exact ⟨⟨p ++ p', r', k', e', (List.append_assoc _ _ _).symm, hr', hfits', he', hv', hstop'⟩, hends⟩

/-- The parser has a value exactly where a beginning of the tokens that nothing continues has
it, its open parentheses closed. -/
theorem parseArith_eq_some {ts cs : List ArithTok} {v : Int} (hsigned : Signed true ts cs) (hts : NumsFit ts)
    (hfits : NumsFit cs) : (parseArith (3 * cs.length + 3) .expr cs).map Prod.fst = some v ↔
      ∃ p r k e, ts = p ++ r ∧ Derives .expr (p ++ .replicate k .rParen) e ∧ e.value = some v ∧ Stops k r := by
  constructor
  · intro h
    obtain ⟨⟨v', rest⟩, hparse, rfl⟩ := Option.map_eq_some_iff.mp h
    obtain ⟨⟨p, r, k, e, rfl, hr, -, he, hv, hstop⟩, hends⟩ := (sound _).level hsigned hfits hparse
    refine ⟨p, r, k, e, rfl, he, hv, ?_⟩
    by_cases hk : k = 0
    · exact stops_of_ends hr hends fun hne => absurd hk hne
    · exact hstop hk
  · rintro ⟨p, r, k, e, rfl, he, hv, hstop⟩
    obtain ⟨pc, sc, hread⟩ := he.read p k r cs v rfl hv (numsFit_append.mp hts).1 (fun _ => hstop) hsigned
    have hsc : Stops k sc := (stops_congr hread.signed.head_eq).mpr hstop
    rw [hread.reads.parse (not_multiplies_of_stops hsc) (not_adds_of_stops hsc) _ le_rfl, Option.map_some]

/-- An expression with a value has numbers that fit with their signs. -/
theorem numsFit_of_derives {ts cs : List ArithTok} {e : ArithExpr} {v : Int} (hsigned : Signed true ts cs)
    (hts : NumsFit ts) (he : Derives .expr ts e) (hv : e.value = some v) : NumsFit cs := by
  have hall : Signed true (ts ++ []) cs := by rwa [List.append_nil]
  obtain ⟨pc, sc, hread⟩ := he.read ts 0 [] cs v (List.append_nil ts) hv hts (absurd rfl) hall
  rw [hread.eq, hread.signed.nil_left, List.append_nil]
  exact hread.fits

end NlinkLab.Lower
