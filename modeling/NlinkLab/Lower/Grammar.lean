import NlinkLab.Lower.Interpolate

/-! The grammar of arithmetic over tokens, with the value of what they spell: products bind
tighter than sums, both group from the left, and a sign stands before an operand. -/

namespace NlinkLab.Lower

inductive ArithOp where
  | add
  | sub
  | mul
  | div
  | rem
  deriving DecidableEq

namespace ArithOp

def token : ArithOp → ArithTok
  | add => .plus
  | sub => .minus
  | mul => .mul
  | div => .div
  | rem => .mod

def isProduct : ArithOp → Bool
  | add | sub => false
  | mul | div | rem => true

/-- The result where it and the quotient of a remainder are numbers of 64 bits. -/
def apply : ArithOp → Int → Int → Option Int
  | add, a, b => checkedI64 (a + b)
  | sub, a, b => checkedI64 (a - b)
  | mul, a, b => checkedI64 (a * b)
  | div, a, b => if b = 0 then none else checkedI64 (a.tdiv b)
  | rem, a, b => if b = 0 then none else (checkedI64 (a.tdiv b)).map fun _ => a.tmod b

end ArithOp

inductive ArithExpr where
  | num (n : Int)
  | neg (e : ArithExpr)
  | bin (op : ArithOp) (left right : ArithExpr)

/-- The value of an expression, none where a value inside it does not fit. -/
def ArithExpr.value : ArithExpr → Option Int
  | num n => some n
  | neg e => e.value.bind fun n => checkedI64 (-n)
  | bin op left right => left.value.bind fun a => right.value.bind fun b => op.apply a b

/-- What the tokens spell at a level. -/
inductive Derives : ArithLevel → List ArithTok → ArithExpr → Prop
  | num (n : Int) : Derives .factor [.num n] (.num n)
  | neg {ts : List ArithTok} {e : ArithExpr} : Derives .factor ts e → Derives .factor (.minus :: ts) (.neg e)
  | group {ts : List ArithTok} {e : ArithExpr} : Derives .expr ts e →
      Derives .factor (.lParen :: (ts ++ [.rParen])) e
  | factor {ts : List ArithTok} {e : ArithExpr} : Derives .factor ts e → Derives .term ts e
  | product {op : ArithOp} {l r : List ArithTok} {a b : ArithExpr} : op.isProduct = true → Derives .term l a →
      Derives .factor r b → Derives .term (l ++ op.token :: r) (.bin op a b)
  | term {ts : List ArithTok} {e : ArithExpr} : Derives .term ts e → Derives .expr ts e
  | sum {op : ArithOp} {l r : List ArithTok} {a b : ArithExpr} : op.isProduct = false → Derives .expr l a →
      Derives .term r b → Derives .expr (l ++ op.token :: r) (.bin op a b)

namespace ArithTok

/-- An operand ends here. -/
def closes : ArithTok → Bool
  | num _ | rParen => true
  | _ => false

/-- An operand starts here, but for its signs. -/
def opens : ArithTok → Bool
  | num _ | lParen => true
  | _ => false

/-- An expression goes on after these. -/
def operator : ArithTok → Bool
  | plus | minus | mul | div | mod => true
  | _ => false

/-- What may stand side by side. -/
def Adjacent (a b : ArithTok) : Prop := (a.closes = true → b.opens = false) ∧ (b = rParen → a.closes = true)

end ArithTok

/-! ### Tokens that spell an expression -/

section Shape

variable {level : ArithLevel} {ts : List ArithTok} {e : ArithExpr}

theorem ArithOp.token_closes (op : ArithOp) : op.token.closes = false := by cases op <;> rfl

theorem ArithOp.token_opens (op : ArithOp) : op.token.opens = false := by cases op <;> rfl

theorem ArithOp.token_ne_rParen (op : ArithOp) : op.token ≠ .rParen := by cases op <;> decide

theorem ArithOp.token_ne_lParen (op : ArithOp) : op.token ≠ .lParen := by cases op <;> decide

theorem ArithOp.token_injective {a b : ArithOp} (h : a.token = b.token) : a = b := by
  cases a <;> cases b <;> first | rfl | exact absurd h nofun

theorem ArithOp.signFollows_token (op : ArithOp) : op.token.signFollows = true := by cases op <;> rfl

/-- An expression starts with an operand or its sign. -/
theorem Derives.head (h : Derives level ts e) : ∃ t r, ts = t :: r ∧ (t.opens = true ∨ t = .minus) := by
  induction h with
  | num n => exact ⟨_, _, rfl, .inl rfl⟩
  | neg _ _ => exact ⟨_, _, rfl, .inr rfl⟩
  | group _ _ => exact ⟨_, _, rfl, .inl rfl⟩
  | factor _ ih | term _ ih => exact ih
  | product _ _ _ ih _ | sum _ _ _ ih _ =>
    obtain ⟨t, r, rfl, ht⟩ := ih
    exact ⟨t, _, rfl, ht⟩

/-- An expression ends with an operand. -/
theorem Derives.last (h : Derives level ts e) : ∃ r t, ts = r ++ [t] ∧ t.closes = true := by
  induction h with
  | num n => exact ⟨[], _, rfl, rfl⟩
  | neg _ ih =>
    obtain ⟨r, t, rfl, ht⟩ := ih
    exact ⟨.minus :: r, t, rfl, ht⟩
  | @group ts _ _ _ => exact ⟨.lParen :: ts, .rParen, rfl, rfl⟩
  | factor _ ih | term _ ih => exact ih
  | @product op l _ _ _ _ _ _ _ ih | @sum op l _ _ _ _ _ _ _ ih =>
    obtain ⟨r, t, rfl, ht⟩ := ih
    exact ⟨l ++ op.token :: r, t, by rw [List.append_assoc, List.cons_append], ht⟩

theorem adjacent_append {l r : List ArithTok} {op : ArithOp} (hl : l.IsChain ArithTok.Adjacent)
    (hr : r.IsChain ArithTok.Adjacent) (hhead : ∃ t r', r = t :: r' ∧ (t.opens = true ∨ t = .minus)) :
    (l ++ op.token :: r).IsChain ArithTok.Adjacent := by
  obtain ⟨t, r', rfl, ht⟩ := hhead
  refine List.isChain_append.mpr ⟨hl, List.isChain_cons_cons.mpr ⟨⟨?_, ?_⟩, hr⟩, ?_⟩
  · intro hclose
    rw [op.token_closes] at hclose
    cases hclose
  · rintro rfl
    rcases ht with ht | ht <;> cases ht
  · intro a _ b hb
    obtain rfl := Option.some.inj hb
    exact ⟨fun _ => op.token_opens, fun heq => absurd heq op.token_ne_rParen⟩

theorem Derives.adjacent (h : Derives level ts e) : ts.IsChain ArithTok.Adjacent := by
  induction h with
  | num n => exact List.isChain_singleton _
  | neg h ih =>
    obtain ⟨t, r, rfl, ht⟩ := h.head
    refine List.isChain_cons_cons.mpr ⟨⟨fun hclose => (by cases hclose), ?_⟩, ih⟩
    rintro rfl
    rcases ht with ht | ht <;> cases ht
  | group h ih =>
    obtain ⟨t, r, rfl, ht⟩ := h.head
    have hopen : ArithTok.Adjacent .lParen t := by
      refine ⟨fun hclose => (by cases hclose), ?_⟩
      rintro rfl
      rcases ht with ht | ht <;> cases ht
    obtain ⟨r', t', heq, hclose⟩ := h.last
    refine List.isChain_cons_cons.mpr ⟨hopen, List.isChain_append.mpr ⟨ih, List.isChain_singleton _, ?_⟩⟩
    intro a ha b hb
    obtain rfl := Option.some.inj hb
    rw [heq, List.getLast?_concat] at ha
    obtain rfl := Option.some.inj ha
    exact ⟨fun _ => rfl, fun _ => hclose⟩
  | factor _ ih | term _ ih => exact ih
  | product _ _ hr ihl ihr | sum _ _ hr ihl ihr => exact adjacent_append ihl ihr hr.head

/-- As many parentheses are closed as opened, and never more before any place. -/
def Closed (ts : List ArithTok) : Prop :=
  ts.count .rParen = ts.count .lParen ∧ ∀ p s, ts = p ++ s → p.count .rParen ≤ p.count .lParen

theorem closed_cons {t : ArithTok} (hl : t ≠ .lParen) (hr : t ≠ .rParen) (h : Closed ts) : Closed (t :: ts) := by
  refine ⟨by rw [List.count_cons_of_ne hr, List.count_cons_of_ne hl, h.1], fun p s heq => ?_⟩
  cases p with
  | nil => rfl
  | cons t' p =>
    obtain ⟨rfl, rfl⟩ := List.cons.inj heq
    rw [List.count_cons_of_ne hr, List.count_cons_of_ne hl]
    exact h.2 p s rfl

theorem closed_append {l r : List ArithTok} (hl : Closed l) (hr : Closed r) : Closed (l ++ r) := by
  refine ⟨by rw [List.count_append, List.count_append, hl.1, hr.1], fun p s heq => ?_⟩
  rcases List.append_eq_append_iff.mp heq with ⟨p', rfl, hs⟩ | ⟨s', hs, -⟩
  · have hp := hr.2 p' s hs
    rw [List.count_append, List.count_append]
    have := hl.1
    omega
  · exact hl.2 p s' hs

theorem closed_group (h : Closed ts) : Closed (.lParen :: (ts ++ [.rParen])) := by
  have hne : ArithTok.lParen ≠ .rParen := by decide
  refine ⟨?_, fun p s heq => ?_⟩
  · rw [List.count_cons_self, List.count_cons_of_ne hne, List.count_append, List.count_append, List.count_singleton_self,
      List.count_singleton]
    have := h.1
    simp only [beq_iff_eq, if_neg hne.symm]
    omega
  · cases p with
    | nil => rfl
    | cons t' p =>
      obtain ⟨rfl, htail⟩ := List.cons.inj heq
      rw [List.count_cons_self, List.count_cons_of_ne hne]
      rcases List.append_eq_append_iff.mp htail with ⟨p', rfl, hs⟩ | ⟨s', hs, -⟩
      · have hlen : p'.count .rParen ≤ 1 := by
          refine (List.count_le_length).trans ?_
          have := congrArg List.length hs
          rw [List.length_append, List.length_singleton] at this
          omega
        rw [List.count_append, List.count_append]
        have := h.1
        omega
      · exact (h.2 p s' hs).trans (Nat.le_succ _)

/-- Parentheses are closed in the order in which they are opened. -/
theorem Derives.closed (h : Derives level ts e) : Closed ts := by
  have hnil : Closed [] := ⟨rfl, fun p s heq => by rw [(List.append_eq_nil_iff.mp heq.symm).1]; rfl⟩
  induction h with
  | num n => exact closed_cons nofun nofun hnil
  | neg _ ih => exact closed_cons nofun nofun ih
  | group _ ih => exact closed_group ih
  | factor _ ih | term _ ih => exact ih
  | product _ _ _ ihl ihr | sum _ _ _ ihl ihr =>
    exact closed_append ihl (closed_cons (ArithOp.token_ne_lParen _) (ArithOp.token_ne_rParen _) ihr)

end Shape

/-! ### A beginning that is an expression -/

/-- With `k` of its parentheses open, an expression does not go on into these tokens. -/
def Stops (k : Nat) (ts : List ArithTok) : Prop :=
  ∀ t ∈ ts.head?, t.operator = false ∧ (k ≠ 0 → t ≠ .rParen)

/-- A beginning of the tokens has a value when its parentheses are closed, and it is not the
whole of them. -/
def CutShort (ts : List ArithTok) : Prop :=
  ∃ p s k e v, ts = p ++ s ∧ Derives .expr (p ++ .replicate k .rParen) e ∧ e.value = some v ∧ Stops k s ∧
    (k ≠ 0 ∨ s ≠ [])

theorem closes_last {level : ArithLevel} {p : List ArithTok} {k : Nat} {e : ArithExpr}
    (h : Derives level (p ++ .replicate k .rParen) e) : ∃ r t, p = r ++ [t] ∧ t.closes = true := by
  rcases List.eq_nil_or_concat' p with rfl | ⟨r, t, rfl⟩
  · obtain ⟨t, r, heq, ht⟩ := h.head
    cases k with
    | zero => cases heq
    | succ k =>
      obtain ⟨rfl, -⟩ := List.cons.inj (List.replicate_succ.symm.trans heq)
      rcases ht with ht | ht <;> cases ht
  · refine ⟨r, t, rfl, ?_⟩
    cases k with
    | zero =>
      rw [List.replicate_zero, List.append_nil] at h
      obtain ⟨r', t', heq, hclose⟩ := h.last
      obtain ⟨-, hlast⟩ := List.append_inj' heq rfl
      obtain rfl := List.singleton_inj.mp hlast
      exact hclose
    | succ k =>
      have hlast : t ∈ (r ++ [t]).getLast? := List.getLast?_concat
      exact ((List.isChain_append.mp h.adjacent).2.2 t hlast .rParen rfl).2 rfl

/-- An expression is not cut short. -/
theorem whole_of_derives {p s : List ArithTok} {k : Nat} {e e' : ArithExpr} (hwhole : Derives .expr (p ++ s) e')
    (hbegin : Derives .expr (p ++ .replicate k .rParen) e) (hstop : Stops k s) : k = 0 ∧ s = [] := by
  have hopen : p.count .rParen + k = p.count .lParen := by
    have hcount := hbegin.closed.1
    have hnone : (List.replicate k ArithTok.rParen).count .lParen = 0 :=
      List.count_eq_zero_of_not_mem fun hmem => by cases List.eq_of_mem_replicate hmem
    rwa [List.count_append, List.count_append, List.count_replicate_self, hnone, Nat.add_zero] at hcount
  cases s with
  | nil =>
    have hcount := hwhole.closed.1
    rw [List.append_nil] at hcount
    exact ⟨by omega, rfl⟩
  | cons t s =>
    obtain ⟨r, a, rfl, hclose⟩ := closes_last hbegin
    have hadjacent := (List.isChain_append.mp hwhole.adjacent).2.2 a List.getLast?_concat t rfl
    obtain ⟨hoperator, hparen⟩ := hstop t rfl
    have ht : t = .rParen := by
      have hopens := hadjacent.1 hclose
      cases t <;> first | rfl | (cases hoperator; done) | cases hopens
    subst ht
    have hk : k = 0 := by
      by_contra hk
      exact hparen hk rfl
    have hcount := hwhole.closed.2 (r ++ [a] ++ [.rParen]) s (by rw [List.append_assoc _ _ s]; rfl)
    rw [List.count_append, @List.count_append _ _ _ _ [ArithTok.rParen], List.count_singleton_self,
      List.count_singleton] at hcount
    simp only [beq_iff_eq] at hcount
    rw [if_neg nofun] at hcount
    omega

theorem not_cutShort {ts : List ArithTok} {e : ArithExpr} (h : Derives .expr ts e) : ¬CutShort ts := by
  rintro ⟨p, s, k, e', v, rfl, hbegin, -, hstop, hmore⟩
  obtain ⟨rfl, rfl⟩ := whole_of_derives h hbegin hstop
  exact hmore.elim (absurd rfl) (absurd rfl)

end NlinkLab.Lower
