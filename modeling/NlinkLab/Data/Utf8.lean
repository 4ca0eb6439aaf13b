import Mathlib

/-! Bytes read as UTF-8 with every part that is none replaced, as the standard library
does it: the longest beginning of a character becomes one U+FFFD. An ASCII byte is no
part of any other character, so that a newline cuts the bytes where it cuts the text. -/

namespace NlinkLab.Utf8

/-- How many bytes follow a byte that begins a longer character, and between which
bounds the first of them is. -/
def lead (b : UInt8) : Option (ℕ × UInt8 × UInt8) :=
  if 0xC2 ≤ b ∧ b ≤ 0xDF then some (1, 0x80, 0xBF)
  else if b = 0xE0 then some (2, 0xA0, 0xBF)
  else if b = 0xED then some (2, 0x80, 0x9F)
  else if 0xE1 ≤ b ∧ b ≤ 0xEF then some (2, 0x80, 0xBF)
  else if b = 0xF0 then some (3, 0x90, 0xBF)
  else if b = 0xF4 then some (3, 0x80, 0x8F)
  else if 0xF1 ≤ b ∧ b ≤ 0xF3 then some (3, 0x80, 0xBF)
  else none

/-- The bytes of a character after its first, as far as they are there. -/
def conts : ℕ → UInt8 → UInt8 → List UInt8 → List UInt8
  | 0, _, _, _ => []
  | _ + 1, _, _, [] => []
  | k + 1, lo, hi, c :: cs => if lo ≤ c ∧ c ≤ hi then c :: conts k 0x80 0xBF cs else []

/-- The character of a first byte and those that follow it. -/
def charOf (b : UInt8) (cs : List UInt8) : Char :=
  Char.ofNat (cs.foldl (fun n c => n * 64 + c.toNat % 64) (b.toNat % 2 ^ (6 - cs.length)))

def replacement : Char := Char.ofNat 0xFFFD

theorem length_conts_le (k : ℕ) (lo hi : UInt8) (bs : List UInt8) : (conts k lo hi bs).length ≤ bs.length := by
  induction k generalizing lo hi bs with
  | zero => exact Nat.zero_le _
  | succ k ih =>
    cases bs with
    | nil => exact le_rfl
    | cons c cs =>
      unfold conts
      split_ifs
      · exact Nat.succ_le_succ (ih _ _ cs)
      · exact Nat.zero_le _

/-- `String::from_utf8_lossy`. -/
def decodeLossy : List UInt8 → List Char
  | [] => []
  | b :: bs =>
    if b < 0x80 then Char.ofNat b.toNat :: decodeLossy bs
    else
      match lead b with
      | none => replacement :: decodeLossy bs
      | some (k, lo, hi) =>
        let taken := conts k lo hi bs
        (if taken.length = k then charOf b taken else replacement) :: decodeLossy (bs.drop taken.length)
termination_by bs => bs.length
decreasing_by all_goals simp only [List.length_drop, List.length_cons]; omega

/-! ### Newlines -/

/-- The bytes that follow a first one are none of ASCII. -/
theorem conts_append {lo : UInt8} (hlo : 0x80 ≤ lo) (k : ℕ) (hi : UInt8) (bs rest : List UInt8) :
    conts k lo hi (bs ++ 0x0A :: rest) = conts k lo hi bs := by
  induction k generalizing lo hi bs with
  | zero => rfl
  | succ k ih =>
    cases bs with
    | nil =>
      have hlow : ¬ (lo ≤ 0x0A ∧ 0x0A ≤ hi) := by
        rintro ⟨h, -⟩
        exact absurd (UInt8.le_trans hlo h) (by decide)
      exact if_neg hlow
    | cons c cs =>
      simp only [List.cons_append, conts]
      rw [ih (by decide) _ cs]

theorem lead_lo {b : UInt8} {k : ℕ} {lo hi : UInt8} (h : lead b = some (k, lo, hi)) : 0x80 ≤ lo := by
  unfold lead at h
  split_ifs at h <;> cases h <;> decide

theorem decodeLossy_append (bs rest : List UInt8) :
    decodeLossy (bs ++ 0x0A :: rest) = decodeLossy bs ++ '\n' :: decodeLossy rest := by
  induction bs using decodeLossy.induct with
  | case1 =>
    have hlow : (0x0A : UInt8) < 0x80 := by decide
    rw [List.nil_append, decodeLossy, decodeLossy, if_pos hlow]
    rfl
  | case2 b bs hb ih => rw [List.cons_append, decodeLossy, if_pos hb, ih, decodeLossy, if_pos hb, List.cons_append]
  | case3 b bs hb hlead ih =>
    rw [List.cons_append, decodeLossy, if_neg hb, decodeLossy, if_neg hb, hlead]
    exact congrArg _ ih
  | case4 b bs hb k lo hi hlead taken ih =>
    have hconts : conts k lo hi (bs ++ 0x0A :: rest) = taken := conts_append (lead_lo hlead) k hi bs rest
    rw [List.cons_append, decodeLossy, if_neg hb, decodeLossy, if_neg hb, hlead]
    dsimp only
    rw [hconts, List.drop_append_of_le_length (length_conts_le k lo hi bs), ih]
    rfl

theorem decodeLossy_eq_nil {bs : List UInt8} : decodeLossy bs = [] ↔ bs = [] := by
  cases bs with
  | nil => simp [decodeLossy]
  | cons b bs =>
    refine iff_of_false (fun h => ?_) (List.cons_ne_nil _ _)
    rw [decodeLossy] at h
    split_ifs at h
    split at h <;> exact absurd h (List.cons_ne_nil _ _)

theorem le_foldl (n : ℕ) (cs : List UInt8) : n ≤ cs.foldl (fun n c => n * 64 + c.toNat % 64) n := by
  induction cs generalizing n with
  | nil => exact le_rfl
  | cons c cs ih =>
    have hstep : n ≤ n * 64 + c.toNat % 64 := by omega
    exact hstep.trans (ih _)

/-- A longer character has a bit in its first byte or high in its second. -/
theorem lead_bits {b : UInt8} {k : ℕ} {lo hi : UInt8} (h : lead b = some (k, lo, hi)) :
    1 ≤ k ∧ (1 ≤ b.toNat % 2 ^ (6 - k) ∨ ∀ c, lo ≤ c ∧ c ≤ hi → 16 ≤ c.toNat % 64) := by
  unfold lead at h
  simp only [UInt8.le_iff_toNat_le, ← UInt8.toNat_inj] at *
  split_ifs at h with h1 h2 h3 h4 h5 h6 h7 <;> cases h <;> refine ⟨by decide, ?_⟩
  · left; revert h1; simp; omega
  · right; simp; omega
  · left; revert h3; simp; omega
  · left; revert h2 h4; simp; omega
  · right; simp; omega
  · left; revert h6; simp; omega
  · left; revert h7; simp; omega

theorem charOf_ne_newline {b : UInt8} {k : ℕ} {lo hi : UInt8} {bs : List UInt8}
    (hlead : lead b = some (k, lo, hi)) (hlen : (conts k lo hi bs).length = k) :
    charOf b (conts k lo hi bs) ≠ '\n' := by
  obtain ⟨hk, hbits⟩ := lead_bits hlead
  have hge : 16 ≤ (conts k lo hi bs).foldl (fun n c => n * 64 + c.toNat % 64)
      (b.toNat % 2 ^ (6 - (conts k lo hi bs).length)) := by
    rw [hlen]
    obtain ⟨k, rfl⟩ := Nat.exists_eq_add_of_le' hk
    cases bs with
    | nil => cases hlen
    | cons c cs =>
      unfold conts at hlen ⊢
      split_ifs at hlen ⊢ with hc
      · rw [List.foldl_cons]
        refine le_trans ?_ (le_foldl _ _)
        rcases hbits with h | h
        · omega
        · have hc := h c hc
          omega
  intro heq
  have hn := congrArg Char.toNat heq
  have h10 : '\n'.toNat = 10 := by decide
  unfold charOf at hn
  rw [Char.toNat_ofNat, h10] at hn
  split_ifs at hn
  omega

theorem newline_notMem_decodeLossy {bs : List UInt8} (h : 0x0A ∉ bs) : '\n' ∉ decodeLossy bs := by
  have hreplacement : '\n' ≠ replacement := by decide
  induction bs using decodeLossy.induct with
  | case1 => simp [decodeLossy]
  | case2 b bs hb ih =>
    rw [decodeLossy, if_pos hb]
    refine List.not_mem_cons_of_ne_of_not_mem (fun heq => ?_) (ih fun hmem => h (List.mem_cons_of_mem _ hmem))
    refine h (List.mem_cons.mpr (.inl (UInt8.toNat_inj.mp ?_)))
    have hn := congrArg Char.toNat heq
    have hlt : b.toNat < 128 := hb
    have hvalid : b.toNat.isValidChar := .inl (by omega)
    exact hn.trans ((Char.toNat_ofNat _).trans (if_pos hvalid))
  | case3 b bs hb hlead ih =>
    rw [decodeLossy, if_neg hb, hlead]
    exact List.not_mem_cons_of_ne_of_not_mem hreplacement (ih fun hmem => h (List.mem_cons_of_mem _ hmem))
  | case4 b bs hb k lo hi hlead taken ih =>
    rw [decodeLossy, if_neg hb, hlead]
    refine List.not_mem_cons_of_ne_of_not_mem ?_
      (ih fun hmem => h (List.mem_cons_of_mem _ (List.mem_of_mem_drop hmem)))
    split_ifs with hlen
    · exact (charOf_ne_newline hlead hlen).symm
    · exact hreplacement

/-- Bytes are cut at newlines where their text is. -/
theorem splitOn_decodeLossy (bs : List UInt8) :
    (decodeLossy bs).splitOn '\n' = (bs.splitOn 0x0A).map decodeLossy := by
  induction hlen : bs.length using Nat.strong_induction_on generalizing bs with
  | _ n ih =>
    by_cases hmem : (0x0A : UInt8) ∈ bs
    · obtain ⟨before, after, rfl, hnot⟩ := List.eq_append_cons_of_mem hmem
      have hlt : after.length < n := by
        rw [← hlen, List.length_append, List.length_cons]
        omega
      rw [decodeLossy_append, List.splitOn_append_cons_self_of_not_mem (newline_notMem_decodeLossy hnot),
        List.splitOn_append_cons_self_of_not_mem hnot, ih _ hlt after rfl, List.map_cons]
    · rw [List.splitOn_eq_singleton (newline_notMem_decodeLossy hmem), List.splitOn_eq_singleton hmem]
      rfl

end NlinkLab.Utf8
