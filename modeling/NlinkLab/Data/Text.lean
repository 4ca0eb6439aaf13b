import Mathlib

/-! The text operations of the standard library that the code uses. -/

namespace NlinkLab

/-- The text after a leading `lead`. -/
def stripPrefix (lead s : String) : Option String :=
  if lead.toList <+: s.toList then some (String.ofList (s.toList.drop lead.length)) else none

/-- The text before the first of a character, or the whole. -/
def before (c : Char) (s : String) : String := String.ofList (s.toList.takeWhile (· ≠ c))

/-- Unicode `White_Space`. -/
def isWhitespace (c : Char) : Bool :=
  let n := c.toNat
  (9 ≤ n ∧ n ≤ 13) ∨ n ∈ [0x20, 0x85, 0xa0, 0x1680, 0x2028, 0x2029, 0x202f, 0x205f, 0x3000] ∨
    (0x2000 ≤ n ∧ n ≤ 0x200a)

def trim (s : String) : String :=
  String.ofList (((s.toList.dropWhile isWhitespace).reverse.dropWhile isWhitespace).reverse)

def isAsciiAlphanumeric (c : Char) : Bool :=
  ('0' ≤ c ∧ c ≤ '9') ∨ ('a' ≤ c ∧ c ≤ 'z') ∨ ('A' ≤ c ∧ c ≤ 'Z')

/-- A relative path under a directory. -/
def joinPath (base path : String) : String :=
  if base = "" ∨ base.toList.getLast? = some '/' then base ++ path else base ++ "/" ++ path

/-- The lines of a text, without their ends. -/
def lines (s : String) : List String :=
  let parts := s.toList.splitOn '\n'
  let ended := parts.dropLast.map fun l => if l.getLast? = some '\r' then l.dropLast else l
  (ended ++ (parts.getLast?.filter (· ≠ [])).toList).map String.ofList

/-- A signed 32-bit decimal number. -/
def parseI32 (s : String) : Option Int :=
  let (negative, digits) := match s.toList with
    | '-' :: c :: cs => (true, c :: cs)
    | '+' :: c :: cs => (false, c :: cs)
    | cs => (false, cs)
  if digits = [] ∨ digits.any (fun c => c < '0' ∨ '9' < c) then none
  else
    let n := digits.foldl (fun n c => n * 10 + (c.toNat - '0'.toNat)) 0
    if negative then if n ≤ 2 ^ 31 then some (-(n : Int)) else none
    else if n < 2 ^ 31 then some (n : Int) else none

/-! ### Numbers -/

/-- A number is written in digits alone. -/
theorem notMem_toString {c : Char} (hc : c.isDigit = false) (n : Nat) : c ∉ (toString n).toList := by
  intro h
  have hd := Nat.isDigit_of_mem_toDigits (b := 10) (by decide) (by decide) (n := n) (c := c)
    (by simpa using h)
  rw [hc] at hd
  exact absurd hd (by decide)

/-! ### Cutting a text -/

/-- A text is cut in one way at the first of a character. -/
theorem append_inj_of_sep {c : Char} {a a' b b' : String} (ha : c ∉ a.toList) (ha' : c ∉ a'.toList)
    (h : a ++ String.singleton c ++ b = a' ++ String.singleton c ++ b') : a = a' ∧ b = b' := by
  have htake : ∀ {s r : String}, c ∉ s.toList →
      (s ++ String.singleton c ++ r).toList.takeWhile (· ≠ c) = s.toList := by
    intro s r hs
    have hne : ∀ x ∈ s.toList, x ≠ c := fun x hx he => hs (he ▸ hx)
    rw [String.toList_append, String.toList_append, List.append_assoc,
      List.takeWhile_append_of_pos (by simpa using hne)]
    simp
  have hleft : a = a' := String.toList_inj.mp (by rw [← htake ha (r := b), h, htake ha'])
  subst hleft
  exact ⟨rfl, by simpa [String.append_assoc] using h⟩

end NlinkLab
