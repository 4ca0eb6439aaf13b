import Mathlib

/-! Numbers as they are written for an `f64`: a sign, digits with a point and an exponent,
or a word for what is no number. The value is exact here. -/

namespace NlinkLab

inductive Number where
  | finite (q : ℚ)
  | infinite (negative : Bool)
  | nan
  deriving DecidableEq

namespace Decimal

def digitsValue (digits : List Char) : ℕ := digits.foldl (fun n c => n * 10 + (c.toNat - '0'.toNat)) 0

/-- A leading sign, and what follows it. -/
def sign : List Char → Bool × List Char
  | '-' :: cs => (true, cs)
  | '+' :: cs => (false, cs)
  | cs => (false, cs)

def exponent (cs : List Char) : Option ℤ :=
  let (negative, digits) := sign cs
  if digits = [] ∨ ¬digits.all Char.isDigit then none
  else some (if negative then -(digitsValue digits : ℤ) else digitsValue digits)

/-- Digits, with at least one before or after the point. -/
def magnitude (cs : List Char) : Option ℚ :=
  let whole := cs.takeWhile Char.isDigit
  let (fraction, rest) := match cs.dropWhile Char.isDigit with
    | '.' :: rest => (rest.takeWhile Char.isDigit, rest.dropWhile Char.isDigit)
    | rest => ([], rest)
  if whole = [] ∧ fraction = [] then none
  else
    let value : ℚ := digitsValue (whole ++ fraction) / 10 ^ fraction.length
    match rest with
    | [] => some value
    | c :: cs => if c = 'e' ∨ c = 'E' then (exponent cs).map fun e => value * 10 ^ e else none

end Decimal

open Decimal in
def readDecimal (s : String) : Option Number :=
  let (negative, cs) := sign s.toList
  let word := String.ofList (cs.map Char.toLower)
  if word = "inf" ∨ word = "infinity" then some (.infinite negative)
  else if word = "nan" then some .nan
  else (magnitude cs).map fun q => .finite (if negative then -q else q)

example : readDecimal "-12.5e1" = some (.finite (-125)) := by decide +kernel

end NlinkLab
