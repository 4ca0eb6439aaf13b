import NlinkLab.Data.Fallible

/-! Unsigned machine arithmetic of a width: the operations that stop the program where the
result does not fit, and the checked ones that say so. A shift by the width or more does
not fit. -/

namespace NlinkLab.Machine

/-- How a computation ends early: the program panics, or it gives an error of its own. -/
inductive Stop (E : Type) where
  | panic
  | error (e : E)
  deriving DecidableEq

abbrev Run (E A : Type) := Except (Stop E) A

variable {E A B : Type}

def fail (e : E) : Run E A := .error (.error e)

def panics : Run E A := .error .panic

/-- A computation that cannot panic, as a part of one that could. -/
def lift (x : Except E A) : Run E A := x.mapError .error

/-! ### Operations -/

def add (w a b : Nat) : Run E Nat := if a + b < 2 ^ w then .ok (a + b) else panics

def sub (a b : Nat) : Run E Nat := if b ≤ a then .ok (a - b) else panics

def shl (w a k : Nat) : Run E Nat := if k < w then .ok ((a <<< k) % 2 ^ w) else panics

def shr (w a k : Nat) : Run E Nat := if k < w then .ok (a >>> k) else panics

def div (a b : Nat) : Run E Nat := if b = 0 then panics else .ok (a / b)

def checkedAdd (w a b : Nat) : Option Nat := if a + b < 2 ^ w then some (a + b) else none

def checkedShl (w a k : Nat) : Option Nat := if k < w then some ((a <<< k) % 2 ^ w) else none

/-! ### What fits -/

theorem add_of_lt {w a b : Nat} (h : a + b < 2 ^ w) : (add w a b : Run E Nat) = .ok (a + b) := if_pos h

theorem sub_of_le {a b : Nat} (h : b ≤ a) : (sub a b : Run E Nat) = .ok (a - b) := if_pos h

theorem shl_of_lt {w a k : Nat} (h : k < w) : (shl w a k : Run E Nat) = .ok (a * 2 ^ k % 2 ^ w) := by
  rw [shl, if_pos h, Nat.shiftLeft_eq]

theorem shr_of_lt {w a k : Nat} (h : k < w) : (shr w a k : Run E Nat) = .ok (a / 2 ^ k) := by
  rw [shr, if_pos h, Nat.shiftRight_eq_div_pow]

theorem div_of_pos {a b : Nat} (h : 0 < b) : (div a b : Run E Nat) = .ok (a / b) := if_neg h.ne'

theorem checkedAdd_of_lt {w a b : Nat} (h : a + b < 2 ^ w) : checkedAdd w a b = some (a + b) := if_pos h

theorem checkedAdd_of_le {w a b : Nat} (h : 2 ^ w ≤ a + b) : checkedAdd w a b = none := if_neg h.not_gt

theorem checkedShl_of_lt {w a k : Nat} (h : k < w) : checkedShl w a k = some (a * 2 ^ k % 2 ^ w) := by
  rw [checkedShl, if_pos h, Nat.shiftLeft_eq]

theorem checkedShl_of_le {w a k : Nat} (h : w ≤ k) : checkedShl w a k = none := if_neg h.not_gt

/-- The power of two with a given exponent, where it fits. -/
theorem checkedShl_one {w k : Nat} (h : k < w) : checkedShl w 1 k = some (2 ^ k) := by
  rw [checkedShl_of_lt h, one_mul, Nat.mod_eq_of_lt (Nat.pow_lt_pow_right (by decide) h)]

/-! ### Runs that do not panic -/

def Safe (x : Run E A) : Prop := x ≠ .error .panic

theorem safe_ok (a : A) : Safe (.ok a : Run E A) := nofun

theorem safe_fail (e : E) : Safe (fail e : Run E A) := nofun

theorem safe_lift (x : Except E A) : Safe (lift x) := by
  cases x with
  | error e => nofun
  | ok a => nofun

theorem Safe.bind {x : Run E A} {f : A → Run E B} (hx : Safe x) (hf : ∀ a, x = .ok a → Safe (f a)) :
    Safe (x >>= f) := by
  cases x with
  | error e => exact fun h => hx (congrArg Except.error (Except.error.inj h))
  | ok a => exact hf a rfl

@[simp] theorem lift_eq_ok {x : Except E A} {a : A} : lift x = .ok a ↔ x = .ok a := Fallible.mapError_eq_ok

end NlinkLab.Machine
