import Mathlib

/-! A log kept in segments, of which the newest stands first. Items are appended to the
newest segment; a rotation starts a new one and keeps so many of the others, the newest of
them. What the segments hold is always the end of what was appended. -/

namespace NlinkLab.RotatingLog

variable {A : Type}

/-- The items of all segments, in the order they were appended. -/
def contents (segments : List (List A)) : List A := segments.reverse.flatten

def append (a : A) : List (List A) → List (List A)
  | [] => []
  | segment :: rest => (segment ++ [a]) :: rest

def rotate (keep : Nat) (segments : List (List A)) : List (List A) := [] :: segments.take keep

theorem contents_cons (segment : List A) (rest : List (List A)) :
    contents (segment :: rest) = contents rest ++ segment := by
  simp [contents]

theorem contents_append (a : A) {segments : List (List A)} (h : segments ≠ []) :
    contents (append a segments) = contents segments ++ [a] := by
  cases segments with
  | nil => exact absurd rfl h
  | cons segment rest => rw [append, contents_cons, contents_cons, List.append_assoc]

/-- What a rotation drops are the oldest items. -/
theorem contents_rotate (keep : Nat) (segments : List (List A)) :
    contents (rotate keep segments) <:+ contents segments := by
  refine ⟨(segments.drop keep).reverse.flatten, ?_⟩
  rw [rotate, contents_cons, List.append_nil, contents, contents, ← List.flatten_append, ← List.reverse_append,
    List.take_append_drop]

theorem suffix_append {log : List A} {segments : List (List A)} (h : contents segments <:+ log)
    (hne : segments ≠ []) (a : A) : contents (append a segments) <:+ log ++ [a] := by
  obtain ⟨before, rfl⟩ := h
  exact ⟨before, by rw [contents_append a hne, List.append_assoc]⟩

theorem suffix_rotate {log : List A} {segments : List (List A)} (h : contents segments <:+ log) (keep : Nat) :
    contents (rotate keep segments) <:+ log := (contents_rotate keep segments).trans h

end NlinkLab.RotatingLog
