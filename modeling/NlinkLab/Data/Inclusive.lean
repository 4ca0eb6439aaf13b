import Mathlib.Data.List.Basic
import Mathlib.Data.List.TakeWhile

/-! A buffer cut into lines that keep their end. The lines that have ended stay as they
are while the buffer grows, and so a reader can go on from where they end. -/

namespace NlinkLab

variable {B : Type*}

/-- An element in front of the first of the lines. -/
def consHead (b : B) : List (List B) → List (List B)
  | [] => [[b]]
  | l :: ls => (b :: l) :: ls

/-- The lines of a buffer, each with the element that ends it. -/
def splitInclusive (p : B → Bool) : List B → List (List B)
  | [] => []
  | b :: bs => if p b then [b] :: splitInclusive p bs else consHead b (splitInclusive p bs)

/-- A line has its end. -/
def hasEnded (p : B → Bool) (l : List B) : Bool := l.getLast?.any p

/-- The lines of a buffer that have ended. -/
def endedLines (p : B → Bool) (bs : List B) : List (List B) :=
  (splitInclusive p bs).takeWhile (hasEnded p)

/-- One line, with its end and nothing after it. -/
def IsEndedLine (p : B → Bool) (l : List B) : Prop :=
  ∃ text e, l = text ++ [e] ∧ p e ∧ ∀ b ∈ text, p b = false

/-- The last line of a buffer, where it has not ended. -/
def openLine (t : List B) : List (List B) := if t = [] then [] else [t]

variable {p : B → Bool}

theorem IsEndedLine.hasEnded {l : List B} (h : IsEndedLine p l) : hasEnded p l := by
  obtain ⟨text, e, rfl, he, -⟩ := h
  simp [NlinkLab.hasEnded, he]

theorem not_hasEnded {t : List B} (h : ∀ b ∈ t, p b = false) : hasEnded p t = false := by
  cases hl : t.getLast? with
  | none => simp [hasEnded, hl]
  | some e => simp [hasEnded, hl, h e (List.mem_of_getLast? hl)]

theorem splitInclusive_cons_line {l : List B} (h : IsEndedLine p l) (bs : List B) :
    splitInclusive p (l ++ bs) = l :: splitInclusive p bs := by
  obtain ⟨text, e, rfl, he, htext⟩ := h
  induction text with
  | nil => simp [splitInclusive, he]
  | cons b text ih =>
    have ih := ih fun c hc => htext c (List.mem_cons_of_mem _ hc)
    rw [List.cons_append, List.cons_append, splitInclusive, htext b List.mem_cons_self, if_neg nofun, ih]
    rfl

theorem splitInclusive_open {t : List B} (h : ∀ b ∈ t, p b = false) : splitInclusive p t = openLine t := by
  induction t with
  | nil => rfl
  | cons b t ih =>
    rw [splitInclusive, h b List.mem_cons_self, if_neg nofun, ih fun c hc => h c (List.mem_cons_of_mem _ hc)]
    cases t with
    | nil => rfl
    | cons c t => rfl

/-- A buffer is its ended lines and an open one. -/
theorem exists_lines (p : B → Bool) (bs : List B) :
    ∃ (ls : List (List B)) (t : List B), bs = ls.flatten ++ t ∧ (∀ l ∈ ls, IsEndedLine p l) ∧ ∀ b ∈ t, p b = false := by
  induction bs with
  | nil => exact ⟨[], [], rfl, nofun, nofun⟩
  | cons b bs ih =>
    obtain ⟨ls, t, rfl, hls, ht⟩ := ih
    cases hb : p b with
    | true =>
      refine ⟨[b] :: ls, t, rfl, ?_, ht⟩
      exact List.forall_mem_cons.mpr ⟨⟨[], b, rfl, hb, nofun⟩, hls⟩
    | false =>
      cases ls with
      | nil => exact ⟨[], b :: t, rfl, nofun, List.forall_mem_cons.mpr ⟨hb, ht⟩⟩
      | cons l ls =>
        obtain ⟨⟨text, e, rfl, he, htext⟩, hrest⟩ := List.forall_mem_cons.mp hls
        refine ⟨(b :: text ++ [e]) :: ls, t, by simp, List.forall_mem_cons.mpr ⟨?_, hrest⟩, ht⟩
        exact ⟨b :: text, e, rfl, he, List.forall_mem_cons.mpr ⟨hb, htext⟩⟩

theorem splitInclusive_lines {ls : List (List B)} {t : List B} (hls : ∀ l ∈ ls, IsEndedLine p l)
    (ht : ∀ b ∈ t, p b = false) : splitInclusive p (ls.flatten ++ t) = ls ++ openLine t := by
  induction ls with
  | nil => exact splitInclusive_open ht
  | cons l ls ih =>
    obtain ⟨hl, hls⟩ := List.forall_mem_cons.mp hls
    rw [List.flatten_cons, List.append_assoc, splitInclusive_cons_line hl, ih hls, List.cons_append]

theorem endedLines_lines {ls : List (List B)} {t : List B} (hls : ∀ l ∈ ls, IsEndedLine p l)
    (ht : ∀ b ∈ t, p b = false) : endedLines p (ls.flatten ++ t) = ls := by
  rw [endedLines, splitInclusive_lines hls ht, List.takeWhile_append_of_pos fun l hl => (hls l hl).hasEnded]
  by_cases h : t = []
  · simp [openLine, h]
  · simp [openLine, h, not_hasEnded ht]

/-- The lines that have ended are the first of the lines. -/
theorem splitInclusive_eq (bs : List B) : ∃ t, (∀ b ∈ t, p b = false) ∧
    splitInclusive p bs = endedLines p bs ++ openLine t := by
  obtain ⟨ls, t, rfl, hls, ht⟩ := exists_lines p bs
  exact ⟨t, ht, by rw [endedLines_lines hls ht, splitInclusive_lines hls ht]⟩

@[simp] theorem endedLines_nil : endedLines p ([] : List B) = [] := rfl

/-- A growing buffer keeps its ended lines. -/
theorem endedLines_append (bs more : List B) : endedLines p bs <+: endedLines p (bs ++ more) := by
  obtain ⟨ls, t, rfl, hls, ht⟩ := exists_lines p bs
  obtain ⟨ls', t', hmore, hls', ht'⟩ := exists_lines p (t ++ more)
  have hall : ∀ l ∈ ls ++ ls', IsEndedLine p l := List.forall_mem_append.mpr ⟨hls, hls'⟩
  rw [List.append_assoc, hmore, ← List.append_assoc, ← List.flatten_append, endedLines_lines hls ht,
    endedLines_lines hall ht']
  exact List.prefix_append ..

/-- Where the first ended lines stop, the others begin. -/
theorem endedLines_drop {bs : List B} {ls ms : List (List B)} (h : endedLines p bs = ls ++ ms) :
    endedLines p (bs.drop ls.flatten.length) = ms := by
  obtain ⟨ns, t, rfl, hns, ht⟩ := exists_lines p bs
  rw [endedLines_lines hns ht] at h
  subst h
  have hms : ∀ l ∈ ms, IsEndedLine p l := fun l hl => hns l (List.mem_append_right _ hl)
  rw [List.flatten_append, List.append_assoc, List.drop_left, endedLines_lines hms ht]

theorem flatten_endedLines_le (bs : List B) : (endedLines p bs).flatten.length ≤ bs.length := by
  obtain ⟨ls, t, rfl, hls, ht⟩ := exists_lines p bs
  rw [endedLines_lines hls ht, List.length_append]
  exact Nat.le_add_right ..

/-- The ended lines up to where the first of them stop. -/
theorem endedLines_take {bs : List B} {ls ms : List (List B)} (h : endedLines p bs = ls ++ ms) :
    endedLines p (bs.take ls.flatten.length) = ls := by
  obtain ⟨ns, t, rfl, hns, ht⟩ := exists_lines p bs
  rw [endedLines_lines hns ht] at h
  subst h
  have hls : ∀ l ∈ ls, IsEndedLine p l := fun l hl => hns l (List.mem_append_left _ hl)
  rw [List.flatten_append, List.append_assoc, List.take_left, ← List.append_nil ls.flatten,
    endedLines_lines hls (by simp)]

end NlinkLab
