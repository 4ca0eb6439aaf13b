import NlinkLab.Data.Text

/-! Texts as the lines they are made of. -/

namespace NlinkLab

/-- The text of whole lines. -/
def joinLines (ls : List String) : String := String.join (ls.map (· ++ "\n"))

def trimEnd (s : String) : String := String.ofList (s.toList.rdropWhile isWhitespace)

/-- Nothing but white space. -/
def isBlank (l : String) : Bool := l.toList.all isWhitespace

/-- The last character is no white space, and there is one. -/
def endsInText (l : String) : Bool := l.toList.getLast?.any (!isWhitespace ·)

/-- All but the blank lines at the end. -/
def stripBlank (ls : List String) : List String := ls.rdropWhile isBlank

/-- A line as `lines` gives it back: without a line break in it or half of one at its end. -/
def isLine (l : String) : Prop := '\n' ∉ l.toList ∧ l.toList.getLast? ≠ some '\r'

instance (l : String) : Decidable (isLine l) := inferInstanceAs (Decidable (_ ∧ _))

/-! ### Joining -/

theorem toList_joinLines (ls : List String) :
    (joinLines ls).toList = ls.flatMap fun l => l.toList ++ ['\n'] := by
  induction ls with
  | nil => rfl
  | cons l ls ih =>
    have : joinLines (l :: ls) = l ++ "\n" ++ joinLines ls := by simp [joinLines, String.join_cons]
    rw [this, String.toList_append, String.toList_append, ih, List.flatMap_cons]
    rfl

theorem joinLines_append (ls ms : List String) : joinLines (ls ++ ms) = joinLines ls ++ joinLines ms := by
  apply String.toList_inj.mp
  rw [String.toList_append, toList_joinLines, toList_joinLines, toList_joinLines, List.flatMap_append]

theorem joinLines_singleton (l : String) : joinLines [l] = l ++ "\n" := by
  simp [joinLines]

theorem splitOn_joinLines {ls : List String} (h : ∀ l ∈ ls, '\n' ∉ l.toList) :
    (joinLines ls).toList.splitOn '\n' = ls.map String.toList ++ [[]] := by
  rw [toList_joinLines]
  induction ls with
  | nil => simp
  | cons l ls ih =>
    rw [List.flatMap_cons, List.append_assoc, List.singleton_append,
      List.splitOn_append_cons_self_of_not_mem (h l List.mem_cons_self),
      ih fun m hm => h m (List.mem_cons_of_mem _ hm)]
    rfl

/-- Whole lines are read back. -/
theorem lines_joinLines {ls : List String} (h : ∀ l ∈ ls, isLine l) : lines (joinLines ls) = ls := by
  have hended : (ls.map String.toList).map
      (fun l => if l.getLast? = some '\r' then l.dropLast else l) = ls.map String.toList := by
    rw [List.map_map]
    apply List.map_congr_left
    intro l hl
    exact if_neg (h l hl).2
  unfold lines
  rw [splitOn_joinLines fun l hl => (h l hl).1]
  simp only [List.dropLast_concat, List.getLast?_concat, hended]
  simp [List.map_map, Function.comp_def]

theorem notMem_splitOn {A : Type} [BEq A] [LawfulBEq A] {a : A} {xs l : List A} (h : l ∈ xs.splitOn a) : a ∉ l := by
  induction xs generalizing l with
  | nil =>
    rw [List.splitOn_nil, List.mem_singleton] at h
    simp [h]
  | cons x xs ih =>
    rw [List.splitOn_cons_eq_if_modifyHead] at h
    split_ifs at h with hx
    · rcases List.mem_cons.mp h with rfl | h
      · exact List.not_mem_nil
      · exact ih h
    · rcases hsplit : xs.splitOn a with _ | ⟨p, ps⟩
      · simp [hsplit] at h
      · rw [hsplit, List.modifyHead_cons] at h
        rcases List.mem_cons.mp h with rfl | h
        · have hp := ih (hsplit ▸ List.mem_cons_self)
          have hne : x ≠ a := fun he => hx (beq_iff_eq.mpr he)
          exact List.not_mem_cons_of_ne_of_not_mem hne.symm hp
        · exact ih (hsplit ▸ List.mem_cons_of_mem _ h)

/-! ### Cutting -/

/-- The lines of a text are those up to a newline and those after it. -/
theorem lines_append_newline (a b : List Char) : lines (String.ofList (a ++ '\n' :: b)) =
    lines (String.ofList (a ++ ['\n'])) ++ lines (String.ofList b) := by
  have hne : b.splitOn '\n' ≠ [] := List.splitOn_ne_nil _ _
  have hlast : (a.splitOn '\n' ++ b.splitOn '\n').getLast? = (b.splitOn '\n').getLast? :=
    List.getLast?_append_of_ne_nil _ hne
  unfold lines
  simp only [String.toList_ofList, List.splitOn_append_cons_self, List.splitOn_nil, hlast,
    List.dropLast_append_of_ne_nil hne, List.dropLast_concat, List.getLast?_concat, List.map_append]
  simp

theorem length_lines (cs : List Char) : (lines (String.ofList cs)).length =
    (cs.splitOn '\n').length - 1 + ((cs.splitOn '\n').getLast?.filter (· ≠ [])).toList.length := by
  unfold lines
  simp only [String.toList_ofList, List.length_map, List.length_append, List.length_dropLast]

section

variable {A : Type} [BEq A] [LawfulBEq A]

omit [LawfulBEq A] in
theorem length_splitOn (a : A) (xs : List A) : (xs.splitOn a).length = xs.count a + 1 := by
  induction xs with
  | nil => rfl
  | cons x xs ih =>
    rw [List.splitOn_cons_eq_if_modifyHead, List.count_cons]
    split_ifs with hx
    · rw [List.length_cons, ih]
    · rw [List.length_modifyHead, ih, Nat.add_zero]

/-- What does not end in the separator ends in a part. -/
theorem getLast?_splitOn {a : A} {xs : List A} (hne : xs ≠ []) (hlast : xs.getLast? ≠ some a) :
    (xs.splitOn a).getLast? ≠ some [] := by
  induction xs with
  | nil => exact absurd rfl hne
  | cons x xs ih =>
    rw [List.splitOn_cons_eq_if_modifyHead]
    rcases xs with - | ⟨y, ys⟩
    · have hx : (x == a) = false := beq_eq_false_iff_ne.mpr fun h => hlast (congrArg some h)
      rw [hx]
      simp
    · have ih := ih (List.cons_ne_nil _ _) (by simpa using hlast)
      rcases hsplit : (y :: ys).splitOn a with - | ⟨p, - | ⟨q, ps⟩⟩
      · exact absurd hsplit (List.splitOn_ne_nil _ _)
      · split_ifs
        · rwa [List.getLast?_cons_cons, ← hsplit]
        · simp
      · rw [hsplit] at ih
        split_ifs
        · rwa [List.getLast?_cons_cons]
        · rwa [List.modifyHead_cons, List.getLast?_cons_cons, ← List.getLast?_cons_cons (a := p)]

end

/-! ### Blank ends -/

theorem not_isBlank_of_endsInText {l : String} (h : endsInText l) : ¬ isBlank l := by
  intro hb
  rcases hlast : l.toList.getLast? with _ | c
  · simp [endsInText, hlast] at h
  · have hc : isWhitespace c := List.all_eq_true.mp hb c (List.mem_of_getLast? hlast)
    simp [endsInText, hlast, hc] at h

theorem rdropWhile_append_of_all {A : Type} {p : A → Bool} {l m : List A} (h : ∀ x ∈ m, p x) :
    (l ++ m).rdropWhile p = l.rdropWhile p := by
  induction m using List.reverseRecOn with
  | nil => rw [List.append_nil]
  | append_singleton m x ih =>
    rw [← List.append_assoc, List.rdropWhile_concat_pos _ _ _ (h x (by simp))]
    exact ih fun y hy => h y (List.mem_append_left _ hy)

/-- A text of whole lines, cut after its last text and ended again, is the lines up to the
last that is not blank, if that one ends in text. -/
theorem trimEnd_joinLines {ls : List String} (h : ∀ l, (stripBlank ls).getLast? = some l → endsInText l) :
    (if trimEnd (joinLines ls) = "" then "" else trimEnd (joinLines ls) ++ "\n") =
      joinLines (stripBlank ls) := by
  induction ls using List.reverseRecOn with
  | nil => rfl
  | append_singleton ls l ih =>
    by_cases hl : isBlank l
    · have hstrip : stripBlank (ls ++ [l]) = stripBlank ls := List.rdropWhile_concat_pos _ _ _ hl
      have htrim : trimEnd (joinLines (ls ++ [l])) = trimEnd (joinLines ls) := by
        rw [trimEnd, trimEnd, joinLines_append, String.toList_append, joinLines_singleton,
          rdropWhile_append_of_all]
        intro c hc
        rw [String.toList_append] at hc
        rcases List.mem_append.mp hc with hc | hc
        · exact List.all_eq_true.mp hl c hc
        · rw [List.mem_singleton.mp hc]
          decide
      rw [htrim, hstrip]
      exact ih (hstrip ▸ h)
    · have hstrip : stripBlank (ls ++ [l]) = ls ++ [l] := List.rdropWhile_concat_neg _ _ _ hl
      have hend := h l (by rw [hstrip, List.getLast?_concat])
      obtain ⟨cs, c, hcs⟩ : ∃ cs c, l.toList = cs ++ [c] := by
        rcases List.eq_nil_or_concat l.toList with hnil | ⟨cs, c, hcs⟩
        · simp [endsInText, hnil] at hend
        · exact ⟨cs, c, by simpa using hcs⟩
      have hc : ¬ isWhitespace c := by simpa [endsInText, hcs] using hend
      have htrim : trimEnd (joinLines (ls ++ [l])) = joinLines ls ++ l := by
        apply String.toList_inj.mp
        rw [trimEnd, String.toList_ofList, joinLines_append, joinLines_singleton, String.toList_append,
          String.toList_append, String.toList_append, ← List.append_assoc, hcs, ← List.append_assoc]
        rw [show "\n".toList = ['\n'] from rfl, List.rdropWhile_concat_pos _ _ _ (by decide),
          List.rdropWhile_concat_neg _ _ _ hc]
      have hne : joinLines ls ++ l ≠ "" := by
        intro he
        have := congrArg String.toList he
        simp [hcs] at this
      rw [htrim, if_neg hne, hstrip, joinLines_append, joinLines_singleton, String.append_assoc]

end NlinkLab
