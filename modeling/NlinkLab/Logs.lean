import NlinkLab.Data.Lines
import NlinkLab.Data.Utf8

/-! The last lines of a log (`logs.rs`): a file is read backwards in chunks until it
has more newlines than lines are asked for, and what was read is decoded and cut into
lines. The first line read may be cut, and may begin inside a character; it is one more
than is asked for. -/

namespace NlinkLab.Logs

open Utf8

/-- The newlines of what was read, a single trailing one ignored. -/
def newlines (buf : List UInt8) : ℕ :=
  (if buf.getLast? = some 0x0A then buf.dropLast else buf).count 0x0A

/-- Read chunks of a size before `stop` until there are `n` newlines. -/
def readBack (size : ℕ) [NeZero size] (file : List UInt8) (n stop : ℕ) (buf : List UInt8) : List UInt8 :=
  if stop = 0 then buf
  else
    let start := stop - size
    let chunk := (file.drop start).take (stop - start)
    let buf := chunk ++ buf
    if n ≤ newlines buf then buf else readBack size file n start buf
termination_by stop
decreasing_by exact Nat.sub_lt (Nat.pos_of_ne_zero ‹_›) (NeZero.pos size)

def CHUNK : ℕ := 64 * 1024

instance : NeZero CHUNK := ⟨(Nat.mul_pos (by decide) (by decide)).ne'⟩

/-- The last `n` lines of a file, and the length they were read from. -/
def tailLinesAt (file : List UInt8) (n : ℕ) : String × ℕ :=
  if n = 0 then ("", file.length)
  else
    let text := String.ofList (decodeLossy (readBack CHUNK file n file.length []))
    let start := (lines text).length - n
    ("\n".intercalate ((lines text).drop start), file.length)

/-! ### What is read -/

/-- The end of the file is read, all of it or enough newlines. -/
theorem readBack_eq (size : ℕ) [NeZero size] (file : List UInt8) (n stop : ℕ) (buf : List UInt8)
    (hbuf : buf = file.drop stop) (hstop : stop ≤ file.length) :
    ∃ at', readBack size file n stop buf = file.drop at' ∧ (at' = 0 ∨ n ≤ newlines (file.drop at')) := by
  induction stop using Nat.strong_induction_on generalizing buf with
  | _ stop ih =>
    unfold readBack
    split_ifs with hzero
    · exact ⟨0, by rw [hbuf, hzero], .inl rfl⟩
    · have hread : (file.drop (stop - size)).take (stop - (stop - size)) ++ buf = file.drop (stop - size) := by
        have hat : stop - size + (stop - (stop - size)) = stop := by omega
        have hdrop : buf = (file.drop (stop - size)).drop (stop - (stop - size)) := by
          rw [List.drop_drop, hbuf, hat]
        rw [hdrop, List.take_append_drop]
      dsimp only
      rw [hread]
      split_ifs with hn
      · exact ⟨_, rfl, .inr hn⟩
      · exact ih _ (Nat.sub_lt (Nat.pos_of_ne_zero hzero) (NeZero.pos size)) _ rfl (by omega)

/-! ### Lines of bytes -/

/-- The lines of some bytes. -/
def textLines (bs : List UInt8) : List String := lines (String.ofList (decodeLossy bs))

/-- Some bytes have a line for each newline that is not their last byte, and one more. -/
theorem length_textLines {bs : List UInt8} (h : bs ≠ []) : (textLines bs).length = newlines bs + 1 := by
  unfold textLines newlines
  rw [length_lines, splitOn_decodeLossy, List.length_map, length_splitOn, List.getLast?_map]
  split_ifs with hlast
  · obtain ⟨init, rfl⟩ : ∃ init, bs = init ++ [0x0A] := List.getLast?_eq_some_iff.mp hlast
    rw [List.splitOn_append_cons_self, List.splitOn_nil, List.getLast?_concat, List.dropLast_concat,
      List.count_append]
    simp [decodeLossy]
  · have hpart := getLast?_splitOn h hlast
    obtain ⟨part, hsome⟩ := List.getLast?_isSome.mpr (List.splitOn_ne_nil (0x0A : UInt8) bs) |> Option.isSome_iff_exists.mp
    rw [hsome] at hpart ⊢
    have hne : decodeLossy part ≠ [] := fun hnil => hpart (congrArg some (decodeLossy_eq_nil.mp hnil))
    simp [hne]

/-- Bytes before others change none of the lines but the first of these. -/
theorem textLines_append (pre : List UInt8) {bs : List UInt8} (h : newlines bs ≠ 0) :
    ∃ cut tail before, textLines bs = cut :: tail ∧ textLines (pre ++ bs) = before ++ tail := by
  have hmem : (0x0A : UInt8) ∈ bs := by
    by_contra hnot
    refine h (List.count_eq_zero.mpr fun hmem => hnot ?_)
    split_ifs at hmem
    · exact List.dropLast_subset _ hmem
    · exact hmem
  obtain ⟨first, after, rfl, hnot⟩ := List.eq_append_cons_of_mem hmem
  have hone : (lines (String.ofList (decodeLossy first ++ ['\n']))).length = 1 := by
    rw [length_lines, List.splitOn_append_cons_self,
      List.splitOn_eq_singleton (newline_notMem_decodeLossy hnot), List.splitOn_nil]
    rfl
  obtain ⟨cut, hcut⟩ := List.length_eq_one_iff.mp hone
  refine ⟨cut, textLines after, lines (String.ofList (decodeLossy (pre ++ first) ++ ['\n'])), ?_, ?_⟩
  · unfold textLines
    rw [decodeLossy_append, lines_append_newline, hcut]
    rfl
  · unfold textLines
    rw [← List.append_assoc, decodeLossy_append, lines_append_newline]

/-- The last lines of the whole are those of an end with as many newlines. -/
theorem drop_textLines (pre : List UInt8) {bs : List UInt8} {n : ℕ} (hpos : n ≠ 0) (h : n ≤ newlines bs) :
    (textLines (pre ++ bs)).drop ((textLines (pre ++ bs)).length - n) =
      (textLines bs).drop ((textLines bs).length - n) := by
  have hzero : newlines bs ≠ 0 := by omega
  have hne : bs ≠ [] := by
    rintro rfl
    exact hzero rfl
  have hlen := length_textLines hne
  obtain ⟨cut, tail, before, hbs, hall⟩ := textLines_append pre hzero
  rw [hbs, List.length_cons] at hlen
  have hstart : before.length + tail.length - n = before.length + (tail.length - n) := by omega
  have hcut : tail.length + 1 - n = tail.length - n + 1 := by omega
  rw [hall, hbs, List.length_append, List.length_cons, hstart, hcut, List.drop_append, List.drop_succ_cons]
  simp

/-- The tail of a file is the last lines of the whole, decoded and cut into lines, with the length it
had. -/
theorem tailLinesAt_eq (file : List UInt8) (n : ℕ) :
    tailLinesAt file n = ("\n".intercalate ((textLines file).drop ((textLines file).length - n)),
      file.length) := by
  unfold tailLinesAt
  split_ifs with hn
  · rw [hn, Nat.sub_zero, List.drop_length]
    rfl
  · obtain ⟨at', hread, hend⟩ := readBack_eq CHUNK file n file.length [] (by simp) le_rfl
    have hlines : lines (String.ofList (decodeLossy (readBack CHUNK file n file.length []))) =
        textLines (file.drop at') := by rw [hread]; rfl
    dsimp only
    rw [hlines]
    rcases hend with rfl | hend
    · rw [List.drop_zero]
    · have hdrop := drop_textLines (file.take at') hn hend
      rw [List.take_append_drop] at hdrop
      rw [hdrop]

end NlinkLab.Logs
