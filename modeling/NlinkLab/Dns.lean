import NlinkLab.Data.Lines
import NlinkLab.Data.Sections
import NlinkLab.Deploy.Plan.Topology
import NlinkLab.Validator.Interfaces

/-! The labs' sections of `/etc/hosts` (`dns.rs`). An operation reads the file, leaves out
its lab's section and, for an inject, appends a new one. -/

namespace NlinkLab.Dns

def sectionStart (lab : String) : String := "###### NLINK-LAB-" ++ lab ++ "-START ######"

def sectionEnd (lab : String) : String := "###### NLINK-LAB-" ++ lab ++ "-END ######"

/-- The loop of `remove_section` at a line. -/
def removeStep (lab : String) (s : String × Bool) (line : String) : String × Bool :=
  if line = sectionStart lab then (s.1, true)
  else if line = sectionEnd lab then (s.1, false)
  else if s.2 then s
  else (s.1 ++ line ++ "\n", s.2)

/-- The file's text without the section of a lab. -/
def removeSection (content lab : String) : String :=
  ((lines content).foldl (removeStep lab) ("", false)).1

/-- An entry's line: the address, then each name after a tab. -/
def entryLine (e : HostsEntry) : String := e.ip ++ String.join (e.names.map ("\t" ++ ·))

/-- The file after `inject_hosts_to`; a missing one reads as empty. -/
def injectHostsTo (file : Option String) (lab : String) (entries : List HostsEntry) : Option String :=
  if entries = [] then file
  else
    let cleaned := removeSection (file.getD "") lab
    let section' := sectionStart lab ++ "\n" ++ String.join (entries.map fun e => entryLine e ++ "\n") ++
      sectionEnd lab ++ "\n"
    let result := trimEnd cleaned
    some ((if result = "" then "" else result ++ "\n") ++ section')

/-- The file after `remove_hosts_from`. -/
def removeHostsFrom (file : Option String) (lab : String) : Option String :=
  match file with
  | none => none
  | some existing =>
    let cleaned := removeSection existing lab
    if cleaned = existing then some existing else some cleaned

/-! ### Markers -/

theorem reverse_append_getElem? {s t : String} {k : Nat} (h : k < t.toList.length) :
    (s ++ t).toList.reverse[k]? = t.toList.reverse[k]? := by
  rw [String.toList_append, List.reverse_append, List.getElem?_append_left (by simpa using h)]

/-- The eighth character from the end tells the two apart. -/
theorem sectionStart_ne_sectionEnd (lab other : String) : sectionStart lab ≠ sectionEnd other := by
  have hlen : 7 < "-START ######".toList.length := by decide +kernel
  have hlen' : 7 < "-END ######".toList.length := by decide +kernel
  have hchar : "-START ######".toList.reverse[7]? ≠ "-END ######".toList.reverse[7]? := by
    decide +kernel
  intro h
  apply hchar
  rw [← reverse_append_getElem? hlen, ← reverse_append_getElem? hlen']
  exact congrArg (fun s : String => s.toList.reverse[7]?) h

theorem append_append_inj {a c s t : String} (h : a ++ s ++ c = a ++ t ++ c) : s = t := by
  have h := congrArg String.toList h
  simp only [String.toList_append] at h
  exact String.toList_inj.mp (List.append_cancel_left (List.append_cancel_right h))

theorem sectionStart_inj {lab other : String} (h : sectionStart lab = sectionStart other) :
    lab = other :=
  append_append_inj h

theorem sectionEnd_inj {lab other : String} (h : sectionEnd lab = sectionEnd other) : lab = other :=
  append_append_inj h

/-- The lines a lab's section begins and ends with. -/
def markers (lab : String) : Markers String :=
  ⟨sectionStart lab, sectionEnd lab, sectionStart_ne_sectionEnd lab lab⟩

theorem markers_distinct {lab other : String} (h : lab ≠ other) :
    (markers lab).Distinct (markers other) where
  start_start he := h (sectionStart_inj he)
  start_stop := sectionStart_ne_sectionEnd lab other
  stop_start := (sectionStart_ne_sectionEnd other lab).symm
  stop_stop he := h (sectionEnd_inj he)

/-- A line that begins or ends some lab's section. -/
def IsMarker (line : String) : Prop := ∃ lab, line = sectionStart lab ∨ line = sectionEnd lab

theorem mem_append_left {x : Char} {a : String} (s c : String) (h : x ∈ a.toList) :
    x ∈ (a ++ s ++ c).toList := by
  rw [String.toList_append, String.toList_append]
  exact List.mem_append_left _ (List.mem_append_left _ h)

theorem hash_mem_of_isMarker {line : String} (h : IsMarker line) : '#' ∈ line.toList := by
  have hhash : '#' ∈ "###### NLINK-LAB-".toList := by decide +kernel
  obtain ⟨lab, rfl | rfl⟩ := h
  · exact mem_append_left lab _ hhash
  · exact mem_append_left lab _ hhash

/-- A blank line is no marker. -/
theorem not_isMarker_of_isBlank {line : String} (h : isBlank line) : ¬ IsMarker line := fun hm =>
  absurd (List.all_eq_true.mp h _ (hash_mem_of_isMarker hm)) (by decide)

/-- A valid name has no line break. -/
theorem newline_notMem_of_isValidName {name : String} (h : Validator.isValidName name) :
    '\n' ∉ name.toList := by
  unfold Validator.isValidName at h
  split at h
  · cases h
  · rename_i c cs heq
    rw [heq]
    obtain ⟨hc, hcs⟩ := of_decide_eq_true h
    intro hmem
    rcases List.mem_cons.mp hmem with rfl | hmem
    · exact absurd hc (by decide)
    · exact absurd (of_decide_eq_true (List.all_eq_true.mp hcs _ hmem)) (by decide)

theorem isLine_append {a s c : String} (ha : '\n' ∉ a.toList) (hs : '\n' ∉ s.toList)
    (hc : '\n' ∉ c.toList) (hlast : c.toList.getLast? = some '#') : isLine (a ++ s ++ c) := by
  simp only [isLine, String.toList_append, List.mem_append, List.getLast?_append, hlast, ha, hs, hc]
  simp

theorem isLine_sectionStart {lab : String} (h : Validator.isValidName lab) : isLine (sectionStart lab) :=
  isLine_append (by decide +kernel) (newline_notMem_of_isValidName h) (by decide +kernel) (by decide +kernel)

theorem isLine_sectionEnd {lab : String} (h : Validator.isValidName lab) : isLine (sectionEnd lab) :=
  isLine_append (by decide +kernel) (newline_notMem_of_isValidName h) (by decide +kernel) (by decide +kernel)

/-! ### By lines -/

theorem removeStep_eq (lab : String) (kept : List String) (inSection : Bool) (l : String) :
    removeStep lab (joinLines kept, inSection) l =
      (joinLines ((markers lab).leaveStep (kept, inSection) l).1,
        ((markers lab).leaveStep (kept, inSection) l).2) := by
  have hstep : (markers lab).leaveStep (kept, inSection) l =
      if l = sectionStart lab then (kept, true)
      else if l = sectionEnd lab then (kept, false)
      else if inSection then (kept, inSection)
      else (kept ++ [l], inSection) := rfl
  rw [hstep, removeStep]
  split_ifs
  · rfl
  · rfl
  · rfl
  · rw [joinLines_append, joinLines_singleton, String.append_assoc]

theorem removeSection_eq (content lab : String) :
    removeSection content lab = joinLines ((markers lab).leave (lines content)) := by
  have hfold : ∀ (ls : List String) (s : List String × Bool),
      ls.foldl (removeStep lab) (joinLines s.1, s.2) =
        (joinLines (ls.foldl (markers lab).leaveStep s).1, (ls.foldl (markers lab).leaveStep s).2) := by
    intro ls
    induction ls with
    | nil => exact fun s => rfl
    | cons l ls ih =>
      intro s
      rw [List.foldl_cons, List.foldl_cons, removeStep_eq]
      exact ih _
  exact congrArg Prod.fst (hfold (lines content) ([], false))

/-! ### What an operation does -/

/-- An edit of the file on behalf of a lab. -/
inductive Op
  | inject (lab : String) (entries : List HostsEntry)
  | remove (lab : String)

namespace Op

def lab : Op → String
  | inject lab _ => lab
  | remove lab => lab

def apply (file : Option String) : Op → Option String
  | inject lab entries => injectHostsTo file lab entries
  | remove lab => removeHostsFrom file lab

end Op

/-- The lines of the file; a missing one has none. -/
def linesOf (file : Option String) : List String := lines (file.getD "")

/-- The lines of a lab's sections. -/
def sectionsOf (lab : String) (file : Option String) : List (List String) :=
  (markers lab).sections (linesOf file)

/-- A lab's section has exactly the entries; one without entries may also be absent. -/
def Holds (entries : List HostsEntry) (sections : List (List String)) : Prop :=
  sections = [entries.map entryLine] ∨ entries = [] ∧ sections = []

/-- An operation is confined to the section of its lab. -/
structure Confined (op : Op) (file file' : Option String) : Prop where
  /-- Every line outside its section stays, blank lines at the end of the file aside. -/
  frame : ((markers op.lab).outside (stripBlank (linesOf file))).Sublist (linesOf file')
  /-- Its section has the entries it was given. -/
  own : match op with
    | .inject lab entries => Holds entries (sectionsOf lab file')
    | .remove lab => sectionsOf lab file' = []
  /-- The sections of the other labs stay. -/
  others : ∀ other, other ≠ op.lab → sectionsOf other file' = sectionsOf other file
  /-- Removing a section that is not there leaves the lines as they are. -/
  absent : ∀ lab, op = .remove lab → sectionsOf lab file = [] → linesOf file' = linesOf file

/-- A lab's markers are in pairs, and its sections and another lab's have no marker of each
other in them. -/
structure Orderly (lab : String) (file : Option String) : Prop where
  valid : Validator.isValidName lab
  paired : (markers lab).Paired (linesOf file)
  apart : ∀ other, other ≠ lab → (markers lab).Apart (markers other) (linesOf file)

/-- What an operation needs of the file it finds. -/
def Meets (file : Option String) : Op → Prop
  | .inject lab [] => Holds [] (sectionsOf lab file)
  | .inject lab entries =>
    let rest := (markers lab).outside (stripBlank (linesOf file))
    Orderly lab file ∧
      -- no line that stays ends in a carriage return, and the last ends in text
      (∀ l ∈ rest, isLine l) ∧ (∀ l, rest.getLast? = some l → endsInText l) ∧
      ∀ e ∈ entries, isLine (entryLine e) ∧ ¬ IsMarker (entryLine e)
  | .remove lab =>
    Orderly lab file ∧ ∀ l ∈ (markers lab).outside (linesOf file), isLine l

theorem stripBlank_append (ls : List String) :
    ∃ blanks, ls = stripBlank ls ++ blanks ∧ ∀ l ∈ blanks, isBlank l :=
  ⟨ls.rtakeWhile isBlank, (List.rdropWhile_append_rtakeWhile ..).symm,
    fun _ hl => List.mem_rtakeWhile_imp hl⟩

/-- The blank lines at the end are outside the lab's sections. -/
theorem outside_stripBlank {lab : String} {ls : List String} (h : (markers lab).Paired ls) :
    (markers lab).Paired (stripBlank ls) ∧ ∃ blanks, (∀ l ∈ blanks, isBlank l) ∧
      (markers lab).outside ls = (markers lab).outside (stripBlank ls) ++ blanks := by
  obtain ⟨blanks, hls, hblank⟩ := stripBlank_append ls
  have hnot : ∀ line ∈ blanks, ¬ IsMarker line := fun line hl => not_isMarker_of_isBlank (hblank line hl)
  rw [hls] at h
  obtain ⟨hp, hout⟩ := Markers.outside_append h (fun hm => hnot _ hm ⟨lab, .inl rfl⟩)
    fun hm => hnot _ hm ⟨lab, .inr rfl⟩
  exact ⟨hp, blanks, hblank, by rw [← hls] at hout; exact hout⟩

theorem sections_append_of_not_isMarker {lab : String} {ls rest : List String}
    (h : ∀ l ∈ rest, ¬ IsMarker l) :
    (markers lab).sections (ls ++ rest) = (markers lab).sections ls :=
  Markers.sections_append fun hm => h _ hm ⟨lab, .inr rfl⟩

theorem joinLines_section (a b : String) (body : List String) :
    joinLines (a :: (body ++ [b])) = a ++ "\n" ++ joinLines body ++ b ++ "\n" := by
  rw [← List.singleton_append, joinLines_append, joinLines_append, joinLines_singleton,
    joinLines_singleton, ← String.append_assoc, ← String.append_assoc]

/-- The text of an inject, when the lines that stay end in text. -/
theorem injectHostsTo_eq {file : Option String} {lab : String} {entries : List HostsEntry}
    (hne : entries ≠ []) (hp : (markers lab).Paired (linesOf file))
    (hlast : ∀ l, ((markers lab).outside (stripBlank (linesOf file))).getLast? = some l → endsInText l) :
    injectHostsTo file lab entries = some (joinLines ((markers lab).outside (stripBlank (linesOf file)) ++
      sectionStart lab :: (entries.map entryLine ++ [sectionEnd lab]))) := by
  obtain ⟨-, blanks, hblank, hout⟩ := outside_stripBlank hp
  generalize (markers lab).outside (stripBlank (linesOf file)) = rest at *
  have hstrip : stripBlank ((markers lab).outside (linesOf file)) = rest := by
    rw [hout, stripBlank, rdropWhile_append_of_all hblank]
    apply List.rdropWhile_eq_self_iff.mpr
    intro hrest
    exact not_isBlank_of_endsInText (hlast _ (List.getLast?_eq_some_getLast hrest))
  have hends : ∀ l, (stripBlank ((markers lab).outside (linesOf file))).getLast? = some l → endsInText l :=
    hstrip ▸ hlast
  have htrim := trimEnd_joinLines hends
  have hcleaned : removeSection (file.getD "") lab = joinLines ((markers lab).outside (linesOf file)) := by
    rw [removeSection_eq, ← Markers.leave_eq_outside hp, linesOf]
  rw [injectHostsTo, if_neg hne, hcleaned]
  simp only [Option.some.injEq]
  have hjoin : String.join (entries.map fun e => entryLine e ++ "\n") = joinLines (entries.map entryLine) := by
    rw [joinLines, List.map_map]
    rfl
  rw [htrim, hstrip, hjoin, joinLines_append, joinLines_section]

theorem Meets.confined_inject {file : Option String} {lab : String} {entries : List HostsEntry}
    (hne : entries ≠ []) (h : Meets file (.inject lab entries)) :
    Confined (.inject lab entries) file (injectHostsTo file lab entries) := by
  obtain ⟨e, es, rfl⟩ := List.exists_cons_of_ne_nil hne
  obtain ⟨⟨hvalid, hp, hapart⟩, hlines, hlast, hentries⟩ := h
  obtain ⟨hstripped, blanks, hblank, hout⟩ := outside_stripBlank hp
  rw [injectHostsTo_eq hne hp hlast]
  generalize hrest : (markers lab).outside (stripBlank (linesOf file)) = rest at *
  generalize hbody : (e :: es).map entryLine = body
  have hplain : ∀ l ∈ body, isLine l ∧ ¬ IsMarker l := by
    rw [← hbody]
    exact List.forall_mem_map.mpr hentries
  have hfile : linesOf (some (joinLines (rest ++ sectionStart lab :: (body ++ [sectionEnd lab])))) =
      rest ++ sectionStart lab :: (body ++ [sectionEnd lab]) := by
    apply lines_joinLines
    intro l hl
    simp only [List.mem_append, List.mem_cons, List.not_mem_nil, or_false] at hl
    rcases hl with hl | rfl | hl | rfl
    · exact hlines l hl
    · exact isLine_sectionStart hvalid
    · exact (hplain l hl).1
    · exact isLine_sectionEnd hvalid
  have hstart : sectionStart lab ∉ rest := by
    rw [← hrest, Markers.outside_of_paired hstripped]
    exact Markers.start_notMem_kept (markers lab) _
  have hstop : sectionEnd lab ∉ body := fun hm => (hplain _ hm).2 ⟨lab, .inr rfl⟩
  refine ⟨?_, ?_, fun other hother => ?_, nofun⟩
  · rw [hfile, Op.lab, hrest]
    exact List.sublist_append_left ..
  · refine .inl ?_
    rw [sectionsOf, hfile, hbody, Markers.sections]
    exact congrArg _ (Markers.scan_section (m := markers lab) hstart hstop)
  · have hd : (markers lab).Distinct (markers other) := markers_distinct hother.symm
    rw [sectionsOf, hfile, Markers.sections_append, sectionsOf, ← Markers.sections_outside hd hp (hapart other hother),
      hout, sections_append_of_not_isMarker fun l hl => not_isMarker_of_isBlank (hblank l hl)]
    simp only [List.mem_cons, List.mem_append, List.not_mem_nil, or_false, not_or]
    exact ⟨hd.start_stop.symm, fun hm => (hplain _ hm).2 ⟨other, .inr rfl⟩, hd.stop_stop.symm⟩

theorem Meets.confined_inject_nil {file : Option String} {lab : String} (h : Meets file (.inject lab [])) :
    Confined (.inject lab []) file file where
  frame := (Markers.outside_sublist ..).trans (List.rdropWhile_prefix ..).sublist
  own := h
  others _ _ := rfl
  absent := nofun

/-- What a remove leaves is what was outside. -/
theorem linesOf_removeHostsFrom {file : Option String} {lab : String} (hp : (markers lab).Paired (linesOf file))
    (hlines : ∀ l ∈ (markers lab).outside (linesOf file), isLine l) :
    linesOf (removeHostsFrom file lab) = (markers lab).outside (linesOf file) := by
  cases file with
  | none => rfl
  | some existing =>
    have hcleaned : removeSection existing lab = joinLines ((markers lab).outside (linesOf (some existing))) := by
      rw [removeSection_eq, ← Markers.leave_eq_outside hp]
      rfl
    have hfile : lines (removeSection existing lab) = (markers lab).outside (linesOf (some existing)) := by
      rw [hcleaned]
      exact lines_joinLines hlines
    rw [← hfile]
    show lines (Option.getD (if _ = _ then _ else _) "") = _
    split_ifs with heq
    · exact congrArg lines heq.symm
    · rfl

theorem Meets.confined_remove {file : Option String} {lab : String} (h : Meets file (.remove lab)) :
    Confined (.remove lab) file (removeHostsFrom file lab) := by
  obtain ⟨⟨-, hp, hapart⟩, hlines⟩ := h
  obtain ⟨-, blanks, -, hout⟩ := outside_stripBlank hp
  have hfile := linesOf_removeHostsFrom hp hlines
  refine ⟨?_, ?_, fun other hother => ?_, fun lab' hlab habsent => ?_⟩
  · rw [hfile, hout]
    exact List.sublist_append_left ..
  · show (markers lab).sections _ = []
    rw [hfile, Markers.outside_of_paired hp, Markers.sections,
      Markers.scan_of_start_notMem (Markers.start_notMem_kept (markers lab) _)]
  · have hd : (markers lab).Distinct (markers other) := markers_distinct hother.symm
    rw [sectionsOf, hfile]
    exact Markers.sections_outside hd hp (hapart other hother)
  · cases hlab
    rw [hfile]
    exact Markers.outside_of_sections_nil hp habsent

/-- An operation that finds the file as it needs is confined to its lab's section. -/
theorem Meets.confined {file : Option String} {op : Op} (h : Meets file op) :
    Confined op file (op.apply file) := by
  cases op with
  | inject lab entries =>
    by_cases hne : entries = []
    · subst hne
      exact h.confined_inject_nil
    · exact h.confined_inject hne
  | remove lab => exact h.confined_remove

/-! ### Runs -/

/-- The file after operations, one after another under the hosts lock. -/
def run (file : Option String) (ops : List Op) : Option String := ops.foldl Op.apply file

/-- Each operation finds the file as it needs. -/
def Orderly.Run : Option String → List Op → Prop
  | _, [] => True
  | file, op :: ops => Meets file op ∧ Run (op.apply file) ops

/-- A lab's last operation. -/
def lastOp (lab : String) (ops : List Op) : Option Op := (ops.filter (·.lab = lab)).getLast?

/-- The section of a lab after operations: the entries of its last inject, none after a
remove, and what there was without either. -/
def SectionAfter (lab : String) (ops : List Op) (file file' : Option String) : Prop :=
  match lastOp lab ops with
  | none => sectionsOf lab file' = sectionsOf lab file
  | some (.inject _ entries) => Holds entries (sectionsOf lab file')
  | some (.remove _) => sectionsOf lab file' = []

theorem sectionAfter_concat {lab : String} {ops : List Op} {op : Op} {file mid file' : Option String}
    (h : SectionAfter lab ops file mid) (hop : Confined op mid file') :
    SectionAfter lab (ops ++ [op]) file file' := by
  by_cases hlab : op.lab = lab
  · have hlast : lastOp lab (ops ++ [op]) = some op := by simp [lastOp, hlab]
    have hown := hop.own
    subst hlab
    unfold SectionAfter
    rw [hlast]
    cases op <;> exact hown
  · have hlast : lastOp lab (ops ++ [op]) = lastOp lab ops := by simp [lastOp, hlab]
    unfold SectionAfter at h ⊢
    rw [hlast, hop.others lab (Ne.symm hlab)]
    exact h

theorem Orderly.Run.append {file : Option String} {ops rest : List Op} (h : Run file (ops ++ rest)) :
    Run file ops ∧ Run (run file ops) rest := by
  induction ops generalizing file with
  | nil => exact ⟨trivial, h⟩
  | cons op ops ih => exact ⟨⟨h.1, (ih h.2).1⟩, (ih h.2).2⟩

/-- In a run whose operations each find the file as they need, every operation is confined
to its lab's section, and every lab has the section its last operation gave it. -/
theorem run_confined {file : Option String} {ops : List Op} (h : Orderly.Run file ops) :
    (∀ before op after, ops = before ++ op :: after →
      Confined op (run file before) (run file (before ++ [op]))) ∧
    ∀ lab, SectionAfter lab ops file (run file ops) := by
  constructor
  · rintro before op after rfl
    rw [run, run, List.foldl_append]
    exact h.append.2.1.confined
  · intro lab
    induction ops using List.reverseRecOn with
    | nil => exact rfl
    | append_singleton ops op ih =>
      have hop : Confined op (run file ops) (run file (ops ++ [op])) := by
        rw [run, run, List.foldl_append]
        exact h.append.2.1.confined
      exact sectionAfter_concat (ih h.append.1) hop

def sampleEntry : HostsEntry := ⟨"10.0.0.1", ["r1", "r1-eth0"]⟩

/-- Where every line with a `#` is a marker of one of some labs, only their sections need to be
looked at. -/
theorem Orderly.of_labs {lab : String} {file : Option String} (labs : List String) (hvalid : Validator.isValidName lab)
    (hpaired : (markers lab).Paired (linesOf file))
    (hmarkers : ∀ l ∈ linesOf file, '#' ∉ l.toList ∨ ∃ known ∈ labs, l = sectionStart known ∨ l = sectionEnd known)
    (hown : ∀ p ∈ sectionsOf lab file, ∀ l ∈ p, '#' ∉ l.toList)
    (hothers : ∀ known ∈ labs, known ≠ lab → ∀ p ∈ sectionsOf known file, sectionStart lab ∉ p) : Orderly lab file where
  valid := hvalid
  paired := hpaired
  apart other hne := by
    have hplain : ∀ p ∈ sectionsOf lab file, ∀ l ∈ p, ¬ IsMarker l := fun p hp l hl hm =>
      hown p hp l hl (hash_mem_of_isMarker hm)
    refine ⟨fun p hp => ⟨fun hm => hplain p hp _ hm ⟨other, .inl rfl⟩, fun hm => hplain p hp _ hm ⟨other, .inr rfl⟩⟩,
      fun p hp => ?_⟩
    by_cases hknown : other ∈ labs
    · exact hothers other hknown hne p hp
    · have hstart : sectionStart other ∉ linesOf file := by
        intro hmem
        rcases hmarkers _ hmem with hhash | ⟨known, hmem, heq | heq⟩
        · exact hhash (hash_mem_of_isMarker ⟨other, .inl rfl⟩)
        · exact hknown (sectionStart_inj heq ▸ hmem)
        · exact sectionStart_ne_sectionEnd other known heq
      have hnone : sectionsOf other file = [] := by
        rw [sectionsOf, Markers.sections, Markers.scan_of_start_notMem hstart]
      have hp : p ∈ sectionsOf other file := hp
      rw [hnone] at hp
      cases hp

/-- A file with lines of its own around another lab's section. -/
def sampleLines : List String :=
  ["127.0.0.1\tlocalhost", sectionStart "b", entryLine ⟨"10.0.0.2", ["r2"]⟩, sectionEnd "b", "::1\tlocalhost6"]

def sampleHosts : Option String := some (joinLines sampleLines)

def injectedLines : List String := sampleLines ++ [sectionStart "a", entryLine sampleEntry, sectionEnd "a"]

theorem linesOf_sampleHosts : linesOf sampleHosts = sampleLines := lines_joinLines (by decide +kernel)

theorem linesOf_injectedLines : linesOf (some (joinLines injectedLines)) = injectedLines :=
  lines_joinLines (by decide +kernel)

theorem outside_sampleHosts : (markers "a").outside (stripBlank (linesOf sampleHosts)) = sampleLines := by
  rw [linesOf_sampleHosts]
  decide +kernel

theorem meets_inject_sample : Meets sampleHosts (.inject "a" [sampleEntry]) := by
  have horderly : Orderly "a" sampleHosts := by
    refine .of_labs ["b"] (by decide +kernel) ?_ ?_ ?_ ?_
    all_goals simp only [sectionsOf, linesOf_sampleHosts]
    exacts [⟨by decide +kernel, by decide +kernel⟩, by decide +kernel, by decide +kernel, by decide +kernel]
  have hentry : isLine (entryLine sampleEntry) ∧ ¬ IsMarker (entryLine sampleEntry) :=
    ⟨by decide +kernel, fun h => absurd (hash_mem_of_isMarker h) (by decide +kernel)⟩
  have hlines : ∀ l ∈ sampleLines, isLine l := by decide +kernel
  have hlast : sampleLines.getLast? = some "::1\tlocalhost6" := rfl
  refine ⟨horderly, ?_, ?_, List.forall_mem_singleton.mpr hentry⟩
  · rw [outside_sampleHosts]
    exact hlines
  · intro l hl
    rw [outside_sampleHosts, hlast] at hl
    cases hl
    decide +kernel

theorem inject_sampleHosts : Op.apply sampleHosts (.inject "a" [sampleEntry]) = some (joinLines injectedLines) := by
  obtain ⟨horderly, -, hlast, -⟩ := meets_inject_sample
  rw [Op.apply, injectHostsTo_eq (List.cons_ne_nil _ _) horderly.paired hlast, outside_sampleHosts]
  rfl

theorem meets_remove_sample : Meets (Op.apply sampleHosts (.inject "a" [sampleEntry])) (.remove "b") := by
  rw [inject_sampleHosts]
  have horderly : Orderly "b" (some (joinLines injectedLines)) := by
    refine .of_labs ["a", "b"] (by decide +kernel) ?_ ?_ ?_ ?_
    all_goals simp only [sectionsOf, linesOf_injectedLines]
    exacts [⟨by decide +kernel, by decide +kernel⟩, by decide +kernel, by decide +kernel, by decide +kernel]
  refine ⟨horderly, ?_⟩
  rw [linesOf_injectedLines]
  decide +kernel

theorem run_confined_inject :
    (∀ before op after, [Op.inject "a" [sampleEntry], .remove "b"] = before ++ op :: after →
      Confined op (run sampleHosts before) (run sampleHosts (before ++ [op]))) ∧
    ∀ lab, SectionAfter lab [Op.inject "a" [sampleEntry], .remove "b"] sampleHosts
      (run sampleHosts [Op.inject "a" [sampleEntry], .remove "b"]) :=
  run_confined ⟨meets_inject_sample, meets_remove_sample, trivial⟩

/-- An inject without entries leaves the section of the one before; a begin marker without
its end takes the rest of the file with it. -/
theorem stale_section :
    let file := some (joinLines [sectionStart "a", entryLine sampleEntry, sectionEnd "a"])
    let broken := some (joinLines [sectionStart "a", "127.0.0.1 localhost"])
    ¬ SectionAfter "a" [.inject "a" []] file (run file [.inject "a" []]) ∧
      ¬ Confined (.remove "a") broken (run broken [.remove "a"]) := by
  intro file broken
  have hsections : sectionsOf "a" (run file [.inject "a" []]) = [[entryLine sampleEntry]] := by
    decide +kernel
  constructor
  · rintro (h | ⟨-, h⟩) <;> rw [hsections] at h <;> cases h
  · intro h
    have hframe := h.frame
    revert hframe
    decide +kernel

end NlinkLab.Dns
