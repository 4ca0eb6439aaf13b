import NlinkLab.Data.References
import NlinkLab.Net.Text
import NlinkLab.Staging

/-! The files that a lab's file imports (`parser/nll`). Where a file is parsed, each import is
read where it stands, from the directory of the file that has it (`resolve_imports`). For a
deploy through the daemon the files are collected first, each by its path from the directory
of the entry (`import_closure_of`), which is taken from the text of the paths alone. The parser
is a parameter: the paths that a text imports, in order. The parameters that an import sets
and what is lowered of it are left out. -/

namespace NlinkLab.Imports

open Fallible FileTree References Staging

inductive ImportError where
  | parse (message : String)
  | notRelative (path : String)
  | cannotResolve (path : String)
  | cannotRead (path : String)
  | circular (path : String)
  deriving DecidableEq

def okOr {A : Type} (o : Option A) (e : ImportError) : Except ImportError A :=
  match o with
  | some a => .ok a
  | none => .error e

@[simp] theorem okOr_eq_ok {A : Type} {o : Option A} {e : ImportError} {a : A} : okOr o e = .ok a ↔ o = some a := by
  cases o with
  | none => exact ⟨nofun, nofun⟩
  | some b => exact ⟨fun h => congrArg some (Except.ok.inj h), fun h => congrArg Except.ok (Option.some.inj h)⟩

/-! ### Paths by their text -/

/-- One part further, without touching the file system. -/
def joinStep (ps : List String) (c : String) : List String :=
  if c = "" ∨ c = "." then ps
  else if c = ".." then
    match ps.getLast? with
    | some last => if last = ".." then ps ++ [".."] else ps.dropLast
    | none => ps ++ [".."]
  else ps ++ [c]

/-- `rel` from `dir`, both relative. -/
def lexicalJoin (dir rel : String) : Option String :=
  if isAbsolute rel ∨ rel = "" then none
  else
    let ps := (parts rel).foldl joinStep ((parts dir).filter (· ≠ ""))
    if ps = [] then none else some ("/".intercalate ps)

/-- The directory that a key is in, as the start of a key. -/
def keyDir (key : String) : String :=
  match rsplitOnce key '/' with
  | some (d, _) => d
  | none => ""

section Reading

variable (parse : String → Except String (List String)) (fs : Tree)

/-- The imports as they are collected: a file is the directory of its key and its text. -/
def closureGraph (base : Path) : Graph (String × String) String String String ImportError where
  refs file := (parse file.2).mapError .parse
  key file path := okOr (lexicalJoin file.1 path) (.notRelative path)
  load _ path key := okOr (readAt fs base key) (.cannotRead path)
  item _ _ key text := (keyDir key, text)

/-- The files that the text of an entry in `base` imports, by their paths from there. -/
def importClosureOf (fuel : ℕ) (base : Path) (text : String) :
    Except (Option ImportError) (BTreeMap String String) :=
  (closureGraph parse fs base).close fuel (∅, [("", text)])

/-- What a path leads to, when there is something. -/
def canonicalize (base : Path) (path : String) : Option Path :=
  (resolve fs (if isAbsolute path then [] else base) (parts path)).filter fun q => fs q ≠ none

/-- The directory of the file at a path. -/
def parent (base : Path) (path : String) : Path :=
  walk (if isAbsolute path then [] else base) (parts path).dropLast

/-- The imports as they are parsed: a file is the directory it is in and its text. -/
def importGraph : Graph (Path × String) String Path String ImportError where
  refs file := (parse file.2).mapError .parse
  key file path := okOr (canonicalize fs file.1 path) (.cannotResolve path)
  load file path _ := okOr (readAt fs file.1 path) (.cannotRead path)
  item file path _ text := (parent file.1 path, text)

/-- The imports of an entry's text in `base`, each with its own. -/
def resolveImports (fuel : ℕ) (base : Path) (text : String) :
    Except (Option ImportError) (List (Source String String)) :=
  (importGraph parse fs).unfold .circular fuel [base] (base, text)

end Reading

/-! ### Where a path goes -/

/-- How far a path climbs and where it goes from there, as its parts. -/
def flat (at' : ℕ × List String) : List String := List.replicate at'.1 ".." ++ at'.2

/-- The text of such a path. -/
def pathText (at' : ℕ × List String) : String := "/".intercalate (flat at')

/-- A path from where another has gone. -/
def goTo (at' : ℕ × List String) (path : String) : ℕ × List String := ((parts path).filterMap component).foldl advance at'

/-- What a path goes through are names. -/
def Named (at' : ℕ × List String) : Prop := ∀ name ∈ at'.2, Normal name ∧ '/' ∉ name.toList

theorem named_start : Named (0, []) := fun _ hname => absurd hname List.not_mem_nil

theorem Named.dropLast {at' : ℕ × List String} (h : Named at') : Named (at'.1, at'.2.dropLast) :=
  fun name hname => h name (List.dropLast_subset _ hname)

theorem Named.advance {at' : ℕ × List String} (h : Named at') {part : String} (hpart : '/' ∉ part.toList) :
    Named ((component part).elim at' (Staging.advance at')) := by
  cases hc : component part with
  | none => exact h
  | some c =>
    cases c with
    | rootDir | curDir => exact h
    | parentDir =>
      intro name hname
      dsimp only [Option.elim, Staging.advance] at hname
      split_ifs at hname
      · exact absurd hname List.not_mem_nil
      · exact h name (List.dropLast_subset _ hname)
    | normal s =>
      obtain ⟨rfl, hs⟩ := component_eq_normal hc
      intro name hname
      rcases List.mem_append.mp hname with hold | hlast
      · exact h name hold
      · exact List.mem_singleton.mp hlast ▸ ⟨hs, hpart⟩

theorem joinStep_flat {at' : ℕ × List String} (h : Named at') (part : String) :
    joinStep (flat at') part = flat ((component part).elim at' (advance at')) := by
  unfold joinStep component
  by_cases hnone : part = "" ∨ part = "."
  · rw [if_pos hnone, if_pos hnone]
    rfl
  rw [if_neg hnone, if_neg hnone]
  by_cases hparent : part = ".."
  · rw [if_pos hparent, if_pos hparent, Option.elim, advance]
    rcases List.eq_nil_or_concat' at'.2 with hrest | ⟨init, name, hrest⟩
    · have hclimbs : flat at' = List.replicate at'.1 ".." := by rw [flat, hrest, List.append_nil]
      rw [if_pos hrest, hclimbs, flat, List.append_nil, List.replicate_succ']
      cases at'.1 with
      | zero => rfl
      | succ n =>
        rw [List.replicate_succ', List.getLast?_concat]
        exact if_pos rfl
    · have hname : name ≠ ".." := (h name (hrest ▸ List.mem_concat_self)).1.2.2
      rw [if_neg (hrest ▸ List.concat_ne_nil _ _), flat, flat, hrest, ← List.append_assoc, List.getLast?_concat]
      dsimp only
      rw [if_neg hname, List.dropLast_concat, List.dropLast_concat]
  · rw [if_neg hparent, if_neg hparent, Option.elim, advance, flat, flat, List.append_assoc]

theorem walk_append (q : Path) (ps ps' : List String) : walk q (ps ++ ps') = walk (walk q ps) ps' := List.foldl_append

theorem walk_flat {at' : ℕ × List String} (h : Named at') (base : Path) :
    walk base (flat at') = walk base (List.replicate at'.1 "..") ++ at'.2 := by
  rw [flat, walk_append, walk_normal fun name hname => (h name hname).1]

theorem step_flat {at' : ℕ × List String} (h : Named at') (base : Path) (part : String) :
    step (walk base (flat at')) part = walk base (flat ((component part).elim at' (advance at'))) := by
  cases hc : component part with
  | none => rw [step, hc, Option.elim]
  | some c =>
    cases c with
    | rootDir | curDir =>
      rw [step, hc]
      rfl
    | parentDir =>
      rw [step, hc, Option.elim, advance]
      dsimp only
      rcases List.eq_nil_or_concat' at'.2 with hrest | ⟨init, name, hrest⟩
      · rw [if_pos hrest, flat, flat, hrest, List.append_nil, List.append_nil, List.replicate_succ', walk_append]
        rfl
      · have hinit : Named (at'.1, at'.2.dropLast) := h.dropLast
        rw [if_neg (hrest ▸ List.concat_ne_nil _ _), walk_flat h, walk_flat hinit, hrest, List.dropLast_concat,
          ← List.append_assoc, List.dropLast_concat]
    | normal s =>
      obtain ⟨rfl, hs⟩ := component_eq_normal hc
      rw [step, hc, Option.elim, advance]
      dsimp only
      rw [flat, flat, ← List.append_assoc, walk_append _ _ [s], walk_normal fun name hname => List.mem_singleton.mp hname ▸ hs]

/-- Joined by its text or gone through from a directory, a path comes to the same place. -/
theorem goes_parts {at' : ℕ × List String} (h : Named at') {ps : List String} (hps : ∀ p ∈ ps, '/' ∉ p.toList) :
    Named ((ps.filterMap component).foldl advance at') ∧
      ps.foldl joinStep (flat at') = flat ((ps.filterMap component).foldl advance at') ∧
        ∀ base, walk (walk base (flat at')) ps = walk base (flat ((ps.filterMap component).foldl advance at')) := by
  induction ps generalizing at' with
  | nil => exact ⟨h, rfl, fun _ => rfl⟩
  | cons part ps ih =>
    obtain ⟨hpart, hps⟩ := List.forall_mem_cons.mp hps
    have hfold : ((part :: ps).filterMap component).foldl advance at' =
        (ps.filterMap component).foldl advance ((component part).elim at' (advance at')) := by
      cases hc : component part with
      | none => rw [List.filterMap_cons_none hc, Option.elim]
      | some c => rw [List.filterMap_cons_some hc, List.foldl_cons, Option.elim]
    obtain ⟨hnamed, hjoin, hwalk⟩ := ih (h.advance hpart) hps
    rw [hfold]
    refine ⟨hnamed, ?_, fun base => ?_⟩
    · rw [List.foldl_cons, joinStep_flat h, hjoin]
    · rw [walk, List.foldl_cons, ← walk, step_flat h, hwalk]

variable {at' : ℕ × List String}

theorem Named.goTo (h : Named at') (path : String) : Named (goTo at' path) :=
  (goes_parts h fun _ hp => slash_notMem_of_mem_parts hp).1

theorem foldl_joinStep (h : Named at') (path : String) :
    (parts path).foldl joinStep (flat at') = flat (goTo at' path) :=
  (goes_parts h fun _ hp => slash_notMem_of_mem_parts hp).2.1

theorem walk_goTo (h : Named at') (base : Path) (path : String) :
    walk (walk base (flat at')) (parts path) = walk base (flat (goTo at' path)) :=
  (goes_parts h fun _ hp => slash_notMem_of_mem_parts hp).2.2 base

/-! ### The text of a place -/

theorem flat_ne_nil (h : at'.2 ≠ []) : flat at' ≠ [] := fun hnil => h (List.append_eq_nil_iff.mp hnil).2

/-- A path to a name goes to the directory of the name first. -/
theorem Named.exists_last (h : Named at') (hne : at'.2 ≠ []) : ∃ init name, at'.2 = init ++ [name] ∧
    Named (at'.1, init) ∧ Normal name ∧ '/' ∉ name.toList ∧ flat at' = flat (at'.1, init) ++ [name] := by
  obtain ⟨init, name, hrest⟩ := (List.eq_nil_or_concat' at'.2).resolve_left hne
  obtain ⟨hnormal, hslash⟩ := h name (hrest ▸ List.mem_concat_self)
  have hinit := h.dropLast
  rw [hrest, List.dropLast_concat] at hinit
  exact ⟨init, name, hrest, hinit, hnormal, hslash, by rw [flat, flat, hrest, List.append_assoc]⟩

theorem component_flat (h : Named at') :
    (flat at').filterMap component = List.replicate at'.1 .parentDir ++ at'.2.map .normal := by
  have hparent : component ".." = some .parentDir := by decide
  rw [flat, List.filterMap_append, List.filterMap_replicate_of_some hparent]
  congr 1
  rw [← List.filterMap_eq_map]
  exact List.filterMap_congr fun name hname => component_normal (h name hname).1

theorem parts_pathText (h : Named at') (hne : flat at' ≠ []) : parts (pathText at') = flat at' := by
  refine parts_intercalate hne fun p hp => ?_
  rcases List.mem_append.mp hp with hp | hp
  · rw [List.eq_of_mem_replicate hp]
    decide
  · exact (h p hp).2

theorem isAbsolute_pathText (h : Named at') (hne : flat at' ≠ []) : isAbsolute (pathText at') = false := by
  refine isAbsolute_of_head? fun hhead => ?_
  rw [parts_pathText h hne] at hhead
  have hmem : "" ∈ flat at' := List.mem_of_mem_head? hhead
  rcases List.mem_append.mp hmem with hmem | hmem
  · exact absurd (List.eq_of_mem_replicate hmem) (by decide)
  · exact (h _ hmem).1.1 rfl

theorem foldl_advance_climbs (n up : ℕ) :
    (List.replicate n Component.parentDir).foldl advance (up, []) = (up + n, []) := by
  induction n generalizing up with
  | zero => rfl
  | succ n ih => rw [List.replicate_succ, List.foldl_cons, advance, if_pos rfl, ih, Nat.add_assoc, Nat.add_comm 1]

theorem foldl_advance_names (at' : ℕ × List String) (names : List String) :
    (names.map Component.normal).foldl advance at' = (at'.1, at'.2 ++ names) := by
  induction names generalizing at' with
  | nil =>
    rw [List.append_nil]
    rfl
  | cons name names ih => rw [List.map_cons, List.foldl_cons, ih, advance, List.append_assoc, List.singleton_append]

theorem goTo_pathText (h : Named at') (hne : flat at' ≠ []) : goTo (0, []) (pathText at') = at' := by
  rw [goTo, parts_pathText h hne, component_flat h, List.foldl_append, foldl_advance_climbs, foldl_advance_names,
    Nat.zero_add, List.nil_append]

theorem keyDir_pathText (h : Named at') (hne : at'.2 ≠ []) :
    (parts (keyDir (pathText at'))).filter (· ≠ "") = flat (at'.1, at'.2.dropLast) := by
  obtain ⟨init, name, hrest, hnamed, -, hname, hflat⟩ := h.exists_last hne
  rw [hrest, List.dropLast_concat]
  by_cases hinit : flat (at'.1, init) = []
  · have hnone : rsplitOnce (pathText at') '/' = none := by
      cases hsplit : rsplitOnce (pathText at') '/' with
      | none => rfl
      | some ab =>
        have hchars := rsplitOnce_eq_some hsplit
        rw [pathText, hflat, hinit, List.nil_append, String.intercalate_singleton] at hchars
        exact absurd (hchars ▸ List.mem_append_right _ List.mem_cons_self) hname
    rw [keyDir, hnone, hinit]
    decide
  · have hsome : rsplitOnce (pathText at') '/' = some (pathText (at'.1, init), name) := by
      rw [pathText, hflat, String.intercalate_append_of_ne_nil hinit (List.cons_ne_nil _ _), String.intercalate_singleton]
      exact rsplitOnce_append hname
    rw [keyDir, hsome]
    dsimp only
    rw [parts_pathText hnamed hinit, List.filter_eq_self]
    intro p hp
    rcases List.mem_append.mp hp with hp | hp
    · rw [List.eq_of_mem_replicate hp]
      decide
    · exact decide_eq_true (hnamed p hp).1.1

end NlinkLab.Imports
