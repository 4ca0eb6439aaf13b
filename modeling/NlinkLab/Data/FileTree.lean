import NlinkLab.Data.BTreeMap
import NlinkLab.Data.Lines

/-! A tree of directories and files, as a file system without links: what creating
directories and writing files does to it, what a path's text consists of, and where a
path that climbs leads. -/

namespace NlinkLab.FileTree

/-- What is at a path. -/
inductive Node where
  | dir
  | file (text : String)
  deriving DecidableEq

/-- Names from the root. -/
abbrev Path := List String

abbrev Tree := Path → Option Node

/-- A directory that a path goes through. -/
def Above (q p : Path) : Prop := q <+: p ∧ q ≠ p

instance (q p : Path) : Decidable (Above q p) := inferInstanceAs (Decidable (_ ∧ _))

/-! ### Writing -/

section Writing

variable (refuses : Tree → Path → Bool)

def createDir (fs : Tree) (q : Path) : Option Tree :=
  match fs q with
  | some .dir => some fs
  | some (.file _) => none
  | none => if refuses fs q then none else some (Function.update fs q (some .dir))

/-- A directory and those above it. -/
def createDirAll (fs : Tree) (q : Path) : Option Tree := q.inits.foldlM (createDir refuses) fs

def writeFile (fs : Tree) (q : Path) (text : String) : Option Tree :=
  if fs q = some .dir ∨ fs q.dropLast ≠ some .dir ∨ refuses fs q then none
  else some (Function.update fs q (some (.file text)))

/-- A file, and the directories above it. -/
def writeAt (fs : Tree) (q : Path) (text : String) : Option Tree :=
  (createDirAll refuses fs q.dropLast).bind fun fs => writeFile refuses fs q text

def writeAll (fs : Tree) (files : List (Path × String)) : Option Tree :=
  files.foldlM (fun fs f => writeAt refuses fs f.1 f.2) fs

end Writing

variable {refuses : Tree → Path → Bool} {fs fs' : Tree} {q : Path} {text : String}

theorem createDir_eq_some (h : createDir refuses fs q = some fs') :
    fs' = Function.update fs q (some .dir) ∧ ∀ t, fs q ≠ some (.file t) := by
  unfold createDir at h
  cases hq : fs q with
  | none =>
    simp only [hq] at h
    split_ifs at h
    exact ⟨(Option.some.inj h).symm, nofun⟩
  | some n =>
    cases n with
    | dir =>
      simp only [hq] at h
      obtain rfl := Option.some.inj h
      exact ⟨by rw [← hq, Function.update_eq_self], nofun⟩
    | file t => simp only [hq, reduceCtorEq] at h

theorem createDirs_eq_some {ds : List Path} (h : ds.foldlM (createDir refuses) fs = some fs') :
    (∀ p, fs' p = if p ∈ ds then some .dir else fs p) ∧ ∀ p ∈ ds, ∀ t, fs p ≠ some (.file t) := by
  induction ds generalizing fs with
  | nil =>
    obtain rfl := Option.some.inj h
    exact ⟨fun p => (if_neg List.not_mem_nil).symm, fun p hp => absurd hp List.not_mem_nil⟩
  | cons d ds ih =>
    rw [List.foldlM_cons] at h
    obtain ⟨mid, hmid, hrest⟩ := Option.bind_eq_some_iff.mp h
    obtain ⟨rfl, hd⟩ := createDir_eq_some hmid
    obtain ⟨htree, hfiles⟩ := ih hrest
    refine ⟨fun p => ?_, fun p hp t ht => ?_⟩
    · rw [htree p]
      by_cases hds : p ∈ ds
      · rw [if_pos hds, if_pos (List.mem_cons_of_mem _ hds)]
      · by_cases hpd : p = d
        · rw [if_neg hds, hpd, Function.update_self, if_pos List.mem_cons_self]
        · have hcons : p ∉ d :: ds := fun hp => (List.mem_cons.mp hp).elim hpd hds
          rw [if_neg hds, Function.update_of_ne hpd, if_neg hcons]
    · rcases List.mem_cons.mp hp with rfl | hp
      · exact hd t ht
      · by_cases hpd : p = d
        · exact hd t (hpd ▸ ht)
        · exact hfiles p hp t (by rw [Function.update_of_ne hpd, ht])

theorem above_iff (hq : q ≠ []) {p : Path} : Above p q ↔ p <+: q.dropLast := by
  obtain ⟨init, c, rfl⟩ := (List.eq_nil_or_concat' q).resolve_left hq
  rw [List.dropLast_concat]
  constructor
  · rintro ⟨hpre, hne⟩
    exact (List.prefix_concat_iff.mp hpre).resolve_left hne
  · intro hpre
    refine ⟨hpre.trans (List.prefix_append ..), ?_⟩
    rintro rfl
    have hlen := hpre.length_le
    rw [List.length_append, List.length_singleton] at hlen
    omega

/-- A file is written where there was no directory, below where there was no file. -/
theorem writeAt_eq_some (hq : q ≠ []) (h : writeAt refuses fs q text = some fs') :
    (∀ p, fs' p = if p = q then some (.file text) else if Above p q then some .dir else fs p) ∧
      fs q ≠ some .dir ∧ ∀ p, Above p q → ∀ t, fs p ≠ some (.file t) := by
  obtain ⟨mid, hmid, hwrite⟩ := Option.bind_eq_some_iff.mp h
  obtain ⟨htree, hfiles⟩ := createDirs_eq_some hmid
  unfold writeFile at hwrite
  split_ifs at hwrite with hrefused
  obtain rfl := Option.some.inj hwrite
  have hmem : ∀ p, p ∈ q.dropLast.inits ↔ Above p q := fun p => (List.mem_inits _ _).trans (above_iff hq).symm
  have hself : ¬Above q q := fun h => h.2 rfl
  simp only [hmem] at htree hfiles
  refine ⟨fun p => ?_, fun hdir => hrefused (.inl ?_), hfiles⟩
  · by_cases hp : p = q
    · rw [hp, Function.update_self, if_pos rfl]
    · rw [Function.update_of_ne hp, if_neg hp, htree]
  · rw [htree, if_neg hself, hdir]

/-- What was a directory stays one, and what was a file stays a file. -/
def Keeps (fs fs' : Tree) : Prop :=
  ∀ q, (fs q = some .dir → fs' q = some .dir) ∧ ∀ t, fs q = some (.file t) → ∃ t', fs' q = some (.file t')

theorem Keeps.trans {fs₁ fs₂ fs₃ : Tree} (h : Keeps fs₁ fs₂) (h' : Keeps fs₂ fs₃) : Keeps fs₁ fs₃ := by
  refine fun q => ⟨fun hq => (h' q).1 ((h q).1 hq), fun t ht => ?_⟩
  obtain ⟨t', ht'⟩ := (h q).2 t ht
  exact (h' q).2 t' ht'

theorem keeps_writeAt (hq : q ≠ []) (h : writeAt refuses fs q text = some fs') : Keeps fs fs' := by
  obtain ⟨htree, hdir, hfiles⟩ := writeAt_eq_some hq h
  refine fun p => ⟨fun hp => ?_, fun t ht => ?_⟩
  · have hne : p ≠ q := fun heq => hdir (heq ▸ hp)
    rw [htree, if_neg hne, hp, ite_self]
  · rw [htree]
    split_ifs with heq habove
    · exact ⟨text, rfl⟩
    · exact absurd ht (hfiles p habove t)
    · exact ⟨t, ht⟩

/-- After writing some files: at the place of each is one that was written there, above
it are directories, and nothing else has changed. -/
theorem writeAll_eq_some {files : List (Path × String)} (hfiles : ∀ f ∈ files, f.1 ≠ [])
    (h : writeAll refuses fs files = some fs') :
    Keeps fs fs' ∧ (∀ f ∈ files, ∃ t, (f.1, t) ∈ files ∧ fs' f.1 = some (.file t)) ∧
      (∀ f ∈ files, ∀ p, Above p f.1 → fs' p = some .dir) ∧
        ∀ p, (∀ f ∈ files, ¬p <+: f.1) → fs' p = fs p := by
  induction files generalizing fs with
  | nil =>
    obtain rfl := Option.some.inj h
    exact ⟨fun q => ⟨id, fun t ht => ⟨t, ht⟩⟩, nofun, nofun, fun _ _ => rfl⟩
  | cons f files ih =>
    unfold writeAll at h
    rw [List.foldlM_cons] at h
    obtain ⟨mid, hmid, hrest⟩ := Option.bind_eq_some_iff.mp h
    obtain ⟨hf, hfiles⟩ := List.forall_mem_cons.mp hfiles
    obtain ⟨htree, -, -⟩ := writeAt_eq_some hf hmid
    obtain ⟨hkeeps, hplaces, habove, hother⟩ := ih hfiles hrest
    have hwritten : mid f.1 = some (.file f.2) := by rw [htree, if_pos rfl]
    refine ⟨(keeps_writeAt hf hmid).trans hkeeps, List.forall_mem_cons.mpr ⟨?_, fun g hg => ?_⟩,
      List.forall_mem_cons.mpr ⟨fun p hp => ?_, habove⟩, fun p hp => ?_⟩
    · by_cases hin : ∃ t, (f.1, t) ∈ files
      · obtain ⟨t, ht⟩ := hin
        obtain ⟨t', hmem, hat⟩ := hplaces _ ht
        exact ⟨t', List.mem_cons_of_mem _ hmem, hat⟩
      · -- no later file is there, nor below
        refine ⟨f.2, List.mem_cons_self, ?_⟩
        rw [hother f.1 fun g hg hpre => ?_, hwritten]
        by_cases heq : f.1 = g.1
        · exact hin ⟨g.2, heq ▸ hg⟩
        · obtain ⟨t, ht⟩ := (hkeeps f.1).2 _ hwritten
          exact nomatch (habove g hg _ ⟨hpre, heq⟩).symm.trans ht
    · obtain ⟨t, hmem, hat⟩ := hplaces g hg
      exact ⟨t, List.mem_cons_of_mem _ hmem, hat⟩
    · exact (hkeeps p).1 (by rw [htree, if_neg hp.2, if_pos hp])
    · obtain ⟨hpf, hp⟩ := List.forall_mem_cons.mp hp
      have hne : p ≠ f.1 := fun heq => hpf (heq ▸ List.prefix_rfl)
      rw [hother p hp, htree, if_neg hne, if_neg fun habove => hpf habove.1]

/-! ### The text of a path -/

def isAbsolute (path : String) : Bool := path.toList.head? = some '/'

/-- What is between the separators. -/
def parts (path : String) : List String := (path.toList.splitOn '/').map String.ofList

inductive Component where
  | rootDir
  | curDir
  | parentDir
  | normal (name : String)
  deriving DecidableEq

/-- The component a part is: repeated separators and `.` inside are none. -/
def component (part : String) : Option Component :=
  if part = "" ∨ part = "." then none else if part = ".." then some .parentDir else some (.normal part)

def components (path : String) : List Component :=
  (if isAbsolute path then [.rootDir] else if (parts path).head? = some "." then [.curDir] else []) ++
    (parts path).filterMap component

def fileName (path : String) : Option String :=
  match (components path).getLast? with
  | some (.normal name) => some name
  | _ => none

theorem slash_notMem_of_mem_parts {path part : String} (h : part ∈ parts path) : '/' ∉ part.toList := by
  obtain ⟨cs, hcs, rfl⟩ := List.mem_map.mp h
  rw [String.toList_ofList]
  exact notMem_splitOn hcs

theorem parts_ne_nil (path : String) : parts path ≠ [] := fun h => List.splitOn_ne_nil _ _ (List.map_eq_nil_iff.mp h)

theorem parts_intercalate {ps : List String} (hps : ps ≠ []) (h : ∀ p ∈ ps, '/' ∉ p.toList) :
    parts ("/".intercalate ps) = ps := by
  have hsep : "/".toList = ['/'] := rfl
  rw [parts, String.toList_intercalate, hsep, List.splitOn_intercalate '/' ?_ (by simpa using hps), List.map_map]
  · simp [Function.comp_def]
  · intro l hl
    obtain ⟨p, hp, rfl⟩ := List.mem_map.mp hl
    exact h p hp

theorem isAbsolute_of_head? {path : String} (h : (parts path).head? ≠ some "") : isAbsolute path = false := by
  refine decide_eq_false fun hhead => h ?_
  obtain ⟨cs, hcs⟩ := List.head?_eq_some_iff.mp hhead
  rw [parts, hcs, List.splitOn_cons_eq_if_modifyHead, if_pos (beq_self_eq_true _)]
  rfl

/-- A name that leads to what has it. -/
def Normal (name : String) : Prop := name ≠ "" ∧ name ≠ "." ∧ name ≠ ".."

theorem component_normal {name : String} (h : Normal name) : component name = some (.normal name) := by
  rw [component, if_neg (not_or.mpr ⟨h.1, h.2.1⟩), if_neg h.2.2]

theorem component_eq_normal {part name : String} (h : component part = some (.normal name)) : name = part ∧ Normal name := by
  unfold component at h
  split_ifs at h with hnone hparent
  · cases h
  obtain rfl := Component.normal.inj (Option.some.inj h)
  obtain ⟨hempty, hdot⟩ := not_or.mp hnone
  exact ⟨rfl, hempty, hdot, hparent⟩

theorem normal_of_mem_components {path name : String} (h : .normal name ∈ components path) : Normal name := by
  rcases List.mem_append.mp h with h | h
  · split_ifs at h <;> simp at h
  · obtain ⟨part, -, hpart⟩ := List.mem_filterMap.mp h
    exact (component_eq_normal hpart).2

theorem component_ne_rootDir (part : String) : component part ≠ some .rootDir := by
  unfold component
  split_ifs <;> intro h <;> cases h

theorem rootDir_notMem_components {path : String} (h : isAbsolute path = false) : .rootDir ∉ components path := by
  rw [components, h, if_neg Bool.false_ne_true, List.mem_append, not_or]
  constructor
  · split_ifs
    · intro hc
      cases List.mem_singleton.mp hc
    · exact List.not_mem_nil
  · intro hc
    obtain ⟨part, -, hpart⟩ := List.mem_filterMap.mp hc
    exact component_ne_rootDir part hpart

theorem normal_of_fileName {path name : String} (h : fileName path = some name) : Normal name := by
  unfold fileName at h
  split at h
  · rename_i heq
    cases h
    exact normal_of_mem_components (List.mem_of_getLast? heq)
  · cases h

/-! ### Where a path leads -/

/-- One part further. -/
def step (q : Path) (part : String) : Path :=
  match component part with
  | some (.normal name) => q ++ [name]
  | some .parentDir => q.dropLast
  | _ => q

def walk (q : Path) (ps : List String) : Path := ps.foldl step q

/-- Only from a directory does a path go on. -/
def resolve (fs : Tree) : Path → List String → Option Path
  | q, [] => some q
  | q, part :: ps => if fs q = some .dir then resolve fs (step q part) ps else none

def read (fs : Tree) (q : Path) : Option String :=
  match fs q with
  | some (.file text) => some text
  | _ => none

/-- What is read at a path joined to a directory's. -/
def readAt (fs : Tree) (base : Path) (path : String) : Option String :=
  (resolve fs (if isAbsolute path then [] else base) (parts path)).bind (read fs)

theorem read_eq_some : read fs q = some text ↔ fs q = some (.file text) := by
  rw [read]
  cases fs q with
  | none => exact ⟨nofun, nofun⟩
  | some n => cases n <;> simp

theorem step_normal {name : String} (h : Normal name) : step q name = q ++ [name] := by
  rw [step, component_normal h]

theorem walk_normal {names : List String} (h : ∀ name ∈ names, Normal name) : walk q names = q ++ names := by
  induction names generalizing q with
  | nil => exact (List.append_nil q).symm
  | cons name names ih =>
    obtain ⟨hname, hnames⟩ := List.forall_mem_cons.mp h
    rw [walk, List.foldl_cons, step_normal hname, ← walk, ih hnames, List.append_assoc]
    rfl

/-- A path leads somewhere when all it goes through are directories. -/
theorem resolve_eq_some {ps : List String} {p : Path} :
    resolve fs q ps = some p ↔ p = walk q ps ∧ ∀ pre, Above pre ps → fs (walk q pre) = some .dir := by
  induction ps generalizing q with
  | nil =>
    refine ⟨fun h => ⟨(Option.some.inj h).symm, fun pre hpre => ?_⟩, fun h => congrArg some h.1.symm⟩
    exact absurd (List.prefix_nil.mp hpre.1) hpre.2
  | cons part ps ih =>
    have habove : ∀ {pre : List String}, Above (part :: pre) (part :: ps) ↔ Above pre ps := by
      intro pre
      simp only [Above, List.cons_prefix_cons, true_and, ne_eq, List.cons.injEq]
    rw [resolve]
    constructor
    · intro h
      split_ifs at h with hdir
      obtain ⟨rfl, hdirs⟩ := ih.mp h
      refine ⟨rfl, fun pre hpre => ?_⟩
      cases pre with
      | nil => exact hdir
      | cons part' pre =>
        obtain ⟨rfl, -⟩ := List.cons_prefix_cons.mp hpre.1
        exact hdirs pre (habove.mp hpre)
    · rintro ⟨rfl, hdirs⟩
      have hdir : fs q = some .dir := hdirs [] ⟨List.nil_prefix, nofun⟩
      rw [if_pos hdir]
      exact ih.mpr ⟨rfl, fun pre hpre => hdirs (part :: pre) (habove.mpr hpre)⟩

/-! ### Paths that climb first -/

/-- A tree whose files and directories are all in directories. -/
def Rooted (fs : Tree) : Prop := ∀ q name, fs (q ++ [name]) ≠ none → fs q = some .dir

/-- A tree by what is in it. -/
def ofEntries (es : List (Path × Node)) : Tree := fun q => (es.find? fun e => e.1 = q).map (·.2)

theorem rooted_ofEntries {es : List (Path × Node)} (h : ∀ e ∈ es, e.1 = [] ∨ ofEntries es e.1.dropLast = some .dir) :
    Rooted (ofEntries es) := by
  intro q name hne
  obtain ⟨n, hn⟩ := Option.ne_none_iff_exists'.mp hne
  obtain ⟨e, he, -⟩ := Option.map_eq_some_iff.mp hn
  have hq : e.1 = q ++ [name] := by simpa using List.find?_some he
  have hdir := (h e (List.mem_of_find?_eq_some he)).resolve_left (hq ▸ List.concat_ne_nil _ _)
  rwa [hq, List.dropLast_concat] at hdir

theorem finite_ofEntries (es : List (Path × Node)) : {q | ofEntries es q ≠ none}.Finite := by
  refine (List.finite_toSet (es.map Prod.fst)).subset fun q hq => ?_
  obtain ⟨n, hn⟩ := Option.ne_none_iff_exists'.mp hq
  obtain ⟨e, he, -⟩ := Option.map_eq_some_iff.mp hn
  have hfst : e.1 = q := by simpa using List.find?_some he
  exact List.mem_map.mpr ⟨e, List.mem_of_find?_eq_some he, hfst⟩

theorem Rooted.above (h : Rooted fs) {p : Path} (hq : Above q p) (hp : fs p ≠ none) : fs q = some .dir := by
  induction p using List.reverseRecOn with
  | nil => exact absurd (List.prefix_nil.mp hq.1) hq.2
  | append_singleton init c ih =>
    have hdir := h init c hp
    have hpre := (above_iff (List.concat_ne_nil c init)).mp hq
    rw [List.dropLast_concat] at hpre
    by_cases heq : q = init
    · exact heq ▸ hdir
    · exact ih ⟨hpre, heq⟩ (by rw [hdir]; exact Option.some_ne_none _)

theorem Rooted.dir_below (h : Rooted fs) {p : Path} (hq : q <+: p) (hp : fs p = some .dir) : fs q = some .dir := by
  by_cases heq : q = p
  · exact heq ▸ hp
  · exact h.above ⟨hq, heq⟩ (by rw [hp]; exact Option.some_ne_none _)

theorem Rooted.dropLast_of_file (h : Rooted fs) (hq : fs q = some (.file text)) (hne : q ≠ []) :
    fs q.dropLast = some .dir := by
  obtain ⟨init, c, rfl⟩ := (List.eq_nil_or_concat' q).resolve_left hne
  rw [List.dropLast_concat]
  exact h init c (by rw [hq]; exact Option.some_ne_none _)

/-- One component further. -/
def enter (q : Path) : Component → Path
  | .normal name => q ++ [name]
  | .parentDir => q.dropLast
  | _ => q

theorem walk_eq (ps : List String) : walk q ps = (ps.filterMap component).foldl enter q := by
  induction ps generalizing q with
  | nil => rfl
  | cons part ps ih =>
    rw [walk, List.foldl_cons, ← walk, ih, step]
    cases hc : component part with
    | none => rw [List.filterMap_cons_none hc]
    | some c =>
      rw [List.filterMap_cons_some hc, List.foldl_cons]
      cases c <;> rfl

/-- A relative path that climbs first, then goes through names, and ends in one. -/
def Direct (path : String) : Prop :=
  isAbsolute path = false ∧ ∃ (n : ℕ) (names init : List String) (name : String), parts path = init ++ [name] ∧ Normal name ∧
    init.filterMap component = List.replicate n .parentDir ++ names.map .normal

theorem climb_le (q : Path) (n : ℕ) : (List.replicate n Component.parentDir).foldl enter q <+: q := by
  induction n with
  | zero => exact List.prefix_rfl
  | succ n ih =>
    rw [List.replicate_succ', List.foldl_concat]
    exact (List.dropLast_prefix _).trans ih

theorem foldl_normal (q : Path) (names : List String) : (names.map Component.normal).foldl enter q = q ++ names := by
  induction names generalizing q with
  | nil => exact (List.append_nil q).symm
  | cons name names ih =>
    rw [List.map_cons, List.foldl_cons, ih, enter, List.append_assoc]
    rfl

/-- From a directory, such a path goes through directories to what it leads to. -/
theorem resolve_direct (hfs : Rooted fs) (hq : fs q = some .dir) {path : String} (h : Direct path)
    (hp : fs (walk q (parts path)) ≠ none) : resolve fs q (parts path) = some (walk q (parts path)) := by
  obtain ⟨-, n, names, init, name, hparts, hname, hinit⟩ := h
  refine resolve_eq_some.mpr ⟨rfl, fun pre hpre => ?_⟩
  have hplace : walk q (parts path) = (List.replicate n Component.parentDir).foldl enter q ++ names ++ [name] := by
    rw [hparts, walk, List.foldl_concat, ← walk, step_normal hname, walk_eq, hinit, List.foldl_append, foldl_normal]
  rw [hparts, above_iff (List.concat_ne_nil _ _), List.dropLast_concat] at hpre
  have hcs := hpre.filterMap component
  rw [hinit] at hcs
  rw [walk_eq]
  rcases List.prefix_or_prefix_of_prefix hcs (List.prefix_append _ _) with hclimb | ⟨rest, hrest⟩
  · -- still climbing
    obtain ⟨-, heq⟩ := List.prefix_replicate_iff.mp hclimb
    rw [heq]
    exact hfs.dir_below (climb_le q _) hq
  · rw [← hrest, List.prefix_append_right_inj, List.prefix_map_iff] at hcs
    obtain ⟨names', hpre', rfl⟩ := hcs
    rw [← hrest, List.foldl_append, foldl_normal]
    refine hfs.above (p := walk q (parts path)) ?_ hp
    rw [hplace, List.append_assoc]
    refine ⟨(List.prefix_append_right_inj _).mpr (hpre'.trans (List.prefix_append _ _)), fun heq => ?_⟩
    have hlen := congrArg List.length (List.append_cancel_left heq)
    have hle := hpre'.length_le
    rw [List.length_append, List.length_singleton] at hlen
    omega

end NlinkLab.FileTree
