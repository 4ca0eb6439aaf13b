import NlinkLab.Data.BTreeMap
import NlinkLab.Data.Fallible
import NlinkLab.Data.FileTree

/-! Staging a source bundle (`stage_source` of `ops/mutate.rs`): a lab's file and what it
imports are written under a directory, the file as deep as its imports climb, each level
a directory `_`. A name of a bundle that is `_` is one of these levels as well, and a path
that goes through a directory of the client's goes through one that was never written. -/

namespace NlinkLab.Staging

open FileTree Fallible

/-- The entry file's text, and the files it imports by their paths relative to it. -/
structure SourceBundle where
  path : String
  text : String
  imports : BTreeMap String String
  params : List (String × String)

inductive StageError where
  | notRelative (path : String)
  | io
  deriving DecidableEq

/-- How far a path has climbed and where it has gone from there, one component further. -/
def follow (rel : String) (at' : ℕ × List String) : Component → Except StageError (ℕ × List String)
  | .normal s => .ok (at'.1, at'.2 ++ [s])
  | .curDir => .ok at'
  | .parentDir => .ok (if at'.2 = [] then (at'.1 + 1, []) else (at'.1, at'.2.dropLast))
  | .rootDir => .error (.notRelative rel)

/-- A relative path as how far it climbs and where it goes from there. -/
def normalize (rel : String) : Except StageError (ℕ × List String) := do
  if isAbsolute rel ∨ rel = "" then .error (.notRelative rel)
  else
    let at' ← (components rel).foldlM (follow rel) (0, [])
    if at'.2 = [] then .error (.notRelative rel) else .ok at'

def entryName (bundle : SourceBundle) : String :=
  ((fileName bundle.path).filter (· ≠ "")).getD "topology.nll"

/-- `n` levels under a directory. -/
def levels (dir : Path) (n : ℕ) : Path := walk dir (List.replicate n "_")

section Writing

variable (refuses : Tree → Path → Bool)

/-- A file written, or the failure to. -/
def write (fs : Tree) (q : Path) (text : String) : Except StageError Tree :=
  match writeAt refuses fs q text with
  | some fs' => .ok fs'
  | none => .error .io

/-- Write a source bundle under `dir` and return its entry file. -/
def stageSource (bundle : SourceBundle) (dir : Path) (fs : Tree) : Except StageError (Path × Tree) := do
  let imports ← bundle.imports.toList.mapM fun (rel, text) => do
    let (up, rest) ← normalize rel
    .ok (up, rest, text)
  let depth := (imports.map (·.1)).foldl max 0
  let entry := walk (levels dir depth) [entryName bundle]
  let fs ← write refuses fs entry bundle.text
  let fs ← imports.foldlM (fun fs (up, rest, text) => write refuses fs (walk (levels dir (depth - up)) rest) text) fs
  .ok (entry, fs)

end Writing

/-! ### What is asked of a staged bundle -/

/-- Outside the directory nothing but directories above it is made. -/
def Confined (dir : Path) (fs fs' : Tree) : Prop :=
  ∀ q, ¬dir <+: q → fs' q ≠ fs q → Above q dir ∧ fs q = none ∧ fs' q = some .dir

/-- The entry and, from beside it, each import are read as the bundle has them. -/
def Faithful (bundle : SourceBundle) (entry : Path) (fs : Tree) : Prop :=
  read fs entry = some bundle.text ∧
    ∀ rel text, bundle.imports[rel]? = some text → readAt fs entry.dropLast rel = some text

/-! ### When it is so -/

/-- A file of the bundle, by how far its path climbs and where it goes from there. -/
inductive IsFile (bundle : SourceBundle) : ℕ → List String → String → Prop where
  | entry : IsFile bundle 0 [entryName bundle] bundle.text
  | imported {rel text : String} {up : ℕ} {rest : List String} : bundle.imports[rel]? = some text →
      normalize rel = .ok (up, rest) → IsFile bundle up rest text

/-- Two paths are one when the levels one has more of are the names the other begins with. -/
def Together (up : ℕ) (rest : List String) (up' : ℕ) (rest' : List String) : Prop :=
  List.replicate (up' - up) "_" ++ rest = List.replicate (up - up') "_" ++ rest'

/-- Files whose paths are one have one text. -/
def Apart (bundle : SourceBundle) : Prop :=
  ∀ ⦃up rest text up' rest' text'⦄, IsFile bundle up rest text → IsFile bundle up' rest' text' →
    Together up rest up' rest' → text = text'

/-- The deepest climb. -/
def SourceBundle.depth (bundle : SourceBundle) : ℕ :=
  (bundle.imports.toList.filterMap fun (rel, _) => (normalize rel).toOption.map (·.1)).foldl max 0

/-- Where a path of the bundle is staged. -/
def site (dir : Path) (depth up : ℕ) (rest : List String) : Path := dir ++ (List.replicate (depth - up) "_" ++ rest)

/-- Every directory that the path of an import goes through was there, or is one that a
file of the bundle is staged under. -/
def Passable (bundle : SourceBundle) (dir : Path) (fs : Tree) : Prop :=
  ∀ rel text, bundle.imports[rel]? = some text → ∀ pre, Above pre (parts rel) →
    fs (walk (site dir bundle.depth 0 []) pre) = some .dir ∨
      ∃ up rest text, IsFile bundle up rest text ∧
        Above (walk (site dir bundle.depth 0 []) pre) (site dir bundle.depth up rest)

/-! ### Relative paths -/

/-- One component further, for a path from a directory. -/
def advance (at' : ℕ × List String) : Component → ℕ × List String
  | .normal s => (at'.1, at'.2 ++ [s])
  | .parentDir => if at'.2 = [] then (at'.1 + 1, []) else (at'.1, at'.2.dropLast)
  | _ => at'

theorem foldlM_follow {rel : String} {cs : List Component} {at' to' : ℕ × List String}
    (h : cs.foldlM (follow rel) at' = .ok to') : cs.foldl advance at' = to' := by
  induction cs generalizing at' with
  | nil => exact Except.ok.inj h
  | cons c cs ih =>
    rw [List.foldlM_cons, bind_eq_ok] at h
    obtain ⟨mid, hmid, hrest⟩ := h
    rw [List.foldl_cons]
    have hstep : advance at' c = mid := by
      cases c with
      | rootDir => cases hmid
      | curDir | parentDir | normal => exact Except.ok.inj hmid
    rw [hstep]
    exact ih hrest

/-- A relative path is followed to its end. -/
theorem foldlM_follow_eq_ok {rel : String} {cs : List Component} {at' : ℕ × List String} (h : .rootDir ∉ cs) :
    cs.foldlM (follow rel) at' = .ok (cs.foldl advance at') := by
  induction cs generalizing at' with
  | nil => rfl
  | cons c cs ih =>
    obtain ⟨hc, hcs⟩ := not_or.mp (mt List.mem_cons.mpr h)
    rw [List.foldlM_cons, List.foldl_cons, ← ih hcs]
    cases c with
    | rootDir => exact absurd rfl hc
    | curDir | parentDir | normal => rfl

/-- What a path is normalized to: where its parts lead. -/
theorem normalize_eq_ok {rel : String} {up : ℕ} {rest : List String} (h : normalize rel = .ok (up, rest)) :
    isAbsolute rel = false ∧ ((parts rel).filterMap component).foldl advance (0, []) = (up, rest) ∧ rest ≠ [] := by
  unfold normalize at h
  split_ifs at h with hbad
  obtain ⟨to', hfold, hto⟩ := bind_eq_ok.mp h
  split_ifs at hto with hne
  obtain rfl := Except.ok.inj hto
  have habs : isAbsolute rel = false := Bool.eq_false_iff.mpr (not_or.mp hbad).1
  have hfold := foldlM_follow hfold
  rw [components, List.foldl_append, habs, if_neg Bool.false_ne_true] at hfold
  refine ⟨habs, ?_, hne⟩
  rw [← hfold]
  congr 1
  split_ifs <;> rfl

theorem advance_mono (at' : ℕ × List String) (cs : List Component) : at'.1 ≤ (cs.foldl advance at').1 := by
  induction cs generalizing at' with
  | nil => exact le_rfl
  | cons c cs ih =>
    refine le_trans ?_ (ih _)
    cases c with
    | parentDir =>
      rw [advance]
      split_ifs
      · exact Nat.le_succ _
      · exact le_rfl
    | rootDir | curDir | normal => exact le_rfl

/-- A path that climbs no further than the depth leads where it is staged. -/
theorem walk_site (dir : Path) (depth : ℕ) (ps : List String) (up : ℕ) (rest : List String)
    (h : ((ps.filterMap component).foldl advance (up, rest)).1 ≤ depth) :
    walk (site dir depth up rest) ps = site dir depth ((ps.filterMap component).foldl advance (up, rest)).1
      ((ps.filterMap component).foldl advance (up, rest)).2 := by
  induction ps generalizing up rest with
  | nil => rfl
  | cons part ps ih =>
    rw [walk, List.foldl_cons, ← walk, step]
    cases hpart : component part with
    | none =>
      rw [List.filterMap_cons_none hpart] at h ⊢
      exact ih up rest h
    | some c =>
      rw [List.filterMap_cons_some hpart, List.foldl_cons] at h ⊢
      cases c with
      | rootDir | curDir => exact ih up rest h
      | normal name =>
        have happend : site dir depth up rest ++ [name] = site dir depth up (rest ++ [name]) := by
          simp only [site, List.append_assoc]
        dsimp only
        rw [happend]
        exact ih up (rest ++ [name]) h
      | parentDir =>
        by_cases hrest : rest = []
        · subst hrest
          have hup : up + 1 ≤ depth := (advance_mono (up + 1, []) (ps.filterMap component)).trans h
          have hdrop : (site dir depth up []).dropLast = site dir depth (up + 1) [] := by
            have hlevels : depth - up = depth - (up + 1) + 1 := by omega
            rw [site, site, hlevels, List.replicate_succ', List.append_nil, List.append_nil, ← List.append_assoc,
              List.dropLast_concat]
          dsimp only
          rw [hdrop]
          exact ih (up + 1) [] h
        · have hdrop : (site dir depth up rest).dropLast = site dir depth up rest.dropLast := by
            rw [site, site, List.dropLast_append_of_ne_nil (by simp [hrest]), List.dropLast_append_of_ne_nil hrest]
          rw [advance, if_neg hrest] at h ⊢
          dsimp only
          rw [hdrop]
          exact ih up rest.dropLast h

theorem normal_advance {cs : List Component} (hcs : ∀ name, .normal name ∈ cs → Normal name) {at' : ℕ × List String}
    (h : ∀ name ∈ at'.2, Normal name) : ∀ name ∈ (cs.foldl advance at').2, Normal name := by
  induction cs generalizing at' with
  | nil => exact h
  | cons c cs ih =>
    refine ih (fun name hname => hcs name (List.mem_cons_of_mem _ hname)) fun name hname => ?_
    cases c with
    | rootDir | curDir => exact h name hname
    | parentDir =>
      rw [advance] at hname
      split_ifs at hname
      · cases hname
      · exact h name (List.dropLast_subset _ hname)
    | normal s =>
      rcases List.mem_append.mp hname with hold | hlast
      · exact h name hold
      · exact List.mem_singleton.mp hlast ▸ hcs s List.mem_cons_self

theorem normal_normalize {rel : String} {up : ℕ} {rest : List String} (h : normalize rel = .ok (up, rest)) :
    ∀ name ∈ rest, Normal name := by
  obtain ⟨-, hfold, -⟩ := normalize_eq_ok h
  have hnormal : ∀ name ∈ (((parts rel).filterMap component).foldl advance (0, [])).2, Normal name := by
    refine normal_advance (fun name hname => ?_) nofun
    obtain ⟨part, -, hpart⟩ := List.mem_filterMap.mp hname
    exact (component_eq_normal hpart).2
  rwa [hfold] at hnormal

theorem normal_entryName (bundle : SourceBundle) : Normal (entryName bundle) := by
  unfold entryName
  cases hname : (fileName bundle.path).filter (· ≠ "") with
  | none => exact ⟨by decide, by decide, by decide⟩
  | some name => exact normal_of_fileName (Option.filter_eq_some_iff.mp hname).1

/-! ### What is written -/

theorem walk_levels {dir : Path} {n : ℕ} {names : List String} (h : ∀ name ∈ names, Normal name) :
    walk (levels dir n) names = dir ++ (List.replicate n "_" ++ names) := by
  have hlevel : Normal "_" := ⟨by decide, by decide, by decide⟩
  rw [levels, walk_normal (fun name hname => List.eq_of_mem_replicate hname ▸ hlevel), walk_normal h,
    List.append_assoc]

theorem le_foldl_max {l : List ℕ} {n : ℕ} (h : n ∈ l) : n ≤ l.foldl max 0 := by
  rw [List.foldl_max]
  exact le_max_of_le_right (List.le_max?_getD_of_mem h)

theorem IsFile.up_le {bundle : SourceBundle} {up : ℕ} {rest : List String} {text : String}
    (h : IsFile bundle up rest text) : up ≤ bundle.depth := by
  cases h with
  | entry => exact Nat.zero_le _
  | imported himport hrel =>
    refine le_foldl_max (List.mem_filterMap.mpr ⟨_, Std.ExtTreeMap.mem_toList_iff_getElem?_eq_some.mpr himport, ?_⟩)
    dsimp only
    rw [hrel]
    rfl

theorem IsFile.normal {bundle : SourceBundle} {up : ℕ} {rest : List String} {text : String}
    (h : IsFile bundle up rest text) : ∀ name ∈ rest, Normal name := by
  cases h with
  | entry => exact fun name hname => List.mem_singleton.mp hname ▸ normal_entryName bundle
  | imported _ hrel => exact normal_normalize hrel

theorem IsFile.ne_nil {bundle : SourceBundle} {up : ℕ} {rest : List String} {text : String}
    (h : IsFile bundle up rest text) : rest ≠ [] := by
  cases h with
  | entry => exact List.cons_ne_nil _ _
  | imported _ hrel => exact (normalize_eq_ok hrel).2.2

theorem write_eq_ok {refuses : Tree → Path → Bool} {fs fs' : Tree} {q : Path} {text : String} :
    write refuses fs q text = .ok fs' ↔ writeAt refuses fs q text = some fs' := by
  unfold write
  cases writeAt refuses fs q text with
  | none => exact ⟨nofun, nofun⟩
  | some mid => exact ⟨fun h => congrArg some (Except.ok.inj h), fun h => congrArg Except.ok (Option.some.inj h)⟩

theorem foldlM_write {A : Type} {refuses : Tree → Path → Bool} {fs fs' : Tree} {l : List A} {place : A → Path}
    {text : A → String} : l.foldlM (fun fs a => write refuses fs (place a) (text a)) fs = .ok fs' ↔
      writeAll refuses fs (l.map fun a => (place a, text a)) = some fs' := by
  induction l generalizing fs with
  | nil => exact ⟨fun h => congrArg some (Except.ok.inj h), fun h => congrArg Except.ok (Option.some.inj h)⟩
  | cons a l ih =>
    rw [List.foldlM_cons, List.map_cons, writeAll, List.foldlM_cons, bind_eq_ok, Option.bind_eq_bind,
      Option.bind_eq_some_iff]
    simp only [write_eq_ok, ih, writeAll]

/-- An import as it is listed and as it is written. -/
def Normalizes (a : String × String) (b : ℕ × List String × String) : Prop :=
  normalize a.1 = .ok (b.1, b.2.1) ∧ b.2.2 = a.2

theorem climbs_eq {l : List (String × String)} {imports : List (ℕ × List String × String)}
    (h : List.Forall₂ Normalizes l imports) :
    imports.map (·.1) = l.filterMap fun (rel, _) => (normalize rel).toOption.map (·.1) := by
  induction h with
  | nil => rfl
  | cons hab _ ih =>
    rw [List.map_cons, List.filterMap_cons_some (by dsimp only; rw [hab.1]; rfl), ih]

section Staged

variable {refuses : Tree → Path → Bool} {bundle : SourceBundle} {dir entry : Path} {fs fs' : Tree}

/-- What a staging writes: the bundle's files, each at its site. -/
theorem stageSource_eq_ok (h : stageSource refuses bundle dir fs = .ok (entry, fs')) :
    entry = site dir bundle.depth 0 [entryName bundle] ∧ ∃ files, writeAll refuses fs files = some fs' ∧
      ∀ p text, (p, text) ∈ files ↔ ∃ up rest, IsFile bundle up rest text ∧ p = site dir bundle.depth up rest := by
  obtain ⟨imports, himports, h⟩ := bind_eq_ok.mp h
  have himports : List.Forall₂ (Normalizes ·  ·) bundle.imports.toList imports := by
    refine (mapM_eq_ok.mp himports).imp fun a b hab => ?_
    obtain ⟨⟨up, rest⟩, hrel, hb⟩ := bind_eq_ok.mp hab
    obtain rfl := Except.ok.inj hb
    exact ⟨hrel, rfl⟩
  have hentry : ∀ name ∈ [entryName bundle], Normal name := IsFile.entry.normal
  dsimp only at h
  rw [climbs_eq himports, ← SourceBundle.depth, walk_levels hentry] at h
  obtain ⟨mid, hmid, h⟩ := bind_eq_ok.mp h
  obtain ⟨last, hlast, h⟩ := bind_eq_ok.mp h
  obtain ⟨rfl, rfl⟩ := Prod.mk.inj (Except.ok.inj h)
  refine ⟨rfl, (site dir bundle.depth 0 [entryName bundle], bundle.text) :: imports.map fun b =>
    (walk (levels dir (bundle.depth - b.1)) b.2.1, b.2.2), ?_, fun p text => ?_⟩
  · rw [writeAll, List.foldlM_cons, Option.bind_eq_bind, Option.bind_eq_some_iff]
    exact ⟨mid, write_eq_ok.mp hmid, foldlM_write.mp hlast⟩
  · constructor
    · intro hmem
      rcases List.mem_cons.mp hmem with heq | hmem
      · obtain ⟨rfl, rfl⟩ := Prod.mk.inj heq
        exact ⟨0, [entryName bundle], .entry, rfl⟩
      · obtain ⟨⟨up, rest, text'⟩, hb, heq⟩ := List.mem_map.mp hmem
        obtain ⟨rfl, rfl⟩ := Prod.mk.inj heq
        obtain ⟨⟨rel, _⟩, hrel, hnormalize, rfl⟩ := exists_left_of_forall₂ himports hb
        exact ⟨up, rest, .imported (Std.ExtTreeMap.mem_toList_iff_getElem?_eq_some.mp hrel) hnormalize,
          walk_levels (normal_normalize hnormalize)⟩
    · rintro ⟨up, rest, hfile, rfl⟩
      cases hfile with
      | entry => exact List.mem_cons_self
      | imported himport hnormalize =>
        obtain ⟨⟨up', rest', text'⟩, hb, hnormalize', rfl⟩ :=
          exists_right_of_forall₂ himports (Std.ExtTreeMap.mem_toList_iff_getElem?_eq_some.mpr himport)
        obtain ⟨rfl, rfl⟩ := Prod.mk.inj (Except.ok.inj (hnormalize.symm.trans hnormalize'))
        refine List.mem_cons_of_mem _ (List.mem_map.mpr ⟨_, hb, Prod.ext ?_ rfl⟩)
        exact walk_levels (normal_normalize hnormalize)

theorem site_split {depth up up' : ℕ} (h : up ≤ depth) (h' : up' ≤ depth) (rest : List String) :
    site dir depth up rest = dir ++ (List.replicate (depth - max up up') "_" ++ (List.replicate (up' - up) "_" ++ rest)) := by
  have hlevels : depth - up = depth - max up up' + (up' - up) := by omega
  rw [site, hlevels, List.replicate_add, List.append_assoc]

variable (dir) in
theorem site_eq_iff {depth up up' : ℕ} (h : up ≤ depth) (h' : up' ≤ depth) {rest rest' : List String} :
    site dir depth up rest = site dir depth up' rest' ↔ Together up rest up' rest' := by
  rw [site_split h h', site_split h' h, max_comm up' up, List.append_right_inj, List.append_right_inj, Together]

/-- The tree a bundle is staged in: each file's site has the text of a file with that
site, and what is above it are directories. -/
theorem stageSource_tree (h : stageSource refuses bundle dir fs = .ok (entry, fs')) :
    Keeps fs fs' ∧
      (∀ up rest text, IsFile bundle up rest text → ∃ up' rest' text', IsFile bundle up' rest' text' ∧
        Together up rest up' rest' ∧ fs' (site dir bundle.depth up rest) = some (.file text')) ∧
      (∀ up rest text, IsFile bundle up rest text → ∀ p, Above p (site dir bundle.depth up rest) → fs' p = some .dir) ∧
        ∀ p, (∀ up rest text, IsFile bundle up rest text → ¬p <+: site dir bundle.depth up rest) → fs' p = fs p := by
  obtain ⟨-, files, hfiles, hmem⟩ := stageSource_eq_ok h
  have hsites : ∀ f ∈ files, ∃ up rest, IsFile bundle up rest f.2 ∧ f.1 = site dir bundle.depth up rest :=
    fun f hf => (hmem f.1 f.2).mp hf
  have hne : ∀ f ∈ files, f.1 ≠ [] := by
    intro f hf hnil
    obtain ⟨up, rest, hfile, hsite⟩ := hsites f hf
    rw [hsite, site, List.append_eq_nil_iff, List.append_eq_nil_iff] at hnil
    exact hfile.ne_nil hnil.2.2
  obtain ⟨hkeeps, hplaces, habove, hother⟩ := writeAll_eq_some hne hfiles
  refine ⟨hkeeps, fun up rest text hfile => ?_, fun up rest text hfile => ?_, fun p hp => hother p fun f hf => ?_⟩
  · obtain ⟨text', hin, hat⟩ := hplaces _ ((hmem _ text).mpr ⟨up, rest, hfile, rfl⟩)
    obtain ⟨up', rest', hfile', hsite⟩ := (hmem _ _).mp hin
    exact ⟨up', rest', text', hfile', (site_eq_iff dir hfile.up_le hfile'.up_le).mp hsite, hat⟩
  · exact habove _ ((hmem _ text).mpr ⟨up, rest, hfile, rfl⟩)
  · obtain ⟨up, rest, hfile, hsite⟩ := hsites f hf
    exact hsite ▸ hp up rest _ hfile

theorem confined_of_stageSource (h : stageSource refuses bundle dir fs = .ok (entry, fs')) : Confined dir fs fs' := by
  obtain ⟨hkeeps, -, habove, hother⟩ := stageSource_tree h
  intro q hq hne
  obtain ⟨up, rest, text, hfile, hpre⟩ : ∃ up rest text, IsFile bundle up rest text ∧ q <+: site dir bundle.depth up rest := by
    by_contra hnone
    exact hne (hother q fun up rest text hfile hpre => hnone ⟨up, rest, text, hfile, hpre⟩)
  have hdir : Above q dir := by
    refine ⟨(List.prefix_or_prefix_of_prefix hpre (List.prefix_append ..)).resolve_right hq, ?_⟩
    rintro rfl
    exact hq List.prefix_rfl
  have hmade : fs' q = some .dir := by
    refine habove up rest text hfile q ⟨hpre, ?_⟩
    rintro rfl
    exact hq (List.prefix_append ..)
  refine ⟨hdir, ?_, hmade⟩
  cases hfs : fs q with
  | none => rfl
  | some n =>
    cases n with
    | dir => exact absurd (hmade.trans hfs.symm) hne
    | file t =>
      obtain ⟨t', ht'⟩ := (hkeeps q).2 t hfs
      exact nomatch hmade.symm.trans ht'

/-- An import that can be opened is at its site. -/
theorem walk_import {rel text : String} {up : ℕ} {rest : List String} (himport : bundle.imports[rel]? = some text)
    (hrel : normalize rel = .ok (up, rest)) :
    walk (site dir bundle.depth 0 []) (parts rel) = site dir bundle.depth up rest := by
  have hup : up ≤ bundle.depth := (IsFile.imported himport hrel).up_le
  obtain ⟨-, hfold, -⟩ := normalize_eq_ok hrel
  rw [walk_site _ _ _ _ _ (by rwa [hfold]), hfold]

theorem readAt_import {rel text text' : String} {up : ℕ} {rest : List String}
    (himport : bundle.imports[rel]? = some text) (hrel : normalize rel = .ok (up, rest)) :
    readAt fs' (site dir bundle.depth 0 []) rel = some text' ↔
      (∀ pre, Above pre (parts rel) → fs' (walk (site dir bundle.depth 0 []) pre) = some .dir) ∧
        fs' (site dir bundle.depth up rest) = some (.file text') := by
  unfold readAt
  rw [(normalize_eq_ok hrel).1, if_neg Bool.false_ne_true, Option.bind_eq_some_iff]
  simp only [resolve_eq_some, read_eq_some, walk_import himport hrel]
  constructor
  · rintro ⟨_, ⟨rfl, hdirs⟩, hat⟩
    exact ⟨hdirs, hat⟩
  · rintro ⟨hdirs, hat⟩
    exact ⟨_, ⟨rfl, hdirs⟩, hat⟩

theorem exists_normalize (h : stageSource refuses bundle dir fs = .ok (entry, fs')) {rel text : String}
    (himport : bundle.imports[rel]? = some text) : ∃ up rest, normalize rel = .ok (up, rest) := by
  obtain ⟨imports, himports, -⟩ := bind_eq_ok.mp h
  obtain ⟨b, -, hb⟩ := exists_of_mapM_eq_ok himports (Std.ExtTreeMap.mem_toList_iff_getElem?_eq_some.mpr himport)
  obtain ⟨⟨up, rest⟩, hrel, -⟩ := bind_eq_ok.mp hb
  exact ⟨up, rest, hrel⟩

/-- A bundle is read back when each file's site has its text and imports go through directories. -/
theorem faithful_iff (h : stageSource refuses bundle dir fs = .ok (entry, fs')) :
    Faithful bundle entry fs' ↔
      (∀ up rest text, IsFile bundle up rest text → fs' (site dir bundle.depth up rest) = some (.file text)) ∧
        ∀ rel text, bundle.imports[rel]? = some text → ∀ pre, Above pre (parts rel) →
          fs' (walk (site dir bundle.depth 0 []) pre) = some .dir := by
  obtain ⟨rfl, -⟩ := stageSource_eq_ok h
  have hbase : (site dir bundle.depth 0 [entryName bundle]).dropLast = site dir bundle.depth 0 [] := by
    rw [site, site, ← List.append_assoc, List.dropLast_concat, List.append_nil]
  unfold Faithful
  rw [read_eq_some, hbase]
  constructor
  · rintro ⟨hentry, himports⟩
    refine ⟨fun up rest text hfile => ?_, fun rel text himport => ?_⟩
    · cases hfile with
      | entry => exact hentry
      | imported himport hrel => exact ((readAt_import himport hrel).mp (himports _ _ himport)).2
    · obtain ⟨up, rest, hrel⟩ := exists_normalize h himport
      exact ((readAt_import himport hrel).mp (himports rel text himport)).1
  · rintro ⟨hfiles, hdirs⟩
    refine ⟨hfiles 0 _ _ .entry, fun rel text himport => ?_⟩
    obtain ⟨up, rest, hrel⟩ := exists_normalize h himport
    exact (readAt_import himport hrel).mpr ⟨hdirs rel text himport, hfiles up rest text (.imported himport hrel)⟩

/-- Staging stays in its directory, and what it writes is read back as the bundle has it
exactly when files whose paths are one have one text and every directory the paths of
imports go through is there. -/
theorem stageSource_exact_iff (h : stageSource refuses bundle dir fs = .ok (entry, fs')) :
    Confined dir fs fs' ∧ (Faithful bundle entry fs' ↔ Apart bundle ∧ Passable bundle dir fs) := by
  refine ⟨confined_of_stageSource h, ?_⟩
  obtain ⟨hkeeps, hsites, habove, hother⟩ := stageSource_tree h
  rw [faithful_iff h]
  constructor
  · rintro ⟨hfiles, hdirs⟩
    refine ⟨fun up rest text up' rest' text' hfile hfile' htogether => ?_, fun rel text himport pre hpre => ?_⟩
    · have hsite := (site_eq_iff dir hfile.up_le hfile'.up_le).mpr htogether
      have htexts := (hfiles up rest text hfile).symm.trans (hsite ▸ hfiles up' rest' text' hfile')
      exact Node.file.inj (Option.some.inj htexts)
    · have hdir := hdirs rel text himport pre hpre
      by_contra hnot
      obtain ⟨hfs, hunder⟩ := not_or.mp hnot
      refine hfs ((hother _ fun up rest text hfile hprefixed => ?_).symm.trans hdir)
      refine hunder ⟨up, rest, text, hfile, hprefixed, fun heq => ?_⟩
      have hat := hfiles up rest text hfile
      rw [← heq, hdir] at hat
      cases hat
  · rintro ⟨hapart, hpassable⟩
    refine ⟨fun up rest text hfile => ?_, fun rel text himport pre hpre => ?_⟩
    · obtain ⟨up', rest', text', hfile', htogether, hat⟩ := hsites up rest text hfile
      rw [hapart hfile hfile' htogether, hat]
    · rcases hpassable rel text himport pre hpre with hdir | ⟨up, rest, text, hfile, hunder⟩
      · exact (hkeeps _).1 hdir
      · exact habove up rest text hfile _ hunder

end Staged

/-- A file and two imports of its, in a directory that is there and empty. -/
def sampleBundle (imports : BTreeMap String String) : SourceBundle :=
  { path := "/home/u/labs/main.nll", text := "entry", imports := imports, params := [] }

def sampleTree : Tree := fun q => if q = [] ∨ q = ["staging"] then some .dir else none

theorem stageSource_exact_climb : ∃ entry fs',
    stageSource (fun _ _ => false) (sampleBundle {("../common.nll", "c"), ("lib/a.nll", "a")}) ["staging"] sampleTree =
      .ok (entry, fs') ∧ Confined ["staging"] sampleTree fs' ∧
      (Faithful (sampleBundle {("../common.nll", "c"), ("lib/a.nll", "a")}) entry fs' ↔
        Apart (sampleBundle {("../common.nll", "c"), ("lib/a.nll", "a")}) ∧
        Passable (sampleBundle {("../common.nll", "c"), ("lib/a.nll", "a")}) ["staging"] sampleTree) := by
  have hok : (stageSource (fun _ _ => false) (sampleBundle {("../common.nll", "c"), ("lib/a.nll", "a")}) ["staging"]
      sampleTree).isOk = true := by decide +kernel
  cases h : stageSource (fun _ _ => false) (sampleBundle {("../common.nll", "c"), ("lib/a.nll", "a")}) ["staging"]
      sampleTree with
  | error e =>
    rw [h] at hok
    cases hok
  | ok r => exact ⟨r.1, r.2, rfl, stageSource_exact_iff h⟩

/-- The path `../_/x.nll` of a client's directory beside the file's, and `x.nll`: the second is read at both. -/
theorem staging_not_faithful : ¬∀ (refuses : Tree → Path → Bool) (bundle : SourceBundle) (dir : Path) (fs : Tree)
    (entry : Path) (fs' : Tree), stageSource refuses bundle dir fs = .ok (entry, fs') →
      Confined dir fs fs' ∧ Faithful bundle entry fs' := by
  intro hall
  have hread : (stageSource (fun _ _ => false) (sampleBundle {("../_/x.nll", "a"), ("x.nll", "b")}) ["staging"]
      sampleTree).toOption.map (fun r => readAt r.2 r.1.dropLast "../_/x.nll") = some (some "b") := by decide +kernel
  cases h : stageSource (fun _ _ => false) (sampleBundle {("../_/x.nll", "a"), ("x.nll", "b")}) ["staging"]
      sampleTree with
  | error e =>
    rw [h] at hread
    cases hread
  | ok r =>
    rw [h] at hread
    have hfaithful := (hall _ _ _ _ r.1 r.2 h).2.2 "../_/x.nll" "a" (by decide +kernel)
    exact absurd (hfaithful.symm.trans (Option.some.inj hread)) (by decide)

end NlinkLab.Staging
