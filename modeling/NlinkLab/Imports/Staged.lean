import NlinkLab.Imports

/-! The imports of a lab's file as the client reads them, as they are collected for the
daemon, and as the daemon reads them where it has staged them. -/

namespace NlinkLab.Imports

open Fallible FileTree References Staging

variable {parse : String → Except String (List String)} {fs : Tree} {base : Path} {at' : ℕ × List String}

/-! ### One import -/

theorem normalize_pathText (h : Named at') (hne : at'.2 ≠ []) : Staging.normalize (pathText at') = .ok at' := by
  have hflat := flat_ne_nil hne
  have habs := isAbsolute_pathText h hflat
  have hempty : pathText at' ≠ "" := by
    intro heq
    obtain ⟨init, name, -, -, hname, -, hlast⟩ := h.exists_last hne
    have hmem : name ∈ parts (pathText at') := by
      rw [parts_pathText h hflat, hlast]
      exact List.mem_concat_self
    rw [heq] at hmem
    exact hname.1 (List.mem_singleton.mp hmem)
  have hgo : (components (pathText at')).foldl advance (0, []) = at' := by
    rw [components, habs, if_neg Bool.false_ne_true, List.foldl_append]
    refine Eq.trans ?_ (goTo_pathText h hflat)
    rw [goTo]
    congr 1
    split_ifs <;> rfl
  unfold Staging.normalize
  rw [habs, if_neg (not_or.mpr ⟨Bool.false_ne_true, hempty⟩), bind_eq_ok]
  refine ⟨at', ?_, if_neg hne⟩
  rw [foldlM_follow_eq_ok (rootDir_notMem_components habs), hgo]

theorem direct_pathText (h : Named at') (hne : at'.2 ≠ []) : Direct (pathText at') := by
  obtain ⟨init, name, -, hinit, hname, -, hlast⟩ := h.exists_last hne
  exact ⟨isAbsolute_pathText h (flat_ne_nil hne), at'.1, init, flat (at'.1, init), name,
    (parts_pathText h (flat_ne_nil hne)).trans hlast, hname, component_flat hinit⟩

theorem leads_import_iff {file : Path × String} {path : String} {k : Path} {t : String} :
    (importGraph parse fs).Leads file path k t ↔
      resolve fs (if isAbsolute path then [] else file.1) (parts path) = some k ∧ fs k = some (.file t) := by
  unfold Graph.Leads importGraph canonicalize readAt
  simp only [okOr_eq_ok, Option.filter_eq_some_iff, decide_eq_true_eq, Option.bind_eq_some_iff, read_eq_some]
  constructor
  · rintro ⟨⟨hk, -⟩, k', hk', hfile⟩
    obtain rfl := Option.some.inj (hk.symm.trans hk')
    exact ⟨hk, hfile⟩
  · rintro ⟨hk, hfile⟩
    exact ⟨⟨hk, by rw [hfile]; exact Option.some_ne_none _⟩, k, hk, hfile⟩

/-- The directory of a file that is found is the one its path goes through last. -/
theorem parent_of_resolve (hfs : Rooted fs) {q k : Path} {ps : List String} {t : String} (hps : ps ≠ [])
    (hk : resolve fs q ps = some k) (hfile : fs k = some (.file t)) : walk q ps.dropLast = k.dropLast := by
  obtain ⟨init, part, rfl⟩ := (List.eq_nil_or_concat' ps).resolve_left hps
  obtain ⟨rfl, hdirs⟩ := resolve_eq_some.mp hk
  have hdir : fs (walk q init) = some .dir :=
    hdirs init ((above_iff hps).mpr (by rw [List.dropLast_concat]))
  rw [List.dropLast_concat, walk_append]
  rw [walk_append] at hfile
  change fs (step (walk q init) part) = _ at hfile
  change _ = (step (walk q init) part).dropLast
  unfold step at hfile ⊢
  split at hfile
  · exact (List.dropLast_concat).symm
  · rw [hfs.dir_below (List.dropLast_prefix _) hdir] at hfile
    cases hfile
  · rw [hdir] at hfile
    cases hfile

/-- An import that is found is a file in the directory it is read from. -/
theorem import_item (hfs : Rooted fs) {file : Path × String} {path : String} {k : Path} {t : String}
    (h : (importGraph parse fs).Leads file path k t) : (importGraph parse fs).item file path k t = (k.dropLast, t) := by
  obtain ⟨hk, hfile⟩ := leads_import_iff.mp h
  exact Prod.ext (parent_of_resolve hfs (parts_ne_nil _) hk hfile) rfl

theorem coherent_import (hfs : Rooted fs) : (importGraph parse fs).Coherent := by
  intro file path k file' path' t hkey hlead
  obtain ⟨-, hfile⟩ := leads_import_iff.mp hlead
  have hk : resolve fs (if isAbsolute path then [] else file.1) (parts path) = some k :=
    (Option.filter_eq_some_iff.mp (okOr_eq_ok.mp hkey)).1
  have hlead' : (importGraph parse fs).Leads file path k t := leads_import_iff.mpr ⟨hk, hfile⟩
  exact ⟨hlead', (import_item hfs hlead').trans (import_item hfs hlead).symm⟩

theorem coherent_closure : (closureGraph parse fs base).Coherent :=
  fun _ _ _ _ _ _ hkey hlead => ⟨⟨hkey, okOr_eq_ok.mpr (okOr_eq_ok.mp hlead.2)⟩, rfl⟩

/-- What climbs from a directory is one. -/
theorem dir_of_climb (hfs : Rooted fs) (hbase : fs base = some .dir) (n : ℕ) :
    fs (walk base (flat (n, []))) = some .dir := by
  refine hfs.dir_below ?_ hbase
  rw [walk_eq, component_flat (fun _ h => absurd h List.not_mem_nil), List.map_nil, List.append_nil]
  exact climb_le base n

/-- Where there is a file the path does not end in a climb. -/
theorem names_of_file (hfs : Rooted fs) (hbase : fs base = some .dir) {t : String}
    (hfile : fs (walk base (flat at')) = some (.file t)) : at'.2 ≠ [] := by
  intro hnil
  have hclimb := dir_of_climb hfs hbase at'.1
  rw [← hnil, hfile] at hclimb
  cases hclimb

theorem resolve_pathText (hfs : Rooted fs) (hbase : fs base = some .dir) (h : Named at') {t : String}
    (hfile : fs (walk base (flat at')) = some (.file t)) :
    resolve fs (if isAbsolute (pathText at') then [] else base) (parts (pathText at')) = some (walk base (flat at')) := by
  have hne := names_of_file hfs hbase hfile
  have hparts := parts_pathText h (flat_ne_nil hne)
  have hdirect := direct_pathText h hne
  have hres := resolve_direct hfs hbase hdirect (by rw [hparts, hfile]; exact Option.some_ne_none _)
  rw [hdirect.1, if_neg Bool.false_ne_true, hres, hparts]

theorem lexicalJoin_eq_some (h : Named at') {dir rel key : String} (hdir : (parts dir).filter (· ≠ "") = flat at') :
    lexicalJoin dir rel = some key ↔
      (isAbsolute rel = false ∧ rel ≠ "") ∧ flat (goTo at' rel) ≠ [] ∧ key = pathText (goTo at' rel) := by
  unfold lexicalJoin
  rw [hdir, foldl_joinStep h]
  dsimp only
  split_ifs with hrel hnil
  · refine iff_of_false id fun hall => ?_
    rcases hrel with habs | hempty
    · rw [hall.1.1] at habs
      cases habs
    · exact hall.1.2 hempty
  · exact iff_of_false id fun hall => hall.2.1 hnil
  · obtain ⟨habs, hempty⟩ := not_or.mp hrel
    constructor
    · intro hkey
      exact ⟨⟨Bool.eq_false_iff.mpr habs, hempty⟩, hnil, (Option.some.inj hkey).symm⟩
    · rintro ⟨-, -, rfl⟩
      rfl

theorem canonicalize_pathText (hfs : Rooted fs) (hbase : fs base = some .dir) (h : Named at') {t : String}
    (hfile : fs (walk base (flat at')) = some (.file t)) :
    canonicalize fs base (pathText at') = some (walk base (flat at')) := by
  rw [canonicalize, resolve_pathText hfs hbase h hfile, Option.filter_some, if_pos]
  rw [hfile]
  rfl

/-- What is collected for an import: the file at the place that its text goes to. -/
theorem leads_closure_iff (hfs : Rooted fs) (hbase : fs base = some .dir) (h : Named at') {file : String × String}
    (hdir : (parts file.1).filter (· ≠ "") = flat at') {path key t : String} :
    (closureGraph parse fs base).Leads file path key t ↔ (isAbsolute path = false ∧ path ≠ "") ∧
      key = pathText (goTo at' path) ∧ fs (walk base (flat (goTo at' path))) = some (.file t) := by
  have hto := h.goTo path
  unfold Graph.Leads closureGraph
  simp only [okOr_eq_ok, lexicalJoin_eq_some h hdir]
  constructor
  · rintro ⟨⟨hrel, hflat, rfl⟩, hread⟩
    obtain ⟨k, hk, hfile⟩ := Option.bind_eq_some_iff.mp hread
    rw [isAbsolute_pathText hto hflat, if_neg Bool.false_ne_true, parts_pathText hto hflat] at hk
    obtain ⟨rfl, -⟩ := resolve_eq_some.mp hk
    exact ⟨hrel, rfl, read_eq_some.mp hfile⟩
  · rintro ⟨hrel, rfl, hfile⟩
    refine ⟨⟨hrel, flat_ne_nil (names_of_file hfs hbase hfile), rfl⟩, Option.bind_eq_some_iff.mpr ?_⟩
    exact ⟨_, resolve_pathText hfs hbase hto hfile, read_eq_some.mpr hfile⟩

variable (parse) in
/-- A file that is there for a path that climbs first is found at it. -/
theorem leads_of_direct (hfs : Rooted fs) {file : Path × String} (hdir : fs file.1 = some .dir) {path t : String}
    (hpath : Direct path) (hfile : fs (walk file.1 (parts path)) = some (.file t)) :
    (importGraph parse fs).Leads file path (walk file.1 (parts path)) t ∧
      (importGraph parse fs).item file path (walk file.1 (parts path)) t = ((walk file.1 (parts path)).dropLast, t) := by
  have hstart : (if isAbsolute path then [] else file.1) = file.1 := by rw [hpath.1, if_neg Bool.false_ne_true]
  have hk := resolve_direct hfs hdir hpath (by rw [hfile]; exact Option.some_ne_none _)
  have hlead : (importGraph parse fs).Leads file path (walk file.1 (parts path)) t :=
    leads_import_iff.mpr ⟨by rw [hstart, hk], hfile⟩
  exact ⟨hlead, import_item hfs hlead⟩

/-! ### Files by their keys -/

/-- A file as it is collected and as it is found in a tree, where `place` has the directory
of its key. -/
structure Alike (fs : Tree) (place : ℕ × List String → Path) (c : String × String) (file : Path × String) : Prop where
  text : file.2 = c.2
  dir : fs file.1 = some .dir
  found : ∃ at', Named at' ∧ (parts c.1).filter (· ≠ "") = flat at' ∧ file.1 = place at'

theorem alike_item (hfs : Rooted fs) {place : ℕ × List String → Path} {q : Path} {t : String} (h : Named at')
    (hne : at'.2 ≠ []) (hfile : fs (q ++ at'.2) = some (.file t)) (hplace : place (at'.1, at'.2.dropLast) = q ++ at'.2.dropLast) :
    Alike fs place (keyDir (pathText at'), t) ((q ++ at'.2).dropLast, t) where
  text := rfl
  dir := hfs.dropLast_of_file hfile fun hnil => hne (List.append_eq_nil_iff.mp hnil).2
  found := ⟨_, h.dropLast, keyDir_pathText h hne, by rw [hplace, List.dropLast_append_of_ne_nil hne]⟩

/-- Where the client has the directory of a key. -/
def fromBase (base : Path) (at' : ℕ × List String) : Path := walk base (flat at')

theorem alike_fromBase (hfs : Rooted fs) (hbase : fs base = some .dir) {t : String} (h : Named at')
    (hfile : fs (walk base (flat at')) = some (.file t)) :
    Alike fs (fromBase base) (keyDir (pathText at'), t) ((walk base (flat at')).dropLast, t) := by
  have hne := names_of_file hfs hbase hfile
  rw [walk_flat h] at hfile ⊢
  exact alike_item hfs h hne hfile (walk_flat h.dropLast base)

/-- What is parsed is collected. -/
theorem closure_of_import (hfs : Rooted fs) (hbase : fs base = some .dir) {c : String × String} {file : Path × String}
    (h : Alike fs (fromBase base) c file) {path t : String} {k : Path} (hrel : isAbsolute path = false)
    (hlead : (importGraph parse fs).Leads file path k t) :
    ∃ key, (closureGraph parse fs base).Leads c path key t ∧ canonicalize fs base key = some k ∧
      Alike fs (fromBase base) ((closureGraph parse fs base).item c path key t) ((importGraph parse fs).item file path k t) := by
  obtain ⟨-, hdir, at', hnamed, hkey, hplace⟩ := h
  obtain ⟨hk, hfile⟩ := leads_import_iff.mp hlead
  have hitem := import_item hfs hlead
  rw [hrel, if_neg Bool.false_ne_true] at hk
  obtain ⟨rfl, -⟩ := resolve_eq_some.mp hk
  have hempty : path ≠ "" := by
    rintro rfl
    have hwalk : walk file.1 (parts "") = file.1 := rfl
    rw [hwalk, hdir] at hfile
    cases hfile
  rw [hitem]
  rw [hplace, fromBase, walk_goTo hnamed] at hfile ⊢
  refine ⟨pathText (goTo at' path), (leads_closure_iff hfs hbase hnamed hkey).mpr ⟨⟨hrel, hempty⟩, rfl, hfile⟩,
    canonicalize_pathText hfs hbase (hnamed.goTo path) hfile, alike_fromBase hfs hbase (hnamed.goTo path) hfile⟩

/-- What is collected is parsed, where paths climb first. -/
theorem import_of_closure (hfs : Rooted fs) (hbase : fs base = some .dir) {c : String × String} {file : Path × String}
    (h : Alike fs (fromBase base) c file) {path key t : String} (hpath : Direct path)
    (hlead : (closureGraph parse fs base).Leads c path key t) :
    ∃ k, (importGraph parse fs).Leads file path k t ∧ canonicalize fs base key = some k ∧
      Alike fs (fromBase base) ((closureGraph parse fs base).item c path key t) ((importGraph parse fs).item file path k t) := by
  obtain ⟨-, hdir, at', hnamed, hkey, hplace⟩ := h
  obtain ⟨-, rfl, hfile⟩ := (leads_closure_iff hfs hbase hnamed hkey).mp hlead
  have hwalk : walk file.1 (parts path) = walk base (flat (goTo at' path)) := by
    rw [hplace, fromBase, walk_goTo hnamed]
  rw [← hwalk] at hfile
  obtain ⟨hleads, hitem⟩ := leads_of_direct parse hfs hdir hpath hfile
  refine ⟨_, hleads, ?_⟩
  rw [hitem]
  rw [hwalk] at hfile ⊢
  exact ⟨canonicalize_pathText hfs hbase (hnamed.goTo path) hfile, alike_fromBase hfs hbase (hnamed.goTo path) hfile⟩

theorem parts_start : (parts "").filter (· ≠ "") = flat (0, []) := by decide

theorem alike_start (hbase : fs base = some .dir) (text : String) : Alike fs (fromBase base) ("", text) (base, text) :=
  ⟨rfl, hbase, (0, []), named_start, parts_start, rfl⟩

theorem Alike.refs {place : ℕ × List String → Path} {c : String × String} {file : Path × String} {fs' : Tree}
    (h : Alike fs' place c file) : (closureGraph parse fs base).refs c = (importGraph parse fs').refs file :=
  congrArg (fun t => (parse t).mapError ImportError.parse) h.text.symm

theorem Alike.refers {place : ℕ × List String → Path} {c : String × String} {file : Path × String} {fs' : Tree}
    (h : Alike fs' place c file) {path : String} :
    (closureGraph parse fs base).Refers c path ↔ (importGraph parse fs').Refers file path := by
  unfold Graph.Refers
  rw [h.refs]

/-! ### A lab of three files -/

def sampleMain : String := "import \"lib/site.nll\" as s\nimport \"../common.nll\" as c\nlab \"main\"\n"

def sampleSite : String := "import \"../../common.nll\" as c\nlab \"site\"\n"

def sampleCommon : String := "lab \"common\"\n"

/-- What the parser finds in them. -/
def sampleParse (text : String) : Except String (List String) :=
  if text = sampleMain then .ok ["lib/site.nll", "../common.nll"]
  else if text = sampleSite then .ok ["../../common.nll"]
  else .ok []

def sampleDisk : Tree := ofEntries [([], .dir), (["u"], .dir), (["u", "labs"], .dir), (["u", "labs", "lib"], .dir),
  (["u", "labs", "main.nll"], .file sampleMain), (["u", "labs", "lib", "site.nll"], .file sampleSite),
  (["u", "common.nll"], .file sampleCommon)]

def sampleImports : BTreeMap String String := {("lib/site.nll", sampleSite), ("../common.nll", sampleCommon)}

theorem rooted_sampleDisk : Rooted sampleDisk := rooted_ofEntries (by decide)

theorem sampleDisk_labs : sampleDisk ["u", "labs"] = some .dir := by decide

theorem direct_sampleParse {file : Path × String} {path : String}
    (h : (importGraph sampleParse fs).Refers file path) : Direct path := by
  have hall : ∀ path ∈ ["lib/site.nll", "../common.nll", "../../common.nll"], Direct path := by
    simp only [List.forall_mem_cons, List.not_mem_nil, false_imp_iff, implies_true, and_true]
    exact ⟨⟨by decide, 0, ["lib"], ["lib"], "site.nll", by decide, ⟨by decide, by decide, by decide⟩, by decide⟩,
      ⟨by decide, 1, [], [".."], "common.nll", by decide, ⟨by decide, by decide, by decide⟩, by decide⟩,
      ⟨by decide, 2, [], ["..", ".."], "common.nll", by decide, ⟨by decide, by decide, by decide⟩, by decide⟩⟩
  obtain ⟨rs, hrs, hpath⟩ := h
  have hrs := mapError_eq_ok.mp hrs
  unfold sampleParse at hrs
  split_ifs at hrs <;> obtain rfl := Except.ok.inj hrs
  · exact hall path (List.mem_append_left ["../../common.nll"] hpath)
  · exact hall path (List.mem_append_right ["lib/site.nll", "../common.nll"] hpath)
  · exact absurd hpath List.not_mem_nil

theorem importClosureOf_sample :
    importClosureOf sampleParse sampleDisk 4 ["u", "labs"] sampleMain = .ok sampleImports := by
  have hsome : (importClosureOf sampleParse sampleDisk 4 ["u", "labs"] sampleMain).toOption = some sampleImports := by
    decide +kernel
  cases h : importClosureOf sampleParse sampleDisk 4 ["u", "labs"] sampleMain with
  | error e =>
    rw [h] at hsome
    cases hsome
  | ok out =>
    rw [h] at hsome
    exact congrArg _ (Option.some.inj hsome)

/-! ### The files collected -/

section Collected

variable {fuel : ℕ} {text : String} {out : BTreeMap String String}

theorem named_item (h : Named at') (hne : at'.2 ≠ []) (t : String) :
    ∃ to', Named to' ∧ (parts (keyDir (pathText at'), t).1).filter (· ≠ "") = flat to' :=
  ⟨_, h.dropLast, keyDir_pathText h hne⟩

/-- What is collected is in a directory that a path goes to. -/
theorem named_of_reaches (hfs : Rooted fs) (hbase : fs base = some .dir) {c : String × String}
    (hc : (closureGraph parse fs base).Reaches ("", text) c) :
    ∃ at', Named at' ∧ (parts c.1).filter (· ≠ "") = flat at' := by
  induction hc with
  | refl => exact ⟨(0, []), named_start, parts_start⟩
  | tail _ hedge ih =>
    obtain ⟨path, key, t, -, hlead, rfl⟩ := hedge
    obtain ⟨at', hnamed, hdir⟩ := ih
    obtain ⟨-, rfl, hfile⟩ := (leads_closure_iff hfs hbase hnamed hdir).mp hlead
    exact named_item (hnamed.goTo path) (names_of_file hfs hbase hfile) t

/-- Every key is the text of a path that goes to a file. -/
theorem key_of_closure (hfs : Rooted fs) (hbase : fs base = some .dir)
    (hout : importClosureOf parse fs fuel base text = .ok out) {key t : String} (hkey : out[key]? = some t) :
    ∃ at', Named at' ∧ at'.2 ≠ [] ∧ key = pathText at' := by
  obtain ⟨c, path, hc, -, hlead⟩ := ((Graph.close_collects coherent_closure hout).1 key t).mp hkey
  obtain ⟨at', hnamed, hdir⟩ := named_of_reaches hfs hbase hc
  obtain ⟨-, rfl, hfile⟩ := (leads_closure_iff hfs hbase hnamed hdir).mp hlead
  exact ⟨_, hnamed.goTo path, names_of_file hfs hbase hfile, rfl⟩

theorem parsed_of_collected (hfs : Rooted fs) (hbase : fs base = some .dir)
    (hdirect : ∀ file path, (importGraph parse fs).Reaches (base, text) file → (importGraph parse fs).Refers file path →
      Direct path) {c : String × String} (hc : (closureGraph parse fs base).Reaches ("", text) c) :
    ∃ file, (importGraph parse fs).Reaches (base, text) file ∧ Alike fs (fromBase base) c file := by
  induction hc with
  | refl => exact ⟨_, .refl, alike_start hbase text⟩
  | tail _ hedge ih =>
    obtain ⟨path, key, t, hr, hlead, rfl⟩ := hedge
    obtain ⟨file, hfile, halike⟩ := ih
    have hr := halike.refers.mp hr
    obtain ⟨k, hlead', -, halike'⟩ := import_of_closure hfs hbase halike (hdirect _ _ hfile hr) hlead
    exact ⟨_, hfile.tail ⟨path, k, t, hr, hlead', rfl⟩, halike'⟩

theorem collected_of_parsed (hfs : Rooted fs) (hbase : fs base = some .dir)
    (hrel : ∀ file path, (importGraph parse fs).Reaches (base, text) file → (importGraph parse fs).Refers file path →
      isAbsolute path = false) {file : Path × String} (hfile : (importGraph parse fs).Reaches (base, text) file) :
    ∃ c, (closureGraph parse fs base).Reaches ("", text) c ∧ Alike fs (fromBase base) c file := by
  induction hfile with
  | refl => exact ⟨_, .refl, alike_start hbase text⟩
  | tail hfile hedge ih =>
    obtain ⟨path, k, t, hr, hlead, rfl⟩ := hedge
    obtain ⟨c, hc, halike⟩ := ih
    obtain ⟨key, hlead', -, halike'⟩ := closure_of_import hfs hbase halike (hrel _ _ hfile hr) hlead
    exact ⟨_, hc.tail ⟨path, key, t, halike.refers.mpr hr, hlead', rfl⟩, halike'⟩

/-- The files collected are those that are parsed, where paths climb first. -/
theorem importClosureOf_exact (hfs : Rooted fs) (hbase : fs base = some .dir)
    (hdirect : ∀ file path, (importGraph parse fs).Reaches (base, text) file → (importGraph parse fs).Refers file path →
      Direct path) (hout : importClosureOf parse fs fuel base text = .ok out) (k : Path) (t : String) :
    (∃ key, out[key]? = some t ∧ canonicalize fs base key = some k) ↔
      ∃ file path, (importGraph parse fs).Reaches (base, text) file ∧ (importGraph parse fs).Refers file path ∧
        (importGraph parse fs).Leads file path k t := by
  have hloaded := (Graph.close_collects coherent_closure hout).1
  constructor
  · rintro ⟨key, hkey, hk⟩
    obtain ⟨c, path, hc, hr, hlead⟩ := (hloaded key t).mp hkey
    obtain ⟨file, hfile, halike⟩ := parsed_of_collected hfs hbase hdirect hc
    have hr := halike.refers.mp hr
    obtain ⟨k', hlead', hk', -⟩ := import_of_closure hfs hbase halike (hdirect _ _ hfile hr) hlead
    obtain rfl := Option.some.inj (hk.symm.trans hk')
    exact ⟨file, path, hfile, hr, hlead'⟩
  · rintro ⟨file, path, hfile, hr, hlead⟩
    obtain ⟨c, hc, halike⟩ := collected_of_parsed hfs hbase (fun _ _ hi hr => (hdirect _ _ hi hr).1) hfile
    obtain ⟨key, hlead', hk, -⟩ := closure_of_import hfs hbase halike (hdirect _ _ hfile hr).1 hlead
    exact ⟨key, (hloaded key t).mpr ⟨c, path, hc, halike.refers.mpr hr, hlead'⟩, hk⟩

theorem importClosureOf_exact_sample :
    (∃ key, sampleImports[key]? = some sampleCommon ∧ canonicalize sampleDisk ["u", "labs"] key = some ["u", "common.nll"]) ↔
      ∃ file path, (importGraph sampleParse sampleDisk).Reaches (["u", "labs"], sampleMain) file ∧
        (importGraph sampleParse sampleDisk).Refers file path ∧
          (importGraph sampleParse sampleDisk).Leads file path ["u", "common.nll"] sampleCommon :=
  importClosureOf_exact rooted_sampleDisk sampleDisk_labs (fun _ _ _ h => direct_sampleParse h) importClosureOf_sample _ _

/-- The tree of the imports is read where there is one. -/
theorem resolveImports_iff (hfs : Rooted fs) (hbase : fs base = some .dir) {srcs : List (Source String String)} :
    (∃ n, resolveImports parse fs n base text = .ok srcs) ↔ (importGraph parse fs).Unfolds (base, text) srcs := by
  refine Graph.unfold_eq_ok (coherent_import hfs) fun v hv file path t hlead => ?_
  obtain ⟨-, hfile⟩ := leads_import_iff.mp hlead
  rw [List.mem_singleton.mp hv, hbase] at hfile
  cases hfile

theorem finite_reaches (hfs : Rooted fs) (hfiles : {q | fs q ≠ none}.Finite) (start : Path × String) :
    {file | (importGraph parse fs).Reaches start file}.Finite := by
  refine ((hfiles.image fun q => (q.dropLast, (read fs q).getD "")).insert start).subset fun file hfile => ?_
  rcases Relation.ReflTransGen.cases_tail hfile with rfl | ⟨mid, -, hedge⟩
  · exact Set.mem_insert _ _
  · obtain ⟨path, k, t, -, hlead, rfl⟩ := hedge
    have hk : fs k = some (.file t) := (leads_import_iff.mp hlead).2
    have hne : fs k ≠ none := by rw [hk]; exact Option.some_ne_none _
    refine Set.mem_insert_of_mem _ ⟨k, hne, ?_⟩
    rw [import_item hfs hlead]
    dsimp only
    rw [read_eq_some.mpr hk]
    rfl

/-- The imports of an entry are read just when all the files that are reached are parsed and
their imports found, and none of them imports itself, be it through others. -/
theorem resolveImports_succeeds_iff (hfs : Rooted fs) (hbase : fs base = some .dir) (hfiles : {q | fs q ≠ none}.Finite) :
    (∃ n srcs, resolveImports parse fs n base text = .ok srcs) ↔
      ∀ file, (importGraph parse fs).Reaches (base, text) file →
        (importGraph parse fs).Whole file ∧ ¬Relation.TransGen (importGraph parse fs).Edge file file := by
  rw [← Graph.exists_unfolds_iff (finite_reaches hfs hfiles _), exists_comm]
  exact exists_congr fun srcs => resolveImports_iff hfs hbase

theorem resolveImports_succeeds_iff_sample :
    (∃ n srcs, resolveImports sampleParse sampleDisk n ["u", "labs"] sampleMain = .ok srcs) ↔
      ∀ file, (importGraph sampleParse sampleDisk).Reaches (["u", "labs"], sampleMain) file →
        (importGraph sampleParse sampleDisk).Whole file ∧
          ¬Relation.TransGen (importGraph sampleParse sampleDisk).Edge file file :=
  resolveImports_succeeds_iff rooted_sampleDisk sampleDisk_labs (finite_ofEntries _)

/-- Reading the imports ends, in one result for all that is enough: a file that imports
itself is refused. -/
theorem resolveImports_ends (hfiles : {q | fs q ≠ none}.Finite) (base : Path) (text : String) :
    ∃ n result, result ≠ .error none ∧ ∀ m, n ≤ m → resolveImports parse fs m base text = result := by
  refine Graph.exists_unfold hfiles.toFinset (fun file path k t hlead => ?_) [base] (base, text)
  obtain ⟨-, hfile⟩ := leads_import_iff.mp hlead
  have hne : fs k ≠ none := by rw [hfile]; exact Option.some_ne_none _
  exact hfiles.mem_toFinset.mpr hne

/-- The parser where the sample's two labs import each other. -/
def circularParse (text : String) : Except String (List String) :=
  if text = sampleMain then .ok ["lib/site.nll"] else .ok ["../main.nll"]

theorem resolveImports_ends_circular :
    resolveImports circularParse sampleDisk 8 ["u", "labs"] sampleMain = .error (some (.circular "lib/site.nll")) ∧
      ∃ n result, result ≠ .error none ∧
        ∀ m, n ≤ m → resolveImports circularParse sampleDisk m ["u", "labs"] sampleMain = result :=
  ⟨rfl, resolveImports_ends (finite_ofEntries _) _ _⟩

/-- Where a file is parsed its imports are collected, and each key can be staged. -/
theorem exists_importClosureOf (hfs : Rooted fs) (hbase : fs base = some .dir)
    (hrel : ∀ file path, (importGraph parse fs).Reaches (base, text) file → (importGraph parse fs).Refers file path →
      isAbsolute path = false) {n : ℕ} {srcs : List (Source String String)}
    (h : resolveImports parse fs n base text = .ok srcs) :
    ∃ fuel out, importClosureOf parse fs fuel base text = .ok out ∧
      ∀ key t, out[key]? = some t → ∃ at', Staging.normalize key = .ok at' := by
  have hunfolds := (resolveImports_iff hfs hbase).mp ⟨n, h⟩
  have hcollected : (closureGraph parse fs base).Unfolds ("", text) srcs := by
    refine hunfolds.map (fun file c => (importGraph parse fs).Reaches (base, text) file ∧
      Alike fs (fromBase base) c file) ?_ ?_ ⟨.refl, alike_start hbase text⟩
    · rintro file c rs ⟨-, halike⟩ hrs
      exact halike.refs.trans hrs
    · rintro file c path k t ⟨hfile, halike⟩ hr hlead
      obtain ⟨key, hlead', -, halike'⟩ := closure_of_import hfs hbase halike (hrel _ _ hfile hr) hlead
      exact ⟨key, hlead', hfile.tail ⟨path, k, t, hr, hlead, rfl⟩, halike'⟩
  obtain ⟨fuel, out, hout⟩ := Graph.exists_close hcollected
  refine ⟨fuel, out, hout, fun key t hkey => ?_⟩
  obtain ⟨at', hnamed, hne, rfl⟩ := key_of_closure hfs hbase hout hkey
  exact ⟨at', normalize_pathText hnamed hne⟩

theorem exists_importClosureOf_sample : ∃ fuel out,
    importClosureOf sampleParse sampleDisk fuel ["u", "labs"] sampleMain = .ok out ∧
      ∀ key t, out[key]? = some t → ∃ at', Staging.normalize key = .ok at' := by
  have hok : (resolveImports sampleParse sampleDisk 4 ["u", "labs"] sampleMain).isOk = true := by decide +kernel
  cases h : resolveImports sampleParse sampleDisk 4 ["u", "labs"] sampleMain with
  | error e =>
    rw [h] at hok
    cases hok
  | ok srcs =>
    exact exists_importClosureOf rooted_sampleDisk sampleDisk_labs (fun _ _ _ hr => (direct_sampleParse hr).1) h

end Collected

/-! ### The files staged -/

section Staged

variable {refuses : Tree → Path → Bool} {bundle : SourceBundle} {dir entry : Path} {fs₀ fs' : Tree} {fuel : ℕ}

theorem rooted_staged (h₀ : Rooted fs₀) (hstage : stageSource refuses bundle dir fs₀ = .ok (entry, fs')) : Rooted fs' := by
  obtain ⟨hkeeps, -, habove, hother⟩ := stageSource_tree hstage
  intro q name hne
  by_cases hp : ∃ up rest text, IsFile bundle up rest text ∧ q ++ [name] <+: site dir bundle.depth up rest
  · obtain ⟨up, rest, text, hfile, hpre⟩ := hp
    refine habove up rest text hfile q ⟨(List.prefix_append _ _).trans hpre, fun heq => ?_⟩
    have hle := hpre.length_le
    rw [← heq, List.length_append, List.length_singleton] at hle
    omega
  · have hsame := hother (q ++ [name]) fun up rest text hfile hpre => hp ⟨up, rest, text, hfile, hpre⟩
    rw [hsame] at hne
    exact (hkeeps q).1 (h₀ q name hne)

theorem staged_file (hstage : stageSource refuses bundle dir fs₀ = .ok (entry, fs')) (hapart : Apart bundle) {up : ℕ}
    {rest : List String} {t : String} (hfile : IsFile bundle up rest t) :
    fs' (site dir bundle.depth up rest) = some (.file t) := by
  obtain ⟨-, hsites, -, -⟩ := stageSource_tree hstage
  obtain ⟨up', rest', t', hfile', htogether, hat⟩ := hsites up rest t hfile
  rw [hapart hfile hfile' htogether, hat]

/-- A file of a bundle whose keys go through no level, by its key. -/
theorem key_of_isFile (hkeys : ∀ key t, bundle.imports[key]? = some t → ∃ at', Named at' ∧ at'.2 ≠ [] ∧ key = pathText at')
    (hlevel : ∀ key t, bundle.imports[key]? = some t → "_" ∉ parts key) {up : ℕ} {rest : List String} {t : String}
    (hfile : IsFile bundle up rest t) : (up = 0 ∧ rest = [entryName bundle] ∧ t = bundle.text) ∨
      "_" ∉ rest ∧ bundle.imports[pathText (up, rest)]? = some t := by
  cases hfile with
  | entry => exact .inl ⟨rfl, rfl, rfl⟩
  | @imported rel _ _ _ himport hrel =>
    obtain ⟨at', hnamed, hne, rfl⟩ := hkeys _ _ himport
    obtain rfl := Except.ok.inj ((normalize_pathText hnamed hne).symm.trans hrel)
    have hnot := hlevel _ _ himport
    rw [parts_pathText hnamed (flat_ne_nil hne), flat, List.mem_append, not_or] at hnot
    exact .inr ⟨hnot.2, himport⟩

/-- What is staged at the place of another file climbs no further when it goes through no level. -/
theorem up_le_of_together {up up' : ℕ} {rest rest' : List String} (h : Together up rest up' rest')
    (hnot : up' = 0 ∨ "_" ∉ rest') : up' ≤ up := by
  by_contra hlt
  obtain ⟨n, hn⟩ : ∃ n, up' - up = n + 1 := ⟨up' - up - 1, by omega⟩
  have hzero : up - up' = 0 := by omega
  rw [Together, hn, hzero, List.replicate_succ, List.cons_append, List.replicate_zero, List.nil_append] at h
  rcases hnot with rfl | hnot
  · omega
  · exact hnot (h ▸ List.mem_cons_self)

/-- Files are apart when no key goes through a level, and the entry is imported as it is. -/
theorem apart_of_keys (hkeys : ∀ key t, bundle.imports[key]? = some t → ∃ at', Named at' ∧ at'.2 ≠ [] ∧ key = pathText at')
    (hlevel : ∀ key t, bundle.imports[key]? = some t → "_" ∉ parts key)
    (hself : ∀ t, bundle.imports[entryName bundle]? = some t → t = bundle.text) : Apart bundle := by
  intro up rest t up' rest' t' hfile hfile' htogether
  have hkey := key_of_isFile hkeys hlevel hfile
  have hkey' := key_of_isFile hkeys hlevel hfile'
  obtain rfl : up = up' := Nat.le_antisymm (up_le_of_together htogether.symm (hkey.imp And.left And.left))
    (up_le_of_together htogether (hkey'.imp And.left And.left))
  have hrest : rest = rest' := by
    rwa [Together, Nat.sub_self, List.replicate_zero, List.nil_append, List.nil_append] at htogether
  subst hrest
  have hentry : pathText (0, [entryName bundle]) = entryName bundle := String.intercalate_singleton
  rcases hkey with ⟨hzero, hname, htext⟩ | ⟨-, himport⟩
  · rcases hkey' with ⟨-, -, htext'⟩ | ⟨-, himport'⟩
    · rw [htext, htext']
    · rw [hzero, hname, hentry] at himport'
      rw [htext, hself _ himport']
  · rcases hkey' with ⟨hzero, hname, htext'⟩ | ⟨-, himport'⟩
    · rw [hzero, hname, hentry] at himport
      rw [htext', hself _ himport]
    · exact Option.some.inj (himport.symm.trans himport')

/-- What is collected and staged is parsed there, where paths climb first. -/
theorem import_of_staged (hfs : Rooted fs) (hbase : fs base = some .dir) (h₀ : Rooted fs₀)
    (hstage : stageSource refuses bundle dir fs₀ = .ok (entry, fs')) (hapart : Apart bundle) {c : String × String}
    {file : Path × String} (h : Alike fs' (fun at' => site dir bundle.depth at'.1 at'.2) c file) {path key t : String}
    (hpath : Direct path) (hlead : (closureGraph parse fs base).Leads c path key t)
    (himport : bundle.imports[key]? = some t) :
    ∃ k, (importGraph parse fs').Leads file path k t ∧ Alike fs' (fun at' => site dir bundle.depth at'.1 at'.2)
      ((closureGraph parse fs base).item c path key t) ((importGraph parse fs').item file path k t) := by
  have hfs' := rooted_staged h₀ hstage
  obtain ⟨-, hdir, at', hnamed, hkey, hplace⟩ := h
  obtain ⟨-, rfl, hsource⟩ := (leads_closure_iff hfs hbase hnamed hkey).mp hlead
  have hne := names_of_file hfs hbase hsource
  have hfile : IsFile bundle (goTo at' path).1 (goTo at' path).2 t :=
    .imported himport (normalize_pathText (hnamed.goTo path) hne)
  have hwalk : walk file.1 (parts path) = site dir bundle.depth (goTo at' path).1 (goTo at' path).2 := by
    rw [hplace]
    exact walk_site dir bundle.depth (parts path) at'.1 at'.2 hfile.up_le
  have hstaged := staged_file hstage hapart hfile
  obtain ⟨hleads, hitem⟩ := leads_of_direct parse hfs' hdir hpath (hwalk.symm ▸ hstaged)
  refine ⟨_, hleads, ?_⟩
  rw [hitem, hwalk, site, ← List.append_assoc]
  rw [site, ← List.append_assoc] at hstaged
  exact alike_item hfs' (hnamed.goTo path) hne hstaged (List.append_assoc _ _ _).symm

/-- A file of the client's and its copy, by the key of both. -/
structure Copied (parse : String → Except String (List String)) (fs : Tree) (base : Path) (fs' : Tree) (dir : Path)
    (bundle : SourceBundle) (file staged : Path × String) : Prop where
  reached : (importGraph parse fs).Reaches (base, bundle.text) file
  keyed : ∃ c, (closureGraph parse fs base).Reaches ("", bundle.text) c ∧ Alike fs (fromBase base) c file ∧
    Alike fs' (fun at' => site dir bundle.depth at'.1 at'.2) c staged

theorem Copied.refs {file staged : Path × String} (h : Copied parse fs base fs' dir bundle file staged) :
    (importGraph parse fs).refs file = (importGraph parse fs').refs staged := by
  obtain ⟨c, -, halike, halike'⟩ := h.keyed
  have hrefs : (closureGraph parse fs base).refs c = (importGraph parse fs).refs file := halike.refs
  exact hrefs.symm.trans halike'.refs

/-- An import of a file and of its copy leads to one text, and to a file and its copy. -/
theorem Copied.leads (hfs : Rooted fs) (hbase : fs base = some .dir) (h₀ : Rooted fs₀)
    (hdirect : ∀ file path, (importGraph parse fs).Reaches (base, bundle.text) file →
      (importGraph parse fs).Refers file path → Direct path)
    (hout : importClosureOf parse fs fuel base bundle.text = .ok bundle.imports) (hapart : Apart bundle)
    (hstage : stageSource refuses bundle dir fs₀ = .ok (entry, fs')) {file staged : Path × String}
    (h : Copied parse fs base fs' dir bundle file staged) {path : String} (hr : (importGraph parse fs).Refers file path) :
    ∃ k k' t, (importGraph parse fs).Leads file path k t ∧ (importGraph parse fs').Leads staged path k' t ∧
      Copied parse fs base fs' dir bundle ((importGraph parse fs).item file path k t)
        ((importGraph parse fs').item staged path k' t) := by
  obtain ⟨c, hc, halike, halike'⟩ := h.keyed
  obtain ⟨rs, hrs, hall⟩ := (Graph.close_collects coherent_closure hout).2 c hc
  obtain ⟨rs', hrs', hpath⟩ := halike.refers.mpr hr
  obtain rfl := Except.ok.inj (hrs.symm.trans hrs')
  obtain ⟨key, t, hlead, himport⟩ := hall path hpath
  have hdirect := hdirect file path h.reached hr
  obtain ⟨k, hlead', -, hitem⟩ := import_of_closure hfs hbase halike hdirect hlead
  obtain ⟨k', hlead'', hitem'⟩ := import_of_staged hfs hbase h₀ hstage hapart halike' hdirect hlead himport
  exact ⟨k, k', t, hlead', hlead'', h.reached.tail ⟨path, k, t, hr, hlead', rfl⟩, _,
    hc.tail ⟨path, key, t, ⟨rs, hrs, hpath⟩, hlead, rfl⟩, hitem, hitem'⟩

/-- What the daemon parses from a bundle that was collected is what the client parses, where
paths climb first, none goes through a level of the staging and the entry is no import of its
own with another text. -/
theorem resolveImports_staged (hfs : Rooted fs) (hbase : fs base = some .dir) (h₀ : Rooted fs₀)
    (hdirect : ∀ file path, (importGraph parse fs).Reaches (base, bundle.text) file →
      (importGraph parse fs).Refers file path → Direct path)
    (hout : importClosureOf parse fs fuel base bundle.text = .ok bundle.imports)
    (hlevel : ∀ key t, bundle.imports[key]? = some t → "_" ∉ parts key)
    (hself : ∀ t, bundle.imports[entryName bundle]? = some t → t = bundle.text)
    (hstage : stageSource refuses bundle dir fs₀ = .ok (entry, fs')) :
    read fs' entry = some bundle.text ∧ ∀ srcs,
      (∃ n, resolveImports parse fs' n entry.dropLast bundle.text = .ok srcs) ↔
        ∃ n, resolveImports parse fs n base bundle.text = .ok srcs := by
  have hapart : Apart bundle := apart_of_keys (fun _ _ hkey => key_of_closure hfs hbase hout hkey) hlevel hself
  have hfs' := rooted_staged h₀ hstage
  obtain ⟨rfl, -⟩ := stageSource_eq_ok hstage
  have hentry := staged_file hstage hapart .entry
  have hstart : (site dir bundle.depth 0 [entryName bundle]).dropLast = site dir bundle.depth 0 [] := by
    rw [site, site, ← List.append_assoc, List.dropLast_concat, List.append_nil]
  have hdir : fs' (site dir bundle.depth 0 []) = some .dir := by
    rw [← hstart]
    refine hfs'.dropLast_of_file hentry fun hnil => ?_
    rw [site, ← List.append_assoc] at hnil
    exact List.concat_ne_nil _ _ hnil
  refine ⟨read_eq_some.mpr hentry, fun srcs => ?_⟩
  rw [hstart, resolveImports_iff hfs' hdir, resolveImports_iff hfs hbase]
  have hstarts : Copied parse fs base fs' dir bundle (base, bundle.text) (site dir bundle.depth 0 [], bundle.text) :=
    ⟨.refl, _, .refl, alike_start hbase _, rfl, hdir, (0, []), named_start, parts_start, rfl⟩
  constructor
  · intro h
    refine h.map (fun staged file => Copied parse fs base fs' dir bundle file staged) ?_ ?_ hstarts
    · intro staged file rs hcopied hrs
      exact hcopied.refs.trans hrs
    · rintro staged file path k' t hcopied ⟨rs, hrs, hpath⟩ hlead
      obtain ⟨k, k₂, t₂, hlead₁, hlead₂, hitems⟩ :=
        hcopied.leads hfs hbase h₀ hdirect hout hapart hstage ⟨rs, hcopied.refs.trans hrs, hpath⟩
      obtain ⟨rfl, rfl⟩ := hlead.unique hlead₂
      exact ⟨k, hlead₁, hitems⟩
  · intro h
    refine h.map (Copied parse fs base fs' dir bundle) ?_ ?_ hstarts
    · intro file staged rs hcopied hrs
      exact hcopied.refs.symm.trans hrs
    · intro file staged path k t hcopied hr hlead
      obtain ⟨k₁, k', t₁, hlead₁, hlead₂, hitems⟩ := hcopied.leads hfs hbase h₀ hdirect hout hapart hstage hr
      obtain ⟨rfl, rfl⟩ := hlead.unique hlead₁
      exact ⟨k', hlead₂, hitems⟩

/-- The three files, collected. -/
def sampleBundle : SourceBundle :=
  { path := "/u/labs/main.nll", text := sampleMain, imports := sampleImports, params := [] }

theorem resolveImports_staged_sample : ∃ entry fs',
    stageSource (fun _ _ => false) sampleBundle ["staging"] (ofEntries [([], .dir), (["staging"], .dir)]) = .ok (entry, fs') ∧
      read fs' entry = some sampleMain ∧ ∀ srcs, (∃ n, resolveImports sampleParse fs' n entry.dropLast sampleMain = .ok srcs) ↔
        ∃ n, resolveImports sampleParse sampleDisk n ["u", "labs"] sampleMain = .ok srcs := by
  have hok : (stageSource (fun _ _ => false) sampleBundle ["staging"]
      (ofEntries [([], .dir), (["staging"], .dir)])).isOk = true := by decide +kernel
  have hlevel : ∀ e ∈ sampleImports.toList, "_" ∉ parts e.1 := by decide +kernel
  have hself : sampleImports["main.nll"]? = none := by decide +kernel
  have hname : entryName sampleBundle = "main.nll" := by decide +kernel
  have hdirect : ∀ file path, (importGraph sampleParse sampleDisk).Reaches (["u", "labs"], sampleBundle.text) file →
      (importGraph sampleParse sampleDisk).Refers file path → Direct path := fun _ _ _ hr => direct_sampleParse hr
  have hout : importClosureOf sampleParse sampleDisk 4 ["u", "labs"] sampleBundle.text = .ok sampleBundle.imports :=
    importClosureOf_sample
  cases h : stageSource (fun _ _ => false) sampleBundle ["staging"] (ofEntries [([], .dir), (["staging"], .dir)]) with
  | error e =>
    rw [h] at hok
    cases hok
  | ok r =>
    refine ⟨r.1, r.2, rfl, resolveImports_staged rooted_sampleDisk sampleDisk_labs (rooted_ofEntries (by decide)) hdirect hout
      (fun key t hkey => ?_) (fun t ht => ?_) h⟩
    · exact hlevel (key, t) (Std.ExtTreeMap.mem_toList_iff_getElem?_eq_some.mpr hkey)
    · rw [hname] at ht
      exact (Option.some_ne_none _ (ht.symm.trans hself)).elim

end Staged

end NlinkLab.Imports
