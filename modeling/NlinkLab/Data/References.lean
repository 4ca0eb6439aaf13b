import NlinkLab.Data.BTreeMap
import NlinkLab.Data.Fallible

/-! Items that refer to others: a reference of an item gives a key, and the text at a key is
an item in its turn. They are read in two ways. `close` collects the texts by their keys,
from a list of the items still to be read (`close_collects`); `unfold` reads what a reference
leads to where it stands, to a tree, and refuses a key that is still being read
(`unfold_eq_ok`). There is a tree when nothing that is reached comes back to itself
(`exists_unfolds_iff`); where it is finite the list ends as well (`exists_close`), and where
the keys are finitely many reading the tree ends in any case (`exists_unfold`). -/

namespace NlinkLab.References

open Fallible

variable {I R K T E : Type}

/-- What an item refers to, the key that a reference gives, the text there, and the item
that the text is. -/
structure Graph (I R K T E : Type) where
  refs : I → Except E (List R)
  key : I → R → Except E K
  load : I → R → K → Except E T
  item : I → R → K → T → I

/-- What a reference leads to, and what the text there refers to in its turn. -/
inductive Source (R T : Type) where
  | mk (ref : R) (text : T) (sources : List (Source R T))

namespace Graph

variable (G : Graph I R K T E)

def Refers (i : I) (r : R) : Prop := ∃ rs, G.refs i = .ok rs ∧ r ∈ rs

def Leads (i : I) (r : R) (k : K) (t : T) : Prop := G.key i r = .ok k ∧ G.load i r k = .ok t

/-- What is at a key is the same, by whatever reference it is read. -/
def Coherent : Prop :=
  ∀ ⦃i r k i' r' t⦄, G.key i r = .ok k → G.Leads i' r' k t → G.Leads i r k t ∧ G.item i r k t = G.item i' r' k t

/-- From an item to one it refers to. -/
def Edge (i j : I) : Prop := ∃ r k t, G.Refers i r ∧ G.Leads i r k t ∧ j = G.item i r k t

def Reaches : I → I → Prop := Relation.ReflTransGen G.Edge

/-- The trees of some references of an item. -/
inductive Each : I → List R → List (Source R T) → Prop
  | nil {i : I} : Each i [] []
  | cons {i : I} {r : R} {k : K} {t : T} {rs rs' : List R} {sources srcs : List (Source R T)} :
      G.Leads i r k t → G.refs (G.item i r k t) = .ok rs' → Each (G.item i r k t) rs' sources → Each i rs srcs →
        Each i (r :: rs) (⟨r, t, sources⟩ :: srcs)

/-- The trees of an item's references. -/
def Unfolds (i : I) (srcs : List (Source R T)) : Prop := ∃ rs, G.refs i = .ok rs ∧ Each G i rs srcs

variable {G}

theorem Leads.unique {i : I} {r : R} {k k' : K} {t t' : T} (h : G.Leads i r k t) (h' : G.Leads i r k' t') :
    k = k' ∧ t = t' := by
  obtain rfl := Except.ok.inj (h.1.symm.trans h'.1)
  exact ⟨rfl, Except.ok.inj (h.2.symm.trans h'.2)⟩

theorem Each.unique {i : I} {rs : List R} {srcs srcs' : List (Source R T)} (h : Each G i rs srcs)
    (h' : Each G i rs srcs') : srcs = srcs' := by
  induction h generalizing srcs' with
  | nil =>
    cases h'
    rfl
  | cons hlead hrefs _ _ ihsub ihrest =>
    cases h' with
    | cons hlead' hrefs' hsub' hrest' =>
      obtain ⟨rfl, rfl⟩ := hlead.unique hlead'
      obtain rfl := Except.ok.inj (hrefs.symm.trans hrefs')
      rw [ihsub hsub', ihrest hrest']

theorem Unfolds.unique {i : I} {srcs srcs' : List (Source R T)} (h : G.Unfolds i srcs) (h' : G.Unfolds i srcs') :
    srcs = srcs' := by
  obtain ⟨rs, hrefs, heach⟩ := h
  obtain ⟨rs', hrefs', heach'⟩ := h'
  obtain rfl := Except.ok.inj (hrefs.symm.trans hrefs')
  exact heach.unique heach'

/-- Items whose references lead to the same texts, and to items alike again, have the same trees. -/
theorem Unfolds.map {I' K' E' : Type} {G' : Graph I' R K' T E'} (Alike : I → I' → Prop)
    (hrefs : ∀ {i i' rs}, Alike i i' → G.refs i = .ok rs → G'.refs i' = .ok rs)
    (hleads : ∀ {i i' r k t}, Alike i i' → G.Refers i r → G.Leads i r k t →
      ∃ k', G'.Leads i' r k' t ∧ Alike (G.item i r k t) (G'.item i' r k' t))
    {i : I} {i' : I'} {srcs : List (Source R T)} (h : G.Unfolds i srcs) (hi : Alike i i') : G'.Unfolds i' srcs := by
  obtain ⟨rs, hrs, heach⟩ := h
  refine ⟨rs, hrefs hi hrs, ?_⟩
  have hall : ∀ r ∈ rs, G.Refers i r := fun r hr => ⟨rs, hrs, hr⟩
  clear hrs
  induction heach generalizing i' with
  | nil => exact .nil
  | cons hlead hrs' _ _ ihsub ihrest =>
    obtain ⟨hr, hall⟩ := List.forall_mem_cons.mp hall
    obtain ⟨k', hlead', halike⟩ := hleads hi hr hlead
    exact .cons hlead' (hrefs halike hrs') (ihsub halike fun r hr => ⟨_, hrs', hr⟩) (ihrest hi hall)

theorem sizeOf_sources (r : R) (t : T) (sources srcs : List (Source R T)) :
    sizeOf (Source.mk r t sources :: srcs) = sizeOf sources + sizeOf srcs + 2 := by
  simp
  omega

/-! ### Whether there is a tree -/

variable (G) in
/-- An item all of whose references lead to a text. -/
def Whole (i : I) : Prop := ∃ rs, G.refs i = .ok rs ∧ ∀ r ∈ rs, ∃ k t, G.Leads i r k t

variable (G) in
/-- Of the items reached, one that another leads to. -/
def Below (start : I) (i j : {i // G.Reaches start i}) : Prop := Relation.TransGen G.Edge j.1 i.1

/-- The tree of a reference is smaller than the one it is in. -/
theorem Each.sub {i : I} {rs : List R} {srcs : List (Source R T)} (h : Each G i rs srcs) {r : R} (hr : r ∈ rs) :
    ∃ k t sources, G.Leads i r k t ∧ G.Unfolds (G.item i r k t) sources ∧ sizeOf sources < sizeOf srcs := by
  induction h with
  | nil => exact absurd hr List.not_mem_nil
  | @cons i r' k t rs rs' sources srcs hlead hrefs hsub _ _ ihrest =>
    have hsize := sizeOf_sources r' t sources srcs
    rcases List.mem_cons.mp hr with rfl | hr
    · exact ⟨k, t, sources, hlead, ⟨rs', hrefs, hsub⟩, by omega⟩
    · obtain ⟨k, t, sub, hlead, hsub, hlt⟩ := ihrest hr
      exact ⟨k, t, sub, hlead, hsub, by omega⟩

theorem Unfolds.whole {i : I} {srcs : List (Source R T)} (h : G.Unfolds i srcs) : G.Whole i := by
  obtain ⟨rs, hrs, heach⟩ := h
  refine ⟨rs, hrs, fun r hr => ?_⟩
  obtain ⟨k, t, -, hlead, -⟩ := heach.sub hr
  exact ⟨k, t, hlead⟩

theorem Unfolds.edge {i j : I} {srcs : List (Source R T)} (h : G.Unfolds i srcs) (hj : G.Edge i j) :
    ∃ sources, G.Unfolds j sources ∧ sizeOf sources < sizeOf srcs := by
  obtain ⟨rs, hrs, heach⟩ := h
  obtain ⟨r, k, t, ⟨rs', hrs', hr⟩, hlead, rfl⟩ := hj
  obtain rfl := Except.ok.inj (hrs.symm.trans hrs')
  obtain ⟨k', t', sources, hlead', hsub, hlt⟩ := heach.sub hr
  obtain ⟨rfl, rfl⟩ := hlead.unique hlead'
  exact ⟨sources, hsub, hlt⟩

theorem Unfolds.transGen {i j : I} {srcs : List (Source R T)} (h : G.Unfolds i srcs)
    (hj : Relation.TransGen G.Edge i j) : ∃ sources, G.Unfolds j sources ∧ sizeOf sources < sizeOf srcs := by
  induction hj with
  | single hedge => exact h.edge hedge
  | tail _ hedge ih =>
    obtain ⟨mid, hmid, hlt⟩ := ih
    obtain ⟨sources, hsub, hlt'⟩ := hmid.edge hedge
    exact ⟨sources, hsub, hlt'.trans hlt⟩

theorem Unfolds.acyclic {i : I} {srcs : List (Source R T)} (h : G.Unfolds i srcs) : ¬Relation.TransGen G.Edge i i := by
  intro hi
  obtain ⟨sources, hsub, hlt⟩ := h.transGen hi
  rw [hsub.unique h] at hlt
  exact lt_irrefl _ hlt

theorem exists_each {i : I} {rs : List R}
    (h : ∀ r ∈ rs, ∃ k t sources, G.Leads i r k t ∧ G.Unfolds (G.item i r k t) sources) : ∃ srcs, Each G i rs srcs := by
  induction rs with
  | nil => exact ⟨[], .nil⟩
  | cons r rs ih =>
    obtain ⟨⟨k, t, sources, hlead, rs', hrefs, hsub⟩, hall⟩ := List.forall_mem_cons.mp h
    obtain ⟨srcs, hrest⟩ := ih hall
    exact ⟨_, .cons hlead hrefs hsub hrest⟩

/-- Where finitely many items are reached there is a tree just when all of them are whole and
none comes back to itself. -/
theorem exists_unfolds_iff {start : I} (hfin : {i | G.Reaches start i}.Finite) :
    (∃ srcs, G.Unfolds start srcs) ↔ ∀ i, G.Reaches start i → G.Whole i ∧ ¬Relation.TransGen G.Edge i i := by
  constructor
  · rintro ⟨srcs, h⟩ i hi
    have hunfolds : ∃ sources, G.Unfolds i sources := by
      rcases Relation.reflTransGen_iff_eq_or_transGen.mp hi with rfl | hi
      · exact ⟨srcs, h⟩
      · obtain ⟨sources, hsub, -⟩ := h.transGen hi
        exact ⟨sources, hsub⟩
    obtain ⟨sources, hsub⟩ := hunfolds
    exact ⟨hsub.whole, hsub.acyclic⟩
  · intro h
    have : Finite {i // G.Reaches start i} := hfin
    have : IsTrans _ (G.Below start) := ⟨fun _ _ _ hab hbc => hbc.trans hab⟩
    have : Std.Irrefl (G.Below start) := ⟨fun a => (h a.1 a.2).2⟩
    have hwf : WellFounded (G.Below start) := Finite.wellFounded_of_trans_of_irrefl _
    have hall : ∀ a : {i // G.Reaches start i}, ∃ srcs, G.Unfolds a.1 srcs := by
      intro a
      induction a using hwf.induction with
      | _ a ih =>
        obtain ⟨rs, hrs, hlead⟩ := (h a.1 a.2).1
        have hsub : ∀ r ∈ rs, ∃ k t sources, G.Leads a.1 r k t ∧ G.Unfolds (G.item a.1 r k t) sources := by
          intro r hr
          obtain ⟨k, t, hlead⟩ := hlead r hr
          have hedge : G.Edge a.1 (G.item a.1 r k t) := ⟨r, k, t, ⟨rs, hrs, hr⟩, hlead, rfl⟩
          obtain ⟨sources, hsources⟩ := ih ⟨_, a.2.tail hedge⟩ (.single hedge)
          exact ⟨k, t, sources, hlead, hsources⟩
        obtain ⟨srcs, heach⟩ := exists_each hsub
        exact ⟨srcs, rs, hrs, heach⟩
    exact hall ⟨start, .refl⟩

/-! ### The texts by their keys -/

section Close

variable [Ord K] [Std.TransOrd K]

/-- What was loaded, and the items still to be read, the last found first. -/
abbrev State (I K T : Type) [Ord K] := BTreeMap K T × List I

variable (G) in
/-- Follow one reference of an item. -/
def visit (i : I) (s : State I K T) (r : R) : Except E (State I K T) := do
  let k ← G.key i r
  if k ∈ s.1 then .ok s
  else
    let t ← G.load i r k
    .ok (s.1.insert k t, G.item i r k t :: s.2)

variable (G) in
/-- Read the items still to be read, `fuel` at most: no result and no error is that they
were more. -/
def close : ℕ → State I K T → Except (Option E) (BTreeMap K T)
  | 0, _ => .error none
  | _ + 1, (out, []) => .ok out
  | fuel + 1, (out, i :: stack) => do
    let rs ← (G.refs i).mapError some
    let s ← (rs.foldlM (visit G i) (out, stack)).mapError some
    close fuel s

theorem visit_eq_ok {i : I} {s s' : State I K T} {r : R} :
    visit G i s r = .ok s' ↔ ∃ k, G.key i r = .ok k ∧
      (k ∈ s.1 ∧ s' = s ∨ k ∉ s.1 ∧ ∃ t, G.load i r k = .ok t ∧ s' = (s.1.insert k t, G.item i r k t :: s.2)) := by
  unfold visit
  rw [bind_eq_ok]
  refine exists_congr fun k => and_congr_right fun _ => ?_
  by_cases hk : k ∈ s.1
  · rw [if_pos hk]
    simp only [hk, true_and, not_true_eq_false, false_and, or_false, Except.ok.injEq, eq_comm]
  · rw [if_neg hk, bind_eq_ok]
    simp only [hk, false_and, not_false_eq_true, true_and, false_or, Except.ok.injEq, eq_comm]

/-! ### That the list ends -/

/-- The trees of the items still to be read are smaller after one is read. -/
theorem exists_visits {i : I} {rs : List R} {srcs : List (Source R T)} (h : Each G i rs srcs) (s : State I K T)
    {forests : List (List (Source R T))} (hs : List.Forall₂ G.Unfolds s.2 forests) :
    ∃ s' forests', rs.foldlM (visit G i) s = .ok s' ∧ List.Forall₂ G.Unfolds s'.2 forests' ∧
      (forests'.map sizeOf).sum + 1 ≤ sizeOf srcs + (forests.map sizeOf).sum := by
  induction rs generalizing srcs s forests with
  | nil =>
    cases h
    exact ⟨s, forests, rfl, hs, by simp [Nat.add_comm]⟩
  | cons r rs ih =>
    cases h with
    | @cons _ _ k t _ rs' sources srcs hlead hrefs hsub hrest =>
      have hsize := sizeOf_sources r t sources srcs
      by_cases hk : k ∈ s.1
      · obtain ⟨s', forests', hs', hall, hle⟩ := ih hrest s hs
        refine ⟨s', forests', ?_, hall, by omega⟩
        rw [List.foldlM_cons, bind_eq_ok]
        exact ⟨s, visit_eq_ok.mpr ⟨k, hlead.1, .inl ⟨hk, rfl⟩⟩, hs'⟩
      · obtain ⟨s', forests', hs', hall, hle⟩ := ih hrest (s.1.insert k t, G.item i r k t :: s.2)
          (.cons ⟨rs', hrefs, hsub⟩ hs)
        rw [List.map_cons, List.sum_cons] at hle
        refine ⟨s', forests', ?_, hall, by omega⟩
        rw [List.foldlM_cons, bind_eq_ok]
        exact ⟨_, visit_eq_ok.mpr ⟨k, hlead.1, .inr ⟨hk, t, hlead.2, rfl⟩⟩, hs'⟩

theorem close_of_forests {fuel : ℕ} {s : State I K T} {forests : List (List (Source R T))}
    (hs : List.Forall₂ G.Unfolds s.2 forests) (hfuel : (forests.map sizeOf).sum < fuel) :
    ∃ out, close G fuel s = .ok out := by
  induction fuel generalizing s forests with
  | zero => omega
  | succ fuel ih =>
    obtain ⟨out, stack⟩ := s
    cases hs with
    | nil => exact ⟨out, rfl⟩
    | @cons i srcs stack forests hi hstack =>
      obtain ⟨rs, hrs, heach⟩ := hi
      obtain ⟨s', forests', hs', hall, hle⟩ := exists_visits heach (out, stack) hstack
      rw [List.map_cons, List.sum_cons] at hfuel
      obtain ⟨out', hout'⟩ := ih hall (by omega)
      refine ⟨out', ?_⟩
      simp only [close, bind_eq_ok, mapError_eq_ok]
      exact ⟨rs, hrs, s', hs', hout'⟩

/-- Where the tree of the start is finite all its texts are collected. -/
theorem exists_close {start : I} {srcs : List (Source R T)} (h : G.Unfolds start srcs) :
    ∃ fuel out, close G fuel (∅, [start]) = .ok out :=
  ⟨_, close_of_forests (.cons h .nil) (Nat.lt_succ_self _)⟩

/-! ### What is collected -/

/-- What following references of an item does: what was loaded stays, and what is new is
still to be read. -/
structure Grows (G : Graph I R K T E) (i : I) (rs : List R) (s s' : State I K T) : Prop where
  kept : ∀ (k : K) (t : T), s.1[k]? = some t → s'.1[k]? = some t
  stacked : s.2 ⊆ s'.2
  loaded : ∀ (k : K) (t : T), s'.1[k]? = some t → s.1[k]? = some t ∨
    ∃ r ∈ rs, G.Leads i r k t ∧ G.item i r k t ∈ s'.2
  found : ∀ j ∈ s'.2, j ∈ s.2 ∨ ∃ r ∈ rs, ∃ k t, G.Leads i r k t ∧ j = G.item i r k t

theorem Grows.mem {i : I} {rs : List R} {s s' : State I K T} (h : Grows G i rs s s') {k : K} (hk : k ∈ s.1) :
    k ∈ s'.1 := by
  rw [Std.ExtTreeMap.mem_iff_isSome_getElem?] at hk ⊢
  obtain ⟨t, ht⟩ := Option.isSome_iff_exists.mp hk
  rw [h.kept k t ht]
  rfl

theorem Grows.cons {i : I} {r : R} {rs : List R} {s s' s'' : State I K T} (h : Grows G i [r] s s')
    (h' : Grows G i rs s' s'') : Grows G i (r :: rs) s s'' where
  kept k t hk := h'.kept k t (h.kept k t hk)
  stacked _ hj := h'.stacked (h.stacked hj)
  loaded k t hk := by
    rcases h'.loaded k t hk with hk | ⟨r', hr', hlead⟩
    · rcases h.loaded k t hk with hk | ⟨r', hr', hlead, hmem⟩
      · exact .inl hk
      · exact .inr ⟨r', List.mem_cons.mpr (.inl (List.mem_singleton.mp hr')), hlead, h'.stacked hmem⟩
    · exact .inr ⟨r', List.mem_cons_of_mem _ hr', hlead⟩
  found j hj := by
    rcases h'.found j hj with hj | ⟨r', hr', hlead⟩
    · rcases h.found j hj with hj | ⟨r', hr', hlead⟩
      · exact .inl hj
      · exact .inr ⟨r', List.mem_cons.mpr (.inl (List.mem_singleton.mp hr')), hlead⟩
    · exact .inr ⟨r', List.mem_cons_of_mem _ hr', hlead⟩

/-- An item whose references have all been followed. -/
def Done (G : Graph I R K T E) (out : BTreeMap K T) (i : I) : Prop :=
  ∃ rs, G.refs i = .ok rs ∧ ∀ r ∈ rs, ∃ k, G.key i r = .ok k ∧ k ∈ out

theorem Done.grows {i j : I} {rs : List R} {s s' : State I K T} (h : Done G s.1 j) (hg : Grows G i rs s s') :
    Done G s'.1 j := by
  obtain ⟨rs, hrs, hall⟩ := h
  refine ⟨rs, hrs, fun r hr => ?_⟩
  obtain ⟨k, hkey, hk⟩ := hall r hr
  exact ⟨k, hkey, hg.mem hk⟩

/-- What holds while the items are read: each text loaded was found from the start, and its
item is read or still to be read. -/
structure Inv (G : Graph I R K T E) (start : I) (s : State I K T) : Prop where
  started : start ∈ s.2 ∨ Done G s.1 start
  reached : ∀ i ∈ s.2, G.Reaches start i
  loaded : ∀ (k : K) (t : T), s.1[k]? = some t → ∃ i r, G.Reaches start i ∧ G.Refers i r ∧ G.Leads i r k t ∧
    (G.item i r k t ∈ s.2 ∨ Done G s.1 (G.item i r k t))

theorem inv_start (start : I) : Inv G start ((∅, [start]) : State I K T) where
  started := .inl (List.mem_singleton_self start)
  reached i hi := List.mem_singleton.mp hi ▸ .refl
  loaded k t hk := by
    rw [Std.ExtTreeMap.getElem?_empty] at hk
    cases hk

variable [Std.LawfulEqOrd K]

theorem grows_visit {i : I} {s s' : State I K T} {r : R} (h : visit G i s r = .ok s') :
    Grows G i [r] s s' ∧ ∃ k, G.key i r = .ok k ∧ k ∈ s'.1 := by
  obtain ⟨k, hkey, ⟨hk, rfl⟩ | ⟨hk, t, hload, rfl⟩⟩ := visit_eq_ok.mp h
  · exact ⟨⟨fun _ _ h => h, fun _ h => h, fun _ _ h => .inl h, fun _ h => .inl h⟩, k, hkey, hk⟩
  · refine ⟨⟨fun k' t' ht' => ?_, List.subset_cons_self _ _, fun k' t' ht' => ?_, fun j hj => ?_⟩, k, hkey,
      Std.ExtTreeMap.mem_insert_self⟩
    · rw [Std.ExtTreeMap.getElem?_insert, if_neg fun heq => ?_, ht']
      obtain rfl := Std.LawfulEqOrd.eq_of_compare heq
      rw [Std.ExtTreeMap.getElem?_eq_none hk] at ht'
      exact Option.some_ne_none _ ht'.symm
    · rw [Std.ExtTreeMap.getElem?_insert] at ht'
      split_ifs at ht' with heq
      · obtain rfl := Std.LawfulEqOrd.eq_of_compare heq
        obtain rfl := Option.some.inj ht'
        exact .inr ⟨r, List.mem_singleton_self r, ⟨hkey, hload⟩, List.mem_cons_self⟩
      · exact .inl ht'
    · rcases List.mem_cons.mp hj with rfl | hj
      · exact .inr ⟨r, List.mem_singleton_self r, k, t, ⟨hkey, hload⟩, rfl⟩
      · exact .inl hj

theorem grows_visits {i : I} {rs : List R} {s s' : State I K T} (h : rs.foldlM (visit G i) s = .ok s') :
    Grows G i rs s s' ∧ ∀ r ∈ rs, ∃ k, G.key i r = .ok k ∧ k ∈ s'.1 := by
  induction rs generalizing s with
  | nil =>
    obtain rfl := Except.ok.inj h
    refine ⟨⟨fun _ _ h => h, fun _ h => h, fun _ _ h => .inl h, fun _ h => .inl h⟩, fun r hr => ?_⟩
    exact absurd hr List.not_mem_nil
  | cons r rs ih =>
    rw [List.foldlM_cons, bind_eq_ok] at h
    obtain ⟨mid, hmid, h⟩ := h
    obtain ⟨hgrows, k, hkey, hk⟩ := grows_visit hmid
    obtain ⟨hrest, hall⟩ := ih h
    exact ⟨hgrows.cons hrest, List.forall_mem_cons.mpr ⟨⟨k, hkey, hrest.mem hk⟩, hall⟩⟩

/-- One item read. -/
theorem Inv.step {start i : I} {out : BTreeMap K T} {stack : List I} {rs : List R} {s : State I K T}
    (h : Inv G start (out, i :: stack)) (hrs : G.refs i = .ok rs) (hs : rs.foldlM (visit G i) (out, stack) = .ok s) :
    Inv G start s := by
  obtain ⟨hgrows, hall⟩ := grows_visits hs
  have hi : G.Reaches start i := h.reached i List.mem_cons_self
  -- an item that was to be read still is, or is the one just read
  have hread : ∀ j, j ∈ i :: stack ∨ Done G out j → j ∈ s.2 ∨ Done G s.1 j := by
    rintro j (hj | hj)
    · rcases List.mem_cons.mp hj with rfl | hj
      · exact .inr ⟨rs, hrs, hall⟩
      · exact .inl (hgrows.stacked hj)
    · exact .inr (hj.grows hgrows)
  refine ⟨hread start h.started, fun j hj => ?_, fun k t hk => ?_⟩
  · rcases hgrows.found j hj with hj | ⟨r, hr, k, t, hlead, rfl⟩
    · exact h.reached j (List.mem_cons_of_mem _ hj)
    · exact hi.tail ⟨r, k, t, ⟨rs, hrs, hr⟩, hlead, rfl⟩
  · rcases hgrows.loaded k t hk with hk | ⟨r, hr, hlead, hmem⟩
    · obtain ⟨j, r, hj, hr, hlead, hitem⟩ := h.loaded k t hk
      exact ⟨j, r, hj, hr, hlead, hread _ hitem⟩
    · exact ⟨i, r, hi, ⟨rs, hrs, hr⟩, hlead, .inl hmem⟩

theorem Inv.run {start : I} {fuel : ℕ} {s : State I K T} {out : BTreeMap K T} (h : Inv G start s)
    (hout : close G fuel s = .ok out) : Inv G start (out, []) := by
  induction fuel generalizing s with
  | zero => cases hout
  | succ fuel ih =>
    obtain ⟨out', stack⟩ := s
    cases stack with
    | nil =>
      obtain rfl := Except.ok.inj hout
      exact h
    | cons i stack =>
      simp only [close, bind_eq_ok, mapError_eq_ok] at hout
      obtain ⟨rs, hrs, s, hs, hout⟩ := hout
      exact ih (h.step hrs hs) hout

/-- A text is loaded when it is what a reference leads to that is reached from the start,
and every reference that is reached leads to one. -/
theorem close_collects (hG : G.Coherent) {start : I} {fuel : ℕ} {out : BTreeMap K T}
    (h : close G fuel (∅, [start]) = .ok out) :
    (∀ (k : K) (t : T), out[k]? = some t ↔ ∃ i r, G.Reaches start i ∧ G.Refers i r ∧ G.Leads i r k t) ∧
      ∀ i, G.Reaches start i → ∃ rs, G.refs i = .ok rs ∧ ∀ r ∈ rs, ∃ k t, G.Leads i r k t ∧ out[k]? = some t := by
  obtain ⟨hstart, -, hloaded⟩ := (inv_start start).run h
  have hread : ∀ {j}, j ∈ ([] : List I) ∨ Done G out j → Done G out j := fun h => h.resolve_left List.not_mem_nil
  -- a reference followed leads to the text loaded at its key
  have hfollow : ∀ {i r k}, G.key i r = .ok k → k ∈ out →
      ∃ t, out[k]? = some t ∧ G.Leads i r k t ∧ Done G out (G.item i r k t) := by
    intro i r k hkey hk
    obtain ⟨t, ht⟩ := Option.isSome_iff_exists.mp (Std.ExtTreeMap.mem_iff_isSome_getElem?.mp hk)
    obtain ⟨i', r', -, -, hlead', hitem⟩ := hloaded k t ht
    obtain ⟨hlead, heq⟩ := hG hkey hlead'
    exact ⟨t, ht, hlead, heq ▸ hread hitem⟩
  have hdone : ∀ {i}, G.Reaches start i → Done G out i := by
    intro i hi
    induction hi with
    | refl => exact hread hstart
    | tail _ hedge ih =>
      obtain ⟨r, k, t, ⟨rs, hrs, hr⟩, hlead, rfl⟩ := hedge
      obtain ⟨rs', hrs', hall⟩ := ih
      obtain rfl := Except.ok.inj (hrs.symm.trans hrs')
      obtain ⟨k', hkey', hk'⟩ := hall r hr
      obtain ⟨t', -, hlead', hitem⟩ := hfollow hkey' hk'
      obtain ⟨rfl, rfl⟩ := hlead.unique hlead'
      exact hitem
  refine ⟨fun k t => ⟨fun hk => ?_, ?_⟩, fun i hi => ?_⟩
  · obtain ⟨i, r, hi, hr, hlead, -⟩ := hloaded k t hk
    exact ⟨i, r, hi, hr, hlead⟩
  · rintro ⟨i, r, hi, ⟨rs, hrs, hr⟩, hlead⟩
    obtain ⟨rs', hrs', hall⟩ := hdone hi
    obtain rfl := Except.ok.inj (hrs.symm.trans hrs')
    obtain ⟨k', hkey, hk⟩ := hall r hr
    obtain ⟨t', ht', hlead', -⟩ := hfollow hkey hk
    obtain ⟨rfl, rfl⟩ := hlead.unique hlead'
    exact ht'
  · obtain ⟨rs, hrs, hall⟩ := hdone hi
    refine ⟨rs, hrs, fun r hr => ?_⟩
    obtain ⟨k, hkey, hk⟩ := hall r hr
    obtain ⟨t, ht, hlead, -⟩ := hfollow hkey hk
    exact ⟨k, t, hlead, ht⟩

end Close

/-! ### The tree -/

section Unfold

variable [DecidableEq K] (circular : R → E)

variable (G) in
/-- What each reference leads to, read where it stands; a key of `visited` is still being
read. `fuel` bounds how deep: no result and no error is that it was deeper. -/
def unfold : ℕ → List K → I → Except (Option E) (List (Source R T))
  | 0, _, _ => .error none
  | fuel + 1, visited, i => do
    let rs ← (G.refs i).mapError some
    rs.mapM fun r => do
      let k ← (G.key i r).mapError some
      if k ∈ visited then .error (some (circular r))
      else
        let t ← (G.load i r k).mapError some
        let sources ← unfold fuel (k :: visited) (G.item i r k t)
        .ok ⟨r, t, sources⟩

variable {circular}

theorem unfold_succ {fuel : ℕ} {visited : List K} {i : I} {srcs : List (Source R T)} :
    unfold G circular (fuel + 1) visited i = .ok srcs ↔ ∃ rs, G.refs i = .ok rs ∧ List.Forall₂ (fun r src =>
      ∃ k t sources, G.Leads i r k t ∧ k ∉ visited ∧ unfold G circular fuel (k :: visited) (G.item i r k t) = .ok sources ∧
        src = ⟨r, t, sources⟩) rs srcs := by
  simp only [unfold, bind_eq_ok, mapError_eq_ok, mapM_eq_ok]
  refine exists_congr fun rs => and_congr_right fun _ => ?_
  have hone : ∀ (r : R) (src : Source R T), (∃ k, G.key i r = .ok k ∧
      (if k ∈ visited then (.error (some (circular r)) : Except (Option E) (Source R T)) else do
        let t ← (G.load i r k).mapError some
        let sources ← unfold G circular fuel (k :: visited) (G.item i r k t)
        .ok ⟨r, t, sources⟩) = .ok src) ↔ ∃ k t sources, G.Leads i r k t ∧ k ∉ visited ∧
          unfold G circular fuel (k :: visited) (G.item i r k t) = .ok sources ∧ src = ⟨r, t, sources⟩ := by
    intro r src
    constructor
    · rintro ⟨k, hkey, h⟩
      split_ifs at h with hk
      simp only [bind_eq_ok, mapError_eq_ok] at h
      obtain ⟨t, hload, sources, hsub, h⟩ := h
      exact ⟨k, t, sources, ⟨hkey, hload⟩, hk, hsub, (Except.ok.inj h).symm⟩
    · rintro ⟨k, t, sources, ⟨hkey, hload⟩, hk, hsub, rfl⟩
      refine ⟨k, hkey, ?_⟩
      rw [if_neg hk]
      simp only [bind_eq_ok, mapError_eq_ok]
      exact ⟨t, hload, sources, hsub, rfl⟩
  simp only [hone]

theorem unfolds_of_unfold {fuel : ℕ} {visited : List K} {i : I} {srcs : List (Source R T)}
    (h : unfold G circular fuel visited i = .ok srcs) : G.Unfolds i srcs := by
  induction fuel generalizing visited i srcs with
  | zero => cases h
  | succ fuel ih =>
    obtain ⟨rs, hrs, hall⟩ := unfold_succ.mp h
    refine ⟨rs, hrs, ?_⟩
    clear hrs h
    induction hall with
    | nil => exact .nil
    | cons hone _ ihrest =>
      obtain ⟨k, t, sources, hlead, -, hsub, rfl⟩ := hone
      obtain ⟨rs', hrs', heach⟩ := ih hsub
      exact .cons hlead hrs' heach ihrest

/-- A key still being read leads to a tree that the one read now is in, so that it is not
in its own. -/
theorem unfold_of_unfolds (hG : G.Coherent) {fuel : ℕ} {visited : List K} {i : I} {srcs : List (Source R T)}
    (h : G.Unfolds i srcs) (hfuel : sizeOf srcs < fuel) (hvisited : ∀ v ∈ visited, ∀ j r t sources,
      G.Leads j r v t → G.Unfolds (G.item j r v t) sources → sizeOf srcs ≤ sizeOf sources) :
    unfold G circular fuel visited i = .ok srcs := by
  induction fuel generalizing visited i srcs with
  | zero => omega
  | succ fuel ih =>
    obtain ⟨rs, hrs, heach⟩ := h
    refine unfold_succ.mpr ⟨rs, hrs, ?_⟩
    clear hrs
    -- the references from some on, whose trees are no larger
    have hrest : ∀ (rs : List R) (rest : List (Source R T)), Each G i rs rest → sizeOf rest ≤ sizeOf srcs →
        List.Forall₂ (fun r src => ∃ k t sources, G.Leads i r k t ∧ k ∉ visited ∧
          unfold G circular fuel (k :: visited) (G.item i r k t) = .ok sources ∧ src = ⟨r, t, sources⟩) rs rest := by
      intro rs
      induction rs with
      | nil =>
        intro rest heach _
        cases heach
        exact .nil
      | cons r rs ihrest =>
        intro rest heach hle
        cases heach with
        | @cons _ _ k t _ rs' sources rest hlead hrefs hsub hrest =>
          have hsize := sizeOf_sources r t sources rest
          have hunfolds : G.Unfolds (G.item i r k t) sources := ⟨rs', hrefs, hsub⟩
          refine .cons ⟨k, t, sources, hlead, fun hk => ?_, ih hunfolds (by omega) ?_, rfl⟩
            (ihrest rest hrest (by omega))
          · have := hvisited k hk i r t sources hlead hunfolds
            omega
          · intro v hv j r' t' sources' hlead' hunfolds'
            rcases List.mem_cons.mp hv with rfl | hv
            · obtain ⟨hlead'', heq⟩ := hG hlead.1 hlead'
              obtain ⟨-, rfl⟩ := hlead.unique hlead''
              rw [← heq] at hunfolds'
              exact (congrArg sizeOf (hunfolds.unique hunfolds')).le
            · have := hvisited v hv j r' t' sources' hlead' hunfolds'
              omega
    exact hrest rs srcs heach le_rfl

/-- The tree is read when there is one, from outside what can be read. -/
theorem unfold_eq_ok (hG : G.Coherent) {visited : List K} {i : I} {srcs : List (Source R T)}
    (hvisited : ∀ v ∈ visited, ∀ j r t, ¬G.Leads j r v t) :
    (∃ fuel, unfold G circular fuel visited i = .ok srcs) ↔ G.Unfolds i srcs :=
  ⟨fun ⟨_, h⟩ => unfolds_of_unfold h, fun h => ⟨_, unfold_of_unfolds hG h (Nat.lt_succ_self _)
    fun v hv j r t _ hlead => absurd hlead (hvisited v hv j r t)⟩⟩

/-! ### That reading the tree ends -/

theorem bind_ne_none {A B : Type} {x : Except (Option E) A} {f : A → Except (Option E) B} (hx : x ≠ .error none)
    (hf : ∀ a, x = .ok a → f a ≠ .error none) : (x >>= f) ≠ .error none := by
  cases x with
  | error e =>
    intro h
    exact hx (congrArg Except.error (Except.error.inj h))
  | ok a => exact hf a rfl

theorem mapM_ne_none {A B : Type} {f : A → Except (Option E) B} {l : List A} (h : ∀ a ∈ l, f a ≠ .error none) :
    l.mapM f ≠ .error none := by
  induction l with
  | nil =>
    intro hnil
    cases hnil
  | cons a l ih =>
    obtain ⟨ha, hl⟩ := List.forall_mem_cons.mp h
    rw [List.mapM_cons]
    refine bind_ne_none ha fun b _ => bind_ne_none (ih hl) fun bs _ hbs => ?_
    cases hbs

theorem mapError_ne_none {A : Type} (x : Except E A) : x.mapError some ≠ .error none := by
  intro h
  cases x with
  | error e => exact Option.some_ne_none _ (Except.error.inj h)
  | ok a => cases h

/-- More fuel changes no result. -/
theorem bind_eq_of_ne_none {A B : Type} {x : Except (Option E) A} {f g : A → Except (Option E) B}
    (h : (x >>= f) ≠ .error none) (hfg : ∀ a, f a ≠ .error none → g a = f a) : (x >>= g) = (x >>= f) := by
  cases x with
  | error e => rfl
  | ok a => exact hfg a h

theorem mapM_eq_of_ne_none {A B : Type} {f g : A → Except (Option E) B} {l : List A} (h : l.mapM f ≠ .error none)
    (hfg : ∀ a, f a ≠ .error none → g a = f a) : l.mapM g = l.mapM f := by
  induction l with
  | nil => rfl
  | cons a l ih =>
    rw [List.mapM_cons] at h
    rw [List.mapM_cons, List.mapM_cons]
    have hga : g a = f a := hfg a fun hnone => h (by rw [hnone]; rfl)
    rw [hga]
    refine bind_eq_of_ne_none h fun b hb => ?_
    have hl : l.mapM f ≠ .error none := fun hnone => hb (by rw [hnone]; rfl)
    rw [ih hl]

theorem unfold_mono {fuel : ℕ} {visited : List K} {i : I} (h : unfold G circular fuel visited i ≠ .error none) :
    unfold G circular (fuel + 1) visited i = unfold G circular fuel visited i := by
  induction fuel generalizing visited i with
  | zero => exact absurd rfl h
  | succ fuel ih =>
    rw [unfold] at h
    rw [unfold, unfold]
    refine bind_eq_of_ne_none h fun rs hrs => mapM_eq_of_ne_none hrs fun r hr => bind_eq_of_ne_none hr fun k hk => ?_
    by_cases hvisited : k ∈ visited
    · rw [if_pos hvisited, if_pos hvisited]
    · rw [if_neg hvisited] at hk
      rw [if_neg hvisited, if_neg hvisited]
      refine bind_eq_of_ne_none hk fun t ht => ?_
      have hsub : unfold G circular fuel (k :: visited) (G.item i r k t) ≠ .error none :=
        fun hnone => ht (by rw [hnone]; rfl)
      rw [ih hsub]

/-- Each key still being read is another one. -/
theorem unfold_ne_none (keys : Finset K) (hkeys : ∀ i r k t, G.Leads i r k t → k ∈ keys) {fuel : ℕ} {visited : List K}
    {i : I} (hfuel : (keys.filter (· ∉ visited)).card < fuel) : unfold G circular fuel visited i ≠ .error none := by
  induction fuel generalizing visited i with
  | zero => omega
  | succ fuel ih =>
    rw [unfold]
    refine bind_ne_none (mapError_ne_none _) fun rs _ => mapM_ne_none fun r _ => ?_
    refine bind_ne_none (mapError_ne_none _) fun k hkey => ?_
    by_cases hk : k ∈ visited
    · rw [if_pos hk]
      exact fun hcircular => Option.some_ne_none _ (Except.error.inj hcircular)
    · rw [if_neg hk]
      refine bind_ne_none (mapError_ne_none _) fun t hload => bind_ne_none (ih ?_) fun sources _ hsources => ?_
      · have hmem : k ∈ keys.filter (· ∉ visited) :=
          Finset.mem_filter.mpr ⟨hkeys i r k t ⟨mapError_eq_ok.mp hkey, mapError_eq_ok.mp hload⟩, hk⟩
        have hsub : keys.filter (· ∉ k :: visited) ⊆ (keys.filter (· ∉ visited)).erase k := by
          intro j hj
          obtain ⟨hj, hnot⟩ := Finset.mem_filter.mp hj
          obtain ⟨hne, hnot⟩ := not_or.mp (mt List.mem_cons.mpr hnot)
          exact Finset.mem_erase.mpr ⟨hne, Finset.mem_filter.mpr ⟨hj, hnot⟩⟩
        have hcard := Finset.card_le_card hsub
        rw [Finset.card_erase_of_mem hmem] at hcard
        have hpos := Finset.card_pos.mpr ⟨k, hmem⟩
        omega
      · cases hsources

/-- With finitely many keys reading the tree ends, with one result for every fuel that is enough. -/
theorem exists_unfold (keys : Finset K) (hkeys : ∀ i r k t, G.Leads i r k t → k ∈ keys) (visited : List K) (i : I) :
    ∃ fuel result, result ≠ .error none ∧ ∀ m, fuel ≤ m → unfold G circular m visited i = result := by
  have hends : ∀ m, (keys.filter (· ∉ visited)).card + 1 ≤ m → unfold G circular m visited i ≠ .error none :=
    fun m hm => unfold_ne_none keys hkeys hm
  refine ⟨(keys.filter (· ∉ visited)).card + 1, _, hends _ le_rfl, fun m hm => ?_⟩
  induction m, hm using Nat.le_induction with
  | base => rfl
  | succ m hm ih => rw [unfold_mono (hends m hm), ih]

end Unfold

end Graph

end NlinkLab.References
