import NlinkLab.Deploy.Plan
import NlinkLab.Edit.Links
import NlinkLab.Validator.Mtu

/-! The order of edits. The MTU changes of a list of edits are made before the others,
on the links there are at first. That is the same as making the edits in order exactly
when they find the same links and no link that is added, and stays, is changed later. -/

namespace NlinkLab

open Fallible

namespace Edit

/-- An MTU change finds a link. -/
def Finds (links : List Link) (ep : String) : Prop := ∃ k, key ep = .ok k ∧ ∃ l ∈ links, l.has k

/-- Every MTU change finds a link when the edits before it are made. -/
def FoundInPlace (links : List Link) (edits : List Edit) : Prop :=
  ∀ pre ep mtu post, edits = pre ++ .setMtu ep mtu :: post → Finds (linksAfter pre links) ep

/-- Every MTU change finds a link before any edit is made. -/
def FoundAtFirst (links : List Link) (edits : List Edit) : Prop :=
  ∀ ep mtu, .setMtu ep mtu ∈ edits → Finds links ep

/-- No MTU change is to a link that was added before it and stays. -/
def AddedUntouched (edits : List Edit) : Prop :=
  ∀ pre a b addresses post link, edits = pre ++ .addLink a b addresses :: post →
    newLink a b addresses = .ok link → (∀ e ∈ post, e.onLinks.keep link) →
      ∀ ep mtu k, .setMtu ep mtu ∈ post → key ep = .ok k → ¬link.has k

theorem foundInPlace_cons {links : List Link} {e : Edit} {es : List Edit} :
    FoundInPlace links (e :: es) ↔
      (∀ ep mtu, e = .setMtu ep mtu → Finds links ep) ∧ FoundInPlace (e.onLinks.apply links) es := by
  constructor
  · intro h
    exact ⟨fun ep mtu heq => h [] ep mtu es (by rw [heq]; rfl),
      fun pre ep mtu post heq => h (e :: pre) ep mtu post (by rw [heq]; rfl)⟩
  · rintro ⟨hhead, htail⟩ pre ep mtu post heq
    cases pre with
    | nil => exact hhead ep mtu (List.cons.inj heq).1
    | cons p pre =>
      obtain ⟨rfl, rfl⟩ := List.cons.inj heq
      exact htail pre ep mtu post rfl

theorem isSome_change {e : Edit} {l : Link} (h : l.mtu.isSome) : (e.onLinks.change l).mtu.isSome := by
  cases e with
  | setMtu ep mtu =>
    unfold onLinks
    dsimp only
    cases (key ep).toOption with
    | none => exact h
    | some k =>
      rw [Option.elim_some, Link.setMtuAt]
      split
      · rfl
      · exact h
  | _ => exact h

/-- A link without an MTU stays as it is when no MTU change is to it. -/
theorem changed_eq_self_iff {es : List Edit} {l : Link} (hl : l.mtu = none) :
    Rewrite.changed (es.map onLinks) l = l ↔ ∀ ep mtu k, .setMtu ep mtu ∈ es → key ep = .ok k → ¬l.has k := by
  -- once it has an MTU it keeps one
  have hsome : ∀ (es : List Edit) (l : Link), l.mtu.isSome → (Rewrite.changed (es.map onLinks) l).mtu.isSome := by
    intro es
    induction es with
    | nil => exact fun l h => h
    | cons e es ih => exact fun l h => ih _ (isSome_change h)
  induction es with
  | nil => exact ⟨fun _ _ _ _ h => absurd h List.not_mem_nil, fun _ => rfl⟩
  | cons e es ih =>
    rw [List.map_cons, Rewrite.changed_cons]
    by_cases hhead : ∃ ep mtu k, e = .setMtu ep mtu ∧ key ep = .ok k ∧ l.has k
    · obtain ⟨ep, mtu, k, rfl, hk, hhas⟩ := hhead
      have hchange : ((Edit.setMtu ep mtu).onLinks.change l).mtu.isSome := by
        simp only [onLinks, hk, Except.toOption, Option.elim_some, Link.setMtuAt, hhas, if_true, Option.isSome_some]
      refine ⟨fun h => ?_, fun h => absurd hhas (h ep mtu k List.mem_cons_self hk)⟩
      have hmtu := hsome es _ hchange
      rw [h, hl] at hmtu
      cases hmtu
    · have hsame : e.onLinks.change l = l := by
        cases e with
        | setMtu ep mtu =>
          unfold onLinks
          dsimp only
          cases hk : key ep with
          | error err => rfl
          | ok k =>
            have hnot : ¬l.has k := fun hhas => hhead ⟨ep, mtu, k, rfl, hk, hhas⟩
            simp only [Except.toOption, Option.elim_some, Link.setMtuAt, if_neg hnot]
        | _ => rfl
      rw [hsame]
      refine ih.trans ⟨fun h ep mtu k hmem hk hhas => ?_, fun h ep mtu k hmem => h ep mtu k (List.mem_cons_of_mem _ hmem)⟩
      rcases List.mem_cons.mp hmem with heq | hmem
      · exact hhead ⟨ep, mtu, k, heq.symm, hk, hhas⟩
      · exact h ep mtu k hmem hk hhas

theorem addsStay_iff {edits : List Edit} : Rewrite.AddsStay (edits.map onLinks) ↔ AddedUntouched edits := by
  constructor
  · rintro h pre a b addresses post link rfl hlink hkept
    have hadds : link ∈ (Edit.addLink a b addresses).onLinks.adds := by
      unfold onLinks
      dsimp only
      rw [hlink]
      exact List.mem_singleton_self link
    have hkept : Rewrite.kept (post.map onLinks) link := by
      rw [Rewrite.kept, List.all_map, List.all_eq_true]
      exact hkept
    have hmtu : link.mtu = none := congrArg Link.mtu (clearMtu_adds hadds).symm
    refine (changed_eq_self_iff hmtu).mp (h (pre.map onLinks) _ (post.map onLinks) ?_ link hadds hkept)
    rw [List.map_append, List.map_cons]
  · rintro h pre' r post' heq link hadds hkept
    obtain ⟨pre, rest, rfl, rfl, hrest⟩ := List.map_eq_append_iff.mp heq
    obtain ⟨e, post, rfl, rfl, rfl⟩ := List.map_eq_cons_iff.mp hrest
    have hmtu : link.mtu = none := congrArg Link.mtu (clearMtu_adds hadds).symm
    rw [changed_eq_self_iff hmtu]
    rw [Rewrite.kept, List.all_map, List.all_eq_true] at hkept
    cases e with
    | addLink a b addresses =>
      refine h pre a b addresses post link rfl ?_ hkept
      unfold onLinks at hadds
      dsimp only at hadds
      cases hnew : newLink a b addresses with
      | error err =>
        rw [hnew] at hadds
        cases hadds
      | ok link' =>
        rw [hnew] at hadds
        rw [List.mem_singleton.mp hadds]
    | _ => cases hadds

theorem Finds.congr {ls ls' : List Link} (h : ls.map (·.endpoints) = ls'.map (·.endpoints)) {ep : String}
    (hf : Finds ls ep) : Finds ls' ep := by
  obtain ⟨k, hk, l, hl, hhas⟩ := hf
  obtain ⟨l', hl', heq⟩ := List.mem_map.mp (h ▸ List.mem_map_of_mem hl)
  refine ⟨k, hk, l', hl', ?_⟩
  unfold Link.has at hhas ⊢
  rwa [heq]

end Edit

namespace Topology

open Edit

/-! ### A list of edits -/

theorem applyEdits_cons (t : Topology) (e : Edit) (es : List Edit) :
    t.applyEdits (e :: es) =
      (t.applyEdit e).bind fun r => (r.1.applyEdits es).map fun s => (s.1, r.2 :: s.2) := by
  -- the lines so far stand before the others
  have hlines : ∀ (es : List Edit) (t : Topology) (log : List String),
      es.foldlM (fun s edit => (applyEdit s.1 edit).map fun r => (r.1, s.2 ++ [r.2])) (t, log) =
        (t.applyEdits es).map fun s => (s.1, log ++ s.2) := by
    intro es
    induction es with
    | nil => exact fun t log => by simp [applyEdits, pure, Except.pure, Except.map]
    | cons e es ih =>
      intro t log
      rw [applyEdits, List.foldlM_cons, List.foldlM_cons]
      dsimp only
      cases t.applyEdit e with
      | error err => rfl
      | ok r =>
        refine (ih r.1 (log ++ [r.2])).trans (Eq.trans ?_ (congrArg (Except.map _) (ih r.1 ([] ++ [r.2]))).symm)
        cases r.1.applyEdits es with
        | error err => rfl
        | ok s => simp [Except.map]
  rw [applyEdits, List.foldlM_cons]
  dsimp only
  cases t.applyEdit e with
  | error err => rfl
  | ok r => exact hlines es r.1 ([] ++ [r.2])

/-- What edits made one after another come to. -/
def Applies (t : Topology) (edits : List Edit) (t' : Topology) : Prop := ∃ log, t.applyEdits edits = .ok (t', log)

theorem applies_nil {t t' : Topology} : Applies t [] t' ↔ t' = t :=
  ⟨fun ⟨_, h⟩ => (congrArg Prod.fst (Except.ok.inj h)).symm, fun h => ⟨[], h ▸ rfl⟩⟩

theorem applies_cons {t t' : Topology} {e : Edit} {es : List Edit} :
    Applies t (e :: es) t' ↔ ∃ t₁ line, t.applyEdit e = .ok (t₁, line) ∧ Applies t₁ es t' := by
  unfold Applies
  rw [applyEdits_cons]
  constructor
  · rintro ⟨log, h⟩
    obtain ⟨r, hr, h⟩ := bind_eq_ok.mp h
    obtain ⟨s, hs, heq⟩ := map_eq_ok.mp h
    obtain ⟨rfl, -⟩ := Prod.mk.inj heq
    exact ⟨r.1, r.2, hr, s.2, hs⟩
  · rintro ⟨t₁, line, he, log, hes⟩
    exact ⟨line :: log, by rw [he]; simp only [Except.bind, hes]; rfl⟩

/-- Edits other than MTU changes, on other links of the same ends. -/
theorem applies_withLinks {es : List Edit} (hes : ∀ e ∈ es, e.isMtu = false) {t t' : Topology} {ls : List Link}
    (hends : ls.map (·.endpoints) = t.links.map (·.endpoints)) :
    Applies (t.withLinks ls) es t' ↔ ∃ s, Applies t es s ∧ t' = s.withLinks (linksAfter es ls) := by
  induction es generalizing t ls with
  | nil =>
    simp only [applies_nil, exists_eq_left]
    rfl
  | cons e es ih =>
    obtain ⟨he, hes⟩ := List.forall_mem_cons.mp hes
    simp only [applies_cons, applyEdit_withLinks hends he]
    have hnext : ∀ {t₁ line}, t.applyEdit e = .ok (t₁, line) →
        (Applies (t₁.withLinks (e.onLinks.apply ls)) es t' ↔
          ∃ s, Applies t₁ es s ∧ t' = s.withLinks (linksAfter (e :: es) ls)) := fun {t₁ line} h₁ =>
      ih hes (by rw [links_of_applyEdit he h₁]; exact map_endpoints_apply e hends)
    constructor
    · rintro ⟨t₂, line, h₂, hrest⟩
      obtain ⟨⟨t₁, line'⟩, h₁, heq⟩ := map_eq_ok.mp h₂
      obtain ⟨rfl, rfl⟩ := Prod.mk.inj heq
      obtain ⟨s, hs, rfl⟩ := (hnext h₁).mp hrest
      exact ⟨s, ⟨t₁, line', h₁, hs⟩, rfl⟩
    · rintro ⟨s, ⟨t₁, line, h₁, hs⟩, rfl⟩
      exact ⟨_, line, by rw [h₁]; rfl, (hnext h₁).mpr ⟨s, hs, rfl⟩⟩

theorem setMtu_eq_ok {t t₁ : Topology} {ep : String} {mtu : UInt32} :
    (∃ line, t.applyEdit (.setMtu ep mtu) = .ok (t₁, line)) ↔
      Finds t.links ep ∧ t₁ = t.withLinks ((Edit.setMtu ep mtu).onLinks.apply t.links) := by
  have happly : ∀ {k}, key ep = .ok k →
      (Edit.setMtu ep mtu).onLinks.apply t.links = t.links.map (Link.setMtuAt k mtu) := by
    intro k hk
    simp [Rewrite.apply, onLinks, hk, Except.toOption]
  unfold applyEdit setMtu Finds
  simp only [bind_eq_ok]
  constructor
  · rintro ⟨line, k, hk, h⟩
    cases hany : t.links.any (·.has k) with
    | false =>
      rw [hany] at h
      simp [bind, Except.bind, throw, throwThe, MonadExceptOf.throw] at h
    | true =>
      rw [hany] at h
      obtain ⟨l, hl, hhas⟩ := List.any_eq_true.mp hany
      refine ⟨⟨k, hk, l, hl, hhas⟩, ?_⟩
      rw [happly hk]
      exact (congrArg Prod.fst (Except.ok.inj h)).symm
  · rintro ⟨⟨k, hk, l, hl, hhas⟩, rfl⟩
    have hany : t.links.any (·.has k) = true := List.any_eq_true.mpr ⟨l, hl, hhas⟩
    exact ⟨_, k, hk, by rw [hany, happly hk]; rfl⟩

/-- Edits in order: those other than MTU changes do what they do alone, each MTU change
finds a link, and the links come to what the edits make of them. -/
theorem applies_iff {t t' : Topology} {edits : List Edit} :
    Applies t edits t' ↔ FoundInPlace t.links edits ∧
      ∃ s, Applies t (structuralEdits edits) s ∧ t' = s.withLinks (linksAfter edits t.links) := by
  induction edits generalizing t with
  | nil =>
    have hnil : FoundInPlace t.links [] := fun pre ep mtu post heq => absurd heq (by simp)
    have hself : t.withLinks (linksAfter [] t.links) = t := rfl
    rw [applies_nil]
    constructor
    · rintro rfl
      exact ⟨hnil, t', applies_nil.mpr rfl, hself.symm⟩
    · rintro ⟨-, s, hs, rfl⟩
      rw [applies_nil.mp hs]
      exact hself
  | cons e es ih =>
    rw [applies_cons, foundInPlace_cons]
    cases he : e.isMtu with
    | false =>
      have hstructural : structuralEdits (e :: es) = e :: structuralEdits es :=
        List.filter_cons_of_pos (by rw [he]; rfl)
      have hhead : ∀ ep mtu, e = .setMtu ep mtu → Finds t.links ep := by
        rintro ep mtu rfl
        cases he
      rw [hstructural]
      simp only [applies_cons, ih]
      constructor
      · rintro ⟨t₁, line, h₁, hfound, s, hs, rfl⟩
        rw [links_of_applyEdit he h₁] at hfound ⊢
        exact ⟨⟨hhead, hfound⟩, s, ⟨t₁, line, h₁, hs⟩, rfl⟩
      · rintro ⟨⟨-, hfound⟩, s, ⟨t₁, line, h₁, hs⟩, rfl⟩
        refine ⟨t₁, line, h₁, ?_, s, hs, ?_⟩
        · rwa [links_of_applyEdit he h₁]
        · rw [links_of_applyEdit he h₁]
          rfl
    | true =>
      obtain ⟨ep, mtu, rfl⟩ := exists_of_isMtu he
      have hstructural : structuralEdits (.setMtu ep mtu :: es) = structuralEdits es := rfl
      have hmtu : ∀ e ∈ structuralEdits es, e.isMtu = false := fun e he => by simpa using (List.mem_filter.mp he).2
      have hends := map_endpoints_setMtu ep mtu t.links
      rw [hstructural]
      constructor
      · rintro ⟨t₁, line, h₁, hrest⟩
        obtain ⟨hfinds, rfl⟩ := setMtu_eq_ok.mp ⟨line, h₁⟩
        obtain ⟨hfound, s, hs, rfl⟩ := ih.mp hrest
        obtain ⟨s', hs', rfl⟩ := (applies_withLinks hmtu hends).mp hs
        refine ⟨⟨?_, hfound⟩, s', hs', rfl⟩
        rintro _ _ ⟨⟩
        exact hfinds
      · rintro ⟨⟨hhead, hfound⟩, s, hs, rfl⟩
        obtain ⟨line, h₁⟩ := setMtu_eq_ok.mpr ⟨hhead ep mtu rfl, rfl⟩
        exact ⟨_, line, h₁, ih.mpr ⟨hfound, _, (applies_withLinks hmtu hends).mpr ⟨s, hs, rfl⟩, rfl⟩⟩

/-! ### The MTU changes first -/

theorem linkPeer_eq_ok {t : Topology} {ep : String} : (∃ peer, t.linkPeer ep = .ok peer) ↔ ∃ l ∈ t.links, l.has ep := by
  have hsome : (∃ l ∈ t.links, l.has ep) ↔ (t.links.findSome? fun l =>
      if l.endpoints.1 = ep then some l.endpoints.2
      else if l.endpoints.2 = ep then some l.endpoints.1 else none).isSome := by
    rw [List.findSome?_isSome_iff]
    refine exists_congr fun l => and_congr_right fun _ => ?_
    unfold Link.has
    split_ifs with ha hb <;> simp [*]
  rw [hsome]
  unfold linkPeer
  dsimp only
  cases (t.links.findSome? fun l =>
      if l.endpoints.1 = ep then some l.endpoints.2
      else if l.endpoints.2 = ep then some l.endpoints.1 else none) with
  | none => simp
  | some peer => simp

theorem mtuStep_eq_ok {d d' : Topology} {mtus : List (String × String × UInt32)} {log : List String} {ep : String}
    {mtu : UInt32} (hmtu : 68 ≤ mtu ∧ mtu ≤ 65535) :
    (∃ mtus' log', mtuStep (d, mtus, log) (.setMtu ep mtu) = .ok (d', mtus', log')) ↔
      Finds d.links ep ∧ d' = d.withLinks ((Edit.setMtu ep mtu).onLinks.apply d.links) := by
  have happly : ∀ {k}, key ep = .ok k →
      (Edit.setMtu ep mtu).onLinks.apply d.links = d.links.map (Link.setMtuAt k mtu) := by
    intro k hk
    simp [Rewrite.apply, onLinks, hk, Except.toOption]
  unfold Finds
  dsimp only [mtuStep]
  rw [if_neg (not_not.mpr hmtu)]
  constructor
  · rintro ⟨mtus', log', h⟩
    simp only [bind_eq_ok, pure_eq_ok] at h
    obtain ⟨k, hk, peer, hpeer, heq⟩ := h
    refine ⟨⟨k, hk, linkPeer_eq_ok.mp ⟨peer, hpeer⟩⟩, ?_⟩
    rw [happly hk]
    exact (congrArg Prod.fst heq).symm
  · rintro ⟨⟨k, hk, hl⟩, rfl⟩
    obtain ⟨peer, hpeer⟩ := linkPeer_eq_ok.mpr hl
    simp only [bind_eq_ok, pure_eq_ok]
    refine ⟨mtus ++ [(k, peer, mtu)], log ++ ["set mtu " ++ toString mtu ++ " on " ++ k ++ " and " ++ peer],
      k, hk, peer, hpeer, ?_⟩
    rw [happly hk]
    rfl

/-- Whether the MTUs of a list of edits are in range. -/
def MtusInRange (edits : List Edit) : Prop := ∀ ep mtu, .setMtu ep mtu ∈ edits → 68 ≤ mtu ∧ mtu ≤ 65535

theorem mtuPass_eq_ok {edits : List Edit} (hmtus : MtusInRange edits) {d d' : Topology}
    {mtus : List (String × String × UInt32)} {log : List String} :
    (∃ mtus' log', edits.foldlM mtuStep (d, mtus, log) = .ok (d', mtus', log')) ↔
      FoundAtFirst d.links edits ∧ d' = d.withLinks (d.links.map (Rewrite.changed (edits.map onLinks))) := by
  induction edits generalizing d mtus log with
  | nil =>
    have hself : d.withLinks (d.links.map id) = d := by rw [List.map_id]; rfl
    constructor
    · rintro ⟨_, _, h⟩
      refine ⟨fun _ _ hmem => absurd hmem List.not_mem_nil, ?_⟩
      exact (congrArg Prod.fst (Except.ok.inj h)).symm.trans hself.symm
    · rintro ⟨-, rfl⟩
      exact ⟨mtus, log, congrArg (fun t => Except.ok (t, mtus, log)) hself.symm⟩
  | cons e es ih =>
    have htail : MtusInRange es := fun ep mtu hmem => hmtus ep mtu (List.mem_cons_of_mem _ hmem)
    rw [List.foldlM_cons]
    cases he : e.isMtu with
    | false =>
      have hstep : mtuStep (d, mtus, log) e = .ok (d, mtus, log) := by
        cases e
        case setMtu => cases he
        all_goals rfl
      have hfound : FoundAtFirst d.links (e :: es) ↔ FoundAtFirst d.links es := by
        refine forall₂_congr fun ep mtu => ?_
        have hne : Edit.setMtu ep mtu ≠ e := by
          rintro rfl
          cases he
        rw [List.mem_cons, or_iff_right hne]
      rw [hstep, hfound, List.map_cons]
      have hchanged : Rewrite.changed (e.onLinks :: es.map onLinks) = Rewrite.changed (es.map onLinks) := by
        funext l
        rw [Rewrite.changed_cons, change_onLinks_of_not_isMtu he]
        rfl
      rw [hchanged]
      exact ih htail
    | true =>
      obtain ⟨ep, mtu, rfl⟩ := exists_of_isMtu he
      have hstep := fun d' => @mtuStep_eq_ok d d' mtus log ep mtu (hmtus ep mtu List.mem_cons_self)
      have hlinks : (Edit.setMtu ep mtu).onLinks.apply d.links = d.links.map (Edit.setMtu ep mtu).onLinks.change := by
        simp [Rewrite.apply, onLinks]
      have hends := map_endpoints_setMtu ep mtu d.links
      have hfound : FoundAtFirst d.links (.setMtu ep mtu :: es) ↔
          Finds d.links ep ∧ FoundAtFirst ((Edit.setMtu ep mtu).onLinks.apply d.links) es := by
        constructor
        · exact fun h => ⟨h ep mtu List.mem_cons_self, fun ep' mtu' hmem =>
            (h ep' mtu' (List.mem_cons_of_mem _ hmem)).congr hends.symm⟩
        · rintro ⟨hhead, hrest⟩ ep' mtu' hmem
          rcases List.mem_cons.mp hmem with heq | hmem
          · cases heq
            exact hhead
          · exact (hrest ep' mtu' hmem).congr hends
      have hchanged : d.links.map (Rewrite.changed ((Edit.setMtu ep mtu :: es).map onLinks)) =
          ((Edit.setMtu ep mtu).onLinks.apply d.links).map (Rewrite.changed (es.map onLinks)) := by
        rw [hlinks, List.map_map]
        rfl
      rw [hfound, hchanged]
      constructor
      · rintro ⟨mtus', log', h⟩
        obtain ⟨⟨d₁, mtus₁, log₁⟩, h₁, h⟩ := bind_eq_ok.mp h
        obtain ⟨hfinds, rfl⟩ := (hstep d₁).mp ⟨mtus₁, log₁, h₁⟩
        obtain ⟨hrest, rfl⟩ := (ih htail).mp ⟨mtus', log', h⟩
        exact ⟨⟨hfinds, hrest⟩, rfl⟩
      · rintro ⟨⟨hfinds, hrest⟩, rfl⟩
        obtain ⟨mtus₁, log₁, h₁⟩ := (hstep _).mpr ⟨hfinds, rfl⟩
        obtain ⟨mtus', log', h⟩ := (@ih htail (d.withLinks _) mtus₁ log₁).mpr ⟨hrest, rfl⟩
        exact ⟨mtus', log', bind_eq_ok.mpr ⟨_, h₁, h⟩⟩

/-! ### What the validator finds -/

variable {nl : Nlink} {vals : Values} {others : Topology → List ValidationIssue}

/-- Rules that refuse no topology for the MTU of a link. -/
def MtuBlind (others : Topology → List ValidationIssue) : Prop :=
  ∀ t : Topology, (others t.mtuless).all (·.severity ≠ .error) = (others t).all (·.severity ≠ .error)

theorem accepts_withLinks (hothers : MtuBlind others) {t : Topology} {ls : List Link}
    (h : ls.map clearMtu = t.links.map clearMtu) :
    (t.withLinks ls).accepts nl vals others = t.accepts nl vals others := by
  have hmtuless : ∀ t : Topology, t.mtuless.accepts nl vals others = t.accepts nl vals others := by
    intro t
    unfold accepts issues
    rw [List.all_append, List.all_append, Validator.validate_mtuless, hothers]
  have hsame : (t.withLinks ls).mtuless = t.mtuless := congrArg t.withLinks h
  rw [← hmtuless, hsame, hmtuless]

theorem accepts_iff_filter {t : Topology} : t.accepts nl vals others ↔
    ((t.issues nl vals others).filter (·.severity = .error)).isEmpty := by
  unfold accepts
  rw [List.isEmpty_iff, List.filter_eq_nil_iff, List.all_eq_true]
  simp only [decide_eq_true_eq]

/-- What an MTU pass and the edits after it come to. -/
theorem edited_eq_ok {t : Topology} {edits : List Edit} {ed : Edited} :
    t.edited nl vals others edits = .ok ed ↔ edits ≠ [] ∧ ∃ d mtus log,
      edits.foldlM mtuStep (t, [], []) = .ok (d, mtus, log) ∧
        (structuralEdits edits = [] ∧ ed = ⟨d, log, [], mtus, false⟩ ∨
          structuralEdits edits ≠ [] ∧ ∃ s lines, d.applyEdits (structuralEdits edits) = .ok (s, lines) ∧
            s.accepts nl vals others ∧ ed = ⟨s, log ++ lines,
              ((s.issues nl vals others).filter (·.severity = .warning)).map (·.display), mtus, true⟩) := by
  unfold edited
  cases hempty : edits.isEmpty with
  | true =>
    refine ⟨fun h => ?_, fun h => absurd (List.isEmpty_iff.mp hempty) h.1⟩
    simp [throw, throwThe, MonadExceptOf.throw, bind, Except.bind] at h
  | false =>
    have hne : edits ≠ [] := by simpa using hempty
    simp only [Bool.false_eq_true, if_false, bind_eq_ok, hne, ne_eq, not_false_eq_true, true_and, Prod.exists]
    refine exists₃_congr fun d mtus log => and_congr_right fun _ => ?_
    by_cases hnone : structuralEdits edits = []
    · rw [hnone]
      constructor
      · exact fun h => .inl ⟨rfl, (pure_eq_ok.mp h).symm⟩
      · rintro (⟨-, rfl⟩ | ⟨h, -⟩)
        · rfl
        · exact absurd rfl h
    · have hfalse : (structuralEdits edits).isEmpty = false := by simpa using hnone
      rw [hfalse]
      simp only [hnone, Bool.false_eq_true, if_false, bind_eq_ok, Prod.exists, not_false_eq_true, true_and, false_and,
        false_or]
      refine exists₂_congr fun s lines => and_congr_right fun _ => ?_
      rw [accepts_iff_filter]
      cases ((s.issues nl vals others).filter (·.severity = .error)).isEmpty with
      | true =>
        simp only [Bool.not_true, Bool.false_eq_true, if_false, true_and]
        exact pure_eq_ok.trans eq_comm
      | false => simp [throw, throwThe, MonadExceptOf.throw, bind, Except.bind]

/-- The MTU changes are made on the links there are at first, then the other edits. -/
theorem edited_iff (hothers : MtuBlind others) {t t' : Topology} {edits : List Edit} (ht : t.accepts nl vals others)
    (hne : edits ≠ []) (hmtus : MtusInRange edits) :
    (∃ ed, t.edited nl vals others edits = .ok ed ∧ ed.topology = t') ↔
      FoundAtFirst t.links edits ∧ t'.accepts nl vals others ∧ ∃ s, Applies t (structuralEdits edits) s ∧
        t' = s.withLinks
          (linksAfter (structuralEdits edits) (t.links.map (Rewrite.changed (edits.map onLinks)))) := by
  have hmtu : ∀ e ∈ structuralEdits edits, e.isMtu = false := fun e he => by simpa using (List.mem_filter.mp he).2
  have hends : (t.links.map (Rewrite.changed (edits.map onLinks))).map (·.endpoints) = t.links.map (·.endpoints) := by
    rw [List.map_map]
    refine List.map_congr_left fun l _ => ?_
    obtain ⟨mtu, h⟩ := changed_eq edits l
    rw [Function.comp_apply, h]
  have hclear := map_clearMtu_changed edits t.links
  have hpass := fun d => @mtuPass_eq_ok edits hmtus t d [] []
  have hstructural := fun t' => @applies_withLinks _ hmtu t t' _ hends
  constructor
  · rintro ⟨ed, hed, rfl⟩
    obtain ⟨-, d, mtus, log, hfold, ⟨hnone, rfl⟩ | ⟨-, s', lines, hs', hvalid, rfl⟩⟩ := edited_eq_ok.mp hed
    · obtain ⟨hfound, rfl⟩ := (hpass d).mp ⟨mtus, log, hfold⟩
      refine ⟨hfound, ?_, t, ?_, ?_⟩
      · rw [accepts_withLinks hothers hclear]
        exact ht
      · rw [hnone]
        exact applies_nil.mpr rfl
      · rw [hnone]
        rfl
    · obtain ⟨hfound, rfl⟩ := (hpass d).mp ⟨mtus, log, hfold⟩
      obtain ⟨s, hs, heq⟩ := (hstructural s').mp ⟨lines, hs'⟩
      exact ⟨hfound, hvalid, s, hs, heq⟩
  · rintro ⟨hfound, hvalid, s, hs, heq⟩
    obtain ⟨mtus, log, hfold⟩ := (hpass _).mpr ⟨hfound, rfl⟩
    by_cases hnone : structuralEdits edits = []
    · refine ⟨_, edited_eq_ok.mpr ⟨hne, _, mtus, log, hfold, .inl ⟨hnone, rfl⟩⟩, ?_⟩
      rw [hnone] at hs heq
      rw [heq, applies_nil.mp hs]
      rfl
    · obtain ⟨lines, hlines⟩ := (hstructural t').mpr ⟨s, hs, heq⟩
      exact ⟨_, edited_eq_ok.mpr ⟨hne, _, mtus, log, hfold, .inr ⟨hnone, t', lines, hlines, hvalid, rfl⟩⟩, rfl⟩

/-- The edits compose in list order: `edited` gives a topology exactly when the edits made
one after another give it and the validator accepts it. -/
def Composes (nl : Nlink) (vals : Values) (others : Topology → List ValidationIssue) (t : Topology)
    (edits : List Edit) : Prop :=
  ∀ t', (∃ ed, t.edited nl vals others edits = .ok ed ∧ ed.topology = t') ↔
    Applies t edits t' ∧ t'.accepts nl vals others

/-- The edits compose in list order exactly when, where the edits other than MTU changes
come to a valid topology, the MTU changes find links in their places just when they find
some at first, and no link that is added and stays has its MTU changed later. -/
theorem edited_composes_iff (hothers : MtuBlind others) {t : Topology} {edits : List Edit} (ht : t.accepts nl vals others)
    (hne : edits ≠ []) (hmtus : MtusInRange edits) :
    Composes nl vals others t edits ↔
      ∀ s, Applies t (structuralEdits edits) s → s.accepts nl vals others →
        (FoundAtFirst t.links edits ↔ FoundInPlace t.links edits) ∧
          (FoundInPlace t.links edits → AddedUntouched edits) := by
  have hmtu : ∀ e ∈ structuralEdits edits, e.isMtu = false := fun e he => by simpa using (List.mem_filter.mp he).2
  -- the links of the result, without their MTUs, are those of the other edits alone
  have hstructural : ∀ {s}, Applies t (structuralEdits edits) s → s.links = linksAfter (structuralEdits edits) t.links := by
    intro s hs
    obtain ⟨s', hs', heq⟩ := (applies_withLinks hmtu (rfl : t.links.map (·.endpoints) = _)).mp hs
    rw [heq]
    rfl
  have hunique : ∀ {s s'}, Applies t (structuralEdits edits) s → Applies t (structuralEdits edits) s' → s = s' := by
    rintro s s' ⟨log, h⟩ ⟨log', h'⟩
    rw [h] at h'
    exact congrArg Prod.fst (Except.ok.inj h')
  have hclear : (t.links.map (Rewrite.changed (edits.map onLinks))).map clearMtu = t.links.map clearMtu :=
    map_clearMtu_changed edits t.links
  have htwice : structuralEdits (structuralEdits edits) = structuralEdits edits := by
    unfold structuralEdits
    rw [List.filter_filter]
    simp only [Bool.and_self]
  have hfirst : ∀ {s}, Applies t (structuralEdits edits) s →
      (s.withLinks (linksAfter (structuralEdits edits) (t.links.map (Rewrite.changed (edits.map onLinks))))).accepts
        nl vals others = s.accepts nl vals others := by
    intro s hs
    refine accepts_withLinks hothers ?_
    rw [hstructural hs, map_clearMtu_linksAfter, map_clearMtu_linksAfter, hclear]
  have hplace : ∀ {s}, Applies t (structuralEdits edits) s →
      (s.withLinks (linksAfter edits t.links)).accepts nl vals others = s.accepts nl vals others := by
    intro s hs
    refine accepts_withLinks hothers ?_
    rw [hstructural hs, map_clearMtu_linksAfter, map_clearMtu_linksAfter, htwice]
  have hsame : linksAfter edits t.links =
      linksAfter (structuralEdits edits) (t.links.map (Rewrite.changed (edits.map onLinks))) ↔ AddedUntouched edits := by
    rw [linksAfter_structuralEdits, ← addsStay_iff]
    exact Rewrite.applyAll_eq_hoisted_iff (steady edits) t.links
  constructor
  · intro h s hs hvalid
    have hplaced : FoundInPlace t.links edits → FoundAtFirst t.links edits ∧ AddedUntouched edits := by
      intro hfound
      have hboth := (h _).mpr ⟨applies_iff.mpr ⟨hfound, s, hs, rfl⟩, (hplace hs).trans hvalid⟩
      obtain ⟨hat, -, s', hs', heq⟩ := (edited_iff hothers ht hne hmtus).mp hboth
      obtain rfl := hunique hs hs'
      exact ⟨hat, hsame.mp (congrArg Topology.links heq)⟩
    refine ⟨⟨fun hfound => ?_, fun hfound => (hplaced hfound).1⟩, fun hfound => (hplaced hfound).2⟩
    have hedited := (edited_iff hothers ht hne hmtus).mpr ⟨hfound, (hfirst hs).trans hvalid, s, hs, rfl⟩
    exact (applies_iff.mp ((h _).mp hedited).1).1
  · intro h t'
    rw [edited_iff hothers ht hne hmtus, applies_iff]
    constructor
    · rintro ⟨hfound, hvalid, s, hs, rfl⟩
      obtain ⟨hiff, huntouched⟩ := h s hs ((hfirst hs).symm.trans hvalid)
      refine ⟨⟨hiff.mp hfound, s, hs, ?_⟩, hvalid⟩
      rw [hsame.mpr (huntouched (hiff.mp hfound))]
    · rintro ⟨⟨hfound, s, hs, rfl⟩, hvalid⟩
      obtain ⟨hiff, huntouched⟩ := h s hs ((hplace hs).symm.trans hvalid)
      refine ⟨hiff.mpr hfound, hvalid, s, hs, ?_⟩
      rw [hsame.mpr (huntouched hfound)]

end Topology

/-- Two nodes, and the links given. -/
def twoNodes (links : List Link) : Topology where
  lab := { name := "t" }
  nodes := ((∅ : BTreeMap String Node).insert "a" {}).insert "b" {}
  links := links

namespace Topology

open Edit

theorem edited_composes_iff_link : Composes Plan.Env.sample.nl Plan.Env.sample.vals (fun _ => [])
    (twoNodes [{ endpoints := ("a:eth0", "b:eth0") }]) [.setMtu "a:eth0" 1280, .removeLink "b:eth0"] := by
  have hfinds : Finds (twoNodes [{ endpoints := ("a:eth0", "b:eth0") }]).links "a:eth0" :=
    ⟨"a:eth0", rfl, _, List.mem_cons_self, rfl⟩
  refine (edited_composes_iff (fun _ => rfl) (by decide +kernel) (by simp) ?_).mpr fun s _ _ => ⟨?_, fun _ => ?_⟩
  · intro ep mtu h
    simp only [List.mem_cons, Edit.setMtu.injEq, reduceCtorEq, List.not_mem_nil, or_false] at h
    rw [h.2]
    decide
  · refine iff_of_true (fun ep mtu h => ?_) (foundInPlace_cons.mpr ⟨fun ep mtu h => ?_, foundInPlace_cons.mpr
      ⟨nofun, fun pre ep mtu post h => absurd h (by simp)⟩⟩)
    · simp only [List.mem_cons, Edit.setMtu.injEq, reduceCtorEq, List.not_mem_nil, or_false] at h
      rw [h.1]
      exact hfinds
    · obtain ⟨rfl, -⟩ := Edit.setMtu.inj h
      exact hfinds
  · intro pre a b addresses post link h
    have hmem : Edit.addLink a b addresses ∈ [Edit.setMtu "a:eth0" 1280, .removeLink "b:eth0"] := by
      rw [h]
      simp
    simp at hmem

/-- A link is added and its MTU set: in order both are done, but `edited` looks for the link
before it is there. -/
theorem edited_refuses_added :
    (twoNodes []).accepts Plan.Env.sample.nl Plan.Env.sample.vals (fun _ => []) ∧
      (∃ log, (twoNodes []).applyEdits [.addLink "a:eth0" "b:eth0" none, .setMtu "a:eth0" 1280] =
        .ok (twoNodes [{ endpoints := ("a:eth0", "b:eth0"), mtu := some 1280 }], log)) ∧
      (twoNodes []).edited Plan.Env.sample.nl Plan.Env.sample.vals (fun _ => [])
        [.addLink "a:eth0" "b:eth0" none, .setMtu "a:eth0" 1280] =
          .error (.invalidArgument "no link has endpoint 'a:eth0'") ∧
      ¬Composes Plan.Env.sample.nl Plan.Env.sample.vals (fun _ => []) (twoNodes [])
        [.addLink "a:eth0" "b:eth0" none, .setMtu "a:eth0" 1280] := by
  have hrefused : (twoNodes []).edited Plan.Env.sample.nl Plan.Env.sample.vals (fun _ => [])
      [.addLink "a:eth0" "b:eth0" none, .setMtu "a:eth0" 1280] =
        .error (.invalidArgument "no link has endpoint 'a:eth0'") := rfl
  refine ⟨by decide +kernel, ⟨_, rfl⟩, hrefused, fun h => ?_⟩
  obtain ⟨ed, hed, -⟩ := (h (twoNodes [{ endpoints := ("a:eth0", "b:eth0"), mtu := some 1280 }])).mpr
    ⟨⟨_, rfl⟩, by decide +kernel⟩
  rw [hrefused] at hed
  cases hed

end Topology

end NlinkLab
