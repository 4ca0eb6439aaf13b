import NlinkLab.Data.Fallible
import NlinkLab.Data.Rewrites
import NlinkLab.Edit

/-! What an edit does to the links of a topology, and what it does to a topology with
other links of the same ends: MTU changes apart, it reads no link's MTU. -/

namespace NlinkLab

open Fallible

namespace Edit

/-! ### What an edit does to the links -/

/-- Without its MTU. -/
def clearMtu (l : Link) : Link := { l with mtu := none }

/-- What an edit that succeeds does to the links of a topology. -/
def onLinks : Edit → Rewrite Link
  | .addLink a b addresses => { keep := fun _ => true, change := id, adds := (newLink a b addresses).toOption.toList }
  | .removeLink ep => { keep := fun l => !(key ep).toOption.any l.has, change := id, adds := [] }
  | .removeNode name => { keep := fun l => !Edit.touches name l, change := id, adds := [] }
  | .setMtu ep mtu =>
    { keep := fun _ => true, change := fun l => (key ep).toOption.elim l fun k => l.setMtuAt k mtu, adds := [] }
  | _ => { keep := fun _ => true, change := id, adds := [] }

/-- The links that edits leave. -/
def linksAfter (edits : List Edit) (links : List Link) : List Link := Rewrite.applyAll (edits.map onLinks) links

theorem keep_onLinks_congr (e : Edit) {l l' : Link} (h : l.endpoints = l'.endpoints) :
    e.onLinks.keep l = e.onLinks.keep l' := by
  have hhas : l.has = l'.has := by
    funext k
    unfold Link.has
    rw [h]
  cases e <;> simp only [onLinks, Edit.touches, h, hhas]

theorem exists_of_isMtu {e : Edit} (h : e.isMtu = true) : ∃ ep mtu, e = .setMtu ep mtu := by
  cases e
  case setMtu ep mtu => exact ⟨ep, mtu, rfl⟩
  all_goals cases h

theorem change_onLinks_of_not_isMtu {e : Edit} (h : e.isMtu = false) : e.onLinks.change = id := by
  cases e
  case setMtu => cases h
  all_goals rfl

theorem change_onLinks_eq (e : Edit) (l : Link) : ∃ mtu, e.onLinks.change l = { l with mtu } := by
  cases e with
  | setMtu ep mtu =>
    unfold onLinks
    dsimp only
    cases (key ep).toOption with
    | none => exact ⟨l.mtu, rfl⟩
    | some k =>
      rw [Option.elim_some, Link.setMtuAt]
      split
      · exact ⟨some mtu, rfl⟩
      · exact ⟨l.mtu, rfl⟩
  | _ => exact ⟨l.mtu, rfl⟩

theorem changed_eq (edits : List Edit) (l : Link) : ∃ mtu, Rewrite.changed (edits.map onLinks) l = { l with mtu } := by
  induction edits generalizing l with
  | nil => exact ⟨l.mtu, rfl⟩
  | cons e es ih =>
    obtain ⟨mtu, h⟩ := change_onLinks_eq e l
    obtain ⟨mtu', h'⟩ := ih (e.onLinks.change l)
    rw [h] at h'
    exact ⟨mtu', by rw [List.map_cons, Rewrite.changed_cons, h, h']⟩

theorem map_clearMtu_changed (edits : List Edit) (ls : List Link) :
    (ls.map (Rewrite.changed (edits.map onLinks))).map clearMtu = ls.map clearMtu := by
  rw [List.map_map]
  refine List.map_congr_left fun l _ => ?_
  obtain ⟨mtu, h⟩ := changed_eq edits l
  rw [Function.comp_apply, h]
  rfl

theorem steady (edits : List Edit) : Rewrite.Steady (edits.map onLinks) := by
  intro r hr r' hr' l
  obtain ⟨e, -, rfl⟩ := List.mem_map.mp hr
  obtain ⟨e', -, rfl⟩ := List.mem_map.mp hr'
  obtain ⟨mtu, h⟩ := change_onLinks_eq e l
  refine keep_onLinks_congr e' ?_
  rw [h]

theorem clearMtu_adds {e : Edit} {l : Link} (h : l ∈ e.onLinks.adds) : clearMtu l = l := by
  cases e with
  | addLink a b addresses =>
    have hl : newLink a b addresses = .ok l := by
      unfold onLinks at h
      dsimp only at h
      cases hnew : newLink a b addresses with
      | error _ =>
        rw [hnew] at h
        cases h
      | ok link =>
        rw [hnew] at h
        rw [List.mem_singleton.mp h]
    unfold newLink at hl
    simp only [bind_eq_ok, pure_eq_ok] at hl
    obtain ⟨_, _, _, _, rfl⟩ := hl
    rfl
  | _ => cases h

/-- Whoever forgets the MTUs cannot tell the MTU changes. -/
theorem map_clearMtu_apply (e : Edit) (ls : List Link) :
    (e.onLinks.apply ls).map clearMtu = e.onLinks.still.apply (ls.map clearMtu) := by
  have hkeep : e.onLinks.keep ∘ clearMtu = e.onLinks.keep := funext fun l => keep_onLinks_congr e rfl
  have hchange : clearMtu ∘ e.onLinks.change = clearMtu := by
    funext l
    obtain ⟨mtu, h⟩ := change_onLinks_eq e l
    rw [Function.comp_apply, h]
    rfl
  have hadds : e.onLinks.adds.map clearMtu = e.onLinks.adds := by
    have hid : e.onLinks.adds.map clearMtu = e.onLinks.adds.map id := List.map_congr_left fun l hl => clearMtu_adds hl
    rwa [List.map_id] at hid
  simp only [Rewrite.apply, Rewrite.still, List.map_append, List.map_map, List.filter_map, hkeep, hchange, hadds,
    Function.id_comp]

/-- The edits other than MTU changes are the steps without their changes. -/
theorem linksAfter_structuralEdits (edits : List Edit) (ls : List Link) :
    linksAfter (structuralEdits edits) ls = Rewrite.applyAll ((edits.map onLinks).map Rewrite.still) ls := by
  induction edits generalizing ls with
  | nil => rfl
  | cons e es ih =>
    rw [List.map_cons, List.map_cons, Rewrite.applyAll_cons, ← ih]
    unfold structuralEdits
    rw [List.filter_cons]
    cases hmtu : e.isMtu with
    | true =>
      obtain ⟨ep, mtu, rfl⟩ := exists_of_isMtu hmtu
      have hsame : (setMtu ep mtu).onLinks.still.apply ls = ls := by
        simp [Rewrite.apply, Rewrite.still, onLinks]
      rw [hsame]
      rfl
    | false =>
      have hsame : e.onLinks.still = e.onLinks := by
        unfold Rewrite.still
        rw [← change_onLinks_of_not_isMtu hmtu]
      rw [hsame]
      rfl

/-- Whoever forgets the MTUs sees the edits other than MTU changes. -/
theorem map_clearMtu_linksAfter (edits : List Edit) (ls : List Link) :
    (linksAfter edits ls).map clearMtu = linksAfter (structuralEdits edits) (ls.map clearMtu) := by
  rw [linksAfter_structuralEdits]
  induction edits generalizing ls with
  | nil => rfl
  | cons e es ih =>
    have h := ih (e.onLinks.apply ls)
    rw [map_clearMtu_apply] at h
    exact h

theorem map_endpoints_setMtu (ep : String) (mtu : UInt32) (ls : List Link) :
    ((Edit.setMtu ep mtu).onLinks.apply ls).map (·.endpoints) = ls.map (·.endpoints) := by
  have hchange : (fun l : Link => l.endpoints) ∘ (Edit.setMtu ep mtu).onLinks.change = fun l => l.endpoints := by
    funext l
    obtain ⟨m, hm⟩ := change_onLinks_eq (.setMtu ep mtu) l
    rw [Function.comp_apply, hm]
  rw [Rewrite.apply, List.map_append, List.map_map, hchange]
  simp [onLinks]

theorem map_endpoints_apply {ls ls' : List Link} (e : Edit)
    (h : ls.map (·.endpoints) = ls'.map (·.endpoints)) :
    (e.onLinks.apply ls).map (·.endpoints) = (e.onLinks.apply ls').map (·.endpoints) := by
  have heq : ∀ ls, (e.onLinks.apply ls).map (·.endpoints) =
      ((ls.map (·.endpoints)).filter fun ends => e.onLinks.keep { endpoints := ends }) ++
        e.onLinks.adds.map (·.endpoints) := by
    intro ls
    have hchange : (fun l : Link => l.endpoints) ∘ e.onLinks.change = fun l => l.endpoints := by
      funext l
      obtain ⟨mtu, hmtu⟩ := change_onLinks_eq e l
      rw [Function.comp_apply, hmtu]
    have hkeep : (fun ends => e.onLinks.keep { endpoints := ends }) ∘ (fun l : Link => l.endpoints) = e.onLinks.keep :=
      funext fun l => keep_onLinks_congr e rfl
    rw [Rewrite.apply, List.map_append, List.map_map, hchange, List.filter_map, hkeep]
  rw [heq, heq, h]

theorem linkEnds_congr {ls ls' : List Link} (h : ls.map (·.endpoints) = ls'.map (·.endpoints)) {p : Link → Bool}
    (hp : ∀ l l', l.endpoints = l'.endpoints → p l = p l') : linkEnds ls p = linkEnds ls' p := by
  have heq : ∀ ls, linkEnds ls p = ((ls.map (·.endpoints)).filter fun ends => p { endpoints := ends }).flatMap
      fun ends => [ends.1, ends.2] := by
    intro ls
    unfold linkEnds
    rw [List.filter_map, List.flatMap_map]
    refine congrArg (List.flatMap _) (List.filter_congr fun l _ => ?_)
    exact hp _ _ rfl
  rw [heq, heq, h]

end Edit

namespace Topology

open Edit

/-! ### One edit -/

/-- The topology with other links. -/
def withLinks (t : Topology) (ls : List Link) : Topology := { t with links := ls }

theorem dropLinkEnds_withLinks (t : Topology) (ls : List Link) (ends : List String) :
    (t.withLinks ls).dropLinkEnds ends = (t.dropLinkEnds ends).withLinks ls := by
  induction ends generalizing t with
  | nil => rfl
  | cons e ends ih =>
    exact ih { t with
      impairments := t.impairments.erase e, rateLimits := t.rateLimits.erase e, qdiscs := t.qdiscs.erase e }

theorem apply_of_unchanged (ls : List Link) :
    ({ keep := fun _ => true, change := id, adds := [] } : Rewrite Link).apply ls = ls := by
  simp [Rewrite.apply]

section

variable (t : Topology) (ls : List Link)

theorem addNode_withLinks (name : String) (profile : Option String) :
    (t.withLinks ls).addNode name profile = (t.addNode name profile).map (·.withLinks ls) := by
  unfold addNode
  by_cases h : t.nodes.contains name
  · have h' : (t.withLinks ls).nodes.contains name := h
    rw [if_pos h', if_pos h]
    rfl
  · have h' : ¬(t.withLinks ls).nodes.contains name := h
    rw [if_neg h', if_neg h]
    cases profile with
    | none => rfl
    | some p =>
      dsimp only
      by_cases hp : t.profiles.contains p
      · have hp' : (t.withLinks ls).profiles.contains p := hp
        rw [if_pos hp', if_pos hp]
        rfl
      · have hp' : ¬(t.withLinks ls).profiles.contains p := hp
        rw [if_neg hp', if_neg hp]
        rfl

theorem removeNode_withLinks (hends : ls.map (·.endpoints) = t.links.map (·.endpoints)) (name : String) :
    (t.withLinks ls).removeNode name =
      (t.removeNode name).map (·.withLinks (ls.filter fun l => !Edit.touches name l)) := by
  have hlinks : linkEnds ls (Edit.touches name) = linkEnds t.links (Edit.touches name) :=
    linkEnds_congr hends fun l l' hl => by
      unfold Edit.touches
      rw [hl]
  have hdrop := dropLinkEnds_withLinks
    { t with nodes := t.nodes.erase name, links := t.links.filter fun l => !Edit.touches name l }
    (ls.filter fun l => !Edit.touches name l) (linkEnds t.links (Edit.touches name))
  by_cases h : t.nodes.contains name
  · have h' : (t.withLinks ls).nodes.contains name := h
    have hlinks' : linkEnds (t.withLinks ls).links (Edit.touches name) = linkEnds t.links (Edit.touches name) := hlinks
    rw [removeNode, removeNode, h, h', hlinks']
    dsimp only [withLinks] at hdrop ⊢
    rw [hdrop]
    rfl
  · have h : t.nodes.contains name = false := Bool.eq_false_iff.mpr h
    have h' : (t.withLinks ls).nodes.contains name = false := h
    rw [removeNode, removeNode, h', h]
    rfl

theorem addLink_withLinks (a b : String) (addresses : Option (String × String)) :
    (t.withLinks ls).addLink a b addresses = (t.addLink a b addresses).map fun r =>
      (r.1.withLinks ((Edit.addLink a b addresses).onLinks.apply ls), r.2) := by
  simp only [addLink, onLinks]
  cases newLink a b addresses with
  | error err => rfl
  | ok link =>
    have hcheck : ∀ ep, (t.withLinks ls).checkNode ep = t.checkNode ep := fun _ => rfl
    have hlinks : ({ keep := fun _ => true, change := id, adds := [link] } : Rewrite Link).apply ls = ls ++ [link] := by
      simp [Rewrite.apply]
    simp only [bind, Except.bind, hcheck, Except.toOption, Option.toList, hlinks]
    cases t.checkNode link.endpoints.1 with
    | error err => rfl
    | ok _ =>
      cases t.checkNode link.endpoints.2 with
      | error err => rfl
      | ok _ => rfl

theorem removeLink_withLinks (hends : ls.map (·.endpoints) = t.links.map (·.endpoints)) (ep : String) :
    (t.withLinks ls).removeLink ep = (t.removeLink ep).map fun r =>
      (r.1.withLinks ((Edit.removeLink ep).onLinks.apply ls), r.2) := by
  simp only [removeLink, onLinks]
  cases key ep with
  | error err => rfl
  | ok k =>
    have hends : linkEnds (t.withLinks ls).links (·.has k) = linkEnds t.links (·.has k) :=
      linkEnds_congr hends fun l l' hl => by
        unfold Link.has
        rw [hl]
    have hlinks : ({ keep := fun l => !l.has k, change := id, adds := [] } : Rewrite Link).apply ls =
        ls.filter fun l => !l.has k := by
      simp [Rewrite.apply]
    have hdrop := dropLinkEnds_withLinks { t with links := t.links.filter fun l => !l.has k }
      (ls.filter fun l => !l.has k) (linkEnds t.links (·.has k))
    simp only [bind, Except.bind, Except.toOption, Option.any_some, hlinks, hends]
    cases (linkEnds t.links (·.has k)).isEmpty with
    | true => rfl
    | false =>
      dsimp only [withLinks] at hdrop ⊢
      simp only [Bool.false_eq_true, if_false, hdrop]
      rfl

theorem clear_withLinks (ep : String) :
    (t.withLinks ls).clearImpairment ep = (t.clearImpairment ep).map (fun r => (r.1.withLinks ls, r.2)) ∧
      (t.withLinks ls).clearQdisc ep = (t.clearQdisc ep).map fun r => (r.1.withLinks ls, r.2) := by
  unfold clearImpairment clearQdisc
  cases key ep with
  | error err => exact ⟨rfl, rfl⟩
  | ok k =>
    simp only [bind, Except.bind]
    constructor
    · have himps : (t.withLinks ls).impairments = t.impairments := rfl
      rw [himps]
      cases t.impairments.contains k <;> rfl
    · have hqdiscs : (t.withLinks ls).qdiscs = t.qdiscs := rfl
      rw [hqdiscs]
      cases t.qdiscs.contains k <;> rfl

theorem setPairImpairment_withLinks (network src dst : String) (impairment : Option Impairment)
    (rateCap : Option String) : (t.withLinks ls).setPairImpairment network src dst impairment rateCap =
      (t.setPairImpairment network src dst impairment rateCap).map fun r => (r.1.withLinks ls, r.2) := by
  unfold setPairImpairment
  have hnetworks : (t.withLinks ls).networks = t.networks := rfl
  rw [hnetworks]
  cases t.networks[network]? with
  | none => rfl
  | some net =>
    dsimp only
    cases impairment.isNone && rateCap.isNone <;>
      cases net.impairments.findIdx? (fun i => decide (i.src = src ∧ i.dst = dst)) <;> rfl

end

/-- An edit other than an MTU change reads where links end, and does to other links of
the same ends what it does to the topology's own. -/
theorem applyEdit_withLinks {t : Topology} {ls : List Link} {e : Edit}
    (hends : ls.map (·.endpoints) = t.links.map (·.endpoints)) (h : e.isMtu = false) :
    (t.withLinks ls).applyEdit e =
      (t.applyEdit e).map fun r => (r.1.withLinks (e.onLinks.apply ls), r.2) := by
  cases e with
  | addNode name profile =>
    simp only [applyEdit, addNode_withLinks, onLinks, apply_of_unchanged]
    cases t.addNode name profile <;> rfl
  | removeNode name =>
    have hlinks : (Edit.removeNode name).onLinks.apply ls = ls.filter fun l => !Edit.touches name l := by
      simp [Rewrite.apply, onLinks]
    simp only [applyEdit, removeNode_withLinks t ls hends, hlinks]
    cases t.removeNode name <;> rfl
  | addLink a b addresses => exact addLink_withLinks t ls a b addresses
  | removeLink ep => exact removeLink_withLinks t ls hends ep
  | setImpairment ep impairment =>
    simp only [applyEdit, onLinks, apply_of_unchanged]
    cases key ep <;> rfl
  | clearImpairment ep =>
    simp only [applyEdit, onLinks, apply_of_unchanged]
    exact (clear_withLinks t ls ep).1
  | setQdisc ep qdisc =>
    simp only [applyEdit, onLinks, apply_of_unchanged]
    cases key ep <;> rfl
  | clearQdisc ep =>
    simp only [applyEdit, onLinks, apply_of_unchanged]
    exact (clear_withLinks t ls ep).2
  | setPairImpairment network src dst impairment rateCap =>
    simp only [applyEdit, onLinks, apply_of_unchanged]
    exact setPairImpairment_withLinks t ls network src dst impairment rateCap
  | setMtu ep mtu => cases h

/-- What an edit other than an MTU change leaves of the links. -/
theorem links_of_applyEdit {t t' : Topology} {e : Edit} {line : String} (he : e.isMtu = false)
    (h : t.applyEdit e = .ok (t', line)) : t'.links = e.onLinks.apply t.links := by
  have heq := @applyEdit_withLinks t t.links e rfl he
  have hself : t.withLinks t.links = t := rfl
  rw [hself, h] at heq
  have ht : t' = t'.withLinks (e.onLinks.apply t.links) := congrArg Prod.fst (Except.ok.inj heq)
  rw [ht]
  rfl

end Topology

end NlinkLab
