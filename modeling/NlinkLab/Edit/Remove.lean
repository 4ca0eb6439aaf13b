import NlinkLab.Data.Changes
import NlinkLab.Edit.Mentions
import NlinkLab.Edit.Order
import NlinkLab.Net.Text
import NlinkLab.Validator.Endpoints

/-! Removing a node or a link. What the removal drops is mentioned no more, and the rest
is as it was; what it passes over stays, so that nothing of what is removed is mentioned
exactly when none of that mentioned it. -/

namespace NlinkLab

open Fallible

/-! ### Texts -/

theorem EndpointRef.eq_of_parse {s : String} {ep : EndpointRef} (h : EndpointRef.parse s = some ep) :
    ep.node ++ ":" ++ ep.iface = s := by
  unfold EndpointRef.parse splitOnce at h
  dsimp only at h
  rw [drop_length_takeWhile] at h
  split at h
  · cases h
  · rename_i node iface heq
    split at heq
    · cases heq
    · rename_i c rest hrest
      cases heq
      split_ifs at h
      cases h
      have hc : c = ':' := by
        have hne : s.toList.dropWhile (· ≠ ':') ≠ [] := by
          rw [hrest]
          exact List.cons_ne_nil c rest
        have hhead := List.head_dropWhile_not (p := (· ≠ ':')) hne
        simp only [hrest, List.head_cons] at hhead
        simpa using hhead
      have hsplit : s.toList.takeWhile (· ≠ ':') ++ s.toList.dropWhile (· ≠ ':') = s.toList :=
        List.takeWhile_append_dropWhile
      rw [hrest, hc] at hsplit
      apply String.toList_inj.mp
      refine Eq.trans ?_ hsplit
      simp

theorem hitsEndpoint_iff {R : Removed} {s : String} :
    R.hitsEndpoint s ↔ ∃ ep, EndpointRef.parse s = some ep ∧ (R.node = some ep.node ∨ s ∈ R.ends) := by
  unfold Removed.hitsEndpoint Ref.ofEndpoint
  cases h : EndpointRef.parse s with
  | none => simp
  | some ep =>
    have heq := EndpointRef.eq_of_parse h
    simp [Removed.hits, heq]

theorem onNode_iff {name s : String} : Edit.onNode name s ↔ ∃ ep, EndpointRef.parse s = some ep ∧ ep.node = name := by
  unfold Edit.onNode Edit.endpoint
  cases h : EndpointRef.parse s with
  | none => simp [Except.toOption]
  | some ep => simp [Except.toOption]

/-! ### What is mentioned -/

@[simp] theorem ownRefs_without (R : Removed) (name : String) (node : Node) :
    (node.without R).ownRefs name = node.ownRefs name := by
  unfold Node.ownRefs Node.without
  rw [Std.ExtTreeMap.toList_map, List.flatMap_map]

theorem hits_peerRefs_without {R : Removed} {node : Node} {ref : Ref} (h : ref ∈ (node.without R).peerRefs) :
    R.hits ref = false := by
  unfold Node.peerRefs Node.without at h
  rw [Std.ExtTreeMap.toList_map, List.flatMap_map] at h
  rcases List.mem_append.mp h with h | h
  · obtain ⟨d, hd, rfl⟩ := List.mem_map.mp h
    simpa using (List.mem_filter.mp hd).2
  · obtain ⟨⟨wg, c⟩, -, h⟩ := List.mem_flatMap.mp h
    obtain ⟨p, hp, rfl⟩ := List.mem_map.mp h
    simpa using (List.mem_filter.mp hp).2

namespace Topology.Unchanged

variable {R : Removed} {t t' : Topology}

theorem labRefs_eq (h : Unchanged R t t') : t'.labRefs = t.labRefs := by
  rw [h.lab]
  rfl

/-- The remaining mentions are where the removal passes over. -/
theorem mem_passedRefs (h : Unchanged R t t') {ref : Ref} (href : ref ∈ t'.refs) (hits : R.hits ref) :
    ref ∈ t.passedRefs R := by
  unfold refs at href
  simp only [List.mem_append, or_assoc] at href
  unfold passedRefs
  simp only [List.mem_append, or_assoc]
  rcases href with href | href | href | href | href
  · obtain ⟨⟨m, node'⟩, hmem, href⟩ := List.mem_flatMap.mp href
    have hnode' := Std.ExtTreeMap.mem_toList_iff_getElem?_eq_some.mp hmem
    rw [h.nodes] at hnode'
    split_ifs at hnode' with hm
    obtain ⟨node, hnode, rfl⟩ := Option.map_eq_some_iff.mp hnode'
    dsimp only [Node.refs] at href
    rw [ownRefs_without] at href
    rcases List.mem_append.mp href with href | href
    · rcases List.mem_cons.mp href with rfl | href
      · exact absurd (of_decide_eq_true hits) hm
      · rw [hits_peerRefs_without href] at hits
        cases hits
    · refine .inr (.inl (List.mem_flatMap.mpr ⟨(m, node),
        Std.ExtTreeMap.mem_toList_iff_getElem?_eq_some.mpr hnode, ?_⟩))
      dsimp only
      rwa [if_neg hm]
  · rw [h.links] at href
    obtain ⟨l, hl, href⟩ := List.mem_flatMap.mp href
    have hno := (List.mem_filter.mp hl).2
    have hany : l.refs.any R.hits = true := List.any_eq_true.mpr ⟨ref, href, hits⟩
    rw [hany] at hno
    cases hno
  · obtain ⟨⟨k, net'⟩, hmem, href⟩ := List.mem_flatMap.mp href
    have hnet' := Std.ExtTreeMap.mem_toList_iff_getElem?_eq_some.mp hmem
    rw [h.networks] at hnet'
    obtain ⟨net, hnet, rfl⟩ := Option.map_eq_some_iff.mp hnet'
    have hin := Std.ExtTreeMap.mem_toList_iff_getElem?_eq_some.mpr hnet
    unfold Network.refs Network.without at href
    dsimp only at href
    simp only [List.mem_append, or_assoc] at href
    rcases href with href | href | href
    · obtain ⟨m, hm, heq⟩ := List.mem_filterMap.mp href
      have hno := (List.mem_filter.mp hm).2
      unfold Removed.hitsEndpoint at hno
      rw [heq, Option.any_some, hits] at hno
      cases hno
    · obtain ⟨⟨key, port⟩, hport, href⟩ := List.mem_flatMap.mp href
      rw [Std.ExtTreeMap.toList_filter, List.mem_filter, Bool.not_eq_true'] at hport
      refine .inl (List.mem_flatMap.mpr ⟨_, hin, List.mem_flatMap.mpr ⟨_, hport.1, ?_⟩⟩)
      dsimp only
      rwa [hport.2, if_neg Bool.false_ne_true]
    · obtain ⟨i, hi, href⟩ := List.mem_flatMap.mp href
      have hno := (List.mem_filter.mp hi).2
      have hany : i.refs.any R.hits = true := List.any_eq_true.mpr ⟨ref, href, hits⟩
      rw [hany] at hno
      cases hno
  · obtain ⟨k, hk, heq⟩ := List.mem_filterMap.mp href
    have hhit : R.hitsEndpoint k = true := by
      unfold Removed.hitsEndpoint
      rwa [heq, Option.any_some]
    simp only [List.mem_append, Std.ExtTreeMap.mem_keys, Std.ExtTreeMap.mem_iff_isSome_getElem?, h.impairments,
      h.rateLimits, h.qdiscs, hhit, if_true, Option.isSome_none, Bool.false_eq_true, or_self] at hk
  · rw [h.labRefs_eq] at href
    exact .inr (.inr href)

/-- What the removal passes over is mentioned as before. -/
theorem passedRefs_subset (h : Unchanged R t t') {ref : Ref} (href : ref ∈ t.passedRefs R) : ref ∈ t'.refs := by
  unfold passedRefs at href
  unfold refs
  simp only [List.mem_append, or_assoc] at href ⊢
  rcases href with href | href | href
  · obtain ⟨⟨k, net⟩, hmem, href⟩ := List.mem_flatMap.mp href
    have hnet := Std.ExtTreeMap.mem_toList_iff_getElem?_eq_some.mp hmem
    have hnet' : t'.networks[k]? = some (net.without R) := by
      rw [h.networks, hnet]
      rfl
    refine .inr (.inr (.inl (List.mem_flatMap.mpr
      ⟨_, Std.ExtTreeMap.mem_toList_iff_getElem?_eq_some.mpr hnet', ?_⟩)))
    obtain ⟨⟨key, port⟩, hport, href⟩ := List.mem_flatMap.mp href
    unfold Network.refs Network.without
    refine List.mem_append_left _ (List.mem_append_right _ (List.mem_flatMap.mpr ⟨(key, port), ?_, ?_⟩))
    · rw [Std.ExtTreeMap.toList_filter, List.mem_filter, Bool.not_eq_true']
      refine ⟨hport, ?_⟩
      by_contra hdrops
      rw [if_pos (by simpa using hdrops)] at href
      cases href
    · dsimp only at href ⊢
      split_ifs at href
      · cases href
      · exact href
  · obtain ⟨⟨m, node⟩, hmem, href⟩ := List.mem_flatMap.mp href
    have hnode := Std.ExtTreeMap.mem_toList_iff_getElem?_eq_some.mp hmem
    dsimp only at href
    split_ifs at href with hm
    · cases href
    · have hnode' : t'.nodes[m]? = some (node.without R) := by
        rw [h.nodes, if_neg hm, hnode]
        rfl
      refine .inl (List.mem_flatMap.mpr ⟨_, Std.ExtTreeMap.mem_toList_iff_getElem?_eq_some.mpr hnode', ?_⟩)
      unfold Node.refs
      rw [ownRefs_without]
      exact List.mem_append_right _ href
  · rw [h.labRefs_eq]
    exact .inr (.inr (.inr (.inr href)))

theorem mentions_iff (h : Unchanged R t t') :
    (∀ ref ∈ t'.refs, R.hits ref = false) ↔ ∀ ref ∈ t.passedRefs R, R.hits ref = false := by
  constructor
  · exact fun hclean ref href => hclean ref (h.passedRefs_subset href)
  · intro hclean ref href
    by_contra hne
    have hits : R.hits ref = true := by simpa using hne
    rw [hclean ref (h.mem_passedRefs href hits)] at hits
    cases hits

end Topology.Unchanged

namespace Topology

open Edit

/-- A node that is added mentions nothing but itself. -/
theorem mem_refs_addNode {t t' : Topology} {name : String} {profile : Option String}
    (h : t.addNode name profile = .ok t') :
    t'.nodes[name]? = some { profiles := profile.toList } ∧ ∀ ref ∈ t'.refs, ref = .node name ∨ ref ∈ t.refs := by
  have heq : t' = { t with nodes := t.nodes.insert name { profiles := profile.toList } } := by
    unfold addNode at h
    split_ifs at h
    cases profile with
    | none => exact (Except.ok.inj h).symm
    | some p =>
      dsimp only at h
      split_ifs at h
      exact (Except.ok.inj h).symm
  subst heq
  refine ⟨Std.ExtTreeMap.getElem?_insert_self, fun ref href => ?_⟩
  unfold refs at href ⊢
  simp only [List.mem_append, or_assoc] at href ⊢
  rcases href with href | href
  · obtain ⟨⟨m, node⟩, hmem, href⟩ := List.mem_flatMap.mp href
    have hnode := Std.ExtTreeMap.mem_toList_iff_getElem?_eq_some.mp hmem
    rw [Std.ExtTreeMap.getElem?_insert] at hnode
    split_ifs at hnode with hm
    · obtain rfl := Std.LawfulEqOrd.eq_of_compare hm
      cases hnode
      left
      simpa [Node.refs, Node.peerRefs, Node.ownRefs] using href
    · exact .inr (.inl (List.mem_flatMap.mpr ⟨_, Std.ExtTreeMap.mem_toList_iff_getElem?_eq_some.mpr hnode, href⟩))
  · exact .inr (.inr href)

theorem cleanRemoval_iff {R : Removed} {t t' : Topology} (h : Unchanged R t t') :
    CleanRemoval R t t' ↔ ∀ ref ∈ t.passedRefs R, R.hits ref = false := by
  rw [← h.mentions_iff]
  refine ⟨fun hclean => hclean.mentions, fun hmentions => ⟨hmentions, h, fun name profile t'' _ hadd => ?_⟩⟩
  obtain ⟨hnode, hrefs⟩ := mem_refs_addNode hadd
  refine ⟨hnode, fun ref href hits => (hrefs ref href).resolve_right fun hmem => ?_⟩
  rw [hmentions ref hmem] at hits
  cases hits

/-! ### The ends of links in a valid topology -/

/-- No endpoint is on two links, or on a link and in a network. -/
structure EndsApart (t : Topology) : Prop where
  parse : ∀ l ∈ t.links, ∀ e ∈ [l.endpoints.1, l.endpoints.2], (EndpointRef.parse e).isSome
  link : ∀ l ∈ t.links, ∀ l' ∈ t.links, ∀ e, e ∈ [l.endpoints.1, l.endpoints.2] →
    e ∈ [l'.endpoints.1, l'.endpoints.2] → l = l'
  member : ∀ (k : String) net, t.networks[k]? = some net → ∀ e ∈ net.members, ∀ l ∈ t.links,
    e ∉ [l.endpoints.1, l.endpoints.2]

theorem endsApart {nl : Nlink} {vals : Values} {t : Topology} (h : t.valid nl vals) : EndsApart t := by
  have hparse : ∀ l ∈ t.links, ∀ e ∈ [l.endpoints.1, l.endpoints.2], (EndpointRef.parse e).isSome := by
    intro l hl e he
    obtain ⟨ep, -, hep, -⟩ := Validator.exists_source_of_link h hl he
    rw [hep]
    rfl
  have hsource : ∀ {l : Link} {i : Nat}, (l, i) ∈ t.links.zipIdx → ∀ {e}, e ∈ [l.endpoints.1, l.endpoints.2] →
      ∀ {ep}, EndpointRef.parse e = some ep → (ep.node, ep.iface, .link i) ∈ Validator.allSources t := by
    intro l i hi e he ep hep
    refine List.mem_append_left _ (List.mem_append_right _ ?_)
    exact List.mem_flatMap.mpr ⟨_, hi, List.mem_filterMap.mpr ⟨e, he, by rw [hep]; rfl⟩⟩
  refine ⟨hparse, fun l hl l' hl' e he he' => ?_, fun k net hnet e he l hl hel => ?_⟩
  · obtain ⟨i, hi⟩ := Validator.exists_mem_zipIdx hl
    obtain ⟨j, hj⟩ := Validator.exists_mem_zipIdx hl'
    obtain ⟨ep, hep⟩ := Option.isSome_iff_exists.mp (hparse l hl e he)
    have hij := (wellNamed h).source_unique (hsource hi he hep) (hsource hj he' hep)
    cases hij
    have hget := List.mk_mem_zipIdx_iff_getElem?.mp hi
    rw [List.mk_mem_zipIdx_iff_getElem?.mp hj] at hget
    exact (Option.some.inj hget).symm
  · obtain ⟨i, hi⟩ := Validator.exists_mem_zipIdx hl
    obtain ⟨ep, hep⟩ := Option.isSome_iff_exists.mp (hparse l hl e hel)
    have hmember : (ep.node, ep.iface, .network k) ∈ Validator.allSources t := by
      refine List.mem_append_right _ (List.mem_flatMap.mpr
        ⟨_, Std.ExtTreeMap.mem_toList_iff_getElem?_eq_some.mpr hnet, ?_⟩)
      exact List.mem_filterMap.mpr ⟨e, he, by rw [hep]; rfl⟩
    exact absurd ((wellNamed h).source_unique (hsource hi hel hep) hmember) nofun

section

variable {t : Topology} {R : Removed} {p : Link → Bool}

theorem mem_linkEnds {links : List Link} {e : String} :
    e ∈ linkEnds links p ↔ ∃ l ∈ links, p l ∧ e ∈ [l.endpoints.1, l.endpoints.2] := by
  unfold linkEnds
  simp only [List.mem_flatMap, List.mem_filter, and_assoc]

theorem refs_any_hits {l : Link} :
    l.refs.any R.hits ↔ ∃ e ∈ [l.endpoints.1, l.endpoints.2], R.hitsEndpoint e := by
  unfold Link.refs Removed.hitsEndpoint
  simp only [List.any_eq_true, List.mem_filterMap, Option.any_eq_true]
  constructor
  · rintro ⟨ref, ⟨e, he, heq⟩, hits⟩
    exact ⟨e, he, ref, heq, hits⟩
  · rintro ⟨e, he, ref, heq, hits⟩
    exact ⟨ref, ⟨e, he, heq⟩, hits⟩

/-- The links that mention what is removed are the removed ones. -/
theorem EndsApart.hits_link (h : EndsApart t) (hends : R.ends = linkEnds t.links p)
    (hnode : ∀ l ∈ t.links, ∀ e ∈ [l.endpoints.1, l.endpoints.2], ∀ ep, EndpointRef.parse e = some ep →
      R.node = some ep.node → p l) {l : Link} (hl : l ∈ t.links) : l.refs.any R.hits = p l := by
  refine Bool.eq_iff_iff.mpr (refs_any_hits.trans ⟨?_, fun hp => ?_⟩)
  · rintro ⟨e, he, hits⟩
    obtain ⟨ep, hep, hn | hmem⟩ := hitsEndpoint_iff.mp hits
    · exact hnode l hl e he ep hep hn
    · rw [hends] at hmem
      obtain ⟨l', hl', hp, he'⟩ := mem_linkEnds.mp hmem
      rwa [h.link l hl l' hl' e he he']
  · obtain ⟨ep, hep⟩ := Option.isSome_iff_exists.mp (h.parse l hl _ List.mem_cons_self)
    refine ⟨_, List.mem_cons_self, hitsEndpoint_iff.mpr ⟨ep, hep, .inr ?_⟩⟩
    rw [hends]
    exact mem_linkEnds.mpr ⟨l, hl, hp, List.mem_cons_self⟩

theorem EndsApart.hits_member (h : EndsApart t) (hends : R.ends = linkEnds t.links p) {k : String} {net : Network}
    (hnet : t.networks[k]? = some net) {m : String} (hm : m ∈ net.members) : R.hitsEndpoint m = R.dropsPort m := by
  refine Bool.eq_iff_iff.mpr (hitsEndpoint_iff.trans ?_)
  unfold Removed.dropsPort
  simp only [Option.any_eq_true, decide_eq_true_eq]
  refine exists_congr fun ep => and_congr_right fun _ => or_iff_left fun hmem => ?_
  rw [hends] at hmem
  obtain ⟨l, hl, -, he⟩ := mem_linkEnds.mp hmem
  exact h.member k net hnet m hm l hl he

theorem EndsApart.hits_key (h : EndsApart t) (hends : R.ends = linkEnds t.links p) (key : String) :
    R.hitsEndpoint key ↔ R.dropsPort key ∨ key ∈ R.ends := by
  rw [hitsEndpoint_iff]
  unfold Removed.dropsPort
  simp only [Option.any_eq_true, decide_eq_true_eq]
  constructor
  · rintro ⟨ep, hep, hn | hmem⟩
    · exact .inl ⟨ep, hep, hn⟩
    · exact .inr hmem
  · rintro (⟨ep, hep, hn⟩ | hmem)
    · exact ⟨ep, hep, .inl hn⟩
    · have hmem' := hmem
      rw [hends] at hmem'
      obtain ⟨l, hl, -, he⟩ := mem_linkEnds.mp hmem'
      obtain ⟨ep, hep⟩ := Option.isSome_iff_exists.mp (h.parse l hl _ he)
      exact ⟨ep, hep, .inr hmem⟩

end

/-! ### The two removals -/

theorem dropLinkEnds_eq (t : Topology) (ends : List String) : t.dropLinkEnds ends =
    { t with
      impairments := ends.foldl (fun m e => m.erase e) t.impairments
      rateLimits := ends.foldl (fun m e => m.erase e) t.rateLimits
      qdiscs := ends.foldl (fun m e => m.erase e) t.qdiscs } := by
  induction ends generalizing t with
  | nil => rfl
  | cons e ends ih => exact ih _

theorem dropsPort_eq {name : String} {ends : List String} (key : String) :
    ({ node := some name, ends } : Removed).dropsPort key = onNode name key := by
  unfold Removed.dropsPort onNode endpoint
  cases EndpointRef.parse key with
  | none => rfl
  | some ep => simp [Except.toOption, eq_comm]

theorem nodeWithout_eq {name : String} {ends : List String} (node : Node) :
    nodeWithout name node = node.without { node := some name, ends } := by
  have hits : ∀ d : String, (!({ node := some name, ends } : Removed).hits (.node d)) = decide (d ≠ name) := by
    intro d
    simp [Removed.hits, eq_comm]
  unfold nodeWithout Node.without
  simp only [hits]

theorem without_of_none {R : Removed} (h : R.node = none) (node : Node) : node.without R = node := by
  have hits : ∀ d : String, R.hits (.node d) = false := fun d => by simp [Removed.hits, h]
  have hpeers : (node.wireguard.map fun _ wg => { wg with peers := wg.peers.filter fun p => !R.hits (.node p) }) =
      node.wireguard := by
    apply Std.ExtTreeMap.ext_getElem?
    intro k
    rw [Std.ExtTreeMap.getElem?_map]
    simp only [hits, Bool.not_false, List.filter_true]
    exact Option.map_id'
  have hdepends : node.dependsOn.filter (fun d => !R.hits (.node d)) = node.dependsOn :=
    List.filter_eq_self.mpr fun d _ => by rw [hits]; rfl
  unfold Node.without
  rw [hpeers, hdepends]

theorem unchanged_removeNode {t t' : Topology} {name : String} (h : EndsApart t) (hr : t.removeNode name = .ok t') :
    Unchanged (removed t (.removeNode name)) t t' := by
  have hends : (removed t (.removeNode name)).ends = linkEnds t.links (Edit.touches name) := rfl
  have hnode : ∀ l ∈ t.links, ∀ e ∈ [l.endpoints.1, l.endpoints.2], ∀ ep, EndpointRef.parse e = some ep →
      (removed t (.removeNode name)).node = some ep.node → Edit.touches name l := by
    intro l _ e he ep hep hn
    have hon : onNode name e := onNode_iff.mpr ⟨ep, hep, (Option.some.inj hn).symm⟩
    unfold Edit.touches
    simp only [List.mem_cons, List.not_mem_nil, or_false] at he
    rcases he with rfl | rfl <;> simp [hon]
  have hlinks := fun l (hl : l ∈ t.links) => h.hits_link hends hnode hl
  have hkey : ∀ k, (removed t (.removeNode name)).hitsEndpoint k ↔
      onNode name k ∨ k ∈ linkEnds t.links (Edit.touches name) := fun k => by
    rw [h.hits_key hends, ← dropsPort_eq]
    exact Iff.rfl
  unfold removeNode at hr
  cases hmem : t.nodes.contains name with
  | false =>
    rw [hmem] at hr
    cases hr
  | true =>
    rw [hmem] at hr
    dsimp only [Bool.not_true, Bool.false_eq_true, if_false] at hr
    rw [dropLinkEnds_eq] at hr
    obtain rfl := Except.ok.inj hr
    -- an entry that traffic control has for a removed endpoint is dropped in one of two steps
    have htc : ∀ {V : Type} (m : BTreeMap String V) (k : String),
        (((linkEnds t.links (Edit.touches name)).foldl (fun m e => m.erase e) m).filter fun k _ => !onNode name k)[k]? =
          if (removed t (.removeNode name)).hitsEndpoint k then none else m[k]? := by
      intro V m k
      rw [Std.ExtTreeMap.getElem?_filter', Changes.getElem?_foldl_erase]
      simp only [hkey]
      by_cases hk : k ∈ linkEnds t.links (Edit.touches name)
      · simp [hk]
      · cases m[k]? with
        | none => simp
        | some v => by_cases hon : onNode name k <;> simp [Option.filter, hon, hk]
    refine ⟨rfl, fun m => ?_, ?_, fun k => ?_, htc t.impairments, htc t.rateLimits, htc t.qdiscs⟩
    · dsimp only
      rw [Std.ExtTreeMap.getElem?_map, Std.ExtTreeMap.getElem?_erase]
      by_cases hm : name = m
      · have hgone : (removed t (.removeNode name)).node = some m := congrArg some hm
        rw [if_pos (Std.LawfulEqOrd.compare_eq_iff_eq.mpr hm), if_pos hgone]
        rfl
      · have hstays : (removed t (.removeNode name)).node ≠ some m := fun hc => hm (Option.some.inj hc)
        rw [if_neg fun hc => hm (Std.LawfulEqOrd.eq_of_compare hc), if_neg hstays]
        exact Option.map_congr fun node _ => nodeWithout_eq node
    · exact List.filter_congr fun l hl => by rw [hlinks l hl]
    · dsimp only
      rw [Std.ExtTreeMap.getElem?_map]
      refine Option.map_congr fun net hnet => ?_
      have hmembers : net.members.filter (fun m => !onNode name m) =
          net.members.filter fun m => !(removed t (.removeNode name)).hitsEndpoint m :=
        List.filter_congr fun m hm => by rw [h.hits_member hends hnet hm, ← dropsPort_eq]; rfl
      have hpairs : net.impairments.filter (fun i => i.src ≠ name ∧ i.dst ≠ name) =
          net.impairments.filter fun i => !i.refs.any (removed t (.removeNode name)).hits :=
        List.filter_congr fun i _ => by
          simp [NetworkImpairment.refs, Removed.hits, removed, eq_comm]
      have hports : (fun k (_ : PortConfig) => !onNode name k) = fun k _ => !(removed t (.removeNode name)).dropsPort k := by
        funext k _
        rw [← dropsPort_eq]
        rfl
      unfold networkWithout Network.without
      rw [hmembers, hports, hpairs]

theorem unchanged_removeLink {t t' : Topology} {ep line : String} (h : EndsApart t)
    (hr : t.removeLink ep = .ok (t', line)) : Unchanged (removed t (.removeLink ep)) t t' := by
  unfold removeLink at hr
  obtain ⟨k, hk, hr⟩ := bind_eq_ok.mp hr
  dsimp only at hr
  have hends : (removed t (.removeLink ep)).ends = linkEnds t.links (·.has k) := by
    unfold removed
    dsimp only
    rw [hk]
    rfl
  have hlinks := fun l (hl : l ∈ t.links) => h.hits_link hends (fun _ _ _ _ _ _ hn => nomatch hn) hl
  have hport : ∀ key, (removed t (.removeLink ep)).dropsPort key = false := fun key => by
    unfold Removed.dropsPort removed
    cases EndpointRef.parse key <;> simp
  have hkey : ∀ key, (removed t (.removeLink ep)).hitsEndpoint key ↔ key ∈ linkEnds t.links (·.has k) := fun key => by
    rw [h.hits_key hends, hport, hends]
    simp
  cases hempty : (linkEnds t.links (·.has k)).isEmpty with
  | true =>
    rw [hempty] at hr
    simp [throw, throwThe, MonadExceptOf.throw, bind, Except.bind] at hr
  | false =>
    rw [hempty] at hr
    obtain ⟨rfl, -⟩ := Prod.mk.inj (pure_eq_ok.mp hr)
    rw [dropLinkEnds_eq]
    have htc : ∀ {V : Type} (m : BTreeMap String V) (key : String),
        ((linkEnds t.links (·.has k)).foldl (fun m e => m.erase e) m)[key]? =
          if (removed t (.removeLink ep)).hitsEndpoint key then none else m[key]? := by
      intro V m key
      rw [Changes.getElem?_foldl_erase]
      simp only [hkey]
    refine ⟨rfl, fun m => ?_, ?_, fun key => ?_, htc t.impairments, htc t.rateLimits, htc t.qdiscs⟩
    · have hstays : (removed t (.removeLink ep)).node ≠ some m := nofun
      have hsame : Node.without (removed t (.removeLink ep)) = id := funext fun node => without_of_none rfl node
      rw [if_neg hstays, hsame, Option.map_id]
      rfl
    · exact List.filter_congr fun l hl => by rw [hlinks l hl]
    · have hsame : ∀ net, t.networks[key]? = some net → net.without (removed t (.removeLink ep)) = net := by
        intro net hnet
        have hmembers : net.members.filter (fun m => !(removed t (.removeLink ep)).hitsEndpoint m) = net.members :=
          List.filter_eq_self.mpr fun m hm => by rw [h.hits_member hends hnet hm, hport]; rfl
        have hports : net.ports.filter (fun k _ => !(removed t (.removeLink ep)).dropsPort k) = net.ports := by
          apply Std.ExtTreeMap.ext_getElem?
          intro k
          rw [Std.ExtTreeMap.getElem?_filter', hport]
          cases net.ports[k]? <;> rfl
        have hpairs : net.impairments.filter (fun i => !i.refs.any (removed t (.removeLink ep)).hits) =
            net.impairments :=
          List.filter_eq_self.mpr fun i _ => by simp [NetworkImpairment.refs, Removed.hits, removed]
        unfold Network.without
        rw [hmembers, hports, hpairs]
      dsimp only
      cases hnet : t.networks[key]? with
      | none => rfl
      | some net => rw [Option.map_some, hsame net hnet]

theorem valid_of_accepts {nl : Nlink} {vals : Values} {others : Topology → List ValidationIssue} {t : Topology}
    (h : t.accepts nl vals others) : t.valid nl vals := by
  unfold accepts issues at h
  rw [List.all_append, Bool.and_eq_true] at h
  exact h.1

/-- One edit other than an MTU change. -/
theorem edited_singleton {nl : Nlink} {vals : Values} {others : Topology → List ValidationIssue} {t : Topology}
    {e : Edit} {ed : Edited} (he : e.isMtu = false) (h : t.edited nl vals others [e] = .ok ed) :
    ∃ line, t.applyEdit e = .ok (ed.topology, line) := by
  have hstructural : structuralEdits [e] = [e] := List.filter_cons_of_pos (by rw [he]; rfl)
  have hpass : [e].foldlM mtuStep (t, [], []) = .ok (t, [], []) := by
    cases e
    case setMtu => cases he
    all_goals rfl
  obtain ⟨-, d, mtus, log, hfold, hcase⟩ := edited_eq_ok.mp h
  rw [hpass] at hfold
  cases hfold
  rw [hstructural] at hcase
  rcases hcase with ⟨hnil, -⟩ | ⟨-, s, lines, hs, -, rfl⟩
  · cases hnil
  · obtain ⟨t₁, line, h₁, hrest⟩ := applies_cons.mp ⟨lines, hs⟩
    obtain rfl := applies_nil.mp hrest
    exact ⟨line, h₁⟩

/-- A removal leaves no mention of what it removes, and the rest as it was, exactly when
nothing that it passes over mentioned it. -/
theorem edited_cleanRemoval_iff {nl : Nlink} {vals : Values} {others : Topology → List ValidationIssue} {t : Topology}
    {e : Edit} {ed : Edited} (ht : t.accepts nl vals others) (he : e.isRemoval)
    (h : t.edited nl vals others [e] = .ok ed) :
    CleanRemoval (removed t e) t ed.topology ↔
      ∀ ref ∈ t.passedRefs (removed t e), (removed t e).hits ref = false := by
  have hapart := endsApart (valid_of_accepts ht)
  have hmtu : e.isMtu = false := by cases e <;> first | rfl | cases he
  obtain ⟨line, happly⟩ := edited_singleton hmtu h
  refine cleanRemoval_iff ?_
  cases e with
  | removeNode name =>
    obtain ⟨t', ht', heq⟩ := map_eq_ok.mp happly
    obtain ⟨rfl, -⟩ := Prod.mk.inj heq
    exact unchanged_removeNode hapart ht'
  | removeLink ep => exact unchanged_removeLink hapart happly
  | _ => cases he

theorem edited_cleanRemoval_linked : ∃ ed, (twoNodes [{ endpoints := ("a:eth0", "b:eth0") }]).edited
      Plan.Env.sample.nl Plan.Env.sample.vals (fun _ => []) [.removeNode "b"] = .ok ed ∧
    CleanRemoval { node := some "b", ends := ["a:eth0", "b:eth0"] } (twoNodes [{ endpoints := ("a:eth0", "b:eth0") }])
      ed.topology := by
  have hed : ∃ ed, (twoNodes [{ endpoints := ("a:eth0", "b:eth0") }]).edited
      Plan.Env.sample.nl Plan.Env.sample.vals (fun _ => []) [.removeNode "b"] = .ok ed :=
    ⟨_, edited_eq_ok.mpr ⟨by simp, _, _, _, rfl, .inr ⟨by decide, _, _, rfl, by decide +kernel, rfl⟩⟩⟩
  obtain ⟨ed, hed⟩ := hed
  exact ⟨ed, hed, (edited_cleanRemoval_iff (by decide +kernel) rfl hed).mpr (by decide +kernel)⟩

/-- A tunnel whose peer is configured longhand. -/
def longhandPeer : Topology where
  lab := { name := "t" }
  nodes := ((∅ : BTreeMap String Node).insert "a" { wireguard := (∅ : BTreeMap String WireguardConfig).insert "wg0" {} }).insert
    "b" { wireguard := (∅ : BTreeMap String WireguardConfig).insert "wg0" {
      peers := ["a"]
      peerSettings := (∅ : BTreeMap String WireguardPeer).insert "a" { allowedIps := ["10.0.0.0/8"] } } }

/-- The peer is removed, and its settings stay. -/
theorem removed_peer_settings : longhandPeer.accepts Plan.Env.sample.nl Plan.Env.sample.vals (fun _ => []) ∧
    ∃ ed, longhandPeer.edited Plan.Env.sample.nl Plan.Env.sample.vals (fun _ => []) [.removeNode "a"] = .ok ed ∧
      Ref.node "a" ∈ ed.topology.refs ∧ ¬CleanRemoval (removed longhandPeer (.removeNode "a")) longhandPeer ed.topology := by
  have hmem : ∃ ed, longhandPeer.edited Plan.Env.sample.nl Plan.Env.sample.vals (fun _ => []) [.removeNode "a"] = .ok ed ∧
      Ref.node "a" ∈ ed.topology.refs :=
    ⟨_, edited_eq_ok.mpr ⟨by simp, _, _, _, rfl, .inr ⟨by decide, _, _, rfl, by decide +kernel, rfl⟩⟩, by decide +kernel⟩
  obtain ⟨ed, hed, hmem⟩ := hmem
  exact ⟨by decide +kernel, ed, hed, hmem, fun h => absurd (h.mentions _ hmem) (by decide)⟩

end Topology

end NlinkLab
