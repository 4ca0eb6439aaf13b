import NlinkLab.Deploy.Plan.Pairs
import NlinkLab.Edit.Remove
import NlinkLab.Running.Runs

/-! What requests leave to do on the nodes. The traffic control the planner declares for a
node goes by the impairments and partitions of the node's own endpoints
(`declareNodeTc_congr`). A request has the nodes of its endpoints reconciled, and over any
run the declarations of every other node stay as they are (`declareNodeTc_serveAll`). -/

namespace NlinkLab

open Fallible

variable {nl : Nlink} {vals : Values}

/-- Views of a lab that agree on a node: they are of one topology but for impairments, and say
the same of the impairments and partitions of the node's endpoints. -/
structure AgreeOn (node : String) (v v' : Topology × List String) : Prop where
  topology : ∃ impairments directionalImpairments, v'.1 = { v.1 with impairments, directionalImpairments }
  impairments : ∀ ep r, EndpointRef.parse ep = some r → r.node = node → v'.1.impairments[ep]? = v.1.impairments[ep]?
  partitions : ∀ ep r, EndpointRef.parse ep = some r → r.node = node → (ep ∈ v'.2 ↔ ep ∈ v.2)

/-! ### A node's declarations -/

theorem mapM_congr {A B : Type} {f g : A → Except Error B} {l : List A} (h : ∀ a ∈ l, f a = g a) : l.mapM f = l.mapM g := by
  induction l with
  | nil => rfl
  | cons a l ih =>
    rw [List.mapM_cons, List.mapM_cons, h a List.mem_cons_self, ih fun b hb => h b (List.mem_cons_of_mem _ hb)]

/-- The interface of a tree is one of its node. -/
theorem parse_of_mem_perPair {node : String} {t : Topology} {out : BTreeMap String (List PeerImpairment)}
    (h : perPairSources nl vals node t = .ok out) {iface : String} (hiface : iface ∈ out) :
    EndpointRef.parse (node ++ ":" ++ iface) = some ⟨node, iface⟩ := by
  obtain ⟨trees, htrees, rfl⟩ := PerPair.perPairSources_eq_ok.mp h
  obtain ⟨peers, hget⟩ := Option.isSome_iff_exists.mp (Std.ExtTreeMap.mem_iff_isSome_getElem?.mp hiface)
  rcases BTreeMap.mem_of_foldl_insert hget with hmem | ⟨hempty, -⟩
  · obtain ⟨e, -, htree⟩ := mem_of_mapM_eq_ok htrees hmem
    have hsrc : ∀ r ∈ e.2.impairments.filter (·.src = node), r.src = node := fun r hr => by
      simpa using (List.mem_filter.mp hr).2
    obtain ⟨hget, -⟩ := (PerPair.perPairRules_eq_ok hsrc).mp htree
    obtain ⟨ep, hep, hnode, hname⟩ := PerPair.mem_memberIfaces.mp (PerPair.mem_of_networkIfaces hget)
    obtain ⟨member, -, hparse⟩ := List.mem_filterMap.mp hep
    have heq := EndpointRef.eq_of_parse hparse
    rw [hnode, hname] at heq
    rw [heq, hparse]
    exact congrArg some (EndpointRef.mk.injEq .. ▸ ⟨hnode, hname⟩)
  · simp at hempty

section

variable {node : String} {v v' : Topology × List String}

/-- The interface an endpoint has on a node. -/
def onNode (node ep : String) : Option String := ((EndpointRef.parse ep).filter (·.node = node)).map (·.iface)

theorem onNode_eq_some {ep iface : String} : onNode node ep = some iface ↔ EndpointRef.parse ep = some ⟨node, iface⟩ := by
  unfold onNode
  simp only [Option.map_eq_some_iff, Option.filter_eq_some_iff, decide_eq_true_eq]
  constructor
  · rintro ⟨r, ⟨hparse, rfl⟩, rfl⟩
    exact hparse
  · intro h
    exact ⟨_, ⟨h, rfl⟩, rfl⟩

theorem mem_tcIfaces {t : Topology} {partitions : List String} {perPair : BTreeMap String (List PeerImpairment)}
    {iface : String} : iface ∈ tcIfaces node t partitions perPair ↔
      (∃ ep, EndpointRef.parse ep = some ⟨node, iface⟩ ∧
        (ep ∈ t.impairments ∨ ep ∈ t.qdiscs ∨ ep ∈ t.rateLimits ∨ ep ∈ partitions)) ∨ iface ∈ perPair := by
  unfold tcIfaces
  rw [List.mem_insertionSort, List.mem_dedup, List.mem_append, List.mem_filterMap, Std.ExtTreeMap.mem_keys]
  refine or_congr (exists_congr fun ep => ?_) Iff.rfl
  rw [and_comm]
  refine and_congr onNode_eq_some ?_
  simp only [List.mem_append, Std.ExtTreeMap.mem_keys, or_assoc]

theorem tcIfaces_congr (h : AgreeOn node v v') (perPair : BTreeMap String (List PeerImpairment)) :
    tcIfaces node v'.1 v'.2 perPair = tcIfaces node v.1 v.2 perPair := by
  have hsame : ∀ iface, iface ∈ tcIfaces node v'.1 v'.2 perPair ↔ iface ∈ tcIfaces node v.1 v.2 perPair := by
    intro iface
    rw [mem_tcIfaces, mem_tcIfaces]
    refine or_congr (exists_congr fun ep => and_congr_right fun hparse => ?_) Iff.rfl
    obtain ⟨impairments, directional, htopology⟩ := h.topology
    have himp : ep ∈ v'.1.impairments ↔ ep ∈ v.1.impairments := by
      rw [Std.ExtTreeMap.mem_iff_isSome_getElem?, Std.ExtTreeMap.mem_iff_isSome_getElem?,
        h.impairments ep _ hparse rfl]
    rw [himp, h.partitions ep _ hparse rfl, htopology]
  unfold tcIfaces at hsame ⊢
  simp only [List.mem_insertionSort] at hsame
  have hsorted := fun l : List String => List.pairwise_insertionSort (· ≤ ·) l
  refine List.Perm.eq_of_pairwise' (hsorted _) (hsorted _) (((List.perm_insertionSort _ _).trans ?_).trans
    (List.perm_insertionSort _ _).symm)
  exact ((List.perm_ext_iff_of_nodup (List.nodup_dedup _) (List.nodup_dedup _)).mpr hsame)

theorem perPairSources_congr (h : AgreeOn node v v') : perPairSources nl vals node v'.1 = perPairSources nl vals node v.1 := by
  obtain ⟨impairments, directional, htopology⟩ := h.topology
  rw [htopology]
  rfl

theorem declareIfaceTc_congr (h : AgreeOn node v v') {iface : String}
    (hparse : EndpointRef.parse (node ++ ":" ++ iface) = some ⟨node, iface⟩)
    (perPair : BTreeMap String (List PeerImpairment)) :
    declareIfaceTc nl vals node v'.1 v'.2 perPair iface = declareIfaceTc nl vals node v.1 v.2 perPair iface := by
  obtain ⟨impairments, directional, htopology⟩ := h.topology
  have himp := h.impairments _ _ hparse rfl
  have hpart := h.partitions _ _ hparse rfl
  rw [htopology] at himp ⊢
  dsimp only at himp
  unfold declareIfaceTc
  simp only [himp, hpart]
  rfl

/-- A node's declarations go by the impairments and partitions of its endpoints. -/
theorem declareNodeTc_congr (h : AgreeOn node v v') (cfg : NetworkConfig) :
    declareNodeTc nl vals cfg node v'.1 v'.2 = declareNodeTc nl vals cfg node v.1 v.2 := by
  unfold declareNodeTc
  rw [perPairSources_congr h]
  cases hpp : perPairSources nl vals node v.1 with
  | error e => rfl
  | ok perPair =>
    have hifaces : ∀ iface ∈ tcIfaces node v.1 v.2 perPair,
        declareIfaceTc nl vals node v'.1 v'.2 perPair iface = declareIfaceTc nl vals node v.1 v.2 perPair iface := by
      intro iface hiface
      refine declareIfaceTc_congr h ?_ perPair
      rcases mem_tcIfaces.mp hiface with ⟨ep, hparse, -⟩ | hiface
      · exact EndpointRef.eq_of_parse hparse ▸ hparse
      · exact parse_of_mem_perPair hpp hiface
    dsimp only [bind, Except.bind]
    rw [tcIfaces_congr h, mapM_congr hifaces]

end

/-! ### A lab's view -/

/-- One live impairment laid over the others. -/
theorem getElem?_overlay (m : BTreeMap String Impairment) (e : String × Impairment) (ep : String) :
    (if e.2 = {} then m.erase e.1 else m.insert e.1 e.2)[ep]? =
      if e.1 = ep then (if e.2 = {} then none else some e.2) else m[ep]? := by
  by_cases hep : e.1 = ep
  · split_ifs <;> simp [hep]
  · split_ifs <;> simp [Std.ExtTreeMap.getElem?_erase, Std.ExtTreeMap.getElem?_insert, hep]

theorem getElem?_layOver (declared live : BTreeMap String Impairment) (ep : String) :
    (layOver declared live)[ep]? =
      match live[ep]? with
      | some imp => if imp = {} then none else some imp
      | none => declared[ep]? := by
  have hmem (imp : Impairment) : (ep, imp) ∈ live.toList ↔ live[ep]? = some imp :=
    Std.ExtTreeMap.mem_toList_iff_getElem?_eq_some
  have hkeys : (live.toList.map (·.1)).Nodup := by
    rw [Std.ExtTreeMap.map_fst_toList_eq_keys]
    exact Std.ExtTreeMap.nodup_keys
  have hskip : ∀ (es : List (String × Impairment)) (m : BTreeMap String Impairment), ep ∉ es.map (·.1) →
      (es.foldl (fun m e => if e.2 = {} then m.erase e.1 else m.insert e.1 e.2) m)[ep]? = m[ep]? := by
    intro es
    induction es with
    | nil => exact fun _ _ => rfl
    | cons e es ih =>
      intro m h
      rw [List.map_cons, List.mem_cons, not_or] at h
      rw [List.foldl_cons, ih _ h.2, getElem?_overlay, if_neg (Ne.symm h.1)]
  unfold layOver
  -- with the live impairment of `ep` fixed, the induction is on the entries, keys distinct
  generalize live.toList = es at hmem hkeys
  generalize live[ep]? = o at hmem ⊢
  induction es generalizing declared with
  | nil =>
    cases o with
    | none => rfl
    | some imp => exact absurd ((hmem imp).mpr rfl) List.not_mem_nil
  | cons e es ih =>
    rw [List.map_cons, List.nodup_cons] at hkeys
    rw [List.foldl_cons]
    by_cases hep : e.1 = ep
    · obtain rfl : o = some e.2 := ((hmem e.2).mp (hep ▸ List.mem_cons_self))
      rw [hskip es _ (hep ▸ hkeys.1), getElem?_overlay, if_pos hep]
    · have hrest : ∀ imp, (ep, imp) ∈ es ↔ o = some imp := fun imp =>
        ⟨fun h => (hmem imp).mp (List.mem_cons_of_mem _ h), fun h =>
          (List.mem_cons.mp ((hmem imp).mpr h)).resolve_left fun he => hep (he ▸ rfl)⟩
      rw [ih _ hkeys.2 hrest, getElem?_overlay, if_neg hep]

/-- What the planner sees of an endpoint's impairment. -/
def EndpointTc.shown (c : EndpointTc) : Option Impairment :=
  match c.live with
  | some imp => if imp = {} then none else some imp
  | none => c.declared

/-- The view a handle that loads the file has of the lab. -/
def LabFile.view (file : LabFile) : Topology × List String :=
  ({ file.topology with impairments := layOver file.topology.impairments file.state.liveImpairments },
    file.state.savedImpairments.keys)

variable {file file' : LabFile}

/-- A handle opened on the file sees its view. -/
theorem LabFile.view_eq (hostStarttime : UInt32 → Option UInt64) (file : LabFile) :
    (RunningLab.load hostStarttime file).liveView = file.view := rfl

theorem impairments_view (ep : String) : file.view.1.impairments[ep]? = (file.tc ep).shown := getElem?_layOver _ _ ep

theorem mem_partitions_view (ep : String) : ep ∈ file.view.2 ↔ (file.tc ep).partitioned := by
  unfold LabFile.view EndpointTc.partitioned LabFile.tc
  rw [Std.ExtTreeMap.mem_keys, Std.ExtTreeMap.mem_iff_isSome_getElem?]

/-- A file with the topology of another, as it is written. -/
def LabFile.SameBut (file file' : LabFile) : Prop :=
  ∃ directionalImpairments, file'.topology = { file.topology with directionalImpairments }

theorem agreeOn_view {node : String} (htopology : file.SameBut file')
    (htc : ∀ ep r, EndpointRef.parse ep = some r → r.node = node →
      (file'.tc ep).shown = (file.tc ep).shown ∧ (file'.tc ep).partitioned = (file.tc ep).partitioned) :
    AgreeOn node file.view file'.view where
  topology := by
    obtain ⟨directional, htopology⟩ := htopology
    exact ⟨_, directional, by unfold LabFile.view; rw [htopology]⟩
  impairments ep r hparse hnode := by rw [impairments_view, impairments_view, (htc ep r hparse hnode).1]
  partitions ep r hparse hnode := by rw [mem_partitions_view, mem_partitions_view, (htc ep r hparse hnode).2]

theorem LabFile.SameBut.refl (file : LabFile) : file.SameBut file := ⟨_, rfl⟩

theorem LabFile.SameBut.trans {file'' : LabFile} (h : file.SameBut file') (h' : file'.SameBut file'') : file.SameBut file'' := by
  obtain ⟨directional, htopology⟩ := h
  obtain ⟨directional', htopology'⟩ := h'
  exact ⟨directional', by rw [htopology', htopology]⟩

theorem LabFile.SameBut.declared (h : file.SameBut file') (ep : String) : (file'.tc ep).declared = (file.tc ep).declared := by
  obtain ⟨directional, htopology⟩ := h
  exact congrArg (·.impairments[ep]?) htopology

theorem sameBut_served (file : LabFile) (e : Host × Request) : file.SameBut (served vals file e) := by
  cases htask : servedTask vals file e with
  | none => rw [served_of_error htask]; exact .refl file
  | some task =>
    rcases (served_retuned htask).frame with heq | heq
    · rw [heq]; exact .refl file
    · rw [heq]; exact ⟨_, rfl⟩

theorem sameBut_serveAll (file : LabFile) (requests : List (Host × Request)) : file.SameBut (serveAll vals file requests) := by
  induction requests generalizing file with
  | nil => exact .refl file
  | cons e requests ih => exact (sameBut_served file e).trans (ih _)

/-- Over any run, a node keeps its declarations when no request served is on an endpoint of it. -/
theorem declareNodeTc_serveAll (nl : Nlink) (vals : Values) (file : LabFile) (requests : List (Host × Request)) (node : String)
    (h : ∀ task ∈ tasksIn vals file requests, ∀ ep ∈ task.targets, ∀ r, EndpointRef.parse ep = some r → r.node ≠ node)
    (cfg : NetworkConfig) :
    declareNodeTc nl vals cfg node (serveAll vals file requests).view.1 (serveAll vals file requests).view.2 =
      declareNodeTc nl vals cfg node file.view.1 file.view.2 := by
  refine declareNodeTc_congr (agreeOn_view (sameBut_serveAll file requests) fun ep r hparse hnode => ?_) cfg
  have hkept : (serveAll vals file requests).tc ep = file.tc ep := by
    rw [tc_serveAll]
    exact foldl_on_of_notMem (fun task htask htarget => h task htask ep htarget r hparse hnode) _
  rw [hkept]
  exact ⟨rfl, rfl⟩

/-- An impairment of one end of a link, and a partition there, are nothing to the node at the other. -/
theorem declareNodeTc_other_end :
    declareNodeTc Plan.Env.sample.nl delays {} "b"
        (serveAll delays (linkedLab ∅)
          [(quietHost, .impair "a:eth0" .out { delay := some "50ms" }), (quietHost, .partition "a:eth0")]).view.1
        (serveAll delays (linkedLab ∅)
          [(quietHost, .impair "a:eth0" .out { delay := some "50ms" }), (quietHost, .partition "a:eth0")]).view.2 =
      declareNodeTc Plan.Env.sample.nl delays {} "b" (linkedLab ∅).view.1 (linkedLab ∅).view.2 := by
  refine declareNodeTc_serveAll _ delays (linkedLab ∅) _ "b" ?_ {}
  have htasks : tasksIn delays (linkedLab ∅)
      [(quietHost, .impair "a:eth0" .out { delay := some "50ms" }), (quietHost, .partition "a:eth0")] =
        [.set [("a:eth0", { delay := some "50ms" })], .partition "a:eth0"] := by decide +kernel
  have hparse : EndpointRef.parse "a:eth0" = some ⟨"a", "eth0"⟩ := by decide +kernel
  rw [htasks]
  intro task htask ep hep r hr
  have htarget : ep = "a:eth0" := by
    simp only [List.mem_cons, List.not_mem_nil, or_false] at htask
    rcases htask with rfl | rfl <;> exact List.mem_singleton.mp hep
  rw [htarget, hparse] at hr
  cases hr
  decide

end NlinkLab
