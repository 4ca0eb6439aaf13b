import NlinkLab.Running.Scenario
import NlinkLab.Running.View

/-! Changes of a handle that stays open. One that has nothing to save takes the impairments and
partitions of the file whenever it takes the lock, and after a change has nothing to save again
(`changed_mutate`); putting back leaves the endpoints it is asked for as they were recorded
(`restoreRuntimeTc_of_clean`). -/

namespace NlinkLab

open Fallible

namespace RunningLab

variable {lab : RunningLab} {host : Host} {file : LabFile} {hostStarttime : UInt32 → Option UInt64}

/-! ### A handle with nothing to save -/

/-- A handle that has saved what it changed of impairments, partitions and the topology. -/
structure Clean (lab : RunningLab) : Prop where
  live : lab.liveImpairments = lab.baseline.liveImpairments
  saved : lab.savedImpairments = lab.baseline.savedImpairments
  topology : lab.snapshot.topology = lab.baseline.topology

theorem clean_load (hostStarttime : UInt32 → Option UInt64) (file : LabFile) : (load hostStarttime file).Clean :=
  ⟨rfl, rfl, rfl⟩

theorem mergedTopology_of_clean (h : lab.Clean) (file : LabFile) : lab.mergedTopology file = file.topology := if_pos h.topology

/-- It takes the impairments and partitions as they are in the file. -/
theorem refresh_of_clean (h : lab.Clean) : (lab.refresh hostStarttime file).topology = file.topology ∧
    (lab.refresh hostStarttime file).liveImpairments = file.state.liveImpairments ∧
    (lab.refresh hostStarttime file).savedImpairments = file.state.savedImpairments := by
  refine ⟨mergedTopology_of_clean h file, ?_, ?_⟩
  · refine (congrArg (mergeMap file.state.liveImpairments lab.baseline.liveImpairments) h.live).trans ?_
    exact mergeMap_self _ _
  · refine (congrArg (mergeMap file.state.savedImpairments lab.baseline.savedImpairments) h.saved).trans ?_
    exact mergeMap_self _ _

theorem clean_refresh (h : lab.Clean) : (lab.refresh hostStarttime file).Clean := by
  obtain ⟨htopology, hlive, hsaved⟩ := @refresh_of_clean _ file hostStarttime h
  exact ⟨hlive, hsaved, congrArg Json.toValue htopology⟩

theorem tc_refresh (h : lab.Clean) (ep : String) : (lab.refresh hostStarttime file).tc ep = file.tc ep := by
  obtain ⟨htopology, hlive, hsaved⟩ := @refresh_of_clean _ file hostStarttime h
  unfold tc LabFile.tc
  rw [htopology, hlive, hsaved]

/-- What a handle that has the file saves of its impairments and partitions. -/
structure Saves (lab : RunningLab) (file file' : LabFile) : Prop where
  tc : ∀ ep, file'.tc ep = lab.tc ep
  sameBut : file.SameBut file'
  version : ¬ file'.state.schemaVersion > SCHEMA_VERSION

theorem commit_refreshed (h : lab.snapshot.topology = lab.baseline.topology) {live saved : BTreeMap String Impairment}
    {file' : LabFile} (hcommit : ((lab.refresh hostStarttime file).withTc live saved).commit file = .ok file') :
    ((lab.refresh hostStarttime file).withTc live saved).Saves file file' := by
  have htopology : (lab.refresh hostStarttime file).topology = file.topology := if_pos h
  have hmerged : ((lab.refresh hostStarttime file).withTc live saved).mergedTopology file = file.topology :=
    if_pos (congrArg Json.toValue htopology)
  unfold commit saveMerged at hcommit
  split_ifs at hcommit
  dsimp only at hcommit
  rw [hmerged] at hcommit
  cases hcommit
  refine ⟨fun ep => EndpointTc.ext ?_ ?_ ?_, ⟨_, rfl⟩, Nat.lt_irrefl _⟩
  · exact congrArg (·.impairments[ep]?) htopology.symm
  · exact congrArg (·[ep]?) (mergeMap_fresh file.state.liveImpairments live)
  · exact congrArg (·[ep]?) (mergeMap_fresh file.state.savedImpairments saved)

theorem exists_commit (hversion : ¬ file.state.schemaVersion > SCHEMA_VERSION) (lab : RunningLab) :
    ∃ file', lab.commit file = .ok file' := by
  unfold commit saveMerged
  rw [if_neg hversion]
  exact ⟨_, rfl⟩

/-- What a change of a handle that had nothing to save leaves. -/
structure Changed (lab' : RunningLab) (file file' : LabFile) (keeps : String → Prop) : Prop where
  clean : lab'.Clean
  version : ¬ file'.state.schemaVersion > SCHEMA_VERSION
  sameBut : file.SameBut file'
  kept : ∀ ep, keeps ep → file'.tc ep = file.tc ep

theorem changed_mutate (h : lab.Clean) (hversion : ¬ file.state.schemaVersion > SCHEMA_VERSION) (task : Task) :
    Changed (lab.mutate host task file).2.1 file (lab.mutate host task file).2.2 (· ∉ task.targets) := by
  have hsame : Changed (lab.refresh host.starttime file) file file (· ∉ task.targets) :=
    ⟨clean_refresh h, hversion, .refl file, fun _ _ => rfl⟩
  unfold mutate
  dsimp only
  cases hrun : task.run host (lab.refresh host.starttime file) with
  | error e => exact hsame
  | ok o =>
    cases o with
    | none => exact hsame
    | some lab' =>
      obtain ⟨file', hcommit⟩ := exists_commit hversion lab'
      have hretuned := run_retuned hrun
      rw [Option.getD_some] at hretuned
      dsimp only
      rw [hcommit]
      rw [hretuned.frame] at hcommit
      obtain ⟨htc, hsameBut, hversion'⟩ := commit_refreshed h.topology hcommit
      refine ⟨⟨rfl, rfl, rfl⟩, hversion', hsameBut, fun ep hep => ?_⟩
      rw [htc, ← hretuned.frame, hretuned.tc, Task.on_of_notMem hep, tc_refresh h]

/-! ### Putting back -/

theorem getElem?_restoreTarget (eps : List String) (now was : BTreeMap String Impairment) (ep : String) :
    (restoreTarget (some eps) now was)[ep]? = if ep ∈ eps then was[ep]? else now[ep]? := by
  unfold restoreTarget
  dsimp only
  induction eps generalizing now with
  | nil => rfl
  | cons e eps ih =>
    rw [List.foldl_cons, ih, getElem?_restoreEntry]
    by_cases heps : ep ∈ eps
    · rw [if_pos heps, if_pos (List.mem_cons_of_mem _ heps)]
    · rw [if_neg heps]
      exact if_congr (by rw [List.mem_cons, or_iff_left heps, eq_comm]) rfl rfl

theorem mem_restoreChanges {live partitions : BTreeMap String Impairment} {ep : String} :
    ep ∈ lab.restoreChanges live partitions ↔
      lab.liveImpairments[ep]? ≠ live[ep]? ∨ lab.savedImpairments.contains ep ≠ partitions.contains ep := by
  unfold restoreChanges
  rw [mem_btreeSet, List.mem_append, List.mem_filter, List.mem_filter]
  simp only [List.mem_append, Std.ExtTreeMap.mem_keys, decide_eq_true_eq]
  refine or_congr (and_iff_right_of_imp fun h => ?_) (and_iff_right_of_imp fun h => ?_)
  · by_contra hno
    rw [not_or] at hno
    exact h (by rw [Std.ExtTreeMap.getElem?_eq_none hno.1, Std.ExtTreeMap.getElem?_eq_none hno.2])
  · by_contra hno
    rw [not_or] at hno
    exact h ((Bool.eq_false_iff.mpr hno.1).trans (Bool.eq_false_iff.mpr hno.2).symm)

/-- What putting back leaves: the endpoints of `eps` as they were recorded, which are what
changed. -/
structure PutsBack (state : RuntimeTc) (eps changed : List String) (file file' : LabFile) : Prop where
  live : ∀ ep ∈ eps, (file'.tc ep).live = state.live[ep]?
  partitioned : ∀ ep ∈ eps, (file'.tc ep).partitioned = state.partitions.contains ep
  changed : ∀ ep, ep ∈ changed ↔ (file'.tc ep).live ≠ (file.tc ep).live ∨ (file'.tc ep).partitioned ≠ (file.tc ep).partitioned

theorem partitioned_eq_contains (file : LabFile) (ep : String) :
    (file.tc ep).partitioned = file.state.savedImpairments.contains ep :=
  Std.ExtTreeMap.contains_eq_isSome_getElem?.symm

section

variable {state : RuntimeTc} {eps changed : List String} {lab' : RunningLab} {file' : LabFile}

/-- A file with the targets of a handle that has nothing to save. -/
theorem putsBack_of_targets (h : lab.Clean)
    (hlive : ∀ ep, (file'.tc ep).live = (restoreTarget (some eps) file.state.liveImpairments state.live)[ep]?)
    (hpartitioned : ∀ ep, (file'.tc ep).partitioned =
      (restoreTarget (some eps) file.state.savedImpairments state.partitions).contains ep) :
    PutsBack state eps ((lab.refresh hostStarttime file).restoreChanges
      (restoreTarget (some eps) file.state.liveImpairments state.live)
      (restoreTarget (some eps) file.state.savedImpairments state.partitions)) file file' where
  live ep hep := by rw [hlive, getElem?_restoreTarget, if_pos hep]
  partitioned ep hep := by
    rw [hpartitioned, Std.ExtTreeMap.contains_eq_isSome_getElem?, getElem?_restoreTarget, if_pos hep,
      ← Std.ExtTreeMap.contains_eq_isSome_getElem?]
  changed ep := by
    obtain ⟨-, hl, hs⟩ := @refresh_of_clean _ file hostStarttime h
    rw [mem_restoreChanges, hl, hs, hlive, hpartitioned, partitioned_eq_contains]
    exact or_congr ne_comm ne_comm

theorem restoreRuntimeTc_of_clean (h : lab.Clean) (hversion : ¬ file.state.schemaVersion > SCHEMA_VERSION)
    (hrestore : lab.restoreRuntimeTc host state (some eps) file = (.ok changed, lab', file')) :
    Changed lab' file file' (· ∉ eps) ∧ PutsBack state eps changed file file' := by
  obtain ⟨-, hlive, hsaved⟩ := @refresh_of_clean _ file host.starttime h
  unfold restoreRuntimeTc at hrestore
  dsimp only at hrestore
  rw [hlive, hsaved] at hrestore
  split at hrestore
  · rename_i hnone
    cases hrestore
    have hsame : ∀ ep, ¬ ep ∈ (lab.refresh host.starttime file).restoreChanges
        (restoreTarget (some eps) file.state.liveImpairments state.live)
        (restoreTarget (some eps) file.state.savedImpairments state.partitions) := by
      rw [hnone]
      exact fun _ => List.not_mem_nil
    simp only [mem_restoreChanges, hlive, hsaved, not_or, not_not] at hsame
    refine ⟨⟨clean_refresh h, hversion, .refl file, fun _ _ => rfl⟩, ?_⟩
    have hback := @putsBack_of_targets _ file host.starttime _ _ _ h (fun ep => (hsame ep).1) fun ep =>
      (partitioned_eq_contains file ep).trans (hsame ep).2
    rwa [hnone] at hback
  · split at hrestore
    · cases hrestore
    · split at hrestore
      · rename_i hcommit
        cases hrestore
        obtain ⟨htc, hsameBut, hversion'⟩ := commit_refreshed h.topology hcommit
        refine ⟨⟨⟨rfl, rfl, rfl⟩, hversion', hsameBut, fun ep hep => ?_⟩,
          putsBack_of_targets h (fun ep => congrArg EndpointTc.live (htc ep)) fun ep =>
            (congrArg EndpointTc.partitioned (htc ep)).trans Std.ExtTreeMap.contains_eq_isSome_getElem?.symm⟩
        rw [htc, ← @tc_refresh _ file host.starttime h]
        refine EndpointTc.ext rfl ?_ ?_
        · change (restoreTarget (some eps) file.state.liveImpairments state.live)[ep]? = _
          rw [getElem?_restoreTarget, if_neg hep, ← hlive]
          rfl
        · change (restoreTarget (some eps) file.state.savedImpairments state.partitions)[ep]? = _
          rw [getElem?_restoreTarget, if_neg hep, ← hsaved]
          rfl
      · cases hrestore

end

/-- Where every change is taken, putting back fails only for a node that is not there. -/
theorem exists_restoreRuntimeTc (hhost : host.Takes) (h : lab.Clean) (hversion : ¬ file.state.schemaVersion > SCHEMA_VERSION)
    (state : RuntimeTc) (eps : List String) :
    (∃ changed, (lab.restoreRuntimeTc host state (some eps) file).1 = .ok changed) ↔
      ∀ ep ∈ eps, ((file.tc ep).live ≠ state.live[ep]? ∨ (file.tc ep).partitioned ≠ state.partitions.contains ep) →
        ∀ r, EndpointRef.parse ep = some r → ((lab.refresh host.starttime file).nsResolverOf host r.node).isSome := by
  obtain ⟨-, hlive, hsaved⟩ := @refresh_of_clean _ file host.starttime h
  -- the endpoints that change
  have hchanges : ∀ ep, ep ∈ (lab.refresh host.starttime file).restoreChanges
      (restoreTarget (some eps) file.state.liveImpairments state.live)
      (restoreTarget (some eps) file.state.savedImpairments state.partitions) ↔
        ep ∈ eps ∧ ((file.tc ep).live ≠ state.live[ep]? ∨ (file.tc ep).partitioned ≠ state.partitions.contains ep) := by
    intro ep
    rw [mem_restoreChanges, hlive, hsaved, getElem?_restoreTarget, ← partitioned_eq_contains,
      Std.ExtTreeMap.contains_eq_isSome_getElem?, getElem?_restoreTarget]
    by_cases hep : ep ∈ eps
    · rw [if_pos hep, if_pos hep, and_iff_right hep, Std.ExtTreeMap.contains_eq_isSome_getElem?]
      rfl
    · rw [if_neg hep, if_neg hep, iff_false_right fun h => hep h.1]
      exact fun h => h.elim (· rfl) (· rfl)
  unfold restoreRuntimeTc
  dsimp only
  rw [hlive, hsaved]
  generalize (lab.refresh host.starttime file).restoreChanges
    (restoreTarget (some eps) file.state.liveImpairments state.live)
    (restoreTarget (some eps) file.state.savedImpairments state.partitions) = changed at hchanges ⊢
  have hmem : ∀ node, node ∈ btreeSet (changed.filterMap fun ep => (EndpointRef.parse ep).map (·.node)) ↔
      ∃ ep ∈ changed, ∃ r, EndpointRef.parse ep = some r ∧ r.node = node := fun node => by
    simp only [mem_btreeSet, List.mem_filterMap, Option.map_eq_some_iff]
  by_cases hnone : changed = []
  · subst hnone
    rw [if_pos rfl]
    exact iff_of_true ⟨[], rfl⟩ fun ep hep hdiff => absurd ((hchanges ep).mpr ⟨hep, hdiff⟩) List.not_mem_nil
  · rw [if_neg hnone]
    split
    · rename_i e hfind
      obtain ⟨node, hnode, hfail⟩ := List.exists_of_findSome?_eq_some hfind
      obtain ⟨ep, hep, r, hparse, rfl⟩ := (hmem node).mp hnode
      refine iff_of_false (by rintro ⟨_, ⟨⟩⟩) fun hall => ?_
      obtain ⟨heps, hdiff⟩ := (hchanges ep).mp hep
      obtain ⟨ns, hns⟩ := Option.isSome_iff_exists.mp (hall ep heps hdiff r hparse)
      have hns' : ((lab.refresh host.starttime file).withTc
          (restoreTarget (some eps) file.state.liveImpairments state.live)
          (restoreTarget (some eps) file.state.savedImpairments state.partitions)).nsResolverOf host r.node = some ns := hns
      rw [hns'] at hfail
      dsimp only at hfail
      rw [hhost.reconcile] at hfail
      cases hfail
    · rename_i hfind
      obtain ⟨file', hcommit⟩ := exists_commit hversion ((lab.refresh host.starttime file).withTc
        (restoreTarget (some eps) file.state.liveImpairments state.live)
        (restoreTarget (some eps) file.state.savedImpairments state.partitions))
      rw [hcommit]
      refine iff_of_true ⟨changed, rfl⟩ fun ep hep hdiff r hparse => ?_
      have hnode := List.findSome?_eq_none_iff.mp hfind r.node
        ((hmem r.node).mpr ⟨ep, (hchanges ep).mpr ⟨hep, hdiff⟩, r, hparse, rfl⟩)
      by_contra hno
      have hns : ((lab.refresh host.starttime file).withTc
          (restoreTarget (some eps) file.state.liveImpairments state.live)
          (restoreTarget (some eps) file.state.savedImpairments state.partitions)).nsResolverOf host r.node = none :=
        Option.not_isSome_iff_eq_none.mp hno
      rw [hns] at hnode
      cases hnode

end RunningLab

end NlinkLab
