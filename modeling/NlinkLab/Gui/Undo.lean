import NlinkLab.Gui.Control

/-! Whether the undo of a change puts back what was. The request that undoes a change is one
request on the endpoint of the editor; what an impairment did to the other end of the link,
what lay under a partition, and a declared impairment are put back only where
`Undoable` says so. -/

namespace NlinkLab.Gui

open Fallible

variable {host : Host} {vals : Values} {file file₁ : LabFile}

/-- The list of a lab tab that is up to date. -/
def listed (host : Host) (file : LabFile) : List EndpointImpairment := endpointImpairments (.load host.starttime file)

/-- An endpoint that a change has changed. -/
def Changed (file file' : LabFile) (ep : String) : Prop :=
  (file'.tc ep).live ≠ (file.tc ep).live ∨ (file'.tc ep).partitioned ≠ (file.tc ep).partitioned

/-- An endpoint as it was, seen from outside. -/
structure PutBack (c c' : EndpointTc) : Prop where
  live : c'.live = c.live
  partitioned : c'.partitioned = c.partitioned
  effective : c'.effective = c.effective

/-- An impairment that may be set. -/
def Accepts (vals : Values) (imp : Impairment) : Prop := Impairment.ofSpec vals imp = .ok imp

/-- The endpoints the editor's impairment is set on. -/
def setOn (host : Host) (file : LabFile) (e : ImpairEditor) : List String :=
  match (RunningLab.load host.starttime file).directed e.endpoint e.spec e.direction with
  | .ok l => l.map (·.1)
  | .error _ => []

/-- When a change of the editor's endpoint is put back by its undo. -/
def Undoable (host : Host) (vals : Values) (file : LabFile) (e : ImpairEditor) (c : Control) : Prop :=
  let was := file.tc e.endpoint
  let ready := (RunningLab.opened host.starttime file).Ready host e.endpoint
  match c with
  | .impair =>
    -- the undo is about the editor's endpoint only
    (∀ ep ∈ setOn host file e, ep ≠ e.endpoint → (file.tc ep).live = some e.spec) ∧
    if was.partitioned then e.endpoint ∈ setOn host file e → was.live = some e.spec
    else ready ∧
      match was.live with
      | some imp => Accepts vals imp
      | none => e.endpoint ∈ setOn host file e → was.declared = none
  | .clear =>
    if was.partitioned then was.clear.live = was.live
    else
      match was.live with
      | some imp => Accepts vals imp
      | none => was.declared = none
  | .partition => was.partitioned → ready ∧ ¬ file.state.schemaVersion > SCHEMA_VERSION
  | .heal => True

/-! ### The lab between a change and its undo -/

theorem serve_tc {request : Request} (h : serve host vals file request = .ok file₁) :
    ∃ task, request.task vals (.load host.starttime file) = .ok task ∧ ∀ ep, file₁.tc ep = task.on ep (file.tc ep) := by
  obtain ⟨task, o, htask, hrun, hfinish⟩ := serve_eq_ok.mp h
  exact ⟨task, htask, (RunningLab.finish_retuned hrun hfinish).tc⟩

theorem isSome_zeroStaleContainerPids (starttime : UInt32 → Option UInt64) (containers : BTreeMap String ContainerState)
    (node : String) : (zeroStaleContainerPids starttime containers)[node]?.isSome = containers[node]?.isSome := by
  unfold zeroStaleContainerPids
  rw [Std.ExtTreeMap.getElem?_map, Option.isSome_map]

theorem ready_opened {lab lab' : RunningLab} (hnodes : lab.topology.nodes = lab'.topology.nodes)
    (hnames : lab.namespaceNames = lab'.namespaceNames) (hruntime : lab.runtimeBinary = lab'.runtimeBinary)
    (hcontainers : ∀ node : String, lab.containers[node]?.isSome = lab'.containers[node]?.isSome) {ep : String}
    (h : lab.Ready host ep) : lab'.Ready host ep := by
  obtain ⟨r, ns, hr, hours, hns⟩ := h
  have hsome : (lab.nsResolverOf host r.node).isSome = (lab'.nsResolverOf host r.node).isSome := by
    unfold RunningLab.nsResolverOf
    rw [hnodes, hnames, hruntime]
    split
    · rfl
    · split
      · rfl
      · rw [Option.isSome_map, Option.isSome_map, hcontainers]
  obtain ⟨ns', hns'⟩ := Option.isSome_iff_exists.mp (hsome ▸ Option.isSome_iff_exists.mpr ⟨ns, hns⟩)
  refine ⟨r, ns', hr, ?_, hns'⟩
  unfold RunningLab.tcIsOurs at hours ⊢
  rwa [← hnodes]

/-- A node is as ready after a request as before. -/
theorem ready_serve {request : Request} (h : serve host vals file request = .ok file₁) {ep : String} :
    (RunningLab.opened host.starttime file₁).Ready host ep ↔ (RunningLab.opened host.starttime file).Ready host ep := by
  obtain ⟨task, o, htask, hrun, hfinish⟩ := serve_eq_ok.mp h
  rcases (RunningLab.finish_retuned hrun hfinish).frame with heq | heq
  · rw [heq]
  · have hcontainers : ∀ node : String, (RunningLab.opened host.starttime file₁).containers[node]?.isSome =
        (RunningLab.opened host.starttime file).containers[node]?.isSome := by
      intro node
      rw [heq]
      exact isSome_zeroStaleContainerPids host.starttime _ node
    have hnodes : file₁.topology.nodes = file.topology.nodes := by rw [heq]; rfl
    have hnames : file₁.state.namespaces = file.state.namespaces := by rw [heq]; rfl
    have hruntime : file₁.state.runtime = file.state.runtime := by rw [heq]; rfl
    exact ⟨ready_opened hnodes hnames hruntime hcontainers,
      ready_opened hnodes.symm hnames.symm hruntime.symm fun node => (hcontainers node).symm⟩

/-- A request that is served is of a node that is ready. -/
theorem ready_of_serve {request : Request} {task : Task} (hhost : host.Takes)
    (h : serve host vals file request = .ok file₁) (htask : request.task vals (.load host.starttime file) = .ok task) :
    task.Ready host (.opened host.starttime file) := by
  obtain ⟨task', htask', hready, -⟩ := (exists_serve hhost).mp ⟨file₁, h⟩
  cases htask.symm.trans htask'
  exact hready

theorem version_of_serve {request : Request} {task : Task} (h : serve host vals file request = .ok file₁)
    (htask : request.task vals (.load host.starttime file) = .ok task)
    (hidle : ¬ task.Idle (.opened host.starttime file)) : ¬ file₁.state.schemaVersion > SCHEMA_VERSION := by
  obtain ⟨task', o, htask', hrun, hfinish⟩ := serve_eq_ok.mp h
  cases htask.symm.trans htask'
  cases o with
  | none => exact absurd ((Task.idle_iff hrun).mpr rfl) hidle
  | some lab =>
    have hcommit : lab.commit file = .ok file₁ := hfinish
    have hframe := (RunningLab.run_retuned hrun).frame
    rw [Option.getD_some] at hframe
    rw [hframe] at hcommit
    obtain ⟨-, rfl⟩ := RunningLab.commit_opened.mp hcommit
    exact UInt32.lt_irrefl SCHEMA_VERSION

/-- What an undo does, from its task. -/
theorem undone_iff (hhost : host.Takes) {undo : Request} {task : Task}
    (htask : undo.task vals (.load host.starttime file₁) = .ok task) :
    (∃ file₂, serve host vals file₁ undo = .ok file₂ ∧
        ∀ ep, Changed file file₁ ep → PutBack (file.tc ep) (file₂.tc ep)) ↔
      task.Ready host (.opened host.starttime file₁) ∧
        (task.Idle (.opened host.starttime file₁) ∨ ¬ file₁.state.schemaVersion > SCHEMA_VERSION) ∧
        ∀ ep, Changed file file₁ ep → PutBack (file.tc ep) (task.on ep (file₁.tc ep)) := by
  constructor
  · rintro ⟨file₂, h, hback⟩
    obtain ⟨task', htask', hready, hsaves⟩ := (exists_serve hhost).mp ⟨file₂, h⟩
    cases htask.symm.trans htask'
    obtain ⟨task', htask', htc⟩ := serve_tc h
    cases htask.symm.trans htask'
    exact ⟨hready, hsaves, fun ep hep => htc ep ▸ hback ep hep⟩
  · rintro ⟨hready, hsaves, hback⟩
    obtain ⟨file₂, h⟩ := (exists_serve hhost).mpr ⟨task, htask, hready, hsaves⟩
    obtain ⟨task', htask', htc⟩ := serve_tc h
    cases htask.symm.trans htask'
    exact ⟨file₂, h, fun ep hep => htc ep ▸ hback ep hep⟩

/-! ### Cases -/

/-- An endpoint is put back when its live impairment and its partition are. -/
theorem PutBack.of {c c' : EndpointTc} (hlive : c'.live = c.live) (hpartitioned : c'.partitioned = c.partitioned)
    (hdeclared : c'.declared = c.declared) : PutBack c c' :=
  ⟨hlive, hpartitioned, by rw [EndpointTc.effective, hlive, hdeclared, EndpointTc.effective]⟩

/-- One impairment set on several endpoints. -/
theorem on_set_eq {l : List (String × Impairment)} {imp : Impairment} (h : ∀ x ∈ l, x.2 = imp) (ep : String)
    (c : EndpointTc) : (Task.set l).on ep c = if ep ∈ l.map (·.1) then c.set imp else c := by
  induction l generalizing c with
  | nil => rfl
  | cons x l ih =>
    obtain ⟨e, imp'⟩ := x
    obtain rfl : imp' = imp := h _ List.mem_cons_self
    rw [Task.on_set_cons, ih fun y hy => h y (List.mem_cons_of_mem _ hy), List.map_cons]
    by_cases he : e = ep
    · subst he
      have hset : (c.set imp').set imp' = c.set imp' := by
        cases hsaved : c.saved <;> simp [EndpointTc.set, hsaved]
      simp [hset]
    · rw [if_neg he]
      exact if_congr (by simp [Ne.symm he]) rfl rfl

theorem cut_of_partitioned {c : EndpointTc} (h : c.partitioned) : c.cut = c := by
  obtain ⟨imp, himp⟩ := Option.isSome_iff_exists.mp h
  exact EndpointTc.ext rfl rfl (by simp [EndpointTc.cut, himp])

theorem partitioned_iff {endpoint : String} :
    endpoint ∈ (RunningLab.opened host.starttime file).savedImpairments ↔ (file.tc endpoint).partitioned := by
  have h := partitioned_tc (.opened host.starttime file) endpoint
  exact ⟨fun hmem => h.trans (decide_eq_true hmem), fun hp => of_decide_eq_true (h.symm.trans hp)⟩

/-- The undo of a change of the editor's endpoint. -/
theorem undoRequest_listed (endpoint : String) :
    undoRequest ((listed host file).find? (·.endpoint = endpoint)) endpoint =
      if (file.tc endpoint).partitioned then .partition endpoint
      else match (file.tc endpoint).live with
        | some spec => .impair endpoint .out spec
        | none => .clearImpairment endpoint :=
  undoRequest_endpointImpairments (.load host.starttime file) endpoint

/-! ### An impairment -/

/-- The lab after an impairment of the editor's endpoint. -/
structure Impaired (host : Host) (e : ImpairEditor) (file file₁ : LabFile) : Prop where
  tc : ∀ ep, file₁.tc ep = if ep ∈ setOn host file e then (file.tc ep).set e.spec else file.tc ep
  version : ¬ file₁.state.schemaVersion > SCHEMA_VERSION
  ready : ∀ ep, (RunningLab.opened host.starttime file₁).Ready host ep ↔
    (RunningLab.opened host.starttime file).Ready host ep

theorem impaired_of_serve {e : ImpairEditor}
    (h : serve host vals file (.impair e.endpoint e.direction e.spec) = .ok file₁) : Impaired host e file file₁ := by
  obtain ⟨task, htask, htc⟩ := serve_tc h
  obtain ⟨imp, himp, hset⟩ := bind_eq_ok.mp htask
  obtain ⟨l, hl, hset⟩ := bind_eq_ok.mp hset
  cases hset
  obtain ⟨rfl, -⟩ := ofSpec_eq_ok himp
  refine ⟨fun ep => ?_, version_of_serve h htask id, fun ep => ready_serve h⟩
  rw [htc, on_set_eq (directed_eq_ok hl), setOn, hl]

namespace Impaired

variable {e : ImpairEditor} (h : Impaired host e file file₁)

include h

theorem declared (ep : String) : (file₁.tc ep).declared = (file.tc ep).declared := by
  rw [h.tc]
  split_ifs <;> rfl

theorem partitioned (ep : String) : (file₁.tc ep).partitioned = (file.tc ep).partitioned := by
  rw [h.tc]
  split_ifs
  · simp [EndpointTc.set, EndpointTc.partitioned]
  · rfl

theorem changed (ep : String) : Changed file file₁ ep ↔ ep ∈ setOn host file e ∧ (file.tc ep).live ≠ some e.spec := by
  rw [Changed, h.partitioned, h.tc]
  split_ifs with hep
  · simp [EndpointTc.set, hep, eq_comm]
  · simp [hep]

/-- An endpoint that the impairment changed and the undo leaves alone is not put back. -/
theorem live_of_putBack {ep : String} {c : EndpointTc} (hc : c = file₁.tc ep) (hep : ep ∈ setOn host file e)
    (hback : Changed file file₁ ep → PutBack (file.tc ep) c) : (file.tc ep).live = some e.spec := by
  by_contra hlive
  have hback := (hback ((h.changed ep).mpr ⟨hep, hlive⟩)).live
  rw [hc, h.tc, if_pos hep] at hback
  exact hlive hback.symm

/-- The undo that partitions the endpoint again. -/
theorem undo_partition (hhost : host.Takes) (hp : (file.tc e.endpoint).partitioned) :
    (∃ file₂, serve host vals file₁ (.partition e.endpoint) = .ok file₂ ∧
        ∀ ep, Changed file file₁ ep → PutBack (file.tc ep) (file₂.tc ep)) ↔
      ∀ ep ∈ setOn host file e, (file.tc ep).live = some e.spec := by
  have hp₁ := (h.partitioned e.endpoint).trans hp
  have hsaved : e.endpoint ∈ (RunningLab.opened host.starttime file₁).savedImpairments := partitioned_iff.mpr hp₁
  have hon : ∀ ep, (Task.partition e.endpoint).on ep (file₁.tc ep) = file₁.tc ep := by
    intro ep
    rw [Task.on]
    split_ifs with hep
    · subst hep
      exact cut_of_partitioned hp₁
    · rfl
  rw [undone_iff hhost rfl]
  constructor
  · rintro ⟨-, -, hback⟩ ep hep
    exact h.live_of_putBack (hon ep) hep (hback ep)
  · intro hlive
    refine ⟨.inl hsaved, .inl hsaved, fun ep hep => ?_⟩
    obtain ⟨hep, hne⟩ := (h.changed ep).mp hep
    exact absurd (hlive ep hep) hne

/-- The undo that sets the endpoint's live impairment again. -/
theorem undo_set (hhost : host.Takes) {imp : Impairment}
    (hlive : (file.tc e.endpoint).live = some imp) :
    (∃ file₂, serve host vals file₁ (.impair e.endpoint .out imp) = .ok file₂ ∧
        ∀ ep, Changed file file₁ ep → PutBack (file.tc ep) (file₂.tc ep)) ↔
      (∀ ep ∈ setOn host file e, ep ≠ e.endpoint → (file.tc ep).live = some e.spec) ∧
        (RunningLab.opened host.starttime file).Ready host e.endpoint ∧ Accepts vals imp := by
  by_cases haccepts : Accepts vals imp
  · have htask : (Request.impair e.endpoint .out imp).task vals (.load host.starttime file₁) =
        .ok (.set [(e.endpoint, imp)]) := by
      have hspec : Impairment.ofSpec vals imp = .ok imp := haccepts
      rw [Request.task, hspec]
      rfl
    have hready : (Task.set [(e.endpoint, imp)]).Ready host (.opened host.starttime file₁) ↔
        (RunningLab.opened host.starttime file).Ready host e.endpoint :=
      List.forall_mem_singleton.trans (h.ready e.endpoint)
    have hon : ∀ ep, ep ≠ e.endpoint → (Task.set [(e.endpoint, imp)]).on ep (file₁.tc ep) = file₁.tc ep :=
      fun ep hne => Task.on_of_notMem (fun hmem => hne (List.mem_singleton.mp hmem)) _
    rw [undone_iff hhost htask, hready]
    constructor
    · rintro ⟨hready, -, hback⟩
      exact ⟨fun ep hep hne => h.live_of_putBack (hon ep hne) hep (hback ep), hready, haccepts⟩
    · rintro ⟨hothers, hready, -⟩
      refine ⟨hready, .inr h.version, fun ep hep => ?_⟩
      obtain ⟨hep, hne⟩ := (h.changed ep).mp hep
      by_cases heq : ep = e.endpoint
      · subst heq
        have hdeclared : ((file₁.tc e.endpoint).set imp).declared = (file.tc e.endpoint).declared := h.declared _
        rw [Task.on_set_cons, if_pos rfl]
        refine .of hlive.symm ?_ hdeclared
        rw [← h.partitioned]
        exact Option.isSome_map
      · exact absurd (hothers ep hep heq) hne
  · refine iff_of_false ?_ fun hback => haccepts hback.2.2
    rintro ⟨file₂, h₂, -⟩
    obtain ⟨task, htask, -⟩ := serve_tc h₂
    obtain ⟨imp', himp', -⟩ := bind_eq_ok.mp htask
    obtain ⟨rfl, -⟩ := ofSpec_eq_ok himp'
    exact haccepts himp'

/-- The undo that clears the endpoint. -/
theorem undo_clear (hhost : host.Takes) (hp : (file.tc e.endpoint).partitioned = false)
    (hlive : (file.tc e.endpoint).live = none) :
    (∃ file₂, serve host vals file₁ (.clearImpairment e.endpoint) = .ok file₂ ∧
        ∀ ep, Changed file file₁ ep → PutBack (file.tc ep) (file₂.tc ep)) ↔
      (∀ ep ∈ setOn host file e, ep ≠ e.endpoint → (file.tc ep).live = some e.spec) ∧
        (RunningLab.opened host.starttime file).Ready host e.endpoint ∧
        (e.endpoint ∈ setOn host file e → (file.tc e.endpoint).declared = none) := by
  have hready : (Task.clear e.endpoint).Ready host (.opened host.starttime file₁) ↔
      (RunningLab.opened host.starttime file).Ready host e.endpoint := h.ready e.endpoint
  have hon : ∀ ep, ep ≠ e.endpoint → (Task.clear e.endpoint).on ep (file₁.tc ep) = file₁.tc ep :=
    fun ep hne => Task.on_of_notMem (fun hmem => hne (List.mem_singleton.mp hmem)) _
  have hown : (Task.clear e.endpoint).on e.endpoint (file₁.tc e.endpoint) = (file₁.tc e.endpoint).clear := if_pos rfl
  rw [undone_iff hhost rfl, hready]
  constructor
  · rintro ⟨hready, -, hback⟩
    refine ⟨fun ep hep hne => h.live_of_putBack (hon ep hne) hep (hback ep), hready, fun hep => ?_⟩
    have hback := (hback e.endpoint ((h.changed _).mpr ⟨hep, hlive ▸ nofun⟩)).live
    rw [hown, hlive] at hback
    rw [← h.declared]
    exact Option.map_eq_none_iff.mp hback
  · rintro ⟨hothers, hready, hdeclared⟩
    refine ⟨hready, .inr h.version, fun ep hep => ?_⟩
    obtain ⟨hep, hne⟩ := (h.changed ep).mp hep
    by_cases heq : ep = e.endpoint
    · subst heq
      have hclear : (file₁.tc e.endpoint).clear.declared = (file.tc e.endpoint).declared := h.declared _
      rw [hown]
      refine .of ?_ hp.symm hclear
      rw [hlive]
      exact Option.map_eq_none_iff.mpr ((h.declared _).trans (hdeclared hep))
    · exact absurd (hothers ep hep heq) hne

end Impaired

section

variable (hhost : host.Takes) {e : ImpairEditor} {request undo : Request}

include hhost

theorem undo_impair (hcontrol : control (listed host file) e .impair = some (request, undo))
    (h : serve host vals file request = .ok file₁) :
    (∃ file₂, serve host vals file₁ undo = .ok file₂ ∧
        ∀ ep, Changed file file₁ ep → PutBack (file.tc ep) (file₂.tc ep)) ↔
      Undoable host vals file e .impair := by
  unfold control at hcontrol
  dsimp only at hcontrol
  split_ifs at hcontrol
  obtain ⟨rfl, rfl⟩ := Prod.mk.inj (Option.some.inj hcontrol)
  have himpaired := impaired_of_serve h
  rw [undoRequest_listed, Undoable]
  by_cases hp : (file.tc e.endpoint).partitioned
  · rw [if_pos hp, if_pos hp, himpaired.undo_partition hhost hp]
    refine ⟨fun hall => ⟨fun ep hep _ => hall ep hep, hall e.endpoint⟩, fun ⟨hothers, hown⟩ ep hep => ?_⟩
    by_cases heq : ep = e.endpoint
    · exact heq ▸ hown (heq ▸ hep)
    · exact hothers ep hep heq
  · rw [if_neg hp, if_neg hp]
    rw [Bool.not_eq_true] at hp
    cases hlive : (file.tc e.endpoint).live with
    | some imp => exact himpaired.undo_set hhost hlive
    | none => exact himpaired.undo_clear hhost hp hlive

/-- The lab after a change of one endpoint, whose undo is about that endpoint. -/
theorem undone_single {ep : String} {task task' : Task} (htc : ∀ ep', file₁.tc ep' = task.on ep' (file.tc ep'))
    (htargets : task.targets = [ep])
    (hundo : undo.task vals (.load host.starttime file₁) = .ok task') :
    (∃ file₂, serve host vals file₁ undo = .ok file₂ ∧
        ∀ ep', Changed file file₁ ep' → PutBack (file.tc ep') (file₂.tc ep')) ↔
      task'.Ready host (.opened host.starttime file₁) ∧
        (task'.Idle (.opened host.starttime file₁) ∨ ¬ file₁.state.schemaVersion > SCHEMA_VERSION) ∧
        (Changed file file₁ ep → PutBack (file.tc ep) (task'.on ep (file₁.tc ep))) := by
  have hother : ∀ ep', ep' ≠ ep → ¬ Changed file file₁ ep' := by
    intro ep' hne
    have hsame : file₁.tc ep' = file.tc ep' := by
      rw [htc, Task.on_of_notMem (htargets ▸ fun hmem => hne (List.mem_singleton.mp hmem))]
    rw [Changed, hsame]
    exact not_or.mpr ⟨fun h => h rfl, fun h => h rfl⟩
  rw [undone_iff hhost hundo]
  refine and_congr_right fun _ => and_congr_right fun _ => ⟨fun h => h ep, fun h ep' hep' => ?_⟩
  by_cases heq : ep' = ep
  · exact heq ▸ h (heq ▸ hep')
  · exact absurd hep' (hother ep' heq)

omit hhost in
theorem eq_of_idle {task : Task} (h : serve host vals file request = .ok file₁)
    (htask : request.task vals (.load host.starttime file) = .ok task)
    (hidle : task.Idle (.opened host.starttime file)) : file₁ = file := by
  obtain ⟨task', o, htask', hrun, hfinish⟩ := serve_eq_ok.mp h
  cases htask.symm.trans htask'
  obtain rfl := (Task.idle_iff hrun).mp hidle
  cases hfinish
  rfl

theorem undo_clear (hcontrol : control (listed host file) e .clear = some (request, undo))
    (h : serve host vals file request = .ok file₁) :
    (∃ file₂, serve host vals file₁ undo = .ok file₂ ∧
        ∀ ep, Changed file file₁ ep → PutBack (file.tc ep) (file₂.tc ep)) ↔
      Undoable host vals file e .clear := by
  obtain ⟨rfl, rfl⟩ := Prod.mk.inj (Option.some.inj hcontrol)
  obtain ⟨task, htask, htc⟩ := serve_tc h
  have hready := ready_of_serve hhost h htask
  have hversion := version_of_serve h htask (by cases htask; exact id)
  cases htask
  have hready₁ : (RunningLab.opened host.starttime file₁).Ready host e.endpoint := (ready_serve h).mpr hready
  have htc₁ : file₁.tc e.endpoint = (file.tc e.endpoint).clear := (htc _).trans (if_pos rfl)
  have hlive₁ : (file₁.tc e.endpoint).live = (file.tc e.endpoint).clear.live := congrArg _ htc₁
  rw [undoRequest_listed, Undoable]
  by_cases hp : (file.tc e.endpoint).partitioned
  · have hchanged : Changed file file₁ e.endpoint := by
      refine .inr ?_
      rw [htc₁, hp]
      nofun
    have hon : (Task.partition e.endpoint).on e.endpoint (file₁.tc e.endpoint) = (file.tc e.endpoint).clear.cut := by
      rw [htc₁]
      exact if_pos rfl
    rw [if_pos hp, if_pos hp, undone_single hhost htc rfl rfl, hon]
    exact ⟨fun hback => (hback.2.2 hchanged).live,
      fun hlive => ⟨.inr hready₁, .inr hversion, fun _ => PutBack.of hlive hp.symm rfl⟩⟩
  · rw [if_neg hp, if_neg hp]
    rw [Bool.not_eq_true] at hp
    cases hlive : (file.tc e.endpoint).live with
    | some imp =>
      dsimp only
      constructor
      · rintro ⟨file₂, h₂, -⟩
        obtain ⟨task, htask, -⟩ := serve_tc h₂
        obtain ⟨imp', himp', -⟩ := bind_eq_ok.mp htask
        obtain ⟨rfl, -⟩ := ofSpec_eq_ok himp'
        exact himp'
      · intro haccepts
        have hundo : (Request.impair e.endpoint .out imp).task vals (.load host.starttime file₁) =
            .ok (.set [(e.endpoint, imp)]) := by
          have hspec : Impairment.ofSpec vals imp = .ok imp := haccepts
          rw [Request.task, hspec]
          rfl
        have hon : (Task.set [(e.endpoint, imp)]).on e.endpoint (file₁.tc e.endpoint) =
            (file.tc e.endpoint).clear.set imp := by
          rw [htc₁]
          exact if_pos rfl
        rw [undone_single hhost htc rfl hundo, hon]
        exact ⟨List.forall_mem_singleton.mpr hready₁, .inr hversion,
          fun _ => PutBack.of hlive.symm hp.symm rfl⟩
    | none =>
      have hon : (Task.clear e.endpoint).on e.endpoint (file₁.tc e.endpoint) = (file.tc e.endpoint).clear := by
        rw [htc₁]
        exact if_pos rfl
      dsimp only
      rw [undone_single hhost htc rfl rfl, hon, Changed, hlive₁, hlive]
      constructor
      · rintro ⟨-, -, hback⟩
        by_contra hdeclared
        have hchanged : (file.tc e.endpoint).clear.live ≠ none := fun hnone => hdeclared (Option.map_eq_none_iff.mp hnone)
        exact hchanged ((hback (.inl hchanged)).live.trans hlive)
      · intro hdeclared
        have hnone : (file.tc e.endpoint).clear.live = none := Option.map_eq_none_iff.mpr hdeclared
        exact ⟨hready₁, .inr hversion, fun _ => PutBack.of (hnone.trans hlive.symm) hp.symm rfl⟩

theorem undo_partition (hcontrol : control (listed host file) e .partition = some (request, undo))
    (h : serve host vals file request = .ok file₁) :
    (∃ file₂, serve host vals file₁ undo = .ok file₂ ∧
        ∀ ep, Changed file file₁ ep → PutBack (file.tc ep) (file₂.tc ep)) ↔
      Undoable host vals file e .partition := by
  obtain ⟨rfl, rfl⟩ := Prod.mk.inj (Option.some.inj hcontrol)
  obtain ⟨task, htask, htc⟩ := serve_tc h
  have hready := ready_of_serve hhost h htask
  by_cases hp : (file.tc e.endpoint).partitioned
  · have hidle : (Task.partition e.endpoint).Idle (.opened host.starttime file) := partitioned_iff.mpr hp
    obtain rfl := eq_of_idle h rfl hidle
    cases htask
    rw [undone_single hhost htc rfl rfl, Undoable]
    constructor
    · rintro ⟨⟨-, hready⟩, hversion, -⟩ -
      exact ⟨hready, hversion.resolve_left id⟩
    · intro hback
      obtain ⟨hready, hversion⟩ := hback hp
      exact ⟨⟨partitioned_iff.mpr hp, hready⟩, .inr hversion, fun hchanged => absurd hchanged (by simp [Changed])⟩
  · cases htask
    have hidle : ¬ (Task.partition e.endpoint).Idle (.opened host.starttime file) := fun hmem => hp (partitioned_iff.mp hmem)
    have htc₁ : file₁.tc e.endpoint = (file.tc e.endpoint).cut := (htc _).trans (if_pos rfl)
    have hp₁ : (file₁.tc e.endpoint).partitioned := by
      rw [htc₁]
      simp [EndpointTc.partitioned, EndpointTc.cut]
    have hon : (Task.heal e.endpoint).on e.endpoint (file₁.tc e.endpoint) = (file.tc e.endpoint).cut.mend := by
      rw [htc₁]
      exact if_pos rfl
    rw [undone_single hhost htc rfl rfl, hon, Undoable]
    refine iff_of_true ⟨⟨partitioned_iff.mpr hp₁, ?_⟩, .inr (version_of_serve h rfl hidle), fun _ => ?_⟩ fun h => absurd h hp
    · exact (ready_serve h).mpr (hready.resolve_left hidle)
    · rw [Bool.not_eq_true] at hp
      exact PutBack.of rfl hp.symm rfl

theorem undo_heal (hcontrol : control (listed host file) e .heal = some (request, undo))
    (h : serve host vals file request = .ok file₁) :
    (∃ file₂, serve host vals file₁ undo = .ok file₂ ∧
        ∀ ep, Changed file file₁ ep → PutBack (file.tc ep) (file₂.tc ep)) ↔
      Undoable host vals file e .heal := by
  obtain ⟨rfl, rfl⟩ := Prod.mk.inj (Option.some.inj hcontrol)
  obtain ⟨task, htask, htc⟩ := serve_tc h
  obtain ⟨hsaved, hready⟩ : (Task.heal e.endpoint).Ready host (.opened host.starttime file) := by
    cases htask
    exact ready_of_serve hhost h rfl
  cases htask
  have htc₁ : file₁.tc e.endpoint = (file.tc e.endpoint).mend := (htc _).trans (if_pos rfl)
  have hon : (Task.partition e.endpoint).on e.endpoint (file₁.tc e.endpoint) = (file.tc e.endpoint).mend.cut := by
    rw [htc₁]
    exact if_pos rfl
  rw [undone_single hhost htc rfl rfl, hon, Undoable]
  refine iff_of_true ⟨.inr ((ready_serve h).mpr hready), .inr (version_of_serve h rfl id), fun _ => ?_⟩ trivial
  exact PutBack.of rfl (partitioned_iff.mp hsaved).symm rfl

/-- A change of an endpoint from an up-to-date tab is put back by its undo exactly when it is
undoable. -/
theorem undo_iff {c : Control} (hcontrol : control (listed host file) e c = some (request, undo))
    (h : serve host vals file request = .ok file₁) :
    (∃ file₂, serve host vals file₁ undo = .ok file₂ ∧
        ∀ ep, Changed file file₁ ep → PutBack (file.tc ep) (file₂.tc ep)) ↔
      Undoable host vals file e c := by
  cases c with
  | impair => exact undo_impair hhost hcontrol h
  | clear => exact undo_clear hhost hcontrol h
  | partition => exact undo_partition hhost hcontrol h
  | heal => exact undo_heal hhost hcontrol h

end

/-! ### A lab -/

/-- The editor of `a:eth0` with a delay. -/
def delayEditor : ImpairEditor where
  endpoint := "a:eth0"
  fields := fun i => if i.val = 0 then "50ms" else ""
  direction := .out

theorem ready_linkedLab (declared : BTreeMap String Impairment) :
    (RunningLab.opened quietHost.starttime (linkedLab declared)).Ready quietHost "a:eth0" := by
  have hready : (RunningLab.opened quietHost.starttime (linkedLab ∅)).Ready quietHost "a:eth0" :=
    ⟨⟨"a", "eth0"⟩, .named "lab-a", by decide +kernel, by decide +kernel, by decide +kernel⟩
  exact ready_opened rfl rfl rfl (fun _ => rfl) hready

/-- The editor's request is served. -/
theorem exists_serve_delay (declared : BTreeMap String Impairment) :
    ∃ file₁, serve quietHost delays (linkedLab declared) (.impair "a:eth0" .out { delay := some "50ms" }) = .ok file₁ := by
  refine (exists_serve quietHost_takes).mpr ⟨.set [("a:eth0", { delay := some "50ms" })], ?_, ?_, .inr (UInt32.lt_irrefl _)⟩
  · have hspec : Impairment.ofSpec delays { delay := some "50ms" } = .ok { delay := some "50ms" } := by decide +kernel
    rw [Request.task, hspec]
    rfl
  · exact List.forall_mem_singleton.mpr (ready_linkedLab declared)

theorem undo_iff_delay :
    ∃ file₁, serve quietHost delays (linkedLab ∅) (.impair "a:eth0" .out { delay := some "50ms" }) = .ok file₁ ∧
      ((∃ file₂, serve quietHost delays file₁ (.clearImpairment "a:eth0") = .ok file₂ ∧
          ∀ ep, Changed (linkedLab ∅) file₁ ep → PutBack ((linkedLab ∅).tc ep) (file₂.tc ep)) ↔
        Undoable quietHost delays (linkedLab ∅) delayEditor .impair) := by
  obtain ⟨file₁, h⟩ := exists_serve_delay ∅
  have hcontrol : control (listed quietHost (linkedLab ∅)) delayEditor .impair =
      some (.impair "a:eth0" .out { delay := some "50ms" }, .clearImpairment "a:eth0") := by decide +kernel
  exact ⟨file₁, h, undo_iff quietHost_takes hcontrol h⟩

/-- Over a declared impairment the undo clears what was never cleared. -/
theorem undo_not_put_back :
    ¬ ∀ (host : Host) (vals : Values) (file file₁ : LabFile) (e : ImpairEditor) (c : Control)
      (request undo : Request), host.Takes → control (listed host file) e c = some (request, undo) →
      serve host vals file request = .ok file₁ →
      ∃ file₂, serve host vals file₁ undo = .ok file₂ ∧
        ∀ ep, Changed file file₁ ep → PutBack (file.tc ep) (file₂.tc ep) := by
  intro hall
  let declared : BTreeMap String Impairment := (∅ : BTreeMap String Impairment).insert "a:eth0" { delay := some "10ms" }
  obtain ⟨file₁, h⟩ := exists_serve_delay declared
  have hcontrol : control (listed quietHost (linkedLab declared)) delayEditor .impair =
      some (.impair "a:eth0" .out { delay := some "50ms" }, .clearImpairment "a:eth0") := by decide +kernel
  have hback := hall quietHost delays (linkedLab declared) file₁ delayEditor .impair _ _ quietHost_takes hcontrol h
  obtain ⟨-, hown⟩ := (undo_impair quietHost_takes hcontrol h).mp hback
  have hpartitioned : ¬ ((linkedLab declared).tc delayEditor.endpoint).partitioned := by decide +kernel
  have hlive : ((linkedLab declared).tc delayEditor.endpoint).live = none := by decide +kernel
  rw [if_neg hpartitioned, hlive] at hown
  have hdeclared := hown.2 (by decide +kernel)
  exact absurd hdeclared (by decide +kernel)

end NlinkLab.Gui
