import NlinkLab.Data.Fallible
import NlinkLab.Running.Impair
import NlinkLab.Running.Save

/-! What a request does to the lab's file, endpoint by endpoint. For each endpoint the lab has
a declared impairment, a live one and, under a partition, a saved one; a request changes
those of the endpoints it names, each by itself, and leaves the rest of the lab as it is
(`serve_eq_ok`). Over any run an endpoint is as the requests on it alone make it
(`tc_served`). -/

namespace NlinkLab

open Fallible

/-! ### Reading and saving -/

section Merging

variable {K V : Type} [Ord K] [Std.TransOrd K] [Std.LawfulEqOrd K] [DecidableEq K] [DecidableEq V]

@[simp] theorem mergeMap_self (fresh base : BTreeMap K V) : mergeMap fresh base base = fresh :=
  Std.ExtTreeMap.ext_getElem? fun k => by rw [getElem?_mergeMap, if_pos rfl]

@[simp] theorem mergeMap_fresh (fresh mine : BTreeMap K V) : mergeMap fresh fresh mine = mine :=
  Std.ExtTreeMap.ext_getElem? fun k => by rw [getElem?_mergeMap]; split_ifs with h <;> simp [h]

end Merging

@[simp] theorem takeChanged_self {T : Type} [DecidableEq T] (fresh base : T) : takeChanged fresh base base = fresh := by
  simp [takeChanged]

@[simp] theorem takeChanged_fresh {T : Type} [DecidableEq T] (fresh mine : T) :
    takeChanged fresh fresh mine = mine := by
  unfold takeChanged
  split_ifs with h <;> simp_all

@[simp] theorem mergePids_self (fresh base : List (String × UInt32)) : mergePids fresh base base = fresh := by
  have hfilter : fresh.filter (fun p => p ∈ base ∨ p ∉ base) = fresh := by simp [Classical.em]
  have hfold : ∀ (ps fresh : List (String × UInt32)), (∀ p ∈ ps, p ∈ base) →
      ps.foldl (fun fresh p => if p ∉ base ∧ p ∉ fresh then fresh ++ [p] else fresh) fresh = fresh := by
    intro ps
    induction ps with
    | nil => exact fun _ _ => rfl
    | cons p ps ih =>
      intro fresh hps
      rw [List.foldl_cons, if_neg fun h => h.1 (hps p List.mem_cons_self)]
      exact ih fresh fun q hq => hps q (List.mem_cons_of_mem _ hq)
  rw [mergePids, hfilter, hfold base fresh fun _ hp => hp]

/-- A handle that changed nothing takes the state as it is. -/
theorem mergeInto_self (fresh : LabState) (base : Baseline) : mergeInto fresh base base = fresh := by
  simp [mergeInto]

namespace RunningLab

/-- A handle that has the file as it is. -/
def opened (hostStarttime : UInt32 → Option UInt64) (file : LabFile) : RunningLab :=
  ofState { file.state with containers := zeroStaleContainerPids hostStarttime file.state.containers }
    file.topology file.tracked

/-- Whatever a handle read when it was loaded, with the lock it works on the file as it is. -/
theorem load_refresh (loadStarttime hostStarttime : UInt32 → Option UInt64) (read file : LabFile) :
    (load loadStarttime read).refresh hostStarttime file = opened hostStarttime file := by
  have hsame : (load loadStarttime read).snapshot = (load loadStarttime read).baseline := rfl
  unfold refresh mergedTopology opened
  rw [hsame, mergeInto_self, if_pos rfl]

/-- The handle with other impairments and partitions. -/
def withTc (lab : RunningLab) (live saved : BTreeMap String Impairment) : RunningLab :=
  { lab with liveImpairments := live, savedImpairments := saved }

/-- The file as a mutation of its impairments and partitions leaves it. -/
def savedAs (hostStarttime : UInt32 → Option UInt64) (file : LabFile) (live saved : BTreeMap String Impairment) :
    LabFile where
  state :=
    { file.state with
      schemaVersion := SCHEMA_VERSION
      containers := zeroStaleContainerPids hostStarttime file.state.containers
      liveImpairments := live
      savedImpairments := saved }
  topology := { file.topology with directionalImpairments := [] }

theorem commit_opened {hostStarttime : UInt32 → Option UInt64} {file file' : LabFile}
    {live saved : BTreeMap String Impairment} :
    ((opened hostStarttime file).withTc live saved).commit file = .ok file' ↔
      ¬ file.state.schemaVersion > SCHEMA_VERSION ∧ file' = savedAs hostStarttime file live saved := by
  have htopology : ((opened hostStarttime file).withTc live saved).mergedTopology file = file.topology := if_pos rfl
  have hmerge : mergeInto { file.state with schemaVersion := SCHEMA_VERSION }
      ((opened hostStarttime file).withTc live saved).baseline
      ((opened hostStarttime file).withTc live saved).snapshot = (savedAs hostStarttime file live saved).state := by
    simp [mergeInto, opened, ofState, withTc, snapshot, LabFile.tracked, Baseline.ofState, savedAs]
  unfold commit saveMerged
  by_cases hversion : file.state.schemaVersion > SCHEMA_VERSION
  · simp [hversion]
  · rw [if_neg hversion]
    dsimp only
    rw [htopology, hmerge]
    exact ⟨fun h => ⟨hversion, (Except.ok.inj h).symm⟩, fun h => congrArg _ h.2.symm⟩

end RunningLab

/-! ### Endpoints -/

/-- What a lab says of one endpoint. -/
@[ext] structure EndpointTc where
  declared : Option Impairment
  live : Option Impairment
  /-- Of a partitioned endpoint, the impairment recorded with the partition. -/
  saved : Option Impairment
  deriving DecidableEq

namespace EndpointTc

/-- The impairment in effect. -/
def effective (c : EndpointTc) : Impairment := (c.live <|> c.declared).getD {}

def partitioned (c : EndpointTc) : Bool := c.saved.isSome

def set (imp : Impairment) (c : EndpointTc) : EndpointTc :=
  { c with live := some imp, saved := c.saved.map fun _ => imp }

def clear (c : EndpointTc) : EndpointTc := { c with live := c.declared.map fun _ => {}, saved := none }

def cut (c : EndpointTc) : EndpointTc := { c with saved := c.saved <|> some c.effective }

def mend (c : EndpointTc) : EndpointTc := { c with saved := none }

end EndpointTc

def RunningLab.tc (lab : RunningLab) (ep : String) : EndpointTc :=
  ⟨lab.topology.impairments[ep]?, lab.liveImpairments[ep]?, lab.savedImpairments[ep]?⟩

def LabFile.tc (file : LabFile) (ep : String) : EndpointTc :=
  ⟨file.topology.impairments[ep]?, file.state.liveImpairments[ep]?, file.state.savedImpairments[ep]?⟩

namespace Task

/-- The endpoints a task changes. -/
def targets : Task → List String
  | .set impairments => impairments.map (·.1)
  | .clear endpoint | .partition endpoint | .heal endpoint => [endpoint]

/-- What a task makes of one endpoint. -/
def on (ep : String) : Task → EndpointTc → EndpointTc
  | .set impairments, c => impairments.foldl (fun c (e, imp) => if e = ep then c.set imp else c) c
  | .clear endpoint, c => if endpoint = ep then c.clear else c
  | .partition endpoint, c => if endpoint = ep then c.cut else c
  | .heal endpoint, c => if endpoint = ep then c.mend else c

theorem on_set_cons (ep e : String) (imp : Impairment) (impairments : List (String × Impairment)) (c : EndpointTc) :
    on ep (.set ((e, imp) :: impairments)) c = on ep (.set impairments) (if e = ep then c.set imp else c) := rfl

theorem on_of_notMem {ep : String} {task : Task} (h : ep ∉ task.targets) (c : EndpointTc) : task.on ep c = c := by
  cases task with
  | set impairments =>
    induction impairments with
    | nil => rfl
    | cons e impairments ih =>
      obtain ⟨e, imp⟩ := e
      rw [targets, List.map_cons, List.mem_cons, not_or] at h
      rw [on_set_cons, if_neg (Ne.symm h.1)]
      exact ih h.2
  | clear endpoint | partition endpoint | heal endpoint =>
    exact if_neg fun heq : endpoint = ep => h (List.mem_singleton.mpr heq.symm)

end Task

/-! ### What an operation changes -/

namespace RunningLab

variable {host : Host} {lab lab' : RunningLab}

/-- The endpoint's node is one whose traffic control the lab changes, and is there. -/
def Ready (host : Host) (lab : RunningLab) (endpoint : String) : Prop :=
  ∃ ep ns, EndpointRef.parse endpoint = some ep ∧ lab.tcIsOurs ep.node = .ok () ∧ lab.nsResolverOf host ep.node = some ns

theorem parseEndpoint_eq_ok {endpoint : String} {ep : EndpointRef} :
    parseEndpoint endpoint = .ok ep ↔ EndpointRef.parse endpoint = some ep := by
  unfold parseEndpoint
  cases EndpointRef.parse endpoint <;> simp

theorem nsOf_eq_ok {node : String} {ns : NsRef} : lab.nsOf host node = .ok ns ↔ lab.nsResolverOf host node = some ns := by
  unfold nsOf
  cases lab.nsResolverOf host node <;> simp

theorem changeTc_eq_ok {endpoint : String} {change : RunningLab → RunningLab} :
    lab.changeTc host endpoint change = .ok lab' ↔
      ∃ ep ns, EndpointRef.parse endpoint = some ep ∧ lab.tcIsOurs ep.node = .ok () ∧
        lab.nsResolverOf host ep.node = some ns ∧ host.reconcile ns ep.node lab.liveView (change lab).liveView = none ∧ lab' = change lab := by
  unfold changeTc
  simp only [bind_eq_ok, parseEndpoint_eq_ok, nsOf_eq_ok]
  constructor
  · rintro ⟨ep, hep, ⟨⟩, hours, ns, hns, h⟩
    refine ⟨ep, ns, hep, hours, hns, ?_⟩
    cases hrec : host.reconcile ns ep.node lab.liveView (change lab).liveView with
    | some e => rw [hrec] at h; cases h
    | none => rw [hrec] at h; exact ⟨rfl, (Except.ok.inj h).symm⟩
  · rintro ⟨ep, ns, hep, hours, hns, hrec, rfl⟩
    exact ⟨ep, hep, (), hours, ns, hns, by rw [hrec]⟩

/-- A handle that differs in its impairments and partitions only, of the endpoints as `f` says. -/
structure Retuned (lab lab' : RunningLab) (f : String → EndpointTc → EndpointTc) : Prop where
  frame : lab' = lab.withTc lab'.liveImpairments lab'.savedImpairments
  tc : ∀ ep, lab'.tc ep = f ep (lab.tc ep)

theorem Retuned.refl (lab : RunningLab) {f : String → EndpointTc → EndpointTc} (h : ∀ ep, f ep (lab.tc ep) = lab.tc ep) :
    Retuned lab lab f := ⟨rfl, fun ep => (h ep).symm⟩

theorem Retuned.trans {lab lab' lab'' : RunningLab} {f g : String → EndpointTc → EndpointTc} (h : Retuned lab lab' f)
    (h' : Retuned lab' lab'' g) : Retuned lab lab'' fun ep c => g ep (f ep c) where
  frame := by rw [h'.frame, h.frame]; rfl
  tc ep := by rw [h'.tc, h.tc]

theorem retuned_impaired (endpoint : String) (impairment : Impairment) (lab : RunningLab) :
    Retuned lab (lab.impaired endpoint impairment) fun ep c => if endpoint = ep then c.set impairment else c where
  frame := rfl
  tc ep := by
    by_cases h : endpoint = ep
    · subst h
      by_cases hsaved : endpoint ∈ lab.savedImpairments <;>
        simp [tc, impaired, EndpointTc.set, hsaved]
    · by_cases hsaved : endpoint ∈ lab.savedImpairments <;>
        simp [tc, impaired, hsaved, h, Std.ExtTreeMap.getElem?_insert]

theorem retuned_cleared (endpoint : String) (lab : RunningLab) :
    Retuned lab (lab.cleared endpoint) fun ep c => if endpoint = ep then c.clear else c where
  frame := rfl
  tc ep := by
    by_cases h : endpoint = ep
    · subst h
      by_cases hdecl : endpoint ∈ lab.topology.impairments <;>
        simp [tc, cleared, EndpointTc.clear, hdecl]
    · by_cases hdecl : endpoint ∈ lab.topology.impairments <;>
        simp [tc, cleared, hdecl, h, Std.ExtTreeMap.getElem?_insert, Std.ExtTreeMap.getElem?_erase]

theorem retuned_cut {endpoint : String} (hsaved : endpoint ∉ lab.savedImpairments) :
    Retuned lab (lab.cut endpoint) fun ep c => if endpoint = ep then c.cut else c where
  frame := rfl
  tc ep := by
    by_cases h : endpoint = ep
    · subst h
      simp [tc, cut, EndpointTc.cut, hsaved, effective, EndpointTc.effective]
    · simp [tc, cut, h, Std.ExtTreeMap.getElem?_insert]

theorem retuned_mended (endpoint : String) (lab : RunningLab) :
    Retuned lab (lab.mended endpoint) fun ep c => if endpoint = ep then c.mend else c where
  frame := rfl
  tc ep := by
    by_cases h : endpoint = ep
    · subst h
      simp [tc, mended, EndpointTc.mend]
    · simp [tc, mended, h, Std.ExtTreeMap.getElem?_erase]

/-! ### Tasks -/

theorem setImpairmentLocked_retuned {endpoint : String} {impairment : Impairment}
    (h : lab.setImpairmentLocked host endpoint impairment = .ok lab') :
    Retuned lab lab' fun ep c => if endpoint = ep then c.set impairment else c := by
  obtain ⟨-, -, -, -, -, -, rfl⟩ := changeTc_eq_ok.mp h
  exact retuned_impaired endpoint impairment lab

theorem clearImpairmentLocked_retuned {endpoint : String} (h : lab.clearImpairmentLocked host endpoint = .ok lab') :
    Retuned lab lab' fun ep c => if endpoint = ep then c.clear else c := by
  unfold clearImpairmentLocked at h
  obtain ⟨ep, -, h⟩ := bind_eq_ok.mp h
  obtain ⟨-, -, h⟩ := bind_eq_ok.mp h
  obtain ⟨handle, -, h⟩ := bind_eq_ok.mp h
  cases hdel : host.delRoot handle ep.iface with
  | some e => rw [hdel] at h; cases h
  | none =>
    rw [hdel] at h
    obtain ⟨-, -, -, -, -, -, rfl⟩ := changeTc_eq_ok.mp h
    exact retuned_cleared endpoint lab

theorem healLocked_retuned {endpoint : String} (h : lab.healLocked host endpoint = .ok lab') :
    Retuned lab lab' fun ep c => if endpoint = ep then c.mend else c := by
  unfold healLocked at h
  split_ifs at h
  obtain ⟨-, -, -, -, -, -, rfl⟩ := changeTc_eq_ok.mp h
  exact retuned_mended endpoint lab

/-- A partition of a partitioned endpoint changes nothing, and there is nothing to save. -/
theorem partitionLocked_retuned {endpoint : String} {o : Option RunningLab} (h : lab.partitionLocked host endpoint = .ok o) :
    Retuned lab (o.getD lab) fun ep c => if endpoint = ep then c.cut else c := by
  unfold partitionLocked at h
  split_ifs at h with hsaved
  · cases h
    refine Retuned.refl lab fun ep => ?_
    split_ifs with hep
    · subst hep
      obtain ⟨imp, himp⟩ := Option.isSome_iff_exists.mp (Std.ExtTreeMap.mem_iff_isSome_getElem?.mp hsaved)
      simp [EndpointTc.cut, tc, himp]
    · rfl
  · obtain ⟨lab', hcut, rfl⟩ := map_eq_ok.mp h
    obtain ⟨-, -, -, -, -, -, rfl⟩ := changeTc_eq_ok.mp hcut
    exact retuned_cut hsaved

theorem foldlM_set_retuned {impairments : List (String × Impairment)}
    (h : impairments.foldlM (fun lab (ep, imp) => lab.setImpairmentLocked host ep imp) lab = .ok lab') :
    Retuned lab lab' fun ep c => (Task.set impairments).on ep c := by
  induction impairments generalizing lab with
  | nil =>
    cases h
    exact Retuned.refl _ fun _ => rfl
  | cons e impairments ih =>
    rw [List.foldlM_cons] at h
    obtain ⟨lab₁, hset, h⟩ := bind_eq_ok.mp h
    exact (setImpairmentLocked_retuned hset).trans (ih h)

theorem run_retuned {task : Task} {o : Option RunningLab} (h : task.run host lab = .ok o) :
    Retuned lab (o.getD lab) fun ep c => task.on ep c := by
  cases task with
  | set impairments =>
    obtain ⟨lab', hset, rfl⟩ := map_eq_ok.mp h
    exact foldlM_set_retuned hset
  | clear endpoint =>
    obtain ⟨lab', hclear, rfl⟩ := map_eq_ok.mp h
    exact clearImpairmentLocked_retuned hclear
  | partition endpoint => exact partitionLocked_retuned h
  | heal endpoint =>
    obtain ⟨lab', hheal, rfl⟩ := map_eq_ok.mp h
    exact healLocked_retuned hheal

end RunningLab

/-! ### The file -/

/-- A lab's file of which impairments and partitions differ only, those of the endpoints as `f`
says. A save also writes its own schema version, and drops the PIDs of containers that have gone. -/
structure LabFile.Retuned (hostStarttime : UInt32 → Option UInt64) (file file' : LabFile)
    (f : String → EndpointTc → EndpointTc) : Prop where
  frame : file' = file ∨
    file' = RunningLab.savedAs hostStarttime file file'.state.liveImpairments file'.state.savedImpairments
  tc : ∀ ep, file'.tc ep = f ep (file.tc ep)

variable {host : Host} {file file' : LabFile}

theorem RunningLab.finish_retuned {task : Task} {o : Option RunningLab}
    (h : task.run host (opened host.starttime file) = .ok o) (hfinish : finish file o = .ok file') :
    file.Retuned host.starttime file' fun ep c => task.on ep c := by
  have hrun := run_retuned h
  cases o with
  | none =>
    cases hfinish
    exact ⟨.inl rfl, hrun.tc⟩
  | some lab =>
    have hcommit : lab.commit file = .ok file' := hfinish
    rw [Option.getD_some] at hrun
    rw [hrun.frame] at hcommit
    obtain ⟨-, rfl⟩ := commit_opened.mp hcommit
    refine ⟨.inr rfl, fun ep => ?_⟩
    have htc := hrun.tc ep
    rw [hrun.frame] at htc
    exact htc

theorem serve_eq_ok {vals : Values} {request : Request} :
    serve host vals file request = .ok file' ↔
      ∃ task o, request.task vals (.load host.starttime file) = .ok task ∧
        task.run host (.opened host.starttime file) = .ok o ∧ RunningLab.finish file o = .ok file' := by
  unfold serve RunningLab.begin
  simp only [bind_eq_ok, RunningLab.load_refresh]
  constructor
  · rintro ⟨task, htask, o, hrun, h⟩
    exact ⟨task, o, htask, hrun, h⟩
  · rintro ⟨task, o, htask, hrun, h⟩
    exact ⟨task, htask, o, hrun, h⟩

/-! ### Hosts that take every change -/

/-- The host takes every change of traffic control. -/
structure Host.Takes (host : Host) : Prop where
  reconcile : ∀ ns node before after, host.reconcile ns node before after = none
  delRoot : ∀ ns iface, host.delRoot ns iface = none

namespace RunningLab

variable {lab lab' : RunningLab}

theorem exists_changeTc (hhost : host.Takes) (endpoint : String) (change : RunningLab → RunningLab) :
    (∃ lab', lab.changeTc host endpoint change = .ok lab') ↔ lab.Ready host endpoint := by
  simp only [changeTc_eq_ok, hhost.reconcile]
  exact ⟨fun ⟨_, ep, ns, hep, hours, hns, _⟩ => ⟨ep, ns, hep, hours, hns⟩,
    fun ⟨ep, ns, hep, hours, hns⟩ => ⟨_, ep, ns, hep, hours, hns, trivial, rfl⟩⟩

theorem exists_clearImpairmentLocked (hhost : host.Takes) {endpoint : String} :
    (∃ lab', lab.clearImpairmentLocked host endpoint = .ok lab') ↔ lab.Ready host endpoint := by
  unfold clearImpairmentLocked
  simp only [bind_eq_ok, parseEndpoint_eq_ok, nsOf_eq_ok, hhost.delRoot]
  constructor
  · rintro ⟨lab', ep, -, ⟨⟩, -, ns, -, h⟩
    exact (exists_changeTc hhost endpoint (cleared endpoint)).mp ⟨lab', h⟩
  · intro h
    obtain ⟨lab', hlab'⟩ := (exists_changeTc hhost endpoint (cleared endpoint)).mpr h
    obtain ⟨ep, ns, hep, hours, hns⟩ := h
    exact ⟨lab', ep, hep, (), hours, ns, hns, hlab'⟩

/-- A node is as ready after a change of impairments and partitions as before. -/
theorem ready_withTc {live saved : BTreeMap String Impairment} {endpoint : String} :
    (lab.withTc live saved).Ready host endpoint ↔ lab.Ready host endpoint := Iff.rfl

theorem Retuned.ready {f : String → EndpointTc → EndpointTc} (h : Retuned lab lab' f) {endpoint : String} :
    lab'.Ready host endpoint ↔ lab.Ready host endpoint := by
  rw [h.frame]
  exact ready_withTc

theorem exists_foldlM_set (hhost : host.Takes) {impairments : List (String × Impairment)} {lab : RunningLab} :
    (∃ lab', impairments.foldlM (fun lab (ep, imp) => lab.setImpairmentLocked host ep imp) lab = .ok lab') ↔
      ∀ ep ∈ impairments.map (·.1), lab.Ready host ep := by
  induction impairments generalizing lab with
  | nil => exact ⟨fun _ => nofun, fun _ => ⟨lab, rfl⟩⟩
  | cons e impairments ih =>
    simp only [List.foldlM_cons, bind_eq_ok, List.map_cons, List.forall_mem_cons]
    constructor
    · rintro ⟨lab', lab₁, hset, h⟩
      exact ⟨(exists_changeTc hhost e.1 (impaired e.1 e.2)).mp ⟨_, hset⟩,
        fun ep hep => (setImpairmentLocked_retuned hset).ready.mp (ih.mp ⟨_, h⟩ ep hep)⟩
    · rintro ⟨hready, h⟩
      obtain ⟨lab₁, hset⟩ := (exists_changeTc hhost e.1 (impaired e.1 e.2)).mpr hready
      obtain ⟨lab', h⟩ := ih.mpr fun ep hep => (setImpairmentLocked_retuned hset).ready.mpr (h ep hep)
      exact ⟨lab', lab₁, hset, h⟩

end RunningLab

namespace Task

open RunningLab

variable {lab : RunningLab}

/-- What a task needs of the lab. -/
def Ready (host : Host) (lab : RunningLab) : Task → Prop
  | .set impairments => ∀ ep ∈ impairments.map (·.1), lab.Ready host ep
  | .clear endpoint => lab.Ready host endpoint
  | .partition endpoint => endpoint ∈ lab.savedImpairments ∨ lab.Ready host endpoint
  | .heal endpoint => endpoint ∈ lab.savedImpairments ∧ lab.Ready host endpoint

/-- A task with nothing to do. -/
def Idle (lab : RunningLab) : Task → Prop
  | .partition endpoint => endpoint ∈ lab.savedImpairments
  | _ => False

theorem exists_map_ok {A B : Type} {x : Except OpError A} {f : A → B} :
    (∃ b, f <$> x = .ok b) ↔ ∃ a, x = .ok a := by
  refine ⟨fun ⟨b, hb⟩ => ?_, fun ⟨a, ha⟩ => ⟨f a, map_eq_ok.mpr ⟨a, ha, rfl⟩⟩⟩
  obtain ⟨a, ha, -⟩ := map_eq_ok.mp hb
  exact ⟨a, ha⟩

theorem exists_run (hhost : host.Takes) {task : Task} : (∃ o, task.run host lab = .ok o) ↔ task.Ready host lab := by
  cases task with
  | set impairments => exact exists_map_ok.trans (exists_foldlM_set hhost)
  | clear endpoint => exact exists_map_ok.trans (exists_clearImpairmentLocked hhost)
  | partition endpoint =>
    unfold run Ready partitionLocked
    dsimp only
    by_cases hsaved : endpoint ∈ lab.savedImpairments
    · simp [hsaved]
    · rw [if_neg hsaved, exists_map_ok, exists_changeTc hhost]
      exact (or_iff_right hsaved).symm
  | heal endpoint =>
    unfold run Ready
    dsimp only
    rw [exists_map_ok, healLocked]
    by_cases hsaved : endpoint ∈ lab.savedImpairments
    · rw [if_pos hsaved, exists_changeTc hhost]
      exact (and_iff_right hsaved).symm
    · simp [hsaved]

theorem idle_iff {task : Task} {o : Option RunningLab} (h : task.run host lab = .ok o) : task.Idle lab ↔ o = none := by
  cases task with
  | partition endpoint =>
    have hpartition : lab.partitionLocked host endpoint = .ok o := h
    unfold partitionLocked at hpartition
    split_ifs at hpartition with hsaved
    · cases hpartition
      exact iff_of_true hsaved rfl
    · obtain ⟨lab', -, rfl⟩ := map_eq_ok.mp hpartition
      exact iff_of_false hsaved nofun
  | set | clear | heal =>
    obtain ⟨lab', -, rfl⟩ := map_eq_ok.mp h
    exact iff_of_false id nofun

end Task

/-- When a host that takes every change serves a request. -/
theorem exists_serve (hhost : host.Takes) {vals : Values} {request : Request} :
    (∃ file', serve host vals file request = .ok file') ↔
      ∃ task, request.task vals (.load host.starttime file) = .ok task ∧
        task.Ready host (.opened host.starttime file) ∧
        (task.Idle (.opened host.starttime file) ∨ ¬ file.state.schemaVersion > SCHEMA_VERSION) := by
  simp only [serve_eq_ok]
  constructor
  · rintro ⟨file', task, o, htask, hrun, hfinish⟩
    refine ⟨task, htask, (Task.exists_run hhost).mp ⟨o, hrun⟩, ?_⟩
    rw [Task.idle_iff hrun]
    cases o with
    | none => exact .inl rfl
    | some lab =>
      have hcommit : lab.commit file = .ok file' := hfinish
      have hframe := (RunningLab.run_retuned hrun).frame
      rw [Option.getD_some] at hframe
      rw [hframe] at hcommit
      exact .inr (RunningLab.commit_opened.mp hcommit).1
  · rintro ⟨task, htask, hready, hsaves⟩
    obtain ⟨o, hrun⟩ := (Task.exists_run hhost).mpr hready
    rw [Task.idle_iff hrun] at hsaves
    cases o with
    | none => exact ⟨file, task, none, htask, hrun, rfl⟩
    | some lab =>
      have hframe := (RunningLab.run_retuned hrun).frame
      rw [Option.getD_some] at hframe
      have hcommit : lab.commit file =
          .ok (RunningLab.savedAs host.starttime file lab.liveImpairments lab.savedImpairments) := by
        rw [hframe]
        exact RunningLab.commit_opened.mpr ⟨hsaves.resolve_left nofun, rfl⟩
      exact ⟨_, task, some lab, htask, hrun, hcommit⟩

end NlinkLab
