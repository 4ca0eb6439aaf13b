import NlinkLab.Running.Restore

/-! What a scenario leaves. Whatever its actions on interfaces, impairments and partitions do and
whatever other clients do meanwhile, at its end the endpoints it touched have the impairments and
partitions it found, and every other endpoint those that the other clients gave it
(`tc_putBack`). -/

namespace NlinkLab

open Fallible

namespace Scenario

open RunningLab

variable {vals : Values} {file : LabFile} {lab : RunningLab}

/-! ### What a scenario notes -/

theorem touched_note (undo : Undo) (lab : RunningLab) (action : LiveAction) {ep : String} (h : ep ∈ undo.touched) :
    ep ∈ (undo.note lab action).touched := by
  cases action with
  | down | up => exact h
  | clear endpoint | impair endpoint => exact mem_btreeSet.mpr (List.mem_cons_of_mem _ h)
  | partition endpoint both | heal endpoint both =>
    exact mem_btreeSet.mpr (List.mem_cons_of_mem _ (List.mem_append_right _ h))

@[simp] theorem touched_done (undo : Undo) (action : LiveAction) : (undo.done action).touched = undo.touched := by
  cases action <;> rfl

@[simp] theorem tc_note (undo : Undo) (lab : RunningLab) (action : LiveAction) : (undo.note lab action).tc = undo.tc := by
  cases action <;> rfl

@[simp] theorem tc_done (undo : Undo) (action : LiveAction) : (undo.done action).tc = undo.tc := by
  cases action <;> rfl

/-- The ends of a link that an action is on are noted. -/
theorem mem_touched_of_ends {endpoint : String} {both : Bool} {eps : List String}
    (h : LiveAction.ends lab endpoint both = .ok eps) {ep : String} (hep : ep ∈ eps) (touched : List String) :
    ep ∈ btreeSet (endpoint :: (if both then (lab.peerEndpoint endpoint).toOption.toList else []) ++ touched) := by
  rw [mem_btreeSet, List.cons_append, List.mem_cons, List.mem_append]
  cases both with
  | false =>
    cases h
    exact .inl (List.mem_singleton.mp hep)
  | true =>
    obtain ⟨peer, hpeer, h⟩ := bind_eq_ok.mp h
    cases h
    rw [if_pos rfl, hpeer]
    rcases List.mem_cons.mp hep with rfl | hep
    · exact .inl rfl
    · exact .inr (.inl hep)

/-- The changes of an action are on endpoints it has noted. -/
theorem targets_tasks {undo : Undo} {action : LiveAction} {tasks : List Task} (h : action.tasks lab = .ok tasks) :
    ∀ task ∈ tasks, ∀ ep ∈ task.targets, ep ∈ (undo.note lab action).touched := by
  cases action with
  | down | up =>
    cases h
    exact fun _ => nofun
  | clear endpoint | impair endpoint =>
    cases h
    intro task htask ep hep
    cases List.mem_singleton.mp htask
    exact mem_btreeSet.mpr (List.mem_singleton.mp hep ▸ List.mem_cons_self)
  | partition endpoint both =>
    obtain ⟨eps, heps, h⟩ := bind_eq_ok.mp h
    cases h
    intro task htask ep hep
    obtain ⟨e, he, rfl⟩ := List.mem_map.mp htask
    cases List.mem_singleton.mp hep
    exact mem_touched_of_ends heps he undo.touched
  | heal endpoint both =>
    obtain ⟨eps, heps, h⟩ := bind_eq_ok.mp h
    cases h
    intro task htask ep hep
    obtain ⟨e, he, rfl⟩ := List.mem_map.mp htask
    cases List.mem_singleton.mp hep
    exact mem_touched_of_ends heps (List.mem_filter.mp he).1 undo.touched

/-! ### Runs -/

/-- The task of another client that is served in a step. -/
def Run.othersTask (vals : Values) (s : Run) : Event → List Task
  | .other host request => (servedTask vals s.file (host, request)).toList
  | .act _ _ | .change _ => []

/-- The tasks of other clients that are served while a scenario runs. -/
def Run.othersTasks (vals : Values) : Run → List Event → List Task
  | _, [] => []
  | s, e :: es => s.othersTask vals e ++ othersTasks vals (s.step vals e) es

/-- What holds while a scenario runs: its handle has nothing to save, what it has left to change
is noted, and what it did not note is as the tasks of the others made it. -/
structure Run.Inv (s : Run) (tc : RuntimeTc) (file : LabFile) (others : List Task) : Prop where
  clean : s.lab.Clean
  version : ¬ s.file.state.schemaVersion > SCHEMA_VERSION
  sameBut : file.SameBut s.file
  tc : s.undo.tc = tc
  pending : ∀ task ∈ s.pending, ∀ ep ∈ task.targets, ep ∈ s.undo.touched
  kept : ∀ ep, ep ∉ s.undo.touched → s.file.tc ep = others.foldl (fun c task => task.on ep c) (file.tc ep)

theorem version_served (hversion : ¬ file.state.schemaVersion > SCHEMA_VERSION) (e : Host × Request) :
    ¬ (served vals file e).state.schemaVersion > SCHEMA_VERSION := by
  cases htask : servedTask vals file e with
  | none => rwa [served_of_error htask]
  | some task =>
    rcases (served_retuned htask).frame with heq | heq
    · rwa [heq]
    · rw [heq]; exact Nat.lt_irrefl _

namespace Run.Inv

variable {s : Run} {tc : RuntimeTc} {others : List Task}

theorem act (hs : s.Inv tc file others) (host : ScenarioHost) (action : LiveAction) :
    (s.act host action).Inv tc file others := by
  -- with nothing but more noted, all holds as before
  have hnoted : ∀ (undo : Undo) (down : String → Bool), undo.tc = tc → (∀ ep ∈ s.undo.touched, ep ∈ undo.touched) →
      ({ s with undo, down } : Run).Inv tc file others := fun undo down htc htouched =>
    ⟨hs.clean, hs.version, hs.sameBut, htc, fun task htask ep hep => htouched ep (hs.pending task htask ep hep),
      fun ep hep => hs.kept ep fun h => hep (htouched ep h)⟩
  have htouched : ∀ ep ∈ s.undo.touched, ep ∈ (s.undo.note s.lab action).touched :=
    fun ep => touched_note s.undo s.lab action
  have htc : (s.undo.note s.lab action).tc = tc := (tc_note _ _ _).trans hs.tc
  have htasks : ∀ pending, action.tasks s.lab = .ok pending →
      ({ s with undo := s.undo.note s.lab action, pending } : Run).Inv tc file others := fun pending h =>
    ⟨hs.clean, hs.version, hs.sameBut, htc, targets_tasks h, fun ep hep => hs.kept ep fun h => hep (htouched ep h)⟩
  -- done or not, an action on an interface touches no traffic control
  have hdone : ∀ (p : Prop) [Decidable p] (down : String → Bool),
      ({ s with
          undo := if p then (s.undo.note s.lab action).done action else s.undo.note s.lab action
          down } : Run).Inv tc file others := fun p _ down => by
    split_ifs
    · exact hnoted _ down ((tc_done _ _).trans htc) fun ep hep => (touched_done _ _).symm ▸ htouched ep hep
    · exact hnoted _ down htc htouched
  cases action with
  | down endpoint => exact hdone _ (s.lab.setLinkState host endpoint false s.down).2
  | up endpoint => exact hdone _ (s.lab.setLinkState host endpoint true s.down).2
  | clear endpoint | impair endpoint impairment =>
    exact htasks _ rfl
  | partition endpoint both | heal endpoint both =>
    unfold Run.act
    dsimp only
    split
    · exact hnoted _ s.down htc htouched
    · exact htasks _ ‹_›

theorem change (hs : s.Inv tc file others) (host : Host) {task : Task} {rest pending : List Task}
    (hpending : s.pending = task :: rest) (hrest : pending ⊆ rest) :
    ({ s with
        lab := (s.lab.mutate host task s.file).2.1
        file := (s.lab.mutate host task s.file).2.2
        pending } : Run).Inv tc file others := by
  obtain ⟨hclean, hversion, hsameBut, hkept⟩ := @changed_mutate _ host _ hs.clean hs.version task
  refine ⟨hclean, hversion, hs.sameBut.trans hsameBut, hs.tc, fun task' htask' =>
    hs.pending task' (hpending ▸ List.mem_cons_of_mem _ (hrest htask')), fun ep hep => ?_⟩
  exact (hkept ep fun h => hep (hs.pending task (hpending ▸ List.mem_cons_self) ep h)).trans (hs.kept ep hep)

theorem step (hs : s.Inv tc file others) (e : Event) :
    (s.step vals e).Inv tc file (others ++ s.othersTask vals e) := by
  cases e with
  | act host action =>
    rw [Run.othersTask, List.append_nil]
    unfold Run.step
    dsimp only
    split_ifs
    · exact hs.act host action
    · exact hs
  | change host =>
    rw [Run.othersTask, List.append_nil]
    unfold Run.step
    dsimp only
    cases hpending : s.pending with
    | nil => exact hs
    | cons task rest =>
      dsimp only
      split
      · rename_i heq
        have hnext := hs.change host hpending (List.Subset.refl rest)
        rwa [heq] at hnext
      · rename_i heq
        have hnext := hs.change host hpending (List.nil_subset rest)
        rwa [heq] at hnext
  | other host request =>
    refine ⟨hs.clean, version_served hs.version _, hs.sameBut.trans (sameBut_served s.file _), hs.tc, hs.pending, fun ep hep => ?_⟩
    refine (tc_served (host, request) ep).trans ?_
    rw [List.foldl_append, ← hs.kept ep hep]
    rfl

theorem run (hs : s.Inv tc file others) (es : List Event) :
    (s.run vals es).Inv tc file (others ++ s.othersTasks vals es) := by
  induction es generalizing s others with
  | nil => exact (List.append_nil others).symm ▸ hs
  | cons e es ih =>
    have hstep : (s.step vals e).Inv tc file (others ++ s.othersTask vals e) := hs.step e
    have hnext := ih hstep
    rwa [List.append_assoc] at hnext

end Run.Inv

theorem inv_start (starttime : UInt32 → Option UInt64) (read : LabFile) (down : String → Bool)
    (hversion : ¬ file.state.schemaVersion > SCHEMA_VERSION) :
    (Run.start (.load starttime read) file down).Inv ⟨read.state.liveImpairments, read.state.savedImpairments⟩ file [] where
  clean := clean_load starttime read
  version := hversion
  sameBut := .refl file
  tc := rfl
  pending := fun _ => nofun
  kept _ _ := rfl

/-! ### The end of a scenario -/

theorem inv_run (vals : Values) (starttime : UInt32 → Option UInt64) (read : LabFile) (down : String → Bool)
    (hversion : ¬ file.state.schemaVersion > SCHEMA_VERSION) (es : List Event) :
    ((Run.start (.load starttime read) file down).run vals es).Inv
      ⟨read.state.liveImpairments, read.state.savedImpairments⟩ file
      ((Run.start (.load starttime read) file down).othersTasks vals es) :=
  (inv_start starttime read down hversion).run es

section

variable {s : Run} {read : LabFile} {others : List Task} {host : ScenarioHost} {changed : List String}

/-- What is left when all is put back. -/
structure Run.Back (s : Run) (read file : LabFile) (others : List Task) (changed : List String) (file' : LabFile) :
    Prop where
  sameBut : file.SameBut file'
  touched : ∀ ep ∈ s.undo.touched, (file'.tc ep).live = (read.tc ep).live ∧ (file'.tc ep).partitioned = (read.tc ep).partitioned
  kept : ∀ ep, ep ∉ s.undo.touched → file'.tc ep = others.foldl (fun c task => task.on ep c) (file.tc ep)
  changed : ∀ ep, ep ∈ changed ↔
    (file'.tc ep).live ≠ (s.file.tc ep).live ∨ (file'.tc ep).partitioned ≠ (s.file.tc ep).partitioned

theorem Run.Inv.back (hs : s.Inv ⟨read.state.liveImpairments, read.state.savedImpairments⟩ file others)
    (h : (s.putBack host).1.tc = .ok changed) : s.Back read file others changed (s.putBack host).2.file := by
  have hrestore : s.lab.restoreRuntimeTc host.toHost s.undo.tc (some s.undo.touched) s.file =
      (.ok changed, (s.putBack host).2.lab, (s.putBack host).2.file) := Prod.ext h rfl
  rw [hs.tc] at hrestore
  obtain ⟨hchanged, hback⟩ := restoreRuntimeTc_of_clean hs.clean hs.version hrestore
  refine ⟨hs.sameBut.trans hchanged.sameBut, fun ep hep => ⟨hback.live ep hep, ?_⟩, fun ep hep => ?_, hback.changed⟩
  · exact (hback.partitioned ep hep).trans (partitioned_eq_contains read ep).symm
  · exact (hchanged.kept ep hep).trans (hs.kept ep hep)

theorem Run.Back.agreeOn {file' : LabFile} (hs : s.Back file file others changed file') {node : String}
    (hothers : ∀ task ∈ others, ∀ ep ∈ task.targets, ∀ r, EndpointRef.parse ep = some r → r.node ≠ node) :
    AgreeOn node file.view file'.view := by
  refine agreeOn_view hs.sameBut fun ep r hparse hnode => ?_
  by_cases hep : ep ∈ s.undo.touched
  · obtain ⟨hlive, hpartitioned⟩ := hs.touched ep hep
    refine ⟨?_, hpartitioned⟩
    unfold EndpointTc.shown
    rw [hlive, hs.sameBut.declared ep]
  · rw [hs.kept ep hep, foldl_on_of_notMem fun task htask htarget => hothers task htask ep htarget r hparse hnode]
    exact ⟨rfl, rfl⟩

end

/-- A host that takes every change, of interfaces too. -/
def openHost : ScenarioHost := { quietHost with setLink := fun _ _ _ => none, setAnyway := fun _ _ _ => false }

/-- A scenario cuts a link at both ends, and another client impairs one of them meanwhile. -/
def cutLink : List Event :=
  [.act openHost (.partition "a:eth0" true), .change quietHost,
    .other quietHost (.impair "b:eth0" .out { delay := some "50ms" }), .change quietHost]

theorem ok_cutLink : (((Run.start (.load quietHost.starttime (linkedLab ∅)) (linkedLab ∅) fun _ => false).run delays
    cutLink).putBack openHost).1.tc = .ok ["a:eth0", "b:eth0"] := by decide +kernel

/-- At the end of a scenario, whatever it did and other clients did meanwhile, each endpoint it
touched has the impairment and partition that its handle read, each other endpoint what the
requests of the others made of it, and the report names what had to be put back. -/
theorem tc_putBack (vals : Values) (starttime : UInt32 → Option UInt64) (read file : LabFile) (down : String → Bool)
    (hversion : ¬ file.state.schemaVersion > SCHEMA_VERSION) (es : List Event) (host : ScenarioHost) (changed : List String)
    (h : (((Run.start (.load starttime read) file down).run vals es).putBack host).1.tc = .ok changed) :
    let start := Run.start (.load starttime read) file down
    let s := start.run vals es
    let file' := (s.putBack host).2.file
    (∀ ep ∈ s.undo.touched,
        (file'.tc ep).live = (read.tc ep).live ∧ (file'.tc ep).partitioned = (read.tc ep).partitioned) ∧
      (∀ ep, ep ∉ s.undo.touched →
        file'.tc ep = (start.othersTasks vals es).foldl (fun c task => task.on ep c) (file.tc ep)) ∧
      ∀ ep, ep ∈ changed ↔
        (file'.tc ep).live ≠ (s.file.tc ep).live ∨ (file'.tc ep).partitioned ≠ (s.file.tc ep).partitioned := by
  have hinv := inv_run vals starttime read down hversion es
  dsimp only
  generalize (Run.start (.load starttime read) file down).run vals es = s at hinv h ⊢
  have hback := hinv.back h
  exact ⟨hback.touched, hback.kept, hback.changed⟩

theorem tc_putBack_cutLink :
    let s := (Run.start (.load quietHost.starttime (linkedLab ∅)) (linkedLab ∅) fun _ => false).run delays cutLink
    ∀ ep ∈ s.undo.touched, ((s.putBack openHost).2.file.tc ep).partitioned = ((linkedLab ∅).tc ep).partitioned :=
  fun ep hep => ((tc_putBack delays quietHost.starttime (linkedLab ∅) (linkedLab ∅) (fun _ => false) (by decide) cutLink openHost
    ["a:eth0", "b:eth0"] ok_cutLink).1 ep hep).2

/-- A scenario leaves no trace on a node that the other clients leave alone: when all is put
back, the planner declares for it what it declared when the scenario began. -/
theorem declareNodeTc_putBack (nl : Nlink) (vals : Values) (starttime : UInt32 → Option UInt64) (file : LabFile)
    (down : String → Bool) (hversion : ¬ file.state.schemaVersion > SCHEMA_VERSION) (es : List Event) (host : ScenarioHost)
    (changed : List String)
    (h : (((Run.start (.load starttime file) file down).run vals es).putBack host).1.tc = .ok changed) (node : String)
    (hothers : ∀ task ∈ (Run.start (.load starttime file) file down).othersTasks vals es, ∀ ep ∈ task.targets,
      ∀ r, EndpointRef.parse ep = some r → r.node ≠ node) (cfg : NetworkConfig) :
    let file' := (((Run.start (.load starttime file) file down).run vals es).putBack host).2.file
    declareNodeTc nl vals cfg node file'.view.1 file'.view.2 = declareNodeTc nl vals cfg node file.view.1 file.view.2 := by
  have hinv := inv_run vals starttime file down hversion es
  dsimp only
  generalize (Run.start (.load starttime file) file down).run vals es = s at hinv h ⊢
  exact declareNodeTc_congr ((hinv.back h).agreeOn hothers) cfg

theorem declareNodeTc_putBack_cutLink :
    let file' := (((Run.start (.load quietHost.starttime (linkedLab ∅)) (linkedLab ∅) fun _ => false).run delays
      cutLink).putBack openHost).2.file
    declareNodeTc Plan.Env.sample.nl delays {} "a" file'.view.1 file'.view.2 =
      declareNodeTc Plan.Env.sample.nl delays {} "a" (linkedLab ∅).view.1 (linkedLab ∅).view.2 := by
  refine declareNodeTc_putBack _ delays quietHost.starttime (linkedLab ∅) (fun _ => false) (by decide) cutLink openHost
    ["a:eth0", "b:eth0"] ok_cutLink "a" ?_ {}
  have htasks : (Run.start (.load quietHost.starttime (linkedLab ∅)) (linkedLab ∅) fun _ => false).othersTasks delays
      cutLink = [.set [("b:eth0", { delay := some "50ms" })]] := by decide +kernel
  have hparse : EndpointRef.parse "b:eth0" = some ⟨"b", "eth0"⟩ := by decide +kernel
  rw [htasks]
  intro task htask ep hep r hr
  obtain rfl := List.mem_singleton.mp htask
  obtain rfl := List.mem_singleton.mp hep
  rw [hparse] at hr
  cases hr
  decide

/-! ### Interfaces -/

/-- An interface can be set up or down. -/
def Sets (host : ScenarioHost) (lab : RunningLab) (endpoint : String) (up : Bool) : Prop :=
  ∃ r ns, EndpointRef.parse endpoint = some r ∧ lab.nsResolverOf host.toHost r.node = some ns ∧
    host.setLink ns r.iface up = none

theorem linkOf_eq_ok {host : ScenarioHost} {endpoint iface : String} {ns : NsRef} :
    lab.linkOf host endpoint = .ok (ns, iface) ↔
      ∃ r, EndpointRef.parse endpoint = some r ∧ lab.nsResolverOf host.toHost r.node = some ns ∧ r.iface = iface := by
  unfold linkOf
  simp only [bind_eq_ok, pure_eq_ok, parseEndpoint_eq_ok, nsOf_eq_ok]
  constructor
  · rintro ⟨r, hparse, _, hns, heq⟩
    obtain ⟨rfl, rfl⟩ := Prod.mk.inj heq
    exact ⟨r, hparse, hns, rfl⟩
  · rintro ⟨r, hparse, hns, rfl⟩
    exact ⟨r, hparse, ns, hns, rfl⟩

/-- Setting an interface does it, or fails and may have done it. -/
theorem setLinkState_cases (host : ScenarioHost) (lab : RunningLab) (endpoint : String) (up : Bool) (down : String → Bool) :
    (Sets host lab endpoint up ∧ lab.setLinkState host endpoint up down = (none, Function.update down endpoint !up)) ∨
      (¬ Sets host lab endpoint up ∧ ∃ e down', lab.setLinkState host endpoint up down = (some e, down') ∧
        (down' = down ∨ down' = Function.update down endpoint !up)) := by
  unfold setLinkState
  cases hlink : lab.linkOf host endpoint with
  | error e =>
    refine .inr ⟨fun ⟨r, ns, hparse, hns, _⟩ => ?_, e, down, rfl, .inl rfl⟩
    cases hlink.symm.trans (linkOf_eq_ok.mpr ⟨r, hparse, hns, rfl⟩)
  | ok link =>
    obtain ⟨ns, iface⟩ := link
    obtain ⟨r, hparse, hns, rfl⟩ := linkOf_eq_ok.mp hlink
    dsimp only
    cases hset : host.setLink ns r.iface up with
    | none => exact .inl ⟨⟨r, ns, hparse, hns, hset⟩, rfl⟩
    | some e =>
      refine .inr ⟨?_, e, _, rfl, ?_⟩
      · rintro ⟨r', ns', hparse', hns', hset'⟩
        cases hparse.symm.trans hparse'
        cases hns.symm.trans hns'
        cases hset.symm.trans hset'
      · split_ifs
        · exact .inr rfl
        · exact .inl rfl

/-- What is down was down before the scenario, or the scenario will bring it up. -/
def Run.Noted (s : Run) (before : String → Bool) : Prop :=
  ∀ ep, s.down ep = true → before ep = true ∨ ep ∈ s.undo.down

/-- Of an interface set up or down, only one set down can be down that was not. -/
theorem down_of_set {host : ScenarioHost} {endpoint ep : String} {up : Bool} {down : String → Bool}
    (h : (lab.setLinkState host endpoint up down).2 ep = true) : down ep = true ∨ (ep = endpoint ∧ up = false) := by
  have hset : Function.update down endpoint (!up) ep = true → down ep = true ∨ (ep = endpoint ∧ up = false) := by
    intro h
    by_cases heq : ep = endpoint
    · rw [heq, Function.update_self] at h
      exact .inr ⟨heq, (Bool.not_eq_true' up).mp h⟩
    · rw [Function.update_of_ne heq] at h
      exact .inl h
  rcases setLinkState_cases host lab endpoint up down with ⟨-, heq⟩ | ⟨-, e, down', heq, rfl | rfl⟩
  · rw [heq] at h
    exact hset h
  · rw [heq] at h
    exact .inl h
  · rw [heq] at h
    exact hset h

/-- An interface that could be set up is up. -/
theorem not_down_of_up {host : ScenarioHost} {endpoint : String} {down : String → Bool}
    (h : (lab.setLinkState host endpoint true down).2 endpoint = true) : ¬ Sets host lab endpoint true := by
  intro hsets
  rcases setLinkState_cases host lab endpoint true down with ⟨-, heq⟩ | ⟨hnot, -⟩
  · rw [heq] at h
    simp at h
  · exact hnot hsets

theorem Run.Noted.act {s : Run} {before : String → Bool} (h : s.Noted before) (host : ScenarioHost) (action : LiveAction) :
    (s.act host action).Noted before := by
  cases action with
  | down endpoint =>
    -- noted before it is tried, so that it need not have succeeded
    intro ep hep
    have hundo : (s.act host (.down endpoint)).undo.down = btreeSet (endpoint :: s.undo.down) := by
      unfold Run.act
      dsimp only
      split_ifs <;> rfl
    rw [hundo, mem_btreeSet, List.mem_cons]
    rcases down_of_set hep with hdown | ⟨rfl, -⟩
    · exact (h ep hdown).imp_right .inr
    · exact .inr (.inl rfl)
  | up endpoint =>
    intro ep hep
    have hdown : s.down ep = true := (down_of_set hep).resolve_right fun hup => Bool.noConfusion hup.2
    refine (h ep hdown).imp_right fun hnoted => ?_
    rcases setLinkState_cases host s.lab endpoint true s.down with ⟨hsets, heq⟩ | ⟨-, e, down', heq, -⟩
    · have hne : ep ≠ endpoint := fun hsame => not_down_of_up (hsame ▸ hep) hsets
      unfold Run.act
      dsimp only
      rw [heq]
      exact List.mem_filter.mpr ⟨hnoted, decide_eq_true hne⟩
    · unfold Run.act
      dsimp only
      rw [heq]
      exact hnoted
  | clear endpoint | impair endpoint => exact h
  | partition endpoint both | heal endpoint both =>
    unfold Run.act
    dsimp only
    split <;> exact h

theorem Run.Noted.run {s : Run} {before : String → Bool} (h : s.Noted before) (es : List Event) :
    (s.run vals es).Noted before := by
  induction es generalizing s with
  | nil => exact h
  | cons e es ih =>
    refine ih ?_
    cases e with
    | act host action =>
      unfold Run.step
      dsimp only
      split_ifs
      · exact h.act host action
      · exact h
    | change host =>
      unfold Run.step
      dsimp only
      split
      · exact h
      · split <;> exact h
    | other host request => exact h

/-- What stays down could not be brought up. -/
theorem down_bringUp {host : ScenarioHost} {eps : List String} {down : String → Bool} {ep : String}
    (h : (lab.bringUp host eps down).2 ep = true) : down ep = true ∧ (ep ∈ eps → ¬ Sets host lab ep true) := by
  induction eps generalizing down with
  | nil => exact ⟨h, nofun⟩
  | cons e eps ih =>
    obtain ⟨hset, heps⟩ := ih h
    have hdown : down ep = true := (down_of_set hset).resolve_right fun hup => Bool.noConfusion hup.2
    refine ⟨hdown, fun hep => ?_⟩
    rcases List.mem_cons.mp hep with rfl | hep
    · exact not_down_of_up hset
    · exact heps hep

/-- The report names no failure when every interface can be set up. -/
theorem ups_bringUp (host : ScenarioHost) (lab : RunningLab) (eps : List String) (down : String → Bool) :
    (∀ u ∈ (lab.bringUp host eps down).1, u.2 = none) ↔ ∀ ep ∈ eps, Sets host lab ep true := by
  induction eps generalizing down with
  | nil => exact iff_of_true (fun _ => nofun) fun _ => nofun
  | cons e eps ih =>
    have hfirst : (lab.setLinkState host e true down).1 = none ↔ Sets host lab e true := by
      rcases setLinkState_cases host lab e true down with ⟨hsets, heq⟩ | ⟨hnot, _, _, heq, -⟩
      · exact iff_of_true (by rw [heq]) hsets
      · exact iff_of_false (by rw [heq]; exact Option.some_ne_none _) hnot
    unfold bringUp
    dsimp only
    rw [List.forall_mem_cons, List.forall_mem_cons, ih]
    exact and_congr_left fun _ => hfirst

/-- At the end of a scenario an interface is down only when it was before, or when it cannot be
brought up. -/
theorem down_putBack (vals : Values) (lab : RunningLab) (file : LabFile) (down : String → Bool) (es : List Event)
    (host : ScenarioHost) (ep : String) :
    let s := (Run.start lab file down).run vals es
    (s.putBack host).2.down ep = false ∨ down ep = true ∨ ¬ Sets host s.lab ep true := by
  have hnoted : ((Run.start lab file down).run vals es).Noted down := Run.Noted.run (fun _ hep => .inl hep) es
  dsimp only
  generalize (Run.start lab file down).run vals es = s at hnoted ⊢
  refine or_iff_not_imp_left.mpr fun hdown => ?_
  obtain ⟨hd, hsets⟩ := down_bringUp (Bool.eq_true_of_not_eq_false hdown)
  exact (hnoted ep hd).imp_right hsets

/-! ### When all is put back -/

/-- Where every change of traffic control is taken, putting back reports no failure exactly when
each interface it has to bring up can be set up and the node of each endpoint it has to put back
is still there. -/
theorem succeeds_putBack (vals : Values) (starttime : UInt32 → Option UInt64) (read file : LabFile) (down : String → Bool)
    (hversion : ¬ file.state.schemaVersion > SCHEMA_VERSION) (es : List Event) (host : ScenarioHost) (hhost : host.Takes) :
    let s := (Run.start (.load starttime read) file down).run vals es
    (s.putBack host).1.Succeeds ↔
      (∀ ep ∈ s.undo.down, Sets host s.lab ep true) ∧
        ∀ ep ∈ s.undo.touched,
          ((s.file.tc ep).live ≠ (read.tc ep).live ∨ (s.file.tc ep).partitioned ≠ (read.tc ep).partitioned) →
            ∀ r, EndpointRef.parse ep = some r →
              ((s.lab.refresh host.starttime s.file).nsResolverOf host.toHost r.node).isSome := by
  have hinv := inv_run vals starttime read down hversion es
  dsimp only
  generalize (Run.start (.load starttime read) file down).run vals es = s at hinv ⊢
  have hread : ∀ ep, read.state.savedImpairments.contains ep = (read.tc ep).partitioned := fun ep =>
    (partitioned_eq_contains read ep).symm
  have hiff := exists_restoreRuntimeTc hhost hinv.clean hinv.version s.undo.tc s.undo.touched
  simp only [hinv.tc, hread] at hiff
  rw [← hinv.tc] at hiff
  have hreport : (s.putBack host).1.Succeeds ↔ (∀ u ∈ (s.lab.bringUp host s.undo.down s.down).1, u.2 = none) ∧
      ∃ changed, (s.lab.restoreRuntimeTc host.toHost s.undo.tc (some s.undo.touched) s.file).1 = .ok changed :=
    ⟨fun h => ⟨h.ups, h.tc⟩, fun h => ⟨h.1, h.2⟩⟩
  exact hreport.trans (and_congr (ups_bringUp host s.lab s.undo.down s.down) hiff)

theorem succeeds_putBack_cutLink :
    (((Run.start (.load quietHost.starttime (linkedLab ∅)) (linkedLab ∅) fun _ => false).run delays
      (.act openHost (.down "b:eth0") :: cutLink)).putBack openHost).1.Succeeds := by
  have hundo : ((Run.start (.load quietHost.starttime (linkedLab ∅)) (linkedLab ∅) fun _ => false).run delays
      (.act openHost (.down "b:eth0") :: cutLink)).undo.down = ["b:eth0"] ∧
      ((Run.start (.load quietHost.starttime (linkedLab ∅)) (linkedLab ∅) fun _ => false).run delays
        (.act openHost (.down "b:eth0") :: cutLink)).undo.touched = ["a:eth0", "b:eth0"] := by decide +kernel
  have ha : EndpointRef.parse "a:eth0" = some ⟨"a", "eth0"⟩ := by decide +kernel
  have hb : EndpointRef.parse "b:eth0" = some ⟨"b", "eth0"⟩ := by decide +kernel
  refine (succeeds_putBack delays quietHost.starttime (linkedLab ∅) (linkedLab ∅) (fun _ => false) (by decide)
    (.act openHost (.down "b:eth0") :: cutLink) openHost quietHost_takes).mpr ⟨fun ep hep => ?_, fun ep hep _ r hr => ?_⟩
  · rw [hundo.1] at hep
    obtain rfl := List.mem_singleton.mp hep
    obtain ⟨ns, hns⟩ := Option.isSome_iff_exists.mp (by decide +kernel :
      ((((Run.start (.load quietHost.starttime (linkedLab ∅)) (linkedLab ∅) fun _ => false).run delays
        (.act openHost (.down "b:eth0") :: cutLink)).lab).nsResolverOf openHost.toHost "b").isSome = true)
    exact ⟨_, ns, hb, hns, rfl⟩
  · rw [hundo.2] at hep
    rcases List.mem_cons.mp hep with rfl | hep
    · cases ha.symm.trans hr
      decide +kernel
    · obtain rfl := List.mem_singleton.mp hep
      cases hb.symm.trans hr
      decide +kernel

end Scenario

end NlinkLab
